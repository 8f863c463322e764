/-
The payload buffer of `sia_common.c`, `opt->payload_buffer`.

The buffer is a document `{files: [{name, multiparts: [{part, data}, ...]}, ...]}`.  A
pointer to a file or to a part of it is its position in its array, since neither array
is ever sorted and `push_file` only appends.  `PayloadFile` is what a file of the
buffer holds, and the buffer that any calls lead to is the document of such files.
-/
import SiaFS.Common.Upload
import SiaFS.Lib.FirstWins

namespace SiaFS

namespace Json

def cJSON_AddItemToArray : Json → Json → Json
  | .arr items, item => .arr (items ++ [item])
  | array, _ => array

def cJSON_GetArraySize (array : Json) : Nat := array.children.length

/-- Nothing happens when the index is out of range. -/
def cJSON_DeleteItemFromArray : Json → Nat → Json
  | .arr items, which => .arr (items.eraseIdx which)
  | array, _ => array

/-- What a write through the pointer to the first member of a name makes of its
object. -/
def writeMember (name : CStr) (f : Json → Json) : Json → Json
  | .obj fields => .obj (go fields)
  | item => item
where
  go : List (CStr × Json) → List (CStr × Json)
    | [] => []
    | (n, item) :: rest => if name = n then (n, f item) :: rest else (n, item) :: go rest

/-- A write through the pointer to an element. -/
def writeElement (i : Nat) (f : Json → Json) : Json → Json
  | .arr items => .arr (items.modify i f)
  | array => array

end Json

open Json

/-! ## The functions -/

/-- `cJSON_ArrayForEach`, left with `found` set at the first element of the kind.  Otherwise
the loop ends with the pointer null. -/
def forEach (test : Json → Bool) : List Json → Option Nat × Bool
  | [] => (none, false)
  | item :: rest =>
    if test item then (some 0, true)
    else ((forEach test rest).1.map (· + 1), (forEach test rest).2)

def isFileOf (path : CStr) (leaf : Json) : Bool :=
  match cJSON_GetObjectItemCaseSensitive leaf (lit "name") with
  | some (.str filename) => path == filename
  | _ => false

def find_file_by_path (payload_buffer : Option Json) (path : CStr) : Option Nat :=
  match payload_buffer.bind fun b => cJSON_GetObjectItemCaseSensitive b (lit "files") with
  | some (.arr files) =>
    if (forEach (isFileOf path) files).2 then (forEach (isFileOf path) files).1 else none
  | _ => none

def newFile (path : CStr) : Json :=
  .obj [(lit "name", .str path), (lit "multiparts", .arr [])]

/-- The buffer, and the file in it. -/
def push_file (payload_buffer : Option Json) (path : CStr) : Option Json × Option Nat :=
  match find_file_by_path payload_buffer path with
  | some leaf => (payload_buffer, some leaf)
  | none =>
    match payload_buffer.bind fun b => cJSON_GetObjectItemCaseSensitive b (lit "files") with
    | some (.arr files) =>
      (payload_buffer.map (writeMember (lit "files") (cJSON_AddItemToArray · (newFile path))),
        some files.length)
    | _ => (payload_buffer, none)

/-- `part->valueint == pn`, with the `int` converted to `unsigned`. -/
def isPartOf (pn : UInt32) (mpart : Json) : Bool :=
  match cJSON_GetObjectItemCaseSensitive mpart (lit "part") with
  | some (.num n) => u32 (valueint (.num n)) == pn.toNat
  | _ => false

def find_payload_multipart_by_number (file : Option Json) (pn : UInt32) : Option Nat :=
  match file.bind fun f => cJSON_GetObjectItemCaseSensitive f (lit "multiparts") with
  | some (.arr mparts) =>
    if (forEach (isPartOf pn) mparts).2 then (forEach (isPartOf pn) mparts).1 else none
  | _ => none

def newPart (pn : UInt32) (base64 : CStr) : Json :=
  .obj [(lit "part", .num pn.toNat), (lit "data", .str base64)]

/-- The file, and the part in it. -/
def push_payload_multipart (file : Option Json) (pn : UInt32) (base64 : CStr) :
    Option Json × Option Nat :=
  match find_payload_multipart_by_number file pn with
  | some mpart => (file, some mpart)
  | none =>
    match file.bind fun f => cJSON_GetObjectItemCaseSensitive f (lit "multiparts") with
    | some (.arr multiparts) =>
      (file.map (writeMember (lit "multiparts") (cJSON_AddItemToArray · (newPart pn base64))),
        some multiparts.length)
    | _ => (file, none)

/-- The elements `0` to `total - 1`, each by its index at the time. -/
def deleteEach (total : Nat) (multiparts : Json) : Json :=
  (List.range total).foldl cJSON_DeleteItemFromArray multiparts

def flush_payload_multiparts (file : Option Json) : Option Json :=
  match file.bind fun f => cJSON_GetObjectItemCaseSensitive f (lit "multiparts") with
  | some (.arr multiparts) =>
    file.map (writeMember (lit "multiparts")
      (deleteEach (u32 (cJSON_GetArraySize (.arr multiparts)))))
  | _ => file

/-! ## Files of the buffer -/

/-- The file at a position. -/
def fileAt (buffer : Json) (i : Nat) : Option Json :=
  (cJSON_GetObjectItemCaseSensitive buffer (lit "files")).bind fun files => files.children[i]?

/-- A function that writes to the file a pointer leads to. -/
def throughFile (f : Option Json → Option Json) (buffer : Json) :
    Option Nat → Except Fault Json
  | none => .ok buffer
  | some i =>
    match fileAt buffer i with
    | some file =>
      .ok (writeMember (lit "files") (writeElement i fun _ => (f (some file)).getD file) buffer)
    | none => .error .outOfBounds

inductive PayloadCall
  | push_file (path : CStr)
  | push_payload_multipart (file : Option Nat) (pn : UInt32) (base64 : CStr)

def PayloadCall.run (buffer : Json) : PayloadCall → Except Fault Json
  | .push_file path => .ok ((SiaFS.push_file (some buffer) path).1.getD buffer)
  | .push_payload_multipart file pn base64 =>
    throughFile (fun f => (SiaFS.push_payload_multipart f pn base64).1) buffer file

/-- `{files: []}` -/
def emptyBuffer : Json := .obj [(lit "files", .arr [])]

def runCalls (calls : List PayloadCall) : Except Fault Json :=
  calls.foldlM PayloadCall.run emptyBuffer

/-! ## What the buffer holds -/

structure PayloadFile where
  name : CStr
  parts : List (UInt32 × CStr)

def PayloadFile.json (f : PayloadFile) : Json :=
  .obj [(lit "name", .str f.name),
    (lit "multiparts", .arr (f.parts.map fun p => newPart p.1 p.2))]

def bufferOf (files : List PayloadFile) : Json :=
  .obj [(lit "files", .arr (files.map PayloadFile.json))]

/-- Whether the search for part `pn` stops at part `p`. -/
def samePart (pn p : UInt32) : Bool := u32 (valueint (.num p.toNat)) == pn.toNat

def PayloadFile.push (f : PayloadFile) (pn : UInt32) (base64 : CStr) : PayloadFile :=
  if f.parts.any fun p => samePart pn p.1 then f
  else { f with parts := f.parts ++ [(pn, base64)] }

variable {files : List PayloadFile} {file : PayloadFile} {path base64 : CStr} {pn : UInt32}
  {i : Nat}

theorem forEach_eq (test : Json → Bool) (items : List Json) :
    (if (forEach test items).2 then (forEach test items).1 else none) = items.findIdx? test := by
  induction items with
  | nil => rfl
  | cons item rest ih =>
    rw [forEach, List.findIdx?_cons]
    split
    · rfl
    · rw [← ih]
      show (if (forEach test rest).2 then (forEach test rest).1.map (· + 1) else none) = _
      split <;> rfl

theorem bufferOf_files (files : List PayloadFile) :
    cJSON_GetObjectItemCaseSensitive (bufferOf files) (lit "files") =
      some (.arr (files.map PayloadFile.json)) := rfl

theorem json_multiparts (file : PayloadFile) :
    cJSON_GetObjectItemCaseSensitive file.json (lit "multiparts") =
      some (.arr (file.parts.map fun p => newPart p.1 p.2)) := rfl

theorem writeMember_files (f : Json → Json) :
    writeMember (lit "files") f (bufferOf files) =
      .obj [(lit "files", f (.arr (files.map PayloadFile.json)))] := rfl

theorem writeMember_multiparts (f : Json → Json) :
    writeMember (lit "multiparts") f file.json =
      .obj [(lit "name", .str file.name),
        (lit "multiparts", f (.arr (file.parts.map fun p => newPart p.1 p.2)))] := rfl

theorem fileAt_bufferOf (files : List PayloadFile) (i : Nat) :
    fileAt (bufferOf files) i = files[i]?.map PayloadFile.json := by
  rw [fileAt, bufferOf_files, Option.bind_some]
  exact List.getElem?_map

theorem find_file_bufferOf (files : List PayloadFile) (path : CStr) :
    find_file_by_path (some (bufferOf files)) path =
      files.findIdx? fun f => path == f.name := by
  rw [find_file_by_path, Option.bind_some, bufferOf_files]
  dsimp only
  rw [forEach_eq, List.findIdx?_map]
  rfl

theorem find_part_json (file : PayloadFile) (pn : UInt32) :
    find_payload_multipart_by_number (some file.json) pn =
      file.parts.findIdx? fun p => samePart pn p.1 := by
  rw [find_payload_multipart_by_number, Option.bind_some, json_multiparts]
  dsimp only
  rw [forEach_eq, List.findIdx?_map]
  rfl

theorem push_file_bufferOf (files : List PayloadFile) (path : CStr) :
    (push_file (some (bufferOf files)) path).1 =
      some (bufferOf (FirstWins.push PayloadFile.name files ⟨path, []⟩)) := by
  rw [push_file, find_file_bufferOf]
  cases hfind : files.findIdx? fun f => path == f.name with
  | some leaf =>
    obtain ⟨hlt, hname, -⟩ := List.findIdx?_eq_some_iff_getElem.mp hfind
    have hmem : path ∈ files.map PayloadFile.name :=
      List.mem_map.mpr ⟨files[leaf], List.getElem_mem hlt, (beq_iff_eq.mp hname).symm⟩
    rw [FirstWins.push_of_mem hmem]
  | none =>
    have hmem : path ∉ files.map PayloadFile.name := by
      intro hmem
      obtain ⟨f, hf, rfl⟩ := List.mem_map.mp hmem
      have hne := List.findIdx?_eq_none_iff.mp hfind f hf
      rw [beq_self_eq_true] at hne
      cases hne
    rw [FirstWins.push_of_not_mem hmem, Option.bind_some, bufferOf_files]
    dsimp only
    rw [Option.map_some, writeMember_files, bufferOf, List.map_append]
    rfl

theorem push_part_json (file : PayloadFile) (pn : UInt32) (base64 : CStr) :
    (push_payload_multipart (some file.json) pn base64).1 = some (file.push pn base64).json := by
  rw [push_payload_multipart, find_part_json, PayloadFile.push, ← List.findIdx?_isSome]
  cases file.parts.findIdx? fun p => samePart pn p.1 with
  | some mpart => rfl
  | none =>
    rw [Option.bind_some, json_multiparts]
    dsimp only
    rw [Option.map_some, writeMember_multiparts, Option.isSome_none, if_neg Bool.false_ne_true,
      PayloadFile.json, List.map_append]
    rfl

/-- A write through the pointer to a file. -/
theorem throughFile_bufferOf {f : Option Json → Option Json} {g : PayloadFile → PayloadFile}
    (h : ∀ file : PayloadFile, f (some file.json) = some (g file).json)
    (hi : files[i]? = some file) :
    throughFile f (bufferOf files) (some i) = .ok (bufferOf (files.modify i g)) := by
  rw [throughFile, fileAt_bufferOf, hi, Option.map_some]
  dsimp only
  rw [h, Option.getD_some, writeMember_files, bufferOf, writeElement]
  congr 5
  apply List.ext_getElem?
  intro j
  rw [List.getElem?_modify, List.getElem?_map, List.getElem?_map, List.getElem?_modify]
  by_cases hij : i = j
  · subst hij
    simp [hi]
  · cases files[j]? <;> simp [hij]

namespace PayloadCall

/-- What a call does to the files of the buffer. -/
def onFiles (files : List PayloadFile) : PayloadCall → List PayloadFile
  | .push_file path => FirstWins.push PayloadFile.name files ⟨path, []⟩
  | .push_payload_multipart none _ _ => files
  | .push_payload_multipart (some i) pn base64 => files.modify i (·.push pn base64)

/-- The file a call is about. -/
def target : PayloadCall → Option Nat
  | .push_file _ => none
  | .push_payload_multipart file _ _ => file

variable {call : PayloadCall} {calls : List PayloadCall} {after : Json}

theorem run_bufferOf (h : call.run (bufferOf files) = .ok after) :
    after = bufferOf (call.onFiles files) ∧ ∀ i, call.target = some i → i < files.length := by
  cases call with
  | push_file path =>
    rw [run, push_file_bufferOf] at h
    cases h
    exact ⟨rfl, nofun⟩
  | push_payload_multipart file pn base64 =>
    cases file with
    | none =>
      cases h
      exact ⟨rfl, nofun⟩
    | some i =>
      cases hi : files[i]? with
      | none =>
        rw [run, throughFile, fileAt_bufferOf, hi] at h
        cases h
      | some file =>
        rw [run, throughFile_bufferOf (fun f => push_part_json f pn base64) hi] at h
        cases h
        refine ⟨rfl, fun j hj => ?_⟩
        cases hj
        exact (List.getElem?_eq_some_iff.mp hi).1

end PayloadCall

/-- A run of calls, one after another. -/
theorem runCalls_concat {calls : List PayloadCall} {call : PayloadCall} {after : Json}
    (h : runCalls (calls ++ [call]) = .ok after) :
    ∃ buffer, runCalls calls = .ok buffer ∧ call.run buffer = .ok after := by
  rw [runCalls, List.foldlM_append] at h
  cases hcalls : calls.foldlM PayloadCall.run emptyBuffer with
  | error x =>
    rw [hcalls] at h
    cases h
  | ok buffer =>
    rw [hcalls] at h
    refine ⟨buffer, hcalls, ?_⟩
    have hlast : (call.run buffer >>= fun b => pure b) = .ok after := h
    rwa [bind_pure] at hlast

/-- The buffer after any calls is a document of files. -/
theorem runCalls_bufferOf {calls : List PayloadCall} {buffer : Json}
    (h : runCalls calls = .ok buffer) :
    buffer = bufferOf (calls.foldl PayloadCall.onFiles []) := by
  induction calls using List.reverseRecOn generalizing buffer with
  | nil =>
    cases h
    rfl
  | append_singleton calls call ih =>
    obtain ⟨before, hbefore, hcall⟩ := runCalls_concat h
    rw [ih hbefore] at hcall
    rw [List.foldl_append]
    exact (PayloadCall.run_bufferOf hcall).1

end SiaFS
