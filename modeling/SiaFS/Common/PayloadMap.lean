/-
The payload buffer against the maps it is meant to be.

The files are those whose paths were pushed, each once, and the parts of a file are
those pushed on it, the first of every number.  The numbers are told apart as long as
an `int` holds them.  `flush_payload_multiparts` deletes by an index that grows in an
array that shrinks, so that the parts at odd positions stay.
-/
import Mathlib.Data.List.InsertIdx
import SiaFS.Common.PayloadBuffer

namespace SiaFS

open Json

variable {calls : List PayloadCall} {call : PayloadCall} {files : List PayloadFile}
  {file : PayloadFile} {buffer after : Json} {path : CStr} {pn p : UInt32} {i j : Nat}

namespace PayloadCall

/-- The path pushed as a file. -/
def path? : PayloadCall → Option CStr
  | .push_file path => some path
  | _ => none

/-- The part pushed on the file at a position. -/
def part? (i : Nat) : PayloadCall → Option (UInt32 × CStr)
  | .push_payload_multipart (some j) pn base64 => if i = j then some (pn, base64) else none
  | _ => none

/-- The part number is one that an `int` holds. -/
def Small : PayloadCall → Prop
  | .push_payload_multipart _ pn _ => pn.toNat ≤ 2 ^ 31 - 1
  | _ => True

end PayloadCall

theorem valueint_small (hp : p.toNat ≤ 2 ^ 31 - 1) : valueint (.num p.toNat) = p.toNat := by
  show max (-2 ^ 31) (min (p.toNat : Int) (2 ^ 31 - 1)) = p.toNat
  omega

theorem samePart_small (hp : p.toNat ≤ 2 ^ 31 - 1) : samePart pn p = (p == pn) := by
  have hvalue : u32 (valueint (.num p.toNat)) = p.toNat := by
    rw [valueint_small hp, u32]
    omega
  rw [samePart, hvalue, Bool.eq_iff_iff, beq_iff_eq, beq_iff_eq, UInt32.toNat_inj]

/-- What any calls have left in the files. -/
structure HoldsPushes (calls : List PayloadCall) (files : List PayloadFile) : Prop where
  names : files.map PayloadFile.name = FirstWins.pushAll id (calls.filterMap PayloadCall.path?)
  parts : ∀ i file, files[i]? = some file →
    file.parts = FirstWins.pushAll Prod.fst (calls.filterMap (PayloadCall.part? i))
  later : ∀ i, files.length ≤ i → calls.filterMap (PayloadCall.part? i) = []

theorem push_name (file : PayloadFile) (pn : UInt32) (base64 : CStr) :
    (file.push pn base64).name = file.name := by
  unfold PayloadFile.push
  split <;> rfl

/-- Parts of small numbers are told apart by their numbers. -/
theorem push_small (hfile : ∀ p ∈ file.parts, p.1.toNat ≤ 2 ^ 31 - 1) (pn : UInt32)
    (base64 : CStr) :
    (file.push pn base64).parts = FirstWins.push Prod.fst file.parts (pn, base64) := by
  have hany : (file.parts.any fun p => samePart pn p.1) = true ↔
      pn ∈ file.parts.map Prod.fst := by
    rw [List.any_eq_true, List.mem_map]
    constructor
    · intro h
      obtain ⟨p, hp, hsame⟩ := h
      rw [samePart_small (hfile p hp), beq_iff_eq] at hsame
      exact ⟨p, hp, hsame⟩
    · intro h
      obtain ⟨p, hp, rfl⟩ := h
      exact ⟨p, hp, by rw [samePart_small (hfile p hp), beq_self_eq_true]⟩
  by_cases hpn : pn ∈ file.parts.map Prod.fst
  · rw [PayloadFile.push, if_pos (hany.mpr hpn), FirstWins.push_of_mem hpn]
  · rw [PayloadFile.push, if_neg fun h => hpn (hany.mp h), FirstWins.push_of_not_mem hpn]

theorem HoldsPushes.small (h : HoldsPushes calls files) (hcalls : ∀ call ∈ calls, call.Small)
    (hi : files[i]? = some file) : ∀ p ∈ file.parts, p.1.toNat ≤ 2 ^ 31 - 1 := by
  intro p hp
  rw [h.parts i file hi] at hp
  obtain ⟨call, hcall, hpart⟩ := List.mem_filterMap.mp (FirstWins.mem_of_mem_pushAll hp)
  have hsmall := hcalls call hcall
  cases call with
  | push_file path => cases hpart
  | push_payload_multipart target pn base64 =>
    cases target with
    | none => cases hpart
    | some j =>
      rw [PayloadCall.part?] at hpart
      split at hpart
      · cases hpart
        exact hsmall
      · cases hpart

theorem HoldsPushes.push_file (h : HoldsPushes calls files) (path : CStr) :
    HoldsPushes (calls ++ [.push_file path])
      (FirstWins.push PayloadFile.name files ⟨path, []⟩) := by
  have hpaths : (calls ++ [PayloadCall.push_file path]).filterMap PayloadCall.path? =
      calls.filterMap PayloadCall.path? ++ [path] := List.filterMap_append
  have hparts : ∀ i, (calls ++ [PayloadCall.push_file path]).filterMap (PayloadCall.part? i) =
      calls.filterMap (PayloadCall.part? i) := by
    intro i
    rw [List.filterMap_append]
    exact List.append_nil _
  by_cases hpath : path ∈ files.map PayloadFile.name
  · rw [FirstWins.push_of_mem hpath]
    constructor
    · rw [hpaths, FirstWins.pushAll_concat, ← h.names, FirstWins.push_of_mem]
      rwa [List.map_id]
    · intro i file hi
      rw [hparts, h.parts i file hi]
    · intro i hi
      rw [hparts, h.later i hi]
  · rw [FirstWins.push_of_not_mem hpath]
    constructor
    · rw [hpaths, FirstWins.pushAll_concat, ← h.names, FirstWins.push_of_not_mem, List.map_append]
      · rfl
      · rwa [List.map_id]
    · intro i file hi
      rw [hparts]
      rw [List.getElem?_append] at hi
      split at hi
      · exact h.parts i file hi
      · rename_i hlast
        rw [h.later i (by omega)]
        rw [List.getElem?_singleton] at hi
        split at hi
        · cases hi
          rfl
        · cases hi
    · intro i hi
      rw [hparts]
      apply h.later
      rw [List.length_append] at hi
      omega

theorem HoldsPushes.push_part (h : HoldsPushes calls files)
    (hcalls : ∀ call ∈ calls, call.Small) (hj : j < files.length) (pn : UInt32) (base64 : CStr) :
    HoldsPushes (calls ++ [.push_payload_multipart (some j) pn base64])
      (files.modify j (·.push pn base64)) := by
  have hparts : ∀ i, (calls ++ [PayloadCall.push_payload_multipart (some j) pn base64]).filterMap
      (PayloadCall.part? i) = calls.filterMap (PayloadCall.part? i) ++
        if i = j then [(pn, base64)] else [] := by
    intro i
    rw [List.filterMap_append]
    congr 1
    by_cases hij : i = j <;> simp [PayloadCall.part?, hij]
  constructor
  · have hpaths : (calls ++ [PayloadCall.push_payload_multipart (some j) pn base64]).filterMap
        PayloadCall.path? = calls.filterMap PayloadCall.path? := by
      rw [List.filterMap_append]
      exact List.append_nil _
    rw [hpaths, ← h.names]
    apply List.ext_getElem?
    intro i
    rw [List.getElem?_map, List.getElem?_map, List.getElem?_modify]
    cases files[i]? with
    | none => rfl
    | some file =>
      show some (PayloadFile.name (if j = i then file.push pn base64 else file)) = some file.name
      split
      · rw [push_name]
      · rfl
  · intro i file hi
    rw [hparts]
    rw [List.getElem?_modify] at hi
    obtain ⟨old, hold, rfl⟩ := Option.map_eq_some_iff.mp hi
    by_cases hij : j = i
    · subst hij
      rw [if_pos rfl, if_pos rfl, push_small (h.small hcalls hold), h.parts j old hold,
        FirstWins.pushAll_concat]
    · rw [if_neg hij, if_neg fun hji => hij hji.symm, List.append_nil]
      exact h.parts i old hold
  · intro i hi
    rw [List.length_modify] at hi
    rw [hparts, h.later i hi, if_neg (by omega)]
    rfl

/-- One more call. -/
theorem HoldsPushes.step (h : HoldsPushes calls files) (hcalls : ∀ call ∈ calls, call.Small)
    (htarget : ∀ i, call.target = some i → i < files.length) :
    HoldsPushes (calls ++ [call]) (call.onFiles files) := by
  cases call with
  | push_file path => exact h.push_file path
  | push_payload_multipart target pn base64 =>
    cases target with
    | some j => exact h.push_part hcalls (htarget j rfl) pn base64
    | none =>
      constructor
      · rw [List.filterMap_append]
        exact h.names.trans (congrArg _ (List.append_nil _).symm)
      · intro i file hi
        rw [List.filterMap_append]
        exact (h.parts i file hi).trans (congrArg _ (List.append_nil _).symm)
      · intro i hi
        rw [List.filterMap_append, h.later i hi]
        rfl

theorem HoldsPushes.run (hcalls : ∀ call ∈ calls, call.Small)
    (h : runCalls calls = .ok buffer) :
    ∃ files, buffer = bufferOf files ∧ HoldsPushes calls files := by
  induction calls using List.reverseRecOn generalizing buffer with
  | nil =>
    cases h
    exact ⟨[], rfl, rfl, nofun, fun _ _ => rfl⟩
  | append_singleton calls call ih =>
    obtain ⟨before, hbefore, hcall⟩ := runCalls_concat h
    have hsmall : ∀ call ∈ calls, call.Small :=
      fun c hc => hcalls c (List.mem_append_left _ hc)
    obtain ⟨files, rfl, hholds⟩ := ih hsmall hbefore
    obtain ⟨hafter, htarget⟩ := PayloadCall.run_bufferOf hcall
    exact ⟨call.onFiles files, hafter, hholds.step hsmall htarget⟩

/-! ## Two maps, one in the other -/

def filesOf (buffer : Json) : List Json :=
  match cJSON_GetObjectItemCaseSensitive buffer (lit "files") with
  | some files => files.children
  | none => []

def nameOf (file : Json) : Option CStr :=
  (cJSON_GetObjectItemCaseSensitive file (lit "name")).bind valuestring

def partsOf (file : Json) : List Json :=
  match cJSON_GetObjectItemCaseSensitive file (lit "multiparts") with
  | some multiparts => multiparts.children
  | none => []

def numberOf (mpart : Json) : Option Int :=
  (cJSON_GetObjectItemCaseSensitive mpart (lit "part")).bind number?

def dataOf (mpart : Json) : Option CStr :=
  (cJSON_GetObjectItemCaseSensitive mpart (lit "data")).bind valuestring

/-- The data of the first push of a number on a file. -/
def firstPush (calls : List PayloadCall) (i : Nat) (pn : UInt32) : Option CStr :=
  ((calls.filterMap (PayloadCall.part? i)).find? fun p => p.1 == pn).map Prod.snd

structure PayloadMaps (calls : List PayloadCall) (buffer : Json) : Prop where
  names_distinct : ((filesOf buffer).map nameOf).Nodup
  numbers_distinct : ∀ file ∈ filesOf buffer, ((partsOf file).map numberOf).Nodup
  file_found : ∀ path, (find_file_by_path (some buffer) path).isSome ↔ .push_file path ∈ calls
  file_named : ∀ path i, find_file_by_path (some buffer) path = some i →
    (fileAt buffer i).bind nameOf = some path
  part_found : ∀ i file pn, fileAt buffer i = some file →
    ((find_payload_multipart_by_number (some file) pn).isSome ↔
      ∃ base64, .push_payload_multipart (some i) pn base64 ∈ calls)
  part_data : ∀ i file pn k, fileAt buffer i = some file →
    find_payload_multipart_by_number (some file) pn = some k →
      (partsOf file)[k]?.bind dataOf = firstPush calls i pn

theorem mem_part? {base64 : CStr} : (pn, base64) ∈ calls.filterMap (PayloadCall.part? i) ↔
    .push_payload_multipart (some i) pn base64 ∈ calls := by
  rw [List.mem_filterMap]
  constructor
  · intro h
    obtain ⟨call, hcall, hpart⟩ := h
    cases call with
    | push_file path => cases hpart
    | push_payload_multipart target pn' base64' =>
      cases target with
      | none => cases hpart
      | some j =>
        rw [PayloadCall.part?] at hpart
        split at hpart
        · rename_i hij
          cases hpart
          rwa [hij]
        · cases hpart
  · intro h
    exact ⟨_, h, if_pos rfl⟩

theorem mem_path? : path ∈ calls.filterMap PayloadCall.path? ↔ .push_file path ∈ calls := by
  rw [List.mem_filterMap]
  constructor
  · intro h
    obtain ⟨call, hcall, hpath⟩ := h
    cases call with
    | push_file path' =>
      cases hpath
      exact hcall
    | push_payload_multipart target pn base64 => cases hpath
  · intro h
    exact ⟨_, h, rfl⟩

/-- The element at the index that a search returns is the one that a search finds. -/
theorem getElem?_findIdx? {α : Type} {test : α → Bool} {l : List α} {k : Nat}
    (h : l.findIdx? test = some k) : l[k]? = l.find? test := by
  obtain ⟨hk, htest, hbefore⟩ := List.findIdx?_eq_some_iff_getElem.mp h
  rw [List.getElem?_eq_getElem hk]
  exact (List.find?_eq_some_iff_getElem.mpr ⟨htest, k, hk, rfl, by simpa using hbefore⟩).symm

theorem findIdx?_congr {α : Type} {test test' : α → Bool} {l : List α}
    (h : ∀ x ∈ l, test x = test' x) : l.findIdx? test = l.findIdx? test' := by
  induction l with
  | nil => rfl
  | cons x l ih =>
    rw [List.findIdx?_cons, List.findIdx?_cons, h x List.mem_cons_self,
      ih fun y hy => h y (List.mem_cons_of_mem _ hy)]

/-- Among parts of small numbers the search compares numbers. -/
theorem find_part_small (hfile : ∀ p ∈ file.parts, p.1.toNat ≤ 2 ^ 31 - 1) (pn : UInt32) :
    find_payload_multipart_by_number (some file.json) pn =
      file.parts.findIdx? fun p => p.1 == pn := by
  rw [find_part_json]
  exact findIdx?_congr fun p hp => samePart_small (hfile p hp)

theorem HoldsPushes.names_distinct (h : HoldsPushes calls files) :
    ((filesOf (bufferOf files)).map nameOf).Nodup := by
  show ((files.map PayloadFile.json).map nameOf).Nodup
  have hnames : (files.map PayloadFile.json).map nameOf =
      (files.map PayloadFile.name).map some := by
    rw [List.map_map, List.map_map]
    rfl
  have hnodup : ((FirstWins.pushAll id (calls.filterMap PayloadCall.path?)).map id).Nodup :=
    FirstWins.nodup_pushAll _
  rw [List.map_id] at hnodup
  rw [hnames, h.names]
  exact hnodup.map fun _ _ hsome => Option.some.inj hsome

/-- Small numbers are told apart by what an `int` holds of them. -/
theorem HoldsPushes.numbers_distinct (h : HoldsPushes calls files)
    (hcalls : ∀ call ∈ calls, call.Small) (hi : files[i]? = some file) :
    ((partsOf file.json).map numberOf).Nodup := by
  have hsmall := h.small hcalls hi
  show ((file.parts.map fun p => newPart p.1 p.2).map numberOf).Nodup
  have hnumbers : (file.parts.map fun p => newPart p.1 p.2).map numberOf =
      (file.parts.map Prod.fst).map fun pn => number? (.num pn.toNat) := by
    rw [List.map_map, List.map_map]
    rfl
  have hnodup : (file.parts.map Prod.fst).Nodup := by
    rw [h.parts i file hi]
    exact FirstWins.nodup_pushAll _
  rw [hnumbers]
  refine hnodup.map_on fun p hp q hq hpq => ?_
  obtain ⟨x, hx, rfl⟩ := List.mem_map.mp hp
  obtain ⟨y, hy, rfl⟩ := List.mem_map.mp hq
  have hvalue : valueint (.num x.1.toNat) = valueint (.num y.1.toNat) := Option.some.inj hpq
  rw [valueint_small (hsmall x hx), valueint_small (hsmall y hy)] at hvalue
  exact UInt32.toNat_inj.mp (by omega)

theorem HoldsPushes.file_found (h : HoldsPushes calls files) (path : CStr) :
    (find_file_by_path (some (bufferOf files)) path).isSome ↔ .push_file path ∈ calls := by
  have hmem : path ∈ (FirstWins.pushAll id (calls.filterMap PayloadCall.path?)).map id ↔
      path ∈ (calls.filterMap PayloadCall.path?).map id := FirstWins.mem_keys_pushAll
  rw [List.map_id, List.map_id, ← h.names, List.mem_map] at hmem
  rw [find_file_bufferOf, List.findIdx?_isSome, List.any_eq_true, ← mem_path?, ← hmem]
  simp only [beq_iff_eq]
  exact exists_congr fun f => and_congr_right fun _ => eq_comm

theorem HoldsPushes.part_found (h : HoldsPushes calls files)
    (hcalls : ∀ call ∈ calls, call.Small) (hi : files[i]? = some file) (pn : UInt32) :
    (find_payload_multipart_by_number (some file.json) pn).isSome ↔
      ∃ base64, .push_payload_multipart (some i) pn base64 ∈ calls := by
  have hmem : pn ∈ (FirstWins.pushAll Prod.fst (calls.filterMap (PayloadCall.part? i))).map
      Prod.fst ↔ pn ∈ (calls.filterMap (PayloadCall.part? i)).map Prod.fst :=
    FirstWins.mem_keys_pushAll
  rw [← h.parts i file hi, List.mem_map, List.mem_map] at hmem
  rw [find_part_small (h.small hcalls hi), List.findIdx?_isSome, List.any_eq_true]
  simp only [beq_iff_eq]
  rw [hmem]
  constructor
  · intro hpushed
    obtain ⟨p, hp, rfl⟩ := hpushed
    exact ⟨p.2, mem_part?.mp hp⟩
  · intro hpushed
    obtain ⟨base64, hcall⟩ := hpushed
    exact ⟨(pn, base64), mem_part?.mpr hcall, rfl⟩

theorem HoldsPushes.part_data (h : HoldsPushes calls files)
    (hcalls : ∀ call ∈ calls, call.Small) (hi : files[i]? = some file) {k : Nat}
    (hk : find_payload_multipart_by_number (some file.json) pn = some k) :
    (partsOf file.json)[k]?.bind dataOf = firstPush calls i pn := by
  rw [find_part_small (h.small hcalls hi)] at hk
  show ((file.parts.map fun p => newPart p.1 p.2)[k]?).bind dataOf = _
  rw [List.getElem?_map, getElem?_findIdx? hk, h.parts i file hi, FirstWins.find?_pushAll,
    firstPush]
  cases (calls.filterMap (PayloadCall.part? i)).find? fun p => p.1 == pn <;> rfl

theorem HoldsPushes.maps (h : HoldsPushes calls files) (hcalls : ∀ call ∈ calls, call.Small) :
    PayloadMaps calls (bufferOf files) := by
  have hfile : ∀ {i : Nat} {item : Json}, fileAt (bufferOf files) i = some item →
      ∃ file, files[i]? = some file ∧ item = file.json := by
    intro i item hi
    rw [fileAt_bufferOf] at hi
    obtain ⟨file, hfile, rfl⟩ := Option.map_eq_some_iff.mp hi
    exact ⟨file, hfile, rfl⟩
  constructor
  · exact h.names_distinct
  · intro item hitem
    obtain ⟨file, hmem, rfl⟩ := List.mem_map.mp hitem
    obtain ⟨i, hi⟩ := List.mem_iff_getElem?.mp hmem
    exact h.numbers_distinct hcalls hi
  · exact h.file_found
  · intro path i hi
    rw [find_file_bufferOf] at hi
    obtain ⟨hlt, hname, -⟩ := List.findIdx?_eq_some_iff_getElem.mp hi
    rw [fileAt_bufferOf, List.getElem?_eq_getElem hlt, beq_iff_eq.mp hname]
    rfl
  · intro i item pn hi
    obtain ⟨file, hfile, rfl⟩ := hfile hi
    exact h.part_found hcalls hfile pn
  · intro i item pn k hi hk
    obtain ⟨file, hfile, rfl⟩ := hfile hi
    exact h.part_data hcalls hfile hk

/-- A call leaves every file alone but the one it pushes a part on. -/
theorem run_frame {item : Json} (h : call.run (bufferOf files) = .ok after)
    (htarget : call.target ≠ some i) (hi : fileAt (bufferOf files) i = some item) :
    fileAt after i = some item := by
  obtain ⟨rfl, -⟩ := PayloadCall.run_bufferOf h
  rw [fileAt_bufferOf] at hi ⊢
  rw [← hi]
  congr 1
  cases call with
  | push_file path =>
    show (FirstWins.push PayloadFile.name files ⟨path, []⟩)[i]? = files[i]?
    unfold FirstWins.push
    split
    · rfl
    · obtain ⟨file, hfile, -⟩ := Option.map_eq_some_iff.mp hi
      rw [List.getElem?_append_left (List.getElem?_eq_some_iff.mp hfile).1]
  | push_payload_multipart target pn base64 =>
    cases target with
    | none => rfl
    | some j =>
      show (files.modify j _)[i]? = files[i]?
      rw [List.getElem?_modify_ne]
      intro hji
      exact htarget (congrArg some hji)

/-- After any calls that push parts of small numbers the buffer is a map from the paths
pushed to maps from the numbers pushed to the first data, and no call changes a file it
is not about. -/
theorem payload_maps (hcalls : ∀ call ∈ calls, call.Small) (h : runCalls calls = .ok buffer) :
    PayloadMaps calls buffer ∧
      ∀ call after i file, PayloadCall.run buffer call = .ok after → call.target ≠ some i →
        fileAt buffer i = some file → fileAt after i = some file := by
  obtain ⟨files, rfl, hholds⟩ := HoldsPushes.run hcalls h
  exact ⟨hholds.maps hcalls, fun call after i file => run_frame⟩

/-- The second push of a number finds the data of the first. -/
theorem pushed_twice :
    ∃ buffer, runCalls [.push_file (lit "/a"), .push_payload_multipart (some 0) 1 (lit "YQ=="),
        .push_payload_multipart (some 0) 1 (lit "Yg==")] = .ok buffer ∧
      PayloadMaps [.push_file (lit "/a"), .push_payload_multipart (some 0) 1 (lit "YQ=="),
        .push_payload_multipart (some 0) 1 (lit "Yg==")] buffer := by
  refine ⟨_, rfl, (payload_maps (fun call hcall => ?_) rfl).1⟩
  simp only [List.mem_cons, List.not_mem_nil, or_false] at hcall
  rcases hcall with rfl | rfl | rfl
  · trivial
  · show UInt32.toNat 1 ≤ _
    decide
  · show UInt32.toNat 1 ≤ _
    decide

/-! ## The flush -/

/-- The elements at odd positions. -/
def oddOnes {α : Type} : List α → List α
  | _ :: x :: rest => x :: oddOnes rest
  | _ => []

theorem eraseEach_behind {α : Type} (l : List α) {which : List Nat}
    (hwhich : ∀ i ∈ which, l.length ≤ i) : which.foldl List.eraseIdx l = l := by
  induction which with
  | nil => rfl
  | cons i which ih =>
    rw [List.forall_mem_cons] at hwhich
    rw [List.foldl_cons, List.eraseIdx_of_length_le hwhich.1, ih hwhich.2]

/-- With `kept` in front, the next deletion takes the first of `rest` and keeps the
second. -/
theorem eraseEach_from {α : Type} (kept rest : List α) {n : Nat} (hn : rest.length ≤ n) :
    (List.range' kept.length n).foldl List.eraseIdx (kept ++ rest) = kept ++ oddOnes rest := by
  induction n generalizing kept rest with
  | zero =>
    obtain rfl : rest = [] := List.eq_nil_of_length_eq_zero (Nat.le_zero.mp hn)
    rfl
  | succ n ih =>
    rw [List.range'_succ, List.foldl_cons, List.eraseIdx_append_of_length_le (Nat.le_refl _),
      Nat.sub_self]
    have hbehind : ∀ i ∈ List.range' (kept.length + 1) n, (kept ++ ([] : List α)).length ≤ i := by
      intro i hi
      rw [List.append_nil]
      exact Nat.le_of_succ_le (List.left_le_of_mem_range' hi)
    cases rest with
    | nil => exact eraseEach_behind _ hbehind
    | cons a rest =>
      cases rest with
      | nil => exact eraseEach_behind _ hbehind
      | cons b rest =>
        rw [List.length_cons, List.length_cons] at hn
        have hrest := ih (kept ++ [b]) rest (by omega)
        rw [List.length_append, List.length_singleton, List.append_assoc, List.append_assoc] at hrest
        exact hrest

/-- Deletions behind the first element leave it. -/
theorem eraseEach_ne_nil {α : Type} {l : List α} (hl : l ≠ []) {which : List Nat}
    (hwhich : ∀ i ∈ which, 0 < i) : which.foldl List.eraseIdx l ≠ [] := by
  induction which generalizing l with
  | nil => exact hl
  | cons i which ih =>
    rw [List.forall_mem_cons] at hwhich
    apply ih _ hwhich.2
    obtain ⟨x, rest, rfl⟩ := List.exists_cons_of_ne_nil hl
    obtain ⟨i, rfl⟩ := Nat.exists_eq_succ_of_ne_zero (Nat.pos_iff_ne_zero.mp hwhich.1)
    exact List.cons_ne_nil _ _

theorem deleteEach_arr (n : Nat) (items : List Json) :
    deleteEach n (.arr items) = .arr ((List.range n).foldl List.eraseIdx items) := by
  rw [deleteEach]
  induction List.range n generalizing items with
  | nil => rfl
  | cons i which ih => exact ih (items.eraseIdx i)

/-- What the flush leaves of the parts. -/
def PayloadFile.flushed (f : PayloadFile) : PayloadFile :=
  { f with parts := (List.range (u32 f.parts.length)).foldl List.eraseIdx f.parts }

theorem map_eraseEach {α β : Type} (f : α → β) (which : List Nat) (l : List α) :
    which.foldl List.eraseIdx (l.map f) = (which.foldl List.eraseIdx l).map f := by
  induction which generalizing l with
  | nil => rfl
  | cons i which ih => rw [List.foldl_cons, List.foldl_cons, List.eraseIdx_map, ih]

theorem flush_json (file : PayloadFile) :
    flush_payload_multiparts (some file.json) = some file.flushed.json := by
  rw [flush_payload_multiparts, Option.bind_some, json_multiparts]
  dsimp only
  have hsize : cJSON_GetArraySize (.arr (file.parts.map fun p => newPart p.1 p.2)) =
      file.parts.length := List.length_map _
  rw [Option.map_some, writeMember_multiparts, hsize, deleteEach_arr, map_eraseEach]
  rfl

theorem flushed_parts (h : file.parts.length < 2 ^ 32) :
    file.flushed.parts = oddOnes file.parts := by
  have htotal : u32 file.parts.length = file.parts.length := by
    rw [u32]
    omega
  rw [PayloadFile.flushed, htotal, List.range_eq_range']
  exact eraseEach_from [] file.parts (Nat.le_refl _)

theorem flushed_eq_nil : file.flushed.parts = [] ↔ file.parts.length ≤ 1 := by
  constructor
  · intro h
    by_contra hlong
    rw [PayloadFile.flushed] at h
    cases htotal : u32 file.parts.length with
    | zero =>
      rw [htotal] at h
      rw [show file.parts = [] from h] at hlong
      exact hlong (Nat.zero_le 1)
    | succ total =>
      rw [htotal, List.range_succ_eq_map, List.foldl_cons] at h
      refine eraseEach_ne_nil (fun hnil => ?_) (fun i hi => ?_) h
      · have hlength := congrArg List.length hnil
        rw [List.length_eraseIdx_of_lt (by omega)] at hlength
        rw [List.length_nil] at hlength
        omega
      · obtain ⟨j, -, rfl⟩ := List.mem_map.mp hi
        exact Nat.succ_pos j
  · intro h
    rw [flushed_parts (by omega)]
    match file.parts, h with
    | [], _ => rfl
    | [_], _ => rfl

/-- Nothing is left of the file at `i`, and all others are as they were. -/
structure FlushedAlone (buffer after : Json) (i : Nat) : Prop where
  flushed : ∃ file, fileAt after i = some file ∧ partsOf file = [] ∧
    ∀ pn, find_payload_multipart_by_number (some file) pn = none
  others : ∀ j, j ≠ i → fileAt after j = fileAt buffer j

/-- The flush of a file leaves the others as they are, and it leaves the file without
parts exactly when that has one at most. -/
theorem flush_empties_iff {item : Json} (h : runCalls calls = .ok buffer)
    (hi : fileAt buffer i = some item) :
    ∃ after, throughFile flush_payload_multiparts buffer (some i) = .ok after ∧
      (FlushedAlone buffer after i ↔ (partsOf item).length ≤ 1) := by
  obtain rfl := runCalls_bufferOf h
  generalize calls.foldl PayloadCall.onFiles [] = files at hi ⊢
  rw [fileAt_bufferOf] at hi
  obtain ⟨file, hfile, rfl⟩ := Option.map_eq_some_iff.mp hi
  have hparts : ∀ f : PayloadFile, (partsOf f.json).length = f.parts.length :=
    fun f => List.length_map _
  have hflushed : fileAt (bufferOf (files.modify i PayloadFile.flushed)) i =
      some file.flushed.json := by
    rw [fileAt_bufferOf, List.getElem?_modify_eq, hfile]
    rfl
  refine ⟨_, throughFile_bufferOf flush_json hfile, ?_⟩
  rw [hparts, ← flushed_eq_nil]
  constructor
  · intro h
    obtain ⟨item, hitem, hnil, -⟩ := h.flushed
    rw [hflushed] at hitem
    cases hitem
    exact List.length_eq_zero_iff.mp ((hparts _).symm.trans (congrArg List.length hnil))
  · intro h
    refine ⟨⟨_, hflushed, ?_, fun pn => ?_⟩, fun j hj => ?_⟩
    · exact List.length_eq_zero_iff.mp ((hparts _).trans (congrArg List.length h))
    · rw [find_part_json, h]
      rfl
    · rw [fileAt_bufferOf, fileAt_bufferOf, List.getElem?_modify_ne]
      exact hj.symm

/-- Of two parts the second stays, and it is found. -/
theorem second_part_stays :
    ∃ buffer file after left, runCalls [.push_file (lit "/a"),
        .push_payload_multipart (some 0) 0 (lit "YQ=="),
        .push_payload_multipart (some 0) 1 (lit "Yg==")] = .ok buffer ∧
      fileAt buffer 0 = some file ∧
      throughFile flush_payload_multiparts buffer (some 0) = .ok after ∧
      fileAt after 0 = some left ∧ (partsOf left).length = 1 ∧
      find_payload_multipart_by_number (some left) 1 = some 0 := by
  refine ⟨_, _, _, _, rfl, rfl, rfl, rfl, rfl, rfl⟩

theorem only_part_flushed :
    ∃ buffer after, runCalls [.push_file (lit "/a"),
        .push_payload_multipart (some 0) 0 (lit "YQ==")] = .ok buffer ∧
      throughFile flush_payload_multiparts buffer (some 0) = .ok after ∧
      FlushedAlone buffer after 0 := by
  obtain ⟨after, hflush, hiff⟩ := flush_empties_iff
    (show runCalls [.push_file (lit "/a"), .push_payload_multipart (some 0) 0 (lit "YQ==")] =
      .ok _ from rfl) (show fileAt _ 0 = some _ from rfl)
  exact ⟨_, after, rfl, hflush, hiff.mpr (Nat.le_refl 1)⟩

end SiaFS
