/-
The documents the bus functions post.

Six functions paste their arguments into a format string with `sprintf`; the
payload that completes an upload is built with cJSON, which escapes its strings.
A pasted argument is read back as it was exactly when nothing in it needs
escaping.
-/
import SiaFS.Lib.JsonText
import SiaFS.Backend.Renterd
import SiaFS.Upload.Release

namespace SiaFS

open JsonText

/-- `sprintf` with conversions `%s` only. -/
def sprintf : CStr → List CStr → CStr
  | 37 :: 115 :: format, arg :: args => arg ++ sprintf format args
  | b :: format, args => b :: sprintf format args
  | [], _ => []

/-! ## The bodies -/

section Bodies

variable (bucket : CStr)

def sia_bus_objects_list_json_body (path : CStr) : CStr :=
  sprintf (lit "\x7b\n \"bucket\": \"%s\",\n \"limit\": -1,\n \"prefix\": \"%s\",\n \"marker\": \"\"\n\x7d")
    [bucket, path]

def sia_bus_rename_object_body (source target mode : CStr) : CStr :=
  sprintf (lit "\x7b\n    \"bucket\": \"%s\",\n    \"from\": \"%s\",\n    \"to\": \"%s\",\n    \"mode\": \"%s\",\n    \"force\": false\x7d")
    [bucket, source, target, mode]

def sia_bus_multipart_create_json_body (path key : CStr) : CStr :=
  sprintf (lit "\x7b\n    \"bucket\": \"%s\",\n    \"key\": \"key:%s\",\n    \"path\": \"%s\", \"generateKey\": false\n\x7d")
    [bucket, key, path]

def sia_bus_multipart_listuploads_json_body (path : CStr) : CStr :=
  sprintf (lit "\x7b\n  \"bucket\": \"%s\",\n  \"prefix\": \"%s\",\n  \"pathMarker\": \"\",\n  \"uploadIDMarker\": \"\",\n  \"limit\": -1\n\x7d")
    [bucket, path]

def sia_bus_multipart_listparts_json_body (path uploadid : CStr) : CStr :=
  sprintf (lit "\x7b\n  \"bucket\": \"%s\",\n  \"path\": \"%s\",\n  \"uploadID\": \"%s\",\n  \"partNumberMarker\": 0,\n  \"limit\": -1\n\x7d")
    [bucket, path, uploadid]

def sia_bus_multipart_abort_json_body (path uploadid : CStr) : CStr :=
  sprintf (lit "\x7b\n    \"bucket\": \"%s\",\n    \"path\": \"%s\",\n    \"uploadID\": \"%s\"\n\x7d")
    [bucket, path, uploadid]

end Bodies

/-- A body, the arguments pasted into it, and the document meant. -/
inductive Posts (bucket : CStr) : CStr → List CStr → Value → Prop
  | objects_list (path : CStr) : Posts bucket (sia_bus_objects_list_json_body bucket path)
      [bucket, path]
      (.object [(lit "bucket", .string bucket), (lit "limit", .number (lit "-1")),
        (lit "prefix", .string path), (lit "marker", .string [])])
  | rename_object (source target mode : CStr) :
    Posts bucket (sia_bus_rename_object_body bucket source target mode)
      [bucket, source, target, mode]
      (.object [(lit "bucket", .string bucket), (lit "from", .string source),
        (lit "to", .string target), (lit "mode", .string mode), (lit "force", .bool false)])
  | multipart_create (path key : CStr) :
    Posts bucket (sia_bus_multipart_create_json_body bucket path key) [bucket, key, path]
      (.object [(lit "bucket", .string bucket), (lit "key", .string (lit "key:" ++ key)),
        (lit "path", .string path), (lit "generateKey", .bool false)])
  | multipart_listuploads (path : CStr) :
    Posts bucket (sia_bus_multipart_listuploads_json_body bucket path) [bucket, path]
      (.object [(lit "bucket", .string bucket), (lit "prefix", .string path),
        (lit "pathMarker", .string []), (lit "uploadIDMarker", .string []),
        (lit "limit", .number (lit "-1"))])
  | multipart_listparts (path uploadid : CStr) :
    Posts bucket (sia_bus_multipart_listparts_json_body bucket path uploadid)
      [bucket, path, uploadid]
      (.object [(lit "bucket", .string bucket), (lit "path", .string path),
        (lit "uploadID", .string uploadid), (lit "partNumberMarker", .number (lit "0")),
        (lit "limit", .number (lit "-1"))])
  | multipart_abort (path uploadid : CStr) :
    Posts bucket (sia_bus_multipart_abort_json_body bucket path uploadid)
      [bucket, path, uploadid]
      (.object [(lit "bucket", .string bucket), (lit "path", .string path),
        (lit "uploadID", .string uploadid)])

/-! ## As templates -/

def minusOne : Token where
  lexeme := lit "-1"
  doc := .number (lit "-1")
  head := by decide +kernel
  nonempty := by decide
  reads fuel y hy := by
    obtain ⟨b, rest, rfl, hdigit, hpoint, hpower⟩ := hy.not_number
    have hint : integer (49 :: b :: rest) = some ([49], b :: rest) :=
      digits_stop (by decide) hdigit rest
    show value (fuel + 1) (45 :: 49 :: b :: rest) = some (.number [45, 49], b :: rest)
    rw [value]
    iterate 6 rw [if_neg (by decide)]
    simp [number, hint, fraction_stop hpoint, exponent_stop hpower]

def zero : Token where
  lexeme := lit "0"
  doc := .number (lit "0")
  head := by decide +kernel
  nonempty := by decide
  reads fuel y hy := by
    obtain ⟨b, rest, rfl, -, hpoint, hpower⟩ := hy.not_number
    have hint : integer (48 :: b :: rest) = some ([48], b :: rest) := rfl
    show value (fuel + 1) (48 :: b :: rest) = some (.number [48], b :: rest)
    rw [value]
    iterate 6 rw [if_neg (by decide)]
    simp [number, hint, fraction_stop hpoint, exponent_stop hpower]

def falseToken : Token where
  lexeme := lit "false"
  doc := .bool false
  head := by decide +kernel
  nonempty := by decide
  reads fuel y _ := by
    show value (fuel + 1) (102 :: 97 :: 108 :: 115 :: 101 :: y) = some (.bool false, y)
    rw [value]
    iterate 5 rw [if_neg (by decide)]
    rw [if_pos rfl, keyword, if_pos (by simp)]
    rfl

/-- A member whose white space and key are those of the format. -/
def member (before : String) (key : String) (value : Scalar) (after : String) : Member :=
  ⟨lit before, lit key, value, lit after⟩

theorem member_sound {before key after : String} {value : Scalar}
    (h : (lit before).all isSpace ∧ (lit after).all isSpace ∧
      (lit key).all fun b => b != JsonText.quote && b != backslash && 32 ≤ b) :
    (member before key value after).Sound := by
  obtain ⟨hbefore, hafter, hkey⟩ := h
  refine ⟨List.all_eq_true.mp hbefore, List.all_eq_true.mp hafter, fun b hb => ?_⟩
  have hb := List.all_eq_true.mp hkey b hb
  simpa [and_assoc] using hb

/-- The body is put together from the template `ms`, with the arguments for its strings. -/
structure Fills (ms : List Member) (text : CStr) (args : List CStr) (doc : Value) : Prop where
  nonempty : ms ≠ []
  sound : ∀ m ∈ ms, m.Sound
  text_eq : text = render ms
  doc_eq : doc = .object (ms.map Member.field)
  clean_iff : (∀ m ∈ ms, m.value.Clean) ↔ ∀ s ∈ args, Clean s

theorem Fills.parse_iff {ms : List Member} {text : CStr} {args : List CStr} {doc : Value}
    (h : Fills ms text args doc) : parse text = some doc ↔ ∀ s ∈ args, Clean s := by
  rw [h.text_eq, h.doc_eq, parse_render h.nonempty h.sound]
  exact h.clean_iff

theorem clean_nil : Clean [] := nofun

/-- The prefix of the encryption key needs no escape. -/
theorem clean_key (key : CStr) : Clean (lit "key:" ++ key) ↔ Clean key := by
  have hprefix : ∀ b ∈ lit "key:", b ≠ JsonText.quote ∧ b ≠ backslash ∧ 32 ≤ b := by
    decide +kernel
  constructor
  · intro h b hb
    exact h b (List.mem_append_right _ hb)
  · intro h b hb
    rcases List.mem_append.mp hb with hb | hb
    · exact hprefix b hb
    · exact h b hb

section Templates

variable (bucket path : CStr)

theorem objects_list_fills :
    Fills
      [member "\n " "bucket" (.str bucket) "", member "\n " "limit" (.token minusOne) "",
        member "\n " "prefix" (.str path) "", member "\n " "marker" (.str []) "\n"]
      (sia_bus_objects_list_json_body bucket path) [bucket, path]
      (.object [(lit "bucket", .string bucket), (lit "limit", .number (lit "-1")),
        (lit "prefix", .string path), (lit "marker", .string [])]) where
  nonempty := List.cons_ne_nil _ _
  sound := by
    simp only [List.forall_mem_cons, List.not_mem_nil, false_imp_iff, implies_true, and_true]
    refine ⟨?_, ?_, ?_, ?_⟩ <;> exact member_sound (by decide)
  text_eq := by
    unfold sia_bus_objects_list_json_body
    simp [sprintf, lit, render, memberText, Member.text, member, Scalar.text, minusOne,
      JsonText.quote]
  doc_eq := rfl
  clean_iff := by
    simp [member, Scalar.Clean, clean_nil]

theorem rename_object_fills (source target mode : CStr) :
    Fills
      [member "\n    " "bucket" (.str bucket) "", member "\n    " "from" (.str source) "",
        member "\n    " "to" (.str target) "", member "\n    " "mode" (.str mode) "",
        member "\n    " "force" (.token falseToken) ""]
      (sia_bus_rename_object_body bucket source target mode) [bucket, source, target, mode]
      (.object [(lit "bucket", .string bucket), (lit "from", .string source),
        (lit "to", .string target), (lit "mode", .string mode), (lit "force", .bool false)]) where
  nonempty := List.cons_ne_nil _ _
  sound := by
    simp only [List.forall_mem_cons, List.not_mem_nil, false_imp_iff, implies_true, and_true]
    refine ⟨?_, ?_, ?_, ?_, ?_⟩ <;> exact member_sound (by decide)
  text_eq := by
    unfold sia_bus_rename_object_body
    simp [sprintf, lit, render, memberText, Member.text, member, Scalar.text, falseToken,
      JsonText.quote]
  doc_eq := rfl
  clean_iff := by
    simp [member, Scalar.Clean]

theorem multipart_create_fills (key : CStr) :
    Fills
      [member "\n    " "bucket" (.str bucket) "", member "\n    " "key" (.str (lit "key:" ++ key)) "",
        member "\n    " "path" (.str path) "", member " " "generateKey" (.token falseToken) "\n"]
      (sia_bus_multipart_create_json_body bucket path key) [bucket, key, path]
      (.object [(lit "bucket", .string bucket), (lit "key", .string (lit "key:" ++ key)),
        (lit "path", .string path), (lit "generateKey", .bool false)]) where
  nonempty := List.cons_ne_nil _ _
  sound := by
    simp only [List.forall_mem_cons, List.not_mem_nil, false_imp_iff, implies_true, and_true]
    refine ⟨?_, ?_, ?_, ?_⟩ <;> exact member_sound (by decide)
  text_eq := by
    unfold sia_bus_multipart_create_json_body
    simp [sprintf, lit, render, memberText, Member.text, member, Scalar.text, falseToken,
      JsonText.quote]
  doc_eq := rfl
  clean_iff := by
    simp [member, Scalar.Clean, clean_key]

theorem multipart_listuploads_fills :
    Fills
      [member "\n  " "bucket" (.str bucket) "", member "\n  " "prefix" (.str path) "",
        member "\n  " "pathMarker" (.str []) "", member "\n  " "uploadIDMarker" (.str []) "",
        member "\n  " "limit" (.token minusOne) "\n"]
      (sia_bus_multipart_listuploads_json_body bucket path) [bucket, path]
      (.object [(lit "bucket", .string bucket), (lit "prefix", .string path),
        (lit "pathMarker", .string []), (lit "uploadIDMarker", .string []),
        (lit "limit", .number (lit "-1"))]) where
  nonempty := List.cons_ne_nil _ _
  sound := by
    simp only [List.forall_mem_cons, List.not_mem_nil, false_imp_iff, implies_true, and_true]
    refine ⟨?_, ?_, ?_, ?_, ?_⟩ <;> exact member_sound (by decide)
  text_eq := by
    unfold sia_bus_multipart_listuploads_json_body
    simp [sprintf, lit, render, memberText, Member.text, member, Scalar.text, minusOne,
      JsonText.quote]
  doc_eq := rfl
  clean_iff := by
    simp [member, Scalar.Clean, clean_nil]

theorem multipart_listparts_fills (uploadid : CStr) :
    Fills
      [member "\n  " "bucket" (.str bucket) "", member "\n  " "path" (.str path) "",
        member "\n  " "uploadID" (.str uploadid) "",
        member "\n  " "partNumberMarker" (.token zero) "", member "\n  " "limit" (.token minusOne) "\n"]
      (sia_bus_multipart_listparts_json_body bucket path uploadid) [bucket, path, uploadid]
      (.object [(lit "bucket", .string bucket), (lit "path", .string path),
        (lit "uploadID", .string uploadid), (lit "partNumberMarker", .number (lit "0")),
        (lit "limit", .number (lit "-1"))]) where
  nonempty := List.cons_ne_nil _ _
  sound := by
    simp only [List.forall_mem_cons, List.not_mem_nil, false_imp_iff, implies_true, and_true]
    refine ⟨?_, ?_, ?_, ?_, ?_⟩ <;> exact member_sound (by decide)
  text_eq := by
    unfold sia_bus_multipart_listparts_json_body
    simp [sprintf, lit, render, memberText, Member.text, member, Scalar.text, zero, minusOne,
      JsonText.quote]
  doc_eq := rfl
  clean_iff := by
    simp [member, Scalar.Clean]

theorem multipart_abort_fills (uploadid : CStr) :
    Fills
      [member "\n    " "bucket" (.str bucket) "", member "\n    " "path" (.str path) "",
        member "\n    " "uploadID" (.str uploadid) "\n"]
      (sia_bus_multipart_abort_json_body bucket path uploadid) [bucket, path, uploadid]
      (.object [(lit "bucket", .string bucket), (lit "path", .string path),
        (lit "uploadID", .string uploadid)]) where
  nonempty := List.cons_ne_nil _ _
  sound := by
    simp only [List.forall_mem_cons, List.not_mem_nil, false_imp_iff, implies_true, and_true]
    refine ⟨?_, ?_, ?_⟩ <;> exact member_sound (by decide)
  text_eq := by
    unfold sia_bus_multipart_abort_json_body
    simp [sprintf, lit, render, memberText, Member.text, member, Scalar.text,
      JsonText.quote]
  doc_eq := rfl
  clean_iff := by
    simp [member, Scalar.Clean]

end Templates

/-- Every body. -/
theorem Posts.fills {bucket text : CStr} {args : List CStr} {doc : Value}
    (h : Posts bucket text args doc) : ∃ ms, Fills ms text args doc := by
  cases h with
  | objects_list path => exact ⟨_, objects_list_fills bucket path⟩
  | rename_object source target mode => exact ⟨_, rename_object_fills bucket source target mode⟩
  | multipart_create path key => exact ⟨_, multipart_create_fills bucket path key⟩
  | multipart_listuploads path => exact ⟨_, multipart_listuploads_fills bucket path⟩
  | multipart_listparts path uploadid => exact ⟨_, multipart_listparts_fills bucket path uploadid⟩
  | multipart_abort path uploadid => exact ⟨_, multipart_abort_fills bucket path uploadid⟩

/-! ## The bodies read back -/

variable {σ : Type}

/-- A body is read back as the document meant exactly when no argument holds a
quotation mark, a backslash or a control character, and then the path an upload is
created with is the path it is completed with. -/
theorem bodies_decode (e : Env σ) {text : CStr} {args : List CStr} {doc : Value}
    (h : Posts e.bucket text args doc) : (parse text = some doc ↔ ∀ s ∈ args, Clean s) ∧
      ∀ path key id parts, Clean e.bucket → Clean key → Clean path → ∃ fields,
        parse (sia_bus_multipart_create_json_body e.bucket path key) = some (.object fields) ∧
        fields.lookup (lit "path") = some (.string path) ∧
        (completePayload e path id parts).cJSON_GetObjectItemCaseSensitive (lit "path") =
          some (.str path) := by
  constructor
  · obtain ⟨ms, hms⟩ := h.fills
    exact hms.parse_iff
  · intro path key id parts hbucket hkey hpath
    have hcreate := (multipart_create_fills e.bucket path key).parse_iff.mpr (by
      simp only [List.forall_mem_cons, List.not_mem_nil, false_imp_iff, implies_true, and_true]
      exact ⟨hbucket, hkey, hpath⟩)
    refine ⟨_, hcreate, ?_, (completePayload_completes path id parts).1⟩
    simp [List.lookup_cons, lit]

/-- A bucket, a path and a key that come back as they are. -/
theorem bodies_decode_plain :
    parse (sia_bus_multipart_create_json_body (lit "default") (lit "/a") (lit "k")) =
      some (.object [(lit "bucket", .string (lit "default")),
        (lit "key", .string (lit "key:" ++ lit "k")), (lit "path", .string (lit "/a")),
        (lit "generateKey", .bool false)]) := by
  have hclean : ∀ s ∈ [lit "default", lit "k", lit "/a"], Clean s := by
    unfold Clean
    decide +kernel
  have hbody : Posts (mount .fuse3 true fun _ => false).bucket _ _ _ :=
    .multipart_create (lit "/a") (lit "k")
  exact (bodies_decode _ hbody).1.mpr hclean

/-- A quotation mark in a name ends the string it is pasted into, and the upload is
not created under the path it is completed with. -/
theorem quoted_path_broken :
    Posts (lit "default")
        (sia_bus_multipart_create_json_body (lit "default") (lit "/a\"b") (lit "k"))
        [lit "default", lit "k", lit "/a\"b"]
        (.object [(lit "bucket", .string (lit "default")),
          (lit "key", .string (lit "key:" ++ lit "k")), (lit "path", .string (lit "/a\"b")),
          (lit "generateKey", .bool false)]) ∧
      parse (sia_bus_multipart_create_json_body (lit "default") (lit "/a\"b") (lit "k")) ≠
        some (.object [(lit "bucket", .string (lit "default")),
          (lit "key", .string (lit "key:" ++ lit "k")), (lit "path", .string (lit "/a\"b")),
          (lit "generateKey", .bool false)]) := by
  constructor
  · exact .multipart_create (lit "/a\"b") (lit "k")
  · intro h
    have hclean := (multipart_create_fills _ _ _).parse_iff.mp h
    unfold Clean at hclean
    revert hclean
    decide +kernel

end SiaFS
