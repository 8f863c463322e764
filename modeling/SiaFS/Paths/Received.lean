/-
What the server receives.

A request is sent as a URL and a body, and the server reads the names out of them again.
The URL of a delete has the path as it is, and five bodies have it pasted between
quotation marks, so some paths arrive as another path, or as nothing that can be read.
Paths with nothing in them that means something in a URL or in a JSON string arrive as
they are, and then the operations are those on a server that is told the paths themselves.
-/
import SiaFS.Backend.Renterd
import SiaFS.Bus.PostBodies
import SiaFS.Paths.Urls

namespace SiaFS

open JsonText Percent

variable {σ : Type}

/-! ## Reading a request -/

/-- The name in the URL of a delete. -/
def deletedName (path : CStr) : Option CStr := percentDecode (path.takeWhile fun b => !endsPath b)

/-- The members of a body that is about the bucket. -/
def postedFields (bucket text : CStr) : Option (List (CStr × Value)) :=
  match parse text with
  | some (.object fields) =>
    match fields.reverse.lookup (lit "bucket") with
    | some (.string name) => if name = bucket then some fields else none
    | _ => none
  | _ => none

/-- The last member of that name counts. -/
def stringField (name : CStr) (fields : List (CStr × Value)) : Option CStr :=
  match fields.reverse.lookup name with
  | some (.string text) => some text
  | _ => none

/-- The prefix in the body of a listing. -/
def listedPrefix (bucket path : CStr) : Option CStr :=
  (postedFields bucket (sia_bus_objects_list_json_body bucket path)).bind
    (stringField (lit "prefix"))

/-- The two names and the mode in the body of a rename. -/
def renamedNames (bucket source target mode : CStr) : Option Request := do
  let fields ← postedFields bucket (sia_bus_rename_object_body bucket source target mode)
  let source' ← stringField (lit "from") fields
  let target' ← stringField (lit "to") fields
  let mode' ← stringField (lit "mode") fields
  pure (.objects_rename source' target' mode')

/-- The request as the server reads it.  The paths that libcurl escapes and those in the
documents that cJSON prints are read as they are. -/
def Request.received (bucket : CStr) : Request → Option Request
  | .objects_delete path => (deletedName path).map .objects_delete
  | .objects_list path => (listedPrefix bucket path).map .objects_list
  | .objects_rename source target mode => renamedNames bucket source target mode
  | .multipart_listuploads path =>
    ((postedFields bucket (sia_bus_multipart_listuploads_json_body bucket path)).bind
      (stringField (lit "prefix"))).map .multipart_listuploads
  | .multipart_create path key =>
    ((postedFields bucket (sia_bus_multipart_create_json_body bucket path key)).bind
      (stringField (lit "path"))).map (.multipart_create · key)
  | .multipart_listparts path uploadID => do
    let fields ← postedFields bucket (sia_bus_multipart_listparts_json_body bucket path uploadID)
    let path' ← stringField (lit "path") fields
    let uploadID' ← stringField (lit "uploadID") fields
    pure (.multipart_listparts path' uploadID')
  | r => some r

/-- The server that is sent what the program sends: it does what it reads, and refuses
what it cannot read. -/
@[irreducible] def receiving (bucket : CStr) (server : σ → Request → Reply × σ) (s : σ)
    (r : Request) : Reply × σ :=
  match r.received bucket with
  | some r' => server s r'
  | none => (plainReply 400 [], s)

section Received

variable {bucket path : CStr}

/-- The name is what is read out of the URL that `sia_bus_del_object` builds. -/
theorem urlTarget_deletedName {unauthenticated_url : CStr}
    (hbase : ∀ b ∈ unauthenticated_url, endsPath b = false) (path : CStr) :
    urlTarget unauthenticated_url (lit "api/bus/objects")
      (sia_bus_del_object_url unauthenticated_url bucket path) = deletedName path :=
  urlTarget_eq (List.forall_mem_append.mpr ⟨hbase, by decide +kernel⟩)

theorem deletedName_iff : deletedName path = some path ↔ Plain path := by
  constructor
  · intro h
    unfold deletedName at h
    have hall : path.takeWhile (fun b => !endsPath b) = path :=
      (List.takeWhile_prefix _).eq_of_length_le (percentDecode_length h).1
    rw [hall, percentDecode_eq_self] at h
    intro b hb
    have hb' := List.takeWhile_eq_self_iff.mp hall b hb
    exact ⟨fun heq => h (heq ▸ hb), endsPath_eq_false.mp (by simpa using hb')⟩
  · intro h
    unfold deletedName
    rw [takeWhile_path h.endsPath]
    exact percentDecode_plain fun hmem => (h _ hmem).1 rfl

theorem clean_withSlash (h : Clean path) : Clean (withSlash path) := by
  rw [withSlash]
  split
  · exact h
  · intro b hb
    rcases List.mem_append.mp hb with hb | hb
    · exact h b hb
    · rw [List.mem_singleton.mp hb]
      decide

theorem plain_withSlash (h : Plain path) : Plain (withSlash path) := by
  rw [withSlash]
  split
  · exact h
  · intro b hb
    rcases List.mem_append.mp hb with hb | hb
    · exact h b hb
    · rw [List.mem_singleton.mp hb]
      decide

theorem clean_zeroKey : Clean zeroKey := by
  intro b hb
  rw [List.eq_of_mem_replicate hb]
  decide

theorem clean_multi : Clean (lit "multi") := by
  unfold Clean
  decide +kernel

theorem clean_single : Clean (lit "single") := by
  unfold Clean
  decide +kernel

theorem received_delete (h : Plain path) :
    (Request.objects_delete path).received bucket = some (.objects_delete path) := by
  rw [Request.received, deletedName_iff.mpr h]
  rfl

theorem listedPrefix_clean (hbucket : Clean bucket) (h : Clean path) :
    listedPrefix bucket path = some path := by
  have hparse := (objects_list_fills bucket path).parse_iff.mpr (by simp [hbucket, h])
  unfold listedPrefix postedFields stringField
  rw [hparse]
  simp [List.lookup_cons, lit]

theorem received_list (hbucket : Clean bucket) (h : Clean path) :
    (Request.objects_list path).received bucket = some (.objects_list path) := by
  rw [Request.received, listedPrefix_clean hbucket h]
  rfl

theorem received_rename (hbucket : Clean bucket) {source target mode : CStr}
    (hsource : Clean source) (htarget : Clean target) (hmode : Clean mode) :
    (Request.objects_rename source target mode).received bucket =
      some (.objects_rename source target mode) := by
  have hparse := (rename_object_fills bucket source target mode).parse_iff.mpr
    (by simp [hbucket, hsource, htarget, hmode])
  rw [Request.received]
  unfold renamedNames postedFields stringField
  rw [hparse]
  simp [List.lookup_cons, lit]

theorem received_listuploads (hbucket : Clean bucket) (h : Clean path) :
    (Request.multipart_listuploads path).received bucket =
      some (.multipart_listuploads path) := by
  have hparse := (multipart_listuploads_fills bucket path).parse_iff.mpr (by simp [hbucket, h])
  rw [Request.received]
  unfold postedFields stringField
  rw [hparse]
  simp [List.lookup_cons, lit]

theorem received_create (hbucket : Clean bucket) (h : Clean path) {key : CStr} (hkey : Clean key) :
    (Request.multipart_create path key).received bucket = some (.multipart_create path key) := by
  have hparse := (multipart_create_fills bucket path key).parse_iff.mpr
    (by simp [hbucket, h, hkey])
  rw [Request.received]
  unfold postedFields stringField
  rw [hparse]
  simp [List.lookup_cons, lit]

theorem receiving_read {server : σ → Request → Reply × σ} {r r' : Request}
    (h : r.received bucket = some r') (s : σ) : receiving bucket server s r = server s r' := by
  rw [receiving, h]

end Received

/-- A mount of the store that is sent what the program sends. -/
def receivingMount : Env Store :=
  mountOf .fuse3 true (receiving (lit "default") (renterd fun _ => false))

theorem receivingMount_server : receivingMount.server =
    receiving receivingMount.bucket (renterd fun _ => false) := rfl

theorem clean_default : Clean (lit "default") := by
  unfold Clean
  decide +kernel

theorem clean_f : Clean (lit "/f") := by
  unfold Clean
  decide +kernel

end SiaFS
