/-
The URLs of the requests that name their object in the URL.

Five of the six builders escape the path.  `sia_bus_del_object` does not, so what
the server reads out of its URL is the path only when no byte of the path means
something in a URL.
-/
import SiaFS.Lib.Percent
import SiaFS.World

namespace SiaFS

open Percent

def questionMark : UInt8 := 63

def numberSign : UInt8 := 35

def ampersand : UInt8 := 38

/-! ## The builders -/

section Builders

variable (unauthenticated_url bucket path : CStr)

/-- The endpoint, the path as it stands in the URL, and the query. -/
def final_url (endpoint path2 parameters : CStr) : CStr :=
  unauthenticated_url ++ endpoint ++ path2 ++ lit "?bucket=" ++ bucket ++ parameters

def sia_bus_objects_json_url : CStr :=
  final_url unauthenticated_url bucket (lit "api/bus/objects") (escape path) []

def sia_worker_get_object_url : CStr :=
  final_url unauthenticated_url bucket (lit "api/worker/objects") (escape path) []

def sia_worker_put_object_url : CStr :=
  final_url unauthenticated_url bucket (lit "api/worker/objects") (escape path) []

def sia_worker_put_multipart_from_file_url (uploadid : CStr) (slot : Nat) : CStr :=
  final_url unauthenticated_url bucket (lit "api/worker/multipart") (escape path)
    (lit "&uploadid=" ++ uploadid ++ lit "&partnumber=" ++ decimal slot)

def sia_worker_put_multipart_url (uploadid : CStr) (slot : Nat) : CStr :=
  final_url unauthenticated_url bucket (lit "api/worker/multipart") (escape path)
    (lit "&uploadid=" ++ uploadid ++ lit "&partnumber=" ++ decimal slot)

/-- The path is not escaped. -/
def sia_bus_del_object_url : CStr :=
  final_url unauthenticated_url bucket (lit "api/bus/objects") path []

end Builders

/-- The requests that carry the path in their URL: the path, the endpoint and the
URL. -/
inductive Carries (unauthenticated_url bucket : CStr) : Request → CStr → CStr → CStr → Prop
  | objects (path : CStr) : Carries unauthenticated_url bucket (.objects path) path
      (lit "api/bus/objects") (sia_bus_objects_json_url unauthenticated_url bucket path)
  | worker_get (path : CStr) (first last : Int) :
    Carries unauthenticated_url bucket (.worker_get path first last) path
      (lit "api/worker/objects") (sia_worker_get_object_url unauthenticated_url bucket path)
  | worker_put (path : CStr) (body : Bytes) :
    Carries unauthenticated_url bucket (.worker_put path body) path
      (lit "api/worker/objects") (sia_worker_put_object_url unauthenticated_url bucket path)
  | put_multipart_from_file (path uploadid : CStr) (slot : Nat) (body : Bytes) :
    Carries unauthenticated_url bucket (.worker_put_multipart path uploadid slot body) path
      (lit "api/worker/multipart")
      (sia_worker_put_multipart_from_file_url unauthenticated_url bucket path uploadid slot)
  | put_multipart (path uploadid : CStr) (slot : Nat) (body : Bytes) :
    Carries unauthenticated_url bucket (.worker_put_multipart path uploadid slot body) path
      (lit "api/worker/multipart")
      (sia_worker_put_multipart_url unauthenticated_url bucket path uploadid slot)
  | objects_delete (path : CStr) : Carries unauthenticated_url bucket (.objects_delete path) path
      (lit "api/bus/objects") (sia_bus_del_object_url unauthenticated_url bucket path)

/-! ## Reading a URL -/

/-- The byte ends the path of a URL. -/
def endsPath (b : UInt8) : Bool := b == questionMark || b == numberSign

/-- The object a URL names. -/
def urlTarget (unauthenticated_url endpoint url : CStr) : Option CStr :=
  percentDecode ((url.takeWhile fun b => !endsPath b).drop (unauthenticated_url ++ endpoint).length)

/-- What stands between the first question mark and the fragment. -/
def urlQuery (url : CStr) : CStr :=
  match url.dropWhile fun b => !endsPath b with
  | [] => []
  | b :: rest => if b = questionMark then rest.takeWhile (· != numberSign) else []

def queryParameter (name query : CStr) : Option CStr :=
  (query.splitOn ampersand).findSome? fun piece =>
    if (name ++ lit "=").isPrefixOf piece then percentDecode (piece.drop (name ++ lit "=").length)
    else none

/-- The URL names this object of this bucket. -/
def Addresses (unauthenticated_url endpoint bucket path url : CStr) : Prop :=
  urlTarget unauthenticated_url endpoint url = some path ∧
    queryParameter (lit "bucket") (urlQuery url) = some bucket

/-! ## What the builders address -/

section Addresses

variable {unauthenticated_url bucket endpoint path path2 parameters : CStr}

theorem endsPath_of_unreserved {b : UInt8} (h : isUnreserved b = true) : endsPath b = false := by
  obtain ⟨-, hquestion, hnumber, -⟩ := isUnreserved_ne h
  rw [endsPath, Bool.or_eq_false_iff, beq_eq_false_iff_ne, beq_eq_false_iff_ne]
  exact ⟨hquestion, hnumber⟩

/-- Nothing in an escaped path ends the path of a URL. -/
theorem endsPath_escape {b : UInt8} (h : b ∈ escape path) : endsPath b = false := by
  rcases mem_escape h with hb | rfl
  · exact endsPath_of_unreserved hb
  · decide

theorem final_url_eq :
    final_url unauthenticated_url bucket endpoint path2 parameters =
      (unauthenticated_url ++ endpoint) ++
        (path2 ++ questionMark :: (lit "bucket=" ++ bucket ++ parameters)) := by
  simp [final_url, lit, questionMark]

theorem takeWhile_append_stop {p : UInt8 → Bool} {q : UInt8} (hq : p q = false) (xs ys : CStr) :
    (xs ++ q :: ys).takeWhile p = xs.takeWhile p := by
  induction xs with
  | nil => exact List.takeWhile_cons_of_neg (by simp [hq])
  | cons x xs ih =>
    rw [List.cons_append, List.takeWhile_cons, List.takeWhile_cons, ih]

/-- Up to the query a URL is read as it was built. -/
theorem urlTarget_eq (hbase : ∀ b ∈ unauthenticated_url ++ endpoint, endsPath b = false) :
    urlTarget unauthenticated_url endpoint
        (final_url unauthenticated_url bucket endpoint path2 parameters) =
      percentDecode (path2.takeWhile fun b => !endsPath b) := by
  have hpos : ∀ b ∈ unauthenticated_url ++ endpoint, (!endsPath b) = true := fun b hb => by
    rw [hbase b hb]
    rfl
  rw [urlTarget, final_url_eq, List.takeWhile_append_of_pos hpos, List.drop_left,
    takeWhile_append_stop (by decide)]

/-- The query of a URL whose path was escaped. -/
theorem urlQuery_eq (hbase : ∀ b ∈ unauthenticated_url ++ endpoint, endsPath b = false)
    (hpath : ∀ b ∈ path2, endsPath b = false) :
    urlQuery (final_url unauthenticated_url bucket endpoint path2 parameters) =
      (lit "bucket=" ++ bucket ++ parameters).takeWhile (· != numberSign) := by
  have hpos : ∀ b ∈ unauthenticated_url ++ endpoint ++ path2, (!endsPath b) = true := by
    intro b hb
    rcases List.mem_append.mp hb with hb | hb
    · rw [hbase b hb]
      rfl
    · rw [hpath b hb]
      rfl
  rw [urlQuery, final_url_eq, ← List.append_assoc, List.dropWhile_append_of_pos hpos,
    List.dropWhile_cons_of_neg (by decide)]
  exact if_pos rfl

/-- The parameter is the bucket, whatever parameters follow it. -/
theorem queryParameter_bucket (hbucket : ∀ b ∈ bucket, isUnreserved b = true)
    (hmore : parameters = [] ∨ ∃ rest, parameters = ampersand :: rest) :
    queryParameter (lit "bucket")
      ((lit "bucket=" ++ bucket ++ parameters).takeWhile (· != numberSign)) = some bucket := by
  have hpos : ∀ b ∈ lit "bucket=" ++ bucket, (b != numberSign) = true := by
    intro b hb
    rcases List.mem_append.mp hb with hb | hb
    · exact (by decide +kernel : ∀ b ∈ lit "bucket=", (b != numberSign) = true) b hb
    · rw [bne_iff_ne]
      exact (isUnreserved_ne (hbucket b hb)).2.2.1
  have hsplit : ampersand ∉ lit "bucket=" ++ bucket := by
    intro hmem
    rcases List.mem_append.mp hmem with hmem | hmem
    · exact absurd hmem (by decide)
    · exact (isUnreserved_ne (hbucket _ hmem)).2.2.2 rfl
  have hdecode : percentDecode bucket = some bucket :=
    percentDecode_plain fun hmem => (isUnreserved_ne (hbucket _ hmem)).1 rfl
  have hname : lit "bucket" ++ lit "=" = lit "bucket=" := by decide
  have hfound : (if (lit "bucket" ++ lit "=").isPrefixOf (lit "bucket=" ++ bucket) then
      percentDecode ((lit "bucket=" ++ bucket).drop (lit "bucket" ++ lit "=").length) else none) =
      some bucket := by
    rw [hname, if_pos (List.isPrefixOf_iff_prefix.mpr (List.prefix_append _ _)), List.drop_left]
    exact hdecode
  rw [queryParameter, List.takeWhile_append_of_pos hpos]
  rcases hmore with rfl | ⟨rest, rfl⟩
  · rw [List.takeWhile_nil, List.append_nil, List.splitOn_eq_singleton hsplit,
      List.findSome?_cons, hfound]
  · rw [List.takeWhile_cons_of_pos (by decide), List.splitOn_append_cons_self_of_not_mem hsplit,
      List.findSome?_cons, hfound]

theorem endsPath_eq_false {b : UInt8} :
    endsPath b = false ↔ b ≠ questionMark ∧ b ≠ numberSign := by
  rw [endsPath, Bool.or_eq_false_iff, beq_eq_false_iff_ne, beq_eq_false_iff_ne]

theorem takeWhile_path (h : ∀ b ∈ path2, endsPath b = false) :
    path2.takeWhile (fun b => !endsPath b) = path2 := by
  apply List.takeWhile_eq_self_iff.mpr
  intro b hb
  rw [h b hb]
  rfl

/-- The URL of an escaped path names the path. -/
theorem urlTarget_escape (hbase : ∀ b ∈ unauthenticated_url ++ endpoint, endsPath b = false)
    (path : CStr) :
    urlTarget unauthenticated_url endpoint
      (final_url unauthenticated_url bucket endpoint (escape path) parameters) = some path := by
  rw [urlTarget_eq hbase, takeWhile_path fun b hb => endsPath_escape hb, percentDecode_escape]

/-- No byte of the path means something in a URL. -/
def Plain (path : CStr) : Prop := ∀ b ∈ path, b ≠ percent ∧ b ≠ questionMark ∧ b ≠ numberSign

theorem Plain.endsPath (h : Plain path) : ∀ b ∈ path, endsPath b = false :=
  fun b hb => endsPath_eq_false.mpr (h b hb).2

/-- The URL of a path as it is names the path, when nothing in it means something
there. -/
theorem urlTarget_plain (hbase : ∀ b ∈ unauthenticated_url ++ endpoint, endsPath b = false)
    (h : Plain path) :
    urlTarget unauthenticated_url endpoint
      (final_url unauthenticated_url bucket endpoint path parameters) = some path := by
  rw [urlTarget_eq hbase, takeWhile_path h.endsPath]
  exact percentDecode_plain fun hmem => (h _ hmem).1 rfl

/-- A builder that escapes the path addresses it. -/
theorem addresses_escape (hbase : ∀ b ∈ unauthenticated_url ++ endpoint, endsPath b = false)
    (hbucket : ∀ b ∈ bucket, isUnreserved b = true)
    (hmore : parameters = [] ∨ ∃ rest, parameters = ampersand :: rest) (path : CStr) :
    Addresses unauthenticated_url endpoint bucket path
      (final_url unauthenticated_url bucket endpoint (escape path) parameters) := by
  refine ⟨urlTarget_escape hbase path, ?_⟩
  rw [urlQuery_eq hbase fun b hb => endsPath_escape hb, queryParameter_bucket hbucket hmore]

/-- The builder that does not escape the path addresses it when it may stay as it is. -/
theorem addresses_plain_iff (hbase : ∀ b ∈ unauthenticated_url ++ endpoint, endsPath b = false)
    (hbucket : ∀ b ∈ bucket, isUnreserved b = true) :
    Addresses unauthenticated_url endpoint bucket path
      (final_url unauthenticated_url bucket endpoint path []) ↔ Plain path := by
  constructor
  · rintro ⟨htarget, -⟩
    rw [urlTarget_eq hbase] at htarget
    -- nothing was cut off, and nothing was decoded
    have hlen := (percentDecode_length htarget).1
    have hall : path.takeWhile (fun b => !endsPath b) = path :=
      (List.takeWhile_prefix _).eq_of_length_le hlen
    rw [hall, percentDecode_eq_self] at htarget
    intro b hb
    have hb' := List.takeWhile_eq_self_iff.mp hall b hb
    exact ⟨fun h => htarget (h ▸ hb), endsPath_eq_false.mp (by simpa using hb')⟩
  · intro hplain
    refine ⟨urlTarget_plain hbase hplain, ?_⟩
    rw [urlQuery_eq hbase hplain.endsPath, queryParameter_bucket hbucket (Or.inl rfl)]

end Addresses

/-- The path and the bucket are read back from the URL of every request that carries
them exactly when no byte of the path means something in a URL; the requests other
than the one to delete address the path in any case. -/
theorem urls_address {unauthenticated_url bucket : CStr}
    (hbase : ∀ b ∈ unauthenticated_url, endsPath b = false)
    (hbucket : ∀ b ∈ bucket, isUnreserved b = true) (path : CStr) :
    ((∀ r endpoint url, Carries unauthenticated_url bucket r path endpoint url →
        Addresses unauthenticated_url endpoint bucket path url) ↔ Plain path) ∧
      ∀ r endpoint url, Carries unauthenticated_url bucket r path endpoint url →
        r ≠ .objects_delete path → Addresses unauthenticated_url endpoint bucket path url := by
  have hendpoint : ∀ endpoint, (∀ b ∈ endpoint, endsPath b = false) →
      ∀ b ∈ unauthenticated_url ++ endpoint, endsPath b = false := by
    intro endpoint h b hb
    rcases List.mem_append.mp hb with hb | hb
    · exact hbase b hb
    · exact h b hb
  have hbus := hendpoint (lit "api/bus/objects") (by decide +kernel)
  have hworker := hendpoint (lit "api/worker/objects") (by decide +kernel)
  have hpart := hendpoint (lit "api/worker/multipart") (by decide +kernel)
  have hothers : ∀ r endpoint url, Carries unauthenticated_url bucket r path endpoint url →
      r ≠ .objects_delete path → Addresses unauthenticated_url endpoint bucket path url := by
    intro r endpoint url h hne
    cases h with
    | objects => exact addresses_escape hbus hbucket (Or.inl rfl) path
    | worker_get => exact addresses_escape hworker hbucket (Or.inl rfl) path
    | worker_put => exact addresses_escape hworker hbucket (Or.inl rfl) path
    | put_multipart_from_file => exact addresses_escape hpart hbucket (Or.inr ⟨_, rfl⟩) path
    | put_multipart => exact addresses_escape hpart hbucket (Or.inr ⟨_, rfl⟩) path
    | objects_delete => exact absurd rfl hne
  refine ⟨⟨fun h => ?_, fun hplain r endpoint url h => ?_⟩, hothers⟩
  · exact (addresses_plain_iff hbus hbucket).mp (h _ _ _ (.objects_delete path))
  · by_cases hr : r = .objects_delete path
    · subst hr
      cases h
      exact (addresses_plain_iff hbus hbucket).mpr hplain
    · exact hothers r endpoint url h hr

theorem urls_address_plain :
    Addresses (lit "http://127.0.0.1:9980/") (lit "api/bus/objects") (lit "default") (lit "/a b+c")
      (sia_bus_del_object_url (lit "http://127.0.0.1:9980/") (lit "default") (lit "/a b+c")) :=
  (urls_address (by decide +kernel) (by decide +kernel) (lit "/a b+c")).1.mpr
    (by unfold Plain; decide +kernel) _ _ _ (.objects_delete (lit "/a b+c"))

/-- The request to delete a file with a question mark in its name deletes another. -/
theorem delete_elsewhere :
    urlTarget (lit "http://127.0.0.1:9980/") (lit "api/bus/objects")
        (sia_bus_del_object_url (lit "http://127.0.0.1:9980/") (lit "default") (lit "/a?b")) =
        some (lit "/a") ∧
      urlTarget (lit "http://127.0.0.1:9980/") (lit "api/bus/objects")
        (sia_bus_objects_json_url (lit "http://127.0.0.1:9980/") (lit "default") (lit "/a?b")) =
        some (lit "/a?b") := by
  decide

end SiaFS
