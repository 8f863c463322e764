/-
A server that meets `Backend`.

It is small enough to run: the objects and the pending uploads of one bucket,
upload IDs in the order of the uploads, and a push of part `n` refused when
`rejects n`.  It shows that what is assumed of a server can be had, and the runs
on concrete inputs below are runs against it.
-/
import Mathlib.Data.List.Dedup
import Mathlib.Data.List.Sort
import Mathlib.Data.List.Lex
import SiaFS.Backend.Bucket

namespace SiaFS

open Json

structure Store where
  names : List CStr
  data : CStr → Option Bytes
  /-- The path of each upload, in the order they began, while it is pending. -/
  uploads : List (Option CStr)
  parts : CStr → Nat → Option Bytes
  named : ∀ path, data path ≠ none → path ∈ names

namespace Store

variable (s : Store)

def blank : Store where
  names := []
  data := fun _ => none
  uploads := []
  parts := fun _ _ => none
  named := fun _ h => absurd rfl h

def put (path : CStr) (body : Bytes) : Store :=
  { s with
    names := path :: s.names.erase path
    data := Function.update s.data path (some body)
    named := by
      intro p h
      by_cases hp : p = path
      · rw [hp]
        exact List.mem_cons_self
      · rw [Function.update_of_ne hp] at h
        exact List.mem_cons_of_mem _ ((List.mem_erase_of_ne hp).mpr (s.named p h)) }

def delete (path : CStr) : Store :=
  { s with
    data := Function.update s.data path none
    named := by
      intro p h
      by_cases hp : p = path
      · rw [hp, Function.update_self] at h
        exact absurd rfl h
      · rw [Function.update_of_ne hp] at h
        exact s.named p h }

/-- The body that moves to a name when the prefix of the names is replaced. -/
def moved (source target name : CStr) : Option Bytes :=
  if target.isPrefixOf name then s.data (source ++ name.drop target.length) else none

/-- Replace the prefix of the names that begin with it. -/
def renameAll (source target : CStr) : Store :=
  { s with
    names := (s.names ++ s.names.map fun name => target ++ name.drop source.length).dedup
    data := fun name =>
      (s.moved source target name).or (if source.isPrefixOf name then none else s.data name)
    named := by
      intro name h
      rw [List.mem_dedup, List.mem_append]
      cases hm : s.moved source target name with
      | none =>
        rw [hm, Option.none_or] at h
        split at h
        · exact absurd rfl h
        · exact Or.inl (s.named name h)
      | some body =>
        rw [moved] at hm
        split at hm
        · rename_i hpre
          obtain ⟨rest, rfl⟩ := List.isPrefixOf_iff_prefix.mp hpre
          rw [List.drop_left] at hm
          refine Or.inr (List.mem_map.mpr ⟨source ++ rest, s.named _ (by simp [hm]), ?_⟩)
          rw [List.drop_left]
        · cases hm }

/-- The ID of the `k`-th upload. -/
def uploadID (k : Nat) : CStr := List.replicate (k + 1) 97

theorem uploadID_injective {j k : Nat} (h : uploadID j = uploadID k) : j = k := by
  have := congrArg List.length h
  simpa [uploadID] using this

/-- The path of the upload with that ID, while it is pending. -/
def pending (id : CStr) : Option CStr :=
  if id = uploadID (id.length - 1) then (s.uploads[id.length - 1]?).join else none

theorem pending_uploadID (k : Nat) : s.pending (uploadID k) = (s.uploads[k]?).join := by
  have hlen : (uploadID k).length - 1 = k := by simp [uploadID]
  rw [pending, hlen, if_pos rfl]

theorem pending_eq_some {id path : CStr} (h : s.pending id = some path) :
    ∃ k, id = uploadID k ∧ s.uploads[k]? = some (some path) := by
  rw [pending] at h
  split at h
  · rename_i hid
    exact ⟨_, hid, Option.join_eq_some_iff.mp h⟩
  · cases h

def create (path : CStr) : Store :=
  { s with
    uploads := s.uploads ++ [some path]
    parts := Function.update s.parts (uploadID s.uploads.length) fun _ => none }

def store (id : CStr) (n : Nat) (body : Bytes) : Store :=
  { s with parts := Function.update s.parts id (Function.update (s.parts id) n (some body)) }

/-- The tag of a part. -/
def tag (n : Nat) : CStr := decimal n

/-- The store as the program sees it. -/
def view : Bucket where
  objects := s.data
  pending := s.pending
  parts := fun id n => (s.parts id n).map fun body => (body, tag n)
  issued := fun id => ∃ k, k < s.uploads.length ∧ id = uploadID k
  pending_issued := by
    intro id path h
    obtain ⟨k, hid, hk⟩ := s.pending_eq_some h
    exact ⟨k, (List.getElem?_eq_some_iff.mp hk).1, hid⟩

def finish (path id : CStr) (body : Bytes) : Store :=
  { s.put path body with uploads := s.uploads.set (id.length - 1) none }

end Store

/-! ## Replies -/

def jsonReply (document : Json) : Reply :=
  { ok := true, status := 200, etag := none, contentLength := none,
    body := some { bytes := [], document := some document } }

/-- An answer without a document. -/
def plainReply (status : Nat) (bytes : Bytes) : Reply :=
  { ok := true, status := status, etag := none, contentLength := some (decimal bytes.length),
    body := some { bytes := bytes, document := none } }

def objectJson (name : CStr) (body : Bytes) : Json :=
  .obj [(lit "name", .str name), (lit "size", .num body.length),
    (lit "modTime", .str (lit "2024-01-01T00:00:00Z")), (lit "eTag", .str (lit "e"))]

def uploadJson (id path : CStr) : Json :=
  .obj [(lit "uploadID", .str id), (lit "path", .str path)]

/-- The objects whose names begin with the path. -/
def Store.below (s : Store) (path : CStr) : List (CStr × Bytes) :=
  s.names.filterMap fun name =>
    if path.isPrefixOf name then (s.data name).map (Prod.mk name) else none

def Store.listing (s : Store) (path : CStr) : Json :=
  .obj [(lit "objects", .arr ((s.below path).map fun x => objectJson x.1 x.2)),
    (lit "hasMore", .bool false)]

/-- The names of the entries of a directory, in order. -/
def Store.entryNames (s : Store) (path : CStr) : List CStr :=
  (((s.below path).filter fun x => x.1 != path).map fun x =>
    entryUnder path x.1).dedup.insertionSort fun a b => a ≤ b

def Store.entries (s : Store) (path : CStr) : Json :=
  .obj [(lit "entries", .arr ((s.entryNames path).map fun name =>
    objectJson name ((s.data name).getD [])))]

def Store.uploadsJson (s : Store) (path : CStr) : Json :=
  .obj [(lit "uploads", .arr ((List.range s.uploads.length).filterMap fun k =>
    ((s.uploads[k]?).join).bind fun p =>
      if path.isPrefixOf p then some (uploadJson (Store.uploadID k) p) else none))]

/-- One element of the `Parts` of a request to complete an upload. -/
def listedPart (part : Json) : Option (Nat × CStr) :=
  match cJSON_GetObjectItemCaseSensitive part (lit "partNumber"),
      cJSON_GetObjectItemCaseSensitive part (lit "eTag") with
  | some (.num n), some (.str etag) => some (n.toNat, etag)
  | _, _ => none

def Store.complete (s : Store) (payload : Json) : Reply × Store :=
  match (cJSON_GetObjectItemCaseSensitive payload (lit "path")).bind valuestring,
      (cJSON_GetObjectItemCaseSensitive payload (lit "uploadID")).bind valuestring,
      cJSON_GetObjectItemCaseSensitive payload (lit "Parts") with
  | some path, some id, some (.arr parts) =>
    let listed := parts.filterMap listedPart
    if s.pending id = some path ∧
        ∀ x ∈ listed, (s.parts id x.1).isSome ∧ x.2 = Store.tag x.1 then
      (jsonReply (.obj [(lit "eTag", .str (lit "e"))]),
        s.finish path id (s.view.assemble id listed))
    else (plainReply 404 [], s)
  | _, _, _ => (plainReply 400 [], s)

/-- The server. -/
def renterd (rejects : Nat → Bool) (s : Store) : Request → Reply × Store
  | .objects path =>
    if endsWithSlash path then (jsonReply (s.entries path), s)
    else
      match s.data path with
      | some body => (jsonReply (.obj [(lit "object", objectJson path body)]), s)
      | none => (plainReply 404 [], s)
  | .objects_list path => (jsonReply (s.listing path), s)
  | .objects_delete path => (plainReply 200 [], s.delete path)
  | .objects_rename source target mode =>
    if mode = lit "multi" then (plainReply 200 [], s.renameAll source target)
    else
      match s.data source with
      | some body => (plainReply 200 [], (s.delete source).put target body)
      | none => (plainReply 404 [], s)
  | .multipart_listuploads path => (jsonReply (s.uploadsJson path), s)
  | .multipart_create path _ =>
    (jsonReply (.obj [(lit "uploadID", .str (Store.uploadID s.uploads.length))]), s.create path)
  | .multipart_listparts _ _ => (jsonReply (.obj []), s)
  | .multipart_complete payload => s.complete payload
  | .worker_get path first last =>
    match s.data path with
    | some body =>
      if first ≤ last then
        (plainReply 206 ((body.drop first.toNat).take (last - first + 1).toNat), s)
      else (plainReply 416 [], s)
    | none => (plainReply 404 [], s)
  | .worker_put path body => (plainReply 200 [], s.put path body)
  | .worker_put_multipart path id n body =>
    if rejects n = false ∧ s.pending id = some path then
      ({ ok := true, status := 200, etag := some (quote :: Store.tag n ++ [quote]),
         contentLength := none, body := none }, s.store id n body)
    else (plainReply 500 [], s)

/-! ## What it keeps -/

section Meets

variable (s : Store) (path id : CStr)

/-- IDs other than those of the server are never pending. -/
theorem Store.pending_of_not_id (h : ∀ k, id ≠ Store.uploadID k) : s.pending id = none := by
  rw [Store.pending, if_neg (h _)]

theorem view_create : (s.create path).view = s.view.create path (Store.uploadID s.uploads.length) := by
  refine Bucket.ext rfl ?_ ?_ ?_
  · funext i
    show (s.create path).pending i =
      Function.update s.pending (Store.uploadID s.uploads.length) (some path) i
    by_cases hi : ∃ k, i = Store.uploadID k
    · obtain ⟨k, rfl⟩ := hi
      rw [Store.pending_uploadID]
      by_cases hk : k = s.uploads.length
      · subst hk
        simp [Store.create]
      · have hne : Store.uploadID k ≠ Store.uploadID s.uploads.length :=
          fun h => hk (Store.uploadID_injective h)
        rw [Function.update_of_ne hne, Store.pending_uploadID, Store.create]
        rcases Nat.lt_or_gt_of_ne hk with hlt | hgt
        · rw [List.getElem?_append_left hlt]
        · rw [List.getElem?_eq_none (by simp; omega), List.getElem?_eq_none (by omega)]
    · have hne := not_exists.mp hi
      rw [Store.pending_of_not_id _ _ hne, Function.update_of_ne (hne _),
        Store.pending_of_not_id _ _ hne]
  · funext i n
    by_cases hi : i = Store.uploadID s.uploads.length
    · subst hi
      simp [Store.view, Store.create, Bucket.create]
    · simp [Store.view, Store.create, Bucket.create, hi]
  · funext i
    refine propext ⟨?_, ?_⟩
    · rintro ⟨k, hk, rfl⟩
      rcases Nat.lt_or_eq_of_le (Nat.le_of_lt_succ (by simpa [Store.create] using hk)) with
        hlt | rfl
      · exact Or.inr ⟨k, hlt, rfl⟩
      · exact Or.inl rfl
    · rintro (rfl | ⟨k, hk, rfl⟩)
      · exact ⟨_, by simp [Store.create], rfl⟩
      · exact ⟨k, by simp only [Store.create, List.length_append]; omega, rfl⟩

theorem view_store (n : Nat) (body : Bytes) :
    (s.store id n body).view = s.view.store id n (body, Store.tag n) := by
  refine Bucket.ext rfl rfl ?_ rfl
  funext i m
  by_cases hi : i = id
  · subst hi
    by_cases hm : m = n
    · subst hm
      simp [Store.view, Store.store, Bucket.store]
    · simp [Store.view, Store.store, Bucket.store, hm]
  · simp [Store.view, Store.store, Bucket.store, hi]

theorem view_finish (h : s.pending id = some path) (listed : List (Nat × CStr)) :
    (s.finish path id (s.view.assemble id listed)).view = s.view.complete path id listed := by
  obtain ⟨k, rfl, hk⟩ := s.pending_eq_some h
  have hlen : (Store.uploadID k).length - 1 = k := by simp [Store.uploadID]
  refine Bucket.ext rfl ?_ rfl ?_
  · funext i
    show (s.finish path (Store.uploadID k) _).pending i =
      Function.update s.pending (Store.uploadID k) none i
    by_cases hi : ∃ j, i = Store.uploadID j
    · obtain ⟨j, rfl⟩ := hi
      rw [Store.pending_uploadID, Store.finish, hlen]
      by_cases hj : j = k
      · subst hj
        have := (List.getElem?_eq_some_iff.mp hk).1
        simp [this]
      · rw [Function.update_of_ne fun h => hj (Store.uploadID_injective h),
          Store.pending_uploadID, List.getElem?_set_ne (Ne.symm hj)]
    · have hne := not_exists.mp hi
      rw [Store.pending_of_not_id _ _ hne, Function.update_of_ne (hne _),
        Store.pending_of_not_id _ _ hne]
  · funext i
    simp [Store.view, Store.finish, Bucket.complete]

end Meets

/-! ## What it answers -/

theorem Store.mem_below (s : Store) (path name : CStr) (body : Bytes) :
    (name, body) ∈ s.below path ↔ path.isPrefixOf name ∧ s.data name = some body := by
  rw [Store.below, List.mem_filterMap]
  constructor
  · rintro ⟨n, -, hn⟩
    split at hn
    · rename_i hp
      obtain ⟨b, hb, heq⟩ := Option.map_eq_some_iff.mp hn
      cases heq
      exact ⟨hp, hb⟩
    · cases hn
  · rintro ⟨hp, hb⟩
    exact ⟨name, s.named name (by rw [hb]; exact Option.some_ne_none _), by rw [if_pos hp, hb]; rfl⟩

theorem listedPart_partJson (part : Nat × CStr) : listedPart (partJson part) = some part := rfl

theorem uploadEntry_uploadJson (id path : CStr) :
    uploadEntry (uploadJson id path) = some (id, path) := rfl

theorem isPrefixOf_self (path : CStr) : path.isPrefixOf path = true :=
  List.isPrefixOf_iff_prefix.mpr (List.prefix_refl _)

theorem stripQuotes_quoted (tag : CStr) : stripQuotes (quote :: tag ++ [quote]) = tag := by
  have hlast : (quote :: tag ++ [quote]).getLast? = some quote := List.getLast?_concat
  have hdrop : (quote :: tag ++ [quote]).dropLast = quote :: tag := List.dropLast_concat
  rw [stripQuotes, if_pos hlast, hdrop]
  rfl

theorem complete_eq {payload : Json} {listed : List (Nat × CStr)} (s : Store) {path id : CStr}
    (hc : CompletesWith payload path id listed) (hp : s.pending id = some path)
    (hhas : s.view.Has id listed) :
    (s.complete payload).2 = s.finish path id (s.view.assemble id listed) := by
  have hlisted : (listed.map partJson).filterMap listedPart = listed := by
    rw [List.filterMap_map, show listedPart ∘ partJson = some from funext listedPart_partJson,
      List.filterMap_some]
  have hall : ∀ x ∈ listed, (s.parts id x.1).isSome ∧ x.2 = Store.tag x.1 := by
    intro x hx
    obtain ⟨body, hbody⟩ := hhas x hx
    obtain ⟨b, hb, heq⟩ := Option.map_eq_some_iff.mp hbody
    exact ⟨by rw [hb]; rfl, (congrArg Prod.snd heq).symm⟩
  rw [Store.complete, hc.path, hc.uploadID, hc.parts]
  simp only [Option.bind_some, valuestring, hlisted]
  rw [if_pos ⟨hp, hall⟩]

theorem listing_lists (s : Store) (path : CStr) :
    ListsObjects (s.listing path) path (s.data path).isSome := by
  refine ⟨⟨_, rfl, fun item hitem => ?_, ?_, ?_⟩, rfl⟩
  · obtain ⟨x, -, rfl⟩ := List.mem_map.mp hitem
    exact ⟨_, _, rfl, rfl⟩
  · rintro ⟨item, hitem, hname⟩
    obtain ⟨⟨name, body⟩, hx, rfl⟩ := List.mem_map.mp hitem
    obtain ⟨-, hb⟩ := (s.mem_below path name body).mp hx
    cases hname
    rw [hb]
    rfl
  · intro hsome
    obtain ⟨body, hb⟩ := Option.isSome_iff_exists.mp hsome
    exact ⟨objectJson path body, List.mem_map.mpr
      ⟨(path, body), (s.mem_below path path body).mpr ⟨isPrefixOf_self path, hb⟩, rfl⟩, rfl⟩

/-- Metadata requests and ranges change nothing. -/
theorem renterd_objects_state (refuse : Nat → Bool) (s : Store) (path : CStr) :
    (renterd refuse s (.objects path)).2 = s := by
  rw [renterd]
  split
  · rfl
  · split <;> rfl

theorem renterd_worker_get_state (refuse : Nat → Bool) (s : Store) (path : CStr) (first last : Int) :
    (renterd refuse s (.worker_get path first last)).2 = s := by
  rw [renterd]
  split
  · split <;> rfl
  · rfl

/-- The server forgets no upload. -/
theorem renterd_uploads_length (refuse : Nat → Bool) (s : Store) (r : Request) :
    s.uploads.length ≤ (renterd refuse s r).2.uploads.length := by
  cases r with
  | multipart_create path key =>
    show _ ≤ (s.uploads ++ [some path]).length
    rw [List.length_append]
    exact Nat.le_add_right _ _
  | multipart_complete payload =>
    show _ ≤ (s.complete payload).2.uploads.length
    unfold Store.complete
    split
    · dsimp only
      split
      · exact Nat.le_of_eq List.length_set.symm
      · exact Nat.le_refl _
    · exact Nat.le_refl _
  | objects path => rw [renterd_objects_state]
  | objects_rename source target mode =>
    rw [renterd]
    split
    · exact Nat.le_refl _
    · split <;> exact Nat.le_refl _
  | worker_get path first last =>
    rw [renterd_worker_get_state]
  | worker_put_multipart path id n body =>
    rw [renterd]
    split <;> exact Nat.le_refl _
  | objects_list | objects_delete | multipart_listuploads | multipart_listparts | worker_put =>
    exact Nat.le_refl _

/-- The server does what is documented of it. -/
theorem renterd_backend (refuse : Nat → Bool) :
    Backend (renterd refuse) Store.view fun n => refuse n = true where
  objects_view s path := congrArg Store.view (renterd_objects_state refuse s path)
  objects_list_view s path := rfl
  worker_get_view s path first last :=
    congrArg Store.view (renterd_worker_get_state refuse s path first last)
  listuploads_view s path := rfl
  listparts_view s path id := rfl
  listuploads s path := by
    refine ⟨_, _, rfl, rfl, fun id => ⟨?_, fun hp => ?_⟩⟩
    · rintro ⟨item, hitem, hentry⟩
      obtain ⟨k, -, hk⟩ := List.mem_filterMap.mp hitem
      obtain ⟨p, hp, hif⟩ := Option.bind_eq_some_iff.mp hk
      split at hif
      · cases hif
        rw [uploadEntry_uploadJson] at hentry
        cases hentry
        show s.pending _ = _
        rw [Store.pending_uploadID, hp]
      · cases hif
    · obtain ⟨k, rfl, hk⟩ := s.pending_eq_some hp
      refine ⟨uploadJson (Store.uploadID k) path, List.mem_filterMap.mpr ⟨k, ?_, ?_⟩, rfl⟩
      · exact List.mem_range.mpr (List.getElem?_eq_some_iff.mp hk).1
      · rw [hk]
        simp
  create s path key := by
    refine ⟨_, _, rfl, rfl, ?_, view_create s path⟩
    rintro ⟨k, hk, hid⟩
    have := Store.uploadID_injective hid
    omega
  put s path id n body hp hn := by
    have hn : refuse n = false := by simpa using hn
    rw [renterd, if_pos ⟨hn, hp⟩]
    refine ⟨show 200 < 300 by decide, _, rfl, by simp, ?_⟩
    rw [stripQuotes_quoted]
    exact view_store s id n body
  put_rejected s path id n body hn := by
    rw [renterd, if_neg (by simp [hn])]
    exact ⟨show 300 ≤ 500 by decide, rfl⟩
  issued_keeps s r id := by
    rintro ⟨k, hk, hid⟩
    exact ⟨k, Nat.lt_of_lt_of_le hk (renterd_uploads_length refuse s r), hid⟩
  complete s payload path id listed hc hp hhas := by
    show (s.complete payload).2.view = _
    rw [complete_eq s hc hp hhas, view_finish s path id hp]
  objects_list s path := by
    exact ⟨_, rfl, listing_lists s path⟩
  objects s path h := by
    rw [renterd]
    by_cases hslash : endsWithSlash path = true
    · rw [if_pos hslash]
      exact Or.inl rfl
    · rw [if_neg hslash]
      rcases h with h | h | h
      · have h : s.data path = none := h
        rw [h]
        exact Or.inl rfl
      · have h : s.data path = some [] := h
        rw [h]
        exact Or.inr rfl
      · exact absurd h hslash
  objects_size s path body hobj hne hslash := by
    refine ⟨body.length, ?_, ?_⟩
    · simpa using hne
    · have hobj : s.data path = some body := hobj
      rw [renterd, if_neg (by simp [hslash]), hobj]
      rfl
  objects_no_list s path doc := by
    rw [renterd]
    intro h
    split at h
    · cases h
      rfl
    · split at h
      · cases h
        rfl
      · cases h

/-! ## A mount of it -/

/-- A C library on which nothing fails. -/
def plainHost : Host where
  tmpnam k := lit "/tmp/file" ++ List.replicate k 97
  fopen _ := true
  fwrite _ size := size
  md5 s := s
  strptime _ := some { year := 2024, month := 1, day := 1, hour := 0, minute := 0, second := 0 }
  mktime _ := 1704067200
  uid := 1000
  gid := 1000

/-- A mount of a server. -/
def mountOf {σ : Type} (fuse : FuseVersion) (hugeFiles : Bool)
    (server : σ → Request → Reply × σ) : Env σ where
  fuse := fuse
  hugeFiles := hugeFiles
  verbose := false
  bucket := lit "default"
  host := plainHost
  server := server

/-- A mount of the server that refuses the pushes of the parts in `refuse`. -/
def mount (fuse : FuseVersion) (hugeFiles : Bool) (refuse : Nat → Bool) : Env Store :=
  mountOf fuse hugeFiles (renterd refuse)

/-- The state a mount starts in. -/
def mounted {σ : Type} (s : σ) (L1 : Option (CStr → Option L1Entry)) : World σ where
  uploads := []
  tmp := fun _ => none
  names := 0
  appends := 0
  L1 := L1
  L2 := none
  now := 0
  server := s
  trace := []

theorem renterd_accepts : Backend (renterd fun _ => false) Store.view fun _ => False := by
  have h := renterd_backend fun _ => false
  simpa using h

/-- The build with `SIA_HUGE_FILES` and libfuse 3, and the server that refuses
nothing. -/
abbrev hugeMount : Env Store := mount .fuse3 true fun _ => false

end SiaFS
