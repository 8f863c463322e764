/-
The server as the program takes it to be.

`Bucket` is what the server keeps: the finished objects, the uploads that are
pending, the parts stored for each upload, and the upload IDs handed out so far.
`Backend server view rejects` lists what is documented of the server as
hypotheses on the function `server`, seen through `view`.  A push of part `n` is refused
when `rejects n` holds; every other request is accepted.
-/
import SiaFS.Fuse

namespace SiaFS

open Json

@[ext] structure Bucket where
  objects : CStr → Option Bytes
  /-- The path of a pending upload, by its ID. -/
  pending : CStr → Option CStr
  /-- The body and the ETag stored as a part of an upload. -/
  parts : CStr → Nat → Option (Bytes × CStr)
  issued : CStr → Prop
  pending_issued : ∀ id path, pending id = some path → issued id

namespace Bucket

variable (b : Bucket)

/-- Begin an upload under a new ID. -/
def create (path id : CStr) : Bucket :=
  { b with
    pending := Function.update b.pending id (some path)
    parts := Function.update b.parts id fun _ => none
    issued := fun i => i = id ∨ b.issued i
    pending_issued := by
      intro i p h
      by_cases hi : i = id
      · exact Or.inl hi
      · rw [Function.update_of_ne hi] at h
        exact Or.inr (b.pending_issued i p h) }

/-- Store a part, in place of an earlier one with that number. -/
def store (id : CStr) (n : Nat) (part : Bytes × CStr) : Bucket :=
  { b with parts := Function.update b.parts id (Function.update (b.parts id) n (some part)) }

/-- The bodies of the listed parts, by part number. -/
def assemble (id : CStr) (listed : List (Nat × CStr)) : Bytes :=
  (listed.mergeSort fun x y => x.1 ≤ y.1).flatMap fun x =>
    ((b.parts id x.1).map Prod.fst).getD []

/-- Finish an upload: the object is there, and the upload no longer pending. -/
def complete (path id : CStr) (listed : List (Nat × CStr)) : Bucket :=
  { b with
    objects := Function.update b.objects path (some (b.assemble id listed))
    pending := Function.update b.pending id none
    pending_issued := by
      intro i p h
      by_cases hi : i = id
      · rw [hi, Function.update_self] at h
        cases h
      · rw [Function.update_of_ne hi] at h
        exact b.pending_issued i p h }

@[simp] theorem create_objects (path id : CStr) : (b.create path id).objects = b.objects := rfl

@[simp] theorem store_objects (id : CStr) (n : Nat) (part : Bytes × CStr) :
    (b.store id n part).objects = b.objects := rfl

@[simp] theorem store_pending (id : CStr) (n : Nat) (part : Bytes × CStr) :
    (b.store id n part).pending = b.pending := rfl

theorem complete_objects (path id : CStr) (listed : List (Nat × CStr)) :
    (b.complete path id listed).objects =
      Function.update b.objects path (some (b.assemble id listed)) := rfl

theorem complete_pending (path id : CStr) (listed : List (Nat × CStr)) :
    (b.complete path id listed).pending = Function.update b.pending id none := rfl

/-- Every listed part is stored with the listed ETag. -/
def Has (id : CStr) (listed : List (Nat × CStr)) : Prop :=
  ∀ x ∈ listed, ∃ body, b.parts id x.1 = some (body, x.2)

end Bucket

/-! ## Documents -/

/-- The ID and the path of one entry of a listing of uploads. -/
def uploadEntry (upload : Json) : Option (CStr × CStr) :=
  match (cJSON_GetObjectItemCaseSensitive upload (lit "uploadID")).bind valuestring,
      (cJSON_GetObjectItemCaseSensitive upload (lit "path")).bind valuestring with
  | some id, some path => some (id, path)
  | _, _ => none

/-- The document asks for the upload `id` of `path` to be finished with these
parts. -/
structure CompletesWith (payload : Json) (path id : CStr) (listed : List (Nat × CStr)) :
    Prop where
  path : cJSON_GetObjectItemCaseSensitive payload (lit "path") = some (.str path)
  uploadID : cJSON_GetObjectItemCaseSensitive payload (lit "uploadID") = some (.str id)
  parts : cJSON_GetObjectItemCaseSensitive payload (lit "Parts") =
    some (.arr (listed.map partJson))

/-- The document lists objects: every entry has a name and a size, and `path` is
among the names exactly when `present`. -/
structure ListsObjects (doc : Json) (path : CStr) (present : Prop) : Prop where
  objects : ∃ items, cJSON_GetObjectItemCaseSensitive doc (lit "objects") = some (.arr items) ∧
    (∀ item ∈ items, ∃ name size,
      cJSON_GetObjectItemCaseSensitive item (lit "name") = some (.str name) ∧
      cJSON_GetObjectItemCaseSensitive item (lit "size") = some (.num size)) ∧
    ((∃ item ∈ items,
      cJSON_GetObjectItemCaseSensitive item (lit "name") = some (.str path)) ↔ present)
  no_object : cJSON_GetObjectItemCaseSensitive doc (lit "object") = none

/-- The name of the entry under which the listing of a directory shows an object
below it: the object's name up to the next slash. -/
def entryUnder (path name : CStr) : CStr :=
  let rest := name.drop path.length
  let first := rest.takeWhile (· != slash)
  path ++ first ++ if first.length < rest.length then [slash] else []

/-! ## The server -/

variable {σ : Type}

/-- What is documented of the server, the requests being what it reads out of the texts
that it is sent.  `runAll_over` brings a run over those texts back to such a server. -/
structure Backend (server : σ → Request → Reply × σ) (view : σ → Bucket)
    (rejects : Nat → Prop) : Prop where
  /-- A request that only reads changes nothing. -/
  objects_view : ∀ s path, view (server s (.objects path)).2 = view s
  objects_list_view : ∀ s path, view (server s (.objects_list path)).2 = view s
  worker_get_view : ∀ s path first last, view (server s (.worker_get path first last)).2 = view s
  listuploads_view : ∀ s path, view (server s (.multipart_listuploads path)).2 = view s
  listparts_view : ∀ s path id, view (server s (.multipart_listparts path id)).2 = view s
  /-- The uploads pending for a path are listed. -/
  listuploads : ∀ s path, ∃ doc items,
    cJSON_Parse (server s (.multipart_listuploads path)).1.body = some doc ∧
    cJSON_GetObjectItemCaseSensitive doc (lit "uploads") = some (.arr items) ∧
    ∀ id, (∃ item ∈ items, uploadEntry item = some (id, path)) ↔
      (view s).pending id = some path
  /-- A new upload gets an ID that was never handed out. -/
  create : ∀ s path key, ∃ doc id,
    cJSON_Parse (server s (.multipart_create path key)).1.body = some doc ∧
    cJSON_GetObjectItemCaseSensitive doc (lit "uploadID") = some (.str id) ∧
    ¬ (view s).issued id ∧
    view (server s (.multipart_create path key)).2 = (view s).create path id
  /-- A part of a pending upload is stored as it is sent. -/
  put : ∀ s path id n body, (view s).pending id = some path → ¬ rejects n →
    (server s (.worker_put_multipart path id n body)).1.status < 300 ∧
    ∃ etag, (server s (.worker_put_multipart path id n body)).1.etag = some etag ∧ etag ≠ [] ∧
      view (server s (.worker_put_multipart path id n body)).2 =
        (view s).store id n (body, stripQuotes etag)
  put_rejected : ∀ s path id n body, rejects n →
    300 ≤ (server s (.worker_put_multipart path id n body)).1.status ∧
    view (server s (.worker_put_multipart path id n body)).2 = view s
  /-- An ID that was handed out stays so. -/
  issued_keeps : ∀ s r id, (view s).issued id → (view (server s r).2).issued id
  /-- A pending upload is finished with the parts listed. -/
  complete : ∀ s payload path id listed, CompletesWith payload path id listed →
    (view s).pending id = some path → (view s).Has id listed →
    view (server s (.multipart_complete payload)).2 = (view s).complete path id listed
  /-- The listing below a path shows the path itself if it is an object. -/
  objects_list : ∀ s path, ∃ doc,
    cJSON_Parse (server s (.objects_list path)).1.body = some doc ∧
    ListsObjects doc path ((view s).objects path).isSome
  /-- There is no size for a path without an object, nor for a directory, whose
  entries are returned instead; there is one for a file, and never a listing. -/
  objects : ∀ s path, ((view s).objects path = none ∨ (view s).objects path = some [] ∨
      endsWithSlash path = true) →
    objectField (server s (.objects path)).1.body (lit "size") = none ∨
      objectField (server s (.objects path)).1.body (lit "size") = some (.num 0)
  objects_size : ∀ s path body, (view s).objects path = some body → body ≠ [] →
    endsWithSlash path = false →
    ∃ n, n ≠ 0 ∧
      objectField (server s (.objects path)).1.body (lit "size") = some (.num n)
  objects_no_list : ∀ s path doc,
    cJSON_Parse (server s (.objects path)).1.body = some doc →
    cJSON_GetObjectItemCaseSensitive doc (lit "objects") = none

end SiaFS
