/-
What the program reads out of the replies of the documented server.

The upload ID of a write is that of the upload pending for the path, or a new
one; a push is answered with the ETag stored; and the test of `siafs_release`
lets a path through, whether or not its object is there.
-/
import SiaFS.Backend.Bucket
import SiaFS.Upload.Stages

namespace SiaFS

open Json

variable {σ : Type} {e : Env σ} {view : σ → Bucket} {rejects : Nat → Prop} {path id : CStr}
  {s : σ}

/-! ## Upload IDs -/

theorem matchUpload_eq (path : CStr) (answer : Option CStr) (upload : Json) :
    matchUpload path answer upload =
      match uploadEntry upload with
      | some (id, p) => if path = p then some id else answer
      | none => answer := by
  have hobj : cJSON_IsObject upload = false → uploadEntry upload = none := by
    cases upload <;> simp [cJSON_IsObject, uploadEntry, cJSON_GetObjectItemCaseSensitive]
  rw [matchUpload]
  cases hb : cJSON_IsObject upload with
  | false => simp [hobj hb]
  | true =>
    rw [if_pos rfl, uploadEntry]
    cases (cJSON_GetObjectItemCaseSensitive upload (lit "uploadID")).bind valuestring with
    | none => rfl
    | some id =>
      cases (cJSON_GetObjectItemCaseSensitive upload (lit "path")).bind valuestring <;> rfl

/-- The loop over a listing ends with an entry for the path, or with what it
began with when there is none. -/
theorem foldl_matchUpload (path : CStr) (items : List Json) (answer : Option CStr) :
    (∃ id, items.foldl (matchUpload path) answer = some id ∧
        ∃ item ∈ items, uploadEntry item = some (id, path)) ∨
      (items.foldl (matchUpload path) answer = answer ∧
        ∀ item ∈ items, ∀ id, uploadEntry item ≠ some (id, path)) := by
  induction items generalizing answer with
  | nil => exact Or.inr ⟨rfl, by simp⟩
  | cons item items ih =>
    rw [List.foldl_cons]
    rcases ih (matchUpload path answer item) with ⟨id, h, x, hx, hid⟩ | ⟨h, hnone⟩
    · exact Or.inl ⟨id, h, x, List.mem_cons_of_mem _ hx, hid⟩
    · rw [h, matchUpload_eq]
      rcases he : uploadEntry item with _ | ⟨id, p⟩
      · refine Or.inr ⟨rfl, fun x hx => ?_⟩
        rcases List.mem_cons.mp hx with rfl | hx
        · simp [he]
        · exact hnone x hx
      · by_cases hp : path = p
        · subst hp
          exact Or.inl ⟨id, by simp, item, List.mem_cons_self, he⟩
        · refine Or.inr ⟨by simp [hp], fun x hx => ?_⟩
          rcases List.mem_cons.mp hx with rfl | hx
          · rw [he]
            rintro id' heq
            cases heq
            exact hp rfl
          · exact hnone x hx

namespace Backend

variable (hB : Backend e.server view rejects)

include hB

theorem listedID_cases (s : σ) (path : CStr) :
    (∃ id, listedID e path s = some id ∧ (view s).pending id = some path) ∨
      (listedID e path s = none ∧ ∀ id, (view s).pending id ≠ some path) := by
  obtain ⟨doc, items, hdoc, hitems, hiff⟩ := hB.listuploads s path
  have hrec : listedID e path s = items.foldl (matchUpload path) none := by
    rw [listedID, hdoc, Option.bind_some, recoveredUploadID, hitems]
  rcases foldl_matchUpload path items none with ⟨id, h, hx⟩ | ⟨h, hnone⟩
  · exact Or.inl ⟨id, hrec.trans h, (hiff id).mp hx⟩
  · refine Or.inr ⟨hrec.trans h, fun id hid => ?_⟩
    obtain ⟨item, hmem, hentry⟩ := (hiff id).mpr hid
    exact hnone item hmem id hentry

/-- The upload ID of a write to a path with one pending upload. -/
theorem resolvedID_pending (h : ∀ i, (view s).pending i = some path ↔ i = id) :
    resolvedID e path s = some id ∧
      uploadIDRequests e path s = [.multipart_listuploads path] ∧
      view (askAll e (uploadIDRequests e path s) s).1 = view s := by
  rcases hB.listedID_cases s path with ⟨id', hl, hp⟩ | ⟨-, hnone⟩
  · obtain rfl := (h id').mp hp
    have hreq : uploadIDRequests e path s = [.multipart_listuploads path] := by
      rw [uploadIDRequests, hl]
      rfl
    refine ⟨by rw [resolvedID, hl], hreq, ?_⟩
    rw [hreq]
    exact hB.listuploads_view s path
  · exact absurd ((h id).mpr rfl) (hnone id)

/-- The upload ID of a write to a path without a pending upload. -/
theorem resolvedID_new (h : ∀ i, (view s).pending i ≠ some path) :
    ∃ id, resolvedID e path s = some id ∧ ¬ (view s).issued id ∧
      view (askAll e (uploadIDRequests e path s) s).1 = (view s).create path id := by
  rcases hB.listedID_cases s path with ⟨id', -, hp⟩ | ⟨hl, -⟩
  · exact absurd hp (h id')
  · obtain ⟨doc, id, hdoc, hid, hfresh, hview⟩ :=
      hB.create (e.server s (.multipart_listuploads path)).2 path zeroKey
    rw [hB.listuploads_view] at hfresh hview
    refine ⟨id, ?_, hfresh, ?_⟩
    · rw [resolvedID, hl, hdoc, Option.bind_some, newUploadID, hid]
      rfl
    · rw [uploadIDRequests, hl]
      exact hview

/-! ## Pushes -/

theorem putAnswer_accepted {n : Nat} (hp : (view s).pending id = some path)
    (hn : ¬ rejects n) (body : Bytes) :
    ∃ tag, putAnswer e path (some id) n body s = .ok (some tag) ∧
      view (askAll e (putRequests path (some id) n body) s).1 =
        (view s).store id n (body, tag) := by
  obtain ⟨hst, etag, hetag, hne, hview⟩ := hB.put s path id n body hp hn
  refine ⟨stripQuotes etag, ?_, hview⟩
  rw [putAnswer, if_pos hst, hetag]
  cases etag with
  | nil => exact absurd rfl hne
  | cons b bs => rfl

theorem putAnswer_rejected {n : Nat} (hn : rejects n) (path id : CStr) (body : Bytes) :
    putAnswer e path (some id) n body s = .ok none ∧
      view (askAll e (putRequests path (some id) n body) s).1 = view s := by
  obtain ⟨hst, hview⟩ := hB.put_rejected s path id n body hn
  exact ⟨by rw [putAnswer, if_neg (by omega)], hview⟩

end Backend

/-! ## Metadata -/

/-- A scan whose test never faults finds whether an entry passes it. -/
theorem scanObjects_ok {test : Json → Except Fault Bool} {items : List Json}
    (h : ∀ item ∈ items, ∃ b, test item = .ok b) :
    ∃ x, scanObjects test items = .ok x ∧ (x = true ↔ ∃ item ∈ items, test item = .ok true) := by
  have key : ∀ answer, ∃ x,
      items.foldlM (fun answer object => do pure (answer || (← test object))) answer =
        (.ok x : Except Fault Bool) ∧
      (x = true ↔ answer = true ∨ ∃ item ∈ items, test item = .ok true) := by
    induction items with
    | nil => exact fun answer => ⟨answer, rfl, by simp⟩
    | cons item items ih =>
      intro answer
      obtain ⟨b, hb⟩ := h item List.mem_cons_self
      obtain ⟨x, hx, hiff⟩ := ih (fun x hx => h x (List.mem_cons_of_mem _ hx)) (answer || b)
      refine ⟨x, ?_, ?_⟩
      · rw [List.foldlM_cons, hb]
        exact hx
      · rw [hiff]
        simp [hb, or_assoc]
  obtain ⟨x, hx, hiff⟩ := key false
  exact ⟨x, hx, by simpa using hiff⟩

/-- A cached answer that never stops the release of a path: it shows no size, and
can be scanned. -/
structure EntryFine (path : CStr) (payload : Option Body) : Prop where
  scan : ∃ x, scanObjects (testFile path) (listedObjects payload) = .ok x
  size : replySize payload = 0

namespace Bucket

def IsFile (b : Bucket) (path : CStr) : Prop :=
  (b.objects path).isSome ∧ endsWithSlash path = false

/-- An object that the request for a size reports no size of. -/
def Sizeless (b : Bucket) (path : CStr) : Prop :=
  b.objects path = none ∨ b.objects path = some [] ∨ endsWithSlash path = true

theorem sizeless_of_not_isFile {b : Bucket} {path : CStr} (h : ¬ b.IsFile path) :
    b.Sizeless path := by
  cases hobj : b.objects path with
  | none => exact Or.inl hobj
  | some body =>
    cases hslash : endsWithSlash path with
    | true => exact Or.inr (Or.inr hslash)
    | false => exact absurd ⟨by rw [hobj]; rfl, hslash⟩ h

end Bucket

/-- What the L1 cache still holds about a path does not stop its release: when
the path does not look like a file, it does not look as if it had a size. -/
structure CacheFine (e : Env σ) (b : Bucket) (w : World σ) (path : CStr) : Prop where
  scan : ∀ body, mc_lookup w (listKey e path) = some body →
    ∃ x, scanObjects (testFile path) (listedObjects (some body)) = .ok x
  size : (∀ body, mc_lookup w (listKey e path) = some body →
      scanObjects (testFile path) (listedObjects (some body)) = .ok false) →
    (mc_lookup w (listKey e path) = none → ¬ b.IsFile path) →
    (∀ body, mc_lookup w (objectsKey e path) = some body → replySize (some body) = 0) ∧
      (mc_lookup w (objectsKey e path) = none → b.Sizeless path)

theorem testFile_named (path : CStr) {name : CStr} {item : Json}
    (h : cJSON_GetObjectItemCaseSensitive item (lit "name") = some (.str name)) :
    testFile path item = .ok (name == path && !endsWithSlash name) := by
  rw [testFile, h]
  rfl

namespace Backend

variable (hB : Backend e.server view rejects)

include hB

/-- The listing of a path tells whether it is a file. -/
theorem list_fine (s : σ) (path q : CStr) :
    EntryFine q (e.server s (.objects_list path)).1.body := by
  obtain ⟨doc, hdoc, ⟨items, hitems, hnames, -⟩, hobject⟩ := hB.objects_list s path
  refine ⟨?_, ?_⟩
  · rw [listedObjects, hdoc, Option.bind_some, hitems]
    obtain ⟨x, hx, -⟩ := scanObjects_ok fun item hitem => by
      obtain ⟨name, size, hname, -⟩ := hnames item hitem
      exact ⟨_, testFile_named q hname⟩
    exact ⟨x, hx⟩
  · rw [replySize, objectField, hdoc, Option.bind_some, hobject]
    rfl

theorem list_scan (s : σ) (path : CStr) :
    ∃ x, scanObjects (testFile path) (listedObjects (e.server s (.objects_list path)).1.body) =
        .ok x ∧
      (x = true ↔ (view s).IsFile path) := by
  obtain ⟨doc, hdoc, ⟨items, hitems, hnames, hpresent⟩, -⟩ := hB.objects_list s path
  rw [listedObjects, hdoc, Option.bind_some, hitems]
  obtain ⟨x, hx, hiff⟩ := scanObjects_ok fun item hitem => by
    obtain ⟨name, size, hname, -⟩ := hnames item hitem
    exact ⟨_, testFile_named path hname⟩
  refine ⟨x, hx, hiff.trans ⟨?_, ?_⟩⟩
  · rintro ⟨item, hitem, htest⟩
    obtain ⟨name, size, hname, -⟩ := hnames item hitem
    rw [testFile_named path hname] at htest
    obtain ⟨rfl, hslash⟩ : name = path ∧ endsWithSlash name = false := by simpa using htest
    exact ⟨hpresent.mp ⟨item, hitem, hname⟩, hslash⟩
  · rintro ⟨hsome, hslash⟩
    obtain ⟨item, hitem, hname⟩ := hpresent.mpr hsome
    exact ⟨item, hitem, by rw [testFile_named path hname]; simp [hslash]⟩

theorem objects_fine (h : (view s).Sizeless path) (q : CStr) :
    EntryFine q (e.server s (.objects path)).1.body := by
  refine ⟨?_, ?_⟩
  · have hempty : listedObjects (e.server s (.objects path)).1.body = [] := by
      rw [listedObjects]
      cases hdoc : cJSON_Parse (e.server s (.objects path)).1.body with
      | none => rfl
      | some doc => rw [Option.bind_some, hB.objects_no_list s path doc hdoc]
    rw [hempty]
    exact ⟨false, rfl⟩
  · rw [replySize]
    rcases hB.objects s path h with h | h <;> rw [h] <;> rfl

theorem objects_sized (h : ¬ (view s).Sizeless path) :
    replySize (e.server s (.objects path)).1.body ≠ 0 := by
  have hslash : endsWithSlash path = false := by
    by_contra hn
    exact h (Or.inr (Or.inr (by simpa using hn)))
  cases hobj : (view s).objects path with
  | none => exact absurd (Or.inl hobj) h
  | some body =>
    have hne : body ≠ [] := by
      rintro rfl
      exact h (Or.inr (Or.inl hobj))
    obtain ⟨n, hn, hsize⟩ := hB.objects_size s path body hobj hne hslash
    rw [replySize, hsize]
    show u64 (max (-2 ^ 31) (min n (2 ^ 31 - 1))) ≠ 0
    unfold u64
    omega

end Backend

end SiaFS
