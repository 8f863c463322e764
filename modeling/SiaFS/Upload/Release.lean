/-
`siafs_release`: the test that lets a path through, and the request that
completes the upload found for it.

Nothing about the handle that is released enters: the upload is the one whose
node is found by path.
-/
import SiaFS.Backend.Answers

namespace SiaFS

open Json

variable {σ : Type} {e : Env σ}

/-! ## The steps of a release -/

theorem keeps_releaseCheck (path : CStr) :
    Exec.Keeps (Asks e Request.IsRead) (releaseCheck e path) := (lookups_ask path).releaseCheck

/-- The document that completes an upload with these parts. -/
def completePayload (e : Env σ) (path id : CStr) (parts : List (Nat × CStr)) : Json :=
  .obj
    [(lit "bucket", .str e.bucket),
      (lit "path", .str path),
      (lit "uploadID", .str id),
      (lit "Parts", .arr (parts.map partJson))]

theorem completePayload_completes (path id : CStr) (parts : List (Nat × CStr)) :
    CompletesWith (completePayload e path id parts) path id parts := by
  refine ⟨?_, ?_, ?_⟩ <;>
    simp [completePayload, cJSON_GetObjectItemCaseSensitive, List.lookup_cons, lit]

/-- What a release asks for once it has found the node `u`. -/
def releaseRequests (e : Env σ) (path : CStr) (u : SiaUpload) : List Request :=
  (if e.verbose then [.multipart_listparts path u.uploadID] else []) ++
    [.multipart_complete (completePayload e path u.uploadID (recordedParts u))]

variable {path : CStr} {w w₁ : World σ} {u : SiaUpload}

theorem complete_payload_ok {uploads : List SiaUpload} (hu : nodeNamed uploads path = some u)
    (id : CStr) :
    sia_bus_multipart_complete_create_json_payload e uploads path id =
      .ok (completePayload e path id (recordedParts u)) := by
  obtain ⟨i, hi, hui, -⟩ := find_upload_by_path_ok hu
  have hbind : ∀ f : Option Nat → Except Fault Json,
      (Except.ok (some i) >>= f) = f (some i) := fun f => rfl
  rw [sia_bus_multipart_complete_create_json_payload, hi, hbind, Option.bind_some, hui,
    Option.map_some, Option.getD_some, completePayload]
  rfl

theorem complete_apply (hu : nodeNamed w.uploads path = some u) (id : CStr)
    (f : Option Body → Sia σ Int) :
    ∃ body, (sia_bus_multipart_complete_json e path id >>= f) w =
      f body (sendAll e [.multipart_complete (completePayload e path id (recordedParts u))] w) := by
  rw [sia_bus_multipart_complete_json, Exec.bind_assoc, Exec.get_bind, Exec.bind_assoc,
    Exec.lift_ok_bind (complete_payload_ok hu id)]
  exact ⟨_, Exec.bind_of_ok (Exec.bind_of_ok (send_apply e _ w))⟩

theorem listparts_apply (id : CStr) (w : World σ) :
    sia_bus_multipart_listparts_json e path id w =
      (.ok (e.server w.server (.multipart_listparts path id)).1.body,
        sendAll e [.multipart_listparts path id] w) := rfl

theorem completeUpload_apply (hu : nodeNamed w.uploads path = some u) :
    completeUpload e path w = (.ok 0, sendAll e (releaseRequests e path u) w) := by
  obtain ⟨i, hi, hui, -⟩ := find_upload_by_path_ok hu
  rw [completeUpload, Exec.get_bind, Exec.lift_ok_bind hi]
  simp only [hui]
  by_cases hv : e.verbose = true
  · rw [if_pos hv]
    obtain ⟨body, hbody⟩ := complete_apply
      (w := sendAll e [.multipart_listparts path u.uploadID] w) hu u.uploadID fun _ => pure 0
    refine (Exec.bind_of_ok (listparts_apply u.uploadID w)).trans (hbody.trans ?_)
    rw [releaseRequests, if_pos hv, sendAll_append]
    rfl
  · rw [if_neg hv]
    obtain ⟨body, hbody⟩ := complete_apply (e := e) hu u.uploadID fun _ => pure 0
    refine hbody.trans ?_
    rw [releaseRequests, if_neg hv]
    rfl

theorem siafs_release_passed (hcheck : releaseCheck e path w = (.ok true, w₁))
    (hu : nodeNamed w₁.uploads path = some u) :
    siafs_release e path w = (.ok 0, sendAll e (releaseRequests e path u) w₁) := by
  rw [siafs_release, Exec.bind_of_ok hcheck]
  exact completeUpload_apply hu

/-! ## The requests to complete an upload -/

/-- The document of a request to complete an upload. -/
def Request.completion : Request → Option Json
  | .multipart_complete payload => some payload
  | _ => none

/-- The documents of the requests to complete an upload, in order. -/
def completions (trace : List (Request × Reply)) : List Json :=
  trace.filterMap fun x => x.1.completion

theorem completions_append (t t' : List (Request × Reply)) :
    completions (t ++ t') = completions t ++ completions t' := List.filterMap_append

theorem completions_askAll (rs : List Request) (s : σ) :
    completions (askAll e rs s).2 = rs.filterMap Request.completion := by
  induction rs generalizing s with
  | nil => rfl
  | cons r rs ih =>
    have := ih (e.server s r).2
    rw [completions] at this
    rw [askAll, completions, List.filterMap_cons, List.filterMap_cons, this]

theorem completions_sendAll (rs : List Request) (w : World σ) :
    completions (sendAll e rs w).trace =
      completions w.trace ++ rs.filterMap Request.completion := by
  rw [sendAll, completions_append, completions_askAll]

theorem Sent.completions_eq {rs : List Request} {w' : World σ} (h : Sent e rs w w') :
    completions w'.trace = completions w.trace ++ rs.filterMap Request.completion := by
  rw [h.trace, completions_append, completions_askAll]

theorem Asks.completions_eq {w' : World σ} (h : Asks e Request.IsRead w w') :
    completions w'.trace = completions w.trace := by
  obtain ⟨rs, hr, -, ht⟩ := h.asked
  rw [ht, completions_append, completions_askAll, List.filterMap_eq_nil_iff.mpr, List.append_nil]
  intro r hmem
  have := hr r hmem
  cases r <;> first | rfl | cases this

theorem releaseRequests_completion (path : CStr) (u : SiaUpload) :
    (releaseRequests e path u).filterMap Request.completion =
      [completePayload e path u.uploadID (recordedParts u)] := by
  rw [releaseRequests]
  split <;> rfl

theorem uploadIDRequests_completion (path : CStr) (s : σ) :
    (uploadIDRequests e path s).filterMap Request.completion = [] := by
  rw [uploadIDRequests]
  split <;> rfl

theorem putRequests_completion (path : CStr) (id : Option CStr) (n : Nat) (body : Bytes) :
    (putRequests path id n body).filterMap Request.completion = [] := by
  cases id <;> rfl

theorem writeRequests_completion (path : CStr) (offset size : Nat) (body : Bytes) (s : σ) :
    (writeRequests e path offset size body s).filterMap Request.completion = [] := by
  rw [writeRequests, List.filterMap_append, uploadIDRequests_completion]
  split
  · rw [putRequests_completion]
    rfl
  · rfl

/-- A release that the test does not let through completes nothing. -/
theorem completions_release_refused (h : (releaseCheck e path w).1 ≠ .ok true) :
    completions (perform e (.release path) w).2.trace = completions w.trace := by
  have hcheck := keeps_releaseCheck (e := e) path w
  rw [perform, Exec.bind_pure_state, siafs_release]
  rcases Exec.bind_cases (releaseCheck e path)
    (fun passed => if passed then completeUpload e path else pure 0) w with
    ⟨x, w₁, hw₁, he⟩ | ⟨passed, w₁, hw₁, he⟩
  · rw [hw₁] at hcheck
    rw [he]
    exact hcheck.completions_eq
  · rw [hw₁] at hcheck h
    obtain rfl : passed = false := by
      cases passed with
      | false => rfl
      | true => exact absurd rfl h
    rw [he]
    exact hcheck.completions_eq

/-! ## The test -/

/-- What the L1 cache holds in `w'` it held in `w`, unless it does no harm. -/
def CacheGrows (w w' : World σ) : Prop :=
  ∀ key body, mc_lookup w' key = some body →
    mc_lookup w key = some body ∨ ∀ q, EntryFine q (some body)

theorem releaseCheck_of_is_file (h : sia_bus_objects_is_file e path w = (.ok true, w₁)) :
    releaseCheck e path w = (.ok true, w₁) := by
  rw [releaseCheck, Exec.bind_of_ok h]
  rfl

theorem releaseCheck_of_size {w₂ : World σ} {payload : Option Body}
    (h : sia_bus_objects_is_file e path w = (.ok false, w₁))
    (hobj : sia_bus_objects_json e path w₁ = (.ok payload, w₂)) :
    releaseCheck e path w = (.ok (replySize payload == 0), w₂) := by
  rw [releaseCheck, Exec.bind_of_ok h]
  exact Exec.bind_of_ok (object_size_of_json hobj)

theorem is_file_of_hit {body : Body} (h : mc_lookup w (listKey e path) = some body) :
    sia_bus_objects_is_file e path w =
      (scanObjects (testFile path) (listedObjects (some body)), w) := by
  rw [sia_bus_objects_is_file, sia_bus_objects_list_json, Exec.bind_of_ok (cachedRequest_hit h _),
    Exec.lift_apply]

theorem is_file_of_miss (h : mc_lookup w (listKey e path) = none) :
    sia_bus_objects_is_file e path w =
      (scanObjects (testFile path)
          (listedObjects (e.server w.server (.objects_list path)).1.body),
        fetched e (listKey e path) (.objects_list path) w) := by
  rw [sia_bus_objects_is_file, sia_bus_objects_list_json, Exec.bind_of_ok (cachedRequest_miss h _),
    Exec.lift_apply]

/-- A key other than the one fetched keeps its entry. -/
theorem mc_lookup_fetched_ne {key key' : CStr} {r : Request} (h : key' ≠ key) :
    mc_lookup (fetched e key r w) key' = mc_lookup w key' := by
  cases hL : w.L1 with
  | none => simp [mc_lookup, fetched, hL]
  | some cache => simp [mc_lookup, fetched, sendAll, hL, h]

namespace Backend

variable {view : σ → Bucket} {rejects : Nat → Prop} (hB : Backend e.server view rejects)

include hB

theorem fetched_list_grows (path : CStr) (w : World σ) :
    CacheGrows w (fetched e (listKey e path) (.objects_list path) w) := by
  intro key body h
  rcases mc_lookup_fetched h with ⟨-, hbody⟩ | h
  · exact Or.inr fun q => hbody ▸ hB.list_fine w.server path q
  · exact Or.inl h

/-- The test of `siafs_release` lets the path through. -/
theorem releaseCheck_passes (hC : CacheFine e (view w.server) w path) :
    ∃ w₁, releaseCheck e path w = (.ok true, w₁) ∧ Asks e Request.IsRead w w₁ ∧
      view w₁.server = view w.server ∧ CacheGrows w w₁ := by
  suffices h : ∃ w₁, releaseCheck e path w = (.ok true, w₁) ∧
      view w₁.server = view w.server ∧ CacheGrows w w₁ by
    obtain ⟨w₁, hrun, hview, hgrows⟩ := h
    have hkeeps := keeps_releaseCheck (e := e) path w
    rw [hrun] at hkeeps
    exact ⟨w₁, hrun, hkeeps, hview, hgrows⟩
  -- The listing, cached or not, leads to `w₁`; what is then known of the size.
  obtain ⟨is_file, w₁, hfile, hview, hgrows, hsize⟩ : ∃ is_file w₁,
      sia_bus_objects_is_file e path w = (.ok is_file, w₁) ∧
      view w₁.server = view w.server ∧ CacheGrows w w₁ ∧
      (is_file = false →
        (∀ body, mc_lookup w₁ (objectsKey e path) = some body → replySize (some body) = 0) ∧
          (mc_lookup w₁ (objectsKey e path) = none → (view w.server).Sizeless path)) := by
    cases hl : mc_lookup w (listKey e path) with
    | some body =>
      obtain ⟨x, hx⟩ := hC.scan body hl
      refine ⟨x, w, by rw [is_file_of_hit hl, hx], rfl, fun key body h => Or.inl h, ?_⟩
      rintro rfl
      exact hC.size (fun body' h => by rw [hl] at h; cases h; exact hx) fun h => by
        rw [hl] at h
        cases h
    | none =>
      obtain ⟨x, hx, hiff⟩ := hB.list_scan w.server path
      refine ⟨x, fetched e (listKey e path) (.objects_list path) w,
        by rw [is_file_of_miss hl, hx], hB.objects_list_view w.server path,
        hB.fetched_list_grows path w, ?_⟩
      rintro rfl
      have hnot : ¬ (view w.server).IsFile path := fun h => by cases hiff.mpr h
      refine ⟨fun body h => ?_, fun _ => Bucket.sizeless_of_not_isFile hnot⟩
      rcases hB.fetched_list_grows path w _ body h with h | h
      · exact (hC.size (fun body' h' => by rw [hl] at h'; cases h') fun _ => hnot).1 body h
      · exact (h path).size
  cases is_file with
  | true => exact ⟨w₁, releaseCheck_of_is_file hfile, hview, hgrows⟩
  | false =>
    cases ho : mc_lookup w₁ (objectsKey e path) with
    | some body =>
      refine ⟨w₁, ?_, hview, hgrows⟩
      rw [releaseCheck_of_size hfile (cachedRequest_hit ho _), (hsize rfl).1 body ho]
      rfl
    | none =>
      have hfine : ∀ q, EntryFine q (e.server w₁.server (.objects path)).1.body :=
        hB.objects_fine (by rw [hview]; exact (hsize rfl).2 ho)
      refine ⟨fetched e (objectsKey e path) (.objects path) w₁, ?_,
        (hB.objects_view w₁.server path).trans hview, fun key body h => ?_⟩
      · rw [releaseCheck_of_size hfile (cachedRequest_miss ho _), (hfine path).size]
        rfl
      · rcases mc_lookup_fetched h with ⟨-, hbody⟩ | h
        · exact Or.inr fun q => hbody ▸ hfine q
        · exact hgrows key body h

/-- It does so only then. -/
theorem cacheFine_of_passes (h : (releaseCheck e path w).1 = .ok true) :
    CacheFine e (view w.server) w path := by
  refine ⟨fun body hl => ?_, fun hlisted hfile => ?_⟩
  · cases hscan : scanObjects (testFile path) (listedObjects (some body)) with
    | ok x => exact ⟨x, rfl⟩
    | error x =>
      have hfault : sia_bus_objects_is_file e path w = (.error x, w) := by
        rw [is_file_of_hit hl, hscan]
      rw [releaseCheck, Exec.bind_of_error hfault] at h
      cases h
  cases hl : mc_lookup w (listKey e path) with
  | some body =>
    have hrun : sia_bus_objects_is_file e path w = (.ok false, w) := by
      rw [is_file_of_hit hl, hlisted body hl]
    refine ⟨fun payload ho => ?_, fun ho => ?_⟩
    · rw [releaseCheck_of_size hrun (cachedRequest_hit ho _)] at h
      simpa using h
    · by_contra hsize
      rw [releaseCheck_of_size hrun (cachedRequest_miss ho _)] at h
      exact hB.objects_sized hsize (by simpa using h)
  | none =>
    obtain ⟨x, hx, hiff⟩ := hB.list_scan w.server path
    obtain rfl : x = false := by simpa [hfile hl] using hiff
    have hrun := is_file_of_miss (e := e) hl
    rw [hx] at hrun
    refine ⟨fun payload ho => ?_, fun _ => Bucket.sizeless_of_not_isFile (hfile hl)⟩
    have hne : objectsKey e path ≠ listKey e path := fun heq => by
      rw [heq, hl] at ho
      cases ho
    rw [← mc_lookup_fetched_ne (e := e) (r := .objects_list path) hne] at ho
    rw [releaseCheck_of_size hrun (cachedRequest_hit ho _)] at h
    simpa using h

end Backend

end SiaFS
