/-
Uploading a file for which the server still has an upload pending.

A mount that was killed leaves its uploads pending on the server, with the parts that were
sent.  The next upload of the path goes on under the same ID.  It sends every part that it
lists, so what is left of the old one is never put into the file.
-/
import SiaFS.Upload.Whole

namespace SiaFS

open Staging Pieces

variable {σ : Type} {e : Env σ} {view : σ → Bucket} {w w' : World σ} {path : CStr}
  {u : SiaUpload} {part : Nat → Option (Bytes × CStr)} {c buf : Bytes} {m offset : Nat}
  {base : List (Request × Reply)} {st : Slots UInt8 CStr}

/-- The server has one upload at most pending for the path. -/
def Bucket.OneFor (b : Bucket) (path : CStr) : Prop :=
  ∀ i j, b.pending i = some path → b.pending j = some path → i = j

/-! ## Parts among older ones -/

/-- As `Holds`, but where the node has recorded no part the server may have an older one. -/
structure Covers (view : σ → Bucket) (w : World σ) (path : CStr) (u : SiaUpload)
    (part : Nat → Option (Bytes × CStr)) : Prop where
  found : nodeNamed w.uploads path = some u
  tag : ∀ s : Fin SIA_MAX_PARTS, (u.part s).etag = (part s).map Prod.snd
  pending : ∀ id, (view w.server).pending id = some path ↔ id = u.uploadID
  stored : ∀ s p, part s = some p → (view w.server).parts u.uploadID (s + 1) = some p

theorem Covers.has (h : Covers view w path u part) :
    (view w.server).Has u.uploadID (recordedParts u) := by
  intro x hx
  obtain ⟨i, hi, hetag⟩ := mem_recordedParts.mp hx
  rw [h.tag i] at hetag
  obtain ⟨⟨body, tag⟩, hpart, rfl⟩ := Option.map_eq_some_iff.mp hetag
  exact ⟨body, by rw [hi, h.stored i _ hpart]⟩

theorem Covers.assemble (h : Covers view w path u part) :
    (view w.server).assemble u.uploadID (recordedParts u) =
      (List.range SIA_MAX_PARTS).flatMap fun s => ((part s).map Prod.fst).getD [] := by
  rw [Bucket.assemble, List.mergeSort_of_pairwise (by simpa using recordedParts_sorted u),
    ← List.map_coe_finRange_eq_range, List.flatMap_map, recordedParts]
  refine flatMap_filterMap_eq fun i _ => ?_
  rw [h.tag i]
  cases hpart : part i with
  | none => rfl
  | some x =>
    show (((view w.server).parts u.uploadID (i + 1)).map Prod.fst).getD [] = x.1
    rw [h.stored i x hpart]
    rfl

/-- A release makes the file of the recorded parts alone. -/
theorem Covers.release (hB : Backend e.server view fun _ => False)
    (h : Covers view w path u part) (hC : CacheFine e (view w.server) w path) :
    ∃ w', siafs_release e path w = (.ok 0, w') ∧
      view w'.server = (view w.server).complete path u.uploadID (recordedParts u) := by
  obtain ⟨w₁, hcheck, hasks, hview, -⟩ := hB.releaseCheck_passes hC
  have hu : nodeNamed w₁.uploads path = some u := by
    rw [hasks.uploads]
    exact h.found
  refine ⟨_, siafs_release_passed hcheck hu, ?_⟩
  have hcomplete : ∀ s, view s = view w₁.server →
      view (e.server s (.multipart_complete
        (completePayload e path u.uploadID (recordedParts u)))).2 =
          (view w.server).complete path u.uploadID (recordedParts u) := by
    intro s hs
    rw [hview] at hs
    rw [hB.complete s _ path u.uploadID _ (completePayload_completes _ _ _)
      (by rw [hs]; exact (h.pending _).mpr rfl) (by rw [hs]; exact h.has), hs]
  rw [releaseRequests]
  split
  · exact hcomplete _ (hB.listparts_view _ _ _)
  · exact hcomplete _ rfl

/-! ## The writes -/

/-- An upload in progress that may go on an older one. -/
structure Resumed (e : Env σ) (view : σ → Bucket) (base : List (Request × Reply)) (w : World σ)
    (path : CStr) (u : SiaUpload) (st : Slots UInt8 CStr) : Prop where
  stages : Stages base w path u st
  named : Named e w
  covers : Covers view w path u fun s => (st s).part

/-- The write gets the ID of the upload that is pending, or that of a new one. -/
theorem Backend.resolved_one (hB : Backend e.server view fun _ => False)
    (hone : (view w.server).OneFor path) : ∃ id, resolvedID e path w.server = some id ∧
      (∀ i, (view (askAll e (uploadIDRequests e path w.server) w.server).1).pending i =
        some path ↔ i = id) ∧
      (view (askAll e (uploadIDRequests e path w.server) w.server).1).objects =
        (view w.server).objects := by
  by_cases hidle : ∃ id, (view w.server).pending id = some path
  · obtain ⟨id, hid⟩ := hidle
    have hiff : ∀ i, (view w.server).pending i = some path ↔ i = id :=
      fun i => ⟨fun hi => hone i id hi hid, fun hi => hi ▸ hid⟩
    obtain ⟨hres, -, hview⟩ := hB.resolvedID_pending hiff
    exact ⟨id, hres, by rw [hview]; exact hiff, by rw [hview]⟩
  · have hnone : ∀ i, (view w.server).pending i ≠ some path := fun i hi => hidle ⟨i, hi⟩
    obtain ⟨id, hres, -, hview⟩ := hB.resolvedID_new hnone
    refine ⟨id, hres, fun i => ?_, by rw [hview]; rfl⟩
    rw [hview]
    by_cases hi : i = id
    · simp [hi, Bucket.create]
    · simp [hi, Bucket.create, hnone i]

theorem Resumed.start (hB : Backend e.server view fun _ => False) (hR : e.host.Reliable)
    (hN : Named e w) (hlast : ∀ last, w.uploads.getLast? = some last → last.name ≠ path)
    (hone : (view w.server).OneFor path) (buf : Bytes) :
    ∃ w' u, writeHuge e path buf 0 w = (.ok buf.length, w') ∧
      Resumed e view w.trace w' path u (firstSlots buf) ∧
      (view w'.server).objects = (view w.server).objects ∧ w'.L1 = w.L1 ∧ w'.now = w.now := by
  obtain ⟨id, hid, hpending, hobjects⟩ := hB.resolved_one hone
  obtain ⟨w', fn, hrun, hstart⟩ := writeHuge_started hR hN hid buf
  rw [← show w'.server = _ from hstart.sent.server] at hpending hobjects
  have hstages := hstart.stages_self hlast
  refine ⟨w', _, hrun, ⟨hstages, hstart.named, hstages.found, hstages.tag, hpending,
    fun s p hp => ?_⟩, hobjects, hstart.sent.L1, hstart.sent.now⟩
  rw [firstSlots_part] at hp
  cases hp

/-- A write past the start of the file. -/
theorem Resumed.write (hB : Backend e.server view fun _ => False) (hR : e.host.Reliable)
    (h : Resumed e view base w path u st) (h0 : offset ≠ 0)
    (hs : offset / e.partBytes < SIA_MAX_PARTS) {b : Bytes}
    (hb : e.geometry.found st offset = some b) (buf : Bytes) :
    ∃ w' u' ans, writeHuge e path buf offset w = (.ok buf.length, w') ∧
      (e.geometry.pushes offset buf.length → ans ≠ none) ∧
      (view w'.server).objects = (view w.server).objects ∧ w'.L1 = w.L1 ∧ w'.now = w.now ∧
      Resumed e view base w' path u' (Function.update st (offset / e.partBytes)
        (e.geometry.settle (st (offset / e.partBytes)) offset buf.length (b ++ buf) ans)) := by
  obtain ⟨ans, hans, hrej, hview⟩ :=
    hB.write_answer h.covers.pending offset buf.length (b ++ buf)
  have hans' : e.geometry.pushes offset buf.length → ans ≠ none :=
    fun hp hnone => (hrej hp).mp hnone
  obtain ⟨w', u', hrun, hwrote, hid, hst⟩ := writeHuge_step hR h.named h.stages h0 hs hb hans
  rw [← hwrote.sent.server] at hview
  have honly : PartsOnly u.uploadID (view w.server) (view w'.server) := by
    rw [hview]
    split
    · cases ans with
      | none => exact PartsOnly.refl _ _
      | some tag => exact partsOnly_store _ _ _ _
    · exact PartsOnly.refl _ _
  refine ⟨w', u', ans, ?_, hans', honly.objects, hwrote.sent.L1, hwrote.sent.now,
    hst, hwrote.named, hst.found, hst.tag, fun id => ?_, fun s p hp => ?_⟩
  · rw [hrun, writeStatus, if_neg fun hz => hans' hz.1 hz.2]
  · rw [honly.pending, hid]
    exact h.covers.pending id
  · rw [hid, hview]
    by_cases hslot : s = offset / e.partBytes
    · subst hslot
      rw [Function.update_self] at hp
      by_cases hpush : e.geometry.pushes offset buf.length
      · obtain ⟨tag, rfl⟩ := Option.ne_none_iff_exists'.mp (hans' hpush)
        rw [e.geometry.settle_of_pushes hpush, Slot.push_part_some] at hp
        cases hp
        simp [hpush, Bucket.store]
      · rw [e.geometry.settle_of_not_pushes hpush] at hp
        rw [if_neg hpush]
        exact h.covers.stored _ p hp
    · rw [Function.update_of_ne hslot] at hp
      have hold := h.covers.stored s p hp
      split
      · cases ans with
        | none => exact hold
        | some tag => simpa [Bucket.store, hslot] using hold
      · exact hold

/-! ## A whole file -/

/-- After the first `m` blocks of `c`. -/
structure Reupload (e : Env σ) (view : σ → Bucket) (w : World σ) (path : CStr) (c : Bytes)
    (m : Nat) (w' : World σ) (u : SiaUpload) (st : Slots UInt8 CStr) : Prop where
  resumed : Resumed e view w.trace w' path u st
  inOrder : InOrder e.geometry c (fun _ => False) m st
  objects : (view w'.server).objects = (view w.server).objects
  L1 : w'.L1 = w.L1
  now : w'.now = w.now

/-- As `Ready`, but an upload may be pending for the path. -/
structure Restarted (e : Env σ) (view : σ → Bucket) (w : World σ) (path : CStr) : Prop where
  last : ∀ last, w.uploads.getLast? = some last → last.name ≠ path
  one : (view w.server).OneFor path
  cache : CacheFine e (view w.server) w path
  named : Named e w

section Blocks

variable (hB : Backend e.server view fun _ => False) (hR : e.host.Reliable)
  (hH : e.hugeFiles = true) (hc : e.small ≤ c.length)

include hB hR hH hc

theorem Reupload.first (hr : Restarted e view w path) :
    ∃ w' u st, siafs_write e path (piece e.small c 0) (0 * e.small) w =
        (.ok (piece e.small c 0).length, w') ∧ Reupload e view w path c 1 w' u st := by
  have hlen : (piece e.small c 0).length = e.small :=
    length_piece_of_le (by rw [Nat.zero_add, Nat.one_mul]; exact hc)
  obtain ⟨w', u, hrun, hS, hobjects, hL1, hnow⟩ :=
    Resumed.start hB hR hr.named hr.last hr.one (piece e.small c 0)
  refine ⟨w', u, _, ?_, hS, inOrder_first hc, hobjects, hL1, hnow⟩
  rw [Nat.zero_mul, siafs_write_huge hH (by omega), hrun]

theorem Reupload.next (h : Reupload e view w path c m w' u st) (hm : 0 < m)
    (hlt : m * e.small < c.length) (hslots : m / SAIFS_WRITES_PER_MULTIPART < SIA_MAX_PARTS) :
    ∃ w'' u' st', siafs_write e path (piece e.small c m) (m * e.small) w' =
        (.ok (piece e.small c m).length, w'') ∧ Reupload e view w path c (m + 1) w'' u' st' := by
  have hne : m * e.small ≠ 0 := Nat.mul_ne_zero (Nat.ne_of_gt hm) (Nat.ne_of_gt e.small_pos)
  have hdiv : m * e.small / e.partBytes = m / SAIFS_WRITES_PER_MULTIPART :=
    e.geometry.block_div m
  obtain ⟨w'', u', ans, hrun, hans, hobjects, hL1, hnow, hS⟩ :=
    h.resumed.write hB hR hne (by rwa [hdiv]) (h.inOrder.found_eq hlt) (piece e.small c m)
  obtain ⟨st', hst', hin⟩ := h.inOrder.step hlt hc hslots ans fun hp =>
    ⟨fun hnone => hans hp hnone, False.elim⟩
  have hs : m * e.small / e.geometry.partSize < e.geometry.slots := by
    show m * e.small / e.partBytes < SIA_MAX_PARTS
    rwa [hdiv]
  rw [show m * e.geometry.block = m * e.small from rfl,
    e.geometry.write_eq_some hs (h.inOrder.found_eq hlt)] at hst'
  cases hst'
  refine ⟨w'', u', _, ?_, hS, hin, hobjects.trans h.objects, hL1.trans h.L1, hnow.trans h.now⟩
  rw [siafs_write_huge hH fun hz => hne hz.1, hrun]

theorem Reupload.run (hr : Restarted e view w path) (hm : 0 < m)
    (hlt : (m - 1) * e.small < c.length)
    (hslots : (m - 1) / SAIFS_WRITES_PER_MULTIPART < SIA_MAX_PARTS) :
    ∃ w' u st, Exec.runAll (perform e) (blockWrites e path c m) w =
        (.ok (blockAnswers e c m), w') ∧ Reupload e view w path c m w' u st := by
  induction m, hm using Nat.le_induction with
  | base =>
    obtain ⟨w', u, st, hrun, hU⟩ := Reupload.first hB hR hH hc hr
    exact ⟨w', u, st, Exec.runAll_cons_ok (perform_write hrun) (Exec.runAll_nil w'), hU⟩
  | succ m hm ih =>
    rw [Nat.add_sub_cancel] at hlt hslots
    have hprev : (m - 1) * e.small ≤ m * e.small := Nat.mul_le_mul_right _ (Nat.sub_le m 1)
    have hslot : (m - 1) / SAIFS_WRITES_PER_MULTIPART ≤ m / SAIFS_WRITES_PER_MULTIPART :=
      Nat.div_le_div_right (Nat.sub_le m 1)
    obtain ⟨w', u, st, hrun, hU⟩ := ih (by omega) (by omega)
    obtain ⟨w'', u', st', hwrite, hU'⟩ := hU.next hB hR hH hc hm hlt hslots
    refine ⟨w'', u', st', ?_, hU'⟩
    rw [blockWrites_succ, blockAnswers_succ]
    exact Exec.runAll_append_ok hrun
      (Exec.runAll_cons_ok (perform_write hwrite) (Exec.runAll_nil w''))

/-- The upload stores the file, whatever was pending, and nothing stays pending. -/
theorem reupload_stores (hr : Restarted e view w path)
    (hfit : c.length ≤ SIA_MAX_PARTS * e.partBytes) :
    ∃ w', Exec.runAll (perform e) (uploadRun e path c) w = (.ok (uploadAnswers e c), w') ∧
      (view w'.server).objects =
        Function.update (view w.server).objects path (some (storedAs e c)) ∧
      ∀ id, (view w'.server).pending id ≠ some path := by
  have h0 : 0 < c.length := Nat.lt_of_lt_of_le e.small_pos hc
  have hlt := e.geometry.blocks_lt h0
  have hslots : (e.geometry.blocks c - 1) / SAIFS_WRITES_PER_MULTIPART < SIA_MAX_PARTS :=
    block_slot_lt (Nat.lt_of_lt_of_le hlt hfit)
  obtain ⟨w₀, u, st, hrun, hU⟩ :=
    Reupload.run hB hR hH hc hr (e.geometry.blocks_pos h0) hlt hslots
  obtain ⟨w', hrel, hview⟩ :=
    hU.resumed.covers.release hB (hr.cache.congr hU.L1 hU.now hU.objects)
  have hpublished : e.geometry.published st = storedAs e c := by
    rw [hU.inOrder.published_eq (fun _ h => h) h0 hslots]
    rfl
  refine ⟨w', Exec.runAll_append_ok hrun (Exec.runAll_cons_ok (perform_release hrel)
    (Exec.runAll_nil _)), ?_, fun id hid => ?_⟩
  · rw [hview, ← hU.objects, ← hpublished, Bucket.complete_objects, hU.resumed.covers.assemble]
    rfl
  · rw [hview, Bucket.complete_pending] at hid
    by_cases hu : id = u.uploadID
    · rw [hu, Function.update_self] at hid
      cases hid
    · rw [Function.update_of_ne hu] at hid
      exact hu ((hU.resumed.covers.pending id).mp hid)

end Blocks

end SiaFS
