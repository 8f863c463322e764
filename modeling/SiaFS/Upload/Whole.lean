/-
A file uploaded in order, as one step.

The blocks of the file are written one after the other and the file is released.  Every
call answers what it should, one object changes, and of the upload a node stays in the
list and nothing on the server.
-/
import SiaFS.Upload.InOrder

namespace SiaFS

open Staging Pieces

variable {σ : Type} {e : Env σ} {view : σ → Bucket} {w : World σ} {path : CStr} {c : Bytes}
  {m : Nat}

/-- What a file written in order is stored as, when no part of it is refused. -/
def storedAs (e : Env σ) (c : Bytes) : Bytes :=
  if ¬ e.small ∣ c.length ∨ e.partBytes ∣ c.length then c
  else c.take ((e.geometry.blocks c - 1) / SAIFS_WRITES_PER_MULTIPART * e.partBytes)

/-- Every block is taken, in full. -/
def blockAnswers (e : Env σ) (c : Bytes) (m : Nat) : List Answer :=
  (List.range m).map fun i => .status (piece e.small c i).length

def uploadAnswers (e : Env σ) (c : Bytes) : List Answer :=
  blockAnswers e c (e.geometry.blocks c) ++ [.status 0]

theorem blockAnswers_succ (e : Env σ) (c : Bytes) (m : Nat) :
    blockAnswers e c (m + 1) = blockAnswers e c m ++ [.status (piece e.small c m).length] := by
  simp [blockAnswers, List.range_succ]

/-- The name of the node that stays in the list. -/
def lastName (w : World σ) : Option CStr := w.uploads.getLast?.map SiaUpload.name

/-- After the first `m` blocks of `c`: the upload is the one that was begun for it, and its
node is the last. -/
structure Ongoing (e : Env σ) (view : σ → Bucket) (w : World σ) (path : CStr) (c : Bytes) (m : Nat)
    (w' : World σ) (u : SiaUpload) (st : Slots UInt8 CStr) : Prop
    extends Uploaded e view (fun _ => False) w path c m w' u st where
  begun : (view w'.server).pending =
    Function.update (view w.server).pending u.uploadID (some path)
  last : lastName w' = some path

section Blocks

variable (hB : Backend e.server view fun _ => False) (hR : e.host.Reliable)
  (hH : e.hugeFiles = true) (hc : e.small ≤ c.length)

include hB hR hH hc

theorem Ongoing.first (hr : Ready e view w path) :
    ∃ w' u st, siafs_write e path (piece e.small c 0) (0 * e.small) w =
        (.ok (piece e.small c 0).length, w') ∧ Ongoing e view w path c 1 w' u st := by
  have hlen : (piece e.small c 0).length = e.small :=
    length_piece_of_le (by rw [Nat.zero_add, Nat.one_mul]; exact hc)
  obtain ⟨w', u, fn, hrun, hstart, hfresh, hview, hS⟩ :=
    Session.start hB hR hr.named hr.last hr.idle (piece e.small c 0)
  refine ⟨w', u, _, ?_, ⟨hS, inOrder_first hc, hfresh, by rw [hview]; rfl, hstart.sent.L1,
    hstart.sent.now, ?_⟩, by rw [hview]; rfl, ?_⟩
  · rw [Nat.zero_mul, siafs_write_huge hH (by omega), hrun]
  · rw [hstart.sent.completions_eq, uploadIDRequests_completion, List.append_nil]
  · rw [lastName, hstart.uploads, List.getLast?_append_of_ne_nil _ (List.cons_ne_nil _ _)]
    exact congrArg some (nodeNamed_name hS.stages.found)

theorem Ongoing.next {w' : World σ} {u : SiaUpload} {st : Slots UInt8 CStr}
    (h : Ongoing e view w path c m w' u st) (hm : 0 < m) (hlt : m * e.small < c.length)
    (hslots : m / SAIFS_WRITES_PER_MULTIPART < SIA_MAX_PARTS) :
    ∃ w'' u' st', siafs_write e path (piece e.small c m) (m * e.small) w' =
        (.ok (piece e.small c m).length, w'') ∧ Ongoing e view w path c (m + 1) w'' u' st' := by
  obtain ⟨w'', u', st', ans, body, hrun, hrej, hwrote, hid, honly, hS, hin⟩ :=
    h.session.block hB hR hH h.inOrder hc hm hlt hslots
  -- no push is refused, so the status is the length of the block
  have hstatus : writeStatus e (m * e.small) (piece e.small c m).length ans =
      (piece e.small c m).length := by
    rw [writeStatus]
    split
    · rename_i hfailed
      exact ((hrej hfailed.1).mp hfailed.2).elim
    · rfl
  rw [hstatus] at hrun
  refine ⟨w'', u', st', hrun, ⟨hS, hin, by rw [hid]; exact h.fresh,
    honly.objects.trans h.objects, hwrote.sent.L1.trans h.L1, hwrote.sent.now.trans h.now, ?_⟩,
    by rw [honly.pending, hid]; exact h.begun, ?_⟩
  · rw [hwrote.sent.completions_eq, writeRequests_completion, List.append_nil, h.completions]
  · rw [← h.last, lastName, lastName, ← List.getLast?_map, ← List.getLast?_map, hwrote.names]

theorem Ongoing.run (hr : Ready e view w path) (hm : 0 < m) (hlt : (m - 1) * e.small < c.length)
    (hslots : (m - 1) / SAIFS_WRITES_PER_MULTIPART < SIA_MAX_PARTS) :
    ∃ w' u st, Exec.runAll (perform e) (blockWrites e path c m) w =
        (.ok (blockAnswers e c m), w') ∧ Ongoing e view w path c m w' u st := by
  induction m, hm using Nat.le_induction with
  | base =>
    obtain ⟨w', u, st, hrun, hU⟩ := Ongoing.first hB hR hH hc hr
    exact ⟨w', u, st, Exec.runAll_cons_ok (perform_write hrun) (Exec.runAll_nil w'), hU⟩
  | succ m hm ih =>
    rw [Nat.add_sub_cancel] at hlt hslots
    have hprev : (m - 1) * e.small ≤ m * e.small := Nat.mul_le_mul_right _ (Nat.sub_le m 1)
    have hslot : (m - 1) / SAIFS_WRITES_PER_MULTIPART ≤ m / SAIFS_WRITES_PER_MULTIPART :=
      Nat.div_le_div_right (Nat.sub_le m 1)
    obtain ⟨w', u, st, hrun, hU⟩ := ih (by omega) (by omega)
    obtain ⟨w'', u', st', hwrite, hU'⟩ := hU.next hB hR hH hc hm hlt hslots
    refine ⟨w'', u', st', ?_, hU'⟩
    rw [blockWrites_succ, blockAnswers_succ]
    exact Exec.runAll_append_ok hrun
      (Exec.runAll_cons_ok (perform_write hwrite) (Exec.runAll_nil w''))

end Blocks

/-- What an upload of the whole of `c` leaves behind. -/
structure Left (e : Env σ) (view : σ → Bucket) (w : World σ) (path : CStr) (c : Bytes)
    (w' : World σ) : Prop where
  objects : (view w'.server).objects =
    Function.update (view w.server).objects path (some (storedAs e c))
  pending : (view w'.server).pending = (view w.server).pending
  named : Named e w'
  last : lastName w' = some path

theorem uploadRun_leaves (hB : Backend e.server view fun _ => False) (hR : e.host.Reliable)
    (hH : e.hugeFiles = true) (hr : Ready e view w path) (hc : e.small ≤ c.length)
    (hfit : c.length ≤ SIA_MAX_PARTS * e.partBytes) :
    ∃ w', Exec.runAll (perform e) (uploadRun e path c) w = (.ok (uploadAnswers e c), w') ∧
      Left e view w path c w' := by
  have h0 : 0 < c.length := Nat.lt_of_lt_of_le e.small_pos hc
  have hlt := e.geometry.blocks_lt h0
  have hslots : (e.geometry.blocks c - 1) / SAIFS_WRITES_PER_MULTIPART < SIA_MAX_PARTS :=
    block_slot_lt (Nat.lt_of_lt_of_le hlt hfit)
  obtain ⟨w₀, u, st, hrun, hU⟩ :=
    Ongoing.run hB hR hH hc hr (e.geometry.blocks_pos h0) hlt hslots
  obtain ⟨w₁, w', hrel, hasks, rfl, -, -, hview⟩ :=
    hU.session.holds.release hB (hr.cache.congr hU.L1 hU.now hU.objects)
  have hpublished : e.geometry.published st = storedAs e c := by
    rw [hU.inOrder.published_eq (fun _ h => h) h0 hslots]
    rfl
  refine ⟨_, Exec.runAll_append_ok hrun (Exec.runAll_cons_ok (perform_release hrel)
    (Exec.runAll_nil _)), ?_, ?_, ?_, ?_⟩
  · rw [hview, ← hU.objects, ← hpublished, Bucket.complete_objects, hU.session.holds.assemble]
    rfl
  · -- the upload that ends is the one that was begun
    have hnone : (view w.server).pending u.uploadID = none := by
      rw [Option.eq_none_iff_forall_ne_some]
      exact fun p hp => hU.fresh ((view w.server).pending_issued _ p hp)
    rw [hview, Bucket.complete_pending, hU.begun, Function.update_idem, ← hnone,
      Function.update_eq_self]
  · exact hU.session.named.congr (fun i s => by rw [sendAll_uploads, hasks.uploads])
      hasks.names hasks.tmp
  · rw [← hU.last, lastName, lastName, sendAll_uploads, hasks.uploads]

end SiaFS
