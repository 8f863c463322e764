/-
The build without `SIA_HUGE_FILES`, and that both builds store the same file.

Every write sends a part of its own and records its ETag in the slot of the
block.  After `m` blocks in order the server holds the first `m` blocks as the
parts 1 to `m`, where the build with `SIA_HUGE_FILES` holds pieces of 1024
blocks; the pieces of either kind join to the file.
-/
import SiaFS.Upload.InOrder

namespace SiaFS

open Staging Pieces

variable {σ : Type} {e : Env σ} {view : σ → Bucket} {w : World σ} {path : CStr} {c buf : Bytes}
  {m : Nat} {u : SiaUpload} {part : Nat → Option (Bytes × CStr)}

/-! ## One write -/

theorem Backend.put_multipart_apply (hB : Backend e.server view fun _ => False) {id : CStr}
    (hp : (view w.server).pending id = some path) (buf : Bytes) (n : Nat) :
    ∃ tag, sia_worker_put_multipart e path (some id) buf n w =
        (.ok (some tag), sendAll e [.worker_put_multipart path id n buf] w) ∧
      view (sendAll e [.worker_put_multipart path id n buf] w).server =
        (view w.server).store id n (buf, tag) := by
  obtain ⟨-, etag, hetag, hne, hview⟩ := hB.put w.server path id n buf hp (fun h => h)
  refine ⟨stripQuotes etag, ?_, hview⟩
  have hurl : urlString (some id) = .ok id := rfl
  have hvalue : headerValue (e.server w.server (.worker_put_multipart path id n buf)).1.etag =
      .ok (stripQuotes etag) := by
    rw [hetag]
    cases etag with
    | nil => exact absurd rfl hne
    | cons b bs => rfl
  rw [sia_worker_put_multipart, Exec.lift_ok_bind hurl, Exec.bind_of_ok (send_apply e _ w),
    Exec.lift_ok_bind hvalue]
  rfl

theorem siafs_write_plain (hP : e.hugeFiles = false) {offset : Nat}
    (h : ¬ (offset = 0 ∧ buf.length < e.small)) :
    siafs_write e path buf offset = writePlain e path buf offset := by
  rw [siafs_write, if_neg h, if_neg (by rw [hP]; exact Bool.false_ne_true)]

/-- The first write links a new node, with the tag of part 1. -/
theorem writePlain_first (hB : Backend e.server view fun _ => False) (hf : Free e view w path)
    (buf : Bytes) :
    ∃ w' id tag rs, writePlain e path buf 0 w = (.ok buf.length, w') ∧
      w'.uploads = w.uploads.getLast?.toList ++ [(newUpload path id).setEtag firstSlot tag] ∧
      view w'.server = ((view w.server).create path id).store id 1 (buf, tag) ∧
      Sent e rs w w' ∧ rs.filterMap Request.completion = [] := by
  obtain ⟨id, hid, -, hview⟩ := hB.resolvedID_new hf.idle
  have hview : view (sendAll e (uploadIDRequests e path w.server) w).server =
    (view w.server).create path id := hview
  have hpend : (view (sendAll e (uploadIDRequests e path w.server) w).server).pending id =
      some path := by
    rw [hview]
    exact Function.update_self _ _ _
  obtain ⟨tag, hput, hview'⟩ := hB.put_multipart_apply hpend buf 1
  rw [hview] at hview'
  let w₂ : World σ := sendAll e [.worker_put_multipart path id 1 buf]
    (sendAll e (uploadIDRequests e path w.server) w)
  let nodes := append_upload w.uploads (newUpload path id)
  have hnode : uploadNode path (some id) 0 w₂ =
      (.ok (.ok (nodes.length - 1)), { w₂ with uploads := nodes }) := rfl
  have hrecord : recordEtag (nodes.length - 1) (0 / e.small) tag { w₂ with uploads := nodes } =
      (.ok (), { w₂ with
        uploads := nodes.modify (nodes.length - 1) (·.setEtag firstSlot tag) }) := by
    rw [Nat.zero_div]
    exact recordEtag_apply firstSlot.isLt tag
  refine ⟨{ w₂ with uploads := nodes.modify (nodes.length - 1) (·.setEtag firstSlot tag) }, id, tag,
    uploadIDRequests e path w.server ++ [.worker_put_multipart path id 1 buf],
    ?_, append_upload_modify_last w.uploads (newUpload path id) (·.setEtag firstSlot tag), hview',
    ?_, ?_⟩
  · rw [writePlain, Exec.bind_of_ok (sia_bus_get_uploadid_apply e path w), hid,
      show 0 / e.small + 1 = 1 by rw [Nat.zero_div], Exec.bind_of_ok hput]
    exact (Exec.bind_of_ok hnode).trans (Exec.bind_of_ok hrecord)
  · have h := sent_sendAll e
      (uploadIDRequests e path w.server ++ [.worker_put_multipart path id 1 buf]) w
    rw [sendAll_append] at h
    exact ⟨h.server, h.trace, h.L1, h.L2, h.now⟩
  · rw [List.filterMap_append, uploadIDRequests_completion]
    rfl

/-- A later write records the tag of its part in the node it finds. -/
theorem writePlain_later (hB : Backend e.server view fun _ => False)
    (h : Holds view w path u part) {offset : Nat} (h0 : offset ≠ 0)
    (hs : offset / e.small < SIA_MAX_PARTS) (buf : Bytes) :
    ∃ w' i tag rs, writePlain e path buf offset w = (.ok buf.length, w') ∧
      find_upload_by_path w.uploads path = .ok (some i) ∧
      w'.uploads = w.uploads.modify i (·.setEtag ⟨_, hs⟩ tag) ∧
      view w'.server = (view w.server).store u.uploadID (offset / e.small + 1) (buf, tag) ∧
      Sent e rs w w' ∧ rs.filterMap Request.completion = [] := by
  obtain ⟨hid, -, hview⟩ := hB.resolvedID_pending h.pending
  have hview : view (sendAll e (uploadIDRequests e path w.server) w).server = view w.server :=
    hview
  obtain ⟨i, hi, -, -⟩ := find_upload_by_path_ok h.found
  have hpend : (view (sendAll e (uploadIDRequests e path w.server) w).server).pending u.uploadID =
      some path := by
    rw [hview]
    exact (h.pending _).mpr rfl
  obtain ⟨tag, hput, hview'⟩ := hB.put_multipart_apply hpend buf (offset / e.small + 1)
  rw [hview] at hview'
  let w₂ : World σ := sendAll e [.worker_put_multipart path u.uploadID (offset / e.small + 1) buf]
    (sendAll e (uploadIDRequests e path w.server) w)
  have hi₂ : find_upload_by_path w₂.uploads path = .ok (some i) := hi
  refine ⟨{ w₂ with uploads := w.uploads.modify i (·.setEtag ⟨_, hs⟩ tag) }, i, tag,
    uploadIDRequests e path w.server ++
      [.worker_put_multipart path u.uploadID (offset / e.small + 1) buf],
    ?_, hi, rfl, hview', ?_, ?_⟩
  · rw [writePlain, Exec.bind_of_ok (sia_bus_get_uploadid_apply e path w), hid,
      Exec.bind_of_ok hput]
    exact (Exec.bind_of_ok (uploadNode_later h0 _ hi₂)).trans
      (Exec.bind_of_ok (recordEtag_apply hs tag))
  · have h := sent_sendAll e (uploadIDRequests e path w.server ++
      [.worker_put_multipart path u.uploadID (offset / e.small + 1) buf]) w
    rw [sendAll_append] at h
    exact ⟨h.server, h.trace, h.L1, h.L2, h.now⟩
  · rw [List.filterMap_append, uploadIDRequests_completion]
    rfl

/-! ## Runs of writes -/

/-- After the first `m` blocks of `c`, one part for each. -/
structure SentParts (e : Env σ) (view : σ → Bucket) (w : World σ) (path : CStr) (c : Bytes)
    (m : Nat) (w' : World σ) (u : SiaUpload) (part : Nat → Option (Bytes × CStr)) : Prop where
  holds : Holds view w' path u part
  body : ∀ s, (part s).map Prod.fst = if s < m then some (piece e.small c s) else none
  objects : (view w'.server).objects = (view w.server).objects
  L1 : w'.L1 = w.L1
  now : w'.now = w.now
  completions : completions w'.trace = completions w.trace

theorem body_update {n : Nat} {tag : CStr}
    (h : ∀ s, (part s).map Prod.fst = if s < m then some (piece n c s) else none) (s : Nat) :
    (Function.update part m (some (piece n c m, tag)) s).map Prod.fst =
      if s < m + 1 then some (piece n c s) else none := by
  by_cases hs : s = m
  · subst hs
    rw [Function.update_self, if_pos (Nat.lt_succ_self s)]
    rfl
  · rw [Function.update_of_ne hs, h s]
    by_cases hlt : s < m
    · rw [if_pos hlt, if_pos (by omega)]
    · rw [if_neg hlt, if_neg (by omega)]

theorem setEtag_etag (u : SiaUpload) (slot : Fin SIA_MAX_PARTS) (tag : CStr)
    (s : Fin SIA_MAX_PARTS) :
    ((u.setEtag slot tag).part s).etag = if s = slot then some tag else (u.part s).etag := by
  by_cases h : s = slot
  · subst h
    simp [SiaUpload.setEtag]
  · simp [SiaUpload.setEtag, h]

theorem SentParts.first (hB : Backend e.server view fun _ => False) (hP : e.hugeFiles = false)
    (hf : Free e view w path) (hc : e.small ≤ c.length) :
    ∃ w' u part, siafs_write e path (piece e.small c 0) (0 * e.small) w =
        (.ok (piece e.small c 0).length, w') ∧
      SentParts e view w path c 1 w' u part := by
  have hlen : (piece e.small c 0).length = e.small :=
    length_piece_of_le (by rw [Nat.zero_add, Nat.one_mul]; exact hc)
  obtain ⟨w', id, tag, rs, hrun, huploads, hview, hsent, hrs⟩ :=
    writePlain_first hB hf (piece e.small c 0)
  refine ⟨w', (newUpload path id).setEtag firstSlot tag,
    Function.update (fun _ => none) 0 (some (piece e.small c 0, tag)), ?_,
    ⟨?_, fun s => ?_, fun i => ?_, fun s => ?_⟩, body_update (fun s => by simp),
    by rw [hview]; rfl, hsent.L1, hsent.now, ?_⟩
  · rw [Nat.zero_mul, siafs_write_plain hP (by omega), hrun]
  · rw [huploads]
    exact nodeNamed_linked hf.last rfl
  · rw [setEtag_etag]
    by_cases hs : s = firstSlot
    · subst hs
      rw [if_pos rfl, show ((firstSlot : Fin SIA_MAX_PARTS) : Nat) = 0 from rfl,
        Function.update_self]
      rfl
    · have hne : (s : Nat) ≠ 0 := fun h0 => hs (Fin.ext h0)
      rw [if_neg hs, Function.update_of_ne hne]
      rfl
  · rw [hview]
    by_cases hi : i = id
    · subst hi
      simp [Bucket.create, Bucket.store, newUpload]
    · simp [Bucket.create, Bucket.store, newUpload, hi, hf.idle i]
  · rw [hview]
    by_cases hs : s = 0
    · subst hs
      simp [Bucket.create, Bucket.store, newUpload]
    · simp [Bucket.create, Bucket.store, newUpload, hs]
  · rw [hsent.completions_eq, hrs, List.append_nil]

theorem SentParts.next (hB : Backend e.server view fun _ => False) (hP : e.hugeFiles = false)
    (hm : 0 < m) (hmax : m < SIA_MAX_PARTS) {w' : World σ}
    (h : SentParts e view w path c m w' u part) :
    ∃ w'' u' part', siafs_write e path (piece e.small c m) (m * e.small) w' =
        (.ok (piece e.small c m).length, w'') ∧
      SentParts e view w path c (m + 1) w'' u' part' := by
  have hne : m * e.small ≠ 0 := Nat.mul_ne_zero (Nat.ne_of_gt hm) (Nat.ne_of_gt e.small_pos)
  have hdiv : m * e.small / e.small = m := Nat.mul_div_cancel m e.small_pos
  obtain ⟨w'', i, tag, rs, hrun, hi, huploads, hview, hsent, hrs⟩ :=
    writePlain_later hB h.holds hne (by rwa [hdiv]) (piece e.small c m)
  obtain ⟨j, hj, hu, hmod⟩ := find_upload_by_path_ok h.holds.found
  obtain rfl : i = j := by
    rw [hi] at hj
    cases hj
    rfl
  have hslot : ∀ hs, (⟨m * e.small / e.small, hs⟩ : Fin SIA_MAX_PARTS) = ⟨m, hmax⟩ :=
    fun hs => Fin.ext hdiv
  rw [hslot] at huploads
  rw [hdiv] at hview
  refine ⟨w'', u.setEtag ⟨m, hmax⟩ tag, Function.update part m (some (piece e.small c m, tag)), ?_,
    ⟨?_, fun s => ?_, fun i => ?_, fun s => ?_⟩, body_update h.body,
    by rw [hview]; exact h.objects, hsent.L1.trans h.L1, hsent.now.trans h.now, ?_⟩
  · rw [siafs_write_plain hP (fun hz => hne hz.1), hrun]
  · rw [huploads]
    exact hmod _ fun _ => rfl
  · rw [setEtag_etag]
    by_cases hs : s = ⟨m, hmax⟩
    · subst hs
      rw [if_pos rfl, Function.update_self]
      rfl
    · have hne : (s : Nat) ≠ m := fun h0 => hs (Fin.ext h0)
      rw [if_neg hs, Function.update_of_ne hne, h.holds.tag]
  · rw [hview]
    exact h.holds.pending i
  · rw [hview, SiaUpload.setEtag_uploadID]
    by_cases hs : s = m
    · subst hs
      simp [Bucket.store]
    · simp [Bucket.store, hs, h.holds.stored]
  · rw [hsent.completions_eq, hrs, List.append_nil, h.completions]

/-- The run of the first `m` blocks. -/
theorem sentParts_run (hB : Backend e.server view fun _ => False) (hP : e.hugeFiles = false)
    (hf : Free e view w path) (hc : e.small ≤ c.length) (hm : 0 < m) (hmax : m ≤ SIA_MAX_PARTS) :
    ∃ w' answers u part,
      Exec.runAll (perform e) (blockWrites e path c m) w = (.ok answers, w') ∧
      SentParts e view w path c m w' u part := by
  induction m, hm using Nat.le_induction with
  | base =>
    obtain ⟨w', u, part, hrun, hsent⟩ := SentParts.first hB hP hf hc
    exact ⟨w', _, u, part, Exec.runAll_cons_ok (perform_write hrun) (Exec.runAll_nil w'), hsent⟩
  | succ m hm ih =>
    obtain ⟨w', answers, u, part, hrun, hsent⟩ := ih (by omega)
    obtain ⟨w'', u', part', hwrite, hsent'⟩ := hsent.next hB hP hm hmax
    have hall := Exec.runAll_append_ok hrun
      (Exec.runAll_cons_ok (perform_write hwrite) (Exec.runAll_nil w''))
    rw [← blockWrites_succ] at hall
    exact ⟨w'', _, u', part', hall, hsent'⟩

/-! ## The two builds -/

/-- The first `k` numbers pass a test that the others fail. -/
theorem filter_range_eq {p : Nat → Bool} {k n : Nat} (hkn : k ≤ n)
    (h : ∀ s, p s = true ↔ s < k) : (List.range n).filter p = List.range k := by
  induction n, hkn using Nat.le_induction with
  | base => exact List.filter_eq_self.mpr fun s hs => (h s).mpr (List.mem_range.mp hs)
  | succ n hkn ih =>
    have hn : ¬ p n = true := fun hp => by
      have := (h n).mp hp
      omega
    rw [List.range_succ, List.filter_append, ih]
    simp [hn]

/-- Writing `c` in order and releasing it stores exactly `c`, from `k` parts. -/
def StoresInParts (e : Env σ) (view : σ → Bucket) (w : World σ) (path : CStr) (c : Bytes)
    (k : Nat) : Prop :=
  ∃ w' answers payload id listed,
    Exec.runAll (perform e) (uploadRun e path c) w = (.ok answers, w') ∧
    (view w'.server).objects path = some c ∧
    completions w'.trace = completions w.trace ++ [payload] ∧
    CompletesWith payload path id listed ∧ listed.map Prod.fst = (List.range k).map Nat.succ

theorem huge_stores (hB : Backend e.server view fun _ => False) (hR : e.host.Reliable)
    (hH : e.hugeFiles = true) (hr : Ready e view w path) (hc : e.small ≤ c.length)
    (hshort : ¬ e.small ∣ c.length) (hfit : c.length ≤ SIA_MAX_PARTS * e.partBytes) :
    StoresInParts e view w path c
      ((e.geometry.blocks c - 1) / SAIFS_WRITES_PER_MULTIPART + 1) := by
  have h0 : 0 < c.length := Nat.lt_of_lt_of_le e.small_pos hc
  have hlt := e.geometry.blocks_lt h0
  have hpos := e.geometry.blocks_pos h0
  have hslots : (e.geometry.blocks c - 1) / SAIFS_WRITES_PER_MULTIPART < SIA_MAX_PARTS :=
    block_slot_lt (Nat.lt_of_lt_of_le hlt hfit)
  obtain ⟨w', answers, u, st, hrun, hrel⟩ := released_run hB hR hH hr hc hpos hlt hfit
  refine ⟨w', answers, _, _, _, hrun, ?_, hrel.completions, completePayload_completes _ _ _, ?_⟩
  · rw [hrel.objects, Function.update_self,
      (hrel.inOrder.published_eq_iff (fun _ h => h) h0 hslots).mpr (Or.inl hshort)]
  · rw [recordedParts_numbers (fun s => (st s).tag) hrel.tag, filter_range_eq hslots fun s => ?_]
    rw [hrel.inOrder.tag_isSome_iff, Nat.lt_succ_iff, Nat.le_div_iff_mul_le (by decide)]
    constructor
    · exact fun h => Nat.le_pred_of_lt h.1
    · intro hs
      refine ⟨Nat.lt_of_le_of_lt hs (Nat.pred_lt (Nat.ne_of_gt hpos)), Or.inr ?_, fun h => h⟩
      have hle := e.geometry.length_le_blocks c
      refine Nat.lt_of_le_of_ne hle fun heq => hshort ⟨e.geometry.blocks c, ?_⟩
      rw [heq, Nat.mul_comm]
      rfl

theorem plain_stores (hB : Backend e.server view fun _ => False) (hP : e.hugeFiles = false)
    (hf : Free e view w path) (hc : e.small ≤ c.length)
    (hfit : c.length ≤ SIA_MAX_PARTS * e.small) :
    StoresInParts e view w path c (e.geometry.blocks c) := by
  have h0 : 0 < c.length := Nat.lt_of_lt_of_le e.small_pos hc
  have hpos := e.geometry.blocks_pos h0
  have hmax : e.geometry.blocks c ≤ SIA_MAX_PARTS := by
    have hlt : (e.geometry.blocks c - 1) * e.small < SIA_MAX_PARTS * e.small :=
      Nat.lt_of_lt_of_le (e.geometry.blocks_lt h0) hfit
    have := Nat.lt_of_mul_lt_mul_right hlt
    omega
  obtain ⟨w₀, answers, u, part, hrun, hS⟩ := sentParts_run hB hP hf hc hpos hmax
  obtain ⟨w₁, w', hrel, -, -, -, hcompl, hview⟩ :=
    hS.holds.release hB (hf.cache.congr hS.L1 hS.now hS.objects)
  have hall := Exec.runAll_append_ok hrun
    (Exec.runAll_cons_ok (perform_release hrel) (Exec.runAll_nil _))
  refine ⟨w', _, _, _, _, hall, ?_, by rw [hcompl, hS.completions],
    completePayload_completes _ _ _, ?_⟩
  · have hbodies : ∀ s ∈ List.range (e.geometry.blocks c),
        ((part s).map Prod.fst).getD [] = piece e.small c s := by
      intro s hs
      rw [hS.body, if_pos (List.mem_range.mp hs)]
      rfl
    rw [hview, Bucket.complete_objects, hS.holds.assemble, Function.update_self,
      flatMap_range_of_nil hmax, List.flatMap_congr hbodies, flatMap_piece]
    · exact congrArg some (List.take_of_length_le (e.geometry.length_le_blocks c))
    · intro s hs
      rw [hS.body, if_neg (by omega)]
      rfl
  · rw [recordedParts_numbers (fun s => (part s).map Prod.snd) hS.holds.tag, filter_range_eq hmax fun s => ?_]
    rw [Option.isSome_map, ← Option.isSome_map (f := Prod.fst), hS.body]
    by_cases hs : s < e.geometry.blocks c <;> simp [hs]

/-- A file of at least one full block and a shorter last one is stored as it was
written by both builds, in different numbers of parts. -/
theorem builds_store_same {τ : Type} {view' : τ → Bucket} {huge : Env σ} {plain : Env τ}
    {w' : World τ} (hH : huge.hugeFiles = true) (hP : plain.hugeFiles = false)
    (hfuse : plain.fuse = huge.fuse) (hR : huge.host.Reliable)
    (hB : Backend huge.server view fun _ => False)
    (hB' : Backend plain.server view' fun _ => False)
    (hr : Ready huge view w path) (hf : Free plain view' w' path)
    (hc : huge.small ≤ c.length) (hshort : ¬ huge.small ∣ c.length)
    (hfit : c.length ≤ SIA_MAX_PARTS * huge.small) :
    StoresInParts huge view w path c
        ((huge.geometry.blocks c - 1) / SAIFS_WRITES_PER_MULTIPART + 1) ∧
      StoresInParts plain view' w' path c (huge.geometry.blocks c) := by
  have hsmall : plain.small = huge.small := by
    rw [Env.small, Env.small, hfuse]
  have hblocks : plain.geometry.blocks c = huge.geometry.blocks c := by
    show (c.length + plain.small - 1) / plain.small = (c.length + huge.small - 1) / huge.small
    rw [hsmall]
  refine ⟨huge_stores hB hR hH hr hc hshort (Nat.le_trans hfit ?_), ?_⟩
  · exact Nat.mul_le_mul_left _ (Nat.le_mul_of_pos_right _ (by decide))
  · rw [← hblocks]
    exact plain_stores hB' hP hf (by rw [hsmall]; exact hc) (by rw [hsmall]; exact hfit)

/-- The same file through both builds, over servers of their own. -/
theorem builds_store_same_short :
    StoresInParts hugeMount Store.view (mounted Store.blank none) (lit "/f")
        (List.replicate 131073 0)
        ((hugeMount.geometry.blocks (List.replicate 131073 (0 : UInt8)) - 1) /
          SAIFS_WRITES_PER_MULTIPART + 1) ∧
      StoresInParts (mount .fuse3 false fun _ => false) Store.view (mounted Store.blank none)
        (lit "/f") (List.replicate 131073 0)
        (hugeMount.geometry.blocks (List.replicate 131073 (0 : UInt8))) :=
  builds_store_same rfl rfl rfl plainHost_reliable renterd_accepts renterd_accepts
    (mounted_ready _ _) (mounted_free _ _) (by rw [List.length_replicate]; decide)
    (by rw [List.length_replicate]; decide) (by rw [List.length_replicate]; decide)

end SiaFS
