/-
Random access in the build without `SIA_HUGE_FILES`.

A write sends its buffer as the part of the block it starts in, in the place of what was
sent for the block before.  So the writes of an upload may come in any order and again and
again: a release stores the last buffer of every block.  When each write is of a block from
its start, that is what a reader of the writes expects, and a read finds it.
-/
import SiaFS.Refinement
import SiaFS.Upload.AnyOrder
import SiaFS.Upload.Plain

namespace SiaFS

open Extents JsonText Pieces

variable {σ : Type} {e : Env σ} {server : σ → Request → Reply × σ} {view : σ → Bucket}
  {w w' : World σ} {path : CStr} {x : Extent UInt8} {ws : List (Extent UInt8)} {u : SiaUpload}
  {part : Nat → Option (Bytes × CStr)}

/-! ## Runs of writes -/

/-- After the writes `ws`: one part for each block that was written, the last buffer of it. -/
structure Scattered (e : Env σ) (view : σ → Bucket) (w : World σ) (path : CStr)
    (ws : List (Extent UInt8)) (w' : World σ) (u : SiaUpload)
    (part : Nat → Option (Bytes × CStr)) : Prop where
  holds : Holds view w' path u part
  body : ∀ s, (part s).map Prod.fst = lastIn e.small ws s
  objects : (view w'.server).objects = (view w.server).objects
  L1 : w'.L1 = w.L1
  now : w'.now = w.now
  completions : completions w'.trace = completions w.trace

theorem lastIn_update {n : Nat} {tag : CStr} (ws : List (Extent UInt8))
    (h : ∀ s, (part s).map Prod.fst = lastIn n ws s) (s : Nat) :
    (Function.update part (x.offset / n) (some (x.data, tag)) s).map Prod.fst =
      lastIn n (ws ++ [x]) s := by
  rw [lastIn_concat]
  by_cases hs : s = x.offset / n
  · subst hs
    rw [Function.update_self, if_pos rfl]
    rfl
  · rw [Function.update_of_ne hs, if_neg (Ne.symm hs), h s]

theorem Scattered.first (hB : Backend e.server view fun _ => False) (hP : e.hugeFiles = false)
    (hf : Free e view w path) (h0 : x.offset = 0) (hsmall : e.small ≤ x.data.length) :
    ∃ w' u part, perform e (.write path x.data x.offset) w = (.ok (.status x.data.length), w') ∧
      Scattered e view w path [x] w' u part := by
  obtain ⟨w', id, tag, rs, hrun, huploads, hview, hsent, hrs⟩ := writePlain_first hB hf x.data
  have hslot : x.offset / e.small = 0 := by rw [h0, Nat.zero_div]
  refine ⟨w', (newUpload path id).setEtag firstSlot tag,
    Function.update (fun _ => none) (x.offset / e.small) (some (x.data, tag)), ?_,
    ⟨?_, fun s => ?_, fun i => ?_, fun s => ?_⟩, lastIn_update [] (fun _ => rfl),
    by rw [hview]; rfl, hsent.L1, hsent.now, ?_⟩
  · apply perform_write
    rw [h0, siafs_write_plain hP (by omega), hrun]
  · rw [huploads]
    exact nodeNamed_linked hf.last rfl
  · rw [setEtag_etag, hslot]
    by_cases hs : s = firstSlot
    · subst hs
      rw [if_pos rfl, show ((firstSlot : Fin SIA_MAX_PARTS) : Nat) = 0 from rfl,
        Function.update_self]
      rfl
    · have hne : (s : Nat) ≠ 0 := fun hz => hs (Fin.ext hz)
      rw [if_neg hs, Function.update_of_ne hne]
      rfl
  · rw [hview]
    by_cases hi : i = id
    · subst hi
      simp [Bucket.create, Bucket.store, newUpload]
    · simp [Bucket.create, Bucket.store, newUpload, hi, hf.idle i]
  · rw [hview, hslot]
    by_cases hs : s = 0
    · subst hs
      simp [Bucket.create, Bucket.store, newUpload]
    · simp [Bucket.create, Bucket.store, newUpload, hs]
  · rw [hsent.completions_eq, hrs, List.append_nil]

theorem Scattered.next (hB : Backend e.server view fun _ => False) (hP : e.hugeFiles = false)
    (h : Scattered e view w path ws w' u part) (h0 : x.offset ≠ 0)
    (hs : x.offset / e.small < SIA_MAX_PARTS) :
    ∃ w'' u' part', perform e (.write path x.data x.offset) w' =
        (.ok (.status x.data.length), w'') ∧
      Scattered e view w path (ws ++ [x]) w'' u' part' := by
  obtain ⟨w'', i, tag, rs, hrun, hi, huploads, hview, hsent, hrs⟩ :=
    writePlain_later hB h.holds h0 hs x.data
  obtain ⟨j, hj, -, hmod⟩ := find_upload_by_path_ok h.holds.found
  obtain rfl : i = j := by
    rw [hi] at hj
    cases hj
    rfl
  refine ⟨w'', u.setEtag ⟨_, hs⟩ tag,
    Function.update part (x.offset / e.small) (some (x.data, tag)), ?_,
    ⟨?_, fun s => ?_, fun i => ?_, fun s => ?_⟩, lastIn_update ws h.body,
    by rw [hview]; exact h.objects, hsent.L1.trans h.L1, hsent.now.trans h.now, ?_⟩
  · apply perform_write
    rw [siafs_write_plain hP (fun hz => h0 hz.1), hrun]
  · rw [huploads]
    exact hmod _ fun _ => rfl
  · rw [setEtag_etag]
    by_cases hslot : s = ⟨x.offset / e.small, hs⟩
    · subst hslot
      rw [if_pos rfl, Function.update_self]
      rfl
    · have hne : (s : Nat) ≠ x.offset / e.small := fun hz => hslot (Fin.ext hz)
      rw [if_neg hslot, Function.update_of_ne hne, h.holds.tag]
  · rw [hview]
    exact h.holds.pending i
  · rw [hview, SiaUpload.setEtag_uploadID]
    by_cases hslot : s = x.offset / e.small
    · subst hslot
      simp [Bucket.store]
    · simp [Bucket.store, hslot, h.holds.stored]
  · rw [hsent.completions_eq, hrs, List.append_nil, h.completions]

/-- The writes behind the first may start anywhere in the parts of the file but at 0. -/
def BehindFirst (e : Env σ) (ws : List (Extent UInt8)) : Prop :=
  ∀ y ∈ ws, y.offset ≠ 0 ∧ y.offset / e.small < SIA_MAX_PARTS

theorem Scattered.run (hB : Backend e.server view fun _ => False) (hP : e.hugeFiles = false)
    {after : List (Extent UInt8)} (h : Scattered e view w path ws w' u part)
    (hlater : BehindFirst e after) :
    ∃ w'' u' part', Exec.runAll (perform e) (writesOf path after) w' =
        (.ok (sizesOf after), w'') ∧
      Scattered e view w path (ws ++ after) w'' u' part' := by
  induction after generalizing ws w' u part with
  | nil =>
    rw [List.append_nil]
    exact ⟨w', u, part, Exec.runAll_nil w', h⟩
  | cons x after ih =>
    obtain ⟨h0, hs⟩ := hlater x List.mem_cons_self
    obtain ⟨w₁, u₁, part₁, hx, h₁⟩ := h.next hB hP h0 hs
    obtain ⟨w₂, u₂, part₂, hafter, h₂⟩ := ih h₁ fun y hy => hlater y (List.mem_cons_of_mem _ hy)
    rw [List.append_assoc, List.singleton_append] at h₂
    exact ⟨w₂, u₂, part₂, Exec.runAll_cons_ok hx hafter, h₂⟩

/-! ## What is stored -/

/-- A mount in that build, over a server of URLs. -/
def plainReceivingMount : Env Store := { receivingMount with hugeFiles := false }

/-- The last buffers of the blocks, one behind the other. -/
def lastBuffers (e : Env σ) (ws : List (Extent UInt8)) : Bytes :=
  (List.range SIA_MAX_PARTS).flatMap fun s => (lastIn e.small ws s).getD []

/-- The writes and the release after them. -/
def scatteredRun (path : CStr) (ws : List (Extent UInt8)) : List Op :=
  writesOf path ws ++ [.release path]

theorem scatteredRun_legible (hverbose : e.verbose = false) (hpath : Clean path)
    (ws : List (Extent UInt8)) : ∀ op ∈ scatteredRun path ws, op.Legible e := by
  refine legible_upload hpath hverbose fun op hop => ?_
  obtain ⟨y, -, rfl⟩ := List.mem_map.mp hop
  exact ⟨_, _, rfl⟩

def scatteredAnswers (ws : List (Extent UInt8)) : List Answer := sizesOf ws ++ [.status 0]

/-- What the release of the writes leaves: the upload is completed from the parts. -/
theorem scattered_released (hB : Backend e.server view fun _ => False) (hP : e.hugeFiles = false)
    (hf : Free e view w path) (h0 : x.offset = 0) (hsmall : e.small ≤ x.data.length)
    (hlater : BehindFirst e ws) :
    ∃ w' u, ∃ tag : Nat → Option CStr, Exec.runAll (perform e) (scatteredRun path (x :: ws)) w =
        (.ok (scatteredAnswers (x :: ws)), w') ∧
      (view w'.server).objects =
        Function.update (view w.server).objects path (some (lastBuffers e (x :: ws))) ∧
      completions w'.trace = completions w.trace ++
        [completePayload e path u.uploadID (recordedParts u)] ∧
      (∀ s : Fin SIA_MAX_PARTS, (u.part s).etag = tag s) ∧
      ∀ s, (tag s).isSome = (lastIn e.small (x :: ws) s).isSome := by
  obtain ⟨w₁, u₁, part₁, hx, h₁⟩ := Scattered.first hB hP hf h0 hsmall
  obtain ⟨w₂, u, part, hafter, h⟩ := h₁.run hB hP hlater
  rw [List.singleton_append] at h
  obtain ⟨-, w', hrel, -, -, -, hcompl, hview⟩ :=
    h.holds.release hB (hf.cache.congr h.L1 h.now h.objects)
  refine ⟨w', u, fun s => (part s).map Prod.snd,
    Exec.runAll_append_ok (Exec.runAll_cons_ok hx hafter)
      (Exec.runAll_cons_ok (perform_release hrel) (Exec.runAll_nil _)), ?_,
    by rw [hcompl, h.completions], h.holds.tag, fun s => ?_⟩
  · have hbodies : ∀ s ∈ List.range SIA_MAX_PARTS, ((part s).map Prod.fst).getD [] =
        (lastIn e.small (x :: ws) s).getD [] := fun s _ => by rw [h.body]
    rw [hview, Bucket.complete_objects, h.holds.assemble, List.flatMap_congr hbodies, h.objects,
      lastBuffers]
  · rw [← h.body, Option.isSome_map, Option.isSome_map]

/-- Writes of any size at any offsets behind the first, in any order: each returns its size,
the file is the last buffer of each block, and it is completed from one part for each block
that was written. -/
theorem scattered_stored (he : e.server = receiving e.bucket server) (hbucket : Clean e.bucket)
    (hB : Backend server view fun _ => False) (hP : e.hugeFiles = false)
    (hverbose : e.verbose = false) (hpath : Clean path) (hf : Free e view w path)
    (h0 : x.offset = 0) (hsmall : e.small ≤ x.data.length) (hlater : BehindFirst e ws) :
    ∃ w' payload id listed, Exec.runAll (perform e) (scatteredRun path (x :: ws)) w =
        (.ok (scatteredAnswers (x :: ws)), w') ∧
      (view w'.server).objects =
        Function.update (view w.server).objects path (some (lastBuffers e (x :: ws))) ∧
      completions w'.trace = completions w.trace ++ [payload] ∧
      CompletesWith payload path id listed ∧
      listed.map Prod.fst = ((List.range SIA_MAX_PARTS).filter fun s =>
        (lastIn e.small (x :: ws) s).isSome).map Nat.succ := by
  rw [← runAll_over he hbucket (scatteredRun_legible hverbose hpath _)]
  obtain ⟨w', u, tag, hrun, hobjects, hcompl, htag, hwritten⟩ :=
    scattered_released (e := e.over server) hB hP hf.over h0 hsmall hlater
  refine ⟨w', _, _, _, hrun, hobjects, hcompl, completePayload_completes _ _ _, ?_⟩
  rw [recordedParts_numbers tag htag]
  simp only [hwritten]
  rfl

/-- A block, and writes into the third and the first block that each take the place of what
was there. -/
theorem scattered_stored_again : ∃ w' payload id listed,
    Exec.runAll (perform plainReceivingMount)
        (scatteredRun (lit "/f") (zeroBlock :: [byteAt 300000 1, byteAt 5 2, byteAt 262144 3]))
        (mounted Store.blank none) =
      (.ok (scatteredAnswers (zeroBlock :: [byteAt 300000 1, byteAt 5 2, byteAt 262144 3])), w') ∧
    (Store.view w'.server).objects =
      Function.update (Store.view Store.blank).objects (lit "/f") (some
        (lastBuffers plainReceivingMount (zeroBlock ::
          [byteAt 300000 1, byteAt 5 2, byteAt 262144 3]))) ∧
    completions w'.trace = [] ++ [payload] ∧ CompletesWith payload (lit "/f") id listed ∧
    listed.map Prod.fst = ((List.range SIA_MAX_PARTS).filter fun s =>
      (lastIn plainReceivingMount.small (zeroBlock ::
        [byteAt 300000 1, byteAt 5 2, byteAt 262144 3]) s).isSome).map Nat.succ := by
  refine scattered_stored (e := plainReceivingMount) rfl clean_default renterd_accepts rfl rfl
    clean_f (mounted_free _ _) rfl
    (by rw [zeroBlock_length]; decide) ?_
  unfold BehindFirst
  decide

/-! ## What is read back -/

theorem parts_fit (e : Env σ) : SIA_MAX_PARTS * e.small < 2 ^ 31 := by
  unfold Env.small
  cases e.fuse <;> decide

theorem BehindFirst.stop_le (hblock : Blockwise e.small ws) (hlater : BehindFirst e ws)
    {y : Extent UInt8} (hy : y ∈ ws) : y.stop ≤ SIA_MAX_PARTS * e.small := by
  have hfit := hblock.fits y hy
  have hdm := Nat.div_mul_cancel (hblock.aligned y hy)
  have hslot : (y.offset / e.small + 1) * e.small ≤ SIA_MAX_PARTS * e.small :=
    Nat.mul_le_mul_right _ (hlater y hy).2
  rw [Nat.succ_mul] at hslot
  unfold Extent.stop
  omega

theorem scattered_read_told {catalogue : σ → Catalogue} (hS : Serving e.server catalogue view)
    (hP : e.hugeFiles = false) (hf : Free e view w path) (h1 : w.L1 = none) (h2 : w.L2 = none)
    (hslash : endsWithSlash path = false) (h0 : x.offset = 0) (hsmall : e.small ≤ x.data.length)
    (hlater : BehindFirst e ws) (hblock : Blockwise e.small (x :: ws))
    (hsolid : Solid (x :: ws).reverse) {size offset : Nat} (hsize : 1 ≤ size)
    (hsize63 : size < 2 ^ 63) (hoffset : offset < 2 ^ 63) :
    ∃ w', Exec.runAll (perform e) (scatteredRun path (x :: ws) ++ [.read path size offset]) w =
      (.ok (scatteredAnswers (x :: ws) ++ [.data (span (x :: ws).reverse offset size)]), w') := by
  obtain ⟨w₁, u, tag, hrun, hobjects, -⟩ := scattered_released hS.backend hP hf h0 hsmall hlater
  have hspan : lastBuffers e (x :: ws) =
      span (x :: ws).reverse 0 (SIA_MAX_PARTS * e.small) := hblock.span_blocks e.small_pos _
  have htop : ∀ y ∈ (x :: ws).reverse, y.stop ≤ SIA_MAX_PARTS * e.small := by
    intro y hy
    rcases List.mem_cons.mp (List.mem_reverse.mp hy) with rfl | hy
    · have hfit := hblock.fits y List.mem_cons_self
      have hone : 1 * e.small ≤ SIA_MAX_PARTS * e.small := Nat.mul_le_mul_right _ (by decide)
      unfold Extent.stop
      omega
    · exact hlater.stop_le ⟨fun z hz => hblock.aligned z (List.mem_cons_of_mem _ hz),
        fun z hz => hblock.fits z (List.mem_cons_of_mem _ hz),
        (List.pairwise_cons.mp hblock.grows).2⟩ hy
  have hpos : 0 < (lastBuffers e (x :: ws)).length := by
    rw [List.length_pos_iff, hspan]
    intro hnil
    have hzero : Extents.read (x :: ws).reverse 0 = none := by
      refine List.filterMap_eq_nil_iff.mp hnil 0 (List.mem_range'_1.mpr ⟨Nat.le_refl 0, ?_⟩)
      exact Nat.lt_of_lt_of_le (Nat.mul_pos (by decide) e.small_pos) (Nat.le_add_left _ _)
    have hx := List.findSome?_eq_none_iff.mp hzero x (by simp)
    have hsmall_pos := e.small_pos
    rw [Extent.read, if_pos (Nat.le_of_eq h0), List.getElem?_eq_none_iff] at hx
    omega
  have hlen : (lastBuffers e (x :: ws)).length < 2 ^ 31 := by
    rw [hspan]
    exact Nat.lt_of_le_of_lt (length_span_le _ _ _) (parts_fit e)
  have hoff : w₁.L1 = none ∧ w₁.L2 = none := by
    have hkept : (Exec.runAll (perform e) (scatteredRun path (x :: ws)) w).2.L1 = none ∧
        (Exec.runAll (perform e) (scatteredRun path (x :: ws)) w).2.L2 = none :=
      Exec.runAll_invariant (I := fun w : World σ => w.L1 = none ∧ w.L2 = none)
        (fun op _ w hw => perform_caches_off op hw.1 hw.2) ⟨h1, h2⟩
    rwa [hrun] at hkept
  obtain ⟨w', hread⟩ := hS.read_off hoff.1 hoff.2 hslash
    (by rw [hobjects]; exact Function.update_self _ _ _) hpos hlen hsize hsize63 hoffset
  have hop : perform e (.read path size offset) w₁ =
      (.ok (.data (span (x :: ws).reverse offset size)), w') := by
    rw [perform, Exec.bind_of_ok hread, hspan, hsolid.drop_take htop]
    rfl
  exact ⟨w', Exec.runAll_append_ok hrun (Exec.runAll_cons_ok hop (Exec.runAll_nil _))⟩

end SiaFS
