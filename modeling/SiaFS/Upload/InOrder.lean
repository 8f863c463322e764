/-
What becomes of a file that is written in order in full blocks.

The state after every block is that of `InOrder`, so the release stores the
bodies of the slots that were pushed.  The last slot is pushed by its last block
or by a short one; a file that ends with a full block anywhere else loses the
tail that is still staged.  A part whose push fails is left out of the request
that completes the upload, and the parts after it are not.
-/
import SiaFS.Upload.Session

namespace SiaFS

open Staging Pieces

variable {σ : Type} {e : Env σ} {view : σ → Bucket} {rejects : Nat → Prop} {w : World σ}
  {path : CStr} {c : Bytes} {m : Nat}

/-- Sizes up to the last slot. -/
theorem block_slot_lt {n : Nat} (h : n * e.small < SIA_MAX_PARTS * e.partBytes) :
    n / SAIFS_WRITES_PER_MULTIPART < SIA_MAX_PARTS := by
  refine (Nat.div_lt_iff_lt_mul (by decide)).mpr ?_
  have heq : SIA_MAX_PARTS * e.partBytes =
      SIA_MAX_PARTS * SAIFS_WRITES_PER_MULTIPART * e.small := by
    rw [Env.partBytes, Nat.mul_comm e.small, Nat.mul_assoc]
  rw [heq] at h
  exact Nat.lt_of_mul_lt_mul_right h

/-! ## The first blocks and a release -/

/-- The first `m` blocks of `c` written from `w` on, then a release. -/
structure Released (e : Env σ) (view : σ → Bucket) (rejects : Nat → Prop) (w : World σ)
    (path : CStr) (c : Bytes) (m : Nat) (w' : World σ) (u : SiaUpload) (st : Slots UInt8 CStr) :
    Prop where
  inOrder : InOrder e.geometry c (fun s => rejects (s + 1)) m st
  tag : ∀ s : Fin SIA_MAX_PARTS, (u.part s).etag = (st s).tag
  puts : ∃ t, (∃ t', w'.trace = w.trace ++ t ++ t') ∧ ∀ s, putsOf path (s + 1) t = (st s).puts
  fresh : ¬ (view w.server).issued u.uploadID
  /-- The object is what the accepted parts come to. -/
  objects : (view w'.server).objects =
    Function.update (view w.server).objects path (some (e.geometry.published st))
  /-- One request is sent to complete an upload, with the parts of the node. -/
  completions : completions w'.trace = completions w.trace ++
    [completePayload e path u.uploadID (recordedParts u)]
  idle : ∀ id, (view w'.server).pending id ≠ some path

theorem released_run (hB : Backend e.server view rejects) (hR : e.host.Reliable)
    (hH : e.hugeFiles = true) (hr : Ready e view w path) (hc : e.small ≤ c.length) (hm : 0 < m)
    (hlt : (m - 1) * e.small < c.length) (hfit : c.length ≤ SIA_MAX_PARTS * e.partBytes) :
    ∃ w' answers u st,
      Exec.runAll (perform e) (blockWrites e path c m ++ [.release path]) w = (.ok answers, w') ∧
      Released e view rejects w path c m w' u st := by
  obtain ⟨w₀, answers, u, st, hrun, hU⟩ :=
    blockWrites_run hB hR hH hr.named hr.last hr.idle hc hm hlt (block_slot_lt (Nat.lt_of_lt_of_le hlt hfit))
  obtain ⟨w₁, w', hrel, hasks, rfl, -, hcompl, hview⟩ :=
    hU.session.holds.release hB (hr.cache.congr hU.L1 hU.now hU.objects)
  have hall := Exec.runAll_append_ok hrun
    (Exec.runAll_cons_ok (perform_release hrel) (Exec.runAll_nil _))
  refine ⟨_, _, u, st, hall, hU.inOrder, hU.session.stages.tag, ?_, hU.fresh, ?_, ?_, ?_⟩
  · obtain ⟨t, ht, hputs⟩ := hU.session.stages.puts
    obtain ⟨t', ht', -⟩ := hasks.trace_eq
    exact ⟨t, ⟨_, by rw [sendAll, ht', ht, List.append_assoc (w.trace ++ t)]⟩, hputs⟩
  · rw [hview, ← hU.objects, Bucket.complete_objects, hU.session.holds.assemble]
    rfl
  · rw [hcompl, hU.completions]
  · intro id
    rw [hview, Bucket.complete_pending]
    by_cases hid : id = u.uploadID
    · rw [hid, Function.update_self]
      intro h
      cases h
    · rw [Function.update_of_ne hid]
      exact fun h => hid ((hU.session.pending id).mp h)

/-! ## The stored object -/

/-- What a file written in order and then released is stored as. -/
theorem upload_stores (hB : Backend e.server view fun _ => False) (hR : e.host.Reliable)
    (hH : e.hugeFiles = true) (hr : Ready e view w path) (hc : e.small ≤ c.length)
    (hfit : c.length ≤ SIA_MAX_PARTS * e.partBytes) :
    ∃ w' answers stored, Exec.runAll (perform e) (uploadRun e path c) w = (.ok answers, w') ∧
      (view w'.server).objects path = some stored ∧
      (stored = c ↔ ¬ e.small ∣ c.length ∨ e.partBytes ∣ c.length) := by
  have h0 : 0 < c.length := Nat.lt_of_lt_of_le e.small_pos hc
  have hlt := e.geometry.blocks_lt h0
  obtain ⟨w', answers, u, st, hrun, hrel⟩ :=
    released_run hB hR hH hr hc (e.geometry.blocks_pos h0) hlt hfit
  have hslots : (e.geometry.blocks c - 1) / SAIFS_WRITES_PER_MULTIPART < SIA_MAX_PARTS :=
    block_slot_lt (Nat.lt_of_lt_of_le hlt hfit)
  refine ⟨w', answers, _, hrun, ?_, hrel.inOrder.published_eq_iff (fun _ h => h) h0 hslots⟩
  rw [hrel.objects, Function.update_self]

/-- A file written in order in full blocks, the last of which may be short, is
stored as it was written exactly when its length is no multiple of the block
size, or one of the part size. -/
theorem upload_exact_iff (hB : Backend e.server view fun _ => False) (hR : e.host.Reliable)
    (hH : e.hugeFiles = true) (hr : Ready e view w path) (hc : e.small ≤ c.length)
    (hfit : c.length ≤ SIA_MAX_PARTS * e.partBytes) :
    (∃ w' answers, Exec.runAll (perform e) (uploadRun e path c) w = (.ok answers, w') ∧
        (view w'.server).objects path = some c) ↔
      ¬ e.small ∣ c.length ∨ e.partBytes ∣ c.length := by
  obtain ⟨w', answers, stored, hrun, hstored, hiff⟩ := upload_stores hB hR hH hr hc hfit
  rw [← hiff]
  constructor
  · rintro ⟨w'', answers', hrun', hobj⟩
    rw [hrun] at hrun'
    cases hrun'
    exact Option.some.inj (hstored.symm.trans hobj)
  · intro heq
    exact ⟨w', answers, hrun, by rw [hstored, heq]⟩

/-- A file of one block and a byte. -/
theorem upload_exact_block_and_byte :
    (∃ w' answers, Exec.runAll (perform hugeMount)
        (uploadRun hugeMount (lit "/f") (List.replicate 131073 0)) (mounted Store.blank none) =
          (.ok answers, w') ∧
        w'.server.view.objects (lit "/f") = some (List.replicate 131073 0)) ↔
      ¬ 131072 ∣ 131073 ∨ 131072 * 1024 ∣ 131073 := by
  have h := upload_exact_iff (e := hugeMount) (c := List.replicate 131073 0) renterd_accepts
    plainHost_reliable rfl (mounted_ready _ (lit "/f"))
    (by rw [List.length_replicate]; decide) (by rw [List.length_replicate]; decide)
  rw [List.length_replicate] at h
  exact h

/-- A file of exactly one block loses it. -/
theorem upload_one_block_lost :
    ¬ ∃ w' answers, Exec.runAll (perform hugeMount)
        (uploadRun hugeMount (lit "/f") (List.replicate 131072 0)) (mounted Store.blank none) =
          (.ok answers, w') ∧
        w'.server.view.objects (lit "/f") = some (List.replicate 131072 0) := by
  obtain ⟨w', answers, stored, hrun, hstored, hiff⟩ :=
    upload_stores (e := hugeMount) (c := List.replicate 131072 0) renterd_accepts
      plainHost_reliable rfl (mounted_ready _ (lit "/f"))
      (by rw [List.length_replicate]; decide) (by rw [List.length_replicate]; decide)
  rintro ⟨w'', answers', hrun', hobj⟩
  rw [hrun] at hrun'
  cases hrun'
  have heq := hiff.mp (Option.some.inj (hstored.symm.trans hobj))
  rw [List.length_replicate] at heq
  revert heq
  decide

/-! ## The state between writes -/

/-- The bytes in blocks past the last complete part fill less than a part. -/
theorem slot_bounds {n s k : Nat} (h : s * SAIFS_WRITES_PER_MULTIPART + k = n) (hk : 0 < k)
    (hk' : k ≤ SAIFS_WRITES_PER_MULTIPART) :
    s * e.partBytes < n * e.small ∧ n * e.small - s * e.partBytes ≤ e.partBytes := by
  have hsplit : n * e.small = s * e.partBytes + k * e.small := by
    rw [← h, Nat.add_mul, Env.partBytes, Nat.mul_comm e.small, Nat.mul_assoc]
  have hpos : 0 < k * e.small := Nat.mul_pos hk e.small_pos
  have hle : k * e.small ≤ e.partBytes := by
    rw [Env.partBytes, Nat.mul_comm e.small]
    exact Nat.mul_le_mul_right _ hk'
  omega

/-- After `n` full blocks, every complete part was pushed once, with its bytes,
and its tag recorded; the bytes after the last complete part are in the staging
file of the next slot; and the slots after that are untouched. -/
theorem full_blocks_state (hB : Backend e.server view fun _ => False) (hR : e.host.Reliable)
    (hH : e.hugeFiles = true) (hr : Ready e view w path) {n : Nat} (hn : 0 < n)
    (hmax : n ≤ SIA_MAX_PARTS * SAIFS_WRITES_PER_MULTIPART) (hlen : c.length = n * e.small) :
    ∃ w' answers u t,
      Exec.runAll (perform e) (blockWrites e path c n) w = (.ok answers, w') ∧
      nodeNamed w'.uploads path = some u ∧ w'.trace = w.trace ++ t ∧
      (∀ s : Fin SIA_MAX_PARTS, (s + 1) * SAIFS_WRITES_PER_MULTIPART ≤ n →
        ∃ tag, putsOf path (s + 1) t =
            [((c.drop (s * e.partBytes)).take e.partBytes, some tag)] ∧
          (u.part s).etag = some tag) ∧
      (¬ SAIFS_WRITES_PER_MULTIPART ∣ n →
        ∀ s : Fin SIA_MAX_PARTS, s = n / SAIFS_WRITES_PER_MULTIPART →
          (u.part s).etag = none ∧
          ∃ fn, (u.part s).tmpfn = some fn ∧ w'.tmp fn = some (c.drop (s * e.partBytes))) ∧
      ∀ s : Fin SIA_MAX_PARTS, n ≤ s * SAIFS_WRITES_PER_MULTIPART →
        (u.part s).etag = none ∧ (u.part s).tmpfn = none := by
  have hpos := e.small_pos
  have hlt : (n - 1) * e.small < c.length := by
    rw [hlen]
    exact Nat.mul_lt_mul_of_pos_right (by omega) hpos
  have hslots : (n - 1) / SAIFS_WRITES_PER_MULTIPART < SIA_MAX_PARTS :=
    (Nat.div_lt_iff_lt_mul (by decide)).mpr (by omega)
  have hc : e.small ≤ c.length := by
    rw [hlen]
    exact Nat.le_mul_of_pos_left _ hn
  obtain ⟨w', answers, u, st, hrun, hU⟩ := blockWrites_run hB hR hH hr.named hr.last hr.idle hc hn hlt hslots
  have hS := hU.session.stages
  have hin := hU.inOrder
  obtain ⟨t, ht, hputs⟩ := hS.puts
  have htake : c.take (n * e.geometry.block) = c := List.take_of_length_le (Nat.le_of_eq hlen)
  have hclosed : ∀ s, Closed e.geometry c n s ↔ (s + 1) * SAIFS_WRITES_PER_MULTIPART ≤ n := by
    intro s
    show _ ∨ c.length < n * e.small ↔ _
    rw [hlen]
    exact or_iff_left (Nat.lt_irrefl _)
  refine ⟨w', answers, u, t, hrun, hS.found, ht, fun s hs => ?_, fun hdvd s hs => ?_,
    fun s hs => ?_⟩
  · have hbefore : s * SAIFS_WRITES_PER_MULTIPART < n := by
      rw [Nat.succ_mul] at hs
      exact Nat.lt_of_lt_of_le (Nat.lt_add_of_pos_right (by decide)) hs
    obtain ⟨tag, hpush, hiff⟩ := hin.pushed s hbefore ((hclosed s).mpr hs)
    rw [htake] at hpush
    cases tag with
    | none => exact (hiff.mp rfl).elim
    | some tag =>
      refine ⟨tag, (hputs s).trans hpush, ?_⟩
      rw [hS.tag, Slot.tag, Slot.part_of_puts_singleton hpush]
      rfl
  · have hdm := Nat.div_add_mod' n SAIFS_WRITES_PER_MULTIPART
    have hmod : 0 < n % SAIFS_WRITES_PER_MULTIPART :=
      Nat.pos_of_ne_zero fun hz => hdvd (Nat.dvd_of_mod_eq_zero hz)
    have hmod' : n % SAIFS_WRITES_PER_MULTIPART < SAIFS_WRITES_PER_MULTIPART :=
      Nat.mod_lt _ (by decide)
    rw [← hs] at hdm
    have hnot : ¬ Closed e.geometry c n s := by
      rw [hclosed, Nat.succ_mul]
      omega
    obtain ⟨hstaged, hputs⟩ := hin.filling s (show s * SAIFS_WRITES_PER_MULTIPART < n by omega) hnot
    obtain ⟨hlo, hhi⟩ := slot_bounds (e := e) hdm hmod (Nat.le_of_lt hmod')
    rw [htake, piece, List.take_of_length_le (by rw [List.length_drop, hlen]; exact hhi)] at hstaged
    refine ⟨?_, ?_⟩
    · rw [hS.tag, Slot.tag, Slot.part_of_puts_nil hputs]
      rfl
    · obtain ⟨fn, hfn, hfile⟩ := Option.map_eq_some_iff.mp ((hS.staged s).trans hstaged)
      refine ⟨fn, hfn, ?_⟩
      cases htmp : w'.tmp fn with
      | some body =>
        rw [htmp] at hfile
        exact congrArg some hfile
      | none =>
        have := congrArg List.length hfile
        rw [htmp, List.length_drop, hlen, Option.getD_none, List.length_nil] at this
        have : s * e.geometry.partSize = s * e.partBytes := rfl
        omega
  · have hempty := hin.untouched s hs
    refine ⟨?_, ?_⟩
    · rw [hS.tag, hempty]
      rfl
    · have := hS.staged s
      rw [hempty] at this
      exact Option.map_eq_none_iff.mp this

/-- One part and one block of zeros. -/
theorem full_blocks_state_part_and_block :
    ∃ w' answers u t,
      Exec.runAll (perform hugeMount)
        (blockWrites hugeMount (lit "/f") (List.replicate (1025 * 131072) 0) 1025)
        (mounted Store.blank none) = (.ok answers, w') ∧
      nodeNamed w'.uploads (lit "/f") = some u ∧ w'.trace = [] ++ t ∧
      (∀ s : Fin SIA_MAX_PARTS, (s + 1) * SAIFS_WRITES_PER_MULTIPART ≤ 1025 →
        ∃ tag, putsOf (lit "/f") (s + 1) t =
            [(((List.replicate (1025 * 131072) 0).drop (s * hugeMount.partBytes)).take
              hugeMount.partBytes, some tag)] ∧
          (u.part s).etag = some tag) ∧
      (¬ SAIFS_WRITES_PER_MULTIPART ∣ 1025 →
        ∀ s : Fin SIA_MAX_PARTS, s = 1025 / SAIFS_WRITES_PER_MULTIPART →
          (u.part s).etag = none ∧
          ∃ fn, (u.part s).tmpfn = some fn ∧
            w'.tmp fn = some ((List.replicate (1025 * 131072) 0).drop (s * hugeMount.partBytes))) ∧
      ∀ s : Fin SIA_MAX_PARTS, 1025 ≤ s * SAIFS_WRITES_PER_MULTIPART →
        (u.part s).etag = none ∧ (u.part s).tmpfn = none :=
  full_blocks_state renterd_accepts plainHost_reliable rfl
    (mounted_ready _ (lit "/f")) (by decide) (by decide)
    (by rw [List.length_replicate]; rfl)

/-! ## Rejected parts -/

theorem partJson_injective : Function.Injective partJson := by
  rintro ⟨n, t⟩ ⟨n', t'⟩ h
  simpa [partJson] using h

/-- A request to complete an upload lists the parts it was built from. -/
theorem completePayload_listed {id id' : CStr} {path' : CStr} {parts listed : List (Nat × CStr)}
    (h : CompletesWith (completePayload e path id parts) path' id' listed) :
    id' = id ∧ listed = parts := by
  have h' := completePayload_completes (e := e) path id parts
  have hid := h.uploadID.symm.trans h'.uploadID
  have hparts := h.parts.symm.trans h'.parts
  simp only [Option.some.injEq, Json.str.injEq, Json.arr.injEq] at hid hparts
  exact ⟨hid, List.map_injective_iff.mpr partJson_injective hparts⟩

/-- The numbers listed are those of the slots with a tag. -/
theorem recordedParts_numbers {u : SiaUpload} (tag : Nat → Option CStr)
    (h : ∀ s : Fin SIA_MAX_PARTS, (u.part s).etag = tag s) :
    (recordedParts u).map Prod.fst =
      ((List.range SIA_MAX_PARTS).filter fun s => (tag s).isSome).map Nat.succ := by
  rw [recordedParts, ← List.map_coe_finRange_eq_range]
  induction List.finRange SIA_MAX_PARTS with
  | nil => rfl
  | cons i l ih =>
    rw [List.filterMap_cons, List.map_cons, List.filter_cons, h i]
    cases tag i with
    | none => exact ih
    | some t =>
      rw [Option.map_some, List.map_cons, ih]
      rfl

/-- The numbers that pass a test are the first ones exactly when every number
before one that passes does. -/
theorem filter_range_iff (p : Nat → Bool) (n : Nat) :
    (∃ k, ((List.range n).filter p).map Nat.succ = List.range' 1 k) ↔
      ∀ i j, i < j → j < n → p j = true → p i = true := by
  have hsucc : ∀ k, List.range' 1 k = (List.range k).map Nat.succ := by
    intro k
    rw [List.range'_eq_map_range]
    exact List.map_congr_left fun i _ => Nat.add_comm 1 i
  have hinj := List.map_injective_iff.mpr Nat.succ_injective
  constructor
  · rintro ⟨k, hk⟩ i j hij hj hp
    rw [hsucc] at hk
    have hk := hinj hk
    have hjk : j ∈ List.range k := hk ▸ List.mem_filter.mpr ⟨List.mem_range.mpr hj, hp⟩
    have hik : i ∈ (List.range n).filter p := by
      rw [hk]
      exact List.mem_range.mpr (Nat.lt_trans hij (List.mem_range.mp hjk))
    exact (List.mem_filter.mp hik).2
  · intro h
    have key : ∃ k, (List.range n).filter p = List.range k := by
      induction n with
      | zero => exact ⟨0, rfl⟩
      | succ n ih =>
        obtain ⟨k, hk⟩ := ih fun i j hij hj => h i j hij (Nat.lt_succ_of_lt hj)
        by_cases hn : p n = true
        · refine ⟨n + 1, List.filter_eq_self.mpr fun i hi => ?_⟩
          rcases Nat.lt_or_eq_of_le (Nat.le_of_lt_succ (List.mem_range.mp hi)) with hlt | rfl
          · exact h i n hlt (Nat.lt_succ_self n) hn
          · exact hn
        · refine ⟨k, ?_⟩
          rw [List.range_succ, List.filter_append, hk]
          simp [hn]
    obtain ⟨k, hk⟩ := key
    exact ⟨k, by rw [hk, hsucc]⟩

/-- The parts listed after the first `m` blocks are numbered from 1 without a gap. -/
def GaplessRun (e : Env σ) (w : World σ) (path : CStr) (c : Bytes) (m : Nat) : Prop :=
  ∃ w' answers t,
    Exec.runAll (perform e) (blockWrites e path c m ++ [.release path]) w = (.ok answers, w') ∧
    w'.trace = w.trace ++ t ∧
    ∀ payload ∈ completions t, ∃ id listed k, CompletesWith payload path id listed ∧
      listed.map Prod.fst = List.range' 1 k

theorem gaplessRun_iff_accepted (hB : Backend e.server view rejects) (hR : e.host.Reliable)
    (hH : e.hugeFiles = true) (hr : Ready e view w path) (hc : e.small ≤ c.length) (hm : 0 < m)
    (hm' : m ≤ e.geometry.blocks c) (hfit : c.length ≤ SIA_MAX_PARTS * e.partBytes) :
    GaplessRun e w path c m ↔
      ∀ i j, i < j → j * SAIFS_WRITES_PER_MULTIPART < m ∧ Closed e.geometry c m j ∧
          ¬ rejects (j + 1) →
        i * SAIFS_WRITES_PER_MULTIPART < m ∧ Closed e.geometry c m i ∧ ¬ rejects (i + 1) := by
  have h0 : 0 < c.length := Nat.lt_of_lt_of_le e.small_pos hc
  have hlt : (m - 1) * e.small < c.length :=
    Nat.lt_of_le_of_lt (Nat.mul_le_mul_right _ (by omega)) (e.geometry.blocks_lt h0)
  have hslots : (m - 1) / SAIFS_WRITES_PER_MULTIPART < SIA_MAX_PARTS :=
    block_slot_lt (Nat.lt_of_lt_of_le hlt hfit)
  obtain ⟨w', answers, u, st, hrun, hrel⟩ := released_run hB hR hH hr hc hm hlt hfit
  obtain ⟨t₀, ⟨t', ht⟩, -⟩ := hrel.puts
  have hcompl : completions (t₀ ++ t') = [completePayload e path u.uploadID (recordedParts u)] := by
    have := hrel.completions
    rw [ht, List.append_assoc, completions_append] at this
    exact List.append_cancel_left this
  have hgap : GaplessRun e w path c m ↔
      ∃ k, (recordedParts u).map Prod.fst = List.range' 1 k := by
    constructor
    · rintro ⟨w'', answers', t, hrun', ht'', hall⟩
      rw [hrun] at hrun'
      cases hrun'
      rw [ht, List.append_assoc] at ht''
      obtain rfl := List.append_cancel_left ht''
      obtain ⟨id, listed, k, hcw, hk⟩ := hall _ (hcompl ▸ List.mem_singleton_self _)
      exact ⟨k, by rw [← (completePayload_listed hcw).2, hk]⟩
    · rintro ⟨k, hk⟩
      refine ⟨w', answers, t₀ ++ t', hrun, by rw [ht, List.append_assoc], fun payload hp => ?_⟩
      rw [hcompl] at hp
      obtain rfl := List.mem_singleton.mp hp
      exact ⟨_, _, k, completePayload_completes _ _ _, hk⟩
  rw [hgap, recordedParts_numbers (fun s => (st s).tag) hrel.tag, filter_range_iff]
  have htag := hrel.inOrder.tag_isSome_iff
  constructor
  · intro h i j hij hj
    have hmax : j < SIA_MAX_PARTS := Nat.lt_of_le_of_lt
      ((Nat.le_div_iff_mul_le (by decide)).mpr (Nat.le_pred_of_lt hj.1)) hslots
    exact (htag i).mp (h i j hij hmax ((htag j).mpr hj))
  · intro h i j hij _ hj
    exact (htag i).mpr (h i j hij ((htag j).mp hj))

/-- With some pushes refused, the request that completes the upload lists the
parts from 1 to some number exactly when no part is accepted after a refused
one. -/
theorem completion_gapless_iff (hB : Backend e.server view rejects) (hR : e.host.Reliable)
    (hH : e.hugeFiles = true) (hr : Ready e view w path) (hc : e.small ≤ c.length) (hm : 0 < m)
    (hm' : m ≤ e.geometry.blocks c) (hfit : c.length ≤ SIA_MAX_PARTS * e.partBytes) :
    GaplessRun e w path c m ↔
      ∀ i j, i < j → j * SAIFS_WRITES_PER_MULTIPART < m → Closed e.geometry c m j →
        rejects (i + 1) → rejects (j + 1) := by
  rw [gaplessRun_iff_accepted hB hR hH hr hc hm hm' hfit]
  constructor
  · intro h i j hij hj hcl hrej
    by_contra hacc
    exact (h i j hij ⟨hj, hcl, hacc⟩).2.2 hrej
  · intro h i j hij hj
    have hle : (i + 1) * SAIFS_WRITES_PER_MULTIPART ≤ j * SAIFS_WRITES_PER_MULTIPART :=
      Nat.mul_le_mul_right _ hij
    refine ⟨?_, Or.inl ?_, fun hrej => hj.2.2 (h i j hij hj.1 hj.2.1 hrej)⟩
    · rw [Nat.succ_mul] at hle
      omega
    · exact Nat.le_trans hle (Nat.le_of_lt hj.1)

/-- A mount of the server that refuses the pushes of part `n`. -/
def refusingMount (n : Nat) : Env Store := mount .fuse3 true fun m => m == n

theorem completion_gapless_second_refused :
    GaplessRun (refusingMount 2) (mounted Store.blank none) (lit "/f")
        (List.replicate (2048 * 131072) 0) 2048 ↔
      ∀ i j, i < j → j * SAIFS_WRITES_PER_MULTIPART < 2048 →
        Closed (refusingMount 2).geometry (List.replicate (2048 * 131072) (0 : UInt8)) 2048 j →
        (i + 1 == 2) = true → (j + 1 == 2) = true :=
  completion_gapless_iff (e := refusingMount 2) (renterd_backend fun m => m == 2) plainHost_reliable rfl
    (mounted_ready _ (lit "/f")) (by rw [List.length_replicate]; decide) (by decide)
    (by rw [Geometry.blocks, List.length_replicate]; decide)
    (by rw [List.length_replicate]; decide)

/-- The second part is published without the first. -/
theorem completion_first_missing :
    ¬ GaplessRun (refusingMount 1) (mounted Store.blank none) (lit "/f")
      (List.replicate (2048 * 131072) 0) 2048 := by
  rw [gaplessRun_iff_accepted (e := refusingMount 1) (renterd_backend fun m => m == 1) plainHost_reliable rfl
    (mounted_ready _ (lit "/f")) (by rw [List.length_replicate]; decide) (by decide)
    (by rw [Geometry.blocks, List.length_replicate]; decide)
    (by rw [List.length_replicate]; decide)]
  intro h
  exact (h 0 1 (by decide) ⟨by decide, Or.inl (by decide), by decide⟩).2.2 rfl

end SiaFS
