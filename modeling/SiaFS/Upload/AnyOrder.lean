/-
Writes of any size at any offset.

The slot of a write and its push depend on where the write starts and on how
long it is, and its bytes are appended to whatever the slot holds.  So a part is
pushed as the bytes of its writes in the order they came in: a block that comes
out of order, one that runs over the end of the part, or a short one before the
part is complete makes another part of it.
-/
import SiaFS.Lib.Extents
import SiaFS.Upload.Session

namespace SiaFS

open Staging Pieces Extents

/-! ## The writes of a slot -/

section Slots

variable {α τ : Type} (g : Geometry)

/-- The writes that start in a slot, in the order they came in. -/
def inSlot (ws : List (Extent α)) (s : Nat) : List (Extent α) :=
  ws.filter fun x => x.offset / g.partSize = s

/-- A write that comes in place: its slot was not pushed before, and if it pushes
the slot, the writes of the slot lie inside the part and came in in order. -/
structure InPlace (before : List (Extent α)) (x : Extent α) : Prop where
  unpushed : ∀ y ∈ inSlot g before (x.offset / g.partSize), ¬ g.pushes y.offset y.data.length
  inside : g.pushes x.offset x.data.length →
    ∀ y ∈ inSlot g (before ++ [x]) (x.offset / g.partSize),
      y.stop ≤ (x.offset / g.partSize + 1) * g.partSize
  inOrder : g.pushes x.offset x.data.length →
    (inSlot g (before ++ [x]) (x.offset / g.partSize)).Pairwise fun y z => y.offset < z.offset

/-- Every one of the writes that follow `before` comes in place. -/
def AllInPlace : List (Extent α) → List (Extent α) → Prop
  | _, [] => True
  | before, x :: after => InPlace g before x ∧ AllInPlace (before ++ [x]) after

/-- What a slot has come to after the writes `mine`, each of which returned. -/
inductive Collected (s : Nat) (mine : List (Extent α)) : Slot α τ → Prop
  | untouched (h : mine = []) : Collected s mine Slot.empty
  | filling {slot : Slot α τ} (hstart : ∃ y ∈ mine, y.offset = s * g.partSize)
    (hopen : ∀ y ∈ mine, ¬ g.pushes y.offset y.data.length)
    (hstaged : slot.staged = some (mine.flatMap Extent.data)) (hputs : slot.puts = []) :
    Collected s mine slot
  | pushed {slot : Slot α τ} {tag : τ} (hstart : ∃ y ∈ mine, y.offset = s * g.partSize)
    (hclosed : ∃ y ∈ mine, g.pushes y.offset y.data.length)
    (hin : ∀ y ∈ mine, y.stop ≤ (s + 1) * g.partSize)
    (hord : mine.Pairwise fun y z => y.offset < z.offset)
    (hputs : slot.puts = [(mine.flatMap Extent.data, some tag)]) : Collected s mine slot

variable {g}
variable {ws : List (Extent α)} {x : Extent α} {st : Slots α τ} {b : List α} {ans : Option τ}

theorem inSlot_concat_self :
    inSlot g (ws ++ [x]) (x.offset / g.partSize) = inSlot g ws (x.offset / g.partSize) ++ [x] := by
  unfold inSlot
  rw [List.filter_append]
  simp

theorem inSlot_concat_ne {s : Nat} (h : s ≠ x.offset / g.partSize) :
    inSlot g (ws ++ [x]) s = inSlot g ws s := by
  unfold inSlot
  rw [List.filter_append]
  simp [h.symm]

theorem mem_inSlot {s : Nat} {y : Extent α} :
    y ∈ inSlot g ws s ↔ y ∈ ws ∧ y.offset / g.partSize = s := by
  unfold inSlot
  rw [List.mem_filter, decide_eq_true_eq]

/-- What a write finds is what the writes of its slot have left. -/
theorem Collected.found (hst : Collected g (x.offset / g.partSize)
      (inSlot g ws (x.offset / g.partSize)) (st (x.offset / g.partSize)))
    (hapart : ∀ y ∈ ws, y.Apart x) (hne : x.data ≠ [] ∧ ∀ y ∈ ws, y.data ≠ [])
    (hopen : ∀ y ∈ inSlot g ws (x.offset / g.partSize), ¬ g.pushes y.offset y.data.length)
    (hb : g.found st x.offset = some b) :
    b = (inSlot g ws (x.offset / g.partSize)).flatMap Extent.data ∧
      (st (x.offset / g.partSize)).puts = [] ∧
      ∃ y ∈ inSlot g (ws ++ [x]) (x.offset / g.partSize),
        y.offset = x.offset / g.partSize * g.partSize := by
  have hdm := Nat.div_add_mod' x.offset g.partSize
  rw [inSlot_concat_self]
  unfold Geometry.found at hb
  generalize st (x.offset / g.partSize) = slot at hst hb ⊢
  cases hst with
  | untouched h =>
    by_cases hz : x.offset % g.partSize = 0
    · rw [if_pos hz] at hb
      cases hb
      rw [h]
      exact ⟨rfl, rfl, x, by simp, by omega⟩
    · rw [if_neg hz] at hb
      cases hb
  | filling hstart _ hstaged hputs =>
    obtain ⟨y, hy, hoffset⟩ := hstart
    have hyws := (mem_inSlot.mp hy).1
    -- A second write at the start of the part would run into `y`.
    have hz : x.offset % g.partSize ≠ 0 := by
      intro hz
      have hlen := List.length_pos_of_ne_nil (hne.2 y hyws)
      have hlen' := List.length_pos_of_ne_nil hne.1
      have hap := hapart y hyws
      unfold Extent.Apart Extent.stop at hap
      omega
    rw [if_neg hz, hstaged] at hb
    cases hb
    exact ⟨rfl, hputs, y, List.mem_append_left _ hy, hoffset⟩
  | pushed _ hclosed =>
    obtain ⟨y, hy, hp⟩ := hclosed
    exact absurd hp (hopen y hy)

/-- One more write that comes in place. -/
theorem Collected.write (hst : ∀ s, Collected g s (inSlot g ws s) (st s))
    (hapart : ∀ y ∈ ws, y.Apart x) (hne : x.data ≠ [] ∧ ∀ y ∈ ws, y.data ≠ [])
    (hplace : InPlace g ws x) (hb : g.found st x.offset = some b)
    (hans : g.pushes x.offset x.data.length → ans ≠ none) (s : Nat) :
    Collected g s (inSlot g (ws ++ [x]) s)
      (Function.update st (x.offset / g.partSize)
        (g.settle (st (x.offset / g.partSize)) x.offset x.data.length (b ++ x.data) ans) s) := by
  by_cases hs : s = x.offset / g.partSize
  · subst hs
    obtain ⟨rfl, hputs, hstart⟩ := (hst _).found hapart hne hplace.unpushed hb
    have hflat : (inSlot g ws (x.offset / g.partSize)).flatMap Extent.data ++ x.data =
        (inSlot g (ws ++ [x]) (x.offset / g.partSize)).flatMap Extent.data := by
      rw [inSlot_concat_self, List.flatMap_append, List.flatMap_singleton]
    rw [Function.update_self, hflat]
    by_cases hp : g.pushes x.offset x.data.length
    · rw [g.settle_of_pushes hp]
      obtain ⟨tag, rfl⟩ := Option.ne_none_iff_exists'.mp (hans hp)
      refine Collected.pushed (τ := τ) hstart ⟨x, ?_, hp⟩ (hplace.inside hp) (hplace.inOrder hp)
        (?_ : _ = [(_, some tag)])
      · exact mem_inSlot.mpr ⟨by simp, rfl⟩
      · rw [Slot.push_puts, hputs]
        rfl
    · rw [g.settle_of_not_pushes hp]
      refine .filling hstart (fun y hy => ?_) rfl hputs
      rw [inSlot_concat_self] at hy
      rcases List.mem_append.mp hy with hy | hy
      · exact hplace.unpushed y hy
      · rw [List.mem_singleton.mp hy]
        exact hp
  · rw [Function.update_of_ne hs, inSlot_concat_ne hs]
    exact hst s

/-- The writes of a pushed slot are all that was written of its part. -/
theorem span_inSlot {s : Nat} (hapart : ws.Pairwise Extent.Apart) (hne : ∀ y ∈ ws, y.data ≠ [])
    (hstart : ∃ y ∈ inSlot g ws s, y.offset = s * g.partSize)
    (hin : ∀ y ∈ inSlot g ws s, y.stop ≤ (s + 1) * g.partSize)
    (hord : (inSlot g ws s).Pairwise fun y z => y.offset < z.offset) :
    span ws (s * g.partSize) g.partSize = (inSlot g ws s).flatMap Extent.data := by
  have hpos := g.partSize_pos
  have hsucc : (s + 1) * g.partSize = s * g.partSize + g.partSize := Nat.succ_mul _ _
  obtain ⟨y, hy, hoffset⟩ := hstart
  have hyws := (mem_inSlot.mp hy).1
  have hylen := List.length_pos_of_ne_nil (hne y hyws)
  have hfilter : span (inSlot g ws s) (s * g.partSize) g.partSize =
      span ws (s * g.partSize) g.partSize := by
    apply span_filter
    intro x hx hslot
    have hslot : x.offset / g.partSize ≠ s := by simpa using hslot
    rcases Nat.lt_or_gt_of_ne hslot with hlt | hgt
    · -- A write that starts before the part ends before it, as `y` starts it.
      have hx' : x.offset < s * g.partSize := (Nat.div_lt_iff_lt_mul hpos).mp hlt
      have hxy : x ≠ y := by
        rintro rfl
        omega
      have hap := hapart.forall hx hyws hxy
      unfold Extent.Apart Extent.stop at hap
      unfold Extent.stop
      omega
    · have : (s + 1) * g.partSize ≤ x.offset := (Nat.le_div_iff_mul_le hpos).mp hgt
      omega
  rw [← hfilter]
  apply span_ordered
  · refine List.Pairwise.imp ?_ ((hapart.filter _).and hord)
    rintro x z ⟨hap, hlt⟩
    unfold Extent.Apart Extent.stop at hap
    unfold Extent.stop
    omega
  · intro x hx
    have hlo := Nat.div_mul_le_self x.offset g.partSize
    rw [(mem_inSlot.mp hx).2] at hlo
    have hhi := hin x hx
    omega

end Slots

/-! ## Runs of writes -/

variable {σ : Type} {e : Env σ} {w w' : World σ} {path : CStr} {x : Extent UInt8}
  {ws : List (Extent UInt8)} {u : SiaUpload} {st : Slots UInt8 CStr}
  {base : List (Request × Reply)}

def writesOf (path : CStr) (ws : List (Extent UInt8)) : List Op :=
  ws.map fun x => .write path x.data x.offset

/-- Every write returned its size. -/
def sizesOf (ws : List (Extent UInt8)) : List Answer := ws.map fun x => .status x.data.length

/-- Every recorded part was last pushed as what was written of it. -/
def PartsExact (e : Env σ) (path : CStr) (ws : List (Extent UInt8)) (w w' : World σ) : Prop :=
  ∃ u t, nodeNamed w'.uploads path = some u ∧ w'.trace = w.trace ++ t ∧
    ∀ s : Fin SIA_MAX_PARTS, (u.part s).etag ≠ none →
      ∃ ans, (putsOf path (s + 1) t).getLast? =
        some (span ws (s * e.partBytes) e.partBytes, ans)

/-- After the writes `ws`, each of which returned its size. -/
structure Gathered (e : Env σ) (base : List (Request × Reply)) (path : CStr)
    (ws : List (Extent UInt8)) (w : World σ) (u : SiaUpload) (st : Slots UInt8 CStr) : Prop where
  named : Named e w
  stages : Stages base w path u st
  slots : ∀ s, Collected e.geometry s (inSlot e.geometry ws s) (st s)

theorem siafs_write_of_perform {buf : Bytes} {offset : Nat} {r : Int}
    (h : perform e (.write path buf offset) w = (.ok (.status r), w')) :
    siafs_write e path buf offset w = (.ok r, w') := by
  obtain ⟨r', w₁, hrun, hend⟩ := Exec.bind_eq_ok h
  cases hend
  exact hrun

theorem writeHuge_without_id {buf : Bytes} (hid : resolvedID e path w.server = none) :
    writeHuge e path buf 0 w =
      (.ok (-ENOMEM), sendAll e (uploadIDRequests e path w.server) w) := by
  rw [writeHuge, Exec.bind_of_ok (sia_bus_get_uploadid_apply e path w), hid]
  rfl

theorem Gathered.first (hR : e.host.Reliable) (hH : e.hugeFiles = true) (hN : Named e w)
    (hlast : ∀ last, w.uploads.getLast? = some last → last.name ≠ path)
    (h0 : x.offset = 0) (hsmall : e.small ≤ x.data.length)
    (hrun : perform e (.write path x.data x.offset) w = (.ok (.status x.data.length), w')) :
    ∃ u st, Gathered e w.trace path [x] w' u st := by
  have hwrite := siafs_write_of_perform hrun
  rw [h0, siafs_write_huge hH (by omega)] at hwrite
  cases hid : resolvedID e path w.server with
  | none =>
    rw [writeHuge_without_id hid] at hwrite
    have hcode : (-ENOMEM : Int) = x.data.length := Except.ok.inj (Prod.mk.inj hwrite).1
    unfold ENOMEM at hcode
    omega
  | some id =>
    obtain ⟨w₁, fn, hfirst, hstart⟩ := writeHuge_started hR hN hid x.data
    rw [hfirst] at hwrite
    cases hwrite
    refine ⟨_, _, hstart.named, hstart.stages_self hlast, fun s => ?_⟩
    have hslot : x.offset / e.geometry.partSize = 0 := by rw [h0, Nat.zero_div]
    by_cases hs : s = 0
    · subst hs
      rw [Function.update_self]
      have hmine : inSlot e.geometry [x] 0 = [x] := by
        have : inSlot e.geometry ([] ++ [x]) (x.offset / e.geometry.partSize) = [x] :=
          inSlot_concat_self
        rwa [hslot] at this
      rw [hmine]
      refine .filling ⟨x, List.mem_singleton_self x, by rw [h0, Nat.zero_mul]⟩ (fun y hy => ?_)
        (congrArg some (List.flatMap_singleton _ _).symm) rfl
      rw [List.mem_singleton.mp hy, h0]
      exact e.geometry.not_pushes_zero _
    · rw [Function.update_of_ne hs]
      have : inSlot e.geometry ([] ++ [x]) s = [] := inSlot_concat_ne (hslot ▸ hs)
      have hnone : inSlot e.geometry [x] s = [] := this
      rw [hnone]
      exact .untouched rfl

/-- One more write that returns its size. -/
theorem Gathered.next (hR : e.host.Reliable) (hH : e.hugeFiles = true)
    (h : Gathered e base path ws w u st) (h0 : x.offset ≠ 0) (hapart : ∀ y ∈ ws, y.Apart x)
    (hne : x.data ≠ [] ∧ ∀ y ∈ ws, y.data ≠ []) (hplace : InPlace e.geometry ws x)
    (hrun : perform e (.write path x.data x.offset) w = (.ok (.status x.data.length), w')) :
    ∃ u' st', Gathered e base path (ws ++ [x]) w' u' st' := by
  have hwrite := siafs_write_of_perform hrun
  rw [siafs_write_huge hH fun hz => h0 hz.1] at hwrite
  obtain ⟨hs, b, ans, hb, hans⟩ := writeHuge_returns hR h.named h.stages h0 hwrite
  obtain ⟨w₁, u', hstep, hwrote, -, hst⟩ := writeHuge_step hR h.named h.stages h0 hs hb hans
  rw [hstep] at hwrite
  obtain ⟨hstatus, rfl⟩ := Prod.mk.inj hwrite
  have hstatus : writeStatus e x.offset x.data.length ans = x.data.length := Except.ok.inj hstatus
  refine ⟨u', _, hwrote.named, hst, Collected.write h.slots hapart hne hplace hb fun hp hnone => ?_⟩
  rw [writeStatus, if_pos ⟨hp, hnone⟩] at hstatus
  unfold EIO at hstatus
  omega

theorem writesOf_cons {after : List (Extent UInt8)}
    (h : Exec.runAll (perform e) (writesOf path (x :: after)) w = (.ok (sizesOf (x :: after)), w')) :
    ∃ w₁, perform e (.write path x.data x.offset) w = (.ok (.status x.data.length), w₁) ∧
      Exec.runAll (perform e) (writesOf path after) w₁ = (.ok (sizesOf after), w') := by
  obtain ⟨a, w₁, hx, hrest⟩ := Exec.bind_eq_ok h
  obtain ⟨as, w₂, hafter, hend⟩ := Exec.bind_eq_ok hrest
  obtain ⟨hlist, rfl⟩ := Prod.mk.inj hend
  obtain ⟨rfl, rfl⟩ := List.cons.inj (Except.ok.inj hlist)
  exact ⟨w₁, hx, hafter⟩

theorem gathered_run (hR : e.host.Reliable) (hH : e.hugeFiles = true) {after : List (Extent UInt8)}
    (h : Gathered e base path ws w u st) (h0 : ∀ y ∈ after, y.offset ≠ 0)
    (hapart : (ws ++ after).Pairwise Extent.Apart) (hne : ∀ y ∈ ws ++ after, y.data ≠ [])
    (hplace : AllInPlace e.geometry ws after)
    (hrun : Exec.runAll (perform e) (writesOf path after) w = (.ok (sizesOf after), w')) :
    ∃ u' st', Gathered e base path (ws ++ after) w' u' st' := by
  induction after generalizing ws w u st with
  | nil =>
    cases hrun
    exact ⟨u, st, by rwa [List.append_nil]⟩
  | cons x after ih =>
    obtain ⟨w₁, hx, hafter⟩ := writesOf_cons hrun
    have hsplit : ws ++ x :: after = (ws ++ [x]) ++ after := by simp
    obtain ⟨-, -, hcross⟩ := List.pairwise_append.mp hapart
    obtain ⟨u₁, st₁, h₁⟩ := h.next hR hH (h0 x List.mem_cons_self)
      (fun y hy => hcross y hy x List.mem_cons_self)
      ⟨hne x (by simp), fun y hy => hne y (List.mem_append_left _ hy)⟩ hplace.1 hx
    rw [hsplit] at hapart hne ⊢
    exact ih h₁ (fun y hy => h0 y (List.mem_cons_of_mem _ hy)) hapart hne hplace.2 hafter

/-- In every run of writes that are apart, come in place and return their sizes,
each recorded part was last pushed as exactly what was written of it so far. -/
theorem parts_exact (hR : e.host.Reliable) (hH : e.hugeFiles = true) (hN : Named e w)
    (hlast : ∀ last, w.uploads.getLast? = some last → last.name ≠ path)
    (h0 : x.offset = 0) (hsmall : e.small ≤ x.data.length) (hne : ∀ y ∈ ws, y.data ≠ [])
    (hapart : (x :: ws).Pairwise Extent.Apart) (hplace : AllInPlace e.geometry [] (x :: ws))
    (hrun : Exec.runAll (perform e) (writesOf path (x :: ws)) w = (.ok (sizesOf (x :: ws)), w')) :
    PartsExact e path (x :: ws) w w' := by
  have hxne : x.data ≠ [] := by
    intro hnil
    rw [hnil] at hsmall
    exact absurd hsmall (Nat.not_le.mpr e.small_pos)
  have hall : ∀ y ∈ x :: ws, y.data ≠ [] := List.forall_mem_cons.mpr ⟨hxne, hne⟩
  obtain ⟨hx, -⟩ := List.pairwise_cons.mp hapart
  have hlater : ∀ y ∈ ws, y.offset ≠ 0 := by
    intro y hy hz
    have hap := hx y hy
    have hxlen := List.length_pos_of_ne_nil hxne
    have hylen := List.length_pos_of_ne_nil (hne y hy)
    unfold Extent.Apart Extent.stop at hap
    omega
  obtain ⟨w₁, hfirst, hafter⟩ := writesOf_cons hrun
  obtain ⟨u₁, st₁, h₁⟩ := Gathered.first hR hH hN hlast h0 hsmall hfirst
  obtain ⟨u, st, h⟩ := gathered_run hR hH h₁ hlater hapart hall hplace.2 hafter
  rw [List.singleton_append] at h
  obtain ⟨t, ht, hputs⟩ := h.stages.puts
  refine ⟨u, t, h.stages.found, ht, fun s hs => ?_⟩
  rw [h.stages.tag] at hs
  have hslot := h.slots s
  rw [hputs]
  generalize st s = slot at hs hslot ⊢
  cases hslot with
  | untouched => exact absurd rfl hs
  | filling _ _ _ hputs => exact absurd (congrArg (Option.map Prod.snd) (Slot.part_of_puts_nil hputs)) hs
  | @pushed slot tag hstart _ hin hord hputs =>
    refine ⟨some tag, ?_⟩
    rw [hputs, ← span_inSlot hapart hall hstart hin hord]
    rfl

/-- One block of zeros, and single bytes behind it. -/
def zeroBlock : Extent UInt8 := ⟨0, List.replicate 131072 0⟩

def byteAt (offset : Nat) (b : UInt8) : Extent UInt8 := ⟨offset, [b]⟩

theorem zeroBlock_length : zeroBlock.data.length = 131072 := List.length_replicate

theorem zeroBlock_stop : zeroBlock.stop = 131072 := by
  rw [Extent.stop, zeroBlock_length]
  rfl

theorem Session.perform_write {view : σ → Bucket} (hB : Backend e.server view fun _ => False)
    (hR : e.host.Reliable) (hH : e.hugeFiles = true) (h : Session e view base w path u st)
    {offset : Nat} {b : Bytes} (h0 : offset ≠ 0) (hs : offset / e.partBytes < SIA_MAX_PARTS)
    (hb : e.geometry.found st offset = some b) (buf : Bytes) :
    ∃ w' u' ans, perform e (.write path buf offset) w = (.ok (.status buf.length), w') ∧
      (e.geometry.pushes offset buf.length → ans ≠ none) ∧
      Session e view base w' path u' (Function.update st (offset / e.partBytes)
        (e.geometry.settle (st (offset / e.partBytes)) offset buf.length (b ++ buf) ans)) := by
  obtain ⟨w', u', ans, hrun, hrej, -, -, -, hS⟩ := h.write hB hR h0 hs hb buf
  have hans : e.geometry.pushes offset buf.length → ans ≠ none := fun hp hnone => (hrej hp).mp hnone
  rw [writeStatus, if_neg fun hz => hans hz.1 hz.2] at hrun
  exact ⟨w', u', ans, perform_writeHuge hH (fun hz => h0 hz.1) hrun, hans, hS⟩

/-- A block and the byte behind it, which pushes the part. -/
theorem block_and_byte_pushed :
    ∃ w' u t, Exec.runAll (perform hugeMount) (writesOf (lit "/f") [zeroBlock, byteAt 131072 0])
        (mounted Store.blank none) = (.ok (sizesOf [zeroBlock, byteAt 131072 0]), w') ∧
      Session hugeMount Store.view [] w' (lit "/f") u
        (Function.update (firstSlots zeroBlock.data) 0
          ((Slot.empty.hold zeroBlock.data).push (zeroBlock.data ++ [0]) (some t) false)) := by
  have hr := mounted_ready hugeMount (lit "/f")
  obtain ⟨w₁, u₁, fn, hfirst, -, -, -, hS₁⟩ :=
    Session.start renterd_accepts plainHost_reliable hr.named hr.last hr.idle zeroBlock.data
  have hlen : ¬ (0 = 0 ∧ zeroBlock.data.length < hugeMount.small) := by
    rw [zeroBlock_length]
    decide
  have hblock : perform hugeMount (.write (lit "/f") zeroBlock.data zeroBlock.offset)
      (mounted Store.blank none) = (.ok (.status zeroBlock.data.length), w₁) :=
    perform_writeHuge rfl hlen hfirst
  have hfound : hugeMount.geometry.found (firstSlots zeroBlock.data) 131072 =
      some zeroBlock.data := rfl
  obtain ⟨w₂, u₂, ans, hsecond, hans, hS₂⟩ :=
    hS₁.perform_write renterd_accepts plainHost_reliable rfl (by decide) (by decide) hfound [0]
  have hp : hugeMount.geometry.pushes 131072 [(0 : UInt8)].length := by decide
  obtain ⟨t, rfl⟩ := Option.ne_none_iff_exists'.mp (hans hp)
  have hslot : 131072 / hugeMount.partBytes = 0 := by decide
  have hheld : firstSlots zeroBlock.data 0 = Slot.empty.hold zeroBlock.data :=
    Function.update_self _ _ _
  rw [hugeMount.geometry.settle_of_pushes hp, hslot, hheld] at hS₂
  exact ⟨w₂, u₂, t,
    Exec.runAll_cons_ok hblock (Exec.runAll_cons_ok hsecond (Exec.runAll_nil w₂)), hS₂⟩

theorem parts_exact_block_and_byte :
    ∃ w', PartsExact hugeMount (lit "/f") [zeroBlock, byteAt 131072 0]
      (mounted Store.blank none) w' := by
  obtain ⟨w', u, t, hrun, -⟩ := block_and_byte_pushed
  have hr := mounted_ready hugeMount (lit "/f")
  have hmem : ∀ s, ∀ y ∈ inSlot hugeMount.geometry ([zeroBlock] ++ [byteAt 131072 0]) s,
      y = zeroBlock ∨ y = byteAt 131072 0 := by
    intro s y hy
    simpa using (mem_inSlot.mp hy).1
  refine ⟨w', parts_exact (e := hugeMount) plainHost_reliable rfl hr.named hr.last rfl
    (by rw [zeroBlock_length]; decide) (fun y hy => ?_) ?_ ⟨⟨nofun, ?_, ?_⟩, ⟨?_, ?_, ?_⟩, trivial⟩ hrun⟩
  · rw [List.mem_singleton.mp hy]
    exact List.cons_ne_nil _ _
  · simp [Extent.Apart, zeroBlock_stop, byteAt]
  · exact fun hp => absurd hp (hugeMount.geometry.not_pushes_zero _)
  · exact fun hp => absurd hp (hugeMount.geometry.not_pushes_zero _)
  · intro y hy
    rw [List.mem_singleton.mp (mem_inSlot.mp hy).1]
    exact hugeMount.geometry.not_pushes_zero _
  · intro _ y hy
    rcases hmem _ y hy with rfl | rfl
    · rw [zeroBlock_stop]
      decide
    · decide
  · intro _
    apply List.Pairwise.filter
    refine List.pairwise_cons.mpr ⟨fun z hz => ?_, List.pairwise_singleton _ _⟩
    rw [List.mem_singleton.mp hz]
    show 0 < 131072
    omega

/-- The byte after a pushed one makes a part of its own. -/
theorem second_byte_replaces_part :
    List.Pairwise Extent.Apart [zeroBlock, byteAt 131072 0, byteAt 131073 1] ∧ ∃ w', Exec.runAll (perform hugeMount)
        (writesOf (lit "/f") [zeroBlock, byteAt 131072 0, byteAt 131073 1])
        (mounted Store.blank none) =
          (.ok (sizesOf [zeroBlock, byteAt 131072 0, byteAt 131073 1]), w') ∧
      ¬ PartsExact hugeMount (lit "/f") [zeroBlock, byteAt 131072 0, byteAt 131073 1]
        (mounted Store.blank none) w' := by
  have hapart : ∀ o b, 131072 ≤ o → zeroBlock.Apart (byteAt o b) := fun o b h =>
    Or.inl (by rw [zeroBlock_stop]; exact h)
  refine ⟨List.Pairwise.cons (fun y hy => ?_)
    (List.pairwise_pair.mpr (Or.inl (Nat.le_refl 131073))), ?_⟩
  · rcases List.mem_cons.mp hy with rfl | hy
    · exact hapart _ _ (Nat.le_refl _)
    · rw [List.mem_singleton.mp hy]
      exact hapart _ _ (by omega)
  obtain ⟨w₂, u₂, t, hrun, hS₂⟩ := block_and_byte_pushed
  have hslot : 131073 / hugeMount.partBytes = 0 := by decide
  have hfound : hugeMount.geometry.found (Function.update (firstSlots zeroBlock.data) 0
      ((Slot.empty.hold zeroBlock.data).push (zeroBlock.data ++ [0]) (some t) false)) 131073 =
        some [] := by
    rw [found_eq, if_neg (by decide), hslot, Function.update_self]
    rfl
  obtain ⟨w₃, u₃, ans, hthird, hans, hS₃⟩ :=
    hS₂.perform_write renterd_accepts plainHost_reliable rfl (by decide) (by decide) hfound [1]
  have hp : hugeMount.geometry.pushes 131073 [(1 : UInt8)].length := by decide
  obtain ⟨t', rfl⟩ := Option.ne_none_iff_exists'.mp (hans hp)
  rw [hugeMount.geometry.settle_of_pushes hp, hslot] at hS₃
  have hrun₃ := Exec.runAll_append_ok hrun (Exec.runAll_cons_ok hthird (Exec.runAll_nil w₃))
  have hops : writesOf (lit "/f") [zeroBlock, byteAt 131072 0, byteAt 131073 1] =
      writesOf (lit "/f") [zeroBlock, byteAt 131072 0] ++ [.write (lit "/f") [1] 131073] := rfl
  have hsizes : sizesOf [zeroBlock, byteAt 131072 0, byteAt 131073 1] =
      sizesOf [zeroBlock, byteAt 131072 0] ++ [.status [(1 : UInt8)].length] := rfl
  rw [hops, hsizes]
  refine ⟨w₃, hrun₃, ?_⟩
  rintro ⟨u, tr, hu, htr, hall⟩
  rw [hS₃.stages.found] at hu
  cases hu
  obtain ⟨tr', htr', hputs⟩ := hS₃.stages.puts
  obtain rfl : tr = tr' := List.append_cancel_left (htr.symm.trans htr')
  have hslots : (firstSlot : Nat) = 0 := rfl
  have htag : (u₃.part firstSlot).etag = some t' := by
    rw [hS₃.stages.tag, hslots, Function.update_self]
    exact congrArg (Option.map Prod.snd) (Slot.push_part_some _ _ _ _)
  obtain ⟨ans, hlast⟩ := hall firstSlot (by rw [htag]; exact Option.some_ne_none t')
  rw [hputs, hslots, Function.update_self, Slot.push_puts, List.getLast?_concat] at hlast
  obtain ⟨hbody, -⟩ := Prod.mk.inj (Option.some.inj hlast)
  have hfirst : span [zeroBlock, byteAt 131072 0, byteAt 131073 1] 0 1 = [0] := rfl
  have hparts : hugeMount.partBytes = 1 + 134217727 := by decide
  rw [Nat.zero_mul, hparts, span_append, hfirst] at hbody
  exact absurd (List.cons.inj hbody).1 (by decide)

end SiaFS
