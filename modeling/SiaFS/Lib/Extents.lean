/-
Data written at offsets.

An extent is a run of elements that starts at an offset.  `span ws lo n` reads
the `n` positions from `lo` on, whatever the order the extents `ws` were written
in.  Extents that are apart and in order read back as what was written, one
after another; of extents of whole blocks the last of each block reads back.
-/
import Mathlib.Data.List.Basic
import Mathlib.Data.List.Induction
import Mathlib.Data.List.Pairwise

namespace Extents

variable {α : Type}

structure Extent (α : Type) where
  offset : Nat
  data : List α

/-- The first position behind an extent. -/
def Extent.stop (x : Extent α) : Nat := x.offset + x.data.length

/-- The element at a position. -/
def Extent.read (x : Extent α) (i : Nat) : Option α :=
  if x.offset ≤ i then x.data[i - x.offset]? else none

/-- Neither extent reaches into the other. -/
def Extent.Apart (x y : Extent α) : Prop := x.stop ≤ y.offset ∨ y.stop ≤ x.offset

instance : Std.Symm (Extent.Apart (α := α)) := ⟨fun _ _ => Or.symm⟩

def read (ws : List (Extent α)) (i : Nat) : Option α := ws.findSome? fun x => x.read i

/-- The elements at the `n` positions from `lo` on, in order. -/
def span (ws : List (Extent α)) (lo n : Nat) : List α := (List.range' lo n).filterMap (read ws)

theorem Extent.read_eq_none {x : Extent α} {i : Nat} (h : i < x.offset ∨ x.stop ≤ i) :
    x.read i = none := by
  unfold Extent.read
  split
  · apply List.getElem?_eq_none
    unfold Extent.stop at h
    omega
  · rfl

theorem read_cons (x : Extent α) (ws : List (Extent α)) (i : Nat) :
    read (x :: ws) i = (x.read i).or (read ws i) := by
  unfold read
  rw [List.findSome?_cons]
  cases x.read i <;> rfl

theorem read_eq_none {ws : List (Extent α)} {i : Nat}
    (h : ∀ x ∈ ws, i < x.offset ∨ x.stop ≤ i) : read ws i = none := by
  apply List.findSome?_eq_none_iff.mpr
  intro x hx
  exact Extent.read_eq_none (h x hx)

theorem filterMap_getElem? (l : List α) :
    (List.range l.length).filterMap (fun k => l[k]?) = l := by
  induction l with
  | nil => rfl
  | cons a l ih =>
    rw [List.length_cons, List.range_succ_eq_map]
    show a :: (List.map Nat.succ _).filterMap _ = a :: l
    rw [List.filterMap_map]
    exact congrArg (List.cons a) ih

/-- An extent alone reads back as its data. -/
theorem Extent.filterMap_read (x : Extent α) :
    (List.range' x.offset x.data.length).filterMap x.read = x.data := by
  rw [List.range'_eq_map_range, List.filterMap_map]
  refine Eq.trans (List.filterMap_congr fun k hk => ?_) (filterMap_getElem? x.data)
  show x.read (x.offset + k) = x.data[k]?
  unfold Extent.read
  rw [if_pos (Nat.le_add_right _ _), Nat.add_sub_cancel_left]

theorem span_append (ws : List (Extent α)) (lo m n : Nat) :
    span ws lo (m + n) = span ws lo m ++ span ws (lo + m) n := by
  unfold span
  rw [← List.range'_append_1, List.filterMap_append]

theorem span_congr {ws ws' : List (Extent α)} {lo n : Nat}
    (h : ∀ i, lo ≤ i → i < lo + n → read ws i = read ws' i) : span ws lo n = span ws' lo n := by
  apply List.filterMap_congr
  intro i hi
  have hi := List.mem_range'_1.mp hi
  exact h i hi.1 hi.2

theorem span_eq_nil {ws : List (Extent α)} {lo n : Nat}
    (h : ∀ x ∈ ws, lo + n ≤ x.offset ∨ x.stop ≤ lo) : span ws lo n = [] := by
  apply List.filterMap_eq_nil_iff.mpr
  intro i hi
  have hi := List.mem_range'_1.mp hi
  apply read_eq_none
  intro x hx
  have := h x hx
  omega

/-- Extents that reach no position of the span can be left out. -/
theorem span_filter {ws : List (Extent α)} {lo n : Nat} (q : Extent α → Bool)
    (h : ∀ x ∈ ws, q x = false → lo + n ≤ x.offset ∨ x.stop ≤ lo) :
    span (ws.filter q) lo n = span ws lo n := by
  apply span_congr
  intro i hlo hhi
  induction ws with
  | nil => rfl
  | cons x ws ih =>
    have ih := ih fun y hy => h y (List.mem_cons_of_mem _ hy)
    cases hq : q x with
    | true => rw [List.filter_cons_of_pos hq, read_cons, read_cons, ih]
    | false =>
      have hnone : x.read i = none := by
        apply Extent.read_eq_none
        have := h x List.mem_cons_self hq
        omega
      rw [List.filter_cons_of_neg (by rw [hq]; exact Bool.false_ne_true), read_cons, hnone, ih]
      rfl

/-- Extents in order, each behind the one before, read back as they were
written. -/
theorem span_ordered {ws : List (Extent α)} {lo n : Nat}
    (hord : ws.Pairwise fun x y => x.stop ≤ y.offset)
    (hin : ∀ x ∈ ws, lo ≤ x.offset ∧ x.stop ≤ lo + n) :
    span ws lo n = ws.flatMap Extent.data := by
  induction ws generalizing lo n with
  | nil => exact span_eq_nil nofun
  | cons x ws ih =>
    obtain ⟨hlo, hhi⟩ := hin x List.mem_cons_self
    obtain ⟨hx, hws⟩ := List.pairwise_cons.mp hord
    have hstop : x.stop = x.offset + x.data.length := rfl
    -- The span is cut before and behind `x`.
    have hbefore : span (x :: ws) lo (x.offset - lo) = [] := by
      apply span_eq_nil
      intro y hy
      rcases List.mem_cons.mp hy with rfl | hy
      · omega
      · have := hx y hy
        omega
    have hself : span (x :: ws) x.offset x.data.length = x.data := by
      refine Eq.trans (List.filterMap_congr fun i hi => ?_) x.filterMap_read
      have hi := List.mem_range'_1.mp hi
      have hnone : read ws i = none := by
        apply read_eq_none
        intro y hy
        have := hx y hy
        omega
      rw [read_cons, hnone, Option.or_none]
    have hafter : span (x :: ws) x.stop (lo + n - x.stop) = ws.flatMap Extent.data := by
      have htail : span ws x.stop (lo + n - x.stop) = ws.flatMap Extent.data := by
        apply ih hws
        intro y hy
        have := (hin y (List.mem_cons_of_mem _ hy)).2
        exact ⟨hx y hy, by omega⟩
      rw [← htail]
      apply span_congr
      intro i hi _
      rw [read_cons, Extent.read_eq_none (Or.inr hi)]
      rfl
    calc span (x :: ws) lo n
        = span (x :: ws) lo ((x.offset - lo) + (x.data.length + (lo + n - x.stop))) := by
          congr 1
          omega
      _ = span (x :: ws) lo (x.offset - lo) ++ (span (x :: ws) x.offset x.data.length ++
            span (x :: ws) x.stop (lo + n - x.stop)) := by
          rw [span_append, span_append, show lo + (x.offset - lo) = x.offset by omega, hstop]
      _ = (x :: ws).flatMap Extent.data := by
          rw [hbefore, hself, hafter]
          rfl

/-! ## Blocks of one length

Where the whole of a block is replaced by each extent that starts in it, a block
holds the data of the last one. -/

/-- The data of the last extent that starts in a block. -/
def lastIn (n : Nat) (ws : List (Extent α)) (s : Nat) : Option (List α) :=
  ((ws.filter fun x => x.offset / n = s).getLast?).map Extent.data

theorem lastIn_concat (n : Nat) (ws : List (Extent α)) (x : Extent α) (s : Nat) :
    lastIn n (ws ++ [x]) s = if x.offset / n = s then some x.data else lastIn n ws s := by
  unfold lastIn
  rw [List.filter_append]
  by_cases h : x.offset / n = s
  · simp [h]
  · simp [h]

/-- Extents that begin blocks, none longer than a block, and none shorter than
one before it in the same block. -/
structure Blockwise (n : Nat) (ws : List (Extent α)) : Prop where
  aligned : ∀ x ∈ ws, n ∣ x.offset
  fits : ∀ x ∈ ws, x.data.length ≤ n
  grows : ws.Pairwise fun x y => x.offset = y.offset → x.data.length ≤ y.data.length

theorem Blockwise.init {n : Nat} {ws : List (Extent α)} {x : Extent α}
    (h : Blockwise n (ws ++ [x])) : Blockwise n ws where
  aligned y hy := h.aligned y (List.mem_append_left _ hy)
  fits y hy := h.fits y (List.mem_append_left _ hy)
  grows := (List.pairwise_append.mp h.grows).1

/-- The last extent of a block reads back, and nothing of the others. -/
theorem Blockwise.span_block {n : Nat} (hn : 0 < n) {ws : List (Extent α)} (h : Blockwise n ws)
    (s : Nat) : span ws.reverse (s * n) n = (lastIn n ws s).getD [] := by
  induction ws using List.reverseRecOn with
  | nil => exact span_eq_nil fun x hx => absurd hx List.not_mem_nil
  | append_singleton ws x ih =>
    have ih := ih h.init
    have hx : x ∈ ws ++ [x] := by simp
    obtain ⟨t, ht⟩ := h.aligned x hx
    have hstart : x.offset = t * n := by rw [ht, Nat.mul_comm]
    have hdiv : x.offset / n = t := by rw [hstart, Nat.mul_div_cancel _ hn]
    have hfit := h.fits x hx
    have hstop : x.stop = x.offset + x.data.length := rfl
    rw [List.reverse_append, List.reverse_singleton, List.singleton_append, lastIn_concat, hdiv]
    by_cases hts : t = s
    · -- The new extent is at least as long as the earlier ones of its block.
      subst hts
      have hself : span (x :: ws.reverse) (t * n) x.data.length = x.data := by
        rw [← hstart]
        refine Eq.trans (List.filterMap_congr fun i hi => ?_) x.filterMap_read
        have hi := List.mem_range'_1.mp hi
        have hlt : i - x.offset < x.data.length := by omega
        have hsome : x.read i = some x.data[i - x.offset] := by
          rw [Extent.read, if_pos hi.1, List.getElem?_eq_getElem hlt]
        rw [read_cons, hsome]
        rfl
      have hrest : span (x :: ws.reverse) (t * n + x.data.length) (n - x.data.length) = [] := by
        refine span_eq_nil fun y hy => ?_
        rcases List.mem_cons.mp hy with rfl | hy
        · exact Or.inr (by omega)
        · have hyws := List.mem_reverse.mp hy
          obtain ⟨r, hr⟩ := h.init.aligned y hyws
          have hyfit := h.init.fits y hyws
          have hystop : y.stop = y.offset + y.data.length := rfl
          rcases Nat.lt_trichotomy r t with hlt | rfl | hgt
          · have : (r + 1) * n ≤ t * n := Nat.mul_le_mul_right n hlt
            rw [Nat.succ_mul, Nat.mul_comm r n] at this
            omega
          · have hle := (List.pairwise_append.mp h.grows).2.2 y hyws x (by simp)
              (by rw [hr, ht])
            omega
          · have : (t + 1) * n ≤ r * n := Nat.mul_le_mul_right n hgt
            rw [Nat.succ_mul, Nat.mul_comm r n] at this
            omega
      have hcut : n = x.data.length + (n - x.data.length) := by omega
      rw [if_pos rfl, Option.getD_some]
      calc span (x :: ws.reverse) (t * n) n
          = span (x :: ws.reverse) (t * n) (x.data.length + (n - x.data.length)) := by rw [← hcut]
        _ = x.data := by rw [span_append, hself, hrest, List.append_nil]
    · rw [if_neg hts, ← ih]
      refine span_congr fun i hlo hhi => ?_
      have hnone : x.read i = none := by
        apply Extent.read_eq_none
        rcases Nat.lt_or_gt_of_ne hts with hlt | hgt
        · have : (t + 1) * n ≤ s * n := Nat.mul_le_mul_right n hlt
          rw [Nat.succ_mul] at this
          omega
        · have : (s + 1) * n ≤ t * n := Nat.mul_le_mul_right n hgt
          rw [Nat.succ_mul] at this
          omega
      rw [read_cons, hnone]
      rfl

/-- The blocks joined are what a reader finds, the last extent over the earlier
ones. -/
theorem Blockwise.span_blocks {n : Nat} (hn : 0 < n) {ws : List (Extent α)}
    (h : Blockwise n ws) (k : Nat) :
    (List.range k).flatMap (fun s => (lastIn n ws s).getD []) = span ws.reverse 0 (k * n) := by
  induction k with
  | zero => rw [Nat.zero_mul]; rfl
  | succ k ih =>
    rw [List.range_succ, List.flatMap_append, ih, List.flatMap_singleton, Nat.succ_mul,
      span_append, Nat.zero_add, h.span_block hn]

/-- No position before one that is written is left out. -/
def Solid (ws : List (Extent α)) : Prop :=
  ∀ i j, i ≤ j → read ws i = none → read ws j = none

theorem length_span_le (ws : List (Extent α)) (lo n : Nat) : (span ws lo n).length ≤ n :=
  Nat.le_trans (List.length_filterMap_le _ _) (Nat.le_of_eq List.length_range')

theorem Solid.span_eq_nil {ws : List (Extent α)} (h : Solid ws) {i lo : Nat} (hi : i ≤ lo)
    (hnone : read ws i = none) (n : Nat) : span ws lo n = [] := by
  apply List.filterMap_eq_nil_iff.mpr
  intro j hj
  have hj := List.mem_range'_1.mp hj
  exact h i j (by omega) hnone

theorem Solid.length_span {ws : List (Extent α)} (h : Solid ws) {lo n : Nat}
    (hlast : read ws (lo + n) ≠ none) : (span ws lo n).length = n := by
  unfold span
  rw [List.length_filterMap_eq_countP, List.countP_eq_length.mpr, List.length_range']
  intro i hi
  have hi := List.mem_range'_1.mp hi
  exact Option.isSome_iff_ne_none.mpr fun hnone => hlast (h i _ (Nat.le_of_lt hi.2) hnone)

/-- A range of what is written without holes is what is written in the range. -/
theorem Solid.drop_take {ws : List (Extent α)} (h : Solid ws) {top : Nat}
    (htop : ∀ x ∈ ws, x.stop ≤ top) (lo n : Nat) :
    ((span ws 0 top).drop lo).take n = span ws lo n := by
  have hend : ∀ i, top ≤ i → read ws i = none := fun i hi =>
    read_eq_none fun x hx => Or.inr (Nat.le_trans (htop x hx) hi)
  have hbehind : ∀ m, span ws top m = [] := h.span_eq_nil (Nat.le_refl _) (hend top (Nat.le_refl _))
  -- the span may as well end behind the range
  have hlong : span ws 0 top = span ws 0 (lo + n + top) := by
    rw [Nat.add_comm, span_append, Nat.zero_add, hbehind, List.append_nil]
  rw [hlong, Nat.add_assoc, span_append, span_append, Nat.zero_add]
  by_cases hlo : read ws lo = none
  · rw [h.span_eq_nil (Nat.le_refl lo) hlo, h.span_eq_nil (Nat.le_add_right lo n) hlo,
      List.append_nil, List.append_nil, List.drop_eq_nil_of_le (length_span_le _ _ _),
      List.take_nil]
  · have hlen : (span ws 0 lo).length = lo := h.length_span (by rwa [Nat.zero_add])
    rw [List.drop_left' hlen]
    by_cases hn : read ws (lo + n) = none
    · rw [h.span_eq_nil (Nat.le_refl _) hn, List.append_nil]
      exact List.take_of_length_le (length_span_le _ _ _)
    · exact List.take_left' (h.length_span hn)

end Extents
