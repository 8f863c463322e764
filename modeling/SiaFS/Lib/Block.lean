/-
Blocks of memory from an allocator.

A block is as long as what was asked for, and an element of it is `none` until it is
written.  `copyIn` is defined only inside the block.  A text that is built in a block,
piece behind piece with a terminator after each, stays inside exactly when the block
is as long as all pieces together and the terminator.
-/
import Mathlib.Data.List.Basic

namespace Memory

abbrev Block (α : Type) := List (Option α)

variable {α : Type}

def malloc (n : Nat) : Block α := List.replicate n none

/-- `calloc`, of elements that are `zero`. -/
def calloc (zero : α) (n : Nat) : Block α := List.replicate n (some zero)

/-- `realloc`, which keeps what fits. -/
def realloc (b : Block α) (n : Nat) : Block α := b.take n ++ List.replicate (n - b.length) none

/-- `memcpy(&b[i], src, n)` -/
def copyIn (b : Block α) (i : Nat) (src : List α) : Option (Block α) :=
  if i + src.length ≤ b.length then
    some (b.take i ++ src.map some ++ b.drop (i + src.length))
  else none

variable {b rest : Block α} {src : List α} {i n : Nat} {zero : α}

@[simp] theorem length_malloc (n : Nat) : (malloc n : Block α).length = n := List.length_replicate

@[simp] theorem length_calloc (zero : α) (n : Nat) : (calloc zero n).length = n :=
  List.length_replicate

theorem copyIn_eq_none (h : b.length < i + src.length) : copyIn b i src = none :=
  if_neg (Nat.not_le.mpr h)

theorem copyIn_isSome : (copyIn b i src).isSome ↔ i + src.length ≤ b.length := by
  unfold copyIn
  split
  · rename_i h
    exact ⟨fun _ => h, fun _ => rfl⟩
  · rename_i h
    constructor
    · intro hsome
      cases hsome
    · intro hle
      exact absurd hle h

theorem length_copyIn {b' : Block α} (h : copyIn b i src = some b') : b'.length = b.length := by
  have hle : i + src.length ≤ b.length := copyIn_isSome.mp (by rw [h]; rfl)
  rw [copyIn, if_pos hle] at h
  cases h
  simp only [List.length_append, List.length_take, List.length_drop, List.length_map]
  omega

/-- A copy to the place behind what is there. -/
theorem copyIn_behind {front : Block α} (hi : i = front.length) (h : src.length ≤ rest.length) :
    copyIn (front ++ rest) i src =
      some (front ++ src.map some ++ rest.drop src.length) := by
  subst hi
  rw [copyIn, if_pos (by rw [List.length_append]; omega), List.take_left, List.drop_append,
    List.drop_eq_nil_of_le (Nat.le_add_right _ _), List.nil_append, Nat.add_sub_cancel_left]

/-- A longer block begins with what the shorter one held. -/
theorem realloc_append {front : Block α} {last : Option α} (h : front.length + 1 ≤ n) :
    realloc (front ++ [last]) n =
      front ++ (last :: List.replicate (n - (front.length + 1)) none) := by
  rw [realloc, List.take_of_length_le (by rw [List.length_append]; exact h),
    List.length_append, List.length_singleton, List.append_assoc]
  rfl

/-! ## Building a text -/

/-- A block and the text that has been built in it. -/
structure Built (α : Type) where
  block : Block α
  text : List α

/-- `strcpy` for the first piece, `strcat` for the others. -/
def Built.append (terminator : α) (s : Built α) (piece : List α) : Option (Built α) :=
  (copyIn s.block s.text.length (piece ++ [terminator])).map fun block =>
    ⟨block, s.text ++ piece⟩

def build (terminator : α) (b : Block α) (pieces : List (List α)) : Option (Built α) :=
  pieces.foldlM (Built.append terminator) ⟨b, []⟩

theorem append_eq_some {terminator : α} {s s' : Built α} {piece : List α}
    (h : s.append terminator piece = some s') :
    s'.text = s.text ++ piece ∧ s'.block.length = s.block.length ∧
      s.text.length + piece.length + 1 ≤ s.block.length := by
  obtain ⟨block, hcopy, rfl⟩ := Option.map_eq_some_iff.mp h
  have hle := copyIn_isSome.mp (show (copyIn s.block s.text.length _).isSome by rw [hcopy]; rfl)
  rw [List.length_append, List.length_singleton] at hle
  exact ⟨rfl, length_copyIn hcopy, hle⟩

theorem append_isSome {terminator : α} {s : Built α} {piece : List α}
    (h : s.text.length + piece.length + 1 ≤ s.block.length) :
    ∃ s', s.append terminator piece = some s' := by
  have hcopy : (copyIn s.block s.text.length (piece ++ [terminator])).isSome := by
    rw [copyIn_isSome, List.length_append, List.length_singleton]
    exact h
  obtain ⟨block, hblock⟩ := Option.isSome_iff_exists.mp hcopy
  exact ⟨_, by rw [Built.append, hblock]; rfl⟩

theorem foldlM_append_isSome {terminator : α} (pieces : List (List α)) (s : Built α) :
    (pieces.foldlM (Built.append terminator) s).isSome ↔
      pieces = [] ∨ s.text.length + pieces.flatten.length + 1 ≤ s.block.length := by
  induction pieces generalizing s with
  | nil => simp
  | cons piece pieces ih =>
    rw [List.foldlM_cons, List.flatten_cons, List.length_append]
    simp only [reduceCtorEq, false_or]
    cases happend : s.append terminator piece with
    | none =>
      constructor
      · intro h
        cases h
      · intro h
        have hfits : s.text.length + piece.length + 1 ≤ s.block.length := by omega
        obtain ⟨s', hs'⟩ := append_isSome hfits
        rw [happend] at hs'
        cases hs'
    | some s' =>
      obtain ⟨htext, hblock, hle⟩ := append_eq_some happend
      show (pieces.foldlM (Built.append terminator) s').isSome ↔ _
      rw [ih, htext, hblock, List.length_append]
      constructor
      · intro h
        rcases h with rfl | h
        · rw [List.flatten_nil, List.length_nil]
          omega
        · omega
      · intro h
        right
        omega

/-- A text fits into its block exactly when the block has room for it and for the
terminator. -/
theorem build_isSome {terminator : α} {pieces : List (List α)} (hne : pieces ≠ []) :
    (build terminator b pieces).isSome ↔ pieces.flatten.length + 1 ≤ b.length := by
  rw [build, foldlM_append_isSome, List.length_nil, Nat.zero_add]
  constructor
  · intro h
    exact h.resolve_left hne
  · exact Or.inr

end Memory
