/-
Cutting a list into consecutive pieces of one length.

`piece n c i` is the `i`-th piece of length `n`; only the last nonempty one may
be shorter.  A prefix of whole blocks is itself cut into longer pieces, and
`piece_take_succ` is the step that extends the piece under construction by the
next block.
-/
import Mathlib.Data.List.Basic
import Mathlib.Tactic.Ring

namespace Pieces

variable {α : Type}

/-- The `i`-th piece of length `n` of `c`. -/
def piece (n : Nat) (c : List α) (i : Nat) : List α := (c.drop (i * n)).take n

theorem length_piece (n : Nat) (c : List α) (i : Nat) :
    (piece n c i).length = min n (c.length - i * n) := by
  simp [piece]

theorem length_piece_of_le {n : Nat} {c : List α} {i : Nat} (h : (i + 1) * n ≤ c.length) :
    (piece n c i).length = n := by
  rw [length_piece]
  rw [Nat.succ_mul] at h
  omega

theorem piece_eq_nil {n : Nat} {c : List α} {i : Nat} (h : c.length ≤ i * n) :
    piece n c i = [] := by
  rw [piece, List.drop_eq_nil_of_le h, List.take_nil]

/-- The pieces in order give back the list they cut, up to where they stop. -/
theorem flatMap_piece (n : Nat) (c : List α) (k : Nat) :
    (List.range k).flatMap (piece n c) = c.take (k * n) := by
  induction k with
  | zero => simp
  | succ k ih =>
    rw [List.range_succ, List.flatMap_append, ih, Nat.succ_mul, List.take_add]
    simp [piece]

/-- Joining stops where nothing more is joined. -/
theorem flatMap_range_of_nil {f : Nat → List α} {k n : Nat} (hkn : k ≤ n)
    (h : ∀ s, k ≤ s → f s = []) : (List.range n).flatMap f = (List.range k).flatMap f := by
  induction n, hkn using Nat.le_induction with
  | base => rfl
  | succ n hkn ih =>
    rw [List.range_succ, List.flatMap_append, ih, List.flatMap_singleton, h n hkn,
      List.append_nil]

/-- A piece that ends inside a prefix is the same piece of the whole. -/
theorem piece_take {n : Nat} {c : List α} {i hi : Nat} (h : (i + 1) * n ≤ hi) :
    piece n (c.take hi) i = piece n c i := by
  rw [Nat.succ_mul] at h
  rw [piece, piece, List.drop_take, List.take_take, Nat.min_eq_left (by omega)]

/-- Only the piece that contains the end of a prefix grows when the prefix does. -/
theorem piece_take_eq {n : Nat} {c : List α} {i hi hi' : Nat}
    (h : (i + 1) * n ≤ min hi hi' ∨ max hi hi' ≤ i * n) :
    piece n (c.take hi) i = piece n (c.take hi') i := by
  rcases h with h | h
  · rw [piece_take (by omega), piece_take (by omega)]
  · rw [piece_eq_nil (by rw [List.length_take]; omega),
      piece_eq_nil (by rw [List.length_take]; omega)]

variable {b w m : Nat}

/-- The block that follows the first `m` blocks extends the piece of `w` blocks
that the prefix ends in. -/
theorem piece_take_succ (hw : 0 < w) (c : List α) :
    piece (b * w) (c.take ((m + 1) * b)) (m / w) =
      piece (b * w) (c.take (m * b)) (m / w) ++ piece b c m := by
  have hm : m / w * w + m % w = m := Nat.div_add_mod' m w
  have hlt : m % w < w := Nat.mod_lt m hw
  have hstart : m / w * (b * w) + m % w * b = m * b := by
    calc m / w * (b * w) + m % w * b = (m / w * w + m % w) * b := by ring
      _ = m * b := by rw [hm]
  have hfit : (m % w + 1) * b ≤ b * w := by
    calc (m % w + 1) * b ≤ w * b := Nat.mul_le_mul_right b hlt
      _ = b * w := Nat.mul_comm w b
  have hsucc : (m % w + 1) * b = m % w * b + b := Nat.succ_mul _ _
  have hnext : (m + 1) * b = m * b + b := Nat.succ_mul _ _
  rw [piece, piece, piece, List.drop_take, List.drop_take, List.take_take, List.take_take,
    Nat.min_eq_right (by omega), Nat.min_eq_right (by omega),
    show (m + 1) * b - m / w * (b * w) = m % w * b + b by omega,
    show m * b - m / w * (b * w) = m % w * b by omega, List.take_add, List.drop_drop, hstart]

/-! ## Division of a block number by the blocks of a piece -/

theorem block_div (hb : 0 < b) : m * b / (b * w) = m / w := by
  rw [Nat.mul_comm m b, Nat.mul_div_mul_left _ _ hb]

theorem block_mod : m * b % (b * w) = b * (m % w) := by
  rw [Nat.mul_comm m b, Nat.mul_mod_mul_left]

end Pieces
