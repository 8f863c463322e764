/-
A function folded over the blocks of a text.

`chain k f s text` passes the whole blocks of `k` symbols of `text` to `f` one after
another; `rest k text` is what is left over, less than a block.  `feed` takes the text one
symbol at a time, holds a block back until it is full and comes to the same.
-/
import Mathlib.Data.List.Induction
import SiaFS.Lib.Pieces

namespace Chaining

open Pieces

variable {τ β : Type}

/-- The state after the whole blocks of the text. -/
def chain (k : Nat) (f : τ → List β → τ) (s : τ) (text : List β) : τ :=
  (List.range (text.length / k)).foldl (fun s i => f s (piece k text i)) s

/-- What follows the whole blocks. -/
def rest (k : Nat) (text : List β) : List β := text.drop (text.length / k * k)

/-- One more symbol, for a state and the symbols held back. -/
def feed (k : Nat) (f : τ → List β → τ) (s : τ × List β) (b : β) : τ × List β :=
  if s.2.length + 1 = k then (f s.1 (s.2 ++ [b]), []) else (s.1, s.2 ++ [b])

theorem length_rest (k : Nat) (text : List β) : (rest k text).length = text.length % k := by
  rw [rest, List.length_drop, Nat.mod_eq_sub_div_mul]

variable {k : Nat} {f : τ → List β → τ} {s : τ} {text : List β} {b : β}

/-- The blocks of a text are those of a longer one. -/
theorem piece_append {i : Nat} (h : i < text.length / k) (more : List β) :
    piece k (text ++ more) i = piece k text i := by
  have hend : (i + 1) * k ≤ text.length :=
    (Nat.mul_le_mul_right k h).trans (Nat.div_mul_le_self _ _)
  have hstart : (i + 1) * k = i * k + k := Nat.succ_mul i k
  rw [piece, piece, List.drop_append_of_le_length (by omega),
    List.take_append_of_le_length (by rw [List.length_drop]; omega)]

theorem foldl_piece_append (n : Nat) (h : n ≤ text.length / k) (more : List β) :
    (List.range n).foldl (fun s i => f s (piece k (text ++ more) i)) s =
      (List.range n).foldl (fun s i => f s (piece k text i)) s := by
  refine List.foldl_ext _ _ s fun s i hi => ?_
  rw [piece_append (Nat.lt_of_lt_of_le (List.mem_range.mp hi) h)]

/-- More of the text that just completes the last block. -/
theorem chain_append_block (hk : 0 < k) (more : List β)
    (h : text.length % k + more.length = k) :
    chain k f s (text ++ more) = f (chain k f s text) (rest k text ++ more) ∧
      rest k (text ++ more) = [] := by
  have hdm := Nat.div_add_mod' text.length k
  have hlen : (text ++ more).length = (text.length / k + 1) * k := by
    rw [List.length_append, Nat.succ_mul]
    omega
  have hdiv : (text ++ more).length / k = text.length / k + 1 := by
    rw [hlen, Nat.mul_div_cancel _ hk]
  refine ⟨?_, ?_⟩
  · rw [chain, hdiv, List.range_succ, List.foldl_append, foldl_piece_append _ (Nat.le_refl _)]
    show f (chain k f s text) (piece k (text ++ more) (text.length / k)) = _
    rw [piece, List.drop_append_of_le_length (Nat.div_mul_le_self _ _), ← rest,
      List.take_of_length_le (by rw [List.length_append, length_rest]; omega)]
  · rw [rest, hdiv, ← hlen, List.drop_length]

/-- One more symbol that does not complete it. -/
theorem chain_concat_more (hk : 0 < k) (h : text.length % k + 1 ≠ k) :
    chain k f s (text ++ [b]) = chain k f s text ∧ rest k (text ++ [b]) = rest k text ++ [b] := by
  have hlt := Nat.mod_lt text.length hk
  have hdiv : (text ++ [b]).length / k = text.length / k := by
    have hdm := Nat.div_add_mod' text.length k
    rw [List.length_append, List.length_singleton]
    exact Nat.div_eq_of_lt_le (by omega) (by rw [Nat.succ_mul]; omega)
  refine ⟨?_, ?_⟩
  · rw [chain, hdiv, foldl_piece_append _ (Nat.le_refl _), chain]
  · rw [rest, hdiv, List.drop_append_of_le_length (Nat.div_mul_le_self _ _), rest]

/-- Symbol by symbol, the blocks of the text are passed on and the rest is held back. -/
theorem foldl_feed (hk : 0 < k) (f : τ → List β → τ) (s : τ) (text : List β) :
    text.foldl (feed k f) (s, []) = (chain k f s text, rest k text) := by
  induction text using List.reverseRecOn with
  | nil =>
    have hdiv : ([] : List β).length / k = 0 := Nat.zero_div k
    rw [chain, rest, hdiv, List.drop_nil]
    rfl
  | append_singleton text b ih =>
    rw [List.foldl_append, ih, List.foldl_cons, List.foldl_nil, feed, length_rest]
    by_cases h : text.length % k + 1 = k
    · obtain ⟨hchain, hrest⟩ := chain_append_block (f := f) (s := s) hk [b] h
      rw [if_pos h, hchain, hrest]
    · obtain ⟨hchain, hrest⟩ := chain_concat_more (f := f) (s := s) (b := b) hk h
      rw [if_neg h, hchain, hrest]

end Chaining
