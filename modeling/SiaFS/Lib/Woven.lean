/-
Texts woven from blocks.

`Woven blocks text` says that `text` is put together from beginnings of the blocks: in
the order of the blocks, each used once at most and some not at all.  A log that takes a
part of what is handed to it, and drops the rest, holds such a text of all that was handed
to it.
-/
import Mathlib.Data.List.Basic
import Mathlib.Data.List.Induction

inductive Woven {α : Type} : List (List α) → List α → Prop
  | nil : Woven [] []
  | skip {blocks : List (List α)} {text : List α} (h : Woven blocks text) (block : List α) :
    Woven (blocks ++ [block]) text
  | weave {blocks : List (List α)} {text : List α} (h : Woven blocks text)
    {block piece : List α} (hp : piece <+: block) : Woven (blocks ++ [block]) (text ++ piece)

namespace Woven

variable {α ι : Type} {blocks : List (List α)} {text block piece : List α}

/-- Blocks that are not used. -/
theorem append (h : Woven blocks text) (more : List (List α)) : Woven (blocks ++ more) text := by
  induction more using List.reverseRecOn with
  | nil => rwa [List.append_nil]
  | append_singleton more block ih =>
    rw [← List.append_assoc]
    exact ih.skip block

theorem empty (blocks : List (List α)) : Woven blocks [] := Woven.nil.append blocks

/-- One more block, of which the beginning is used. -/
theorem add (h : Woven blocks text) (block : List α) (n : Nat) :
    Woven (blocks ++ [block]) (text ++ block.take n) := h.weave (List.take_prefix n block)

/-- A block by itself. -/
theorem of_mem (h : block ∈ blocks) : Woven blocks block := by
  obtain ⟨before, after, rfl⟩ := List.append_of_mem h
  rw [← List.singleton_append, ← List.append_assoc]
  exact Woven.append (by simpa using (empty before).weave (List.prefix_refl block)) after

/-- More blocks at the end of what they are picked from. -/
theorem filterMap_append {f : ι → Option (List α)} {xs : List ι} (h : Woven (xs.filterMap f) text)
    (ys : List ι) : Woven ((xs ++ ys).filterMap f) text := by
  rw [List.filterMap_append]
  exact h.append _

end Woven
