/-
Folds whose steps may fail.

A fold that ends has made every step; and when every step is known to give the
result of a plain function, the fold is the plain fold.
-/
import Mathlib.Data.List.Basic

namespace Folds

variable {α β ε : Type} {f : β → α → Except ε β} {g : β → α → β} {l : List α}

theorem foldlM_eq_ok (h : ∀ x ∈ l, ∀ b, f b x = .ok (g b x)) (b : β) :
    l.foldlM f b = .ok (l.foldl g b) := by
  induction l generalizing b with
  | nil => rfl
  | cons x l ih =>
    rw [List.foldlM_cons, h x List.mem_cons_self b]
    exact ih (fun y hy => h y (List.mem_cons_of_mem _ hy)) _

/-- What a step that succeeds shows of its element holds of every element of a fold that
ends. -/
theorem forall_of_foldlM_ok {P : α → Prop} (hP : ∀ b x c, f b x = .ok c → P x) {b c : β}
    (h : l.foldlM f b = .ok c) : ∀ x ∈ l, P x := by
  induction l generalizing b with
  | nil => exact nofun
  | cons x l ih =>
    rw [List.foldlM_cons] at h
    cases hx : f b x with
    | error error =>
      rw [hx] at h
      cases h
    | ok next =>
      rw [hx] at h
      exact List.forall_mem_cons.mpr ⟨hP b x next hx, ih h⟩

end Folds
