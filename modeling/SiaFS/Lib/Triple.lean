/-
Triples for computations that may fault.

`Triple P m Q E`: from a state with `P`, a result of `m` comes with a state that
has `Q` of it, and a fault leaves a state that has `E`.  The rules follow the
ways a computation is put together.
-/
import SiaFS.Lib.Exec

namespace Exec

variable {ς φ α β ι : Type}

def Triple (P : ς → Prop) (m : Exec ς φ α) (Q : α → ς → Prop) (E : ς → Prop) : Prop :=
  ∀ w, P w → (∀ a w', m w = (.ok a, w') → Q a w') ∧ ∀ x w', m w = (.error x, w') → E w'

section Rules

variable {P P' : ς → Prop} {Q Q' : α → ς → Prop} {E E' : ς → Prop} {m : Exec ς φ α}

theorem triple_pre (h : Triple P m Q E) (hP : ∀ w, P' w → P w) : Triple P' m Q E :=
  fun w hw => h w (hP w hw)

theorem triple_bind {f : α → Exec ς φ β} {R : β → ς → Prop} (hm : Triple P m Q E)
    (hf : ∀ a, Triple (Q a) (f a) R E) : Triple P (m >>= f) R E := by
  intro w hw
  have := hm w hw
  rcases bind_cases m f w with ⟨x, w', h, he⟩ | ⟨a, w', h, he⟩
  · rw [he]
    exact ⟨nofun, fun x' w'' hx => by cases hx; exact this.2 x w' h⟩
  · rw [he]
    exact hf a w' (this.1 a w' h)

theorem triple_pure {a : α} (h : ∀ w, P w → Q a w) : Triple P (pure a : Exec ς φ α) Q E := by
  intro w hw
  refine ⟨fun a' w' ha => ?_, nofun⟩
  cases ha
  exact h w hw

theorem triple_fault {x : φ} (h : ∀ w, P w → E w) :
    Triple P (fault x : Exec ς φ α) Q E := by
  intro w hw
  refine ⟨nofun, fun x' w' hx => ?_⟩
  cases hx
  exact h w hw

theorem triple_modify {g : ς → ς} {Q : Unit → ς → Prop} (h : ∀ w, P w → Q () (g w)) :
    Triple P (modify g : Exec ς φ Unit) Q E := by
  intro w hw
  refine ⟨fun a w' ha => ?_, nofun⟩
  cases ha
  exact h w hw

theorem triple_get_bind {f : ς → Exec ς φ α}
    (h : ∀ w, P w → Triple (fun w' => w' = w ∧ P w') (f w) Q E) :
    Triple P (get >>= f) Q E := fun w hw => h w hw w ⟨rfl, hw⟩

theorem triple_lift {x : Except φ α} (hok : ∀ a w, x = .ok a → P w → Q a w)
    (herr : ∀ y w, x = .error y → P w → E w) : Triple P (lift x) Q E := by
  intro w hw
  refine ⟨fun a w' ha => ?_, fun y w' hy => ?_⟩
  · cases ha
    exact hok a w rfl hw
  · cases hy
    exact herr y w rfl hw

theorem triple_ite {c : Prop} [Decidable c] {m' : Exec ς φ α}
    (ht : c → Triple P m Q E) (hf : ¬ c → Triple P m' Q E) :
    Triple P (if c then m else m') Q E := by
  by_cases h : c
  · rw [if_pos h]
    exact ht h
  · rw [if_neg h]
    exact hf h

theorem Triple.state {I J : ς → Prop} (h : Triple I m (fun _ => J) J) {w : ς} (hw : I w) :
    J (m w).2 := by
  rcases hm : m w with ⟨x | a, w'⟩
  · exact (h w hw).2 x w' hm
  · exact (h w hw).1 a w' hm

end Rules

end Exec
