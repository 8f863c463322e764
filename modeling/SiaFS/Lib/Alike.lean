/-
Two computations run side by side.

`Alike Q E x y` compares two outcomes: both are the same result and their states
are related by `Q` of it, or both are the same fault and their states are related
by `E`.  The rules are about one pair of states, so that what is known of them can
be used at every step.
-/
import SiaFS.Lib.Exec

namespace Exec

variable {ς φ α β : Type}

inductive Alike (Q : α → ς → ς → Prop) (E : ς → ς → Prop) :
    Except φ α × ς → Except φ α × ς → Prop
  | ok {a : α} {w w' : ς} (h : Q a w w') : Alike Q E (.ok a, w) (.ok a, w')
  | error {x : φ} {w w' : ς} (h : E w w') : Alike Q E (.error x, w) (.error x, w')

section Rules

variable {Q : α → ς → ς → Prop} {E : ς → ς → Prop} {w w' : ς}

theorem Alike.mono {R : α → ς → ς → Prop} {F : ς → ς → Prop} {x y : Except φ α × ς}
    (h : Alike Q E x y) (hQ : ∀ a, x.1 = .ok a → ∀ w w', Q a w w' → R a w w')
    (hE : ∀ w w', E w w' → F w w') : Alike R F x y := by
  cases h with
  | ok h => exact .ok (hQ _ rfl _ _ h)
  | error h => exact .error (hE _ _ h)

theorem Alike.result {x y : Except φ α × ς} (h : Alike Q E x y) : x.1 = y.1 := by
  cases h <;> rfl

/-- Where results and faults are treated alike, the states are related. -/
theorem Alike.state {R : ς → ς → Prop} {x y : Except φ α × ς} (h : Alike (fun _ => R) R x y) :
    R x.2 y.2 := by
  cases h with
  | ok h => exact h
  | error h => exact h

theorem alike_lift {x : Except φ α} (hok : ∀ a, x = .ok a → Q a w w')
    (herr : ∀ y, x = .error y → E w w') :
    Alike Q E (lift x w) (lift x w') := by
  cases x with
  | ok a => exact .ok (hok a rfl)
  | error y => exact .error (herr y rfl)

/-- The second parts start where the first ones have ended. -/
theorem alike_bind {R : β → ς → ς → Prop} {m m' : Exec ς φ α} {f f' : α → Exec ς φ β}
    (hm : Alike Q E (m w) (m' w'))
    (hf : ∀ a v v', m w = (.ok a, v) → Q a v v' → Alike R E (f a v) (f' a v')) :
    Alike R E ((m >>= f) w) ((m' >>= f') w') := by
  show Alike R E (andThen m f w) (andThen m' f' w')
  unfold andThen
  generalize hx : m w = x at hm
  generalize m' w' = y at hm
  cases hm with
  | ok h => exact hf _ _ _ hx h
  | error h => exact .error h

end Rules

end Exec
