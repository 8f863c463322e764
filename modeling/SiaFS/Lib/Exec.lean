/-
Computations over an explicit state that may stop with a fault.

A fault stands for behaviour the language leaves undefined, such as a null
pointer followed.  The state reached so far is kept next to the fault, because
what a program has already told its environment before it stops is part of what
it did.

`Keeps R m` relates the state before `m` to the state after it, whatever the
outcome, and composes along `>>=` when `R` is a preorder.  `runAll` performs a
list of commands one after another and stops at the first fault; its rules turn
a fact about one command into a fact about every run.
-/
import Mathlib.Order.Defs.Unbundled

/-- A computation over the state `ς` with result `α` or fault `φ`. -/
def Exec (ς φ α : Type) : Type := ς → Except φ α × ς

namespace Exec

variable {ς φ α β ι : Type}

/-- Feed the result of `m` to `f`; a fault of `m` is the fault of the whole. -/
def andThen (m : Exec ς φ α) (f : α → Exec ς φ β) : Exec ς φ β := fun w =>
  match m w with
  | (.ok a, w') => f a w'
  | (.error x, w') => (.error x, w')

instance : Monad (Exec ς φ) where
  pure a := fun w => (.ok a, w)
  bind := andThen

def get : Exec ς φ ς := fun w => (.ok w, w)

def modify (f : ς → ς) : Exec ς φ Unit := fun w => (.ok (), f w)

def fault (x : φ) : Exec ς φ α := fun w => (.error x, w)

/-- A pure computation that may fault, run without touching the state. -/
def lift (x : Except φ α) : Exec ς φ α := fun w => (x, w)

@[simp] theorem pure_apply (a : α) (w : ς) : (pure a : Exec ς φ α) w = (.ok a, w) := rfl

@[simp] theorem get_bind (f : ς → Exec ς φ β) (w : ς) : (get >>= f) w = f w w := rfl

@[simp] theorem modify_apply (g : ς → ς) (w : ς) :
    (modify g : Exec ς φ Unit) w = (.ok (), g w) := rfl

@[simp] theorem modify_bind (g : ς → ς) (f : Unit → Exec ς φ β) (w : ς) :
    (modify g >>= f) w = f () (g w) := rfl

@[simp] theorem fault_apply (x : φ) (w : ς) : (fault x : Exec ς φ α) w = (.error x, w) := rfl

@[simp] theorem fault_bind (x : φ) (f : α → Exec ς φ β) (w : ς) :
    ((fault x : Exec ς φ α) >>= f) w = (.error x, w) := rfl

@[simp] theorem lift_apply (x : Except φ α) (w : ς) : (lift x : Exec ς φ α) w = (x, w) := rfl

@[simp] theorem pure_bind_apply (a : α) (f : α → Exec ς φ β) (w : ς) :
    ((pure a : Exec ς φ α) >>= f) w = f a w := rfl

theorem bind_of_ok {m : Exec ς φ α} {f : α → Exec ς φ β} {w w' : ς} {a : α}
    (h : m w = (.ok a, w')) : (m >>= f) w = f a w' := by
  show andThen m f w = _
  rw [andThen, h]

theorem bind_of_error {m : Exec ς φ α} {f : α → Exec ς φ β} {w w' : ς} {x : φ}
    (h : m w = (.error x, w')) : (m >>= f) w = (.error x, w') := by
  show andThen m f w = _
  rw [andThen, h]

theorem bind_assoc {γ : Type} (m : Exec ς φ α) (f : α → Exec ς φ β) (g : β → Exec ς φ γ) :
    (m >>= f) >>= g = m >>= fun a => f a >>= g := by
  funext w
  show andThen (andThen m f) g w = andThen m (fun a => andThen (f a) g) w
  rw [andThen, andThen, andThen]
  rcases m w with ⟨_ | a, w'⟩ <;> rfl

theorem lift_ok_bind {x : Except φ α} {a : α} (h : x = .ok a) (f : α → Exec ς φ β) (w : ς) :
    (lift x >>= f) w = f a w :=
  bind_of_ok (by rw [lift_apply, h])

/-- Every run of `m >>= f` is a run of `m` that faults, or one that succeeds
followed by a run of `f`. -/
theorem bind_cases (m : Exec ς φ α) (f : α → Exec ς φ β) (w : ς) :
    (∃ x w', m w = (.error x, w') ∧ (m >>= f) w = (.error x, w')) ∨
      ∃ a w', m w = (.ok a, w') ∧ (m >>= f) w = f a w' := by
  rcases hm : m w with ⟨_ | a, w'⟩
  · exact Or.inl ⟨_, w', rfl, bind_of_error hm⟩
  · exact Or.inr ⟨a, w', rfl, bind_of_ok hm⟩

/-- Wrapping up a result leaves the state alone. -/
theorem bind_pure_state (m : Exec ς φ α) (f : α → β) (w : ς) :
    ((m >>= fun a => pure (f a)) w).2 = (m w).2 := by
  rcases bind_cases m (fun a => pure (f a)) w with ⟨x, w', h, he⟩ | ⟨a, w', h, he⟩
  · rw [he, h]
  · rw [he, h]
    rfl

/-- A successful run of `m >>= f` is a successful run of `m` followed by one of
`f`. -/
theorem bind_eq_ok {m : Exec ς φ α} {f : α → Exec ς φ β} {w w'' : ς} {b : β}
    (h : (m >>= f) w = (.ok b, w'')) :
    ∃ a w', m w = (.ok a, w') ∧ f a w' = (.ok b, w'') := by
  rcases bind_cases m f w with ⟨x, w', -, he⟩ | ⟨a, w', hm, he⟩
  · rw [he] at h
    cases h
  · exact ⟨a, w', hm, he ▸ h⟩

/-- A run of `m >>= f` that faults does so in `m`, or in `f` after it. -/
theorem bind_eq_error {m : Exec ς φ α} {f : α → Exec ς φ β} {w w'' : ς} {x : φ}
    (h : (m >>= f) w = (.error x, w'')) :
    m w = (.error x, w'') ∨ ∃ a w', m w = (.ok a, w') ∧ f a w' = (.error x, w'') := by
  rcases bind_cases m f w with ⟨y, w', hm, he⟩ | ⟨a, w', hm, he⟩
  · obtain ⟨hy, rfl⟩ := Prod.mk.inj (he.symm.trans h)
    obtain rfl := Except.error.inj hy
    exact Or.inl hm
  · exact Or.inr ⟨a, w', hm, he.symm.trans h⟩

/-! ## What a computation keeps -/

/-- `R` relates the state before `m` to the state after it, fault or not. -/
def Keeps (R : ς → ς → Prop) (m : Exec ς φ α) : Prop := ∀ w, R w (m w).2

section Keeps

variable {R : ς → ς → Prop}

theorem keeps_modify {g : ς → ς} (h : ∀ w, R w (g w)) :
    Keeps R (modify g : Exec ς φ Unit) := h

theorem keeps_bind [IsTrans ς R] {m : Exec ς φ α} {f : α → Exec ς φ β}
    (hm : Keeps R m) (hf : ∀ a, Keeps R (f a)) : Keeps R (m >>= f) := by
  intro w
  rcases bind_cases m f w with ⟨x, w', h, he⟩ | ⟨a, w', h, he⟩
  · have := hm w
    rw [h] at this
    rw [he]
    exact this
  · have := hm w
    rw [h] at this
    rw [he]
    exact IsTrans.trans _ _ _ this (hf a w')

theorem keeps_get_bind {f : ς → Exec ς φ β} (hf : ∀ w, R w (f w w).2) :
    Keeps R (get >>= f) := hf

/-- The same when what follows keeps it from every state. -/
theorem keeps_get_of {f : ς → Exec ς φ β} (hf : ∀ w, Keeps R (f w)) : Keeps R (get >>= f) :=
  keeps_get_bind fun w => hf w w

variable [Std.Refl R]

theorem keeps_pure (a : α) : Keeps R (pure a : Exec ς φ α) := fun w => Std.Refl.refl w

theorem keeps_fault (x : φ) : Keeps R (fault x : Exec ς φ α) := fun w => Std.Refl.refl w

theorem keeps_lift (x : Except φ α) : Keeps R (lift x : Exec ς φ α) :=
  fun w => Std.Refl.refl w

/-- What follows a computation without effect may use how it came out. -/
theorem keeps_lift_bind {x : Except φ α} {f : α → Exec ς φ β}
    (hf : ∀ a, x = .ok a → Keeps R (f a)) : Keeps R (lift x >>= f) := by
  intro w
  cases x with
  | error y => exact Std.Refl.refl w
  | ok a => exact hf a rfl w

end Keeps

/-- `I` is carried from one state to the next. -/
def Carries (I : ς → Prop) (w w' : ς) : Prop := I w → I w'

instance (I : ς → Prop) : Std.Refl (Carries I) where
  refl _ h := h

instance (I : ς → Prop) : IsTrans ς (Carries I) where
  trans _ _ _ hab hbc h := hbc (hab h)

/-! ## Runs -/

/-- Perform commands one after another, up to the first fault. -/
def runAll (step : ι → Exec ς φ α) : List ι → Exec ς φ (List α)
  | [] => pure []
  | i :: is => do
    let a ← step i
    let as ← runAll step is
    pure (a :: as)

section Runs

variable {step : ι → Exec ς φ α} {I : ς → Prop}

@[simp] theorem runAll_nil (w : ς) : runAll step [] w = (.ok [], w) := rfl

theorem runAll_cons_ok {i : ι} {is : List ι} {w w' w'' : ς} {a : α} {as : List α}
    (h : step i w = (.ok a, w')) (hs : runAll step is w' = (.ok as, w'')) :
    runAll step (i :: is) w = (.ok (a :: as), w'') := by
  rw [runAll, bind_of_ok h, bind_of_ok hs]
  rfl

theorem runAll_cons_error {i : ι} {is : List ι} {w w' : ς} {x : φ}
    (h : step i w = (.error x, w')) : runAll step (i :: is) w = (.error x, w') :=
  bind_of_error h

variable (step) in
/-- The state a run of `i :: is` ends in is that of the run of `is` after the
step of `i`, unless that step faults. -/
theorem runAll_cons_state (i : ι) (is : List ι) (w : ς) :
    (∃ x, (step i w).1 = .error x ∧ (runAll step (i :: is) w).2 = (step i w).2) ∨
      ∃ a, (step i w).1 = .ok a ∧
        (runAll step (i :: is) w).2 = (runAll step is (step i w).2).2 := by
  rcases hs : step i w with ⟨x | a, w'⟩
  · exact Or.inl ⟨x, rfl, by rw [runAll_cons_error hs]⟩
  · refine Or.inr ⟨a, rfl, ?_⟩
    rw [runAll, bind_of_ok hs]
    rcases bind_cases (runAll step is) (fun as => pure (a :: as)) w' with
      ⟨x, w'', h, he⟩ | ⟨as, w'', h, he⟩
    · rw [he, h]
    · rw [he, h]
      rfl

theorem runAll_cons_state_ok {i : ι} {is : List ι} {w w' : ς} {a : α}
    (h : step i w = (.ok a, w')) : (runAll step (i :: is) w).2 = (runAll step is w').2 := by
  rcases runAll_cons_state step i is w with ⟨x, hx, -⟩ | ⟨b, -, he⟩
  · rw [h] at hx
    cases hx
  · rw [he, h]

theorem runAll_append_ok {is js : List ι} {w w' w'' : ς} {as bs : List α}
    (h : runAll step is w = (.ok as, w')) (h' : runAll step js w' = (.ok bs, w'')) :
    runAll step (is ++ js) w = (.ok (as ++ bs), w'') := by
  induction is generalizing w as with
  | nil =>
    cases h
    exact h'
  | cons i is ih =>
    obtain ⟨a, w₁, hi, hrest⟩ := bind_eq_ok h
    obtain ⟨as', w₂, his, hend⟩ := bind_eq_ok hrest
    cases hend
    exact runAll_cons_ok hi (ih his)

/-- A successful run splits at any point. -/
theorem runAll_append_eq_ok {is js : List ι} {w w'' : ς} {cs : List α}
    (h : runAll step (is ++ js) w = (.ok cs, w'')) :
    ∃ as bs w', runAll step is w = (.ok as, w') ∧ runAll step js w' = (.ok bs, w'') ∧
      cs = as ++ bs := by
  induction is generalizing w cs with
  | nil => exact ⟨[], cs, w, rfl, h, rfl⟩
  | cons i is ih =>
    obtain ⟨a, w₁, hi, hrest⟩ := bind_eq_ok h
    obtain ⟨cs', w₂, his, hend⟩ := bind_eq_ok hrest
    cases hend
    obtain ⟨as, bs, w', h₁, h₂, rfl⟩ := ih his
    exact ⟨a :: as, bs, w', runAll_cons_ok hi h₁, h₂, rfl⟩

variable (step) in
/-- The state a run of `is ++ js` ends in is that of the run of `js` after the run
of `is`, unless that faults. -/
theorem runAll_append_state (is js : List ι) (w : ς) :
    (∃ x, (runAll step is w).1 = .error x ∧
        (runAll step (is ++ js) w).2 = (runAll step is w).2) ∨
      ∃ as, (runAll step is w).1 = .ok as ∧
        (runAll step (is ++ js) w).2 = (runAll step js (runAll step is w).2).2 := by
  induction is generalizing w with
  | nil => exact Or.inr ⟨[], rfl, rfl⟩
  | cons i is ih =>
    rcases hs : step i w with ⟨x | a, w'⟩
    · rw [runAll_cons_error hs, List.cons_append, runAll_cons_error hs]
      exact Or.inl ⟨x, rfl, rfl⟩
    · rw [List.cons_append, runAll, runAll, bind_of_ok hs, bind_of_ok hs, bind_pure_state,
        bind_pure_state]
      rcases ih w' with ⟨x, hx, he⟩ | ⟨as, has, he⟩
      · exact Or.inl ⟨x, by rw [bind_of_error (Prod.ext hx rfl)], he⟩
      · exact Or.inr ⟨a :: as, by rw [bind_of_ok (Prod.ext has rfl)]; rfl, he⟩

/-- What every step of a run keeps, the run keeps. -/
theorem runAll_invariant {is : List ι} (hstep : ∀ i ∈ is, ∀ w, I w → I (step i w).2) {w : ς}
    (h : I w) : I (runAll step is w).2 := by
  induction is generalizing w with
  | nil => exact h
  | cons i is ih =>
    have hi := hstep i List.mem_cons_self w h
    rcases runAll_cons_state step i is w with ⟨x, -, he⟩ | ⟨a, -, he⟩
    · rw [he]
      exact hi
    · rw [he]
      exact ih (fun j hj => hstep j (List.mem_cons_of_mem _ hj)) hi

/-- When every step succeeds where the property holds, and keeps it, so does the run. -/
theorem runAll_total {is : List ι}
    (hstep : ∀ i ∈ is, ∀ w, I w → ∃ a w', step i w = (.ok a, w') ∧ I w') {w : ς} (h : I w) :
    ∃ as w', runAll step is w = (.ok as, w') ∧ I w' := by
  induction is generalizing w with
  | nil => exact ⟨[], w, rfl, h⟩
  | cons i is ih =>
    obtain ⟨a, w₁, hi, h₁⟩ := hstep i List.mem_cons_self w h
    obtain ⟨as, w₂, his, h₂⟩ := ih (fun j hj => hstep j (List.mem_cons_of_mem _ hj)) h₁
    exact ⟨a :: as, w₂, runAll_cons_ok hi his, h₂⟩

/-- Every step of the run is taken in a state that meets its condition. -/
def Along (C : ι → ς → Prop) (step : ι → Exec ς φ α) : List ι → ς → Prop
  | [], _ => True
  | i :: is, w => C i w ∧ ∀ a w', step i w = (.ok a, w') → Along C step is w'

/-- What every step keeps under its condition, every run keeps whose steps all
meet the condition. -/
theorem runAll_along {C : ι → ς → Prop} (hstep : ∀ i w, C i w → I w → I (step i w).2)
    (is : List ι) {w : ς} (hC : Along C step is w) (h : I w) : I (runAll step is w).2 := by
  induction is generalizing w with
  | nil => exact h
  | cons i is ih =>
    rcases runAll_cons_state step i is w with ⟨x, -, he⟩ | ⟨a, ha, he⟩
    · rw [he]
      exact hstep i w hC.1 h
    · rw [he]
      exact ih (hC.2 a _ (Prod.ext ha rfl)) (hstep i w hC.1 h)

/-- The same of a run that succeeds, where a step has only to keep the property
when it succeeds. -/
theorem runAll_along_ok {C : ι → ς → Prop}
    (hstep : ∀ i w a w', C i w → I w → step i w = (.ok a, w') → I w') {is : List ι}
    {w w' : ς} {as : List α} (hC : Along C step is w) (h : I w)
    (hrun : runAll step is w = (.ok as, w')) : I w' := by
  induction is generalizing w as with
  | nil =>
    cases hrun
    exact h
  | cons i is ih =>
    obtain ⟨a, w₁, hi, hrest⟩ := bind_eq_ok hrun
    obtain ⟨as', w₂, his, hend⟩ := bind_eq_ok hrest
    cases hend
    exact ih (hC.2 a w₁ hi) (hstep i w a w₁ hC.1 h hi) his

/-- What is known of the commands of a run joins its condition. -/
theorem along_and {C : ι → ς → Prop} {p : ι → Prop} {is : List ι} (hp : ∀ i ∈ is, p i) {w : ς}
    (h : Along C step is w) : Along (fun i w => p i ∧ C i w) step is w := by
  induction is generalizing w with
  | nil => trivial
  | cons i is ih =>
    exact ⟨⟨hp i List.mem_cons_self, h.1⟩, fun a w' hs =>
      ih (fun j hj => hp j (List.mem_cons_of_mem _ hj)) (h.2 a w' hs)⟩

/-- The condition on a run is one on each of its beginnings. -/
theorem along_append {C : ι → ς → Prop} {is js : List ι} {w : ς}
    (h : Along C step (is ++ js) w) : Along C step is w := by
  induction is generalizing w with
  | nil => trivial
  | cons i is ih => exact ⟨h.1, fun a w' hs => ih (h.2 a w' hs)⟩

/-- The rest of a run meets the condition after a beginning that succeeds. -/
theorem along_drop {C : ι → ς → Prop} {is js : List ι} {w w' : ς} {as : List α}
    (h : Along C step (is ++ js) w) (hrun : runAll step is w = (.ok as, w')) :
    Along C step js w' := by
  induction is generalizing w as with
  | nil =>
    cases hrun
    exact h
  | cons i is ih =>
    obtain ⟨a, w₁, hi, hrest⟩ := bind_eq_ok hrun
    obtain ⟨as', w₂, his, hend⟩ := bind_eq_ok hrest
    cases hend
    exact ih (h.2 a w₁ hi) his

/-- Two conditions that agree where a property holds that steps under the second
keep are the same condition on a run. -/
theorem along_congr {C D : ι → ς → Prop} (h : ∀ i w, I w → (C i w ↔ D i w))
    (hstep : ∀ i w a w', D i w → I w → step i w = (.ok a, w') → I w') (is : List ι) {w : ς}
    (hw : I w) : Along C step is w ↔ Along D step is w := by
  induction is generalizing w with
  | nil => exact Iff.rfl
  | cons i is ih =>
    constructor
    · intro hC
      have hD := (h i w hw).mp hC.1
      exact ⟨hD, fun a w' hs => (ih (hstep i w a w' hD hw hs)).mp (hC.2 a w' hs)⟩
    · intro hD
      exact ⟨(h i w hw).mpr hD.1, fun a w' hs =>
        (ih (hstep i w a w' hD.1 hw hs)).mpr (hD.2 a w' hs)⟩

/-- The condition on a run, step by step. -/
theorem along_iff {C : ι → ς → Prop} {is : List ι} {w : ς} :
    Along C step is w ↔ ∀ is₁ i is₂, is = is₁ ++ i :: is₂ →
      ∀ as w', runAll step is₁ w = (.ok as, w') → C i w' := by
  constructor
  · rintro h is₁ i is₂ rfl as w' hrun
    exact (along_drop h hrun).1
  · intro h
    induction is generalizing w with
    | nil => trivial
    | cons i is ih =>
      refine ⟨h [] i is rfl [] w rfl, fun a w' hs => ih fun is₁ j is₂ hsplit as w'' hrun => ?_⟩
      exact h (i :: is₁) j is₂ (by rw [hsplit]; rfl) (a :: as) w'' (runAll_cons_ok hs hrun)

end Runs

end Exec
