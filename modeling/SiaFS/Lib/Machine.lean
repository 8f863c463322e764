/-
Machines, and the programs that refine them.

A machine says of every command in which states it is accepted, what it may be answered
and which state is next.  A program refines it when each of its steps, begun in a state
that is related to one of the machine, returns with an answer of the machine in a state
related to the next one; then so does every run.
-/
import SiaFS.Lib.Exec

structure Machine (τ ι α : Type) where
  accepts : τ → ι → Prop
  answers : τ → ι → α → Prop
  next : τ → ι → τ

namespace Machine

variable {τ ς φ ι α : Type} (M : Machine τ ι α)

def run (s : τ) (is : List ι) : τ := is.foldl M.next s

/-- Every command is accepted in the state that those before it lead to. -/
def Accepts (s : τ) : List ι → Prop
  | [] => True
  | i :: is => M.accepts s i ∧ Accepts (M.next s i) is

/-- The answers to a run of commands. -/
def Answers (s : τ) : List ι → List α → Prop
  | [], as => as = []
  | i :: is, as => ∃ a rest, as = a :: rest ∧ M.answers s i a ∧ Answers (M.next s i) is rest

/-- One step of the program for each command. -/
def Refines (R : τ → ς → Prop) (step : ι → Exec ς φ α) : Prop :=
  ∀ s w i, R s w → M.accepts s i →
    ∃ a w', step i w = (.ok a, w') ∧ M.answers s i a ∧ R (M.next s i) w'

variable {M} {s : τ}

theorem run_append (is js : List ι) : M.run s (is ++ js) = M.run (M.run s is) js :=
  List.foldl_append

theorem accepts_append {is js : List ι} :
    M.Accepts s (is ++ js) ↔ M.Accepts s is ∧ M.Accepts (M.run s is) js := by
  induction is generalizing s with
  | nil => simp [Accepts, run]
  | cons i is ih =>
    rw [List.cons_append, Accepts, Accepts, ih, and_assoc]
    rfl

theorem Refines.run {R : τ → ς → Prop} {step : ι → Exec ς φ α} (hM : M.Refines R step)
    {is : List ι} (h : M.Accepts s is) {w : ς} (hw : R s w) :
    ∃ as w', Exec.runAll step is w = (.ok as, w') ∧ M.Answers s is as ∧ R (M.run s is) w' := by
  induction is generalizing s w with
  | nil => exact ⟨[], w, rfl, rfl, hw⟩
  | cons i is ih =>
    obtain ⟨a, w₁, hstep, ha, hw₁⟩ := hM s w i hw h.1
    obtain ⟨as, w₂, hrun, has, hw₂⟩ := ih h.2 hw₁
    exact ⟨a :: as, w₂, Exec.runAll_cons_ok hstep hrun, ⟨a, as, rfl, ha, has⟩, hw₂⟩

end Machine
