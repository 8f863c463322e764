/-
Files and directories over a flat space of keys.

An object is stored under a key, and a directory is there when an empty object is stored
under its name with the separator added.  What a path is, what a directory lists and where
a rename puts an object are read off the keys.  `carry` follows one object through a
change: wherever it goes, its bytes go along.
-/
import Mathlib.Data.Set.Insert
import Mathlib.Logic.Function.Basic
import SiaFS.Lib.KeyTree

namespace FlatStore

open KeyTree

variable {α β : Type} [DecidableEq α] (sep : α)

abbrev Objects (α β : Type) := List α → Option (List β)

inductive Kind
  | file (length : Nat)
  | directory
  | missing
  deriving DecidableEq

/-- A change of the store. -/
inductive Change (α β : Type)
  | store (path : List α) (body : List β)
  | remove (path : List α)
  | rename (source target : List α)

variable (b : Objects α β)

def isDirectory (path : List α) : Bool := (b (path ++ [sep])).elim false List.isEmpty

def kind (path : List α) : Kind :=
  match b path with
  | some body => .file body.length
  | none => if isDirectory sep b path then .directory else .missing

/-- The first components of the keys below the directory. -/
def entries (dir : List α) : Set (List α) :=
  {c | ∃ key, (b key).isSome ∧ dir <+: key ∧ key ≠ dir ∧
    (key.drop dir.length).takeWhile (· != sep) = c}

/-- A directory is moved with what is below it. -/
def Change.apply : Change α β → Objects α β → Objects α β
  | .store path body, b => Function.update b path (some body)
  | .remove path, b => Function.update b path none
  | .rename source target, b =>
    if isDirectory sep b source then movePrefix (source ++ [sep]) (target ++ [sep]) b
    else
      match b source with
      | some body => Function.update (Function.update b source none) target (some body)
      | none => b

/-- Nothing is stored under the name or below it. -/
def Vacant (path : List α) : Prop :=
  b path = none ∧ ∀ rest, b (path ++ [sep] ++ rest) = none

/-- A rename needs something to move and a free name to move it to. -/
def Change.Fits : Change α β → Objects α β → Prop
  | .rename source target, b =>
    (isDirectory sep b source = true ∨ (b source).isSome) ∧ Vacant sep b target
  | _, _ => True

/-- The key under which the object is after the change, `none` if it is replaced or
removed. -/
def Change.carry : Change α β → Objects α β → List α → Option (List α)
  | .store path _, _, key | .remove path, _, key => if key = path then none else some key
  | .rename source target, b, key =>
    if isDirectory sep b source then
      if source ++ [sep] <+: key then
        some (target ++ [sep] ++ key.drop (source ++ [sep]).length)
      else some key
    else if key = source then some target
    else some key

variable {sep b} {change : Change α β} {key key' : List α}

omit [DecidableEq α] in
theorem isDirectory_iff {path : List α} :
    isDirectory sep b path = true ↔ b (path ++ [sep]) = some [] := by
  rw [isDirectory]
  cases b (path ++ [sep]) <;> simp

/-- An object is found with its bytes where the change carries it. -/
theorem Change.apply_carry (hfits : change.Fits sep b) (hkey : (b key).isSome)
    (hcarry : change.carry sep b key = some key') : change.apply sep b key' = b key := by
  cases change with
  | store path body =>
    rw [Change.carry] at hcarry
    split at hcarry
    · cases hcarry
    · rename_i hne
      cases hcarry
      exact Function.update_of_ne hne _ _
  | remove path =>
    rw [Change.carry] at hcarry
    split at hcarry
    · cases hcarry
    · rename_i hne
      cases hcarry
      exact Function.update_of_ne hne _ _
  | rename source target =>
    obtain ⟨hsource, htarget, hbelow⟩ := hfits
    rw [Change.carry] at hcarry
    rw [Change.apply]
    split at hcarry
    · rename_i hdir
      rw [if_pos hdir]
      split at hcarry
      · rename_i hpre
        obtain ⟨rest, rfl⟩ := hpre
        cases hcarry
        rw [List.drop_left, movePrefix_target]
      · rename_i hpre
        cases hcarry
        -- the key is not below the target, where nothing is stored
        refine movePrefix_other ?_ hpre
        rintro ⟨rest, rfl⟩
        rw [hbelow] at hkey
        cases hkey
    · rename_i hdir
      obtain ⟨body, hbody⟩ := Option.isSome_iff_exists.mp (hsource.resolve_left hdir)
      rw [if_neg hdir, hbody]
      split at hcarry
      · rename_i heq
        cases hcarry
        rw [heq, hbody]
        exact Function.update_self _ _ _
      · rename_i hne
        cases hcarry
        have hother : key ≠ target := by
          rintro rfl
          rw [htarget] at hkey
          cases hkey
        exact (Function.update_of_ne hother _ _).trans (Function.update_of_ne hne _ _)

end FlatStore
