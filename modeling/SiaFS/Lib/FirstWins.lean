/-
Lists that keep the first entry of every key.

An entry is appended where the list has none of its key yet.  After any number of
entries the keys are distinct, and an entry is found for a key exactly when one was
offered, which is the first one offered.
-/
import Mathlib.Data.List.Basic
import Mathlib.Data.List.Induction
import Mathlib.Data.List.Nodup

namespace FirstWins

variable {α κ : Type} [DecidableEq κ] (key : α → κ)

def push (l : List α) (x : α) : List α :=
  if key x ∈ l.map key then l else l ++ [x]

def pushAll (xs : List α) : List α := xs.foldl (push key) []

variable {key} {l xs : List α} {x : α} {k : κ}

theorem push_of_mem (h : key x ∈ l.map key) : push key l x = l := if_pos h

theorem push_of_not_mem (h : key x ∉ l.map key) : push key l x = l ++ [x] := if_neg h

theorem nodup_push (h : (l.map key).Nodup) (x : α) : ((push key l x).map key).Nodup := by
  by_cases hx : key x ∈ l.map key
  · rwa [push_of_mem hx]
  · rw [push_of_not_mem hx, List.map_append, List.map_singleton, List.nodup_append]
    refine ⟨h, List.nodup_singleton _, fun a ha b hb => ?_⟩
    rw [List.mem_singleton] at hb
    rw [hb]
    exact ne_of_mem_of_not_mem ha hx

/-- What is found for a key is what was found before, or the new entry. -/
theorem find?_push (l : List α) (x : α) (k : κ) :
    (push key l x).find? (fun y => key y == k) =
      (l.find? fun y => key y == k).or (if key x = k then some x else none) := by
  by_cases hx : key x ∈ l.map key
  · rw [push_of_mem hx]
    split
    · rename_i hk
      obtain ⟨y, hy, hyx⟩ := List.mem_map.mp hx
      have hfound : (l.find? fun y => key y == k).isSome := by
        rw [List.find?_isSome]
        exact ⟨y, hy, by rw [hyx, hk, beq_self_eq_true]⟩
      rw [Option.or_of_isSome hfound]
    · rw [Option.or_none]
  · rw [push_of_not_mem hx, List.find?_append, List.find?_singleton]
    congr 1
    simp only [beq_iff_eq]

theorem pushAll_concat (xs : List α) (x : α) :
    pushAll key (xs ++ [x]) = push key (pushAll key xs) x := by
  rw [pushAll, List.foldl_append]
  rfl

theorem mem_of_mem_push {y : α} (h : y ∈ push key l x) : y ∈ l ∨ y = x := by
  unfold push at h
  split at h
  · exact .inl h
  · exact (List.mem_append.mp h).imp_right List.mem_singleton.mp

theorem mem_of_mem_pushAll {y : α} (h : y ∈ pushAll key xs) : y ∈ xs := by
  induction xs using List.reverseRecOn with
  | nil => exact h
  | append_singleton xs x ih =>
    rw [pushAll_concat] at h
    rw [List.mem_append, List.mem_singleton]
    exact (mem_of_mem_push h).imp_left ih

theorem nodup_pushAll (xs : List α) : ((pushAll key xs).map key).Nodup := by
  induction xs using List.reverseRecOn with
  | nil => exact List.nodup_nil
  | append_singleton xs x ih =>
    rw [pushAll_concat]
    exact nodup_push ih x

theorem find?_pushAll (xs : List α) (k : κ) :
    (pushAll key xs).find? (fun y => key y == k) = xs.find? fun y => key y == k := by
  induction xs using List.reverseRecOn with
  | nil => rfl
  | append_singleton xs x ih =>
    rw [pushAll_concat, find?_push, ih, List.find?_append, List.find?_singleton]
    simp only [beq_iff_eq]

theorem mem_keys_pushAll : k ∈ (pushAll key xs).map key ↔ k ∈ xs.map key := by
  have hfound : ∀ l : List α, k ∈ l.map key ↔ (l.find? fun y => key y == k).isSome := by
    intro l
    rw [List.find?_isSome, List.mem_map]
    simp only [beq_iff_eq]
  rw [hfound, hfound, find?_pushAll]

end FirstWins
