/-
Directories in a flat space of keys.

A key is a list, and a separator cuts it into components.  A store of such keys
has no directories of its own: a directory is there when the key that ends in
the separator is stored.  `Rooted` says of a set of keys that the parent of each
is the root or is stored, and the lemmas say which changes of the set keep it.
-/
import Mathlib.Data.Set.Insert

namespace KeyTree

variable {α : Type} (sep : α) (root : List α)

/-- `key` is one component below `dir`, as a leaf or as a directory. -/
def IsParent (dir key : List α) : Prop :=
  dir.getLast? = some sep ∧
    ∃ c, c ≠ [] ∧ sep ∉ c ∧ (key = dir ++ c ∨ key = dir ++ c ++ [sep])

def Rooted (N : Set (List α)) : Prop :=
  ∀ key ∈ N, ∃ dir, IsParent sep dir key ∧ (dir = root ∨ dir ∈ N)

/-- The keys after the prefix of those that begin with it is replaced. -/
def moveBelow (source target : List α) (N : Set (List α)) : Set (List α) :=
  {key | (∃ rest, key = target ++ rest ∧ source ++ rest ∈ N) ∨ key ∈ N ∧ ¬ source <+: key}

/-- What the keys hold after the prefix of those that begin with it is replaced, if
none begins with the new one. -/
def movePrefix {β : Type} [DecidableEq α] (source target : List α) (f : List α → Option β)
    (key : List α) : Option β :=
  if target <+: key then f (source ++ key.drop target.length)
  else if source <+: key then none else f key

/-- The same when keys may begin with the new prefix: those that are moved come before
what was there. -/
def moveOnto {β : Type} [DecidableEq α] (source target : List α) (f : List α → Option β)
    (key : List α) : Option β :=
  (if target <+: key then f (source ++ key.drop target.length) else none).or
    (if source <+: key then none else f key)

variable {sep root} {N : Set (List α)} {dir key : List α}

theorem IsParent.begins (h : IsParent sep dir key) : dir <+: key := by
  obtain ⟨-, c, -, -, rfl | rfl⟩ := h
  · exact List.prefix_append dir c
  · rw [List.append_assoc]
    exact List.prefix_append dir _

theorem IsParent.ne (h : IsParent sep dir key) : dir ≠ key := by
  obtain ⟨-, c, hc, -, rfl | rfl⟩ := h <;> intro heq <;> simp_all

/-- A directory above a key is above its parent, or is the parent. -/
theorem IsParent.longest (h : IsParent sep dir key) {d : List α}
    (hd : d.getLast? = some sep) (hpre : d <+: key) (hne : d ≠ key) : d <+: dir := by
  rcases List.prefix_or_prefix_of_prefix hpre h.begins with hle | ⟨r, rfl⟩
  · exact hle
  · obtain ⟨-, c, -, hsep, hkey⟩ := h
    cases hr : r.getLast? with
    | none =>
      obtain rfl := List.getLast?_eq_none_iff.mp hr
      exact ⟨[], by simp⟩
    | some x =>
      have hx : x = sep := by
        rw [List.getLast?_append, hr] at hd
        exact Option.some.inj hd
      subst hx
      have hmem : x ∈ r := List.mem_of_getLast? hr
      exfalso
      rcases hkey with rfl | rfl
      · exact hsep ((List.prefix_append_right_inj dir).mp hpre |>.subset hmem)
      · rw [List.append_assoc, List.prefix_append_right_inj] at hpre
        rcases List.prefix_concat_iff.mp hpre with rfl | hpre
        · exact hne (List.append_assoc _ _ _).symm
        · exact hsep (hpre.subset hmem)

theorem IsParent.not_begins (h : IsParent sep dir key) {d : List α} (hd : ¬ d <+: key) :
    ¬ d <+: dir := fun hpre => hd (hpre.trans h.begins)

/-- Every directory above a stored key is stored or above the root. -/
theorem Rooted.ancestors (hN : Rooted sep root N) {key : List α} (hkey : key ∈ N) {d : List α}
    (hd : d.getLast? = some sep) (hpre : d <+: key) (hne : d ≠ key) : d <+: root ∨ d ∈ N := by
  induction hlen : key.length using Nat.strong_induction_on generalizing key with
  | _ n ih =>
    obtain ⟨dir, hdir, hroot | hmem⟩ := hN key hkey
    · exact Or.inl (hroot ▸ hdir.longest hd hpre hne)
    · have hle := hdir.longest hd hpre hne
      by_cases heq : d = dir
      · exact Or.inr (heq ▸ hmem)
      · have hshort : dir.length < n := by
          subst hlen
          exact Nat.lt_of_le_of_ne hdir.begins.length_le fun h =>
            hdir.ne (hdir.begins.eq_of_length h)
        exact ih dir.length hshort hmem hle heq rfl

/-- No component of a stored key is empty. -/
theorem Rooted.not_double (hN : Rooted sep root N) (p : List α) : p ++ [sep] ++ [sep] ∉ N := by
  intro h
  obtain ⟨d, ⟨-, c, hc, hsep, heq⟩, -⟩ := hN _ h
  have hlast : (d ++ c).getLast? = some sep := by
    rcases heq with heq | heq
    · rw [← heq, List.getLast?_concat]
    · rw [← List.append_cancel_right heq, List.getLast?_concat]
  rw [List.getLast?_append, List.getLast?_eq_some_getLast hc, Option.some_or] at hlast
  exact hsep (List.mem_of_getLast? ((List.getLast?_eq_some_getLast hc).trans hlast))

/-- A key stored below a stored directory. -/
theorem Rooted.insert (hN : Rooted sep root N) (hdir : IsParent sep dir key)
    (hmem : dir = root ∨ dir ∈ N) : Rooted sep root (insert key N) := by
  intro k hk
  rcases Set.mem_insert_iff.mp hk with rfl | hk
  · exact ⟨dir, hdir, hmem.imp_right fun h => Set.mem_insert_of_mem _ h⟩
  · obtain ⟨d, hd, h⟩ := hN k hk
    exact ⟨d, hd, h.imp_right fun h => Set.mem_insert_of_mem _ h⟩

/-- A key removed that is the parent of none. -/
theorem Rooted.remove (hN : Rooted sep root N) (hkey : ∀ k ∈ N, ¬ IsParent sep key k) :
    Rooted sep root (N \ {key}) := by
  rintro k ⟨hk, -⟩
  obtain ⟨d, hd, h⟩ := hN k hk
  refine ⟨d, hd, h.imp_right fun h => ⟨h, ?_⟩⟩
  rintro rfl
  exact hkey k hk hd

/-- A leaf is the parent of none. -/
theorem not_isParent_of_leaf (h : key.getLast? ≠ some sep) (k : List α) :
    ¬ IsParent sep key k := fun hp => h hp.1

/-- A directory moved with everything below it, to where it is not below itself. -/
theorem Rooted.moveBelow (hN : Rooted sep root N) {source target : List α}
    (hsource : source.getLast? = some sep) (htarget : target.getLast? = some sep)
    (hroot : ¬ source <+: root) (hdir : IsParent sep dir target) (hmem : dir = root ∨ dir ∈ N)
    (hself : source <+: target → source = target) :
    Rooted sep root (moveBelow source target N) := by
  rintro k (⟨rest, rfl, hk⟩ | ⟨hk, hnot⟩)
  · by_cases hrest : rest = []
    · subst hrest
      rw [List.append_nil]
      refine ⟨dir, hdir, hmem.imp_right fun h => Or.inr ⟨h, fun hpre => ?_⟩⟩
      have heq := hself (hpre.trans hdir.begins)
      exact hdir.ne (hdir.begins.eq_of_length_le (heq ▸ hpre).length_le)
    · obtain ⟨d, hd, h⟩ := hN _ hk
      obtain ⟨r, rfl⟩ := hd.longest hsource (List.prefix_append _ _)
        fun heq => hrest (List.append_right_eq_self.mp heq.symm)
      have hr : source ++ r ∈ N :=
        h.resolve_left fun heq => hroot (heq ▸ List.prefix_append source r)
      have hlast : (target ++ r).getLast? = (source ++ r).getLast? := by
        rw [List.getLast?_append, List.getLast?_append, hsource, htarget]
      rw [hd.1] at hlast
      obtain ⟨-, c, hc, hsep, heq⟩ := hd
      have hkey : target ++ rest = target ++ r ++ c ∨ target ++ rest = target ++ r ++ c ++ [sep] := by
        simpa [List.append_assoc] using heq
      exact ⟨target ++ r, ⟨hlast, c, hc, hsep, hkey⟩, Or.inr (Or.inl ⟨r, rfl, hr⟩)⟩
  · obtain ⟨d, hd, h⟩ := hN k hk
    exact ⟨d, hd, h.imp_right fun h => Or.inr ⟨h, hd.not_begins hnot⟩⟩

section Contents

variable {β : Type} [DecidableEq α] {source target : List α} {f : List α → Option β}

theorem movePrefix_target (rest : List α) :
    movePrefix source target f (target ++ rest) = f (source ++ rest) := by
  rw [movePrefix, if_pos (List.prefix_append target rest), List.drop_left]

theorem movePrefix_source {rest : List α} (h : ¬ target <+: source ++ rest) :
    movePrefix source target f (source ++ rest) = none := by
  rw [movePrefix, if_neg h, if_pos (List.prefix_append source rest)]

theorem movePrefix_other (htarget : ¬ target <+: key) (hsource : ¬ source <+: key) :
    movePrefix source target f key = f key := by
  rw [movePrefix, if_neg htarget, if_neg hsource]

theorem moveOnto_eq_some {v : β} (h : moveOnto source target f key = some v) :
    (∃ rest, key = target ++ rest ∧ f (source ++ rest) = some v) ∨
      f key = some v ∧ ¬ source <+: key := by
  rw [moveOnto, Option.or_eq_some_iff] at h
  rcases h with h | ⟨-, h⟩
  · split at h
    · rename_i hpre
      obtain ⟨rest, rfl⟩ := hpre
      rw [List.drop_left] at h
      exact Or.inl ⟨rest, rfl, h⟩
    · cases h
  · split at h
    · cases h
    · rename_i hpre
      exact Or.inr ⟨h, hpre⟩

/-- Onto a prefix that is free, every key that begins with the old one is moved. -/
theorem moveOnto_vacant (h : ∀ rest, f (target ++ rest) = none) :
    moveOnto source target f = movePrefix source target f := by
  funext key
  rw [moveOnto, movePrefix]
  by_cases htarget : target <+: key
  · obtain ⟨rest, rfl⟩ := htarget
    simp [h rest]
  · rw [if_neg htarget, if_neg htarget, Option.none_or]

theorem moveOnto_isSome : (moveOnto source target f key).isSome ↔
    key ∈ moveBelow source target {key | (f key).isSome} := by
  constructor
  · intro h
    obtain ⟨v, hv⟩ := Option.isSome_iff_exists.mp h
    rcases moveOnto_eq_some hv with ⟨rest, rfl, hrest⟩ | ⟨hkey, hpre⟩
    · exact Or.inl ⟨rest, rfl, Option.isSome_of_eq_some hrest⟩
    · exact Or.inr ⟨Option.isSome_of_eq_some hkey, hpre⟩
  · rw [moveOnto, Option.isSome_or, Bool.or_eq_true]
    rintro (⟨rest, rfl, hrest⟩ | ⟨hkey, hpre⟩)
    · left
      rw [if_pos (List.prefix_append target rest), List.drop_left]
      exact hrest
    · right
      rw [if_neg hpre]
      exact hkey

end Contents

end KeyTree
