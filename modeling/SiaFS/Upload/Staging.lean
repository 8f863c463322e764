/-
What staging a file part by part is for.

A file is uploaded as numbered parts of equal length.  Writes arrive as shorter
blocks, so a slot collects the blocks of its part and is pushed once the part is
complete.  `Geometry.write` decides both questions, which bytes a slot holds and
when it is pushed, from the offset and the length of one write alone, and it
always appends.  Everything the uploads of the file system do with data is this
machine; `InOrder` is what it guarantees when a file is written in order in full
blocks, with at most the last block short.
-/
import Mathlib.Data.List.Basic
import Mathlib.Logic.Function.Basic
import SiaFS.Lib.Pieces

namespace SiaFS
namespace Staging

open Pieces

/-- Blocks of `block` elements, `writes` of them to a part, `slots` parts.  With
`keep` a staging file survives its push. -/
structure Geometry where
  block : Nat
  writes : Nat
  slots : Nat
  keep : Bool
  block_pos : 0 < block
  two_le_writes : 2 ≤ writes

/-- A slot: the elements staged for its part, absent before its first write, and
every push of the part so far with the tag it was answered with, if any. -/
structure Slot (α τ : Type) where
  staged : Option (List α)
  puts : List (List α × Option τ)

namespace Slot

variable {α τ : Type}

def empty : Slot α τ := { staged := none, puts := [] }

/-- The pushes that were answered with a tag. -/
def accepted (s : Slot α τ) : List (List α × τ) :=
  s.puts.filterMap fun p => p.2.map (Prod.mk p.1)

/-- The last accepted push. -/
def part (s : Slot α τ) : Option (List α × τ) := s.accepted.getLast?

def body (s : Slot α τ) : Option (List α) := s.part.map Prod.fst

def tag (s : Slot α τ) : Option τ := s.part.map Prod.snd

def hold (s : Slot α τ) (b : List α) : Slot α τ := { s with staged := some b }

/-- Push `b`.  An accepted push empties the slot, unless it is told to keep `b`;
a rejected one leaves `b` staged. -/
def push (s : Slot α τ) (b : List α) (ans : Option τ) (keep : Bool) : Slot α τ :=
  { staged := some (if ans.isSome ∧ keep = false then [] else b), puts := s.puts ++ [(b, ans)] }

@[simp] theorem empty_staged : (empty : Slot α τ).staged = none := rfl

@[simp] theorem empty_puts : (empty : Slot α τ).puts = [] := rfl

@[simp] theorem hold_staged (s : Slot α τ) (b : List α) : (s.hold b).staged = some b := rfl

@[simp] theorem hold_puts (s : Slot α τ) (b : List α) : (s.hold b).puts = s.puts := rfl

@[simp] theorem push_puts (s : Slot α τ) (b : List α) (ans : Option τ) (keep : Bool) :
    (s.push b ans keep).puts = s.puts ++ [(b, ans)] := rfl

theorem part_of_puts_nil {s : Slot α τ} (h : s.puts = []) : s.part = none := by
  simp [part, accepted, h]

theorem part_of_puts_singleton {s : Slot α τ} {b : List α} {ans : Option τ}
    (h : s.puts = [(b, ans)]) : s.part = ans.map (Prod.mk b) := by
  cases ans <;> simp [part, accepted, h]

theorem tag_mem_puts {s : Slot α τ} {t : τ} (h : s.tag = some t) : ∃ b, (b, some t) ∈ s.puts := by
  obtain ⟨x, hpart, rfl⟩ := Option.map_eq_some_iff.mp h
  obtain ⟨⟨b, ans⟩, hmem, hput⟩ := List.mem_filterMap.mp (List.mem_of_getLast? hpart)
  obtain ⟨t, rfl, rfl⟩ := Option.map_eq_some_iff.mp hput
  exact ⟨b, hmem⟩

@[simp] theorem hold_part (s : Slot α τ) (b : List α) : (s.hold b).part = s.part := rfl

theorem push_part_some (s : Slot α τ) (b : List α) (t : τ) (keep : Bool) :
    (s.push b (some t) keep).part = some (b, t) := by
  simp [part, accepted, push]

theorem push_part_none (s : Slot α τ) (b : List α) (keep : Bool) :
    (s.push b none keep).part = s.part := by
  simp [part, accepted, push]

end Slot

abbrev Slots (α τ : Type) := Nat → Slot α τ

namespace Geometry

variable {α τ : Type} (g : Geometry)

def partSize : Nat := g.block * g.writes

/-- A write pushes its slot when it starts in the last block of the part, or
when it is short, which is taken as the end of the file. -/
def pushes (offset size : Nat) : Prop :=
  g.block * (g.writes - 1) ≤ offset % g.partSize ∨ (0 < offset ∧ size < g.block)

instance (offset size : Nat) : Decidable (g.pushes offset size) :=
  inferInstanceAs (Decidable (_ ∨ _))

/-- What the slot of a write holds when the write arrives: a write at the start
of a part begins a new staging file, any other needs the one it finds. -/
def found (st : Slots α τ) (offset : Nat) : Option (List α) :=
  if offset % g.partSize = 0 then some [] else (st (offset / g.partSize)).staged

/-- The slot of a write once the staging file holds `b`.  `ans` is the answer to
the push, if there is one. -/
def settle (s : Slot α τ) (offset size : Nat) (b : List α) (ans : Option τ) : Slot α τ :=
  if g.pushes offset size then s.push b ans g.keep else s.hold b

/-- One write.  There is no next state for a write past the last slot or into a
slot without a staging file. -/
def write (st : Slots α τ) (offset : Nat) (data : List α) (ans : Option τ) :
    Option (Slots α τ) :=
  if offset / g.partSize < g.slots then
    (g.found st offset).map fun b =>
      Function.update st (offset / g.partSize)
        (g.settle (st (offset / g.partSize)) offset data.length (b ++ data) ans)
  else none

theorem settle_of_pushes {offset size : Nat} (h : g.pushes offset size) (s : Slot α τ)
    (b : List α) (ans : Option τ) : g.settle s offset size b ans = s.push b ans g.keep :=
  if_pos h

theorem settle_of_not_pushes {offset size : Nat} (h : ¬ g.pushes offset size) (s : Slot α τ)
    (b : List α) (ans : Option τ) : g.settle s offset size b ans = s.hold b :=
  if_neg h

theorem write_eq_some {st : Slots α τ} {offset : Nat} {b : List α}
    (hs : offset / g.partSize < g.slots) (hb : g.found st offset = some b) (data : List α)
    (ans : Option τ) :
    g.write st offset data ans =
      some (Function.update st (offset / g.partSize)
        (g.settle (st (offset / g.partSize)) offset data.length (b ++ data) ans)) := by
  rw [write, if_pos hs, hb, Option.map_some]

theorem writes_pos : 0 < g.writes := Nat.lt_of_lt_of_le Nat.zero_lt_two g.two_le_writes

theorem partSize_pos : 0 < g.partSize := Nat.mul_pos g.block_pos g.writes_pos

theorem not_pushes_zero (size : Nat) : ¬ g.pushes 0 size := by
  have h2 := g.two_le_writes
  have := Nat.mul_pos g.block_pos (by omega : 0 < g.writes - 1)
  simp only [pushes, Nat.zero_mod]
  omega

/-- The first write of a file. -/
theorem write_zero (hs : 0 < g.slots) (data : List α) (ans : Option τ) :
    g.write (fun _ => (Slot.empty : Slot α τ)) 0 data ans =
      some (Function.update (fun _ => Slot.empty) 0 (Slot.empty.hold data)) := by
  have hfound : g.found (fun _ => (Slot.empty : Slot α τ)) 0 = some [] := by
    rw [found, if_pos (Nat.zero_mod _)]
  rw [g.write_eq_some (by rwa [Nat.zero_div]) hfound, Nat.zero_div, List.nil_append,
    g.settle_of_not_pushes (g.not_pushes_zero _)]

/-- The accepted bodies in the order of their parts. -/
def published (st : Slots α τ) : List α :=
  (List.range g.slots).flatMap fun s => ((st s).body).getD []

/-- The number of blocks of `c`, the last of which may be short. -/
def blocks (c : List α) : Nat := (c.length + g.block - 1) / g.block

theorem length_le_blocks (c : List α) : c.length ≤ g.blocks c * g.block := by
  have hb := g.block_pos
  have hdiv := Nat.div_add_mod' (c.length + g.block - 1) g.block
  have hmod := Nat.mod_lt (c.length + g.block - 1) hb
  rw [blocks]
  omega

theorem blocks_pos {c : List α} (h : 0 < c.length) : 0 < g.blocks c := by
  refine Nat.pos_of_ne_zero fun hz => ?_
  have := g.length_le_blocks c
  rw [hz] at this
  omega

theorem blocks_lt {c : List α} (h : 0 < c.length) : (g.blocks c - 1) * g.block < c.length := by
  have hle : g.blocks c * g.block ≤ c.length + g.block - 1 := Nat.div_mul_le_self _ _
  have hpos := g.blocks_pos h
  have hb := g.block_pos
  rw [Nat.sub_mul, Nat.one_mul]
  omega

theorem block_div (m : Nat) : m * g.block / g.partSize = m / g.writes :=
  Pieces.block_div g.block_pos

theorem block_mod (m : Nat) : m * g.block % g.partSize = g.block * (m % g.writes) :=
  Pieces.block_mod

end Geometry

/-! ## Writing in order -/

section InOrder

variable {α τ : Type} {g : Geometry} {c : List α} {rej : Nat → Prop} {m : Nat}
  {st : Slots α τ}

/-- After `m` blocks, slot `s` has all its blocks, or the short one that ends
the file. -/
def Closed (g : Geometry) (c : List α) (m s : Nat) : Prop :=
  (s + 1) * g.writes ≤ m ∨ c.length < m * g.block

/-- The state after the first `m` blocks of `c`, written in order.  `rej` tells
which parts are rejected when they are pushed. -/
structure InOrder (g : Geometry) (c : List α) (rej : Nat → Prop) (m : Nat)
    (st : Slots α τ) : Prop where
  untouched : ∀ s, m ≤ s * g.writes → st s = Slot.empty
  filling : ∀ s, s * g.writes < m → ¬ Closed g c m s →
    (st s).staged = some (piece g.partSize (c.take (m * g.block)) s) ∧ (st s).puts = []
  pushed : ∀ s, s * g.writes < m → Closed g c m s →
    ∃ t, (st s).puts = [(piece g.partSize (c.take (m * g.block)) s, t)] ∧ (t = none ↔ rej s)

theorem inOrder_zero : InOrder g c rej 0 (fun _ => (Slot.empty : Slot α τ)) :=
  { untouched := fun _ _ => rfl
    filling := fun _ h => absurd h (Nat.not_lt_zero _)
    pushed := fun _ h => absurd h (Nat.not_lt_zero _) }

/-- A slot other than the current one is behind it or still untouched. -/
theorem slot_before {w s : Nat} (hw : 0 < w) (hs : s * w < m + 1) (hne : s ≠ m / w) :
    (s + 1) * w ≤ m := by
  have hle : s ≤ m / w := (Nat.le_div_iff_mul_le hw).mpr (by omega)
  exact (Nat.le_div_iff_mul_le hw).mp (by omega)

theorem current_started {w : Nat} : m / w * w < m + 1 :=
  Nat.lt_succ_of_le (Nat.div_mul_le_self m w)

/-- The write of block `m` pushes its slot exactly when the block closes it. -/
theorem pushes_block_iff (hb : m * g.block < c.length) (h0 : g.block ≤ c.length) :
    g.pushes (m * g.block) (piece g.block c m).length ↔ Closed g c (m + 1) (m / g.writes) := by
  have hw := g.two_le_writes
  have hdm : m / g.writes * g.writes + m % g.writes = m := Nat.div_add_mod' m g.writes
  have hlt := Nat.mod_lt m g.writes_pos
  have hfull : g.block * (g.writes - 1) ≤ g.block * (m % g.writes) ↔
      (m / g.writes + 1) * g.writes ≤ m + 1 := by
    rw [Nat.mul_le_mul_left_iff g.block_pos, Nat.succ_mul]
    omega
  have hnext : (m + 1) * g.block = m * g.block + g.block := Nat.succ_mul _ _
  have hshort : (0 < m * g.block ∧ min g.block (c.length - m * g.block) < g.block) ↔
      c.length < (m + 1) * g.block := by
    constructor
    · omega
    · intro h
      refine ⟨Nat.pos_of_ne_zero fun hz => ?_, by omega⟩
      omega
  rw [Geometry.pushes, g.block_mod, length_piece, hfull, hshort, Closed]

/-- What the slot of block `m` holds when the block arrives. -/
theorem InOrder.found_eq (h : InOrder g c rej m st) (hb : m * g.block < c.length) :
    g.found st (m * g.block) =
      some (piece g.partSize (c.take (m * g.block)) (m / g.writes)) := by
  have hdm : m / g.writes * g.writes + m % g.writes = m := Nat.div_add_mod' m g.writes
  rw [Geometry.found, g.block_div, g.block_mod]
  by_cases hz : m % g.writes = 0
  · rw [if_pos (by rw [hz, Nat.mul_zero]), piece_eq_nil]
    have : m / g.writes * g.partSize = m * g.block := by
      rw [Geometry.partSize, Nat.mul_comm g.block, ← Nat.mul_assoc]
      rw [hz, Nat.add_zero] at hdm
      rw [hdm]
    rw [this, List.length_take]
    omega
  · have hne : g.block * (m % g.writes) ≠ 0 :=
      Nat.mul_ne_zero (Nat.ne_of_gt g.block_pos) hz
    rw [if_neg hne]
    refine (h.filling _ (by omega) ?_).1
    rintro (hc | hc)
    · rw [Nat.succ_mul] at hc
      have := Nat.mod_lt m g.writes_pos
      omega
    · omega

theorem piece_behind {s : Nat} (hs : (s + 1) * g.writes ≤ m) :
    piece g.partSize (c.take ((m + 1) * g.block)) s =
      piece g.partSize (c.take (m * g.block)) s := by
  refine piece_take_eq (Or.inl ?_)
  have h : (s + 1) * g.partSize ≤ m * g.block := by
    calc (s + 1) * g.partSize = (s + 1) * g.writes * g.block := by
          rw [Geometry.partSize, Nat.mul_comm g.block, Nat.mul_assoc]
      _ ≤ m * g.block := Nat.mul_le_mul_right _ hs
  have hnext : (m + 1) * g.block = m * g.block + g.block := Nat.succ_mul _ _
  omega

/-- One more block in order. -/
theorem InOrder.step (h : InOrder g c rej m st) (hb : m * g.block < c.length)
    (h0 : g.block ≤ c.length) (hs : m / g.writes < g.slots) (ans : Option τ)
    (hans : g.pushes (m * g.block) (piece g.block c m).length →
      (ans = none ↔ rej (m / g.writes))) :
    ∃ st', g.write st (m * g.block) (piece g.block c m) ans = some st' ∧
      InOrder g c rej (m + 1) st' := by
  have hcontent : piece g.partSize (c.take (m * g.block)) (m / g.writes) ++
      piece g.block c m = piece g.partSize (c.take ((m + 1) * g.block)) (m / g.writes) :=
    (piece_take_succ g.writes_pos c).symm
  have hcur : m / g.writes * g.writes < m + 1 := current_started
  have hopen : (st (m / g.writes)).puts = [] := by
    by_cases hz : m / g.writes * g.writes < m
    · refine (h.filling _ hz ?_).2
      rintro (hc | hc)
      · rw [Nat.succ_mul] at hc
        have := Nat.div_add_mod' m g.writes
        have := Nat.mod_lt m g.writes_pos
        omega
      · omega
    · rw [h.untouched _ (by omega)]
      rfl
  have hclosed := pushes_block_iff hb h0
  rw [g.write_eq_some (by rwa [g.block_div]) (h.found_eq hb), g.block_div, hcontent]
  refine ⟨_, rfl, ?_⟩
  refine ⟨fun s hm => ?_, fun s hm hc => ?_, fun s hm hc => ?_⟩
  · have hne : s ≠ m / g.writes := by
      rintro rfl
      omega
    rw [Function.update_of_ne hne]
    exact h.untouched s (by omega)
  · by_cases hne : s = m / g.writes
    · subst hne
      rw [Function.update_self, g.settle_of_not_pushes (fun hp => hc (hclosed.mp hp))]
      exact ⟨rfl, hopen⟩
    · exact absurd (Or.inl (Nat.le_succ_of_le (slot_before g.writes_pos hm hne))) hc
  · by_cases hne : s = m / g.writes
    · subst hne
      have hp := hclosed.mpr hc
      rw [Function.update_self, g.settle_of_pushes hp]
      exact ⟨ans, by rw [Slot.push_puts, hopen, List.nil_append], hans hp⟩
    · have hle := slot_before g.writes_pos hm hne
      rw [Function.update_of_ne hne, piece_behind hle]
      refine h.pushed s ?_ (Or.inl hle)
      have := g.writes_pos
      rw [Nat.succ_mul] at hle
      omega

/-! ## The whole file written -/

/-- What an accepted slot holds in the end. -/
theorem InOrder.body_pushed (h : InOrder g c rej m st) {s : Nat} (hs : s * g.writes < m)
    (hc : Closed g c m s) (hrej : ¬ rej s) :
    (st s).body = some (piece g.partSize (c.take (m * g.block)) s) := by
  obtain ⟨t, ht, hiff⟩ := h.pushed s hs hc
  rw [Slot.body, Slot.part_of_puts_singleton ht]
  cases t with
  | none => exact absurd (hiff.mp rfl) hrej
  | some t => rfl

theorem InOrder.body_unpushed (h : InOrder g c rej m st) {s : Nat}
    (hs : m ≤ s * g.writes ∨ ¬ Closed g c m s) : (st s).body = none := by
  by_cases hm : m ≤ s * g.writes
  · rw [h.untouched s hm]
    rfl
  · have hc := hs.resolve_left hm
    rw [Slot.body, Slot.part_of_puts_nil (h.filling s (by omega) hc).2]
    rfl

/-- The slots with a tag are those that were pushed and accepted. -/
theorem InOrder.tag_isSome_iff (h : InOrder g c rej m st) (s : Nat) :
    (st s).tag.isSome ↔ s * g.writes < m ∧ Closed g c m s ∧ ¬ rej s := by
  by_cases hs : s * g.writes < m ∧ Closed g c m s
  · obtain ⟨t, ht, hiff⟩ := h.pushed s hs.1 hs.2
    rw [Slot.tag, Slot.part_of_puts_singleton ht, ← hiff]
    cases t <;> simp [hs.1, hs.2]
  · have hnone : (st s).tag = none := by
      by_cases hm : s * g.writes < m
      · rw [Slot.tag, Slot.part_of_puts_nil (h.filling s hm fun hc => hs ⟨hm, hc⟩).2]
        rfl
      · rw [h.untouched s (by omega)]
        rfl
    rw [hnone]
    simp only [Option.isSome_none, Bool.false_eq_true, false_iff]
    exact fun hall => hs ⟨hall.1, hall.2.1⟩

/-- The last slot of a file is pushed unless the file ends with a full block
that is not the last of its part. -/
theorem closed_last_iff (h0 : 0 < c.length) :
    Closed g c (g.blocks c) ((g.blocks c - 1) / g.writes) ↔
      ¬ g.block ∣ c.length ∨ g.partSize ∣ c.length := by
  have hle := g.length_le_blocks c
  have hlt := g.blocks_lt h0
  have hpos := g.blocks_pos h0
  have hw := g.writes_pos
  have hb := g.block_pos
  generalize g.blocks c = n at hle hlt hpos
  obtain ⟨n, rfl⟩ : ∃ k, n = k + 1 := ⟨n - 1, by omega⟩
  rw [Nat.add_sub_cancel] at hlt ⊢
  have hdm := Nat.div_add_mod' n g.writes
  have hmod := Nat.mod_lt n hw
  have hsucc : (n + 1) * g.block = n * g.block + g.block := Nat.succ_mul _ _
  have hdvd : g.block ∣ c.length ↔ c.length = (n + 1) * g.block := by
    constructor
    · rintro ⟨k, hk⟩
      rw [Nat.mul_comm] at hk
      have h1 : n < k := by
        refine Nat.lt_of_mul_lt_mul_right (a := g.block) ?_
        omega
      have h2 : k ≤ n + 1 := by
        refine Nat.le_of_mul_le_mul_right ?_ hb
        omega
      rw [hk, show k = n + 1 by omega]
    · intro h
      exact ⟨n + 1, by rw [h, Nat.mul_comm]⟩
  have hfull : (n / g.writes + 1) * g.writes ≤ n + 1 ↔ g.writes ∣ n + 1 := by
    rw [Nat.succ_mul]
    constructor
    · intro h
      exact ⟨n / g.writes + 1, by rw [Nat.mul_comm, Nat.succ_mul]; omega⟩
    · rintro ⟨k, hk⟩
      have : n / g.writes < k := (Nat.div_lt_iff_lt_mul hw).mpr (by rw [Nat.mul_comm]; omega)
      have := Nat.mul_le_mul_right g.writes this
      rw [Nat.succ_mul, Nat.mul_comm k] at this
      omega
  rw [Closed, hfull, hdvd]
  have hpart : c.length = (n + 1) * g.block → (g.partSize ∣ c.length ↔ g.writes ∣ n + 1) := by
    intro h
    rw [h, Geometry.partSize, Nat.mul_comm (n + 1)]
    exact Nat.mul_dvd_mul_iff_left hb
  by_cases heq : c.length = (n + 1) * g.block
  · rw [hpart heq]
    omega
  · constructor
    · exact fun _ => Or.inl heq
    · exact fun _ => Or.inr (by omega)

/-- What a file written in order and without a rejected part comes to. -/
theorem InOrder.published_eq (h : InOrder g c rej (g.blocks c) st) (hrej : ∀ s, ¬ rej s)
    (h0 : 0 < c.length) (hs : (g.blocks c - 1) / g.writes < g.slots) :
    g.published st =
      if ¬ g.block ∣ c.length ∨ g.partSize ∣ c.length then c
      else c.take ((g.blocks c - 1) / g.writes * g.partSize) := by
  have hpos := g.blocks_pos h0
  have hw := g.writes_pos
  have hdm := Nat.div_add_mod' (g.blocks c - 1) g.writes
  have hmod := Nat.mod_lt (g.blocks c - 1) hw
  have htake : c.take (g.blocks c * g.block) = c := List.take_of_length_le (g.length_le_blocks c)
  have hlast := closed_last_iff (g := g) h0
  have hclosed : ∀ s, s < (g.blocks c - 1) / g.writes → (s + 1) * g.writes ≤ g.blocks c - 1 :=
    fun s hs => (Nat.le_div_iff_mul_le hw).mp hs
  have hbody : ∀ s, s * g.writes < g.blocks c → Closed g c (g.blocks c) s →
      ((st s).body).getD [] = piece g.partSize c s := by
    intro s hs hc
    rw [h.body_pushed hs hc (hrej s), htake]
    rfl
  have hbefore : ∀ s, s < (g.blocks c - 1) / g.writes →
      ((st s).body).getD [] = piece g.partSize c s := by
    intro s hs
    have hle := hclosed s hs
    refine hbody s ?_ (Or.inl (by omega))
    rw [Nat.succ_mul] at hle
    omega
  have hafter : ∀ s, (g.blocks c - 1) / g.writes + 1 ≤ s → ((st s).body).getD [] = [] := by
    intro s hs
    have := Nat.mul_le_mul_right g.writes hs
    rw [Nat.succ_mul] at this
    rw [h.body_unpushed (Or.inl (by omega))]
    rfl
  rw [Geometry.published, flatMap_range_of_nil hs hafter]
  by_cases hc : Closed g c (g.blocks c) ((g.blocks c - 1) / g.writes)
  · have hall : ∀ s ∈ List.range ((g.blocks c - 1) / g.writes + 1),
        ((st s).body).getD [] = piece g.partSize c s := by
      intro s hs
      have hs := List.mem_range.mp hs
      rcases Nat.lt_or_ge s ((g.blocks c - 1) / g.writes) with hlt | hge
      · exact hbefore s hlt
      · obtain rfl : s = (g.blocks c - 1) / g.writes := by omega
        exact hbody _ (by omega) hc
    rw [if_pos (hlast.mp hc), List.flatMap_congr hall, flatMap_piece]
    refine List.take_of_length_le ?_
    calc c.length ≤ g.blocks c * g.block := g.length_le_blocks c
      _ ≤ ((g.blocks c - 1) / g.writes + 1) * g.writes * g.block :=
          Nat.mul_le_mul_right _ (by rw [Nat.succ_mul]; omega)
      _ = ((g.blocks c - 1) / g.writes + 1) * g.partSize := by
          rw [Geometry.partSize, Nat.mul_assoc, Nat.mul_comm g.writes]
  · have hnone := h.body_unpushed (Or.inr hc)
    rw [if_neg fun hd => hc (hlast.mpr hd), List.range_succ, List.flatMap_append,
      List.flatMap_singleton, hnone, ← flatMap_piece]
    show _ ++ [] = _
    rw [List.append_nil]
    exact List.flatMap_congr fun s hs => hbefore s (List.mem_range.mp hs)

/-- The file comes out whole exactly when its last slot is pushed. -/
theorem InOrder.published_eq_iff (h : InOrder g c rej (g.blocks c) st) (hrej : ∀ s, ¬ rej s)
    (h0 : 0 < c.length) (hs : (g.blocks c - 1) / g.writes < g.slots) :
    g.published st = c ↔ ¬ g.block ∣ c.length ∨ g.partSize ∣ c.length := by
  rw [h.published_eq hrej h0 hs]
  by_cases hd : ¬ g.block ∣ c.length ∨ g.partSize ∣ c.length
  · rw [if_pos hd]
    exact ⟨fun _ => hd, fun _ => rfl⟩
  · rw [if_neg hd]
    refine ⟨fun heq => ?_, fun h => absurd h hd⟩
    have hlen := congrArg List.length heq
    have hlt := g.blocks_lt h0
    have hle : (g.blocks c - 1) / g.writes * g.partSize ≤ (g.blocks c - 1) * g.block := by
      calc (g.blocks c - 1) / g.writes * g.partSize =
            (g.blocks c - 1) / g.writes * g.writes * g.block := by
            rw [Geometry.partSize, Nat.mul_comm g.block, Nat.mul_assoc]
        _ ≤ (g.blocks c - 1) * g.block := Nat.mul_le_mul_right _ (Nat.div_mul_le_self _ _)
    rw [List.length_take] at hlen
    omega

end InOrder

end Staging
end SiaFS
