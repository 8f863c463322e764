/-
Percent-encoding of byte strings.

`escape` keeps the unreserved bytes and writes every other one as `%` and two
hexadecimal digits; `percentDecode` reads such a string back and rejects a `%`
without two digits after it.
-/
import Mathlib.Data.List.TakeWhile

namespace Percent

def percent : UInt8 := 37

def isDigit (b : UInt8) : Bool := 48 ≤ b && b ≤ 57

def isLetter (b : UInt8) : Bool := (65 ≤ b && b ≤ 90) || (97 ≤ b && b ≤ 122)

/-- Letters, digits, `-`, `.`, `_` and `~`. -/
def isUnreserved (b : UInt8) : Bool :=
  isLetter b || isDigit b || b == 45 || b == 46 || b == 95 || b == 126

/-- The digit of a number below 16. -/
def hexDigit (n : Nat) : UInt8 := if n < 10 then 48 + n.toUInt8 else 55 + n.toUInt8

def hexValue (b : UInt8) : Option Nat :=
  if isDigit b then some (b.toNat - 48)
  else if 65 ≤ b && b ≤ 70 then some (b.toNat - 55)
  else if 97 ≤ b && b ≤ 102 then some (b.toNat - 87)
  else none

def escapeByte (b : UInt8) : List UInt8 :=
  if isUnreserved b then [b] else [percent, hexDigit (b.toNat / 16), hexDigit (b.toNat % 16)]

def escape (s : List UInt8) : List UInt8 := s.flatMap escapeByte

def percentDecode : List UInt8 → Option (List UInt8)
  | [] => some []
  | b :: rest =>
    if b = percent then
      match rest with
      | h :: l :: rest' =>
        match hexValue h, hexValue l with
        | some x, some y => (percentDecode rest').map ((16 * x + y).toUInt8 :: ·)
        | _, _ => none
      | _ => none
    else (percentDecode rest).map (b :: ·)

/-! ## Reading back -/

theorem hexValue_hexDigit : ∀ n < 16, hexValue (hexDigit n) = some n := by decide

theorem isUnreserved_ne {b : UInt8} (h : isUnreserved b = true) :
    b ≠ percent ∧ b ≠ 63 ∧ b ≠ 35 ∧ b ≠ 38 := by
  refine ⟨?_, ?_, ?_, ?_⟩ <;> rintro rfl <;> revert h <;> decide

theorem hexDigit_unreserved : ∀ n < 16, isUnreserved (hexDigit n) = true := by decide

/-- Every byte of an escaped string is unreserved or a percent sign. -/
theorem mem_escape {s : List UInt8} {b : UInt8} (h : b ∈ escape s) :
    isUnreserved b = true ∨ b = percent := by
  obtain ⟨c, -, hb⟩ := List.mem_flatMap.mp h
  rw [escapeByte] at hb
  split at hb
  · rename_i hc
    rw [List.mem_singleton.mp hb]
    exact Or.inl hc
  · have hlt : c.toNat < 256 := c.toNat_lt
    simp only [List.mem_cons, List.not_mem_nil, or_false] at hb
    rcases hb with rfl | rfl | rfl
    · exact Or.inr rfl
    · exact Or.inl (hexDigit_unreserved _ (by omega))
    · exact Or.inl (hexDigit_unreserved _ (by omega))

theorem percentDecode_cons_ne {b : UInt8} (h : b ≠ percent) (rest : List UInt8) :
    percentDecode (b :: rest) = (percentDecode rest).map (b :: ·) := by
  rw [percentDecode.eq_def]
  show (if b = percent then _ else _) = _
  rw [if_neg h]

theorem percentDecode_escapeByte (b : UInt8) (rest : List UInt8) :
    percentDecode (escapeByte b ++ rest) = (percentDecode rest).map (b :: ·) := by
  rw [escapeByte]
  split
  · rename_i hb
    exact percentDecode_cons_ne (isUnreserved_ne hb).1 rest
  · have hlt : b.toNat < 256 := b.toNat_lt
    show percentDecode (percent :: hexDigit (b.toNat / 16) :: hexDigit (b.toNat % 16) :: rest) = _
    rw [percentDecode, if_pos rfl]
    simp only [hexValue_hexDigit _ (show b.toNat / 16 < 16 by omega),
      hexValue_hexDigit _ (show b.toNat % 16 < 16 by omega), Nat.div_add_mod]
    rw [show b.toNat.toUInt8 = b from UInt8.ofNat_toNat]

theorem percentDecode_escape (s : List UInt8) : percentDecode (escape s) = some s := by
  induction s with
  | nil => rfl
  | cons b s ih =>
    show percentDecode (escapeByte b ++ escape s) = _
    rw [percentDecode_escapeByte, ih]
    rfl

/-! ## Strings that were not escaped -/

theorem percentDecode_plain {s : List UInt8} (h : percent ∉ s) : percentDecode s = some s := by
  induction s with
  | nil => rfl
  | cons b s ih =>
    rw [percentDecode_cons_ne (fun hb => h (hb ▸ List.mem_cons_self)),
      ih fun hs => h (List.mem_cons_of_mem _ hs)]
    rfl

theorem percentDecode_length {s t : List UInt8} (h : percentDecode s = some t) :
    t.length ≤ s.length ∧ (percent ∈ s → t.length < s.length) := by
  fun_induction percentDecode s generalizing t with
  | case1 =>
    cases h
    simp
  | case2 h l rest x y hx hy ih =>
    obtain ⟨u, hu, rfl⟩ := Option.map_eq_some_iff.mp ‹_›
    have := (ih hu).1
    simp only [List.length_cons]
    omega
  | case3 => cases h
  | case4 => cases h
  | case5 b rest hb ih =>
    obtain ⟨u, hu, rfl⟩ := Option.map_eq_some_iff.mp h
    obtain ⟨hle, hlt⟩ := ih hu
    refine ⟨Nat.succ_le_succ hle, fun hmem => Nat.succ_lt_succ (hlt ?_)⟩
    rcases List.mem_cons.mp hmem with heq | hmem
    · exact absurd heq.symm hb
    · exact hmem

/-- A string is what it decodes to exactly when it has no percent sign. -/
theorem percentDecode_eq_self {s : List UInt8} : percentDecode s = some s ↔ percent ∉ s :=
  ⟨fun h hmem => Nat.lt_irrefl _ ((percentDecode_length h).2 hmem), percentDecode_plain⟩

end Percent
