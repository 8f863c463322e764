/-
Numbers printed in decimal, in headers and in the names of files.
-/
import Mathlib.Data.List.TakeWhile
import SiaFS.Common.Text

namespace SiaFS

variable {n : Nat}

theorem digit_of_mem_toDigits {c : Char} (h : c ∈ Nat.toDigits 10 n) :
    48 ≤ c.toNat ∧ c.toNat ≤ 57 := by
  have hd : c.isDigit := Nat.isDigit_of_mem_toDigits (by decide) (by decide) h
  simp only [Char.isDigit, Bool.and_eq_true, decide_eq_true_eq, ge_iff_le] at hd
  simpa [UInt32.le_iff_toNat_le] using hd

theorem digit_of_mem_decimal {b : UInt8} (h : b ∈ decimal n) : 48 ≤ b ∧ b ≤ 57 := by
  obtain ⟨c, hc, rfl⟩ := List.mem_map.mp h
  have hd := digit_of_mem_toDigits hc
  rw [UInt8.le_iff_toNat_le, UInt8.le_iff_toNat_le]
  show 48 ≤ c.toNat % 256 ∧ c.toNat % 256 ≤ 57
  omega

theorem not_mem_decimal {b : UInt8} (h : b < 48) (n : Nat) : b ∉ decimal n := fun hb =>
  absurd (digit_of_mem_decimal hb).1 (UInt8.not_le.mpr h)

theorem decimal_ne_nil (n : Nat) : decimal n ≠ [] := by simp [decimal]

theorem decimal_length {k : Nat} (hk : 0 < k) (h : n < 10 ^ k) : (decimal n).length ≤ k := by
  rw [decimal, List.length_map]
  exact (Nat.length_toDigits_le_iff (by decide) hk).mpr h

/-- The value of the digits. -/
def digitsValue (digits : CStr) (init : Nat) : Nat :=
  digits.foldl (fun n b => 10 * n + (b.toNat - 48)) init

theorem digitsValue_map {l : List Char} (h : ∀ c ∈ l, c.toNat ≤ 57) (init : Nat) :
    digitsValue (l.map fun c => c.toNat.toUInt8) init = Nat.ofDigitChars 10 l init := by
  induction l generalizing init with
  | nil =>
    rw [Nat.ofDigitChars_nil]
    rfl
  | cons c l ih =>
    have hc : c.toNat.toUInt8.toNat = c.toNat := by
      have := h c List.mem_cons_self
      show c.toNat % 256 = c.toNat
      omega
    rw [Nat.ofDigitChars_cons, ← ih fun d hd => h d (List.mem_cons_of_mem _ hd)]
    show digitsValue _ (10 * init + (c.toNat.toUInt8.toNat - 48)) = _
    rw [hc]
    rfl

theorem digitsValue_decimal (n : Nat) : digitsValue (decimal n) 0 = n := by
  rw [decimal, digitsValue_map fun c hc => (digit_of_mem_toDigits hc).2]
  exact Nat.ofDigitChars_ten_toDigits

theorem decimal_injective : Function.Injective decimal := by
  intro m n h
  rw [← digitsValue_decimal m, h, digitsValue_decimal n]

/-- A list splits at the last occurrence of a separator in one way. -/
theorem append_separator_inj {α : Type} {a : α} {x x' d d' : List α} (hd : a ∉ d) (hd' : a ∉ d')
    (h : x ++ a :: d = x' ++ a :: d') : x = x' ∧ d = d' := by
  rcases List.append_eq_append_iff.mp h with ⟨t, rfl, ht⟩ | ⟨t, rfl, ht⟩
  · cases t with
    | nil => exact ⟨(List.append_nil x).symm, (List.cons.inj ht).2⟩
    | cons b t =>
      rw [(List.cons.inj ht).2] at hd
      exact absurd (List.mem_append_right t List.mem_cons_self) hd
  · cases t with
    | nil => exact ⟨List.append_nil x', ((List.cons.inj ht).2).symm⟩
    | cons b t =>
      rw [(List.cons.inj ht).2] at hd'
      exact absurd (List.mem_append_right t List.mem_cons_self) hd'

end SiaFS
