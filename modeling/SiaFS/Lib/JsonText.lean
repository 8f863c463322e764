/-
JSON as text.

`parse` reads a JSON text of bytes into a document.  A number is kept as it is
written.  The results are about texts put together from a template: a string that
is pasted between two quotes is read back as itself exactly when none of its bytes
needs escaping.
-/
import Mathlib.Data.List.TakeWhile

namespace JsonText

def quote : UInt8 := 34

def backslash : UInt8 := 92

inductive Value
  | null
  | bool (b : Bool)
  | number (lexeme : List UInt8)
  | string (s : List UInt8)
  | array (items : List Value)
  | object (members : List (List UInt8 × Value))

/-! ## Strings -/

def hexValue (b : UInt8) : Option Nat :=
  if 48 ≤ b && b ≤ 57 then some (b.toNat - 48)
  else if 65 ≤ b && b ≤ 70 then some (b.toNat - 55)
  else if 97 ≤ b && b ≤ 102 then some (b.toNat - 87)
  else none

/-- The number that four hexadecimal digits write. -/
def hex4 (a b c d : UInt8) : Option Nat := do
  let a ← hexValue a
  let b ← hexValue b
  let c ← hexValue c
  let d ← hexValue d
  pure (((a * 16 + b) * 16 + c) * 16 + d)

def utf8 (n : Nat) : List UInt8 :=
  if n < 0x80 then [n.toUInt8]
  else if n < 0x800 then [(0xc0 + n / 0x40).toUInt8, (0x80 + n % 0x40).toUInt8]
  else if n < 0x10000 then
    [(0xe0 + n / 0x1000).toUInt8, (0x80 + n / 0x40 % 0x40).toUInt8, (0x80 + n % 0x40).toUInt8]
  else
    [(0xf0 + n / 0x40000).toUInt8, (0x80 + n / 0x1000 % 0x40).toUInt8,
      (0x80 + n / 0x40 % 0x40).toUInt8, (0x80 + n % 0x40).toUInt8]

/-- What a backslash and one byte stand for. -/
def simpleEscape (b : UInt8) : Option UInt8 :=
  if b = quote ∨ b = backslash ∨ b = 47 then some b
  else if b = 98 then some 8
  else if b = 102 then some 12
  else if b = 110 then some 10
  else if b = 114 then some 13
  else if b = 116 then some 9
  else none

/-- The rest of a string after its opening quote, and what follows the string.  A
control character has to be escaped, and half a surrogate pair is no character. -/
def scanString : List UInt8 → Option (List UInt8 × List UInt8)
  | [] => none
  | b :: rest =>
    if b = quote then some ([], rest)
    else if b < 32 then none
    else if b ≠ backslash then (scanString rest).map fun x => (b :: x.1, x.2)
    else
      match rest with
      | [] => none
      | c :: rest =>
        if c ≠ 117 then
          match simpleEscape c with
          | some x => (scanString rest).map fun y => (x :: y.1, y.2)
          | none => none
        else
          match rest with
          | h₁ :: h₂ :: h₃ :: h₄ :: rest =>
            match hex4 h₁ h₂ h₃ h₄ with
            | none => none
            | some n =>
              if n < 0xd800 ∨ 0xdfff < n then
                (scanString rest).map fun x => (utf8 n ++ x.1, x.2)
              else if 0xdc00 ≤ n then none
              else
                match rest with
                | b₁ :: b₂ :: l₁ :: l₂ :: l₃ :: l₄ :: rest =>
                  match hex4 l₁ l₂ l₃ l₄ with
                  | none => none
                  | some m =>
                    if b₁ = backslash ∧ b₂ = 117 ∧ 0xdc00 ≤ m ∧ m ≤ 0xdfff then
                      (scanString rest).map fun x =>
                        (utf8 (0x10000 + (n - 0xd800) * 0x400 + (m - 0xdc00)) ++ x.1, x.2)
                    else none
                | _ => none
          | _ => none
termination_by structural text => text

/-! ## Numbers -/

def isDigit (b : UInt8) : Bool := 48 ≤ b && b ≤ 57

/-- Some digits, and what follows them. -/
def digits (text : List UInt8) : Option (List UInt8 × List UInt8) :=
  if text.takeWhile isDigit = [] then none
  else some (text.takeWhile isDigit, text.dropWhile isDigit)

/-- An integer without a sign has no leading zero. -/
def integer (text : List UInt8) : Option (List UInt8 × List UInt8) :=
  match text with
  | 48 :: rest => some ([48], rest)
  | _ => digits text

def fraction (text : List UInt8) : Option (List UInt8 × List UInt8) :=
  match text with
  | 46 :: rest => (digits rest).map fun x => (46 :: x.1, x.2)
  | _ => some ([], text)

def exponent (text : List UInt8) : Option (List UInt8 × List UInt8) :=
  match text with
  | b :: rest =>
    if b = 101 ∨ b = 69 then
      match rest with
      | s :: rest' =>
        if s = 43 ∨ s = 45 then (digits rest').map fun x => (b :: s :: x.1, x.2)
        else (digits rest).map fun x => (b :: x.1, x.2)
      | [] => none
    else some ([], text)
  | [] => some ([], text)

def number (text : List UInt8) : Option (Value × List UInt8) := do
  let (sign, rest) : List UInt8 × List UInt8 := match text with
    | 45 :: rest => ([45], rest)
    | _ => ([], text)
  let (whole, rest) ← integer rest
  let (part, rest) ← fraction rest
  let (power, rest) ← exponent rest
  pure (.number (sign ++ whole ++ part ++ power), rest)

/-! ## Documents -/

def isSpace (b : UInt8) : Bool := b == 32 || b == 9 || b == 10 || b == 13

def skipSpace (text : List UInt8) : List UInt8 := text.dropWhile isSpace

/-- A literal name, and what follows it. -/
def keyword (name : List UInt8) (v : Value) (text : List UInt8) : Option (Value × List UInt8) :=
  if name.isPrefixOf text then some (v, text.drop name.length) else none

mutual

/-- A value at the start of the text, and what follows it.  The fuel bounds the
number of values and members read one inside the other or one after the other. -/
def value : Nat → List UInt8 → Option (Value × List UInt8)
  | 0, _ => none
  | fuel + 1, text =>
    match text with
    | [] => none
    | b :: rest =>
      if b = quote then (scanString rest).map fun x => (.string x.1, x.2)
      else if b = 123 then
        if (skipSpace rest).head? = some 125 then some (.object [], (skipSpace rest).tail)
        else (members fuel rest).map fun x => (.object x.1, x.2)
      else if b = 91 then
        if (skipSpace rest).head? = some 93 then some (.array [], (skipSpace rest).tail)
        else (elements fuel rest).map fun x => (.array x.1, x.2)
      else if b = 110 then keyword [110, 117, 108, 108] .null text
      else if b = 116 then keyword [116, 114, 117, 101] (.bool true) text
      else if b = 102 then keyword [102, 97, 108, 115, 101] (.bool false) text
      else number text

/-- The members of an object up to its closing brace. -/
def members : Nat → List UInt8 → Option (List (List UInt8 × Value) × List UInt8)
  | 0, _ => none
  | fuel + 1, text =>
    match skipSpace text with
    | 34 :: rest =>
      match scanString rest with
      | none => none
      | some (key, rest) =>
        match skipSpace rest with
        | 58 :: rest =>
          match value fuel (skipSpace rest) with
          | none => none
          | some (v, rest) =>
            match skipSpace rest with
            | 44 :: rest => (members fuel rest).map fun x => ((key, v) :: x.1, x.2)
            | 125 :: rest => some ([(key, v)], rest)
            | _ => none
        | _ => none
    | _ => none

/-- The elements of an array up to its closing bracket. -/
def elements : Nat → List UInt8 → Option (List Value × List UInt8)
  | 0, _ => none
  | fuel + 1, text =>
    match value fuel (skipSpace text) with
    | none => none
    | some (v, rest) =>
      match skipSpace rest with
      | 44 :: rest => (elements fuel rest).map fun x => (v :: x.1, x.2)
      | 93 :: rest => some ([v], rest)
      | _ => none

end

/-- The document of a text. -/
def parse (text : List UInt8) : Option Value :=
  match value (2 * text.length) (skipSpace text) with
  | some (v, rest) => if skipSpace rest = [] then some v else none
  | none => none

/-! ## Strings between quotes -/

/-- The byte stands in a string as it is. -/
def Clean (s : List UInt8) : Prop := ∀ b ∈ s, b ≠ quote ∧ b ≠ backslash ∧ 32 ≤ b

theorem scanString_quote (rest : List UInt8) : scanString (quote :: rest) = some ([], rest) := by
  rw [scanString.eq_def]
  exact if_pos rfl

theorem scanString_cons {b : UInt8} (h : b ≠ quote ∧ b ≠ backslash ∧ 32 ≤ b) (rest : List UInt8) :
    scanString (b :: rest) = (scanString rest).map fun x => (b :: x.1, x.2) := by
  rw [scanString.eq_def]
  show (if b = quote then _ else if b < 32 then _ else if b ≠ backslash then _ else _) = _
  rw [if_neg h.1, if_neg (UInt8.not_lt.mpr h.2.2), if_pos h.2.1]

theorem scanString_clean {s : List UInt8} (h : Clean s) (rest : List UInt8) :
    scanString (s ++ quote :: rest) = some (s, rest) := by
  induction s with
  | nil => exact scanString_quote rest
  | cons b s ih =>
    rw [List.cons_append, scanString_cons (h b List.mem_cons_self),
      ih fun c hc => h c (List.mem_cons_of_mem _ hc)]
    rfl

theorem hexValue_quote : hexValue quote = none := by decide

theorem hex4_some {a b c d : UInt8} {n : Nat} (h : hex4 a b c d = some n) :
    a ≠ quote ∧ b ≠ quote ∧ c ≠ quote ∧ d ≠ quote := by
  refine ⟨?_, ?_, ?_, ?_⟩ <;> rintro rfl <;>
    simp [hex4, hexValue_quote] at h

theorem utf8_length (n : Nat) : 0 < (utf8 n).length ∧ (utf8 n).length ≤ 4 := by
  unfold utf8
  split
  · simp
  · split
    · simp
    · split <;> simp


/-- What becomes of a text without quotes and the quote after it: it is the whole
string, or the string is shorter, or has a quote that the text has not. -/
def Scanned (z y v r : List UInt8) : Prop :=
  (v = z ∧ Clean z ∧ r = y) ∨ v.length < z.length ∨ ∃ i < z.length, v[i]? = some quote

/-- An escape yields fewer bytes than it takes. -/
theorem Scanned.escape {z z' y v r out : List UInt8} (h : Scanned z y v r)
    (hlen : out.length + z.length < z'.length) : Scanned z' y (out ++ v) r := by
  rcases h with ⟨rfl, -, -⟩ | hlt | ⟨i, hi, hv⟩
  · exact Or.inr (Or.inl (by rw [List.length_append]; omega))
  · exact Or.inr (Or.inl (by rw [List.length_append]; omega))
  · refine Or.inr (Or.inr ⟨out.length + i, by omega, ?_⟩)
    rw [List.getElem?_append_right (Nat.le_add_right _ _), Nat.add_sub_cancel_left]
    exact hv

/-- An escape at the start of a text: the bytes `t` that belong to it, none of them
a quote, and what they yield. -/
theorem scanString_escape {c : UInt8} {rest v r : List UInt8}
    (h : scanString (backslash :: c :: rest) = some (v, r)) :
    ∃ t rest' out v', rest = t ++ rest' ∧ quote ∉ t ∧ v = out ++ v' ∧
      out.length < t.length + 2 ∧ (c = quote → out = [quote]) ∧
      scanString rest' = some (v', r) := by
  rw [scanString.eq_def] at h
  dsimp only at h
  rw [if_neg (by decide), if_neg (by decide), if_neg (by decide)] at h
  split at h
  · split at h
    · rename_i x hx
      obtain ⟨⟨v', r'⟩, hrest, heq⟩ := Option.map_eq_some_iff.mp h
      cases heq
      refine ⟨[], rest, [x], v', rfl, List.not_mem_nil, rfl, by simp, ?_, hrest⟩
      rintro rfl
      cases hx
      rfl
    · cases h
  · rename_i hc
    have hc : c = 117 := not_not.mp hc
    subst hc
    have hu : quote ≠ 117 := by decide
    split at h
    · rename_i h₁ h₂ h₃ h₄ rest
      split at h
      · cases h
      · rename_i n hn
        obtain ⟨hq₁, hq₂, hq₃, hq₄⟩ := hex4_some hn
        split at h
        · obtain ⟨⟨v', r'⟩, hrest, heq⟩ := Option.map_eq_some_iff.mp h
          cases heq
          refine ⟨[h₁, h₂, h₃, h₄], rest, utf8 n, v', rfl, ?_, rfl, ?_,
            fun h => absurd h.symm hu, hrest⟩
          · simp [hq₁.symm, hq₂.symm, hq₃.symm, hq₄.symm]
          · have := (utf8_length n).2
            simp only [List.length_cons, List.length_nil]
            omega
        · split at h
          · cases h
          · split at h
            · rename_i b₁ b₂ l₁ l₂ l₃ l₄ rest
              split at h
              · cases h
              · rename_i m hm
                obtain ⟨hr₁, hr₂, hr₃, hr₄⟩ := hex4_some hm
                split at h
                · rename_i hpair
                  obtain ⟨rfl, rfl, -, -⟩ := hpair
                  obtain ⟨⟨v', r'⟩, hrest, heq⟩ := Option.map_eq_some_iff.mp h
                  obtain ⟨rfl, rfl⟩ := Prod.mk.inj heq
                  refine ⟨[h₁, h₂, h₃, h₄, backslash, 117, l₁, l₂, l₃, l₄], rest, _, v', rfl, ?_,
                    rfl, ?_, fun h => absurd h.symm hu, hrest⟩
                  · have hb : quote ≠ backslash := by decide
                    simp [hq₁.symm, hq₂.symm, hq₃.symm, hq₄.symm, hr₁.symm, hr₂.symm, hr₃.symm,
                      hr₄.symm, hb, hu]
                  · have := (utf8_length (0x10000 + (n - 0xd800) * 0x400 + (m - 0xdc00))).2
                    simp only [List.length_cons, List.length_nil]
                    omega
                · cases h
            · cases h
    · cases h

theorem scanString_scanned {z y v r : List UInt8} (hz : quote ∉ z)
    (h : scanString (z ++ quote :: y) = some (v, r)) : Scanned z y v r := by
  induction hlen : z.length using Nat.strong_induction_on generalizing z v with
  | _ n ih =>
    cases z with
    | nil =>
      rw [List.nil_append, scanString_quote] at h
      cases h
      exact Or.inl ⟨rfl, fun _ hb => absurd hb List.not_mem_nil, rfl⟩
    | cons b z =>
      have hb : b ≠ quote := fun hb => hz (hb ▸ List.mem_cons_self)
      have hz' : quote ∉ z := fun hmem => hz (List.mem_cons_of_mem _ hmem)
      by_cases hslash : b = backslash
      · subst hslash
        cases z with
        | nil =>
          obtain ⟨t, rest', out, v', -, -, rfl, -, hquote, -⟩ := scanString_escape h
          rw [hquote rfl]
          exact Or.inr (Or.inr ⟨0, Nat.zero_lt_one, rfl⟩)
        | cons c z =>
          obtain ⟨t, rest', out, v', heq, hnq, rfl, hout, -, hrest⟩ := scanString_escape h
          -- the escape ends before the quote
          obtain ⟨z', rfl, rfl⟩ : ∃ z', z = t ++ z' ∧ rest' = z' ++ quote :: y := by
            rcases List.append_eq_append_iff.mp heq with ⟨u, ht, hu⟩ | ⟨u, hu, ht⟩
            · cases u with
              | nil => exact ⟨[], by simpa using ht.symm, hu.symm⟩
              | cons q u =>
                cases hu
                exact absurd (by simp [ht]) hnq
            · exact ⟨u, hu, ht⟩
          refine (ih z'.length ?_ ?_ hrest rfl).escape ?_
          · subst hlen
            simp only [List.length_cons, List.length_append]
            omega
          · exact fun hmem => hz' (List.mem_cons_of_mem _ (List.mem_append_right _ hmem))
          · simp only [List.length_cons, List.length_append]
            omega
      · by_cases hlow : b < 32
        · rw [List.cons_append, scanString.eq_def] at h
          simp [hb, hlow] at h
        · have hclean : b ≠ quote ∧ b ≠ backslash ∧ 32 ≤ b := ⟨hb, hslash, UInt8.not_lt.mp hlow⟩
          rw [List.cons_append, scanString_cons hclean] at h
          obtain ⟨⟨v', r'⟩, hrest, heq⟩ := Option.map_eq_some_iff.mp h
          cases heq
          rcases ih z.length (by subst hlen; simp) hz' hrest rfl with
            ⟨rfl, hz, rfl⟩ | hlt | ⟨i, hi, hv⟩
          · refine Or.inl ⟨rfl, fun c hc => ?_, rfl⟩
            rcases List.mem_cons.mp hc with rfl | hc
            · exact hclean
            · exact hz c hc
          · exact Or.inr (Or.inl (Nat.succ_lt_succ hlt))
          · exact Or.inr (Or.inr ⟨i + 1, Nat.succ_lt_succ hi, hv⟩)

/-- A string pasted between quotes that is read back as itself needs no escape, and
ends at the quote after it. -/
theorem clean_of_scanString {s y r : List UInt8} (h : scanString (s ++ quote :: y) = some (s, r)) :
    Clean s ∧ r = y := by
  by_cases hq : quote ∈ s
  · -- the text up to the first quote of the string
    exfalso
    obtain ⟨z, s', rfl, hz⟩ := List.eq_append_cons_of_mem hq
    rw [List.append_assoc, List.cons_append] at h
    rcases scanString_scanned hz h with ⟨heq, -, -⟩ | hlt | ⟨i, hi, hv⟩
    · exact absurd (congrArg List.length heq) (by simp)
    · rw [List.length_append] at hlt
      omega
    · rw [List.getElem?_append_left hi] at hv
      exact hz (List.mem_of_getElem? hv)
  · rcases scanString_scanned hq h with ⟨-, hclean, hr⟩ | hlt | ⟨i, hi, hv⟩
    · exact ⟨hclean, hr⟩
    · exact absurd hlt (Nat.lt_irrefl _)
    · exact absurd (List.mem_of_getElem? hv) hq

/-! ## Templates -/

/-- What may stand after a value in an object. -/
def Stops (text : List UInt8) : Prop :=
  ∃ b rest, text = b :: rest ∧ (isSpace b = true ∨ b = 44 ∨ b = 125)

/-- It ends a number. -/
theorem Stops.not_number {text : List UInt8} (h : Stops text) : ∃ b rest, text = b :: rest ∧
    isDigit b = false ∧ b ≠ 46 ∧ b ≠ 101 ∧ b ≠ 69 := by
  obtain ⟨b, rest, rfl, h⟩ := h
  refine ⟨b, rest, rfl, ?_⟩
  simp only [isSpace, Bool.or_eq_true, beq_iff_eq] at h
  rcases h with (((rfl | rfl) | rfl) | rfl) | rfl | rfl <;> decide

theorem digits_stop {d b : UInt8} (hd : isDigit d = true) (hb : isDigit b = false)
    (rest : List UInt8) : digits (d :: b :: rest) = some ([d], b :: rest) := by
  have htake : (d :: b :: rest).takeWhile isDigit = [d] := by
    rw [List.takeWhile_cons_of_pos hd, List.takeWhile_cons_of_neg (by simp [hb])]
  have hdrop : (d :: b :: rest).dropWhile isDigit = b :: rest := by
    rw [List.dropWhile_cons_of_pos hd, List.dropWhile_cons_of_neg (by simp [hb])]
  rw [digits, htake, hdrop]
  exact if_neg (List.cons_ne_nil _ _)

theorem fraction_stop {b : UInt8} (h : b ≠ 46) (rest : List UInt8) :
    fraction (b :: rest) = some ([], b :: rest) := by
  unfold fraction
  split
  · rename_i heq
    cases heq
    exact absurd rfl h
  · rfl

theorem exponent_stop {b : UInt8} (h : b ≠ 101 ∧ b ≠ 69) (rest : List UInt8) :
    exponent (b :: rest) = some ([], b :: rest) := by
  rw [exponent.eq_def]
  exact if_neg (by simp [h])

/-- A text that is read as the same value wherever it stands. -/
structure Token where
  lexeme : List UInt8
  doc : Value
  head : ∀ b ∈ lexeme.head?, isSpace b = false
  nonempty : lexeme ≠ []
  reads : ∀ fuel y, Stops y → value (fuel + 1) (lexeme ++ y) = some (doc, y)

/-- The value of a member: a string pasted between quotes, or a token. -/
inductive Scalar
  | str (s : List UInt8)
  | token (t : Token)

namespace Scalar

def text : Scalar → List UInt8
  | .str s => quote :: s ++ [quote]
  | .token t => t.lexeme

def doc : Scalar → Value
  | .str s => .string s
  | .token t => t.doc

def Clean : Scalar → Prop
  | .str s => JsonText.Clean s
  | .token _ => True

end Scalar

/-- A member with the white space around it. -/
structure Member where
  before : List UInt8
  key : List UInt8
  value : Scalar
  after : List UInt8

/-- The template is sound: white space and a key that needs no escape. -/
structure Member.Sound (m : Member) : Prop where
  before : ∀ b ∈ m.before, isSpace b = true
  after : ∀ b ∈ m.after, isSpace b = true
  key : Clean m.key

def Member.text (m : Member) : List UInt8 :=
  m.before ++ quote :: (m.key ++ quote :: 58 :: 32 :: (m.value.text ++ m.after))

def Member.field (m : Member) : List UInt8 × Value := (m.key, m.value.doc)

def memberText : List Member → List UInt8
  | [] => []
  | [m] => m.text
  | m :: ms => m.text ++ 44 :: memberText ms

/-- An object put together from a template. -/
def render (ms : List Member) : List UInt8 := 123 :: (memberText ms ++ [125])

theorem skipSpace_append {ws : List UInt8} (h : ∀ b ∈ ws, isSpace b = true) (text : List UInt8) :
    skipSpace (ws ++ text) = skipSpace text := List.dropWhile_append_of_pos h

theorem skipSpace_cons {b : UInt8} (h : isSpace b = false) (text : List UInt8) :
    skipSpace (b :: text) = b :: text := List.dropWhile_cons_of_neg (by simp [h])

theorem Stops.after {ws : List UInt8} (h : ∀ b ∈ ws, isSpace b = true) {b : UInt8}
    (hb : b = 44 ∨ b = 125) (text : List UInt8) : Stops (ws ++ b :: text) := by
  cases ws with
  | nil => exact ⟨b, text, rfl, Or.inr hb⟩
  | cons c ws => exact ⟨c, ws ++ b :: text, rfl, Or.inl (h c List.mem_cons_self)⟩

theorem Scalar.skipSpace_text (s : Scalar) (text : List UInt8) :
    skipSpace (s.text ++ text) = s.text ++ text := by
  cases s with
  | str s => exact skipSpace_cons (by decide) _
  | token t =>
    obtain ⟨b, rest, hb⟩ := List.exists_cons_of_ne_nil t.nonempty
    have hhead := t.head b (by rw [hb]; rfl)
    show skipSpace (t.lexeme ++ text) = t.lexeme ++ text
    rw [hb]
    exact skipSpace_cons hhead _

/-- A string is read as itself when it is clean, and only then. -/
theorem value_scalar (s : Scalar) {fuel : Nat} {y r : List UInt8} (hy : Stops y) :
    value (fuel + 1) (s.text ++ y) = some (s.doc, r) ↔ s.Clean ∧ r = y := by
  cases s with
  | str s =>
    have hvalue : value (fuel + 1) ((Scalar.str s).text ++ y) =
        (scanString (s ++ quote :: y)).map fun x => (.string x.1, x.2) := by
      rw [show (Scalar.str s).text ++ y = quote :: (s ++ quote :: y) by simp [Scalar.text], value]
      exact if_pos rfl
    rw [hvalue]
    constructor
    · intro h
      obtain ⟨⟨v, r'⟩, hscan, heq⟩ := Option.map_eq_some_iff.mp h
      cases heq
      exact clean_of_scanString hscan
    · rintro ⟨hclean, rfl⟩
      rw [scanString_clean hclean]
      rfl
  | token t =>
    rw [show value (fuel + 1) ((Scalar.token t).text ++ y) = some (t.doc, y) from t.reads fuel y hy]
    simp [Scalar.doc, Scalar.Clean, eq_comm]

/-- One member, up to its value. -/
theorem members_text {m : Member} (hm : m.Sound) (fuel : Nat) (y : List UInt8) :
    members (fuel + 1) (m.text ++ y) =
      match value fuel (m.value.text ++ (m.after ++ y)) with
      | none => none
      | some (v, rest) =>
        match skipSpace rest with
        | 44 :: rest => (members fuel rest).map fun x => ((m.key, v) :: x.1, x.2)
        | 125 :: rest => some ([(m.key, v)], rest)
        | _ => none := by
  have htext : m.text ++ y = m.before ++ quote :: (m.key ++ quote :: 58 :: 32 ::
      (m.value.text ++ (m.after ++ y))) := by simp [Member.text]
  have hspace : skipSpace (32 :: (m.value.text ++ (m.after ++ y))) =
      m.value.text ++ (m.after ++ y) := by
    rw [skipSpace, List.dropWhile_cons_of_pos (by decide)]
    exact m.value.skipSpace_text _
  rw [members, htext, skipSpace_append hm.before, skipSpace_cons (by decide)]
  show (match scanString (m.key ++ quote :: 58 :: 32 :: (m.value.text ++ (m.after ++ y))) with
    | none => none
    | some (key, rest) => _) = _
  rw [scanString_clean hm.key]
  show (match skipSpace (58 :: 32 :: (m.value.text ++ (m.after ++ y))) with
    | 58 :: rest => _
    | _ => none) = _
  rw [skipSpace_cons (by decide)]
  show (match value fuel (skipSpace (32 :: (m.value.text ++ (m.after ++ y)))) with
    | none => none
    | some (v, rest) => _) = _
  rw [hspace]

theorem members_text_some {m : Member} (hm : m.Sound) {fuel : Nat} {y r : List UInt8}
    {fields : List (List UInt8 × Value)} (h : members (fuel + 1) (m.text ++ y) = some (fields, r)) :
    ∃ v rest, value fuel (m.value.text ++ (m.after ++ y)) = some (v, rest) ∧
      fields.head? = some (m.key, v) := by
  rw [members_text hm] at h
  split at h
  · cases h
  · rename_i v rest hv
    refine ⟨v, rest, hv, ?_⟩
    split at h
    · obtain ⟨x, -, heq⟩ := Option.map_eq_some_iff.mp h
      cases heq
      rfl
    · cases h
      rfl
    · cases h

/-- A member is read as it was meant exactly when its string is clean, and the rest is
read after it. -/
theorem members_comma {m : Member} (hm : m.Sound) {fuel : Nat} {y r : List UInt8}
    {fields : List (List UInt8 × Value)} :
    members (fuel + 2) (m.text ++ 44 :: y) = some (m.field :: fields, r) ↔
      m.value.Clean ∧ members (fuel + 1) y = some (fields, r) := by
  have hskip : skipSpace (m.after ++ 44 :: y) = 44 :: y := by
    rw [skipSpace_append hm.after, skipSpace_cons (by decide)]
  have hstop := Stops.after hm.after (Or.inl (b := (44 : UInt8) = 125) rfl) y
  have hread : m.value.Clean → members (fuel + 2) (m.text ++ 44 :: y) =
      (members (fuel + 1) y).map fun x => (m.field :: x.1, x.2) := by
    intro hclean
    rw [members_text hm, (value_scalar m.value hstop).mpr ⟨hclean, rfl⟩]
    show (match skipSpace (m.after ++ 44 :: y) with
      | 44 :: rest => _
      | 125 :: rest => _
      | _ => none) = _
    rw [hskip]
    rfl
  constructor
  · intro h
    obtain ⟨v, rest, hv, hhead⟩ := members_text_some hm h
    obtain rfl : v = m.value.doc := (Prod.mk.inj (Option.some.inj hhead)).2.symm
    have hclean := ((value_scalar m.value hstop).mp hv).1
    rw [hread hclean] at h
    obtain ⟨⟨fields', r'⟩, hrest, heq⟩ := Option.map_eq_some_iff.mp h
    cases heq
    exact ⟨hclean, hrest⟩
  · rintro ⟨hclean, hrest⟩
    rw [hread hclean, hrest]
    rfl

/-- The last member. -/
theorem members_brace {m : Member} (hm : m.Sound) {fuel : Nat} {y r : List UInt8} :
    members (fuel + 2) (m.text ++ 125 :: y) = some ([m.field], r) ↔ m.value.Clean ∧ r = y := by
  have hskip : skipSpace (m.after ++ 125 :: y) = 125 :: y := by
    rw [skipSpace_append hm.after, skipSpace_cons (by decide)]
  have hstop := Stops.after hm.after (Or.inr (a := (125 : UInt8) = 44) rfl) y
  have hread : m.value.Clean → members (fuel + 2) (m.text ++ 125 :: y) = some ([m.field], y) := by
    intro hclean
    rw [members_text hm, (value_scalar m.value hstop).mpr ⟨hclean, rfl⟩]
    show (match skipSpace (m.after ++ 125 :: y) with
      | 44 :: rest => _
      | 125 :: rest => _
      | _ => none) = _
    rw [hskip]
    rfl
  constructor
  · intro h
    obtain ⟨v, rest, hv, hhead⟩ := members_text_some hm h
    obtain rfl : v = m.value.doc := (Prod.mk.inj (Option.some.inj hhead)).2.symm
    have hclean := ((value_scalar m.value hstop).mp hv).1
    rw [hread hclean] at h
    cases h
    exact ⟨hclean, rfl⟩
  · rintro ⟨hclean, rfl⟩
    exact hread hclean

/-- The members of a template are read as they were meant exactly when every string is
clean. -/
theorem members_memberText {ms : List Member} (hne : ms ≠ []) (hms : ∀ m ∈ ms, m.Sound) (fuel : Nat)
    (hfuel : ms.length < fuel) {y r : List UInt8} :
    members fuel (memberText ms ++ 125 :: y) = some (ms.map Member.field, r) ↔
      (∀ m ∈ ms, m.value.Clean) ∧ r = y := by
  induction ms generalizing fuel r with
  | nil => exact absurd rfl hne
  | cons m ms ih =>
    obtain ⟨fuel, rfl⟩ : ∃ k, fuel = k + 2 :=
      ⟨fuel - 2, by simp only [List.length_cons] at hfuel; omega⟩
    have hm := hms m List.mem_cons_self
    cases ms with
    | nil =>
      rw [memberText, List.map_cons, List.map_nil, members_brace hm]
      simp
    | cons m' ms =>
      have hrest : ∀ n ∈ m' :: ms, n.Sound := fun n hn => hms n (List.mem_cons_of_mem _ hn)
      have hshort : (m' :: ms).length < fuel + 1 := by
        simp only [List.length_cons] at hfuel ⊢
        omega
      rw [memberText, List.append_assoc, List.cons_append, List.map_cons, members_comma hm,
        ih (List.cons_ne_nil _ _) hrest (fuel + 1) hshort]
      simp only [List.forall_mem_cons, and_assoc]
      exact nofun

theorem length_le_memberText (ms : List Member) : ms.length ≤ (memberText ms).length := by
  induction ms with
  | nil => exact Nat.le_refl 0
  | cons m ms ih =>
    have hm : 1 ≤ m.text.length := by
      rw [Member.text, List.length_append, List.length_cons]
      omega
    cases ms with
    | nil => exact hm
    | cons m' ms =>
      rw [memberText, List.length_append]
      · simp only [List.length_cons] at ih ⊢
        omega
      · exact nofun

/-- Before the members of a template there is no closing brace. -/
theorem skipSpace_memberText {ms : List Member} (hne : ms ≠ []) (hms : ∀ m ∈ ms, m.Sound)
    (y : List UInt8) : (skipSpace (memberText ms ++ y)).head? = some quote := by
  obtain ⟨m, ms, rfl⟩ := List.exists_cons_of_ne_nil hne
  have hm := hms m List.mem_cons_self
  have hhead : ∀ y, (skipSpace (m.text ++ y)).head? = some quote := by
    intro y
    rw [Member.text, List.append_assoc, skipSpace_append hm.before, List.cons_append,
      skipSpace_cons (by decide)]
    rfl
  cases ms with
  | nil => exact hhead y
  | cons m' ms =>
    rw [memberText, List.append_assoc]
    · exact hhead _
    · exact nofun

/-- A text put together from a template is the document that was meant exactly when
every string in it is clean. -/
theorem parse_render {ms : List Member} (hne : ms ≠ []) (hms : ∀ m ∈ ms, m.Sound) :
    parse (render ms) = some (.object (ms.map Member.field)) ↔ ∀ m ∈ ms, m.value.Clean := by
  obtain ⟨fuel, hfuel⟩ : ∃ k, 2 * (render ms).length = k + 1 :=
    ⟨2 * (render ms).length - 1, by rw [render, List.length_cons]; omega⟩
  have hlen := length_le_memberText ms
  have hvalue : value (2 * (render ms).length) (skipSpace (render ms)) =
      (members fuel (memberText ms ++ [125])).map fun x => (.object x.1, x.2) := by
    rw [hfuel, render, skipSpace_cons (by decide), value]
    rw [if_neg (by decide), if_pos rfl, skipSpace_memberText hne hms, if_neg (by decide)]
  have hiff := fun r => members_memberText hne hms fuel (y := []) (r := r) (by
    rw [render, List.length_cons, List.length_append] at hfuel
    omega)
  rw [parse, hvalue]
  constructor
  · intro h
    cases hm : members fuel (memberText ms ++ [125]) with
    | none =>
      rw [hm] at h
      cases h
    | some x =>
      obtain ⟨fields, r⟩ := x
      rw [hm] at h
      have hfields : fields = ms.map Member.field := by
        change (if skipSpace r = [] then some (Value.object fields) else none) = _ at h
        split at h
        · exact (Value.object.inj (Option.some.inj h))
        · cases h
      rw [hfields] at hm
      exact ((hiff r).mp hm).1
  · intro h
    rw [(hiff []).mpr ⟨h, rfl⟩]
    rfl

end JsonText
