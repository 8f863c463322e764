/-
Base 64, `base64.c`, and the concatenation of encoded texts, `b64cat` of
`sia_common.c`.

The encoder breaks lines after 72 characters and ends the last one, and the decoder
skips whatever is no character of the alphabet.  What is encoded is decoded again, but
`b64cat` copies every decoded piece behind the end of its buffer.
-/
import Mathlib.Tactic.IntervalCases
import SiaFS.Common.Upload
import SiaFS.Lib.Block

namespace SiaFS

open Memory

/-! ## The encoder -/

def base64_table : List UInt8 :=
  lit "ABCDEFGHIJKLMNOPQRSTUVWXYZabcdefghijklmnopqrstuvwxyz0123456789+/"

def tableAt (i : UInt8) : UInt8 := base64_table.getD i.toNat 0

def equals : UInt8 := 61

def lineFeed : UInt8 := 10

/-- From `in` on, with `line_len` characters in the line. -/
def encodeFrom : Bytes → Nat → CStr
  | [], line_len => if line_len = 0 then [] else [lineFeed]
  | [a], _ => [tableAt (a >>> 2), tableAt ((a &&& 0x03) <<< 4), equals, equals, lineFeed]
  | [a, b], _ =>
    [tableAt (a >>> 2), tableAt (((a &&& 0x03) <<< 4) ||| (b >>> 4)),
      tableAt ((b &&& 0x0f) <<< 2), equals, lineFeed]
  | a :: b :: c :: rest, line_len =>
    tableAt (a >>> 2) :: tableAt (((a &&& 0x03) <<< 4) ||| (b >>> 4)) ::
      tableAt (((b &&& 0x0f) <<< 2) ||| (c >>> 6)) :: tableAt (c &&& 0x3f) ::
      if 72 ≤ line_len + 4 then lineFeed :: encodeFrom rest 0 else encodeFrom rest (line_len + 4)

/-- The size of the buffer for the encoded text. -/
def encodedSize (len : Nat) : Nat :=
  let olen := u64 (u64 (len * 4 : Nat) / 3 + 4 : Nat)
  u64 (olen + olen / 72 + 1 : Nat)

def base64_encode (src : Bytes) : Option CStr :=
  if encodedSize src.length < src.length then none else some (encodeFrom src 0)

/-! ## The decoder -/

def dtable (b : UInt8) : UInt8 :=
  if b = equals then 0
  else
    match base64_table.findIdx? (· == b) with
    | some i => i.toUInt8
    | none => 0x80

/-- The second loop, with the values of the current block, the padding seen and the bytes
written. -/
def decodeFrom : CStr → List UInt8 → Nat → Bytes → Option Bytes
  | [], _, _, out => some out
  | b :: rest, block, pad, out =>
    let tmp := dtable b
    if tmp = 0x80 then decodeFrom rest block pad out
    else
      let pad := if b = equals then pad + 1 else pad
      match block with
      | [b₀, b₁, b₂] =>
        let out := out ++ [(b₀ <<< 2) ||| (b₁ >>> 4), (b₁ <<< 4) ||| (b₂ >>> 2),
          (b₂ <<< 6) ||| tmp]
        match pad with
        | 0 => decodeFrom rest [] 0 out
        | 1 => some (out.take (out.length - 1))
        | 2 => some (out.take (out.length - 2))
        | _ => none
      | block => decodeFrom rest (block ++ [tmp]) pad out

/-- How many characters count. -/
def charCount (src : CStr) : Nat := (src.filter fun b => dtable b != 0x80).length

/-- `*out_len` is the length of what is returned, and is left alone by `NULL`. -/
def base64_decode (src : CStr) : Option Bytes :=
  if charCount src = 0 ∨ charCount src % 4 ≠ 0 then none else decodeFrom src [] 0 []

/-! ## Decoding what was encoded -/

theorem lit_ofList (l : List Char) : lit (String.ofList l) = l.map fun c => c.toNat.toUInt8 := by
  rw [lit, String.toList_ofList]

theorem base64_table_eq : base64_table =
    [65, 66, 67, 68, 69, 70, 71, 72, 73, 74, 75, 76, 77, 78, 79, 80, 81, 82, 83, 84, 85, 86, 87,
      88, 89, 90, 97, 98, 99, 100, 101, 102, 103, 104, 105, 106, 107, 108, 109, 110, 111, 112,
      113, 114, 115, 116, 117, 118, 119, 120, 121, 122, 48, 49, 50, 51, 52, 53, 54, 55, 56, 57,
      43, 47] :=
  lit_ofList ['A', 'B', 'C', 'D', 'E', 'F', 'G', 'H', 'I', 'J', 'K', 'L', 'M', 'N', 'O', 'P', 'Q',
    'R', 'S', 'T', 'U', 'V', 'W', 'X', 'Y', 'Z', 'a', 'b', 'c', 'd', 'e', 'f', 'g', 'h', 'i', 'j',
    'k', 'l', 'm', 'n', 'o', 'p', 'q', 'r', 's', 't', 'u', 'v', 'w', 'x', 'y', 'z', '0', '1', '2',
    '3', '4', '5', '6', '7', '8', '9', '+', '/']

/-- The characters of the table have their values, and are not padding. -/
theorem table_values (i : UInt8) (hi : i < 64) :
    dtable (tableAt i) = i ∧ tableAt i ≠ equals ∧ i ≠ 0x80 := by
  have htable : ∀ n : Fin 64, dtable (tableAt n.val.toUInt8) = n.val.toUInt8 ∧
      tableAt n.val.toUInt8 ≠ equals ∧ n.val.toUInt8 ≠ 0x80 := by
    unfold dtable tableAt
    rw [base64_table_eq]
    decide +kernel
  have hvalue := htable ⟨i.toNat, hi⟩
  rwa [show i.toNat.toUInt8 = i from UInt8.ofNat_toNat] at hvalue

theorem dtable_lineFeed : dtable lineFeed = 0x80 := by
  unfold dtable
  rw [base64_table_eq]
  decide +kernel

theorem dtable_equals : dtable equals = 0 := rfl

theorem encode_first (a b : UInt8) :
    ((a >>> 2) <<< 2) ||| ((((a &&& 0x03) <<< 4) ||| (b >>> 4)) >>> 4) = a := by
  apply UInt8.eq_of_toBitVec_eq
  apply BitVec.eq_of_getLsbD_eq
  intro i hi
  interval_cases i <;> simp [BitVec.getLsbD_of_ge]

theorem encode_second (a b c : UInt8) :
    ((((a &&& 0x03) <<< 4) ||| (b >>> 4)) <<< 4) |||
      ((((b &&& 0x0f) <<< 2) ||| (c >>> 6)) >>> 2) = b := by
  apply UInt8.eq_of_toBitVec_eq
  apply BitVec.eq_of_getLsbD_eq
  intro i hi
  interval_cases i <;> simp [BitVec.getLsbD_of_ge]

theorem encode_third (b c : UInt8) :
    ((((b &&& 0x0f) <<< 2) ||| (c >>> 6)) <<< 6) ||| (c &&& 0x3f) = c := by
  apply UInt8.eq_of_toBitVec_eq
  apply BitVec.eq_of_getLsbD_eq
  intro i hi
  interval_cases i <;> simp

theorem shiftRight_lt (a : UInt8) {k : UInt8} (hk : 2 ≤ k.toNat % 8) : a >>> k < 64 := by
  have hpow : 2 ^ 2 ≤ 2 ^ (k.toNat % 8) := Nat.pow_le_pow_right Nat.two_pos hk
  have hle : a.toNat / 2 ^ (k.toNat % 8) ≤ a.toNat / 2 ^ 2 :=
    Nat.div_le_div_left hpow (Nat.two_pow_pos 2)
  have ha := a.toNat_lt
  rw [UInt8.lt_iff_toNat_lt, UInt8.toNat_shiftRight, Nat.shiftRight_eq_div_pow]
  show _ < 64
  omega

theorem and_lt (a : UInt8) {mask : UInt8} (h : mask < 64) : a &&& mask < 64 := by
  rw [UInt8.lt_iff_toNat_lt] at h ⊢
  rw [UInt8.toNat_and]
  exact Nat.lt_of_le_of_lt Nat.and_le_right h

/-- The bits of a mask, moved up within six bits. -/
theorem shiftLeft_lt (a mask : UInt8) {k : UInt8}
    (h : mask.toNat * 2 ^ (k.toNat % 8) < 64) : (a &&& mask) <<< k < 64 := by
  have hle : (a.toNat &&& mask.toNat) * 2 ^ (k.toNat % 8) ≤ mask.toNat * 2 ^ (k.toNat % 8) :=
    Nat.mul_le_mul_right _ Nat.and_le_right
  have hmod := Nat.mod_le ((a.toNat &&& mask.toNat) * 2 ^ (k.toNat % 8)) (2 ^ 8)
  rw [UInt8.lt_iff_toNat_lt, UInt8.toNat_shiftLeft, UInt8.toNat_and, Nat.shiftLeft_eq]
  show _ < 64
  omega

theorem or_lt {a b : UInt8} (ha : a < 64) (hb : b < 64) : a ||| b < 64 := by
  rw [UInt8.lt_iff_toNat_lt] at ha hb ⊢
  rw [UInt8.toNat_or]
  exact Nat.or_lt_two_pow (n := 6) ha hb

theorem first_lt (a : UInt8) : a >>> 2 < 64 := shiftRight_lt a (by decide)

theorem low_two_lt (a : UInt8) : (a &&& 0x03) <<< 4 < 64 := shiftLeft_lt a 0x03 (by decide)

theorem low_four_lt (b : UInt8) : (b &&& 0x0f) <<< 2 < 64 := shiftLeft_lt b 0x0f (by decide)

theorem second_lt (a b : UInt8) : (a &&& 0x03) <<< 4 ||| b >>> 4 < 64 :=
  or_lt (low_two_lt a) (shiftRight_lt b (by decide))

theorem third_lt (b c : UInt8) : (b &&& 0x0f) <<< 2 ||| c >>> 6 < 64 :=
  or_lt (low_four_lt b) (shiftRight_lt c (by decide))

theorem fourth_lt (c : UInt8) : c &&& 0x3f < 64 := and_lt c (by decide)

variable {v v₀ v₁ v₂ v₃ : UInt8} {rest : CStr} {block out : List UInt8} {pad : Nat}

theorem decodeFrom_lineFeed :
    decodeFrom (lineFeed :: rest) block pad out = decodeFrom rest block pad out := by
  rw [decodeFrom, if_pos dtable_lineFeed]

/-- A character that does not complete its block. -/
theorem decodeFrom_hold (hv : v < 64) (hblock : block.length < 3) :
    decodeFrom (tableAt v :: rest) block pad out = decodeFrom rest (block ++ [v]) pad out := by
  obtain ⟨hvalue, hne, hskip⟩ := table_values v hv
  rw [decodeFrom, hvalue, if_neg hskip]
  dsimp only
  rw [if_neg hne]
  split
  · simp at hblock
  · rfl

theorem decodeFrom_equals (hblock : block.length < 3) :
    decodeFrom (equals :: rest) block pad out =
      decodeFrom rest (block ++ [0]) (pad + 1) out := by
  rw [decodeFrom, dtable_equals, if_neg (by decide)]
  dsimp only
  rw [if_pos rfl]
  split
  · simp at hblock
  · rfl

/-- Four characters are three bytes. -/
theorem decodeFrom_block (h₀ : v₀ < 64) (h₁ : v₁ < 64) (h₂ : v₂ < 64) (h₃ : v₃ < 64) :
    decodeFrom (tableAt v₀ :: tableAt v₁ :: tableAt v₂ :: tableAt v₃ :: rest) [] 0 out =
      decodeFrom rest [] 0 (out ++ [(v₀ <<< 2) ||| (v₁ >>> 4), (v₁ <<< 4) ||| (v₂ >>> 2),
        (v₂ <<< 6) ||| v₃]) := by
  obtain ⟨hvalue, hne, hskip⟩ := table_values v₃ h₃
  rw [decodeFrom_hold h₀ (by simp), decodeFrom_hold h₁ (by simp), decodeFrom_hold h₂ (by simp)]
  show decodeFrom (tableAt v₃ :: rest) [v₀, v₁, v₂] 0 out = _
  rw [decodeFrom, hvalue, if_neg hskip]
  dsimp only
  rw [if_neg hne]
  rfl

theorem take_front {n : Nat} (out xs ys : Bytes) (hn : n = ys.length) :
    (out ++ (xs ++ ys)).take ((out ++ (xs ++ ys)).length - n) = out ++ xs := by
  rw [← List.append_assoc, List.length_append, hn, Nat.add_sub_cancel, List.take_left]

/-- The padding that completes a block of three characters. -/
theorem decodeFrom_pad_one (b₀ b₁ b₂ : UInt8) :
    decodeFrom (equals :: rest) [b₀, b₁, b₂] 0 out =
      some (out ++ [(b₀ <<< 2) ||| (b₁ >>> 4), (b₁ <<< 4) ||| (b₂ >>> 2)]) := by
  rw [decodeFrom, dtable_equals, if_neg (by decide)]
  dsimp only
  rw [if_pos rfl]
  exact congrArg some (take_front out [_, _] [_] rfl)

/-- The padding that completes a block of two characters. -/
theorem decodeFrom_pad_two (b₀ b₁ b₂ : UInt8) :
    decodeFrom (equals :: rest) [b₀, b₁, b₂] 1 out = some (out ++ [(b₀ <<< 2) ||| (b₁ >>> 4)]) := by
  rw [decodeFrom, dtable_equals, if_neg (by decide)]
  dsimp only
  rw [if_pos rfl]
  exact congrArg some (take_front out [_] [_, _] rfl)

/-- The whole of an encoded text. -/
theorem decodeFrom_encodeFrom (src : Bytes) (line_len : Nat) (out : Bytes) :
    decodeFrom (encodeFrom src line_len) [] 0 out = some (out ++ src) := by
  induction src, line_len using encodeFrom.induct generalizing out with
  | case1 =>
    rw [List.append_nil]
    rfl
  | case2 line_len h =>
    rw [encodeFrom, if_neg h, decodeFrom_lineFeed, List.append_nil]
    rfl
  | case3 a line_len =>
    have hvalue := encode_first a 0
    rw [show (0 : UInt8) >>> 4 = 0 from rfl, UInt8.or_zero] at hvalue
    rw [encodeFrom, decodeFrom_hold (first_lt a) (by simp), decodeFrom_hold (low_two_lt a) (by simp),
      decodeFrom_equals (by simp)]
    exact (decodeFrom_pad_two _ _ _).trans (by rw [hvalue])
  | case4 a b line_len =>
    have hvalue : ((((a &&& 0x03) <<< 4) ||| (b >>> 4)) <<< 4) |||
        (((b &&& 0x0f) <<< 2) >>> 2) = b := by
      have h := encode_second a b 0
      rwa [show (0 : UInt8) >>> 6 = 0 from rfl, UInt8.or_zero] at h
    rw [encodeFrom, decodeFrom_hold (first_lt a) (by simp),
      decodeFrom_hold (second_lt a b) (by simp),
      decodeFrom_hold (low_four_lt b) (by simp)]
    exact (decodeFrom_pad_one _ _ _).trans (by rw [encode_first, hvalue])
  | case5 a b c rest line_len ih ih' =>
    rw [encodeFrom, decodeFrom_block (first_lt a) (second_lt a b) (third_lt b c) (fourth_lt c),
      encode_first, encode_second, encode_third]
    split
    · rw [decodeFrom_lineFeed, ih, List.append_assoc]
      rfl
    · rw [ih', List.append_assoc]
      rfl

theorem charCount_lineFeed (rest : CStr) : charCount (lineFeed :: rest) = charCount rest := by
  rw [charCount, List.filter_cons, dtable_lineFeed]
  rfl

theorem charCount_equals (rest : CStr) : charCount (equals :: rest) = charCount rest + 1 := rfl

theorem charCount_tableAt (hv : v < 64) (rest : CStr) :
    charCount (tableAt v :: rest) = charCount rest + 1 := by
  obtain ⟨hvalue, -, hskip⟩ := table_values v hv
  rw [charCount, List.filter_cons, hvalue, if_pos (bne_iff_ne.mpr hskip), List.length_cons]
  rfl

/-- Four characters for every block of three bytes or less. -/
theorem charCount_encodeFrom (src : Bytes) (line_len : Nat) :
    charCount (encodeFrom src line_len) = 4 * ((src.length + 2) / 3) := by
  induction src, line_len using encodeFrom.induct with
  | case1 => rfl
  | case2 line_len h =>
    rw [encodeFrom, if_neg h, charCount_lineFeed]
    rfl
  | case3 a line_len =>
    rw [encodeFrom, charCount_tableAt (first_lt a), charCount_tableAt (low_two_lt a),
      charCount_equals, charCount_equals, charCount_lineFeed]
    simp [charCount]
  | case4 a b line_len =>
    rw [encodeFrom, charCount_tableAt (first_lt a), charCount_tableAt (second_lt a b),
      charCount_tableAt (low_four_lt b), charCount_equals, charCount_lineFeed]
    simp [charCount]
  | case5 a b c rest line_len ih ih' =>
    have hrest : charCount (if 72 ≤ line_len + 4 then lineFeed :: encodeFrom rest 0
        else encodeFrom rest (line_len + 4)) = 4 * ((rest.length + 2) / 3) := by
      split
      · rw [charCount_lineFeed, ih]
      · rw [ih']
    rw [encodeFrom, charCount_tableAt (first_lt a), charCount_tableAt (second_lt a b),
      charCount_tableAt (third_lt b c), charCount_tableAt (fourth_lt c), hrest]
    simp only [List.length_cons]
    omega

/-- What is encoded is decoded again, but for no bytes at all. -/
theorem base64_decode_encode {src : Bytes} {text : CStr} (h : base64_encode src = some text) :
    base64_decode text = if src = [] then none else some src := by
  obtain rfl : encodeFrom src 0 = text := by
    rw [base64_encode] at h
    split at h
    · cases h
    · exact Option.some.inj h
  rw [base64_decode, charCount_encodeFrom]
  cases src with
  | nil => rfl
  | cons a rest =>
    rw [if_neg (by rw [List.length_cons]; omega), if_neg (List.cons_ne_nil a rest),
      decodeFrom_encodeFrom, List.nil_append]

/-! ## Decoding what was mangled on the way -/

/-- The character counts: it is of the table, or an equals sign. -/
def counts (b : UInt8) : Bool := dtable b != 0x80

theorem decodeFrom_skip {b : UInt8} (hb : counts b = false) :
    decodeFrom (b :: rest) block pad out = decodeFrom rest block pad out := by
  rw [decodeFrom, if_pos (by simpa [counts] using hb)]

/-- Nothing else has a say in what is decoded. -/
theorem decodeFrom_filter (src : CStr) (block : List UInt8) (pad : Nat) (out : Bytes) :
    decodeFrom (src.filter counts) block pad out = decodeFrom src block pad out := by
  induction src generalizing block pad out with
  | nil => rfl
  | cons b rest ih =>
    cases hb : counts b with
    | false => rw [List.filter_cons_of_neg (by simp [hb]), decodeFrom_skip hb, ih]
    | true =>
      rw [List.filter_cons_of_pos hb, decodeFrom, decodeFrom]
      simp only [ih]

theorem base64_decode_filter (src : CStr) :
    base64_decode (src.filter counts) = base64_decode src := by
  have hcount : charCount (src.filter counts) = charCount src := by
    unfold charCount
    rw [List.filter_filter]
    congr 2
    funext b
    exact Bool.and_self _
  rw [base64_decode, base64_decode, hcount, decodeFrom_filter]

/-- An encoded text is decoded to what was encoded, whatever was put into it or taken out of
it, as long as its own characters are still there in order. -/
theorem base64_survives {src : Bytes} {text mangled : CStr} (h : base64_encode src = some text)
    (hsrc : src ≠ []) (hmangled : mangled.filter counts = text.filter counts) :
    base64_decode mangled = some src := by
  rw [← base64_decode_filter, hmangled, base64_decode_filter, base64_decode_encode h,
    if_neg hsrc]

/-- Blanks in the text of three bytes, and its line feed lost. -/
theorem base64_survives_blanks : base64_decode (lit " YW Jj") = some (lit "abc") :=
  base64_survives (show base64_encode (lit "abc") = some (lit "YWJj\n") by decide) (by decide)
    (by decide)

/-- Four characters for three bytes, and a line feed for every 72 of them. -/
theorem length_encodeFrom_le (src : Bytes) (line_len : Nat) :
    (encodeFrom src line_len).length ≤
      4 * ((src.length + 2) / 3) + (line_len + 4 * ((src.length + 2) / 3)) / 72 + 1 := by
  fun_induction encodeFrom src line_len with
  | case1 =>
    rw [List.length_nil]
    omega
  | case2 line_len hline =>
    rw [List.length_singleton]
    omega
  | case3 a line_len =>
    simp only [List.length_cons, List.length_nil]
    omega
  | case4 a b line_len =>
    simp only [List.length_cons, List.length_nil]
    omega
  | case5 a b c rest line_len ih ih' =>
    simp only [List.length_cons]
    split
    · simp only [List.length_cons]
      omega
    · omega

theorem encodedSize_eq (len : Nat) :
    encodedSize len = len * 4 % 2 ^ 64 / 3 + 4 + (len * 4 % 2 ^ 64 / 3 + 4) / 72 + 1 := by
  have hlt := Nat.mod_lt (len * 4) (show 0 < 2 ^ 64 by decide)
  have hwrap : u64 (len * 4 : Nat) = len * 4 % 2 ^ 64 := by
    unfold u64
    omega
  have holen : u64 (len * 4 % 2 ^ 64 / 3 + 4 : Nat) = len * 4 % 2 ^ 64 / 3 + 4 :=
    u64_of_lt (by omega)
  simp only [encodedSize]
  rw [hwrap, holen]
  exact u64_of_lt (by omega)

/-- The buffer of the encoder has room for the text and its NUL: a length for which the size
wraps around is turned away. -/
theorem base64_encode_length {src : Bytes} {text : CStr} (h : base64_encode src = some text) :
    text.length + 1 ≤ encodedSize src.length := by
  rw [base64_encode] at h
  split at h
  · cases h
  · rename_i hsize
    rw [← Option.some.inj h]
    rw [encodedSize_eq] at hsize ⊢
    have hlt : src.length * 4 < 2 ^ 64 := by omega
    rw [Nat.mod_eq_of_lt hlt]
    have hlength := length_encodeFrom_le src 0
    have hblocks : 4 * ((src.length + 2) / 3) + 1 ≤ src.length * 4 / 3 + 4 := by omega
    have hlines : (0 + 4 * ((src.length + 2) / 3)) / 72 ≤ (src.length * 4 / 3 + 4) / 72 :=
      Nat.div_le_div_right (by omega)
    omega

/-! ## The concatenation -/

/-- The variables of the loop. -/
structure B64Cat where
  zz : Option (Block UInt8)
  lz : Nat
  t : Nat

/-- One argument.  The length of the last decoded piece stays where nothing is decoded. -/
def b64catStep (v : B64Cat) (s : CStr) : Except Fault B64Cat :=
  let z := base64_decode s
  let lz := (z.map List.length).getD v.lz
  if 0 < lz then
    let t := v.t + lz
    let ptr := match v.zz with
      | none => calloc 0 lz
      | some zz => realloc zz t
    match z with
    | none => .error .nullPointer
    | some z =>
      match copyIn ptr t z with
      | some zz => .ok ⟨some zz, lz, t⟩
      | none => .error .outOfBounds
  else .ok { v with lz }

def b64cat (args : List CStr) : Except Fault (Option CStr) := do
  let v ← args.foldlM b64catStep ⟨none, 0, 0⟩
  match v.zz with
  | none => pure none
  | some zz =>
    if 0 < v.t then
      match zz.mapM id with
      | some bytes => pure (base64_encode bytes)
      | none => .error .uninitialised
    else pure none

/-- The first piece that is not empty is copied to where its buffer ends. -/
theorem b64catStep_overruns {src : Bytes} {text : CStr} (h : base64_encode src = some text)
    (hne : src ≠ []) : b64catStep ⟨none, 0, 0⟩ text = .error .outOfBounds := by
  have hpos : 0 < src.length := List.length_pos_of_ne_nil hne
  have hcopy : copyIn (calloc 0 src.length) (0 + src.length) src = none := by
    apply copyIn_eq_none
    rw [length_calloc]
    omega
  rw [b64catStep, base64_decode_encode h, if_neg hne]
  dsimp only
  rw [Option.map_some, Option.getD_some, if_pos hpos, hcopy]

/-- An empty piece changes nothing before the first one that is not. -/
theorem b64catStep_empty {text : CStr} (h : base64_encode [] = some text) :
    b64catStep ⟨none, 0, 0⟩ text = .ok ⟨none, 0, 0⟩ := by
  rw [b64catStep, base64_decode_encode h, if_pos rfl]
  rfl

theorem foldlM_b64catStep {srcs : List Bytes} {texts : List CStr}
    (h : List.Forall₂ (fun src text => base64_encode src = some text) srcs texts)
    (hne : ∃ src ∈ srcs, src ≠ []) :
    texts.foldlM b64catStep ⟨none, 0, 0⟩ = .error .outOfBounds := by
  induction h with
  | nil =>
    obtain ⟨src, hsrc, -⟩ := hne
    cases hsrc
  | @cons src text srcs texts hfirst hrest ih =>
    rw [List.foldlM_cons]
    by_cases hsrc : src = []
    · subst hsrc
      rw [b64catStep_empty hfirst]
      apply ih
      obtain ⟨piece, hpiece, hpiece'⟩ := hne
      exact ⟨piece, (List.mem_cons.mp hpiece).resolve_left hpiece', hpiece'⟩
    · rw [b64catStep_overruns hfirst hsrc]
      rfl

/-- `b64cat` leaves its buffer with the first piece that is not empty, so that no texts
give the text of the pieces together. -/
theorem b64cat_overruns {srcs : List Bytes} {texts : List CStr}
    (h : List.Forall₂ (fun src text => base64_encode src = some text) srcs texts)
    (hne : ∃ src ∈ srcs, src ≠ []) :
    b64cat texts = .error .outOfBounds ∧ b64cat texts ≠ .ok (base64_encode srcs.flatten) := by
  have hfault : b64cat texts = .error .outOfBounds := by
    rw [b64cat, foldlM_b64catStep h hne]
    rfl
  exact ⟨hfault, by rw [hfault]; exact nofun⟩

/-- `AQ==`, the text of one byte. -/
theorem one_byte_overruns :
    base64_encode [1] = some [65, 81, equals, equals, lineFeed] ∧
      b64cat [[65, 81, equals, equals, lineFeed]] ≠ .ok (base64_encode [1]) := by
  have hfault : b64cat [[65, 81, equals, equals, lineFeed]] = .error .outOfBounds := rfl
  exact ⟨rfl, by rw [hfault]; exact nofun⟩

theorem two_pieces_overrun :
    ∃ texts, List.Forall₂ (fun src text => base64_encode src = some text)
        [[], [1, 2], [3]] texts ∧
      b64cat texts = .error .outOfBounds := by
  have h : List.Forall₂ (fun src text => base64_encode src = some text)
      [[], [1, 2], [3]] [_, _, _] := .cons rfl (.cons rfl (.cons rfl .nil))
  exact ⟨_, h, (b64cat_overruns h ⟨[3], by simp, by simp⟩).1⟩

end SiaFS
