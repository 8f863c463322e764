/-
The MD5 digest, `md5.c`, and the keys made of it.

The context of a digest holds the bytes of the last incomplete block among what earlier
blocks left behind, and nothing initialises its buffer and its result.  Whatever is in
them, and however the input is cut into calls of `md5Update`, the digest is that of the
published algorithm.
-/
import SiaFS.Common.Text
import SiaFS.Lib.Md5

namespace SiaFS

structure MD5Context where
  /-- The size of the input in bytes. -/
  size : UInt64
  buffer : Vector UInt32 4
  input : Vector UInt8 64
  digest : Vector UInt8 16

namespace MD5

def A : UInt32 := 0x67452301

def B : UInt32 := 0xefcdab89

def C : UInt32 := 0x98badcfe

def D : UInt32 := 0x10325476

def S : Vector UInt32 64 :=
  #v[7, 12, 17, 22, 7, 12, 17, 22, 7, 12, 17, 22, 7, 12, 17, 22,
    5, 9, 14, 20, 5, 9, 14, 20, 5, 9, 14, 20, 5, 9, 14, 20,
    4, 11, 16, 23, 4, 11, 16, 23, 4, 11, 16, 23, 4, 11, 16, 23,
    6, 10, 15, 21, 6, 10, 15, 21, 6, 10, 15, 21, 6, 10, 15, 21]

def K : Vector UInt32 64 :=
  #v[0xd76aa478, 0xe8c7b756, 0x242070db, 0xc1bdceee, 0xf57c0faf, 0x4787c62a, 0xa8304613, 0xfd469501,
    0x698098d8, 0x8b44f7af, 0xffff5bb1, 0x895cd7be, 0x6b901122, 0xfd987193, 0xa679438e, 0x49b40821,
    0xf61e2562, 0xc040b340, 0x265e5a51, 0xe9b6c7aa, 0xd62f105d, 0x02441453, 0xd8a1e681, 0xe7d3fbc8,
    0x21e1cde6, 0xc33707d6, 0xf4d50d87, 0x455a14ed, 0xa9e3e905, 0xfcefa3f8, 0x676f02d9, 0x8d2a4c8a,
    0xfffa3942, 0x8771f681, 0x6d9d6122, 0xfde5380c, 0xa4beea44, 0x4bdecfa9, 0xf6bb4b60, 0xbebfbc70,
    0x289b7ec6, 0xeaa127fa, 0xd4ef3085, 0x04881d05, 0xd9d4d039, 0xe6db99e5, 0x1fa27cf8, 0xc4ac5665,
    0xf4292244, 0x432aff97, 0xab9423a7, 0xfc93a039, 0x655b59c3, 0x8f0ccc92, 0xffeff47d, 0x85845dd1,
    0x6fa87e4f, 0xfe2ce6e0, 0xa3014314, 0x4e0811a1, 0xf7537e82, 0xbd3af235, 0x2ad7d2bb, 0xeb86d391]

def PADDING : Bytes := 0x80 :: List.replicate 63 0x00

def F (X Y Z : UInt32) : UInt32 := (X &&& Y) ||| (~~~X &&& Z)

def G (X Y Z : UInt32) : UInt32 := (X &&& Z) ||| (Y &&& ~~~Z)

def H (X Y Z : UInt32) : UInt32 := X ^^^ Y ^^^ Z

def I (X Y Z : UInt32) : UInt32 := Y ^^^ (X ||| ~~~Z)

end MD5

open MD5

def rotateLeft (x n : UInt32) : UInt32 := (x <<< n) ||| (x >>> (32 - n))

def md5Init (ctx : MD5Context) : MD5Context := { ctx with size := 0, buffer := #v[A, B, C, D] }

/-- The local variables of `md5Step`. -/
structure StepVars where
  AA : UInt32
  BB : UInt32
  CC : UInt32
  DD : UInt32

/-- `E` and `j` of a turn of the loop of `md5Step`. -/
def stepInput (i : Fin 64) (v : StepVars) : UInt32 × Fin 16 :=
  if i.val / 16 = 0 then (F v.BB v.CC v.DD, ⟨i.val % 16, by omega⟩)
  else if i.val / 16 = 1 then (G v.BB v.CC v.DD, ⟨(i.val * 5 + 1) % 16, by omega⟩)
  else if i.val / 16 = 2 then (H v.BB v.CC v.DD, ⟨(i.val * 3 + 5) % 16, by omega⟩)
  else (I v.BB v.CC v.DD, ⟨i.val * 7 % 16, by omega⟩)

/-- One turn of the loop of `md5Step`. -/
def stepTurn (input : Vector UInt32 16) (v : StepVars) (i : Fin 64) : StepVars :=
  let (E, j) := stepInput i v
  { AA := v.DD, BB := v.BB + rotateLeft (v.AA + E + K[i] + input[j]) S[i], CC := v.BB, DD := v.CC }

def md5Step (buffer : Vector UInt32 4) (input : Vector UInt32 16) : Vector UInt32 4 :=
  let v := (List.finRange 64).foldl (stepTurn input) ⟨buffer[0], buffer[1], buffer[2], buffer[3]⟩
  #v[buffer[0] + v.AA, buffer[1] + v.BB, buffer[2] + v.CC, buffer[3] + v.DD]

/-- Four bytes of `ctx->input` as a little-endian word. -/
def inputWord (input : Vector UInt8 64) (j : Fin 16) : UInt32 :=
  (input[(j : Nat) * 4 + 3]).toUInt32 <<< 24 ||| (input[(j : Nat) * 4 + 2]).toUInt32 <<< 16 |||
    (input[(j : Nat) * 4 + 1]).toUInt32 <<< 8 ||| (input[(j : Nat) * 4]).toUInt32

/-- One turn of the loop of `md5Update`: the context and the offset after it. -/
def updateByte (ctx : MD5Context) (offset : Fin 64) (b : UInt8) : MD5Context × Fin 64 :=
  let ctx := { ctx with input := ctx.input.set offset b }
  if h : (offset.val + 1) % 64 = 0 then
    ({ ctx with buffer := md5Step ctx.buffer (Vector.ofFn (inputWord ctx.input)) }, 0)
  else (ctx, ⟨offset + 1, by omega⟩)

/-- The loop of `md5Update` from the counter `i` on, an `unsigned int`; `none` when it
does not end within `fuel` turns. -/
def updateLoop (input_buffer : Bytes) : Nat → UInt32 → MD5Context → Fin 64 → Option MD5Context
  | 0, _, _, _ => none
  | fuel + 1, i, ctx, offset =>
    if h : i.toNat < input_buffer.length then
      let (ctx, offset) := updateByte ctx offset input_buffer[i.toNat]
      updateLoop input_buffer fuel (i + 1) ctx offset
    else some ctx

/-- The place of the next byte in `ctx->input`. -/
def MD5Context.offset (ctx : MD5Context) : Fin 64 := ⟨ctx.size.toNat % 64, by omega⟩

def md5Update (fuel : Nat) (ctx : MD5Context) (input_buffer : Bytes) : Option MD5Context :=
  updateLoop input_buffer fuel 0 { ctx with size := ctx.size + input_buffer.length.toUInt64 }
    ctx.offset

/-- The bytes of a word of `ctx->buffer`. -/
def digestBytes (x : UInt32) : List UInt8 :=
  [(x &&& 0x000000FF).toUInt8, ((x &&& 0x0000FF00) >>> 8).toUInt8,
    ((x &&& 0x00FF0000) >>> 16).toUInt8, ((x &&& 0xFF000000) >>> 24).toUInt8]

/-- The last block, the input and its size in bits. -/
def finalInput (ctx : MD5Context) (j : Fin 16) : UInt32 :=
  if j.val = 14 then (ctx.size * 8).toUInt32
  else if j.val = 15 then ((ctx.size * 8) >>> 32).toUInt32
  else inputWord ctx.input j

def md5Finalize (fuel : Nat) (ctx : MD5Context) : Option MD5Context := do
  let offset := ctx.offset.val
  let padding_length := if offset < 56 then 56 - offset else 56 + 64 - offset
  let ctx ← md5Update fuel ctx (PADDING.take padding_length)
  let ctx := { ctx with size := ctx.size - padding_length.toUInt64 }
  let buffer := md5Step ctx.buffer (Vector.ofFn (finalInput ctx))
  let digest := Vector.ofFn fun i : Fin 16 => (buffer.toList.flatMap digestBytes).getD i 0
  pure { ctx with buffer := buffer, digest := digest }

/-- `md5String`, for what is in the context when it is declared. -/
def md5String (fuel : Nat) (ctx : MD5Context) (input : CStr) : Option Bytes := do
  let ctx ← md5Update fuel (md5Init ctx) input
  let ctx ← md5Finalize fuel ctx
  pure ctx.digest.toList

/-- `md5File`, by what the calls of `fread` return up to the first that returns nothing. -/
def md5File (fuel : Nat) (ctx : MD5Context) (reads : List Bytes) : Option Bytes := do
  let ctx ← reads.foldlM (md5Update fuel) (md5Init ctx)
  let ctx ← md5Finalize fuel ctx
  pure ctx.digest.toList

open Md5 Chaining

/-- The table of the algorithm. -/
def constants (i : Fin 64) : UInt32 := K[i]

/-! ## One block -/

/-- The words are taken in the order of the round. -/
theorem stepInput_order : ∀ r g n : Fin 4,
    (stepInput (number r g n) ⟨0, 0, 0, 0⟩).2 = order r (place g n) := by decide

theorem stepInput_number (r g n : Fin 4) (v : StepVars) :
    stepInput (number r g n) v = (auxiliary r v.BB v.CC v.DD, order r (place g n)) := by
  have hdiv : (number r g n).val / 16 = r := by
    simp only [number]
    omega
  have hsnd : (stepInput (number r g n) v).2 = (stepInput (number r g n) ⟨0, 0, 0, 0⟩).2 := by
    rw [stepInput, stepInput]
    split
    · rfl
    · split
      · rfl
      · split <;> rfl
  refine Prod.ext ?_ (hsnd.trans (stepInput_order r g n))
  rw [stepInput, hdiv]
  match r with
  | 0 | 1 | 2 | 3 => rfl

theorem S_number : ∀ r g n : Fin 4, S[number r g n] = rotations r n := by decide

/-- The numbers of the operations, by round and group. -/
theorem finRange_number : List.finRange 64 = (List.finRange 4).flatMap fun r =>
    (List.finRange 4).flatMap fun g => (List.finRange 4).map (number r g) := by decide

def StepVars.registers (v : StepVars) : Registers := ⟨v.AA, v.BB, v.CC, v.DD⟩

/-- The registers of a buffer. -/
def registers (buffer : Vector UInt32 4) : Registers :=
  ⟨buffer[0], buffer[1], buffer[2], buffer[3]⟩

/-- A turn of the loop makes an operation and rotates the registers. -/
theorem stepTurn_number (input : Vector UInt32 16) (r g n : Fin 4) (v : StepVars) :
    stepTurn input v (number r g n) =
      ⟨v.DD, operation constants (fun j => input[j]) r g n v.AA v.BB v.CC v.DD, v.BB, v.CC⟩ := by
  rw [stepTurn, stepInput_number, S_number]
  rfl

/-- Four turns put the registers back in their places. -/
theorem foldl_stepTurn_group (input : Vector UInt32 16) (r g : Fin 4) (v : StepVars) :
    (((List.finRange 4).map (number r g)).foldl (stepTurn input) v).registers =
      group constants (fun j => input[j]) r g v.registers := by
  have hfin : List.finRange 4 = [0, 1, 2, 3] := by decide
  rw [hfin]
  simp only [List.map_cons, List.map_nil, List.foldl_cons, List.foldl_nil, stepTurn_number]
  rfl

/-- Two folds in step. -/
theorem foldl_registers {ι : Type} {f : StepVars → ι → StepVars} {g : Registers → ι → Registers}
    (h : ∀ v i, (f v i).registers = g v.registers i) (is : List ι) (v : StepVars) :
    (is.foldl f v).registers = is.foldl g v.registers := by
  induction is generalizing v with
  | nil => rfl
  | cons i is ih => rw [List.foldl_cons, List.foldl_cons, ih, h]

theorem md5Step_registers (buffer : Vector UInt32 4) (input : Vector UInt32 16) :
    registers (md5Step buffer input) =
      (registers buffer).add (rounds constants (fun j => input[j]) (registers buffer)) := by
  have hloop : ((List.finRange 64).foldl (stepTurn input)
      ⟨buffer[0], buffer[1], buffer[2], buffer[3]⟩).registers =
        rounds constants (fun j => input[j]) (registers buffer) := by
    rw [finRange_number, List.foldl_flatMap]
    refine foldl_registers (fun v r => ?_) _ _
    rw [List.foldl_flatMap]
    exact foldl_registers (fun v g => foldl_stepTurn_group input r g v) _ _
  rw [← hloop]
  rfl

/-! ## The bytes of a block -/

/-- A word is read from the bytes that are there. -/
theorem inputWord_eq {input : Vector UInt8 64} {block : Bytes} {n : Nat}
    (h : block.take n = input.toList.take n) {j : Fin 16} (hj : 4 * (j : Nat) + 4 ≤ n) :
    inputWord input j = word block j := by
  have hget : ∀ i (hi : i < 64), i < n → block.getD i 0 = input[i] := by
    intro i hi hn
    rw [List.getD_eq_getElem?_getD, ← List.getElem?_take_of_lt hn, h, List.getElem?_take_of_lt hn]
    simp [hi]
  rw [inputWord, word, hget _ (by omega) (by omega), hget _ (by omega) (by omega),
    hget _ (by omega) (by omega), hget _ (by omega) (by omega)]
  simp only [Nat.mul_comm 4]

/-- A full block is compressed. -/
theorem md5Step_input (buffer : Vector UInt32 4) (input : Vector UInt8 64) :
    registers (md5Step buffer (Vector.ofFn (inputWord input))) =
      compress constants (registers buffer) input.toList := by
  have hword : (fun j : Fin 16 => (Vector.ofFn (inputWord input))[j]) =
      fun j : Fin 16 => word input.toList j := by
    funext j
    rw [Fin.getElem_fin, Vector.getElem_ofFn]
    exact inputWord_eq rfl (n := 64) (by omega)
  rw [md5Step_registers, hword]
  rfl

/-! ## The input byte by byte -/

/-- The context and the offset are at this state of the algorithm. -/
structure Shows (p : MD5Context × Fin 64) (s : Registers × Bytes) : Prop where
  buffer : registers p.1.buffer = s.1
  pending : p.1.input.toList.take p.2 = s.2

theorem Shows.length {p : MD5Context × Fin 64} {s : Registers × Bytes} (h : Shows p s) :
    s.2.length = p.2 := by
  rw [← h.pending, List.length_take, Vector.length_toList]
  omega

theorem updateByte_shows {p : MD5Context × Fin 64} {s : Registers × Bytes} (h : Shows p s)
    (b : UInt8) : Shows (updateByte p.1 p.2 b) (feed 64 (compress constants) s b) ∧
      (updateByte p.1 p.2 b).1.size = p.1.size := by
  obtain ⟨ctx, offset⟩ := p
  have hlen : s.2.length = offset := h.length
  have hlt := offset.isLt
  have hset : (ctx.input.set offset b).toList.take (offset + 1) = s.2 ++ [b] := by
    rw [Vector.toList_set, ← h.pending, List.take_add_one, List.take_set_of_le (Nat.le_refl _)]
    simp
  show Shows (updateByte ctx offset b) _ ∧ (updateByte ctx offset b).1.size = ctx.size
  rw [updateByte, feed]
  by_cases hfull : (offset.val + 1) % 64 = 0
  · have hblock : (ctx.input.set offset b).toList = s.2 ++ [b] := by
      rw [← hset, List.take_of_length_le (by rw [Vector.length_toList]; omega)]
    simp only [dif_pos hfull]
    rw [if_pos (by omega)]
    refine ⟨⟨?_, by simp⟩, trivial⟩
    rw [← hblock, ← h.buffer]
    exact md5Step_input _ _
  · simp only [dif_neg hfull]
    rw [if_neg (by omega)]
    exact ⟨⟨h.buffer, hset⟩, trivial⟩

/-- The turns of the loop of `md5Update`. -/
def updateBytes (p : MD5Context × Fin 64) (input : Bytes) : MD5Context × Fin 64 :=
  input.foldl (fun p b => updateByte p.1 p.2 b) p

theorem updateBytes_shows {p : MD5Context × Fin 64} {s : Registers × Bytes} (h : Shows p s)
    (input : Bytes) : Shows (updateBytes p input) (input.foldl (feed 64 (compress constants)) s) ∧
      (updateBytes p input).1.size = p.1.size := by
  induction input generalizing p s with
  | nil => exact ⟨h, rfl⟩
  | cons b input ih =>
    obtain ⟨hshows, hsize⟩ := updateByte_shows h b
    obtain ⟨hrest, hsize'⟩ := ih hshows
    exact ⟨hrest, hsize'.trans hsize⟩

/-- The loop ends when the counter can hold the length of the input. -/
theorem updateLoop_eq {input : Bytes} (h32 : input.length < 2 ^ 32) {fuel : Nat} {i : UInt32}
    (hi : i.toNat ≤ input.length) (hfuel : input.length - i.toNat < fuel) (ctx : MD5Context)
    (offset : Fin 64) : updateLoop input fuel i ctx offset =
      some (updateBytes (ctx, offset) (input.drop i.toNat)).1 := by
  induction fuel generalizing i ctx offset with
  | zero => omega
  | succ fuel ih =>
    rw [updateLoop]
    split
    · rename_i hlt
      have hnext : (i + 1).toNat = i.toNat + 1 := by
        rw [UInt32.toNat_add, UInt32.toNat_one]
        omega
      rw [List.drop_eq_getElem_cons hlt, ← hnext]
      exact ih (by omega) (by omega) _ _
    · rw [List.drop_eq_nil_of_le (by omega)]
      rfl

/-- It never ends when the counter cannot. -/
theorem updateLoop_hangs {input : Bytes} (h32 : 2 ^ 32 ≤ input.length) (fuel : Nat) (i : UInt32)
    (ctx : MD5Context) (offset : Fin 64) : updateLoop input fuel i ctx offset = none := by
  induction fuel generalizing i ctx offset with
  | zero => rfl
  | succ fuel ih =>
    have hlt := i.toNat_lt
    rw [updateLoop, dif_pos (by omega)]
    exact ih _ _ _

/-- The context after the input `text`. -/
structure Absorbed (ctx : MD5Context) (text : Bytes) : Prop where
  size : ctx.size = text.length.toUInt64
  shows : Shows (ctx, ctx.offset) (chain 64 (compress constants) initial text, rest 64 text)

theorem offset_of_size {ctx : MD5Context} {n : Nat} (h : ctx.size = n.toUInt64) :
    ctx.offset.val = n % 64 := by
  show ctx.size.toNat % 64 = n % 64
  rw [h]
  show n % 2 ^ 64 % 64 = n % 64
  omega

/-- The offset is where the size says. -/
theorem Absorbed.of_shows {p : MD5Context × Fin 64} {text : Bytes}
    (hsize : p.1.size = text.length.toUInt64)
    (h : Shows p (chain 64 (compress constants) initial text, rest 64 text)) :
    Absorbed p.1 text := by
  have hoffset : p.2 = p.1.offset := by
    refine Fin.ext ?_
    rw [← h.length, offset_of_size hsize]
    exact length_rest 64 text
  exact ⟨hsize, h.buffer, hoffset ▸ h.pending⟩

theorem md5Init_absorbed (ctx : MD5Context) : Absorbed (md5Init ctx) [] where
  size := rfl
  shows := ⟨rfl, rfl⟩

theorem md5Update_absorbed {fuel : Nat} {ctx : MD5Context} {text : Bytes}
    (h : Absorbed ctx text) (more : Bytes) (h32 : more.length < 2 ^ 32)
    (hfuel : more.length < fuel) :
    ∃ ctx', md5Update fuel ctx more = some ctx' ∧ Absorbed ctx' (text ++ more) := by
  have hstart : Shows ({ ctx with size := ctx.size + more.length.toUInt64 }, ctx.offset)
      (chain 64 (compress constants) initial text, rest 64 text) :=
    ⟨h.shows.buffer, h.shows.pending⟩
  obtain ⟨hshows, hsize⟩ := updateBytes_shows hstart more
  refine ⟨_, updateLoop_eq h32 (Nat.zero_le _) (by simpa using hfuel) _ _, ?_⟩
  refine Absorbed.of_shows (hsize.trans ?_) ?_
  · rw [List.length_append, h.size]
    exact (UInt64.ofNat_add _ _).symm
  · rw [← foldl_feed (by decide), List.foldl_append, foldl_feed (by decide)]
    exact hshows

/-! ## The end of the input -/

theorem padding_length_eq (n : Nat) :
    (if n % 64 < 56 then 56 - n % 64 else 56 + 64 - n % 64) = (padding n).length := by
  rw [padding, List.length_cons, List.length_replicate]
  split <;> omega

theorem take_PADDING (n : Nat) : PADDING.take (padding n).length = padding n := by
  rw [PADDING, padding, List.length_cons, List.length_replicate, List.take_succ_cons,
    List.take_replicate, Nat.min_eq_left (by omega)]

/-- The last block is completed with the number of bits. -/
theorem finalInput_eq {ctx : MD5Context} {head : Bytes} {n : Nat} (hsize : ctx.size = n.toUInt64)
    (hhead : ctx.input.toList.take 56 = head) (j : Fin 16) :
    finalInput ctx j = word (head ++ lowBytes 8 (8 * n)) j := by
  have hlen : head.length = 4 * 14 := by
    rw [← hhead, List.length_take, Vector.length_toList]
    rfl
  obtain ⟨hlow, hhigh⟩ := word_lowBytes hlen (8 * n)
  have hnat : ctx.size.toNat = n % 2 ^ 64 := by
    rw [hsize]
    rfl
  rw [finalInput]
  split
  · rename_i h14
    rw [h14]
    refine Eq.trans (UInt32.toNat_inj.mp ?_) hlow.symm
    show ctx.size.toNat * 8 % 2 ^ 64 % 2 ^ 32 = 8 * n % 2 ^ 32
    omega
  · split
    · rename_i h15
      rw [h15]
      refine Eq.trans (UInt32.toNat_inj.mp ?_) hhigh.symm
      show (ctx.size.toNat * 8 % 2 ^ 64) >>> 32 % 2 ^ 32 = (8 * n) >>> 32 % 2 ^ 32
      rw [Nat.shiftRight_eq_div_pow, Nat.shiftRight_eq_div_pow]
      omega
    · refine inputWord_eq (n := 56) ?_ (by omega)
      rw [← hhead, List.take_append_of_le_length (by rw [hhead, hlen]), List.take_take]
      rfl

theorem digestBytes_eq (x : UInt32) : digestBytes x = lowBytes 4 x.toNat := by
  have hrange : List.range 4 = [0, 1, 2, 3] := rfl
  have hmask : ∀ i < 8, Nat.testBit 255 i ∧ Nat.testBit 65280 (8 + i) ∧
      Nat.testBit 16711680 (16 + i) ∧ Nat.testBit 4278190080 (24 + i) := by decide
  rw [digestBytes, lowBytes, hrange]
  simp only [List.map_cons, List.map_nil]
  refine congrArg₂ _ ?_ (congrArg₂ _ ?_ (congrArg₂ _ ?_ (congrArg₂ _ ?_ rfl)))
  all_goals
    refine UInt8.toNat_inj.mp (Nat.eq_of_testBit_eq fun i => ?_)
    simp [testBit_byte]
    grind

theorem flatMap_digestBytes (buffer : Vector UInt32 4) :
    buffer.toList.flatMap digestBytes = (registers buffer).bytes := by
  have hlist : buffer.toList = [buffer[0], buffer[1], buffer[2], buffer[3]] :=
    List.ext_getElem (by simp) fun i hi _ => by
      rw [Vector.length_toList] at hi
      match i with
      | 0 | 1 | 2 | 3 => rfl
  rw [hlist, Registers.bytes, registers]
  rw [show digestBytes = fun x => lowBytes 4 x.toNat from funext digestBytes_eq]

theorem toList_getD {bytes : List UInt8} (h : bytes.length = 16) :
    (Vector.ofFn fun i : Fin 16 => bytes.getD i 0).toList = bytes := by
  refine List.ext_getElem (by simp [h]) fun i hi hi' => ?_
  simp [hi']

/-- The last block is compressed without passing through the context. -/
theorem md5Step_final {ctx : MD5Context} {text : Bytes} (n : Nat)
    (h : Shows (ctx, 56) (chain 64 (compress constants) initial text, rest 64 text)) :
    registers (md5Step ctx.buffer (Vector.ofFn (finalInput { ctx with size := n.toUInt64 }))) =
      chain 64 (compress constants) initial (text ++ lowBytes 8 (8 * n)) := by
  have hhead : ({ ctx with size := n.toUInt64 } : MD5Context).input.toList.take 56 =
      rest 64 text := h.pending
  have hword : (fun j : Fin 16 =>
      (Vector.ofFn (finalInput { ctx with size := n.toUInt64 }))[j]) =
      fun j : Fin 16 => word (rest 64 text ++ lowBytes 8 (8 * n)) j := by
    funext j
    rw [Fin.getElem_fin, Vector.getElem_ofFn]
    exact finalInput_eq rfl hhead j
  have hfull : text.length % 64 + (lowBytes 8 (8 * n)).length = 64 := by
    rw [← length_rest, h.length, lowBytes, List.length_map, List.length_range]
    rfl
  rw [(chain_append_block (by decide) _ hfull).1, md5Step_registers, hword, h.buffer]
  rfl

/-- The result is the digest of the input. -/
theorem md5Finalize_digest {fuel : Nat} (hfuel : 64 < fuel) {ctx : MD5Context} {text : Bytes}
    (h : Absorbed ctx text) :
    ∃ ctx', md5Finalize fuel ctx = some ctx' ∧ ctx'.digest.toList = digest constants text := by
  have hlength : (padding text.length).length ≤ 64 := by
    rw [padding, List.length_cons, List.length_replicate]
    omega
  obtain ⟨ctx₁, hupdate, h₁⟩ :=
    md5Update_absorbed h (padding text.length) (by omega) (show _ < fuel by omega)
  have hend : ctx₁.offset = 56 := by
    refine Fin.ext ?_
    rw [offset_of_size h₁.size, List.length_append, length_padding]
    rfl
  have hshows := h₁.shows
  rw [hend] at hshows
  have hsize : ctx₁.size - (padding text.length).length.toUInt64 = text.length.toUInt64 := by
    rw [h₁.size, List.length_append]
    exact (congrArg (· - _) (UInt64.ofNat_add _ _)).trans (UInt64.add_sub_cancel _ _)
  rw [md5Finalize]
  dsimp only
  rw [offset_of_size h.size, padding_length_eq, take_PADDING, hupdate]
  refine ⟨_, rfl, ?_⟩
  show (Vector.ofFn fun i : Fin 16 => _).toList = _
  rw [hsize, flatMap_digestBytes, md5Step_final text.length hshows, toList_getD (by rfl)]
  rfl

theorem md5String_eq (ctx : MD5Context) {fuel : Nat} (hfuel : 64 < fuel) {input : CStr}
    (h32 : input.length < 2 ^ 32) (hinput : input.length < fuel) :
    md5String fuel ctx input = some (digest constants input) := by
  obtain ⟨ctx₁, hupdate, h₁⟩ := md5Update_absorbed (md5Init_absorbed ctx) input h32 hinput
  obtain ⟨ctx₂, hfinal, hdigest⟩ := md5Finalize_digest hfuel h₁
  rw [md5String, hupdate]
  show (md5Finalize fuel ctx₁).bind _ = _
  rw [hfinal]
  exact congrArg some hdigest

/-- However the input is cut into calls of `md5Update`, and whatever the context holds before
`md5Init`, the digest is that of the whole input. -/
theorem md5_streams (ctx : MD5Context) {fuel : Nat} (hfuel : 64 < fuel) {chunks : List Bytes}
    (hchunks : ∀ c ∈ chunks, c.length < 2 ^ 32 ∧ c.length < fuel) :
    md5File fuel ctx chunks = some (digest constants chunks.flatten) := by
  have hrun : ∀ {ctx : MD5Context} {text : Bytes}, Absorbed ctx text →
      ∃ ctx', chunks.foldlM (md5Update fuel) ctx = some ctx' ∧
        Absorbed ctx' (text ++ chunks.flatten) := by
    induction chunks with
    | nil => exact fun h => ⟨_, rfl, by rwa [List.flatten_nil, List.append_nil]⟩
    | cons c chunks ih =>
      intro ctx text h
      obtain ⟨h32, hc⟩ := hchunks c List.mem_cons_self
      obtain ⟨ctx₁, hupdate, h₁⟩ := md5Update_absorbed h c h32 hc
      obtain ⟨ctx₂, hrest, h₂⟩ := ih (fun c hc => hchunks c (List.mem_cons_of_mem _ hc)) h₁
      refine ⟨ctx₂, by rw [List.foldlM_cons, hupdate]; exact hrest, ?_⟩
      rwa [List.flatten_cons, ← List.append_assoc]
  obtain ⟨ctx₁, hreads, h₁⟩ := hrun (md5Init_absorbed ctx)
  obtain ⟨ctx₂, hfinal, hdigest⟩ := md5Finalize_digest hfuel h₁
  rw [md5File, hreads]
  show (md5Finalize fuel ctx₁).bind _ = _
  rw [hfinal]
  exact congrArg some hdigest

/-- A string that the counter of the loop can measure is hashed; on a longer one the loop
does not end. -/
theorem md5String_returns (ctx : MD5Context) (input : CStr) :
    (input.length < 2 ^ 32 → ∀ fuel, 64 < fuel → input.length < fuel →
      md5String fuel ctx input = some (digest constants input)) ∧
    (2 ^ 32 ≤ input.length → ∀ fuel, md5String fuel ctx input = none) := by
  refine ⟨fun h32 fuel hfuel hinput => md5String_eq ctx hfuel h32 hinput, fun h32 fuel => ?_⟩
  rw [md5String, md5Update, updateLoop_hangs h32]
  rfl

/-- A context on the stack. -/
def staleContext : MD5Context :=
  ⟨5, #v[1, 2, 3, 4], Vector.replicate 64 7, Vector.replicate 16 9⟩

theorem md5_streams_abc :
    md5File 65 staleContext [lit "a", lit "bc"] = some (digest constants (lit "abc")) :=
  md5_streams staleContext (by decide) (by decide)

/-- The digest of `abc` that is published with the algorithm. -/
example : digest constants (lit "abc") = [0x90, 0x01, 0x50, 0x98, 0x3c, 0xd2, 0x4f, 0xb0,
    0xd6, 0x96, 0x3f, 0x7d, 0x28, 0xe1, 0x7f, 0x72] := by decide +kernel

end SiaFS
