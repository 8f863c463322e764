/-
The MD5 message digest.

A message is padded to whole blocks of 64 bytes, and four registers are compressed with one
block after another.  Each of the four rounds of a compression makes sixteen operations, in
groups of four, that update the registers in place.  The table of constants is a parameter.
-/
import SiaFS.Lib.Chaining

namespace Md5

open Chaining

@[ext] structure Registers where
  a : UInt32
  b : UInt32
  c : UInt32
  d : UInt32
  deriving DecidableEq

def initial : Registers := ⟨0x67452301, 0xefcdab89, 0x98badcfe, 0x10325476⟩

/-- The word at the place `j` of a block, its low byte first. -/
def word (block : List UInt8) (j : Nat) : UInt32 :=
  (block.getD (4 * j + 3) 0).toUInt32 <<< 24 ||| (block.getD (4 * j + 2) 0).toUInt32 <<< 16 |||
    (block.getD (4 * j + 1) 0).toUInt32 <<< 8 ||| (block.getD (4 * j) 0).toUInt32

def rotate (x n : UInt32) : UInt32 := (x <<< n) ||| (x >>> (32 - n))

/-- The function of a round. -/
def auxiliary : Fin 4 → UInt32 → UInt32 → UInt32 → UInt32
  | 0 => fun x y z => (x &&& y) ||| (~~~x &&& z)
  | 1 => fun x y z => (x &&& z) ||| (y &&& ~~~z)
  | 2 => fun x y z => x ^^^ y ^^^ z
  | 3 => fun x y z => y ^^^ (x ||| ~~~z)

/-- The words of a block in the order a round takes them. -/
def order : Fin 4 → Fin 16 → Fin 16
  | 0 => Vector.get #v[0, 1, 2, 3, 4, 5, 6, 7, 8, 9, 10, 11, 12, 13, 14, 15]
  | 1 => Vector.get #v[1, 6, 11, 0, 5, 10, 15, 4, 9, 14, 3, 8, 13, 2, 7, 12]
  | 2 => Vector.get #v[5, 8, 11, 14, 1, 4, 7, 10, 13, 0, 3, 6, 9, 12, 15, 2]
  | 3 => Vector.get #v[0, 7, 14, 5, 12, 3, 10, 1, 8, 15, 6, 13, 4, 11, 2, 9]

/-- The rotations of the four operations of a group. -/
def rotations : Fin 4 → Fin 4 → UInt32
  | 0 => Vector.get #v[7, 12, 17, 22]
  | 1 => Vector.get #v[5, 9, 14, 20]
  | 2 => Vector.get #v[4, 11, 16, 23]
  | 3 => Vector.get #v[6, 10, 15, 21]

/-- The place of an operation in its round. -/
def place (g n : Fin 4) : Fin 16 := ⟨4 * g + n, by omega⟩

/-- The number of an operation. -/
def number (r g n : Fin 4) : Fin 64 := ⟨16 * r + (4 * g + n), by omega⟩

variable (T : Fin 64 → UInt32) (x : Fin 16 → UInt32) (r g : Fin 4)

/-- `b + ((a + f(b, c, d) + X[k] + T[i]) <<< s)` -/
def operation (n : Fin 4) (a b c d : UInt32) : UInt32 :=
  b + rotate (a + auxiliary r b c d + T (number r g n) + x (order r (place g n))) (rotations r n)

/-- Four operations, each of which updates the next register. -/
def group (v : Registers) : Registers :=
  let a := operation T x r g 0 v.a v.b v.c v.d
  let d := operation T x r g 1 v.d a v.b v.c
  let c := operation T x r g 2 v.c d a v.b
  let b := operation T x r g 3 v.b c d a
  ⟨a, b, c, d⟩

def round (v : Registers) : Registers :=
  (List.finRange 4).foldl (fun v g => group T x r g v) v

def rounds (v : Registers) : Registers := (List.finRange 4).foldl (fun v r => round T x r v) v

def Registers.add (v v' : Registers) : Registers := ⟨v.a + v'.a, v.b + v'.b, v.c + v'.c, v.d + v'.d⟩

def compress (v : Registers) (block : List UInt8) : Registers :=
  v.add (rounds T (fun j => word block j) v)

/-- A one bit, and zeros up to eight bytes before the end of a block. -/
def padding (length : Nat) : List UInt8 := 0x80 :: List.replicate ((119 - length % 64) % 64) 0

/-- The `count` low bytes of a number, the lowest first. -/
def lowBytes (count n : Nat) : List UInt8 :=
  (List.range count).map fun i => (n >>> (8 * i)).toUInt8

/-- The message, the padding and the length of the message in bits. -/
def padded (message : List UInt8) : List UInt8 :=
  message ++ padding message.length ++ lowBytes 8 (8 * message.length)

def Registers.bytes (v : Registers) : List UInt8 :=
  [v.a, v.b, v.c, v.d].flatMap fun x => lowBytes 4 x.toNat

def digest (message : List UInt8) : List UInt8 :=
  (chain 64 (compress T) initial (padded message)).bytes

theorem length_padding (length : Nat) : (length + (padding length).length) % 64 = 56 := by
  rw [padding, List.length_cons, List.length_replicate]
  omega

/-! ## Words and their bytes -/

theorem testBit_byte (m i : Nat) : (m % 256).testBit i = (decide (i < 8) && m.testBit i) :=
  Nat.testBit_mod_two_pow m 8 i

theorem testBit_word (m i : Nat) : (m % 4294967296).testBit i = (decide (i < 32) && m.testBit i) :=
  Nat.testBit_mod_two_pow m 32 i

theorem join_bytes (n : Nat) :
    (n >>> 24).toUInt8.toUInt32 <<< 24 ||| (n >>> 16).toUInt8.toUInt32 <<< 16 |||
      (n >>> 8).toUInt8.toUInt32 <<< 8 ||| n.toUInt8.toUInt32 = n.toUInt32 := by
  refine UInt32.toNat_inj.mp (Nat.eq_of_testBit_eq fun i => ?_)
  simp [testBit_byte, testBit_word]
  grind

theorem getD_lowBytes {head : List UInt8} {count i : Nat} (h : i < count) (n : Nat) :
    (head ++ lowBytes count n).getD (head.length + i) 0 = (n >>> (8 * i)).toUInt8 := by
  simp [lowBytes, h]

/-- The two words that eight bytes of a number make. -/
theorem word_lowBytes {head : List UInt8} {j : Nat} (h : head.length = 4 * j) (n : Nat) :
    word (head ++ lowBytes 8 n) j = n.toUInt32 ∧
      word (head ++ lowBytes 8 n) (j + 1) = (n >>> 32).toUInt32 := by
  have hget : ∀ i < 8, (head ++ lowBytes 8 n).getD (4 * j + i) 0 = (n >>> (8 * i)).toUInt8 :=
    fun i hi => by rw [← h, getD_lowBytes hi]
  refine ⟨?_, ?_⟩
  · rw [← join_bytes n, word, hget 3 (by omega), hget 2 (by omega), hget 1 (by omega),
      show (head ++ lowBytes 8 n).getD (4 * j) 0 = n.toUInt8 from hget 0 (by omega)]
  · rw [← join_bytes (n >>> 32), word, Nat.mul_succ, Nat.add_assoc, hget 7 (by omega),
      Nat.add_assoc, hget 6 (by omega), Nat.add_assoc, hget 5 (by omega), hget 4 (by omega)]
    simp only [← Nat.shiftRight_add]

end Md5
