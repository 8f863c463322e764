/-
Bytes, C strings and the constants of the build.

A C string is the list of its bytes without the terminating NUL.  Sizes and
offsets are natural numbers where the code cannot overflow them; `u64` and `s64`
stand where it computes modulo `2 ^ 64`.
-/
import Mathlib.Algebra.Group.Int.Defs
import Mathlib.Algebra.GroupWithZero.Nat
import Mathlib.Data.List.Basic

namespace SiaFS

abbrev Bytes := List UInt8

/-- The bytes of a C string, without its terminating NUL. -/
abbrev CStr := List UInt8

/-- A string literal of the source. -/
def lit (s : String) : CStr := s.toList.map fun c => c.toNat.toUInt8

/-- What `%lu` and `%ld` print for a nonnegative number. -/
def decimal (n : Nat) : CStr := (Nat.toDigits 10 n).map fun c => c.toNat.toUInt8

def slash : UInt8 := 47

def quote : UInt8 := 34

/-- `path[strlen(path) - 1] == '/'` for a nonempty path. -/
def endsWithSlash (path : CStr) : Bool := path.getLast? == some slash

/-- The slash-terminated copy that the directory operations make of a path. -/
def withSlash (path : CStr) : CStr :=
  if endsWithSlash path then path else path ++ [slash]

theorem endsWithSlash_withSlash (path : CStr) : endsWithSlash (withSlash path) = true := by
  rw [withSlash]
  split
  · assumption
  · simp [endsWithSlash]

/-- An integer stored in an unsigned 64-bit variable. -/
def u64 (n : Int) : Nat := (n % 2 ^ 64).toNat

theorem u64_of_lt {n : Nat} (h : n < 2 ^ 64) : u64 n = n := by
  unfold u64
  omega

/-- An unsigned 32-bit value. -/
def u32 (x : Int) : Nat := (x % 2 ^ 32).toNat

/-- An unsigned 64-bit value read as a signed one. -/
def s64 (n : Nat) : Int := if n < 2 ^ 63 then n else n - 2 ^ 64

/-! ## `siafs.h` and `sia_common.h` -/

/-- The libfuse the program is built against, below version 30 or not. -/
inductive FuseVersion
  | fuse2
  | fuse3
  deriving DecidableEq, Repr

def SIAFS_SMALL_FILE_SIZE_BYTES : FuseVersion → Nat
  | .fuse2 => 4096
  | .fuse3 => 131072

def SAIFS_WRITES_PER_MULTIPART : Nat := 1024

def SIA_MAX_PARTS : Nat := 10000

def SIA_METACACHE_TTL : Nat := 600

theorem small_file_size_pos (v : FuseVersion) : 0 < SIAFS_SMALL_FILE_SIZE_BYTES v := by
  cases v <;> decide

/-! ## `errno.h` -/

def ENOENT : Int := 2

def EIO : Int := 5

def ENOMEM : Int := 12

def EISDIR : Int := 21

end SiaFS
