/-
The L2 cache, `disk_cache.c`.

One file below the cache directory for each path, request size and offset.  File
operations in the cache directory succeed.
-/
import SiaFS.World

namespace SiaFS

variable {σ : Type} (e : Env σ)

def disk_key (path : CStr) : CStr := e.host.md5 path

/-- `%s/%ld.%ld.dat` -/
def disk_name (key : CStr) (size offset : Nat) : CStr :=
  key ++ lit "/" ++ decimal size ++ lit "." ++ decimal offset ++ lit ".dat"

/-- `len` bytes read from the buffer of a captured payload, which ends in a NUL
that `len` does not count. -/
def readPayload : Option Body → Nat → Except Fault Bytes
  | some body, len =>
    if len ≤ body.bytes.length + 1 then .ok ((body.bytes ++ [0]).take len)
    else .error .outOfBounds
  | none, 0 => .ok []
  | none, _ + 1 => .error .nullPointer

def disk_set (key : CStr) (payload : Option Body) (payload_len size offset : Nat) :
    Sia σ Unit := do
  let w ← Exec.get
  match w.L2 with
  | none => pure ()
  | some files => do
    let bytes ← Exec.lift (readPayload payload payload_len)
    Exec.modify fun w =>
      { w with L2 := some (Function.update files (disk_name key size offset) (some bytes)) }

section Set

variable {w : World σ} {files : CStr → Option Bytes} {payload : Option Body} {len : Nat}

theorem disk_set_off (h : w.L2 = none) (key : CStr) (payload : Option Body)
    (len size offset : Nat) : disk_set key payload len size offset w = (.ok (), w) := by
  rw [disk_set, Exec.get_bind, h]
  rfl

theorem disk_set_unread {x : Fault} (h : w.L2 = some files)
    (hread : readPayload payload len = .error x) (key : CStr) (size offset : Nat) :
    disk_set key payload len size offset w = (.error x, w) := by
  rw [disk_set, Exec.get_bind, h]
  exact Exec.bind_of_error (by rw [Exec.lift_apply, hread])

theorem disk_set_written {bytes : Bytes} (h : w.L2 = some files)
    (hread : readPayload payload len = .ok bytes) (key : CStr) (size offset : Nat) :
    disk_set key payload len size offset w = (.ok (),
      { w with L2 := some (Function.update files (disk_name key size offset) (some bytes)) }) := by
  rw [disk_set, Exec.get_bind, h]
  exact Exec.lift_ok_bind hread _ w

end Set

/-- The bytes `disk_get` reads, at most `size`, or `none` when the payload
pointer is left alone. -/
def disk_get (key : CStr) (size offset : Nat) : Sia σ (Option Bytes) := do
  let w ← Exec.get
  pure ((w.L2.bind fun files => files (disk_name key size offset)).map (List.take size))

end SiaFS
