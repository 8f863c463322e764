/-
The object requests of the worker, `sia_worker_objects.c`.
-/
import SiaFS.Cache.Disk
import SiaFS.Bus.Objects

namespace SiaFS

variable {σ : Type} (e : Env σ)

/-- The header value without the quotes around it. -/
def stripQuotes (value : CStr) : CStr :=
  let value := if value.getLast? = some quote then value.dropLast else value
  if value.head? = some quote then value.tail else value

/-- The code edits `header->value` before it looks at the result of
`curl_easy_header`, which leaves `header` alone when there is no such header.
In an empty value it reads the byte before the first. -/
def headerValue : Option CStr → Except Fault CStr
  | none => .error .uninitialised
  | some [] => .error .outOfBounds
  | some (b :: bs) => .ok (stripQuotes (b :: bs))

/-- The upload ID is copied into the URL. -/
def urlString : Option CStr → Except Fault CStr
  | none => .error .nullPointer
  | some s => .ok s

/-- The number that a text begins with. -/
def leadingNumber (text : CStr) : Nat :=
  (text.takeWhile fun b => 48 ≤ b ∧ b ≤ 57).foldl (fun n b => 10 * n + (b.toNat - 48)) 0

/-- `isspace` in the C locale. -/
def isBlank (b : UInt8) : Bool := b == 32 || (9 ≤ b && b ≤ 13)

def LONG_MAX : Nat := 2 ^ 63 - 1

/-- `strtol` to the base 10: blanks, a sign and a number, cut to the range of `long`. -/
def strtol (value : CStr) : Int :=
  match value.dropWhile isBlank with
  | 45 :: text => max (-leadingNumber text) (-2 ^ 63)
  | 43 :: text => min (leadingNumber text) LONG_MAX
  | text => min (leadingNumber text) LONG_MAX

/-- `sia_worker_put_multipart_from_file`: `NULL` when the file cannot be opened
or the answer is an error status. -/
def sia_worker_put_multipart_from_file (path : CStr) (uploadid : Option CStr) (size : Nat)
    (fn : CStr) (slot : Nat) : Sia σ (Option CStr) := do
  let uploadid ← Exec.lift (urlString uploadid)
  let w ← Exec.get
  match w.tmp fn with
  | none => pure none
  | some contents => do
    let reply ← send e (.worker_put_multipart path uploadid slot (contents.take size))
    if reply.status < 300 then
      let etag ← Exec.lift (headerValue reply.etag)
      pure (some etag)
    else pure none

def sia_worker_put_multipart (path : CStr) (uploadid : Option CStr) (buf : Bytes) (slot : Nat) :
    Sia σ (Option CStr) := do
  let uploadid ← Exec.lift (urlString uploadid)
  let reply ← send e (.worker_put_multipart path uploadid slot buf)
  let etag ← Exec.lift (headerValue reply.etag)
  pure (some etag)

/-- `sia_worker_put_object`, whose reply the program does not look at. -/
def sia_worker_put_object (path : CStr) (buf : Bytes) : Sia σ Unit := do
  let _reply ← send e (.worker_put path buf)
  pure ()

/-- The last byte of the range asked for: the end of the request, or of the
object when that comes first, both as unsigned 64-bit numbers. -/
def rangeEnd (size offset object_size : Nat) : Nat :=
  let offset2 := u64 (offset + size - 1)
  let fsize := u64 (object_size - 1)
  if fsize < offset2 then fsize else offset2

/-- `sia_worker_get_object`: the payload and its size, an unsigned variable. -/
def sia_worker_get_object (path : CStr) (size offset : Nat) : Sia σ (Option Body × Nat) := do
  match ← disk_get (disk_key e path) size offset with
  | some bytes => pure (some { bytes := bytes, document := none }, bytes.length)
  | none => do
    let object_size ← sia_bus_object_size e path
    let reply ← send e (.worker_get path offset (s64 (rangeEnd size offset object_size)))
    if reply.ok ∧ reply.status < 400 then
      let value ← Exec.lift (headerValue reply.contentLength)
      let etag ← sia_bus_object_etag e path
      if etag.isSome then disk_set (disk_key e path) reply.body (u64 (strtol value)) size offset
      pure (reply.body, u64 (strtol value))
    else pure (none, 0)

end SiaFS
