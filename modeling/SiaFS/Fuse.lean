/-
The FUSE operations, `siafs.c`.

`siafs_write` has two bodies.  The build with `SIA_HUGE_FILES` collects up to
1024 writes in a temporary file for each part; the build without it sends one
part for each write.
-/
import SiaFS.Bus.Multiparts
import SiaFS.Worker.Objects

namespace SiaFS

open Json

variable {σ : Type} (e : Env σ)

/-! ## Metadata -/

structure Stat where
  st_uid : Nat
  st_gid : Nat
  st_atime : Nat
  st_ino : Nat
  st_mode : Nat
  st_nlink : Nat
  st_size : Int
  st_mtime : Int
  deriving DecidableEq, Repr

def S_IFDIR : Nat := 0o040000

def S_IFREG : Nat := 0o100000

/-- The `struct stat` before the kind of file is known. -/
def blankStat (w : World σ) : Stat :=
  { st_uid := e.host.uid, st_gid := e.host.gid, st_atime := w.now, st_ino := 0,
    st_mode := 0, st_nlink := 0, st_size := 0, st_mtime := 0 }

def siafs_getattr (path : CStr) : Sia σ (Except Int Stat) := do
  let w ← Exec.get
  if path = [slash] then
    pure (.ok { blankStat e w with
      st_ino := 1, st_mode := S_IFDIR ||| 0o755, st_nlink := 2, st_mtime := w.now })
  else if ← sia_bus_objects_is_file e path then
    let size ← sia_bus_object_size e path
    let mtime ← sia_bus_objects_unixtime e path
    pure (.ok { blankStat e w with
      st_mode := S_IFREG ||| 0o644, st_nlink := 1, st_size := s64 size, st_mtime := mtime })
  else if ← sia_bus_objects_is_dir e path then
    let mtime ← sia_bus_objects_unixtime e path
    pure (.ok { blankStat e w with
      st_mode := S_IFDIR ||| 0o755, st_nlink := 2, st_mtime := mtime })
  else pure (.error ENOENT)

/-- `strrchr`: the string from the last occurrence of `c` on. -/
def strrchr (s : CStr) (c : UInt8) : Option CStr :=
  if c ∈ s then some (c :: (s.reverse.takeWhile (· != c)).reverse) else none

/-- The name passed to the filler for one entry, `fn + 1`.  Of the name `/` two NULs are
left, of which the second is passed. -/
def entryName : CStr → Except Fault CStr
  | [] => .error .outOfBounds
  | b :: bs =>
    let name := if endsWithSlash (b :: bs) then (b :: bs).dropLast else b :: bs
    match (strrchr name slash).getD name with
    | [] => .ok []
    | _ :: fn => .ok fn

/-- The children of the `entries` member of a reply. -/
def listedEntries (payload : Option Body) : List Json :=
  (((cJSON_Parse payload).bind (cJSON_GetObjectItemCaseSensitive · (lit "entries"))).map
    children).getD []

/-- The names passed to the filler for the entries, those without a string for a
name left out. -/
def fillEntries : List Json → Except Fault (List CStr)
  | [] => .ok []
  | object :: rest =>
    match (cJSON_GetObjectItemCaseSensitive object (lit "name")).bind valuestring with
    | some name => do
      let fn ← entryName name
      let names ← fillEntries rest
      pure (fn :: names)
    | none => fillEntries rest

/-- `siafs_readdir`: the names passed to the filler. -/
def siafs_readdir (path : CStr) : Sia σ (List CStr) := do
  let json_payload ← sia_bus_objects_json e (withSlash path)
  let names ← Exec.lift (fillEntries (listedEntries json_payload))
  pure (lit "." :: lit ".." :: names)

def siafs_open (path : CStr) : Sia σ Int := do
  if ← sia_bus_objects_exists e path then
    if ← sia_bus_objects_is_dir e path then pure (-EISDIR) else pure 0
  else pure (-ENOENT)

/-- `siafs_read`: the bytes copied to the buffer of `size` bytes. -/
def siafs_read (path : CStr) (size offset : Nat) : Sia σ Bytes := do
  let (payload, payload_size) ← sia_worker_get_object e path size offset
  let bytes ← Exec.lift (readPayload payload payload_size)
  if payload_size ≤ size then pure bytes else Exec.fault .outOfBounds

/-! ## Directories and names -/

/-- Without a slash to add, `path2` is still null when it is passed on. -/
def siafs_mkdir (path : CStr) : Sia σ Int := do
  if endsWithSlash path then Exec.fault .nullPointer
  else
    sia_worker_put_object e (path ++ [slash]) []
    pure 0

def siafs_flush (path : CStr) : Sia σ Int := do
  mc_del (objectsKey e path)
  mc_del (listKey e path)
  pure 0

def siafs_mknod (path : CStr) : Sia σ Int := do
  sia_worker_put_object e path []
  let _status ← siafs_flush e path
  pure 0

def siafs_unlink (path : CStr) : Sia σ Int := do
  let _payload ← sia_bus_del_object e path
  pure 0

def siafs_rmdir (path : CStr) : Sia σ Int := do
  let _payload ← sia_bus_del_object e (withSlash path)
  pure 0

def siafs_rename (source target : CStr) : Sia σ Int := do
  if ← sia_bus_objects_is_dir e source then
    let _payload ← sia_bus_rename_object e (withSlash source) (withSlash target) (lit "multi")
    pure 0
  else
    let _payload ← sia_bus_rename_object e source target (lit "single")
    pure 0

/-! ## Writing -/

/-- The bytes of a part: `SIAFS_SMALL_FILE_SIZE_BYTES * SAIFS_WRITES_PER_MULTIPART`. -/
def Env.partBytes : Nat := e.small * SAIFS_WRITES_PER_MULTIPART

/-- The name of a new staging file: the `k`-th name from `tmpnam` and the slot. -/
def stagingName (k slot : Nat) : CStr := e.host.tmpnam k ++ lit "." ++ decimal slot

/-- Append a new node to `opt.uploads`; the pointer to the node. -/
def linkUpload (upload : SiaUpload) : Sia σ Nat := fun w =>
  (.ok ((append_upload w.uploads upload).length - 1),
    { w with uploads := append_upload w.uploads upload })

/-- The node a write works on, a new one at offset zero, or the error it
returns. -/
def uploadNode (path : CStr) (upload_id : Option CStr) (offset : Nat) :
    Sia σ (Except Int Nat) := do
  if offset = 0 then
    match create_upload path upload_id with
    | none => pure (.error (-ENOMEM))
    | some upload => do
      let node ← linkUpload upload
      pure (.ok node)
  else
    let w ← Exec.get
    match ← Exec.lift (find_upload_by_path w.uploads path) with
    | none => pure (.error (-ENOENT))
    | some node => pure (.ok node)

/-- The staging file of a write: a new name at the start of a part, else the one
recorded in the slot. -/
def stagingFile (node offset : Nat) : Sia σ CStr := do
  let w ← Exec.get
  if h : offset / e.partBytes < SIA_MAX_PARTS then
    if offset % e.partBytes = 0 then
      let tmpfn := stagingName e w.names (offset / e.partBytes)
      Exec.modify fun w =>
        { w with
          uploads := w.uploads.modify node (·.setTmpfn ⟨_, h⟩ tmpfn)
          names := w.names + 1 }
      pure tmpfn
    else
      match (w.uploads[node]?).bind fun u => (u.part ⟨_, h⟩).tmpfn with
      | some tmpfn => pure tmpfn
      | none => Exec.fault .nullPointer
  else Exec.fault .outOfBounds

/-- `fopen` for appending, `fwrite`, `fclose`; whether the file could be
opened. -/
def appendFile (tmpfn : CStr) (buf : Bytes) : Sia σ Bool := do
  let w ← Exec.get
  if e.host.fopen w.appends then
    Exec.modify fun w =>
      { w with
        tmp := Function.update w.tmp tmpfn
          (some ((w.tmp tmpfn).getD [] ++ buf.take (e.host.fwrite w.appends buf.length)))
        appends := w.appends + 1 }
    pure true
  else
    Exec.modify fun w => { w with appends := w.appends + 1 }
    pure false

/-- `last`: 1 in the last block of a part, 2 for a short block after the start
of the file. -/
def lastWrite (size offset : Nat) : Nat :=
  let last :=
    if e.small * (SAIFS_WRITES_PER_MULTIPART - 1) ≤ offset % e.partBytes then 1 else 0
  if 0 < offset ∧ size < e.small then 2 else last

/-- The node an ETag is recorded in, searched again after the push. -/
def etagNode (path : CStr) (upload_id : Option CStr) (offset : Nat) : Sia σ Nat := do
  if offset = 0 then
    match create_upload path upload_id with
    | none => Exec.fault .nullPointer
    | some upload => linkUpload upload
  else
    let w ← Exec.get
    match ← Exec.lift (find_upload_by_path w.uploads path) with
    | none => Exec.fault .nullPointer
    | some node => pure node

def recordEtag (node slot : Nat) (etag : CStr) : Sia σ Unit :=
  if h : slot < SIA_MAX_PARTS then
    Exec.modify fun w => { w with uploads := w.uploads.modify node (·.setEtag ⟨slot, h⟩ etag) }
  else Exec.fault .outOfBounds

/-- Push the staging file as a part and forget it, unless `opt.verbose` keeps it
for debugging. -/
def pushPart (path : CStr) (upload_id : Option CStr) (size offset : Nat) (tmpfn : CStr) :
    Sia σ Int := do
  let w ← Exec.get
  let fsize := ((w.tmp tmpfn).getD []).length
  let slot := offset / e.partBytes
  match ← sia_worker_put_multipart_from_file e path upload_id fsize tmpfn (slot + 1) with
  | some etag => do
    let node ← etagNode path upload_id offset
    recordEtag node slot etag
    if e.verbose then pure size
    else
      Exec.modify fun w => { w with tmp := Function.update w.tmp tmpfn none }
      pure size
  | none => pure (- EIO)

/-- The multipart branch of `siafs_write` with `SIA_HUGE_FILES`. -/
def writeHuge (path : CStr) (buf : Bytes) (offset : Nat) : Sia σ Int := do
  let upload_id ← sia_bus_get_uploadid e path
  match ← uploadNode path upload_id offset with
  | .error status => pure status
  | .ok node => do
    let tmpfn ← stagingFile e node offset
    if ← appendFile e tmpfn buf then
      if 0 < lastWrite e buf.length offset then
        pushPart e path upload_id buf.length offset tmpfn
      else pure buf.length
    else pure (- EIO)

/-- The multipart branch of `siafs_write` without `SIA_HUGE_FILES`. -/
def writePlain (path : CStr) (buf : Bytes) (offset : Nat) : Sia σ Int := do
  let upload_id ← sia_bus_get_uploadid e path
  match ← sia_worker_put_multipart e path upload_id buf (offset / e.small + 1) with
  | none => pure 0
  | some etag => do
    match ← uploadNode path upload_id offset with
    | .error status => pure status
    | .ok node => do
      recordEtag node (offset / e.small) etag
      pure buf.length

def siafs_write (path : CStr) (buf : Bytes) (offset : Nat) : Sia σ Int := do
  if offset = 0 ∧ buf.length < e.small then
    sia_worker_put_object e path buf
    pure buf.length
  else if e.hugeFiles then writeHuge e path buf offset
  else writePlain e path buf offset

/-- The test at the start of `siafs_release`: the path is a file already, or has
no size yet. -/
def releaseCheck (path : CStr) : Sia σ Bool := do
  if ← sia_bus_objects_is_file e path then pure true
  else do
    let size ← sia_bus_object_size e path
    pure (size == 0)

/-- Complete the upload whose node is found for the path, if there is one. -/
def completeUpload (path : CStr) : Sia σ Int := do
  let w ← Exec.get
  match ← Exec.lift (find_upload_by_path w.uploads path) with
  | none => pure 0
  | some node =>
    match w.uploads[node]? with
    | none => pure 0
    | some upload => do
      if e.verbose then
        let _parts ← sia_bus_multipart_listparts_json e path upload.uploadID
      let _etag ← sia_bus_multipart_complete_json e path upload.uploadID
      pure 0

def siafs_release (path : CStr) : Sia σ Int := do
  if ← releaseCheck e path then completeUpload e path else pure 0

/-! ## The operations together -/

inductive Op
  | getattr (path : CStr)
  | readdir (path : CStr)
  | open (path : CStr)
  | read (path : CStr) (size offset : Nat)
  | mkdir (path : CStr)
  | mknod (path : CStr)
  | flush (path : CStr)
  | unlink (path : CStr)
  | rmdir (path : CStr)
  | rename (source target : CStr)
  | write (path : CStr) (buf : Bytes) (offset : Nat)
  | release (path : CStr)

/-- What an operation returns to the kernel. -/
inductive Answer
  | status (code : Int)
  | stat (result : Except Int Stat)
  | names (entries : List CStr)
  | data (bytes : Bytes)

def perform : Op → Sia σ Answer
  | .getattr path => do pure (.stat (← siafs_getattr e path))
  | .readdir path => do pure (.names (← siafs_readdir e path))
  | .open path => do pure (.status (← siafs_open e path))
  | .read path size offset => do pure (.data (← siafs_read e path size offset))
  | .mkdir path => do pure (.status (← siafs_mkdir e path))
  | .mknod path => do pure (.status (← siafs_mknod e path))
  | .flush path => do pure (.status (← siafs_flush e path))
  | .unlink path => do pure (.status (← siafs_unlink e path))
  | .rmdir path => do pure (.status (← siafs_rmdir e path))
  | .rename source target => do pure (.status (← siafs_rename e source target))
  | .write path buf offset => do pure (.status (← siafs_write e path buf offset))
  | .release path => do pure (.status (← siafs_release e path))

end SiaFS
