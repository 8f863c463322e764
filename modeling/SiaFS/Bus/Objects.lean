/-
The object requests of the bus, `sia_bus_objects.c`, in the build without
`SIA_METACACHE`.

`sia_bus_objects_exists`, `sia_bus_objects_is_dir` and `sia_bus_objects_is_file`
make the same scan of a listing and differ in the test of one entry.
-/
import SiaFS.Cache.Memcached

namespace SiaFS

open Json

variable {σ : Type} (e : Env σ)

/-- A metadata request answered from the L1 cache, or by the server and then
cached. -/
def cachedRequest (key : CStr) (request : Request) : Sia σ (Option Body) := do
  let payload ← mc_get key
  match payload with
  | some body => pure (some body)
  | none => do
    let reply ← send e request
    mc_set key reply.body SIA_METACACHE_TTL
    pure reply.body

/-- The key that `sia_bus_objects_json` makes with `__func__`, and `siafs_flush` with the
name. -/
def objectsKey (path : CStr) : CStr :=
  mc_key e (lit "api/bus/objects") path (lit "sia_bus_objects_json")

def listKey (path : CStr) : CStr :=
  mc_key e (lit "api/bus/objects/list") path (lit "sia_bus_objects_list_json")

def sia_bus_objects_json (path : CStr) : Sia σ (Option Body) :=
  cachedRequest e (objectsKey e path) (.objects path)

def sia_bus_objects_list_json (path : CStr) : Sia σ (Option Body) :=
  cachedRequest e (listKey e path) (.objects_list path)

/-! ## Scans of a listing -/

/-- `item->valuestring` passed to a string function. -/
def stringOf (item : Option Json) : Except Fault CStr :=
  match item.bind valuestring with
  | some s => .ok s
  | none => .error .nullPointer

/-- `item->valueint` -/
def intOf (item : Option Json) : Except Fault Int :=
  match item with
  | some j => .ok (valueint j)
  | none => .error .nullPointer

/-- The entries of the `objects` array, none when there is no such array. -/
def listedObjects (payload : Option Body) : List Json :=
  match (cJSON_Parse payload).bind (cJSON_GetObjectItemCaseSensitive · (lit "objects")) with
  | some (.arr objects) => objects
  | _ => []

/-- `answer = 1` as soon as an entry passes the test; every entry is visited. -/
def scanObjects (test : Json → Except Fault Bool) (objects : List Json) : Except Fault Bool :=
  objects.foldlM (fun answer object => do pure (answer || (← test object))) false

/-- The entry is named `path`. -/
def testExists (path : CStr) (object : Json) : Except Fault Bool := do
  let name ← stringOf (cJSON_GetObjectItemCaseSensitive object (lit "name"))
  pure (name == path)

/-- The entry is named `path2` and has size zero. -/
def testDir (path2 : CStr) (object : Json) : Except Fault Bool := do
  let name ← stringOf (cJSON_GetObjectItemCaseSensitive object (lit "name"))
  if name = path2 then
    pure ((← intOf (cJSON_GetObjectItemCaseSensitive object (lit "size"))) == 0)
  else pure false

/-- The entry is named `path` and the name has no trailing slash. -/
def testFile (path : CStr) (object : Json) : Except Fault Bool := do
  let name ← stringOf (cJSON_GetObjectItemCaseSensitive object (lit "name"))
  pure (name == path && !endsWithSlash name)

def sia_bus_objects_exists (path : CStr) : Sia σ Bool := do
  let json_payload ← sia_bus_objects_list_json e path
  Exec.lift (scanObjects (testExists path) (listedObjects json_payload))

def sia_bus_objects_is_dir (path : CStr) : Sia σ Bool := do
  let json_payload ← sia_bus_objects_list_json e (withSlash path)
  Exec.lift (scanObjects (testDir (withSlash path)) (listedObjects json_payload))

def sia_bus_objects_is_file (path : CStr) : Sia σ Bool := do
  let json_payload ← sia_bus_objects_list_json e path
  Exec.lift (scanObjects (testFile path) (listedObjects json_payload))

/-! ## Fields of one object -/

/-- A member of the `object` member of a reply. -/
def objectField (payload : Option Body) (name : CStr) : Option Json :=
  ((cJSON_Parse payload).bind (cJSON_GetObjectItemCaseSensitive · (lit "object"))).bind
    (cJSON_GetObjectItemCaseSensitive · name)

/-- The size in a reply, as an `unsigned long`; zero when there is none. -/
def replySize (payload : Option Body) : Nat :=
  (((objectField payload (lit "size")).bind number?).map u64).getD 0

def replyEtag (payload : Option Body) : Option CStr :=
  (objectField payload (lit "eTag")).bind valuestring

def sia_bus_object_size (path : CStr) : Sia σ Nat := do
  let json_payload ← sia_bus_objects_json e path
  pure (replySize json_payload)

def sia_bus_object_etag (path : CStr) : Sia σ (Option CStr) := do
  let json_payload ← sia_bus_objects_json e path
  pure (replyEtag json_payload)

/-- One turn of the loop that looks for the entry of a directory. -/
def matchDirModtime (path2 : CStr) (answer : Option CStr) (object : Json) :
    Except Fault (Option CStr) := do
  if ← testDir path2 object then
    match (cJSON_GetObjectItemCaseSensitive object (lit "modTime")).bind valuestring with
    | some modtime => pure (some modtime)
    | none => pure answer
  else pure answer

/-- The children of the `objects` member, whatever it is. -/
def objectsChildren (payload : Option Body) : List Json :=
  (((cJSON_Parse payload).bind (cJSON_GetObjectItemCaseSensitive · (lit "objects"))).map
    children).getD []

def sia_bus_objects_modtime (path : CStr) : Sia σ (Option CStr) := do
  if ← sia_bus_objects_is_file e path then
    let json_payload ← sia_bus_objects_json e path
    pure ((objectField json_payload (lit "modTime")).bind valuestring)
  else if ← sia_bus_objects_is_dir e path then
    let json_payload ← sia_bus_objects_list_json e (withSlash path)
    Exec.lift ((objectsChildren json_payload).foldlM (matchDirModtime (withSlash path)) none)
  else pure none

/-- `strcpy` into `char timestamp[32]`. -/
def copyTimestamp : Option CStr → Except Fault CStr
  | none => .error .nullPointer
  | some s => if s.length < 32 then .ok s else .error .outOfBounds

/-- The function asks for the modification time twice and uses the second
answer. -/
def sia_bus_objects_unixtime (path : CStr) : Sia σ Int := do
  let _time_payload ← sia_bus_objects_modtime e path
  let modtime ← sia_bus_objects_modtime e path
  let timestamp ← Exec.lift (copyTimestamp modtime)
  match e.host.strptime timestamp with
  | some tm => pure (e.host.mktime tm)
  | none => pure 0

def sia_bus_del_object (path : CStr) : Sia σ (Option Body) := do
  let reply ← send e (.objects_delete path)
  pure reply.body

def sia_bus_rename_object (source target mode : CStr) : Sia σ (Option Body) := do
  let reply ← send e (.objects_rename source target mode)
  pure reply.body

end SiaFS
