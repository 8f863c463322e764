/-
The program among its surroundings.

`Env` is fixed for a mount: how the program was built, its options, the C
library and the server it talks to.  `World` is what changes while it runs.  The
server is a parameter, an arbitrary function from its state and a request to a
reply and its next state, so every sequence of replies is the behaviour of some
server.  `trace` records the requests sent and the replies received, in order.
-/
import SiaFS.Lib.Exec
import SiaFS.Common.Upload

namespace SiaFS

/-- A request, by endpoint, with the values the code puts into it. -/
inductive Request
  /-- `GET api/bus/objects/path` -/
  | objects (path : CStr)
  /-- `POST api/bus/objects/list`, with the path as the prefix to list -/
  | objects_list (path : CStr)
  /-- `DELETE api/bus/objects/path` -/
  | objects_delete (path : CStr)
  /-- `POST api/bus/objects/rename` -/
  | objects_rename (source target mode : CStr)
  /-- `POST api/bus/multipart/listuploads`, with the path as the prefix -/
  | multipart_listuploads (path : CStr)
  /-- `POST api/bus/multipart/create` -/
  | multipart_create (path key : CStr)
  /-- `POST api/bus/multipart/listpart` -/
  | multipart_listparts (path uploadID : CStr)
  /-- `POST api/bus/multipart/complete` -/
  | multipart_complete (payload : Json)
  /-- `GET api/worker/objects/path` with a `Range` header -/
  | worker_get (path : CStr) (first last : Int)
  /-- `PUT api/worker/objects/path` -/
  | worker_put (path : CStr) (body : Bytes)
  /-- `PUT api/worker/multipart/path` -/
  | worker_put_multipart (path uploadID : CStr) (partNumber : Nat) (body : Bytes)

/-- What a request comes back with.  `ok` is `CURLE_OK`, `status` is zero when
no response arrived, and `body` is what `capture_payload` collected. -/
structure Reply where
  ok : Bool
  status : Nat
  etag : Option CStr
  contentLength : Option CStr
  body : Option Body

/-- Calendar fields, as `strptime` fills them. -/
structure Tm where
  year : Int
  month : Nat
  day : Nat
  hour : Nat
  minute : Nat
  second : Nat

/-- The C library.  Calls whose answer depends on the moment are numbered in the
order they are made. -/
structure Host where
  /-- The name `tmpnam` returns. -/
  tmpnam : Nat → CStr
  /-- Whether `fopen` for appending succeeds. -/
  fopen : Nat → Bool
  /-- How many of the bytes passed to it the `fwrite` after that writes. -/
  fwrite : Nat → Nat → Nat
  md5 : CStr → CStr
  /-- `strptime` with the format `%Y-%m-%dT%H:%M:%S%Z`. -/
  strptime : CStr → Option Tm
  mktime : Tm → Int
  uid : Nat
  gid : Nat

structure Env (σ : Type) where
  fuse : FuseVersion
  /-- `SIA_HUGE_FILES` -/
  hugeFiles : Bool
  verbose : Bool
  bucket : CStr
  host : Host
  server : σ → Request → Reply × σ

/-- The mount, with another server. -/
def Env.over {σ τ : Type} (e : Env σ) (server : τ → Request → Reply × τ) : Env τ where
  fuse := e.fuse
  hugeFiles := e.hugeFiles
  verbose := e.verbose
  bucket := e.bucket
  host := e.host
  server := server

/-- An entry of the memcached server: the payload, a null pointer if it is
empty, and the time from which it is gone. -/
structure L1Entry where
  payload : Option Body
  expire : Nat

structure World (σ : Type) where
  uploads : List SiaUpload
  /-- The temporary files. -/
  tmp : CStr → Option Bytes
  /-- The number of names `tmpnam` has returned. -/
  names : Nat
  /-- The number of times a temporary file was opened for appending. -/
  appends : Nat
  /-- The memcached server, if the program is built with it. -/
  L1 : Option (CStr → Option L1Entry)
  /-- The files of the cache directory, if the program is built with it. -/
  L2 : Option (CStr → Option Bytes)
  /-- `time(NULL)` -/
  now : Nat
  server : σ
  trace : List (Request × Reply)

/-- A function of the program. -/
abbrev Sia (σ α : Type) := Exec (World σ) Fault α

variable {σ : Type}

/-- The block size of the build. -/
def Env.small (e : Env σ) : Nat := SIAFS_SMALL_FILE_SIZE_BYTES e.fuse

theorem Env.small_pos (e : Env σ) : 0 < e.small := small_file_size_pos e.fuse

/-- `curl_easy_perform`. -/
def send (e : Env σ) (request : Request) : Sia σ Reply := fun w =>
  (.ok (e.server w.server request).1,
    { w with
      server := (e.server w.server request).2
      trace := w.trace ++ [(request, (e.server w.server request).1)] })

end SiaFS
