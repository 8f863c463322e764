/-
The blocks in which the program builds its strings.

A function that allocates a block and builds a string in it is here a function from the
strings it is given to its blocks, each with the size asked for and with the pieces that
are copied into it.  Most sizes ask for more than is needed, several of them because they
multiply a length by the size of a pointer.
-/
import SiaFS.Lib.Block
import SiaFS.Common.Base64
import SiaFS.Paths.Urls
import SiaFS.Bus.PostBodies

namespace SiaFS
namespace Allocations

open Percent

/-- A block of `size` bytes and the pieces copied into it, one behind the other. -/
structure Buffer where
  size : Nat
  pieces : List CStr
  copied : pieces ≠ [] := by exact List.cons_ne_nil _ _

def Buffer.text (b : Buffer) : CStr := b.pieces.flatten

/-- No copy leaves the block.  What the block holds at first makes no difference. -/
def Buffer.Fits (b : Buffer) : Prop :=
  (Memory.build 0 (Memory.malloc b.size) b.pieces).isSome

/-! ## The sizes -/

/-- `sizeof` of a pointer. -/
def pointerSize : Nat := 8

/-- `strlen(s) + 1` -/
def copyOf (s : CStr) : Buffer where
  size := s.length + 1
  pieces := [s]

/-- `sizeof(s) * strlen(s) + 1` -/
def wideCopyOf (s : CStr) : Buffer where
  size := pointerSize * s.length + 1
  pieces := [s]

/-- `strlen(path) + extra` for the path and a slash. -/
def slashCopy (extra : Nat) (path : CStr) : Buffer where
  size := path.length + extra
  pieces := [path, [slash]]

/-- The copy of a path with a slash at its end. -/
def path2Of (path : CStr) : Buffer :=
  if endsWithSlash path then copyOf path else slashCopy 2 path

/-- `sizeof(url) * (strlen(url) + extra)` for a URL without parameters. -/
def endpointUrl (extra : Nat) (unauthenticated_url endpoint : CStr) : Buffer where
  size := pointerSize * (unauthenticated_url.length + extra)
  pieces := [unauthenticated_url, endpoint]

/-- `sizeof(url) * strlen(url) + sizeof(path2) * strlen(path2) + sizeof(bucket) *
strlen(bucket) + extra` for the URL of an object. -/
def objectUrl (extra : Nat) (unauthenticated_url bucket endpoint path2 : CStr) : Buffer where
  size := pointerSize * unauthenticated_url.length + pointerSize * path2.length +
    pointerSize * bucket.length + extra
  pieces := [unauthenticated_url, endpoint, path2, lit "?bucket=", bucket]

def multipartUrl (unauthenticated_url bucket path2 uploadid : CStr) (slot : Nat) : Buffer where
  size := pointerSize * unauthenticated_url.length + 21 + pointerSize * path2.length + 8 +
    pointerSize * bucket.length + 10 + pointerSize * uploadid.length + 12 + 1
  pieces := [unauthenticated_url, lit "api/worker/multipart", path2, lit "?bucket=", bucket,
    lit "&uploadid=", uploadid, lit "&partnumber=", decimal slot]

/-- `strlen(format)` and the lengths of the arguments, and 1. -/
def postData (format : CStr) (args : List CStr) : Buffer where
  size := format.length + (args.map List.length).sum + 1
  pieces := [sprintf format args]

/-- `%02x` -/
def hex2 (b : UInt8) : CStr :=
  [b / 16, b % 16].map fun digit => if digit < 10 then 48 + digit else 87 + digit

/-- `calloc(33, sizeof(char))` for a digest, a byte at a time. -/
def hashText (hash : Vector UInt8 16) : Buffer where
  size := 33
  pieces := hash.toList.map hex2
  copied := by
    intro h
    have hlength := congrArg List.length h
    rw [List.length_map, Vector.length_toList] at hlength
    cases hlength

/-- `%ld` -/
def printLong (n : Int) : CStr :=
  if s64 (u64 n) < 0 then 45 :: decimal (s64 (u64 n)).natAbs else decimal (s64 (u64 n)).natAbs

/-! ## Where the program allocates -/

section Requests

variable (unauthenticated_url bucket path uploadid : CStr)

def sia_bus_objects_json : List Buffer :=
  [wideCopyOf (escape path),
    objectUrl (16 + 8 + 1) unauthenticated_url bucket (lit "api/bus/objects") (escape path)]

def sia_bus_objects_list_json : List Buffer :=
  [endpointUrl (21 + 1) unauthenticated_url (lit "api/bus/objects/list"),
    postData (lit "\x7b\n \"bucket\": \"%s\",\n \"limit\": -1,\n \"prefix\": \"%s\",\n \"marker\": \"\"\n\x7d")
      [bucket, path]]

/-- The first factor stands before the whole sum. -/
def sia_bus_del_object : List Buffer :=
  [{ size := pointerSize * (unauthenticated_url.length + 15 + pointerSize * path.length + 8 +
      pointerSize * bucket.length + 1)
     pieces := [unauthenticated_url, lit "api/bus/objects", path, lit "?bucket=", bucket] }]

def sia_bus_rename_object (source target mode : CStr) : List Buffer :=
  [endpointUrl (22 + 1) unauthenticated_url (lit "api/bus/objects/rename"),
    postData (lit "\x7b\n    \"bucket\": \"%s\",\n    \"from\": \"%s\",\n    \"to\": \"%s\",\n    \"mode\": \"%s\",\n    \"force\": false\x7d")
      [bucket, source, target, mode]]

def sia_bus_multipart_abort_json : List Buffer :=
  [endpointUrl (24 + 1) unauthenticated_url (lit "api/bus/multipart/abort"),
    postData (lit "\x7b\n    \"bucket\": \"%s\",\n    \"path\": \"%s\",\n    \"uploadID\": \"%s\"\n\x7d")
      [bucket, path, uploadid]]

def sia_bus_multipart_complete_json : List Buffer :=
  [endpointUrl (26 + 1) unauthenticated_url (lit "api/bus/multipart/complete")]

def sia_bus_multipart_create_json (key : CStr) : List Buffer :=
  [endpointUrl (24 + 1) unauthenticated_url (lit "api/bus/multipart/create"),
    postData (lit "\x7b\n    \"bucket\": \"%s\",\n    \"key\": \"key:%s\",\n    \"path\": \"%s\", \"generateKey\": false\n\x7d")
      [bucket, key, path]]

def sia_bus_multipart_listparts_json : List Buffer :=
  [endpointUrl (26 + 1) unauthenticated_url (lit "api/bus/multipart/listpart"),
    postData (lit "\x7b\n  \"bucket\": \"%s\",\n  \"path\": \"%s\",\n  \"uploadID\": \"%s\",\n  \"partNumberMarker\": 0,\n  \"limit\": -1\n\x7d")
      [bucket, path, uploadid]]

def sia_bus_multipart_listuploads_json : List Buffer :=
  [endpointUrl (29 + 1) unauthenticated_url (lit "api/bus/multipart/listuploads"),
    postData (lit "\x7b\n  \"bucket\": \"%s\",\n  \"prefix\": \"%s\",\n  \"pathMarker\": \"\",\n  \"uploadIDMarker\": \"\",\n  \"limit\": -1\n\x7d")
      [bucket, path]]

def sia_bus_consensus_state_json : List Buffer :=
  [{ size := unauthenticated_url.length + 24
     pieces := [unauthenticated_url, lit "api/bus/consensus/state"] }]

def sia_worker_head_object : List Buffer :=
  [wideCopyOf (escape path),
    objectUrl (18 + 8 + 1) unauthenticated_url bucket (lit "api/worker/objects") (escape path)]

def sia_worker_get_object : List Buffer :=
  [wideCopyOf (escape path),
    objectUrl (18 + 8 + 1) unauthenticated_url bucket (lit "api/worker/objects") (escape path)]

/-- `etag` is the value of the header. -/
def sia_worker_put_multipart_from_file (slot : Nat) (etag : CStr) : List Buffer :=
  [wideCopyOf (escape path),
    multipartUrl unauthenticated_url bucket (escape path) uploadid slot, copyOf etag]

def sia_worker_put_multipart (slot : Nat) (etag : CStr) : List Buffer :=
  [wideCopyOf (escape path),
    multipartUrl unauthenticated_url bucket (escape path) uploadid slot, copyOf etag]

/-- Neither the endpoint nor the parameter is counted. -/
def sia_worker_put_object : List Buffer :=
  [wideCopyOf (escape path),
    objectUrl (7 + 1) unauthenticated_url bucket (lit "api/worker/objects") (escape path)]

end Requests

/-! What is kept of a reply. -/

def sia_bus_objects_is_dir (path : CStr) : List Buffer := [path2Of path]

def sia_bus_object_etag (etag : CStr) : List Buffer := [copyOf etag]

/-- A directory is listed, and every match in the list is copied. -/
def sia_bus_objects_modtime (isDir : Bool) (path : CStr) (modtimes : List CStr) : List Buffer :=
  (if isDir then [path2Of path] else []) ++ modtimes.map wideCopyOf

/-- Every upload of the path is copied, or the new one. -/
def sia_bus_get_uploadid (uploadIDs : List CStr) : List Buffer := uploadIDs.map wideCopyOf

/-- `printed` is what `cJSON_Print` returns. -/
def sia_bus_multipart_complete_create_json_payload (printed : CStr) : List Buffer :=
  [wideCopyOf printed]

def sia_bus_consensus_state_lastblocktime (lastblocktime : CStr) : List Buffer :=
  [wideCopyOf lastblocktime]

def build_meta_node_from_json (name : CStr) : List Buffer := [wideCopyOf name]

def create_upload (path upload_id : CStr) : List Buffer := [copyOf path, copyOf upload_id]

/-- The NUL is not counted. -/
def sia_set_to_cache (src payload : CStr) : List Buffer :=
  [{ size := src.length, pieces := [src] }, { size := payload.length, pieces := [payload] }]

def base64_encode (src : Bytes) : List Buffer :=
  (SiaFS.base64_encode src).toList.map fun text =>
    { size := encodedSize src.length, pieces := [text] }

/-! The operations of the file system. -/

/-- One byte is asked for beyond the path, where the slash and the NUL are two. -/
def siafs_readdir (path : CStr) : List Buffer :=
  if endsWithSlash path then [] else [slashCopy 1 path]

def siafs_mkdir (path : CStr) : List Buffer :=
  if endsWithSlash path then [] else [slashCopy 1 path]

def siafs_write (path upload_id tmpfn : CStr) : List Buffer :=
  [copyOf tmpfn, copyOf path, wideCopyOf upload_id]

def siafs_rmdir (path : CStr) : List Buffer := [path2Of path]

def siafs_rename (isDir : Bool) (source target : CStr) : List Buffer :=
  if isDir then
    (if endsWithSlash source then [] else [slashCopy 2 source]) ++
      (if endsWithSlash target then [] else [slashCopy 2 target]) ++
      [{ size := 6, pieces := [lit "multi"] }]
  else [{ size := 7, pieces := [lit "single"] }]

def siafs_init (uid : Nat) (homedir : CStr) : List Buffer :=
  if 0 < uid then
    [{ size := homedir.length + 15, pieces := [homedir, lit "/.cache/siafs/"] }]
  else [{ size := 18, pieces := [lit "/var/cache/siafs/"] }]

/-- `snprintf` into `MAX_PATH` bytes, and a copy with the length and the size of its
elements as factors. -/
def get_homedir (HOME : CStr) : List Buffer :=
  let homedir := HOME.take (128 - 1)
  [{ size := homedir.length * (1 + 1), pieces := [homedir] }]

/-! The caches. -/

def PATH_MAX : Nat := 4096

/-- A string that is no longer than a path. -/
abbrev PathStr := { s : CStr // s.length ≤ PATH_MAX }

def mc_key (endpoint path : PathStr) (extra : Option PathStr) (hash : Vector UInt8 16) :
    List Buffer :=
  [match extra with
    | some extra =>
      { size := u32 (u32 (endpoint.val.length + path.val.length + 3) + (extra.val.length + 3))
        pieces := [extra.val, lit "::", endpoint.val, lit "::", path.val] }
    | none =>
      { size := u32 (endpoint.val.length + path.val.length + 3)
        pieces := [endpoint.val, lit "::", path.val] },
    hashText hash]

def disk_key (path : PathStr) (hash : Vector UInt8 16) : List Buffer :=
  [{ size := u32 (path.val.length + 1), pieces := [path.val] }, hashText hash]

/-- The directory of a key and the file in it. -/
def disk_set (cache_dir key : CStr) (size offset : Int) : List Buffer :=
  let full_path := cache_dir ++ key
  [{ size := cache_dir.length + key.length + 2, pieces := [cache_dir, key] },
    { size := full_path.length + 64 + 10
      pieces := [full_path ++ lit "/" ++ printLong size ++ lit "." ++ printLong offset ++
        lit ".dat"] }]

def disk_get (cache_dir key : CStr) (size offset : Int) : List Buffer :=
  let full_path := cache_dir ++ key
  [{ size := cache_dir.length + key.length + 2, pieces := [cache_dir, key] },
    { size := full_path.length + 64 + 10
      pieces := [full_path ++ lit "/" ++ printLong size ++ lit "." ++ printLong offset ++
        lit ".dat"] }]

/-! ## The calls -/

/-- A call of a function that builds a string in a block. -/
inductive Call
  | sia_bus_objects_json (unauthenticated_url bucket path : CStr)
  | sia_bus_objects_list_json (unauthenticated_url bucket path : CStr)
  | sia_bus_del_object (unauthenticated_url bucket path : CStr)
  | sia_bus_rename_object (unauthenticated_url bucket source target mode : CStr)
  | sia_bus_multipart_abort_json (unauthenticated_url bucket path uploadid : CStr)
  | sia_bus_multipart_complete_json (unauthenticated_url : CStr)
  | sia_bus_multipart_create_json (unauthenticated_url bucket path key : CStr)
  | sia_bus_multipart_listparts_json (unauthenticated_url bucket path uploadid : CStr)
  | sia_bus_multipart_listuploads_json (unauthenticated_url bucket path : CStr)
  | sia_bus_consensus_state_json (unauthenticated_url : CStr)
  | sia_worker_head_object (unauthenticated_url bucket path : CStr)
  | sia_worker_get_object (unauthenticated_url bucket path : CStr)
  | sia_worker_put_multipart_from_file (unauthenticated_url bucket path uploadid : CStr)
    (slot : Nat) (etag : CStr)
  | sia_worker_put_multipart (unauthenticated_url bucket path uploadid : CStr) (slot : Nat)
    (etag : CStr)
  | sia_worker_put_object (unauthenticated_url bucket path : CStr)
  | sia_bus_objects_is_dir (path : CStr)
  | sia_bus_object_etag (etag : CStr)
  | sia_bus_objects_modtime (isDir : Bool) (path : CStr) (modtimes : List CStr)
  | sia_bus_get_uploadid (uploadIDs : List CStr)
  | sia_bus_multipart_complete_create_json_payload (printed : CStr)
  | sia_bus_consensus_state_lastblocktime (lastblocktime : CStr)
  | build_meta_node_from_json (name : CStr)
  | create_upload (path upload_id : CStr)
  | sia_set_to_cache (src payload : CStr)
  | base64_encode (src : Bytes)
  | siafs_readdir (path : CStr)
  | siafs_mkdir (path : CStr)
  | siafs_write (path upload_id tmpfn : CStr)
  | siafs_rmdir (path : CStr)
  | siafs_rename (isDir : Bool) (source target : CStr)
  | siafs_init (uid : Nat) (homedir : CStr)
  | get_homedir (HOME : CStr)
  | mc_key (endpoint path : PathStr) (extra : Option PathStr) (hash : Vector UInt8 16)
  | disk_key (path : PathStr) (hash : Vector UInt8 16)
  | disk_set (cache_dir key : CStr) (size offset : Int)
  | disk_get (cache_dir key : CStr) (size offset : Int)

def Call.buffers : Call → List Buffer
  | .sia_bus_objects_json url bucket path => Allocations.sia_bus_objects_json url bucket path
  | .sia_bus_objects_list_json url bucket path =>
    Allocations.sia_bus_objects_list_json url bucket path
  | .sia_bus_del_object url bucket path => Allocations.sia_bus_del_object url bucket path
  | .sia_bus_rename_object url bucket source target mode =>
    Allocations.sia_bus_rename_object url bucket source target mode
  | .sia_bus_multipart_abort_json url bucket path uploadid =>
    Allocations.sia_bus_multipart_abort_json url bucket path uploadid
  | .sia_bus_multipart_complete_json url => Allocations.sia_bus_multipart_complete_json url
  | .sia_bus_multipart_create_json url bucket path key =>
    Allocations.sia_bus_multipart_create_json url bucket path key
  | .sia_bus_multipart_listparts_json url bucket path uploadid =>
    Allocations.sia_bus_multipart_listparts_json url bucket path uploadid
  | .sia_bus_multipart_listuploads_json url bucket path =>
    Allocations.sia_bus_multipart_listuploads_json url bucket path
  | .sia_bus_consensus_state_json url => Allocations.sia_bus_consensus_state_json url
  | .sia_worker_head_object url bucket path => Allocations.sia_worker_head_object url bucket path
  | .sia_worker_get_object url bucket path => Allocations.sia_worker_get_object url bucket path
  | .sia_worker_put_multipart_from_file url bucket path uploadid slot etag =>
    Allocations.sia_worker_put_multipart_from_file url bucket path uploadid slot etag
  | .sia_worker_put_multipart url bucket path uploadid slot etag =>
    Allocations.sia_worker_put_multipart url bucket path uploadid slot etag
  | .sia_worker_put_object url bucket path => Allocations.sia_worker_put_object url bucket path
  | .sia_bus_objects_is_dir path => Allocations.sia_bus_objects_is_dir path
  | .sia_bus_object_etag etag => Allocations.sia_bus_object_etag etag
  | .sia_bus_objects_modtime isDir path modtimes =>
    Allocations.sia_bus_objects_modtime isDir path modtimes
  | .sia_bus_get_uploadid uploadIDs => Allocations.sia_bus_get_uploadid uploadIDs
  | .sia_bus_multipart_complete_create_json_payload printed =>
    Allocations.sia_bus_multipart_complete_create_json_payload printed
  | .sia_bus_consensus_state_lastblocktime lastblocktime =>
    Allocations.sia_bus_consensus_state_lastblocktime lastblocktime
  | .build_meta_node_from_json name => Allocations.build_meta_node_from_json name
  | .create_upload path upload_id => Allocations.create_upload path upload_id
  | .sia_set_to_cache src payload => Allocations.sia_set_to_cache src payload
  | .base64_encode src => Allocations.base64_encode src
  | .siafs_readdir path => Allocations.siafs_readdir path
  | .siafs_mkdir path => Allocations.siafs_mkdir path
  | .siafs_write path upload_id tmpfn => Allocations.siafs_write path upload_id tmpfn
  | .siafs_rmdir path => Allocations.siafs_rmdir path
  | .siafs_rename isDir source target => Allocations.siafs_rename isDir source target
  | .siafs_init uid homedir => Allocations.siafs_init uid homedir
  | .get_homedir HOME => Allocations.get_homedir HOME
  | .mc_key endpoint path extra hash => Allocations.mc_key endpoint path extra hash
  | .disk_key path hash => Allocations.disk_key path hash
  | .disk_set cache_dir key size offset => Allocations.disk_set cache_dir key size offset
  | .disk_get cache_dir key size offset => Allocations.disk_get cache_dir key size offset

/-- What the strings of a call have to be for its sizes to suffice. -/
def Call.HasRoom : Call → Prop
  | .siafs_readdir path | .siafs_mkdir path => endsWithSlash path
  | .get_homedir HOME => HOME ≠ []
  | .sia_worker_put_object url bucket path =>
    19 ≤ 7 * (url.length + (escape path).length + bucket.length)
  | .sia_worker_put_multipart_from_file url bucket path uploadid slot _
  | .sia_worker_put_multipart url bucket path uploadid slot _ =>
    (decimal slot).length ≤
      1 + 7 * (url.length + (escape path).length + bucket.length + uploadid.length)
  | .sia_set_to_cache _ _ => False
  | _ => True

/-! ## What is built -/

section Texts

variable {σ : Type} (e : Env σ)

/-- The URLs that carry a path are built in these blocks. -/
theorem carries_built {unauthenticated_url bucket path endpoint url : CStr} {request : Request}
    (h : Carries unauthenticated_url bucket request path endpoint url) :
    ∃ c : Call, ∃ b ∈ c.buffers, b.text = url := by
  cases h with
  | objects =>
    refine ⟨.sia_bus_objects_json unauthenticated_url bucket path, _, .tail _ (.head _), ?_⟩
    simp [Buffer.text, objectUrl, sia_bus_objects_json_url, final_url]
  | worker_get path first last =>
    refine ⟨.sia_worker_get_object unauthenticated_url bucket path, _, .tail _ (.head _), ?_⟩
    simp [Buffer.text, objectUrl, sia_worker_get_object_url, final_url]
  | worker_put path body =>
    refine ⟨.sia_worker_put_object unauthenticated_url bucket path, _, .tail _ (.head _), ?_⟩
    simp [Buffer.text, objectUrl, sia_worker_put_object_url, final_url]
  | put_multipart_from_file path uploadid slot body =>
    refine ⟨.sia_worker_put_multipart_from_file unauthenticated_url bucket path uploadid slot [],
      _, .tail _ (.head _), ?_⟩
    simp [Buffer.text, multipartUrl, sia_worker_put_multipart_from_file_url, final_url]
  | put_multipart path uploadid slot body =>
    refine ⟨.sia_worker_put_multipart unauthenticated_url bucket path uploadid slot [],
      _, .tail _ (.head _), ?_⟩
    simp [Buffer.text, multipartUrl, sia_worker_put_multipart_url, final_url]
  | objects_delete =>
    refine ⟨.sia_bus_del_object unauthenticated_url bucket path, _, .head _, ?_⟩
    simp [Buffer.text, sia_bus_del_object_url, final_url]

theorem postData_text (format : CStr) (args : List CStr) :
    (postData format args).text = sprintf format args := List.flatten_singleton

/-- The bodies are printed into these blocks. -/
theorem posts_built {bucket text : CStr} {args : List CStr} {doc : JsonText.Value}
    (h : Posts bucket text args doc) : ∃ c : Call, ∃ b ∈ c.buffers, b.text = text := by
  cases h with
  | objects_list path =>
    exact ⟨.sia_bus_objects_list_json [] bucket path, _, .tail _ (.head _), postData_text _ _⟩
  | rename_object source target mode =>
    exact ⟨.sia_bus_rename_object [] bucket source target mode, _, .tail _ (.head _),
      postData_text _ _⟩
  | multipart_create path key =>
    exact ⟨.sia_bus_multipart_create_json [] bucket path key, _, .tail _ (.head _),
      postData_text _ _⟩
  | multipart_listuploads path =>
    exact ⟨.sia_bus_multipart_listuploads_json [] bucket path, _, .tail _ (.head _),
      postData_text _ _⟩
  | multipart_listparts path uploadid =>
    exact ⟨.sia_bus_multipart_listparts_json [] bucket path uploadid, _, .tail _ (.head _),
      postData_text _ _⟩
  | multipart_abort path uploadid =>
    exact ⟨.sia_bus_multipart_abort_json [] bucket path uploadid, _, .tail _ (.head _),
      postData_text _ _⟩

/-- The key is the sum of the text in the first block. -/
theorem mc_key_built (endpoint path extra : PathStr) (hash : Vector UInt8 16) :
    ∃ b ∈ mc_key endpoint path (some extra) hash,
      SiaFS.mc_key e endpoint.val path.val extra.val = e.host.md5 b.text := by
  refine ⟨_, .head _, ?_⟩
  simp [SiaFS.mc_key, Buffer.text]

theorem printLong_ofNat {n : Nat} (h : n < 2 ^ 63) : printLong n = decimal n := by
  have hvalue : s64 (u64 n) = n := by
    rw [u64_of_lt (by omega), s64, if_pos h]
  rw [printLong, hvalue, if_neg (by omega), Int.natAbs_natCast]

/-- The second block holds the name of the file below the cache directory. -/
theorem disk_name_built {cache_dir key : CStr} {size offset : Nat} (hsize : size < 2 ^ 63)
    (hoffset : offset < 2 ^ 63) :
    ∃ b ∈ disk_set cache_dir key size offset, b.text = cache_dir ++ disk_name key size offset := by
  refine ⟨_, .tail _ (.head _), ?_⟩
  simp [Buffer.text, disk_name, printLong_ofNat hsize, printLong_ofNat hoffset]

end Texts

/-! ## What fits -/

section Fits

variable {s path unauthenticated_url bucket endpoint path2 uploadid : CStr} {extra slot : Nat}

theorem Buffer.fits_iff (b : Buffer) : b.Fits ↔ b.text.length + 1 ≤ b.size := by
  rw [Buffer.Fits, Memory.build_isSome b.copied, Memory.length_malloc, Buffer.text]

theorem copyOf_fits (s : CStr) : (copyOf s).Fits := by
  simp [Buffer.fits_iff, Buffer.text, copyOf]

theorem wideCopyOf_fits (s : CStr) : (wideCopyOf s).Fits := by
  simp only [Buffer.fits_iff, Buffer.text, wideCopyOf, pointerSize, List.flatten_singleton]
  omega

theorem slashCopy_fits_iff : (slashCopy extra path).Fits ↔ 2 ≤ extra := by
  simp only [Buffer.fits_iff, Buffer.text, slashCopy, List.flatten_cons, List.flatten_nil,
    List.length_append, List.length_cons, List.length_nil]
  omega

theorem path2Of_fits (path : CStr) : (path2Of path).Fits := by
  rw [path2Of]
  split
  · exact copyOf_fits path
  · exact slashCopy_fits_iff.mpr (Nat.le_refl 2)

theorem endpointUrl_fits (h : endpoint.length + 1 ≤ pointerSize * extra) :
    (endpointUrl extra unauthenticated_url endpoint).Fits := by
  simp only [Buffer.fits_iff, Buffer.text, endpointUrl, pointerSize, List.flatten_cons,
    List.flatten_nil, List.length_append, List.length_nil] at h ⊢
  omega

theorem length_bucket_parameter : (lit "?bucket=").length = 8 := by simp [lit]

theorem length_bus_objects : (lit "api/bus/objects").length = 15 := by simp [lit]

theorem length_worker_objects : (lit "api/worker/objects").length = 18 := by simp [lit]

/-- Seven of eight bytes for a character are left for what was not counted. -/
theorem objectUrl_fits_iff :
    (objectUrl extra unauthenticated_url bucket endpoint path2).Fits ↔
      endpoint.length + 9 ≤
        7 * (unauthenticated_url.length + path2.length + bucket.length) + extra := by
  simp only [Buffer.fits_iff, Buffer.text, objectUrl, pointerSize, List.flatten_cons,
    List.flatten_nil, List.length_append, List.length_nil, length_bucket_parameter]
  omega

theorem multipartUrl_fits_iff :
    (multipartUrl unauthenticated_url bucket path2 uploadid slot).Fits ↔
      (decimal slot).length ≤
        1 + 7 * (unauthenticated_url.length + path2.length + bucket.length + uploadid.length) := by
  have hendpoint : (lit "api/worker/multipart").length = 20 := by simp [lit]
  have huploadid : (lit "&uploadid=").length = 10 := by simp [lit]
  have hpartnumber : (lit "&partnumber=").length = 12 := by simp [lit]
  simp only [Buffer.fits_iff, Buffer.text, multipartUrl, pointerSize, List.flatten_cons,
    List.flatten_nil, List.length_append, List.length_nil, length_bucket_parameter, hendpoint,
    huploadid, hpartnumber]
  omega

/-- What `sprintf` prints is no longer than the format and the arguments together. -/
theorem length_sprintf_le (format : CStr) (args : List CStr) :
    (sprintf format args).length ≤ format.length + (args.map List.length).sum := by
  fun_induction sprintf format args with
  | case1 format arg args ih =>
    rw [List.length_append, List.map_cons, List.sum_cons]
    simp only [List.length_cons]
    omega
  | case2 b format args _ ih =>
    simp only [List.length_cons]
    omega
  | case3 args =>
    exact Nat.zero_le _

theorem postData_fits (format : CStr) (args : List CStr) : (postData format args).Fits := by
  have hlength := length_sprintf_le format args
  simp only [Buffer.fits_iff, Buffer.text, postData, List.flatten_singleton]
  omega

theorem length_hex2 (b : UInt8) : (hex2 b).length = 2 := rfl

theorem hashText_fits (hash : Vector UInt8 16) : (hashText hash).Fits := by
  have hsum : ∀ l : List UInt8, (l.map hex2).flatten.length = 2 * l.length := fun l => by
    induction l with
    | nil => rfl
    | cons b l ih =>
      rw [List.map_cons, List.flatten_cons, List.length_append, length_hex2, ih, List.length_cons]
      omega
  rw [Buffer.fits_iff, Buffer.text, hashText, hsum, Vector.length_toList]

theorem length_printLong_le (n : Int) : (printLong n).length ≤ 20 := by
  have habs : (s64 (u64 n)).natAbs < 10 ^ 19 := by
    unfold s64 u64
    split <;> omega
  have hdigits := decimal_length (by decide) habs
  rw [printLong]
  split
  · rw [List.length_cons]
    omega
  · omega

/-! ## Every call -/

/-- The URL and the body of a request to a fixed endpoint. -/
theorem endpoint_buffers_fit {format : CStr} {args : List CStr}
    (h : endpoint.length + 1 ≤ pointerSize * extra) :
    ∀ b ∈ [endpointUrl extra unauthenticated_url endpoint, postData format args], b.Fits := by
  simp only [List.forall_mem_cons, List.not_mem_nil, false_imp_iff, implies_true, and_true]
  exact ⟨endpointUrl_fits h, postData_fits format args⟩

/-- The escaped path and the URL it is put into. -/
theorem object_buffers_fit_iff :
    (∀ b ∈ [wideCopyOf path2, objectUrl extra unauthenticated_url bucket endpoint path2],
        b.Fits) ↔
      endpoint.length + 9 ≤
        7 * (unauthenticated_url.length + path2.length + bucket.length) + extra := by
  simp only [List.forall_mem_cons, List.not_mem_nil, false_imp_iff, implies_true, and_true,
    wideCopyOf_fits, true_and]
  exact objectUrl_fits_iff

theorem multipart_buffers_fit_iff {etag : CStr} :
    (∀ b ∈ [wideCopyOf path2, multipartUrl unauthenticated_url bucket path2 uploadid slot,
        copyOf etag], b.Fits) ↔
      (decimal slot).length ≤
        1 + 7 * (unauthenticated_url.length + path2.length + bucket.length + uploadid.length) := by
  simp only [List.forall_mem_cons, List.not_mem_nil, false_imp_iff, implies_true, and_true,
    wideCopyOf_fits, copyOf_fits, true_and]
  exact multipartUrl_fits_iff

theorem wide_copies_fit (texts : List CStr) : ∀ b ∈ texts.map wideCopyOf, b.Fits := by
  intro b hb
  obtain ⟨text, -, rfl⟩ := List.mem_map.mp hb
  exact wideCopyOf_fits text

theorem del_object_fits : ∀ b ∈ sia_bus_del_object unauthenticated_url bucket path, b.Fits := by
  simp only [sia_bus_del_object, List.forall_mem_singleton, Buffer.fits_iff, Buffer.text,
    pointerSize, List.flatten_cons, List.flatten_nil, List.length_append, List.length_nil,
    length_bucket_parameter, length_bus_objects]
  omega

theorem consensus_state_fits :
    ∀ b ∈ sia_bus_consensus_state_json unauthenticated_url, b.Fits := by
  have hendpoint : (lit "api/bus/consensus/state").length = 23 := by simp [lit]
  simp only [sia_bus_consensus_state_json, List.forall_mem_singleton, Buffer.fits_iff,
    Buffer.text, List.flatten_cons, List.flatten_nil, List.length_append, List.length_nil,
    hendpoint]
  omega

theorem modtime_fits (isDir : Bool) (path : CStr) (modtimes : List CStr) :
    ∀ b ∈ sia_bus_objects_modtime isDir path modtimes, b.Fits := by
  rw [sia_bus_objects_modtime, List.forall_mem_append]
  refine ⟨?_, wide_copies_fit modtimes⟩
  cases isDir with
  | false => exact nofun
  | true => exact List.forall_mem_singleton.mpr (path2Of_fits path)

theorem set_to_cache_overflows (src payload : CStr) :
    ¬ ∀ b ∈ sia_set_to_cache src payload, b.Fits := by
  intro h
  have hfits := (List.forall_mem_cons.mp h).1
  simp only [Buffer.fits_iff, Buffer.text, List.flatten_singleton] at hfits
  omega

theorem base64_encode_fits (src : Bytes) : ∀ b ∈ base64_encode src, b.Fits := by
  intro b hb
  obtain ⟨text, htext, rfl⟩ := List.mem_map.mp hb
  simp only [Buffer.fits_iff, Buffer.text, List.flatten_singleton]
  exact base64_encode_length (Option.mem_toList.mp htext)

/-- The copy for `readdir` and `mkdir` is one byte short. -/
theorem short_copy_fits_iff :
    (∀ b ∈ if endsWithSlash path then [] else [slashCopy 1 path], b.Fits) ↔
      endsWithSlash path := by
  cases hslash : endsWithSlash path with
  | true => simp
  | false =>
    rw [if_neg Bool.false_ne_true, List.forall_mem_singleton, slashCopy_fits_iff]
    simp

theorem rename_copy_fits (path : CStr) :
    ∀ b ∈ if endsWithSlash path then [] else [slashCopy 2 path], b.Fits := by
  split
  · exact nofun
  · exact List.forall_mem_singleton.mpr (slashCopy_fits_iff.mpr (Nat.le_refl 2))

theorem rename_fits (isDir : Bool) (source target : CStr) :
    ∀ b ∈ siafs_rename isDir source target, b.Fits := by
  have hmulti : (lit "multi").length = 5 := by simp [lit]
  have hsingle : (lit "single").length = 6 := by simp [lit]
  cases isDir with
  | false =>
    rw [siafs_rename, if_neg Bool.false_ne_true, List.forall_mem_singleton, Buffer.fits_iff,
      Buffer.text, List.flatten_singleton, hsingle]
  | true =>
    rw [siafs_rename, if_pos rfl, List.forall_mem_append, List.forall_mem_append,
      List.forall_mem_singleton, Buffer.fits_iff, Buffer.text, List.flatten_singleton, hmulti]
    exact ⟨⟨rename_copy_fits source, rename_copy_fits target⟩, Nat.le_refl 6⟩

theorem init_fits (uid : Nat) (homedir : CStr) : ∀ b ∈ siafs_init uid homedir, b.Fits := by
  have hcache : (lit "/.cache/siafs/").length = 14 := by simp [lit]
  have hroot : (lit "/var/cache/siafs/").length = 17 := by simp [lit]
  rw [siafs_init]
  split
  · simp only [List.forall_mem_singleton, Buffer.fits_iff, Buffer.text, List.flatten_cons,
      List.flatten_nil, List.length_append, List.length_nil, hcache]
    omega
  · rw [List.forall_mem_singleton, Buffer.fits_iff, Buffer.text, List.flatten_singleton, hroot]

/-- Twice the length is short only of the NUL of an empty string. -/
theorem homedir_fits_iff (HOME : CStr) : (∀ b ∈ get_homedir HOME, b.Fits) ↔ HOME ≠ [] := by
  simp only [get_homedir, List.forall_mem_singleton, Buffer.fits_iff, Buffer.text,
    List.flatten_singleton, List.length_take]
  rw [← List.length_pos_iff]
  omega

theorem u32_of_lt {n : Nat} (h : n < 2 ^ 32) : u32 n = n := by
  unfold u32
  omega

theorem mc_key_fits (endpoint path : PathStr) (extra : Option PathStr) (hash : Vector UInt8 16) :
    ∀ b ∈ mc_key endpoint path extra hash, b.Fits := by
  have hcolons : (lit "::").length = 2 := by simp [lit]
  have hendpoint : endpoint.val.length ≤ 4096 := endpoint.property
  have hpath : path.val.length ≤ 4096 := path.property
  have hkl := u32_of_lt (show endpoint.val.length + path.val.length + 3 < 2 ^ 32 by omega)
  unfold mc_key
  rw [List.forall_mem_cons, List.forall_mem_singleton]
  refine ⟨?_, hashText_fits hash⟩
  cases extra with
  | none =>
    simp only [Buffer.fits_iff, Buffer.text, List.flatten_cons, List.flatten_nil,
      List.length_append, List.length_nil, hcolons]
    push_cast at hkl
    omega
  | some extra =>
    have hextra : extra.val.length ≤ 4096 := extra.property
    simp only [Buffer.fits_iff, Buffer.text, List.flatten_cons, List.flatten_nil,
      List.length_append, List.length_nil, hcolons]
    push_cast at hkl
    rw [hkl]
    unfold u32
    omega

theorem disk_key_fits (path : PathStr) (hash : Vector UInt8 16) :
    ∀ b ∈ disk_key path hash, b.Fits := by
  have hpath : path.val.length ≤ 4096 := path.property
  rw [disk_key, List.forall_mem_cons, List.forall_mem_singleton]
  refine ⟨?_, hashText_fits hash⟩
  simp only [Buffer.fits_iff, Buffer.text, List.flatten_singleton]
  unfold u32
  omega

/-- The directory and the name of a cached file: two numbers of at most 20 characters and 6 other
bytes stand behind the directory. -/
theorem cache_file_fits (cache_dir key : CStr) (size offset : Int) :
    ∀ b ∈ disk_set cache_dir key size offset, b.Fits := by
  have hslash : (lit "/").length = 1 := by simp [lit]
  have hpoint : (lit ".").length = 1 := by simp [lit]
  have hdat : (lit ".dat").length = 4 := by simp [lit]
  have hsize := length_printLong_le size
  have hoffset := length_printLong_le offset
  simp only [disk_set, List.forall_mem_cons, List.not_mem_nil, false_imp_iff, implies_true,
    and_true, Buffer.fits_iff, Buffer.text, List.flatten_cons, List.flatten_nil,
    List.length_append, List.length_nil, hslash, hpoint, hdat]
  omega

end Fits

/-- A call stays inside its blocks exactly when its strings leave it the room: a path that ends
in a slash for `readdir` and `mkdir`, a home directory that is not empty, and for the URL of a
`PUT` some characters whose lengths are counted eightfold. -/
theorem stays_inside_iff (c : Call) : (∀ b ∈ c.buffers, b.Fits) ↔ c.HasRoom := by
  cases c with
  | siafs_readdir path | siafs_mkdir path => exact short_copy_fits_iff
  | get_homedir HOME => exact homedir_fits_iff HOME
  | sia_set_to_cache src payload =>
    exact iff_of_false (set_to_cache_overflows src payload) id
  | sia_worker_put_object url bucket path =>
    refine object_buffers_fit_iff.trans ?_
    rw [length_worker_objects, Call.HasRoom]
    omega
  | sia_worker_put_multipart_from_file | sia_worker_put_multipart =>
    exact multipart_buffers_fit_iff
  | sia_bus_objects_json url bucket path =>
    refine iff_of_true (object_buffers_fit_iff.mpr ?_) trivial
    rw [length_bus_objects]
    omega
  | sia_worker_head_object url bucket path | sia_worker_get_object url bucket path =>
    refine iff_of_true (object_buffers_fit_iff.mpr ?_) trivial
    rw [length_worker_objects]
    omega
  | sia_bus_objects_list_json | sia_bus_rename_object | sia_bus_multipart_abort_json
  | sia_bus_multipart_create_json | sia_bus_multipart_listparts_json
  | sia_bus_multipart_listuploads_json =>
    exact iff_of_true (endpoint_buffers_fit (by simp [lit, pointerSize])) trivial
  | sia_bus_multipart_complete_json url =>
    exact iff_of_true
      (List.forall_mem_singleton.mpr (endpointUrl_fits (by simp [lit, pointerSize]))) trivial
  | sia_bus_del_object => exact iff_of_true del_object_fits trivial
  | sia_bus_consensus_state_json => exact iff_of_true consensus_state_fits trivial
  | sia_bus_objects_is_dir path | siafs_rmdir path =>
    exact iff_of_true (List.forall_mem_singleton.mpr (path2Of_fits path)) trivial
  | sia_bus_object_etag etag =>
    exact iff_of_true (List.forall_mem_singleton.mpr (copyOf_fits etag)) trivial
  | sia_bus_objects_modtime isDir path modtimes =>
    exact iff_of_true (modtime_fits isDir path modtimes) trivial
  | sia_bus_get_uploadid texts => exact iff_of_true (wide_copies_fit texts) trivial
  | sia_bus_multipart_complete_create_json_payload text
  | sia_bus_consensus_state_lastblocktime text | build_meta_node_from_json text =>
    exact iff_of_true (List.forall_mem_singleton.mpr (wideCopyOf_fits text)) trivial
  | create_upload path upload_id =>
    refine iff_of_true ?_ trivial
    exact List.forall_mem_cons.mpr ⟨copyOf_fits path,
      List.forall_mem_singleton.mpr (copyOf_fits upload_id)⟩
  | siafs_write path upload_id tmpfn =>
    refine iff_of_true ?_ trivial
    exact List.forall_mem_cons.mpr ⟨copyOf_fits tmpfn, List.forall_mem_cons.mpr
      ⟨copyOf_fits path, List.forall_mem_singleton.mpr (wideCopyOf_fits upload_id)⟩⟩
  | base64_encode src => exact iff_of_true (base64_encode_fits src) trivial
  | siafs_rename isDir source target =>
    exact iff_of_true (rename_fits isDir source target) trivial
  | siafs_init uid homedir => exact iff_of_true (init_fits uid homedir) trivial
  | mc_key endpoint path extra hash =>
    exact iff_of_true (mc_key_fits endpoint path extra hash) trivial
  | disk_key path hash => exact iff_of_true (disk_key_fits path hash) trivial
  | disk_set cache_dir key size offset | disk_get cache_dir key size offset =>
    exact iff_of_true (cache_file_fits cache_dir key size offset) trivial

/-- The copies of `/a` with a slash are four bytes long with the NUL, and have three.  The copy
of an empty home directory has none. -/
theorem path_without_slash_overflows :
    (¬ ∀ b ∈ siafs_readdir (lit "/a"), b.Fits) ∧ (¬ ∀ b ∈ siafs_mkdir (lit "/a"), b.Fits) ∧
      ¬ ∀ b ∈ get_homedir [], b.Fits := by
  have hcopy : ¬ ∀ b ∈ siafs_readdir (lit "/a"), b.Fits := by
    rw [siafs_readdir, short_copy_fits_iff]
    simp [endsWithSlash, lit, slash]
  exact ⟨hcopy, hcopy, fun h => (homedir_fits_iff []).mp h rfl⟩

end Allocations
end SiaFS
