/-
The multipart requests of the bus, `sia_bus_multiparts.c`.
-/
import SiaFS.World

namespace SiaFS

open Json

variable {σ : Type} (e : Env σ)

def sia_bus_multipart_listuploads_json (path : CStr) : Sia σ (Option Body) := do
  let reply ← send e (.multipart_listuploads path)
  pure reply.body

def sia_bus_multipart_create_json (path key : CStr) : Sia σ (Option Body) := do
  let reply ← send e (.multipart_create path key)
  pure reply.body

def sia_bus_multipart_listparts_json (path uploadid : CStr) : Sia σ (Option Body) := do
  let reply ← send e (.multipart_listparts path uploadid)
  pure reply.body

/-- One turn of the loop over the pending uploads: the last entry for the path
is the one whose ID stays in `answer`. -/
def matchUpload (path : CStr) (answer : Option CStr) (upload : Json) : Option CStr :=
  if cJSON_IsObject upload then
    match (cJSON_GetObjectItemCaseSensitive upload (lit "uploadID")).bind valuestring,
        (cJSON_GetObjectItemCaseSensitive upload (lit "path")).bind valuestring with
    | some juploadID, some jpath => if path = jpath then some juploadID else answer
    | _, _ => answer
  else answer

/-- The upload ID recovered from a listing of the pending uploads. -/
def recoveredUploadID (path : CStr) (monitor_json : Json) : Option CStr :=
  match cJSON_GetObjectItemCaseSensitive monitor_json (lit "uploads") with
  | some (.arr uploads) => uploads.foldl (matchUpload path) none
  | _ => none

/-- The upload ID in the answer to a create request. -/
def newUploadID (monitor_json : Json) : Option CStr :=
  (cJSON_GetObjectItemCaseSensitive monitor_json (lit "uploadID")).bind valuestring

/-- The key of every upload: 64 zeros. -/
def zeroKey : CStr := List.replicate 64 48

/-- `sia_bus_get_uploadid`: the ID of the upload pending for the path, or of a
new one when the listing shows none. -/
def sia_bus_get_uploadid (path : CStr) : Sia σ (Option CStr) := do
  let listing ← sia_bus_multipart_listuploads_json e path
  match (cJSON_Parse listing).bind (recoveredUploadID path) with
  | some answer => pure (some answer)
  | none => do
    let created ← sia_bus_multipart_create_json e path zeroKey
    pure ((cJSON_Parse created).bind newUploadID)

/-- The parts with an ETag, in the order of their slots. -/
def recordedParts (u : SiaUpload) : List (Nat × CStr) :=
  (List.finRange SIA_MAX_PARTS).filterMap fun i =>
    (u.part i).etag.map fun etag => (i.val + 1, etag)

def partJson (part : Nat × CStr) : Json :=
  .obj [(lit "partNumber", .num part.1), (lit "eTag", .str part.2)]

def sia_bus_multipart_complete_create_json_payload (uploads : List SiaUpload)
    (path uploadid : CStr) : Except Fault Json := do
  let upl ← find_upload_by_path uploads path
  pure (.obj
    [(lit "bucket", .str e.bucket),
      (lit "path", .str path),
      (lit "uploadID", .str uploadid),
      (lit "Parts", .arr
        (((upl.bind fun i => uploads[i]?).map recordedParts).getD [] |>.map partJson))])

def sia_bus_multipart_complete_json (path uploadid : CStr) : Sia σ (Option Body) := do
  let w ← Exec.get
  let post_data ←
    Exec.lift (sia_bus_multipart_complete_create_json_payload e w.uploads path uploadid)
  let reply ← send e (.multipart_complete post_data)
  pure reply.body

end SiaFS
