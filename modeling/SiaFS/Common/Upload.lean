/-
The list of multipart uploads in progress, `opt.uploads` of `sia_common.c`.

A pointer to a node is the node's position in the list; the list a pointer
starts is what `opt.uploads` becomes when the pointer is assigned to it.
-/
import Mathlib.Logic.Function.Basic
import SiaFS.Common.Json

namespace SiaFS

/-- What the program runs into where the C standard leaves it undefined. -/
inductive Fault
  /-- A null pointer is followed. -/
  | nullPointer
  /-- An array or buffer is left. -/
  | outOfBounds
  /-- A variable is read that was never written. -/
  | uninitialised
  deriving DecidableEq, Repr

structure SiaUploadedPart where
  etag : Option CStr
  tmpfn : Option CStr

structure SiaUpload where
  part : Fin SIA_MAX_PARTS → SiaUploadedPart
  name : CStr
  uploadID : CStr

namespace SiaUpload

def setTmpfn (u : SiaUpload) (slot : Fin SIA_MAX_PARTS) (tmpfn : CStr) : SiaUpload :=
  { u with part := Function.update u.part slot { u.part slot with tmpfn := some tmpfn } }

def setEtag (u : SiaUpload) (slot : Fin SIA_MAX_PARTS) (etag : CStr) : SiaUpload :=
  { u with part := Function.update u.part slot { u.part slot with etag := some etag } }

@[simp] theorem setTmpfn_name (u : SiaUpload) (slot : Fin SIA_MAX_PARTS) (t : CStr) :
    (u.setTmpfn slot t).name = u.name := rfl

@[simp] theorem setTmpfn_uploadID (u : SiaUpload) (slot : Fin SIA_MAX_PARTS) (t : CStr) :
    (u.setTmpfn slot t).uploadID = u.uploadID := rfl

@[simp] theorem setEtag_name (u : SiaUpload) (slot : Fin SIA_MAX_PARTS) (t : CStr) :
    (u.setEtag slot t).name = u.name := rfl

@[simp] theorem setEtag_uploadID (u : SiaUpload) (slot : Fin SIA_MAX_PARTS) (t : CStr) :
    (u.setEtag slot t).uploadID = u.uploadID := rfl

end SiaUpload

/-- `create_upload`, which returns `NULL` without an upload ID. -/
def create_upload (path : CStr) : Option CStr → Option SiaUpload
  | some upload_id =>
    some { part := fun _ => { etag := none, tmpfn := none }, name := path, uploadID := upload_id }
  | none => none

/-- `append_upload`: the list that starts at the node `current` stops at, which
is the former last node, or the new one when the list was empty. -/
def append_upload : List SiaUpload → SiaUpload → List SiaUpload
  | [], upload => [upload]
  | [last], upload => [last, upload]
  | _ :: next :: rest, upload => append_upload (next :: rest) upload

/-- `find_upload_by_path`.  The loop leaves a nonempty list without a match with
`current` null, and then reads `current->name`. -/
def find_upload_by_path (uploads : List SiaUpload) (path : CStr) :
    Except Fault (Option Nat) :=
  match uploads with
  | [] => .ok none
  | _ :: _ =>
    match uploads.findIdx? (fun u => u.name == path) with
    | some i => .ok (some i)
    | none => .error .nullPointer

end SiaFS
