/-
Servers that agree on what they are sent.

A function of the program learns of the server only through its requests.  Over two
servers that agree on the requests an operation may send, the operation does the same.
So an operation all of whose requests arrive as they are runs over the server that is
sent them as it does over the one that is told them.
-/
import SiaFS.Paths.Received
import SiaFS.Requests

namespace SiaFS

open JsonText Percent

variable {σ : Type}

/-- The mount finds what the server does, for this request. -/
def Agrees (e : Env σ) (server : σ → Request → Reply × σ) (r : Request) : Prop :=
  ∀ s, e.server s r = server s r

section Over

variable {e : Env σ} {server : σ → Request → Reply × σ} {path : CStr}

theorem send_over {r : Request} (h : Agrees e server r) : send (e.over server) r = send e r := by
  funext w
  rw [send, send, h w.server]
  rfl

theorem cachedRequest_over {r : Request} (key : CStr) (h : Agrees e server r) :
    cachedRequest (e.over server) key r = cachedRequest e key r := by
  rw [cachedRequest, cachedRequest, send_over h]

/-! ## Looking -/

/-- The servers agree on what is asked about a path. -/
structure AgreesOn (e : Env σ) (server : σ → Request → Reply × σ) (path : CStr) : Prop where
  object : Agrees e server (.objects path)
  list : Agrees e server (.objects_list path)
  entries : Agrees e server (.objects (withSlash path))
  listDir : Agrees e server (.objects_list (withSlash path))

theorem objects_json_over (h : Agrees e server (.objects path)) :
    sia_bus_objects_json (e.over server) path = sia_bus_objects_json e path :=
  cachedRequest_over _ h

theorem list_json_over (h : Agrees e server (.objects_list path)) :
    sia_bus_objects_list_json (e.over server) path = sia_bus_objects_list_json e path :=
  cachedRequest_over _ h

theorem exists_over (h : Agrees e server (.objects_list path)) :
    sia_bus_objects_exists (e.over server) path = sia_bus_objects_exists e path := by
  rw [sia_bus_objects_exists, list_json_over h, sia_bus_objects_exists]

theorem is_file_over (h : Agrees e server (.objects_list path)) :
    sia_bus_objects_is_file (e.over server) path = sia_bus_objects_is_file e path := by
  rw [sia_bus_objects_is_file, list_json_over h, sia_bus_objects_is_file]

theorem is_dir_over (h : Agrees e server (.objects_list (withSlash path))) :
    sia_bus_objects_is_dir (e.over server) path = sia_bus_objects_is_dir e path := by
  rw [sia_bus_objects_is_dir, list_json_over h, sia_bus_objects_is_dir]

theorem size_over (h : Agrees e server (.objects path)) :
    sia_bus_object_size (e.over server) path = sia_bus_object_size e path := by
  rw [sia_bus_object_size, objects_json_over h, sia_bus_object_size]

theorem etag_over (h : Agrees e server (.objects path)) :
    sia_bus_object_etag (e.over server) path = sia_bus_object_etag e path := by
  rw [sia_bus_object_etag, objects_json_over h, sia_bus_object_etag]

theorem AgreesOn.modtime (h : AgreesOn e server path) :
    sia_bus_objects_modtime (e.over server) path = sia_bus_objects_modtime e path := by
  rw [sia_bus_objects_modtime, is_file_over h.list, objects_json_over h.object,
    is_dir_over h.listDir, list_json_over h.listDir, sia_bus_objects_modtime]

theorem AgreesOn.unixtime (h : AgreesOn e server path) :
    sia_bus_objects_unixtime (e.over server) path = sia_bus_objects_unixtime e path := by
  rw [sia_bus_objects_unixtime, h.modtime, sia_bus_objects_unixtime]
  rfl

theorem AgreesOn.getattr (h : AgreesOn e server path) :
    siafs_getattr (e.over server) path = siafs_getattr e path := by
  rw [siafs_getattr, is_file_over h.list, size_over h.object, h.unixtime, is_dir_over h.listDir,
    siafs_getattr]
  rfl

theorem readdir_over (h : Agrees e server (.objects (withSlash path))) :
    siafs_readdir (e.over server) path = siafs_readdir e path := by
  rw [siafs_readdir, objects_json_over h, siafs_readdir]

theorem AgreesOn.open_ (h : AgreesOn e server path) :
    siafs_open (e.over server) path = siafs_open e path := by
  rw [siafs_open, exists_over h.list, is_dir_over h.listDir, siafs_open]

theorem read_over (hobject : Agrees e server (.objects path))
    (hget : ∀ first last, Agrees e server (.worker_get path first last)) (size offset : Nat) :
    siafs_read (e.over server) path size offset = siafs_read e path size offset := by
  have hpart : sia_worker_get_object (e.over server) path size offset =
      sia_worker_get_object e path size offset := by
    unfold sia_worker_get_object
    simp only [size_over hobject, send_over (hget _ _), etag_over hobject]
    rfl
  rw [siafs_read, hpart, siafs_read]

/-! ## Changing -/

theorem put_object_over {body : Bytes} (h : Agrees e server (.worker_put path body)) :
    sia_worker_put_object (e.over server) path body = sia_worker_put_object e path body := by
  rw [sia_worker_put_object, send_over h, sia_worker_put_object]

theorem mkdir_over (h : Agrees e server (.worker_put (path ++ [slash]) [])) :
    siafs_mkdir (e.over server) path = siafs_mkdir e path := by
  rw [siafs_mkdir, put_object_over h, siafs_mkdir]

theorem mknod_over (h : Agrees e server (.worker_put path [])) :
    siafs_mknod (e.over server) path = siafs_mknod e path := by
  rw [siafs_mknod, put_object_over h, siafs_mknod]
  rfl

theorem del_object_over (h : Agrees e server (.objects_delete path)) :
    sia_bus_del_object (e.over server) path = sia_bus_del_object e path := by
  rw [sia_bus_del_object, send_over h, sia_bus_del_object]

theorem rename_over {source target : CStr}
    (hdir : Agrees e server (.objects_list (withSlash source)))
    (hall : Agrees e server
      (.objects_rename (withSlash source) (withSlash target) (lit "multi")))
    (hone : Agrees e server (.objects_rename source target (lit "single"))) :
    siafs_rename (e.over server) source target = siafs_rename e source target := by
  rw [siafs_rename, is_dir_over hdir, sia_bus_rename_object, send_over hall,
    sia_bus_rename_object, send_over hone, siafs_rename]
  rfl

/-! ## Uploading -/

theorem get_uploadid_over (hlist : Agrees e server (.multipart_listuploads path))
    (hcreate : Agrees e server (.multipart_create path zeroKey)) :
    sia_bus_get_uploadid (e.over server) path = sia_bus_get_uploadid e path := by
  rw [sia_bus_get_uploadid, sia_bus_multipart_listuploads_json, send_over hlist,
    sia_bus_multipart_create_json, send_over hcreate, sia_bus_get_uploadid]
  rfl

theorem pushPart_over (hput : ∀ id n body, Agrees e server (.worker_put_multipart path id n body))
    (upload_id : Option CStr) (size offset : Nat) (tmpfn : CStr) :
    pushPart (e.over server) path upload_id size offset tmpfn =
      pushPart e path upload_id size offset tmpfn := by
  have hfile : ∀ size fn slot,
      sia_worker_put_multipart_from_file (e.over server) path upload_id size fn slot =
        sia_worker_put_multipart_from_file e path upload_id size fn slot := by
    intro size fn slot
    unfold sia_worker_put_multipart_from_file
    simp only [send_over (hput _ _ _)]
  unfold pushPart
  simp only [hfile]
  rfl

theorem writeHuge_over (hlist : Agrees e server (.multipart_listuploads path))
    (hcreate : Agrees e server (.multipart_create path zeroKey))
    (hput : ∀ id n body, Agrees e server (.worker_put_multipart path id n body)) (buf : Bytes)
    (offset : Nat) :
    writeHuge (e.over server) path buf offset = writeHuge e path buf offset := by
  unfold writeHuge
  simp only [get_uploadid_over hlist hcreate, pushPart_over hput]
  rfl

theorem writePlain_over (hlist : Agrees e server (.multipart_listuploads path))
    (hcreate : Agrees e server (.multipart_create path zeroKey))
    (hput : ∀ id n body, Agrees e server (.worker_put_multipart path id n body)) (buf : Bytes)
    (offset : Nat) :
    writePlain (e.over server) path buf offset = writePlain e path buf offset := by
  have hpart : ∀ id buf slot, sia_worker_put_multipart (e.over server) path id buf slot =
      sia_worker_put_multipart e path id buf slot := by
    intro id buf slot
    unfold sia_worker_put_multipart
    simp only [send_over (hput _ _ _)]
  unfold writePlain
  simp only [get_uploadid_over hlist hcreate, hpart]
  rfl

theorem completeUpload_over
    (hparts : e.verbose = true → ∀ id, Agrees e server (.multipart_listparts path id))
    (hcomplete : ∀ payload, Agrees e server (.multipart_complete payload)) :
    completeUpload (e.over server) path = completeUpload e path := by
  funext w
  rcases hu : nodeNamed w.uploads path with _ | u
  · rw [completeUpload_none hu, completeUpload_none hu]
  · rw [completeUpload, completeUpload]
    have hjson : ∀ id, sia_bus_multipart_complete_json (e.over server) path id =
        sia_bus_multipart_complete_json e path id := by
      intro id
      unfold sia_bus_multipart_complete_json
      simp only [send_over (hcomplete _)]
      rfl
    have hlist : e.verbose = true → ∀ id,
        sia_bus_multipart_listparts_json (e.over server) path id =
          sia_bus_multipart_listparts_json e path id := by
      intro hv id
      unfold sia_bus_multipart_listparts_json
      simp only [send_over (hparts hv _)]
    cases hv : e.verbose with
    | true =>
      have hv' : (e.over server).verbose = true := hv
      simp only [hjson, hlist hv, hv']
    | false =>
      have hv' : (e.over server).verbose = false := hv
      simp only [hjson, hv']
      rfl

end Over

/-! ## An operation -/

/-- The servers agree on what a write or a release of the path sends. -/
structure AgreesOnUpload (e : Env σ) (server : σ → Request → Reply × σ) (path : CStr) : Prop
    extends AgreesOn e server path where
  put : ∀ body, Agrees e server (.worker_put path body)
  listuploads : Agrees e server (.multipart_listuploads path)
  create : Agrees e server (.multipart_create path zeroKey)
  putPart : ∀ id n body, Agrees e server (.worker_put_multipart path id n body)
  listparts : e.verbose = true → ∀ id, Agrees e server (.multipart_listparts path id)
  complete : ∀ payload, Agrees e server (.multipart_complete payload)

section Upload

variable {e : Env σ} {server : σ → Request → Reply × σ} {path : CStr}

theorem AgreesOnUpload.release (h : AgreesOnUpload e server path) :
    siafs_release (e.over server) path = siafs_release e path := by
  rw [siafs_release, releaseCheck, is_file_over h.list, size_over h.object,
    completeUpload_over h.listparts h.complete, siafs_release, releaseCheck]

end Upload

/-! ## Requests that arrive as they are -/

section Received

variable {e : Env σ} {server : σ → Request → Reply × σ} {path : CStr}
  (he : e.server = receiving e.bucket server)

include he

theorem agrees_received {r : Request} (h : r.received e.bucket = some r) : Agrees e server r := by
  intro s
  rw [he]
  exact receiving_read h s

theorem agreesOn_clean (hbucket : Clean e.bucket) (h : Clean path) : AgreesOn e server path where
  object := agrees_received he rfl
  list := agrees_received he (received_list hbucket h)
  entries := agrees_received he rfl
  listDir := agrees_received he (received_list hbucket (clean_withSlash h))

theorem agreesOnUpload_clean (hbucket : Clean e.bucket) (h : Clean path)
    (hverbose : e.verbose = false) : AgreesOnUpload e server path where
  toAgreesOn := agreesOn_clean he hbucket h
  put _ := agrees_received he rfl
  listuploads := agrees_received he (received_listuploads hbucket h)
  create := agrees_received he (received_create hbucket h clean_zeroKey)
  putPart _ _ _ := agrees_received he rfl
  listparts hv := absurd (hverbose ▸ hv) Bool.false_ne_true
  complete _ := agrees_received he rfl

theorem rename_clean (hbucket : Clean e.bucket) {source target : CStr} (hsource : Clean source)
    (htarget : Clean target) :
    siafs_rename (e.over server) source target = siafs_rename e source target :=
  rename_over (agrees_received he (received_list hbucket (clean_withSlash hsource)))
    (agrees_received he (received_rename hbucket (clean_withSlash hsource)
      (clean_withSlash htarget) clean_multi))
    (agrees_received he (received_rename hbucket hsource htarget clean_single))

end Received

/-! ## Runs -/

/-- Every name in the requests of the operation arrives as it is. -/
def Op.Legible (e : Env σ) : Op → Prop
  | .getattr path | .readdir path | .open path | .write path _ _ => Clean path
  | .release path => Clean path ∧ e.verbose = false
  | .unlink path | .rmdir path => Plain path
  | .rename source target => Clean source ∧ Clean target
  | .read _ _ _ | .mkdir _ | .mknod _ | .flush _ => True

/-- The writes of an upload and its release. -/
theorem legible_upload {e : Env σ} {path : CStr} (hpath : Clean path) (hverbose : e.verbose = false)
    {ops : List Op} (h : ∀ op ∈ ops, ∃ buf offset, op = .write path buf offset) :
    ∀ op ∈ ops ++ [.release path], op.Legible e := by
  intro op hop
  rcases List.mem_append.mp hop with hop | hop
  · obtain ⟨buf, offset, rfl⟩ := h op hop
    exact hpath
  · rw [List.mem_singleton.mp hop]
    exact ⟨hpath, hverbose⟩

section Runs

variable {e : Env σ} {server : σ → Request → Reply × σ}
  (he : e.server = receiving e.bucket server) (hbucket : Clean e.bucket)

include he hbucket

theorem write_clean {path : CStr} (h : Clean path) (buf : Bytes) (offset : Nat) :
    siafs_write (e.over server) path buf offset = siafs_write e path buf offset := by
  rw [siafs_write, siafs_write, put_object_over (agrees_received he rfl),
    writeHuge_over (agrees_received he (received_listuploads hbucket h))
      (agrees_received he (received_create hbucket h clean_zeroKey))
      fun _ _ _ => agrees_received he rfl,
    writePlain_over (agrees_received he (received_listuploads hbucket h))
      (agrees_received he (received_create hbucket h clean_zeroKey))
      fun _ _ _ => agrees_received he rfl]
  rfl

theorem perform_over {op : Op} (hop : op.Legible e) :
    perform (e.over server) op = perform e op := by
  cases op with
  | getattr path => rw [perform, (agreesOn_clean he hbucket hop).getattr, perform]
  | readdir path => rw [perform, readdir_over (agrees_received he rfl), perform]
  | «open» path => rw [perform, (agreesOn_clean he hbucket hop).open_, perform]
  | read path size offset =>
    rw [perform, read_over (agrees_received he rfl) fun _ _ => agrees_received he rfl, perform]
  | mkdir path => rw [perform, mkdir_over (agrees_received he rfl), perform]
  | mknod path => rw [perform, mknod_over (agrees_received he rfl), perform]
  | flush path => rfl
  | unlink path =>
    rw [perform, siafs_unlink, del_object_over (agrees_received he (received_delete hop)), perform,
      siafs_unlink]
  | rmdir path =>
    rw [perform, siafs_rmdir,
      del_object_over (agrees_received he (received_delete (plain_withSlash hop))), perform,
      siafs_rmdir]
  | rename source target => rw [perform, rename_clean he hbucket hop.1 hop.2, perform]
  | write path buf offset => rw [perform, write_clean he hbucket hop, perform]
  | release path =>
    rw [perform, (agreesOnUpload_clean he hbucket hop.1 hop.2).release, perform]

theorem runAll_over {ops : List Op} (hops : ∀ op ∈ ops, op.Legible e) :
    Exec.runAll (perform (e.over server)) ops = Exec.runAll (perform e) ops := by
  induction ops with
  | nil => rfl
  | cons op ops ih =>
    rw [Exec.runAll, Exec.runAll, perform_over he hbucket (hops op List.mem_cons_self),
      ih fun op hop => hops op (List.mem_cons_of_mem _ hop)]

end Runs

end SiaFS
