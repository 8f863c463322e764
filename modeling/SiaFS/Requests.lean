/-
The requests of an operation, and the objects they are about.

`Op.Requests` is what an operation may send, whatever the server answers, whatever the
caches hold and wherever it stops: a run sends nothing that none of its operations
stands for.  A server is `Confined` when a request changes no object but those it
names, as it is read.  Then an object that no operation of a run names is at the end of the
run what it was at the start, if the names in the deletes and the renames of the run arrive
as they are.
-/
import SiaFS.Moves
import SiaFS.Paths.Received

namespace SiaFS

open Json JsonText Percent

variable {σ : Type}

/-! ## What is sent -/

/-- From `w` to `w'`, the server was sent requests with `Q` and nothing else. -/
def Sends (e : Env σ) (Q : Request → Prop) (w w' : World σ) : Prop :=
  ∃ rs, (∀ r ∈ rs, Q r) ∧ w'.server = (askAll e rs w.server).1 ∧
    w'.trace = w.trace ++ (askAll e rs w.server).2

section Sends

variable {e : Env σ} {Q Q' : Request → Prop} {w w' : World σ}

instance : Std.Refl (Sends e Q) where
  refl _ := ⟨[], by simp, rfl, (List.append_nil _).symm⟩

instance : IsTrans (World σ) (Sends e Q) where
  trans a b c hab hbc := by
    obtain ⟨rs, hQ, hs, ht⟩ := hab
    obtain ⟨rs', hQ', hs', ht'⟩ := hbc
    refine ⟨rs ++ rs', fun r hr => ?_, ?_, ?_⟩
    · exact (List.mem_append.mp hr).elim (hQ r) (hQ' r)
    · rw [hs', hs, askAll_append]
    · rw [ht', ht, hs, askAll_append, List.append_assoc]

theorem sends_sendAll {rs : List Request} (h : ∀ r ∈ rs, Q r) (w : World σ) :
    Sends e Q w (sendAll e rs w) := ⟨rs, h, rfl, rfl⟩

theorem Sends.mono (h : Sends e Q w w') (hQ : ∀ r, Q r → Q' r) : Sends e Q' w w' := by
  obtain ⟨rs, hr, hs, ht⟩ := h
  exact ⟨rs, fun r hm => hQ r (hr r hm), hs, ht⟩

theorem Asks.sends (h : Asks e Q w w') : Sends e Q w w' := h.asked

/-- What the server keeps under requests with `Q` still holds. -/
theorem Sends.server_keeps {I : σ → Prop} (h : Sends e Q w w')
    (hI : ∀ r, Q r → ∀ s, I s → I (e.server s r).2) (hs : I w.server) : I w'.server := by
  obtain ⟨rs, hr, hw, -⟩ := h
  rw [hw]
  exact askAll_keeps e (fun r hm => hI r (hr r hm)) hs

/-- Every request that `w'` has over `w` has `Q`. -/
theorem Sends.trace_eq (h : Sends e Q w w') :
    ∃ t, w'.trace = w.trace ++ t ∧ ∀ x ∈ t, Q x.1 := by
  obtain ⟨rs, hr, -, ht⟩ := h
  exact ⟨_, ht, fun x hx => hr _ (askAll_requests e rs _ x hx)⟩

/-- A change that the server has no part in. -/
theorem sends_nothing {α : Type} {m : Sia σ α} (hserver : ∀ w, (m w).2.server = w.server)
    (htrace : ∀ w, (m w).2.trace = w.trace) : Exec.Keeps (Sends e Q) m := fun w =>
  ⟨[], by simp, hserver w, by rw [htrace w]; exact (List.append_nil _).symm⟩

theorem sends_modify {g : World σ → World σ} (hserver : ∀ w, (g w).server = w.server)
    (htrace : ∀ w, (g w).trace = w.trace) : Exec.Keeps (Sends e Q) (Exec.modify g : Sia σ Unit) :=
  sends_nothing hserver htrace

theorem sends_send {r : Request} (hr : Q r) : Exec.Keeps (Sends e Q) (send e r) := fun w =>
  sends_sendAll (List.forall_mem_singleton.mpr hr) w

theorem sends_cachedRequest {key : CStr} {r : Request} (hr : Q r) :
    Exec.Keeps (Sends e Q) (cachedRequest e key r) := fun w => (keeps_cachedRequest hr w).sends

end Sends

/-! ## What an operation may send -/

/-- A request of a function that tells what a path is. -/
def Request.LooksUp (path : CStr) (r : Request) : Prop :=
  r ∈ [Request.objects path, .objects_list path, .objects (withSlash path),
    .objects_list (withSlash path)]

/-- The number of the part that a multipart write works on. -/
def Env.partNumber (e : Env σ) (offset : Nat) : Nat :=
  offset / (if e.hugeFiles then e.partBytes else e.small) + 1

/-- A request of a multipart write. -/
def Request.Uploads (e : Env σ) (path : CStr) (offset : Nat) (r : Request) : Prop :=
  r = .multipart_listuploads path ∨ r = .multipart_create path zeroKey ∨
    ∃ id body, r = .worker_put_multipart path id (e.partNumber offset) body

/-- What an operation may send. -/
def Op.Requests (e : Env σ) : Op → Request → Prop
  | .getattr path | .readdir path | .open path => Request.LooksUp path
  | .read path _ _ => fun r => r = .objects path ∨ ∃ first last, r = .worker_get path first last
  | .mkdir path => (· = .worker_put (path ++ [slash]) [])
  | .mknod path => (· = .worker_put path [])
  | .flush _ => fun _ => False
  | .unlink path => (· = .objects_delete path)
  | .rmdir path => (· = .objects_delete (withSlash path))
  | .rename source target => fun r => r = .objects_list (withSlash source) ∨
      r = .objects_rename source target (lit "single") ∨
      r = .objects_rename (withSlash source) (withSlash target) (lit "multi")
  | .write path buf offset => fun r =>
      if offset = 0 ∧ buf.length < e.small then r = .worker_put path buf
      else r.Uploads e path offset
  | .release path => fun r => r.LooksUp path ∨ (∃ id, r = .multipart_listparts path id) ∨
      ∃ u : SiaUpload,
        r = .multipart_complete (completePayload e path u.uploadID (recordedParts u))

section Operations

variable {e : Env σ} {Q : Request → Prop}

theorem lookups_send (path : CStr) : LookupsKeep e (Sends e (Request.LooksUp path)) path :=
  ⟨sends_cachedRequest (by simp [Request.LooksUp]), sends_cachedRequest (by simp [Request.LooksUp]),
    sends_cachedRequest (by simp [Request.LooksUp]),
    sends_cachedRequest (by simp [Request.LooksUp])⟩

theorem read_sends (path : CStr) (size offset : Nat) :
    ReadKeeps e (Sends e (Op.Requests e (.read path size offset))) path size offset :=
  ⟨sends_cachedRequest (Or.inl rfl), fun first last => sends_send (Or.inr ⟨first, last, rfl⟩),
    fun _ _ w => (keeps_disk_set (Q := Op.Requests e (.read path size offset)) _ _ _ _ _
      w).sends⟩

theorem put_object_sends {path : CStr} {buf : Bytes} (h : Q (.worker_put path buf)) :
    Exec.Keeps (Sends e Q) (sia_worker_put_object e path buf) :=
  Exec.keeps_bind (sends_send h) fun _ => Exec.keeps_pure _

theorem flush_sends (path : CStr) : Exec.Keeps (Sends e Q) (siafs_flush e path) := by
  refine Exec.keeps_bind (sends_modify (fun _ => rfl) fun _ => rfl) fun _ => ?_
  exact Exec.keeps_bind (sends_modify (fun _ => rfl) fun _ => rfl) fun _ => Exec.keeps_pure _

theorem rename_requests (source target : CStr) :
    Exec.Keeps (Sends e (Op.Requests e (.rename source target)))
      (siafs_rename e source target) := by
  have hdir : Exec.Keeps (Sends e (Op.Requests e (.rename source target)))
      (sia_bus_objects_is_dir e source) :=
    Exec.keeps_bind (sends_cachedRequest (Or.inl rfl)) fun _ => Exec.keeps_lift _
  refine Exec.keeps_bind hdir fun is_dir => ?_
  cases is_dir with
  | true =>
    refine Exec.keeps_bind ?_ fun _ => Exec.keeps_pure _
    exact Exec.keeps_bind (sends_send (Or.inr (Or.inr rfl))) fun _ => Exec.keeps_pure _
  | false =>
    refine Exec.keeps_bind ?_ fun _ => Exec.keeps_pure _
    exact Exec.keeps_bind (sends_send (Or.inr (Or.inl rfl))) fun _ => Exec.keeps_pure _

/-! ## A write -/

section Write

variable {path : CStr} {offset : Nat}

theorem get_uploadid_sends :
    Exec.Keeps (Sends e (Request.Uploads e path offset)) (sia_bus_get_uploadid e path) := by
  refine Exec.keeps_bind (Exec.keeps_bind (sends_send (Or.inl rfl)) fun _ => Exec.keeps_pure _)
    fun listing => ?_
  split
  · exact Exec.keeps_pure _
  · refine Exec.keeps_bind ?_ fun _ => Exec.keeps_pure _
    exact Exec.keeps_bind (sends_send (Or.inr (Or.inl rfl))) fun _ => Exec.keeps_pure _

theorem linkUpload_sends (upload : SiaUpload) : Exec.Keeps (Sends e Q) (linkUpload upload) :=
  sends_nothing (fun _ => rfl) fun _ => rfl

theorem uploadNode_sends (upload_id : Option CStr) :
    Exec.Keeps (Sends e Q) (uploadNode path upload_id offset) := by
  rw [uploadNode]
  split
  · split
    · exact Exec.keeps_pure _
    · exact Exec.keeps_bind (linkUpload_sends _) fun _ => Exec.keeps_pure _
  · refine Exec.keeps_get_of fun w => Exec.keeps_bind (Exec.keeps_lift _) fun found => ?_
    cases found <;> exact Exec.keeps_pure _

theorem stagingFile_sends (node : Nat) : Exec.Keeps (Sends e Q) (stagingFile e node offset) := by
  refine Exec.keeps_get_of fun w => ?_
  split
  · split
    · exact Exec.keeps_bind (sends_modify (fun _ => rfl) fun _ => rfl) fun _ => Exec.keeps_pure _
    · split
      · exact Exec.keeps_pure _
      · exact Exec.keeps_fault _
  · exact Exec.keeps_fault _

theorem appendFile_sends (tmpfn : CStr) (buf : Bytes) :
    Exec.Keeps (Sends e Q) (appendFile e tmpfn buf) := by
  refine Exec.keeps_get_of fun w => ?_
  split <;>
    exact Exec.keeps_bind (sends_modify (fun _ => rfl) fun _ => rfl) fun _ => Exec.keeps_pure _

theorem recordEtag_sends (node slot : Nat) (etag : CStr) :
    Exec.Keeps (Sends e Q) (recordEtag node slot etag) := by
  rw [recordEtag]
  split
  · exact sends_modify (fun _ => rfl) fun _ => rfl
  · exact Exec.keeps_fault _

theorem etagNode_sends (upload_id : Option CStr) :
    Exec.Keeps (Sends e Q) (etagNode path upload_id offset) := by
  rw [etagNode]
  split
  · split
    · exact Exec.keeps_fault _
    · exact linkUpload_sends _
  · refine Exec.keeps_get_of fun w => Exec.keeps_bind (Exec.keeps_lift _) fun found => ?_
    cases found
    · exact Exec.keeps_fault _
    · exact Exec.keeps_pure _

theorem pushPart_sends (upload_id : Option CStr) (size : Nat) (tmpfn : CStr)
    (hput : ∀ id body, Q (.worker_put_multipart path id (offset / e.partBytes + 1) body)) :
    Exec.Keeps (Sends e Q) (pushPart e path upload_id size offset tmpfn) := by
  refine Exec.keeps_get_of fun w => Exec.keeps_bind ?_ fun etag => ?_
  · refine Exec.keeps_bind (Exec.keeps_lift _) fun id => Exec.keeps_get_of fun w' => ?_
    split
    · exact Exec.keeps_pure _
    · refine Exec.keeps_bind (sends_send (hput _ _)) fun reply => ?_
      split
      · exact Exec.keeps_bind (Exec.keeps_lift _) fun _ => Exec.keeps_pure _
      · exact Exec.keeps_pure _
  · cases etag with
    | none => exact Exec.keeps_pure _
    | some etag =>
      refine Exec.keeps_bind (etagNode_sends _) fun node => ?_
      refine Exec.keeps_bind (recordEtag_sends _ _ _) fun _ => ?_
      split
      · exact Exec.keeps_pure _
      · exact Exec.keeps_bind (sends_modify (fun _ => rfl) fun _ => rfl) fun _ => Exec.keeps_pure _

/-- What a multipart write does with the upload ID only pushes parts. -/
theorem writeHuge_puts (buf : Bytes) (id : Option CStr)
    (hput : ∀ id body, Q (.worker_put_multipart path id (offset / e.partBytes + 1) body)) :
    Exec.Keeps (Sends e Q) (uploadNode path id offset >>= fun r =>
      match r with
      | .error status => pure status
      | .ok node => do
        let tmpfn ← stagingFile e node offset
        if ← appendFile e tmpfn buf then
          if 0 < lastWrite e buf.length offset then
            pushPart e path id buf.length offset tmpfn
          else pure buf.length
        else pure (- EIO)) := by
  refine Exec.keeps_bind (uploadNode_sends id) fun r => ?_
  cases r with
  | error status => exact Exec.keeps_pure _
  | ok node =>
    refine Exec.keeps_bind (stagingFile_sends node) fun fn => ?_
    refine Exec.keeps_bind (appendFile_sends fn buf) fun opened => ?_
    split
    · split
      · exact pushPart_sends _ _ _ hput
      · exact Exec.keeps_pure _
    · exact Exec.keeps_pure _

theorem writePlain_puts (buf : Bytes) (id : Option CStr)
    (hput : ∀ id body, Q (.worker_put_multipart path id (offset / e.small + 1) body)) :
    Exec.Keeps (Sends e Q) (sia_worker_put_multipart e path id buf (offset / e.small + 1) >>=
      fun r =>
        match r with
        | none => pure 0
        | some etag => do
          match ← uploadNode path id offset with
          | .error status => pure status
          | .ok node => do
            recordEtag node (offset / e.small) etag
            pure buf.length) := by
  refine Exec.keeps_bind ?_ fun r => ?_
  · refine Exec.keeps_bind (Exec.keeps_lift _) fun id => ?_
    refine Exec.keeps_bind (sends_send (hput _ _)) fun reply => ?_
    exact Exec.keeps_bind (Exec.keeps_lift _) fun _ => Exec.keeps_pure _
  · cases r with
    | none => exact Exec.keeps_pure _
    | some etag =>
      refine Exec.keeps_bind (uploadNode_sends id) fun r => ?_
      cases r with
      | error status => exact Exec.keeps_pure _
      | ok node => exact Exec.keeps_bind (recordEtag_sends _ _ _) fun _ => Exec.keeps_pure _

theorem writeHuge_sends (hH : e.hugeFiles = true) (buf : Bytes) :
    Exec.Keeps (Sends e (Request.Uploads e path offset)) (writeHuge e path buf offset) := by
  refine Exec.keeps_bind get_uploadid_sends fun id => writeHuge_puts buf id fun i body => ?_
  exact Or.inr (Or.inr ⟨i, body, by rw [Env.partNumber, if_pos hH]⟩)

theorem writePlain_sends (hP : ¬ e.hugeFiles = true) (buf : Bytes) :
    Exec.Keeps (Sends e (Request.Uploads e path offset)) (writePlain e path buf offset) := by
  refine Exec.keeps_bind get_uploadid_sends fun id => writePlain_puts buf id fun i body => ?_
  exact Or.inr (Or.inr ⟨i, body, by rw [Env.partNumber, if_neg hP]⟩)

theorem write_sends (buf : Bytes) :
    Exec.Keeps (Sends e (Op.Requests e (.write path buf offset)))
      (siafs_write e path buf offset) := by
  rw [siafs_write, Op.Requests]
  split
  · exact Exec.keeps_bind (put_object_sends rfl) fun _ => Exec.keeps_pure _
  · split
    · exact writeHuge_sends ‹_› buf
    · exact writePlain_sends ‹_› buf

end Write

theorem completeUpload_sends (path : CStr) :
    Exec.Keeps (Sends e (Op.Requests e (.release path))) (completeUpload e path) := by
  intro w
  rcases hu : nodeNamed w.uploads path with _ | u
  · rw [completeUpload_none hu]
    exact Std.Refl.refl w
  · rw [completeUpload_apply hu]
    refine sends_sendAll (fun r hr => ?_) w
    rcases List.mem_append.mp hr with hr | hr
    · split at hr
      · exact Or.inr (Or.inl ⟨_, List.mem_singleton.mp hr⟩)
      · cases hr
    · exact Or.inr (Or.inr ⟨u, List.mem_singleton.mp hr⟩)

theorem release_requests (path : CStr) :
    Exec.Keeps (Sends e (Op.Requests e (.release path))) (siafs_release e path) := by
  refine Exec.keeps_bind (fun w => ?_) fun passed => ?_
  · exact ((lookups_send path).releaseCheck w).mono fun r hr => Or.inl hr
  · split
    · exact completeUpload_sends path
    · exact Exec.keeps_pure _

/-- An operation sends what it may send, wherever it stops. -/
theorem perform_requests (op : Op) : Exec.Keeps (Sends e (op.Requests e)) (perform e op) := by
  cases op with
  | getattr path => exact Exec.keeps_bind (lookups_send path).getattr fun _ => Exec.keeps_pure _
  | readdir path => exact Exec.keeps_bind (lookups_send path).readdir fun _ => Exec.keeps_pure _
  | «open» path => exact Exec.keeps_bind (lookups_send path).open_ fun _ => Exec.keeps_pure _
  | read path size offset =>
    exact Exec.keeps_bind (read_sends path size offset).read fun _ => Exec.keeps_pure _
  | mkdir path =>
    refine Exec.keeps_bind ?_ fun _ => Exec.keeps_pure _
    rw [siafs_mkdir]
    split
    · exact Exec.keeps_fault _
    · exact Exec.keeps_bind (put_object_sends rfl) fun _ => Exec.keeps_pure _
  | mknod path =>
    refine Exec.keeps_bind (Exec.keeps_bind (put_object_sends rfl) fun _ => ?_) fun _ =>
      Exec.keeps_pure _
    exact Exec.keeps_bind (flush_sends path) fun _ => Exec.keeps_pure _
  | flush path => exact Exec.keeps_bind (flush_sends path) fun _ => Exec.keeps_pure _
  | unlink path =>
    refine Exec.keeps_bind (Exec.keeps_bind ?_ fun _ => Exec.keeps_pure _) fun _ =>
      Exec.keeps_pure _
    exact Exec.keeps_bind (sends_send rfl) fun _ => Exec.keeps_pure _
  | rmdir path =>
    refine Exec.keeps_bind (Exec.keeps_bind ?_ fun _ => Exec.keeps_pure _) fun _ =>
      Exec.keeps_pure _
    exact Exec.keeps_bind (sends_send rfl) fun _ => Exec.keeps_pure _
  | rename source target =>
    exact Exec.keeps_bind (rename_requests source target) fun _ => Exec.keeps_pure _
  | write path buf offset => exact Exec.keeps_bind (write_sends buf) fun _ => Exec.keeps_pure _
  | release path => exact Exec.keeps_bind (release_requests path) fun _ => Exec.keeps_pure _

/-- A request of a run is one of an operation of the run. -/
theorem run_sends (ops : List Op) (w : World σ) :
    Sends e (fun r => ∃ op ∈ ops, op.Requests e r) w (Exec.runAll (perform e) ops w).2 := by
  refine Exec.runAll_invariant (I := Sends e (fun r => ∃ op ∈ ops, op.Requests e r) w)
    (fun op hop w' hw' => ?_) (Std.Refl.refl w)
  exact IsTrans.trans _ _ _ hw' ((perform_requests op w').mono fun r hr => ⟨op, hop, hr⟩)

end Operations

/-! ## What a run leaves alone -/

/-- The objects that a request may change. -/
def Request.Names : Request → CStr → Prop
  | .objects_delete path, name => name = path
  | .objects_rename source target mode, name =>
    if mode = lit "multi" then source <+: name ∨ target <+: name
    else name = source ∨ name = target
  | .worker_put path _, name => name = path
  | .multipart_complete payload, name =>
    cJSON_GetObjectItemCaseSensitive payload (lit "path") = some (.str name)
  | _, _ => False

/-- The objects that an operation may change. -/
def Op.Names : Op → CStr → Prop
  | .mkdir path, name => name = path ++ [slash]
  | .mknod path, name | .unlink path, name | .write path _ _, name | .release path, name =>
    name = path
  | .rmdir path, name => name = withSlash path
  | .rename source target, name =>
    name = source ∨ name = target ∨ withSlash source <+: name ∨ withSlash target <+: name
  | _, _ => False

/-- A request changes no object but those it names. -/
def Confined (server : σ → Request → Reply × σ) (objects : σ → CStr → Option Bytes) : Prop :=
  ∀ s r name, ¬ r.Names name → objects (server s r).2 name = objects s name

/-- What an operation sends names what the operation names. -/
theorem Op.Requests.names {e : Env σ} {op : Op} {r : Request} (h : op.Requests e r) {name : CStr}
    (hr : r.Names name) : op.Names name := by
  have hlookup : ∀ path, ¬ Request.LooksUp path r := by
    intro path hpath
    simp only [Request.LooksUp, List.mem_cons, List.not_mem_nil, or_false] at hpath
    rcases hpath with rfl | rfl | rfl | rfl <;> exact hr
  cases op with
  | getattr path => exact absurd h (hlookup path)
  | readdir path => exact absurd h (hlookup path)
  | «open» path => exact absurd h (hlookup path)
  | read path size offset => rcases h with rfl | ⟨first, last, rfl⟩ <;> exact hr
  | flush path => exact h
  | mkdir path => cases h; exact hr
  | mknod path => cases h; exact hr
  | unlink path => cases h; exact hr
  | rmdir path => cases h; exact hr
  | rename source target =>
    rcases h with rfl | rfl | rfl
    · exact hr.elim
    · rw [Request.Names, if_neg (by simp [lit])] at hr
      exact hr.elim Or.inl fun h => Or.inr (Or.inl h)
    · rw [Request.Names, if_pos rfl] at hr
      exact hr.elim (fun h => Or.inr (Or.inr (Or.inl h))) fun h => Or.inr (Or.inr (Or.inr h))
  | write path buf offset =>
    rw [Op.Requests] at h
    split at h
    · cases h
      exact hr
    · rcases h with rfl | rfl | ⟨id, body, rfl⟩ <;> exact hr.elim
  | release path =>
    rcases h with h | ⟨id, rfl⟩ | ⟨u, rfl⟩
    · exact absurd h (hlookup path)
    · exact hr.elim
    · rw [Request.Names, (completePayload_completes _ _ _).path] at hr
      cases hr
      rfl

/-- The names in a delete and in a rename arrive as they are. -/
def Op.Arrives (bucket : CStr) : Op → Prop
  | .unlink path | .rmdir path => Plain path
  | .rename source target => Clean bucket ∧ Clean source ∧ Clean target
  | _ => True

/-- What is not a delete or a rename is read as it is, or changes nothing. -/
theorem Request.received_cases {bucket : CStr} {r r' : Request} (h : r.received bucket = some r') :
    r' = r ∨ (∀ name, ¬ r'.Names name) ∨ (∃ path, r = .objects_delete path) ∨
      ∃ source target mode, r = .objects_rename source target mode := by
  cases r with
  | objects_delete path => exact Or.inr (Or.inr (Or.inl ⟨path, rfl⟩))
  | objects_rename source target mode =>
    exact Or.inr (Or.inr (Or.inr ⟨source, target, mode, rfl⟩))
  | objects_list path =>
    rw [Request.received, Option.map_eq_some_iff] at h
    obtain ⟨_, -, rfl⟩ := h
    exact Or.inr (Or.inl fun _ => not_false)
  | multipart_listuploads path =>
    rw [Request.received, Option.map_eq_some_iff] at h
    obtain ⟨_, -, rfl⟩ := h
    exact Or.inr (Or.inl fun _ => not_false)
  | multipart_create path key =>
    rw [Request.received, Option.map_eq_some_iff] at h
    obtain ⟨_, -, rfl⟩ := h
    exact Or.inr (Or.inl fun _ => not_false)
  | multipart_listparts path id =>
    rw [Request.received] at h
    simp only [Option.bind_eq_bind, Option.bind_eq_some_iff, Option.pure_def,
      Option.some.injEq] at h
    obtain ⟨_, -, _, -, _, -, rfl⟩ := h
    exact Or.inr (Or.inl fun _ => not_false)
  | objects path =>
    have hsame : some (Request.objects path) = some r' := h
    exact Or.inl (Option.some.inj hsame).symm
  | worker_get path first last =>
    have hsame : some (Request.worker_get path first last) = some r' := h
    exact Or.inl (Option.some.inj hsame).symm
  | worker_put path body =>
    have hsame : some (Request.worker_put path body) = some r' := h
    exact Or.inl (Option.some.inj hsame).symm
  | worker_put_multipart path id n body =>
    have hsame : some (Request.worker_put_multipart path id n body) = some r' := h
    exact Or.inl (Option.some.inj hsame).symm
  | multipart_complete payload =>
    have hsame : some (Request.multipart_complete payload) = some r' := h
    exact Or.inl (Option.some.inj hsame).symm

theorem Op.Requests.received {e : Env σ} {op : Op} {r r' : Request} (h : op.Requests e r)
    (ha : op.Arrives e.bucket) (hread : r.received e.bucket = some r') {name : CStr}
    (hr : r'.Names name) : op.Names name := by
  suffices hsame : r' = r by
    rw [hsame] at hr
    exact h.names hr
  rcases Request.received_cases hread with
    hsame | hsilent | ⟨path, rfl⟩ | ⟨source, target, mode, rfl⟩
  · exact hsame
  · exact absurd hr (hsilent name)
  · -- the operation is an unlink or an rmdir of that name
    have hplain : Plain path := by
      cases op with
      | unlink p =>
        obtain rfl : path = p := by simpa [Op.Requests] using h
        exact ha
      | rmdir p =>
        obtain rfl : path = withSlash p := by simpa [Op.Requests] using h
        exact plain_withSlash ha
      | write p buf offset =>
        simp only [Op.Requests] at h
        split at h <;> simp [Request.Uploads] at h
      | _ => simp [Op.Requests, Request.LooksUp] at h
    rw [received_delete hplain] at hread
    exact (Option.some.inj hread).symm
  · have hclean : Clean e.bucket ∧ Clean source ∧ Clean target ∧ Clean mode := by
      cases op with
      | rename p q =>
        rcases h with h | h | h <;> cases h
        · exact ⟨ha.1, ha.2.1, ha.2.2, clean_single⟩
        · exact ⟨ha.1, clean_withSlash ha.2.1, clean_withSlash ha.2.2, clean_multi⟩
      | write p buf offset =>
        simp only [Op.Requests] at h
        split at h <;> simp [Request.Uploads] at h
      | _ => simp [Op.Requests, Request.LooksUp] at h
    rw [received_rename hclean.1 hclean.2.1 hclean.2.2.1 hclean.2.2.2] at hread
    exact (Option.some.inj hread).symm

/-- An object that no operation of a run names stays as it is, whatever the caches hold and
whichever uploads are in progress. -/
theorem run_leaves_alone {e : Env σ} {server : σ → Request → Reply × σ}
    {objects : σ → CStr → Option Bytes} (he : e.server = receiving e.bucket server)
    (hC : Confined server objects) {ops : List Op} (harrive : ∀ op ∈ ops, op.Arrives e.bucket)
    {name : CStr} (h : ∀ op ∈ ops, ¬ op.Names name) (w : World σ) :
    objects (Exec.runAll (perform e) ops w).2.server name = objects w.server name := by
  refine (run_sends ops w).server_keeps (I := fun s => objects s name = objects w.server name)
    (fun r hr s hs => ?_) rfl
  obtain ⟨op, hop, hop'⟩ := hr
  rw [he]
  cases hread : r.received e.bucket with
  | none =>
    rw [receiving, hread]
    exact hs
  | some r' =>
    rw [receiving_read hread, hC s r' name fun hname =>
      h op hop (hop'.received (harrive op hop) hread hname)]
    exact hs

theorem Store.renameAll_data {s : Store} {source target name : CStr} (hsource : ¬ source <+: name)
    (htarget : ¬ target <+: name) : (s.renameAll source target).data name = s.data name := by
  have hs : source.isPrefixOf name = false :=
    Bool.eq_false_iff.mpr fun h => hsource (List.isPrefixOf_iff_prefix.mp h)
  have ht : target.isPrefixOf name = false :=
    Bool.eq_false_iff.mpr fun h => htarget (List.isPrefixOf_iff_prefix.mp h)
  show (s.moved source target name).or _ = _
  rw [Store.moved, ht, hs]
  rfl

theorem renterd_confined (refuse : Nat → Bool) : Confined (renterd refuse) Store.data := by
  intro s r name hr
  cases r with
  | objects path => rw [renterd_objects_state]
  | objects_list path => rfl
  | objects_delete path => exact Function.update_of_ne hr _ _
  | objects_rename source target mode =>
    rw [Request.Names] at hr
    rw [renterd]
    by_cases hmode : mode = lit "multi"
    · rw [if_pos hmode] at hr ⊢
      exact Store.renameAll_data (fun h => hr (Or.inl h)) fun h => hr (Or.inr h)
    · rw [if_neg hmode] at hr ⊢
      cases s.data source with
      | none => rfl
      | some body =>
        show Function.update (Function.update s.data source none) target (some body) name = _
        rw [Function.update_of_ne fun h => hr (Or.inr h),
          Function.update_of_ne fun h => hr (Or.inl h)]
  | multipart_listuploads path => rfl
  | multipart_create path key => rfl
  | multipart_listparts path id => rfl
  | multipart_complete payload =>
    show (s.complete payload).2.data name = s.data name
    unfold Store.complete
    split
    · rename_i path id parts hpath _ _
      dsimp only
      split
      · refine Function.update_of_ne ?_ _ _
        rintro rfl
        apply hr
        obtain ⟨item, hitem, hvalue⟩ := Option.bind_eq_some_iff.mp hpath
        cases item <;> cases hvalue
        exact hitem
      · rfl
    · rfl
  | worker_get path first last => rw [renterd_worker_get_state]
  | worker_put path body => exact Function.update_of_ne hr _ _
  | worker_put_multipart path id n body =>
    rw [renterd]
    split <;> rfl

/-- A file beside the directory that is moved, and one whose name begins like it. -/
theorem run_leaves_sibling :
    (Exec.runAll (perform receivingMount) [.write (lit "/a/x") [1, 2] 0,
        .rename (lit "/a") (lit "/b"), .release (lit "/b/x"), .unlink (lit "/b/x")]
      (mounted (Store.blank.put (lit "/ab") [9]) none)).2.server.data (lit "/ab") = some [9] := by
  have hplain : Plain (lit "/b/x") := by
    unfold Plain
    decide +kernel
  have hclean : ∀ path ∈ [lit "/a", lit "/b"], Clean path := by
    unfold Clean
    decide +kernel
  refine (run_leaves_alone receivingMount_server (renterd_confined _) (fun op hop => ?_)
    (fun op hop => ?_) (mounted (Store.blank.put (lit "/ab") [9]) none)).trans rfl
  · simp only [List.mem_cons, List.not_mem_nil, or_false] at hop
    rcases hop with rfl | rfl | rfl | rfl
    · trivial
    · exact ⟨clean_default, hclean _ (by decide), hclean _ (by decide)⟩
    · trivial
    · exact hplain
  · simp only [List.mem_cons, List.not_mem_nil, or_false] at hop
    rcases hop with rfl | rfl | rfl | rfl <;> simp [Op.Names, lit, withSlash, endsWithSlash, slash]

end SiaFS
