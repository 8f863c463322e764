/-
What one operation can do, whatever the server answers and wherever it stops.

Every operation is a sequence of moves, each of which changes one thing: a
request is sent, a cache changes, a node is linked, a staging file is named,
written or removed, an ETag is recorded.  `permits` says which nodes an operation
may link, which parts it may push and which uploads it may complete.  An
invariant of all runs is proved one move at a time.
-/
import Mathlib.Logic.Relation
import SiaFS.Lib.Triple
import SiaFS.Upload.Release

namespace SiaFS

variable {σ : Type}

/-- What an operation may do to the uploads: link a node for a path with an
upload ID when the server is in some state, push parts of a path under an ID,
complete the upload of a path. -/
structure Permit (σ : Type) where
  link : σ → CStr → CStr → Prop
  put : CStr → CStr → Prop
  complete : CStr → Prop

/-- A request that neither pushes a part nor completes an upload. -/
def Request.Plain : Request → Prop
  | .multipart_complete _ | .worker_put_multipart _ _ _ _ => False
  | _ => True

theorem Request.Plain.completion {r : Request} (h : r.Plain) : r.completion = none := by
  cases r <;> first | rfl | exact h.elim

theorem completions_plain {e : Env σ} {r : Request} (h : r.completion = none) (w : World σ) :
    completions (sendAll e [r] w).trace = completions w.trace := by
  rw [completions_sendAll, List.filterMap_cons_none h, List.filterMap_nil, List.append_nil]

/-- The part `n` was pushed under the ID and answered with the tag. -/
def PutUnder (trace : List (Request × Reply)) (path id : CStr) (n : Nat) (tag : CStr) : Prop :=
  ∃ body reply, (Request.worker_put_multipart path id n body, reply) ∈ trace ∧
    headerValue reply.etag = .ok tag

inductive Move (e : Env σ) (P : Permit σ) : World σ → World σ → Prop
  | ask (w : World σ) {r : Request} (h : r.Plain) : Move e P w (sendAll e [r] w)
  | cache (w : World σ) (L1 : Option (CStr → Option L1Entry)) (L2 : Option (CStr → Option Bytes)) :
    Move e P w { w with L1 := L1, L2 := L2 }
  | link (w : World σ) {path id : CStr} (h : P.link w.server path id) :
    Move e P w { w with uploads := append_upload w.uploads (newUpload path id) }
  | name (w : World σ) (i : Nat) (s : Fin SIA_MAX_PARTS) :
    Move e P w
      { w with
        uploads := w.uploads.modify i (·.setTmpfn s (stagingName e w.names s))
        names := w.names + 1 }
  /-- A file is opened for appending, or fails to be. -/
  | append (w : World σ) {i : Nat} {s : Fin SIA_MAX_PARTS} {fn : CStr} (v : Option Bytes)
    (h : slotName w.uploads i s = some fn) :
    Move e P w { w with tmp := Function.update w.tmp fn v, appends := w.appends + 1 }
  | unlink (w : World σ) {i : Nat} {s : Fin SIA_MAX_PARTS} {fn : CStr}
    (h : slotName w.uploads i s = some fn) :
    Move e P w { w with tmp := Function.update w.tmp fn none }
  | put (w : World σ) {path id : CStr} (n : Nat) (body : Bytes) (h : P.put path id) :
    Move e P w (sendAll e [.worker_put_multipart path id n body] w)
  | record (w : World σ) {i : Nat} {s : Fin SIA_MAX_PARTS} {path id tag : CStr}
    (h : P.put path id) (hname : (w.uploads[i]?).map SiaUpload.name = some path)
    (hput : PutUnder w.trace path id (s + 1) tag) :
    Move e P w { w with uploads := w.uploads.modify i (·.setEtag s tag) }
  | complete (w : World σ) {path : CStr} {u : SiaUpload} (h : P.complete path)
    (hu : nodeNamed w.uploads path = some u) :
    Move e P w
      (sendAll e [.multipart_complete (completePayload e path u.uploadID (recordedParts u))] w)

abbrev Moves (e : Env σ) (P : Permit σ) : World σ → World σ → Prop :=
  Relation.ReflTransGen (Move e P)

/-- The server has been asked for the upload ID of the path since it was in the
state `s`. -/
def Asked (e : Env σ) (path : CStr) (s s' : σ) : Prop :=
  ∃ rs, s' = (askAll e (uploadIDRequests e path s ++ rs) s).1

/-- What an operation that begins in `w` may do. -/
def permits (e : Env σ) (w : World σ) : Op → Permit σ
  | .write path buf offset =>
    { link := fun s p id => p = path ∧ offset = 0 ∧ e.small ≤ buf.length ∧
        resolvedID e path w.server = some id ∧ Asked e path w.server s
      put := fun p id => p = path ∧ resolvedID e path w.server = some id ∧
        ¬ (offset = 0 ∧ buf.length < e.small) ∧
        (e.hugeFiles = true → e.geometry.pushes offset buf.length)
      complete := fun _ => False }
  | .release path =>
    { link := fun _ _ _ => False, put := fun _ _ => False, complete := fun p => p = path }
  | _ => { link := fun _ _ _ => False, put := fun _ _ => False, complete := fun _ => False }

variable {e : Env σ} {P : Permit σ} {w w' : World σ}

/-! ## Operations that leave the uploads alone -/

theorem moves_sendAll {rs : List Request} (h : ∀ r ∈ rs, r.Plain) (w : World σ) :
    Moves e P w (sendAll e rs w) := by
  induction rs generalizing w with
  | nil =>
    have : sendAll e [] w = w := by
      show { w with server := w.server, trace := w.trace ++ [] } = w
      rw [List.append_nil]
    rw [this]
  | cons r rs ih =>
    rw [← List.singleton_append, sendAll_append]
    exact Relation.ReflTransGen.head (.ask w (h r List.mem_cons_self))
      (ih (fun r' hr' => h r' (List.mem_cons_of_mem _ hr')) _)

theorem Asks.moves (h : Asks e Request.Plain w w') : Moves e P w w' := by
  obtain ⟨rs, hrs, hserver, htrace⟩ := h.asked
  have : w' = { sendAll e rs w with L1 := w'.L1, L2 := w'.L2 } := by
    rcases w' with ⟨uploads, tmp, names, appends, L1, L2, now, server, trace⟩
    obtain ⟨rfl, rfl, rfl, rfl, rfl, -⟩ := h
    obtain ⟨rfl, rfl⟩ : server = _ ∧ trace = _ := ⟨hserver, htrace⟩
    rfl
  rw [this]
  exact (moves_sendAll hrs w).tail (.cache _ _ _)

theorem Request.IsRead.plain {r : Request} (h : r.IsRead) : r.Plain := by
  cases r <;> trivial

theorem keeps_read_plain {α : Type} {m : Sia σ α} (h : Exec.Keeps (Asks e Request.IsRead) m) :
    Exec.Keeps (Asks e Request.Plain) m := fun w => (h w).mono fun _ => Request.IsRead.plain

theorem keeps_put_object (path : CStr) (buf : Bytes) :
    Exec.Keeps (Asks e Request.Plain) (sia_worker_put_object e path buf) :=
  Exec.keeps_bind (keeps_send trivial) fun _ => Exec.keeps_pure _

theorem keeps_flush (path : CStr) : Exec.Keeps (Asks e Request.Plain) (siafs_flush e path) :=
  Exec.keeps_bind (keeps_mc_del _) fun _ =>
    Exec.keeps_bind (keeps_mc_del _) fun _ => Exec.keeps_pure _

theorem keeps_mkdir (path : CStr) : Exec.Keeps (Asks e Request.Plain) (siafs_mkdir e path) := by
  rw [siafs_mkdir]
  split
  · exact Exec.keeps_fault _
  · exact Exec.keeps_bind (keeps_put_object _ _) fun _ => Exec.keeps_pure _

theorem keeps_mknod (path : CStr) : Exec.Keeps (Asks e Request.Plain) (siafs_mknod e path) :=
  Exec.keeps_bind (keeps_put_object _ _) fun _ =>
    Exec.keeps_bind (keeps_flush path) fun _ => Exec.keeps_pure _

theorem keeps_del_object (path : CStr) :
    Exec.Keeps (Asks e Request.Plain) (sia_bus_del_object e path) :=
  Exec.keeps_bind (keeps_send trivial) fun _ => Exec.keeps_pure _

theorem keeps_rename_object (source target mode : CStr) :
    Exec.Keeps (Asks e Request.Plain) (sia_bus_rename_object e source target mode) :=
  Exec.keeps_bind (keeps_send trivial) fun _ => Exec.keeps_pure _

theorem keeps_rename (source target : CStr) :
    Exec.Keeps (Asks e Request.Plain) (siafs_rename e source target) := by
  refine Exec.keeps_bind (keeps_read_plain (keeps_is_dir source)) fun is_dir => ?_
  cases is_dir with
  | true => exact Exec.keeps_bind (keeps_rename_object _ _ _) fun _ => Exec.keeps_pure _
  | false => exact Exec.keeps_bind (keeps_rename_object _ _ _) fun _ => Exec.keeps_pure _

/-- Every operation but a write and a release leaves the uploads alone. -/
theorem keeps_perform {op : Op} (hwrite : ∀ path buf offset, op ≠ .write path buf offset)
    (hrelease : ∀ path, op ≠ .release path) :
    Exec.Keeps (Asks e Request.Plain) (perform e op) := by
  cases op with
  | getattr path =>
    exact Exec.keeps_bind (keeps_read_plain (keeps_getattr path)) fun _ => Exec.keeps_pure _
  | readdir path =>
    exact Exec.keeps_bind (keeps_read_plain (keeps_readdir path)) fun _ => Exec.keeps_pure _
  | «open» path =>
    exact Exec.keeps_bind (keeps_read_plain (keeps_open path)) fun _ => Exec.keeps_pure _
  | read path size offset =>
    exact Exec.keeps_bind (keeps_read_plain (keeps_read path size offset)) fun _ =>
      Exec.keeps_pure _
  | mkdir path => exact Exec.keeps_bind (keeps_mkdir path) fun _ => Exec.keeps_pure _
  | mknod path => exact Exec.keeps_bind (keeps_mknod path) fun _ => Exec.keeps_pure _
  | flush path => exact Exec.keeps_bind (keeps_flush path) fun _ => Exec.keeps_pure _
  | unlink path =>
    exact Exec.keeps_bind (Exec.keeps_bind (keeps_del_object path) fun _ => Exec.keeps_pure _)
      fun _ => Exec.keeps_pure _
  | rmdir path =>
    exact Exec.keeps_bind (Exec.keeps_bind (keeps_del_object _) fun _ => Exec.keeps_pure _)
      fun _ => Exec.keeps_pure _
  | rename source target =>
    exact Exec.keeps_bind (keeps_rename source target) fun _ => Exec.keeps_pure _
  | write path buf offset => exact absurd rfl (hwrite path buf offset)
  | release path => exact absurd rfl (hrelease path)

/-! ## A write -/

section Write

variable {w₀ : World σ} {path : CStr} {node offset : Nat}

/-- From `w₀` to `w` by permitted moves, and `node` is a node of the path. -/
def AtNode (e : Env σ) (P : Permit σ) (w₀ : World σ) (path : CStr) (node : Nat) (w : World σ) :
    Prop :=
  Moves e P w₀ w ∧ (w.uploads[node]?).map SiaUpload.name = some path

theorem AtNode.modify (h : AtNode e P w₀ path node w) (hm : Move e P w w') {i : Nat}
    {f : SiaUpload → SiaUpload} (huploads : w'.uploads = w.uploads.modify i f)
    (hf : ∀ v, (f v).name = v.name) : AtNode e P w₀ path node w' := by
  refine ⟨h.1.tail hm, ?_⟩
  rw [← h.2, huploads, List.getElem?_modify]
  cases w.uploads[node]? with
  | none => rfl
  | some u => by_cases hi : i = node <;> simp [hi, hf]

theorem AtNode.same (h : AtNode e P w₀ path node w) (hm : Move e P w w')
    (huploads : w'.uploads = w.uploads) : AtNode e P w₀ path node w' :=
  ⟨h.1.tail hm, by rw [huploads]; exact h.2⟩

theorem stagingFile_moves :
    Exec.Triple (AtNode e P w₀ path node) (stagingFile e node offset)
      (fun fn w => AtNode e P w₀ path node w ∧ ∃ s, slotName w.uploads node s = some fn)
      (Moves e P w₀) := by
  refine Exec.triple_get_bind fun w hw => ?_
  by_cases hs : offset / e.partBytes < SIA_MAX_PARTS
  · rw [dif_pos hs]
    refine Exec.triple_ite (fun _ => ?_) fun _ => ?_
    · refine Exec.triple_bind (Q := fun _ w' => AtNode e P w₀ path node w' ∧
        slotName w'.uploads node ⟨_, hs⟩ =
          some (stagingName e w.names (offset / e.partBytes))) ?_ fun _ => ?_
      · refine Exec.triple_modify ?_
        rintro w' ⟨rfl, -⟩
        refine ⟨hw.modify (.name w' node ⟨_, hs⟩) rfl fun _ => rfl, ?_⟩
        obtain ⟨u, hu, -⟩ := Option.map_eq_some_iff.mp hw.2
        rw [slotName_setTmpfn hu, if_pos ⟨rfl, rfl⟩]
      · exact Exec.triple_pure fun w' hw' => ⟨hw'.1, _, hw'.2⟩
    · cases hfn : (w.uploads[node]?).bind fun u => (u.part ⟨_, hs⟩).tmpfn with
      | some fn =>
        refine Exec.triple_pure ?_
        rintro w' ⟨rfl, -⟩
        exact ⟨hw, ⟨_, hs⟩, hfn⟩
      | none => exact Exec.triple_fault fun w' hw' => hw'.2.1
  · rw [dif_neg hs]
    exact Exec.triple_fault fun w' hw' => hw'.2.1

theorem appendFile_moves (fn : CStr) (buf : Bytes) :
    Exec.Triple (fun w => AtNode e P w₀ path node w ∧ ∃ s, slotName w.uploads node s = some fn)
      (appendFile e fn buf)
      (fun _ w => AtNode e P w₀ path node w ∧ ∃ s, slotName w.uploads node s = some fn)
      (Moves e P w₀) := by
  have hmove : ∀ w, (AtNode e P w₀ path node w ∧ ∃ s, slotName w.uploads node s = some fn) →
      ∀ v, AtNode e P w₀ path node
          { w with tmp := Function.update w.tmp fn v, appends := w.appends + 1 } ∧
        ∃ s, slotName w.uploads node s = some fn := by
    rintro w ⟨hw, s, hfn⟩ v
    exact ⟨hw.same (.append w v hfn) rfl, s, hfn⟩
  refine Exec.triple_get_bind fun w hw => Exec.triple_ite (fun _ => ?_) fun _ => ?_
  · refine Exec.triple_bind (Exec.triple_modify ?_) fun _ => Exec.triple_pure fun _ h => h
    rintro w' ⟨rfl, -⟩
    exact hmove w' hw _
  · refine Exec.triple_bind (Exec.triple_modify ?_) fun _ => Exec.triple_pure fun _ h => h
    rintro w' ⟨rfl, -⟩
    have := hmove w' hw (w'.tmp fn)
    rwa [Function.update_eq_self] at this

/-- By permitted moves a part was pushed and answered with the tag, and `fn` is
the name of a staging file. -/
def Pushed (e : Env σ) (P : Permit σ) (w₀ : World σ) (path fn : CStr) (n : Nat) (tag : CStr)
    (w : World σ) : Prop :=
  Moves e P w₀ w ∧ (∃ i s, slotName w.uploads i s = some fn) ∧
    ∃ id, P.put path id ∧ PutUnder w.trace path id n tag

theorem put_from_file_moves {id : Option CStr} (hP : ∀ i, id = some i → P.put path i)
    (size : Nat) (fn : CStr) (n : Nat) :
    Exec.Triple (fun w => Moves e P w₀ w ∧ ∃ i s, slotName w.uploads i s = some fn)
      (sia_worker_put_multipart_from_file e path id size fn n)
      (fun etag w => Moves e P w₀ w ∧ ∀ tag, etag = some tag → Pushed e P w₀ path fn n tag w)
      (Moves e P w₀) := by
  refine Exec.triple_bind (Q := fun i w => id = some i ∧ Moves e P w₀ w ∧
    ∃ i s, slotName w.uploads i s = some fn) (Exec.triple_lift ?_ fun _ _ _ h => h.1) fun i => ?_
  · intro i w hi hw
    cases id with
    | none => cases hi
    | some i' => cases hi; exact ⟨rfl, hw⟩
  refine Exec.triple_get_bind fun w hw => ?_
  cases w.tmp fn with
  | none => exact Exec.triple_pure fun w' hw' => ⟨hw'.2.2.1, nofun⟩
  | some contents =>
    have hput := hP i hw.1
    refine Exec.triple_bind (Q := fun reply w' => Moves e P w₀ w' ∧
      (∃ i s, slotName w'.uploads i s = some fn) ∧
      (Request.worker_put_multipart path i n (contents.take size), reply) ∈ w'.trace) ?_
      fun reply => ?_
    · rintro w' ⟨rfl, -, hm, hfn⟩
      refine ⟨fun reply w'' h => ?_, nofun⟩
      rw [send_apply] at h
      cases h
      exact ⟨hm.tail (.put w' n _ hput), hfn, by simp [sendAll, askAll]⟩
    · refine Exec.triple_ite (fun _ => ?_) fun _ => Exec.triple_pure fun w' hw' => ⟨hw'.1, nofun⟩
      refine Exec.triple_bind (Q := fun tag w' => Pushed e P w₀ path fn n tag w')
        (Exec.triple_lift ?_ fun _ _ _ h => h.1) fun tag => Exec.triple_pure fun w' hw' => ?_
      · exact fun tag w' htag hw' => ⟨hw'.1, hw'.2.1, i, hput, _, reply, hw'.2.2, htag⟩
      · exact ⟨hw'.1, fun t ht => by cases ht; exact hw'⟩

theorem find_moves {α : Type} {F : World σ → Prop} (hF : ∀ w, F w → Moves e P w₀ w)
    {f : Option Nat → Sia σ α} {Q : α → World σ → Prop}
    (hf : ∀ found, Exec.Triple
      (fun w => F w ∧ ∀ i, found = some i → AtNode e P w₀ path i w) (f found) Q (Moves e P w₀)) :
    Exec.Triple F (Exec.get >>= fun w => Exec.lift (find_upload_by_path w.uploads path) >>= f) Q
      (Moves e P w₀) := by
  refine Exec.triple_get_bind fun w hw => ?_
  refine Exec.triple_bind (Exec.triple_lift ?_ fun _ w' _ h => hF w' h.2) hf
  rintro found w' hfound ⟨rfl, hw'⟩
  refine ⟨hw', ?_⟩
  rintro i rfl
  obtain ⟨u, hu, hi⟩ := find_upload_by_path_eq_some hfound
  exact ⟨hF w' hw', by rw [hi, Option.map_some, nodeNamed_name hu]⟩

theorem recordEtag_moves (fn tag : CStr) (slot : Nat) :
    Exec.Triple (fun w => AtNode e P w₀ path node w ∧ Pushed e P w₀ path fn (slot + 1) tag w)
      (recordEtag node slot tag)
      (fun _ w => Moves e P w₀ w ∧ ∃ i s, slotName w.uploads i s = some fn) (Moves e P w₀) := by
  rw [recordEtag]
  split
  · rename_i hs
    refine Exec.triple_modify ?_
    rintro w ⟨hnode, hm, ⟨i, s, hfn⟩, id, hP, hput⟩
    refine ⟨hm.tail (.record w (s := ⟨slot, hs⟩) hP hnode.2 hput), i, s, ?_⟩
    rw [← hfn]
    exact slotName_setEtag _ _ _ _ _ _
  · exact Exec.triple_fault fun w hw => hw.1.1

theorem pushPart_moves {id : Option CStr} (h0 : offset ≠ 0)
    (hP : ∀ i, id = some i → P.put path i) (size : Nat) (fn : CStr) :
    Exec.Triple (fun w => Moves e P w₀ w ∧ ∃ i s, slotName w.uploads i s = some fn)
      (pushPart e path id size offset fn) (fun _ w => Moves e P w₀ w) (Moves e P w₀) := by
  refine Exec.triple_get_bind fun w hw => ?_
  refine Exec.triple_bind (Exec.triple_pre (put_from_file_moves hP _ fn _) fun _ h => h.2)
    fun etag => ?_
  cases etag with
  | none => exact Exec.triple_pure fun w' hw' => hw'.1
  | some tag =>
    refine Exec.triple_bind (Q := fun i w => AtNode e P w₀ path i w ∧
      Pushed e P w₀ path fn (offset / e.partBytes + 1) tag w) ?_ fun i => ?_
    · rw [etagNode, if_neg h0]
      refine Exec.triple_pre (find_moves (fun _ h => h.1) fun found => ?_) fun _ h => h.2 tag rfl
      cases found with
      | none => exact Exec.triple_fault fun w' hw' => hw'.1.1
      | some i => exact Exec.triple_pure fun w' hw' => ⟨hw'.2 i rfl, hw'.1⟩
    · refine Exec.triple_bind (recordEtag_moves fn tag _) fun _ => ?_
      refine Exec.triple_ite (fun _ => Exec.triple_pure fun _ h => h.1) fun _ => ?_
      refine Exec.triple_bind (Exec.triple_modify ?_) fun _ => Exec.triple_pure fun _ h => h
      rintro w' ⟨hm, i, s, hfn⟩
      exact hm.tail (.unlink w' hfn)

theorem uploadNode_moves {id : Option CStr} {S : σ → Prop} {T : List (Request × Reply) → Prop}
    (hlink : offset = 0 → ∀ i, id = some i → ∀ s, S s → P.link s path i) :
    Exec.Triple (fun w => Moves e P w₀ w ∧ S w.server ∧ T w.trace) (uploadNode path id offset)
      (fun r w => (Moves e P w₀ w ∧ S w.server ∧ T w.trace) ∧
        ∀ node, r = Except.ok node → AtNode e P w₀ path node w) (Moves e P w₀) := by
  rw [uploadNode]
  refine Exec.triple_ite (fun h0 => ?_) fun _ => ?_
  · cases id with
    | none =>
      refine Exec.triple_pure fun w hw => ⟨hw, fun node h => ?_⟩
      cases h
    | some i =>
      rw [create_upload_some]
      refine Exec.triple_bind (Q := fun node w => (Moves e P w₀ w ∧ S w.server ∧ T w.trace) ∧
        AtNode e P w₀ path node w) ?_ fun node => Exec.triple_pure fun w hw => ⟨hw.1, ?_⟩
      · rintro w ⟨hm, hs, ht⟩
        refine ⟨fun node w' h => ?_, fun x w' h => ?_⟩ <;> cases h
        have hm' := hm.tail (.link w (hlink h0 i rfl _ hs))
        exact ⟨⟨hm', hs, ht⟩, hm', by rw [append_upload_last]; rfl⟩
      · rintro _ ⟨⟩
        exact hw.2
  · refine find_moves (fun _ h => h.1) fun found => ?_
    cases found with
    | none =>
      refine Exec.triple_pure fun w hw => ⟨hw.1, fun node h => ?_⟩
      cases h
    | some i =>
      refine Exec.triple_pure fun w hw => ⟨hw.1, ?_⟩
      rintro _ ⟨⟩
      exact hw.2 i rfl

theorem get_uploadid_moves (path : CStr) (w : World σ) :
    Moves e P w (sendAll e (uploadIDRequests e path w.server) w) := by
  refine moves_sendAll (fun r hr => ?_) w
  rw [uploadIDRequests] at hr
  split at hr <;> simp at hr <;> rcases hr with rfl | rfl <;> trivial

theorem Asked.refl (path : CStr) (s : σ) :
    Asked e path s (askAll e (uploadIDRequests e path s) s).1 := ⟨[], by rw [List.append_nil]⟩

theorem Asked.send {s s' : σ} (h : Asked e path s s') (r : Request) :
    Asked e path s (e.server s' r).2 := by
  obtain ⟨rs, rfl⟩ := h
  refine ⟨rs ++ [r], ?_⟩
  rw [← List.append_assoc, askAll_append e _ [r]]
  rfl

theorem writeHuge_moves {buf : Bytes}
    (hlink : offset = 0 → ∀ i, resolvedID e path w.server = some i →
      ∀ s, Asked e path w.server s → P.link s path i)
    (hput : e.geometry.pushes offset buf.length →
      ∀ i, resolvedID e path w.server = some i → P.put path i) :
    Moves e P w (writeHuge e path buf offset w).2 := by
  rw [writeHuge, Exec.bind_of_ok (sia_bus_get_uploadid_apply e path w)]
  refine (Exec.triple_bind (uploadNode_moves (T := fun _ => True) hlink) fun r => ?_).state
    ⟨get_uploadid_moves path w, Asked.refl path w.server, trivial⟩
  cases r with
  | error status => exact Exec.triple_pure fun _ h => h.1.1
  | ok node =>
    refine Exec.triple_bind (Exec.triple_pre stagingFile_moves fun _ h => h.2 node rfl) fun fn => ?_
    refine Exec.triple_bind (appendFile_moves fn buf) fun opened => ?_
    refine Exec.triple_ite (fun _ => ?_) fun _ => Exec.triple_pure fun _ h => h.1.1
    refine Exec.triple_ite (fun hlast => ?_) fun _ => Exec.triple_pure fun _ h => h.1.1
    have hp := (lastWrite_pos_iff e _ _).mp hlast
    have h0 : offset ≠ 0 := by
      rintro rfl
      exact e.geometry.not_pushes_zero _ hp
    exact Exec.triple_pre (pushPart_moves h0 (hput hp) _ fn) fun w' h => ⟨h.1.1, node, h.2⟩

theorem put_multipart_moves {id : Option CStr} {S : σ → Prop}
    (hP : ∀ i, id = some i → P.put path i) (hS : ∀ s r, S s → S (e.server s r).2)
    (buf : Bytes) (n : Nat) :
    Exec.Triple (fun w => Moves e P w₀ w ∧ S w.server) (sia_worker_put_multipart e path id buf n)
      (fun etag w => (Moves e P w₀ w ∧ S w.server) ∧ ∀ tag, etag = some tag →
        ∃ i, P.put path i ∧ PutUnder w.trace path i n tag) (Moves e P w₀) := by
  refine Exec.triple_bind (Q := fun i w => id = some i ∧ Moves e P w₀ w ∧ S w.server)
    (Exec.triple_lift ?_ fun _ _ _ h => h.1) fun i => ?_
  · intro i w hi hw
    cases id with
    | none => cases hi
    | some i' => cases hi; exact ⟨rfl, hw⟩
  refine Exec.triple_bind (Q := fun reply w => P.put path i ∧ (Moves e P w₀ w ∧ S w.server) ∧
    (Request.worker_put_multipart path i n buf, reply) ∈ w.trace) ?_ fun reply => ?_
  · rintro w ⟨hid, hm, hs⟩
    refine ⟨fun reply w' h => ?_, nofun⟩
    rw [send_apply] at h
    cases h
    exact ⟨hP i hid, ⟨hm.tail (.put w n _ (hP i hid)), hS _ _ hs⟩, by simp [sendAll, askAll]⟩
  · refine Exec.triple_bind (Q := fun tag w => (Moves e P w₀ w ∧ S w.server) ∧
      ∃ i, P.put path i ∧ PutUnder w.trace path i n tag)
      (Exec.triple_lift ?_ fun _ _ _ h => h.2.1.1) fun tag => Exec.triple_pure fun w hw => ⟨hw.1, ?_⟩
    · exact fun tag w htag hw => ⟨hw.2.1, i, hw.1, _, reply, hw.2.2, htag⟩
    · rintro _ ⟨⟩
      exact hw.2

theorem writePlain_moves {buf : Bytes}
    (hlink : offset = 0 → ∀ i, resolvedID e path w.server = some i →
      ∀ s, Asked e path w.server s → P.link s path i)
    (hput : ∀ i, resolvedID e path w.server = some i → P.put path i) :
    Moves e P w (writePlain e path buf offset w).2 := by
  rw [writePlain, Exec.bind_of_ok (sia_bus_get_uploadid_apply e path w)]
  refine (Exec.triple_bind (put_multipart_moves (S := Asked e path w.server) hput
    (fun s r h => h.send r) buf _) fun etag => ?_).state ⟨get_uploadid_moves path w, Asked.refl path w.server⟩
  cases etag with
  | none => exact Exec.triple_pure fun _ h => h.1.1
  | some tag =>
    refine Exec.triple_bind (Exec.triple_pre (uploadNode_moves (T := fun t => ∃ i, P.put path i ∧
      PutUnder t path i (offset / e.small + 1) tag) hlink)
      fun _ h => ⟨h.1.1, h.1.2, h.2 tag rfl⟩) fun r => ?_
    cases r with
    | error status => exact Exec.triple_pure fun _ h => h.1.1
    | ok node =>
      refine Exec.triple_bind (Q := fun _ w' => Moves e P w w') ?_ fun _ =>
        Exec.triple_pure fun _ h => h
      rw [recordEtag]
      split
      · rename_i hs
        refine Exec.triple_modify ?_
        rintro w' ⟨⟨hm, -, i, hP, hpush⟩, hnode⟩
        exact hm.tail (.record w' (s := ⟨_, hs⟩) hP (hnode node rfl).2 hpush)
      · exact Exec.triple_fault fun _ h => h.1.1

end Write

/-! ## All operations -/

theorem siafs_write_moves (path : CStr) (buf : Bytes) (offset : Nat) (w : World σ) :
    Moves e (permits e w (.write path buf offset)) w (siafs_write e path buf offset w).2 := by
  rw [siafs_write]
  split
  · exact (Exec.keeps_bind (keeps_put_object path buf) fun _ => Exec.keeps_pure _ :
      Exec.Keeps (Asks e Request.Plain) _) w |>.moves
  · rename_i hsmall
    split
    · rename_i hH
      refine writeHuge_moves (fun h0 i hi s hs => ⟨rfl, h0, ?_, hi, hs⟩) fun hp i hi =>
        ⟨rfl, hi, hsmall, fun _ => hp⟩
      exact Nat.le_of_not_lt fun hlt => hsmall ⟨h0, hlt⟩
    · rename_i hH
      refine writePlain_moves (fun h0 i hi s hs => ⟨rfl, h0, ?_, hi, hs⟩) fun i hi =>
        ⟨rfl, hi, hsmall, fun h => absurd h hH⟩
      exact Nat.le_of_not_lt fun hlt => hsmall ⟨h0, hlt⟩

/-- Without a node of the path, a release leaves everything as it is, and follows
a null pointer unless the list is empty. -/
theorem completeUpload_none {path : CStr} (h : nodeNamed w.uploads path = none) :
    completeUpload e path w = (if w.uploads = [] then .ok 0 else .error .nullPointer, w) := by
  rw [completeUpload, Exec.get_bind, find_upload_by_path_none h]
  split
  · exact Exec.lift_ok_bind rfl _ w
  · exact Exec.bind_of_error rfl

theorem completeUpload_moves {path : CStr} (hP : P.complete path) (w : World σ) :
    Moves e P w (completeUpload e path w).2 := by
  rcases hu : nodeNamed w.uploads path with _ | u
  · rw [completeUpload_none hu]
  rw [completeUpload_apply hu, releaseRequests, sendAll_append]
  refine Relation.ReflTransGen.tail (moves_sendAll (fun r hr => ?_) w) (.complete _ hP hu)
  split at hr <;> simp at hr
  subst hr
  trivial

theorem siafs_release_moves (path : CStr) (w : World σ) :
    Moves e (permits e w (.release path)) w (siafs_release e path w).2 := by
  have hcheck := (keeps_read_plain (keeps_releaseCheck (e := e) path) w).moves
    (P := permits e w (.release path))
  rcases Exec.bind_cases (releaseCheck e path)
    (fun passed => if passed then completeUpload e path else pure 0) w with
    ⟨x, w₁, h, he⟩ | ⟨passed, w₁, h, he⟩
  · rw [siafs_release, he]
    rwa [h] at hcheck
  · rw [h] at hcheck
    rw [siafs_release, he]
    cases passed with
    | true => exact hcheck.trans (completeUpload_moves rfl w₁)
    | false => exact hcheck

/-- Every operation does what it is permitted, wherever it stops. -/
theorem perform_moves (op : Op) (w : World σ) :
    Moves e (permits e w op) w (perform e op w).2 := by
  by_cases hwrite : ∃ path buf offset, op = .write path buf offset
  · obtain ⟨path, buf, offset, rfl⟩ := hwrite
    rw [perform, Exec.bind_pure_state]
    exact siafs_write_moves path buf offset w
  by_cases hrelease : ∃ path, op = .release path
  · obtain ⟨path, rfl⟩ := hrelease
    rw [perform, Exec.bind_pure_state]
    exact siafs_release_moves path w
  exact (keeps_perform (fun path buf offset h => hwrite ⟨path, buf, offset, h⟩)
    (fun path h => hrelease ⟨path, h⟩) w).moves

/-- The trace only grows. -/
theorem moves_trace (h : Moves e P w w') : ∃ t, w'.trace = w.trace ++ t := by
  induction h with
  | refl => exact ⟨[], (List.append_nil _).symm⟩
  | tail _ hm ih =>
    obtain ⟨t, ht⟩ := ih
    cases hm with
    | ask _ => exact ⟨t ++ _, by rw [← List.append_assoc, ← ht]; rfl⟩
    | put _ _ _ => exact ⟨t ++ _, by rw [← List.append_assoc, ← ht]; rfl⟩
    | complete _ _ => exact ⟨t ++ _, by rw [← List.append_assoc, ← ht]; rfl⟩
    | _ => exact ⟨t, ht⟩

/-- What every permitted move keeps, every operation keeps. -/
theorem perform_keeps (e : Env σ) (op : Op) {I : World σ → Prop} {w : World σ}
    (h : ∀ w₁ w₂, Move e (permits e w op) w₁ w₂ → I w₁ → I w₂) (hw : I w) :
    I (perform e op w).2 := by
  have hmoves := perform_moves op w (e := e)
  generalize (perform e op w).2 = w' at hmoves ⊢
  induction hmoves with
  | refl => exact hw
  | tail _ hm ih => exact h _ _ hm ih

end SiaFS
