/-
The steps of a multipart write in the build with `SIA_HUGE_FILES`.

Every function on the way is given by what it returns and the state it leaves:
the requests that settle the upload ID, the append to the staging file of the
slot, and the push of the part.  Nothing is assumed of the server, whose answers
enter through `resolvedID` and `putAnswer`.
-/
import SiaFS.Upload.Nodes
import SiaFS.Upload.Staging

namespace SiaFS

open Staging

variable {σ : Type} (e : Env σ)

/-! ## The upload ID of a write -/

/-- The ID that the listing of the pending uploads gives for the path. -/
def listedID (path : CStr) (s : σ) : Option CStr :=
  (cJSON_Parse (e.server s (.multipart_listuploads path)).1.body).bind (recoveredUploadID path)

/-- The requests that `sia_bus_get_uploadid` sends. -/
def uploadIDRequests (path : CStr) (s : σ) : List Request :=
  if (listedID e path s).isSome then [.multipart_listuploads path]
  else [.multipart_listuploads path, .multipart_create path zeroKey]

/-- The ID that `sia_bus_get_uploadid` returns. -/
def resolvedID (path : CStr) (s : σ) : Option CStr :=
  match listedID e path s with
  | some id => some id
  | none =>
    (cJSON_Parse (e.server (e.server s (.multipart_listuploads path)).2
      (.multipart_create path zeroKey)).1.body).bind newUploadID

theorem listuploads_apply (path : CStr) (w : World σ) :
    sia_bus_multipart_listuploads_json e path w =
      (.ok (e.server w.server (.multipart_listuploads path)).1.body,
        sendAll e [.multipart_listuploads path] w) := rfl

theorem create_apply (path key : CStr) (w : World σ) :
    sia_bus_multipart_create_json e path key w =
      (.ok (e.server w.server (.multipart_create path key)).1.body,
        sendAll e [.multipart_create path key] w) := rfl

theorem sia_bus_get_uploadid_apply (path : CStr) (w : World σ) :
    sia_bus_get_uploadid e path w =
      (.ok (resolvedID e path w.server), sendAll e (uploadIDRequests e path w.server) w) := by
  rw [sia_bus_get_uploadid, Exec.bind_of_ok (listuploads_apply e path w)]
  change (match listedID e path w.server with
    | some answer => pure (some answer)
    | none => _ : Sia σ (Option CStr)) _ = _
  rw [resolvedID, uploadIDRequests]
  cases listedID e path w.server with
  | some id => rfl
  | none =>
    refine (Exec.bind_of_ok (create_apply e path zeroKey _)).trans ?_
    rw [← sendAll_append]
    rfl

/-! ## The staging machine of the build -/

/-- The block and part sizes of the build. -/
def Env.geometry : Geometry where
  block := e.small
  writes := SAIFS_WRITES_PER_MULTIPART
  slots := SIA_MAX_PARTS
  keep := e.verbose
  block_pos := e.small_pos
  two_le_writes := by decide

@[simp] theorem Env.geometry_partSize : e.geometry.partSize = e.partBytes := rfl

theorem Env.partBytes_pos : 0 < e.partBytes := e.geometry.partSize_pos

/-- `last > 0` is the decision of the staging machine to push. -/
theorem lastWrite_pos_iff (size offset : Nat) :
    0 < lastWrite e size offset ↔ e.geometry.pushes offset size := by
  show _ ↔ e.small * (SAIFS_WRITES_PER_MULTIPART - 1) ≤ offset % e.partBytes ∨
    (0 < offset ∧ size < e.small)
  rw [lastWrite]
  by_cases h2 : 0 < offset ∧ size < e.small
  · simp [h2]
  · by_cases h1 : e.small * (SAIFS_WRITES_PER_MULTIPART - 1) ≤ offset % e.partBytes
    · simp [h1, h2]
    · simp [h1, h2]

/-! ## Appending to a staging file -/

/-- From `w` to `w'` these requests were sent, and the caches are as they were. -/
structure Sent (rs : List Request) (w w' : World σ) : Prop where
  server : w'.server = (askAll e rs w.server).1
  trace : w'.trace = w.trace ++ (askAll e rs w.server).2
  L1 : w'.L1 = w.L1
  L2 : w'.L2 = w.L2
  now : w'.now = w.now

theorem sent_sendAll (rs : List Request) (w : World σ) : Sent e rs w (sendAll e rs w) :=
  ⟨rfl, rfl, rfl, rfl, rfl⟩

theorem sent_nil {w w' : World σ} (hserver : w'.server = w.server) (htrace : w'.trace = w.trace)
    (h1 : w'.L1 = w.L1) (h2 : w'.L2 = w.L2) (hnow : w'.now = w.now) : Sent e [] w w' :=
  ⟨hserver, htrace.trans (List.append_nil _).symm, h1, h2, hnow⟩

theorem Sent.trans {rs rs' : List Request} {w w' w'' : World σ} (h : Sent e rs w w')
    (h' : Sent e rs' w' w'') : Sent e (rs ++ rs') w w'' := by
  refine ⟨?_, ?_, h'.L1.trans h.L1, h'.L2.trans h.L2, h'.now.trans h.now⟩
  · rw [h'.server, h.server, askAll_append]
  · rw [h'.trace, h.trace, h.server, askAll_append, List.append_assoc]

/-- The staging file `fn` of a slot has come to hold `b`. -/
structure Appended (w w' : World σ) (i : Nat) (slot : Fin SIA_MAX_PARTS) (fn : CStr)
    (b : Bytes) : Prop where
  uploads : w'.uploads = w.uploads.modify i (·.setTmpfn slot fn)
  tmp : w'.tmp = Function.update w.tmp fn (some b)
  /-- No other slot has that file. -/
  apart : ∀ j t, slotName w.uploads j t = some fn → j = i ∧ t = slot
  named : Named e w'
  sent : Sent e [] w w'

theorem modify_setTmpfn_self {uploads : List SiaUpload} {i : Nat} {u : SiaUpload}
    {s : Fin SIA_MAX_PARTS} {fn : CStr} (hu : uploads[i]? = some u)
    (hfn : (u.part s).tmpfn = some fn) : uploads.modify i (·.setTmpfn s fn) = uploads := by
  have hself : u.setTmpfn s fn = u := by
    rw [SiaUpload.setTmpfn, ← hfn, Function.update_eq_self]
  refine List.ext_getElem? fun j => ?_
  rw [List.getElem?_modify]
  by_cases hij : i = j
  · subst hij
    simp [hu, hself]
  · simp [hij]

variable {e} {w : World σ} {path : CStr} {u : SiaUpload} {i offset : Nat}

theorem found_eq (st : Slots UInt8 CStr) (offset : Nat) :
    e.geometry.found st offset =
      if offset % e.partBytes = 0 then some [] else (st (offset / e.partBytes)).staged := rfl

theorem appendFile_spec (hR : e.host.Reliable) (fn : CStr) (buf : Bytes) (w : World σ) :
    ∃ w', appendFile e fn buf w = (.ok true, w') ∧ w'.uploads = w.uploads ∧
      w'.tmp = Function.update w.tmp fn (some ((w.tmp fn).getD [] ++ buf)) ∧
      w'.names = w.names ∧ Sent e [] w w' := by
  refine ⟨{ w with
    tmp := Function.update w.tmp fn (some ((w.tmp fn).getD [] ++ buf))
    appends := w.appends + 1 }, ?_, rfl, rfl, rfl, sent_nil e rfl rfl rfl rfl rfl⟩
  rw [appendFile, Exec.get_bind, if_pos (hR.fopen_ok _), Exec.modify_bind, hR.fwrite_all,
    List.take_length]
  rfl

theorem stagingFile_past (hs : SIA_MAX_PARTS ≤ offset / e.partBytes) :
    stagingFile e i offset w = (.error .outOfBounds, w) := by
  rw [stagingFile, Exec.get_bind, dif_neg (Nat.not_lt_of_le hs)]
  rfl

theorem stagingFile_new (hs : offset / e.partBytes < SIA_MAX_PARTS)
    (hstart : offset % e.partBytes = 0) :
    stagingFile e i offset w =
      (.ok (stagingName e w.names (offset / e.partBytes)),
        { w with
          uploads := w.uploads.modify i
            (·.setTmpfn ⟨_, hs⟩ (stagingName e w.names (offset / e.partBytes)))
          names := w.names + 1 }) := by
  rw [stagingFile, Exec.get_bind, dif_pos hs, if_pos hstart]
  rfl

theorem stagingFile_recorded (hs : offset / e.partBytes < SIA_MAX_PARTS)
    (hstart : offset % e.partBytes ≠ 0) :
    stagingFile e i offset w =
      (match slotName w.uploads i ⟨_, hs⟩ with
      | some tmpfn => .ok tmpfn
      | none => .error .nullPointer, w) := by
  rw [stagingFile, Exec.get_bind, dif_pos hs, if_neg hstart]
  show (match slotName w.uploads i ⟨_, hs⟩ with
    | some tmpfn => pure tmpfn
    | none => Exec.fault .nullPointer : Sia σ CStr) w = _
  cases slotName w.uploads i ⟨_, hs⟩ <;> rfl

/-- A write stages its bytes behind what `found` says the slot holds. -/
theorem stage_spec (hR : e.host.Reliable) (hN : Named e w) (hu : w.uploads[i]? = some u)
    (hs : offset / e.partBytes < SIA_MAX_PARTS) {st : Slots UInt8 CStr} {b : Bytes}
    (hst : offset % e.partBytes ≠ 0 →
      (u.part ⟨_, hs⟩).tmpfn.map (fun fn => (w.tmp fn).getD []) =
        (st (offset / e.partBytes)).staged)
    (hb : e.geometry.found st offset = some b) (buf : Bytes) :
    ∃ fn w₁ w', stagingFile e i offset w = (.ok fn, w₁) ∧
      appendFile e fn buf w₁ = (.ok true, w') ∧ Appended e w w' i ⟨_, hs⟩ fn (b ++ buf) := by
  rw [found_eq] at hb
  by_cases hz : offset % e.partBytes = 0
  · rw [if_pos hz] at hb
    cases hb
    obtain ⟨w', hw', huploads, htmp, hnames, hsent⟩ :=
      appendFile_spec hR (stagingName e w.names (offset / e.partBytes)) buf
        { w with
          uploads := w.uploads.modify i
            (·.setTmpfn ⟨_, hs⟩ (stagingName e w.names (offset / e.partBytes)))
          names := w.names + 1 }
    have hnew : w.tmp (stagingName e w.names (offset / e.partBytes)) = none :=
      hN.unused _ _ (Nat.le_refl _)
    have hapart : ∀ j t, slotName w.uploads j t =
        some (stagingName e w.names (offset / e.partBytes)) → j = i ∧ t = ⟨_, hs⟩ := by
      intro j t h
      obtain ⟨k, hk, he⟩ := hN.recorded j t _ h
      have := stagingName_injective e hR he
      omega
    rw [hnew] at htmp
    refine ⟨_, _, w', ?_, hw', huploads, htmp, hapart, ?_, ?_⟩
    · exact stagingFile_new hs hz
    · have hN₁ : Named e { w with
          uploads := w.uploads.modify i
            (·.setTmpfn ⟨_, hs⟩ (stagingName e w.names (offset / e.partBytes)))
          names := w.names + 1 } := hN.name hR i ⟨_, hs⟩ rfl rfl rfl
      refine hN₁.file hR (i := i) (s := ⟨_, hs⟩) ?_ huploads hnames htmp
      rw [slotName_setTmpfn hu, if_pos ⟨rfl, rfl⟩]
    · exact ⟨hsent.server, hsent.trace, hsent.L1, hsent.L2, hsent.now⟩
  · rw [if_neg hz] at hb
    rw [hb] at hst
    obtain ⟨fn, hfn, hfile⟩ := Option.map_eq_some_iff.mp (hst hz)
    have hslot : slotName w.uploads i ⟨_, hs⟩ = some fn := by
      rw [slotName, hu, Option.bind_some, hfn]
    obtain ⟨w', hw', huploads, htmp, hnames, hsent⟩ := appendFile_spec hR fn buf w
    rw [hfile] at htmp
    have hself := modify_setTmpfn_self hu hfn
    have hapart : ∀ j t, slotName w.uploads j t = some fn → j = i ∧ t = ⟨_, hs⟩ :=
      fun j t h => hN.distinct j i t _ fn h hslot
    refine ⟨fn, w, w', ?_, hw', huploads.trans hself.symm, htmp, hapart,
      hN.file hR hslot huploads hnames htmp, hsent⟩
    rw [stagingFile_recorded hs hz, hslot]

/-! ## Pushing a part -/

variable (e) in
/-- What a push is answered: its ETag, if it is accepted, or the fault of a push
without an upload ID or of a reply without an ETag. -/
def putAnswer (path : CStr) (id : Option CStr) (n : Nat) (body : Bytes) (s : σ) :
    Except Fault (Option CStr) :=
  match id with
  | none => .error .nullPointer
  | some id =>
    if (e.server s (.worker_put_multipart path id n body)).1.status < 300 then
      (headerValue (e.server s (.worker_put_multipart path id n body)).1.etag).map some
    else .ok none

/-- The push of a part under the ID, if there is one. -/
def putRequests (path : CStr) (id : Option CStr) (n : Nat) (body : Bytes) : List Request :=
  id.toList.map fun id => .worker_put_multipart path id n body

theorem put_from_file_apply {fn : CStr} {id : Option CStr} {body : Bytes} {n : Nat}
    (hfn : w.tmp fn = some body) :
    sia_worker_put_multipart_from_file e path id body.length fn n w =
      (putAnswer e path id n body w.server, sendAll e (putRequests path id n body) w) := by
  cases id with
  | none => exact congrArg (Prod.mk _) (by simp [putRequests, sendAll, askAll])
  | some id =>
    have hurl : urlString (some id) = .ok id := rfl
    rw [sia_worker_put_multipart_from_file, Exec.lift_ok_bind hurl, Exec.get_bind, hfn]
    simp only [List.take_length]
    rw [Exec.bind_of_ok (send_apply e _ w), putAnswer]
    by_cases hst : (e.server w.server (.worker_put_multipart path id n body)).1.status < 300
    · rw [if_pos hst, if_pos hst]
      cases headerValue (e.server w.server (.worker_put_multipart path id n body)).1.etag <;> rfl
    · rw [if_neg hst, if_neg hst]
      rfl

/-- Recording a tag and removing a staging file keep the names of the others. -/
theorem Named.push (hN : Named e w) {w' : World σ} (slot : Fin SIA_MAX_PARTS)
    (ans : Option CStr) {fn : CStr} {v : Option Bytes}
    (huploads : w'.uploads = ans.elim w.uploads fun t => w.uploads.modify i (·.setEtag slot t))
    (hnames : w'.names = w.names) (htmp : w'.tmp = Function.update w.tmp fn v)
    (hv : v = none ∨ v = w.tmp fn) : Named e w' := by
  have hN₁ : Named e { w' with tmp := w.tmp } := by
    refine hN.congr (fun j t => ?_) hnames rfl
    show slotName w'.uploads j t = _
    rw [huploads]
    cases ans with
    | none => rfl
    | some etag => exact slotName_setEtag _ _ _ _ _ _
  refine ⟨hN₁.recorded, hN₁.distinct, fun k t hk => ?_⟩
  rw [htmp]
  by_cases he : stagingName e k t = fn
  · subst he
    rw [Function.update_self]
    rcases hv with rfl | rfl
    · rfl
    · exact hN₁.unused k t hk
  · rw [Function.update_of_ne he]
    exact hN₁.unused k t hk

theorem etagNode_later (h0 : offset ≠ 0) (id : Option CStr)
    (hi : find_upload_by_path w.uploads path = .ok (some i)) :
    etagNode path id offset w = (.ok i, w) := by
  rw [etagNode, if_neg h0, Exec.get_bind, Exec.lift_ok_bind hi]
  rfl

theorem recordEtag_apply {slot : Nat} (hs : slot < SIA_MAX_PARTS) (etag : CStr) :
    recordEtag i slot etag w =
      (.ok (), { w with uploads := w.uploads.modify i (·.setEtag ⟨slot, hs⟩ etag) }) := by
  rw [recordEtag, dif_pos hs]
  rfl

/-- A push by what it is answered. -/
theorem pushPart_apply (hi : find_upload_by_path w.uploads path = .ok (some i))
    (h0 : offset ≠ 0) (hs : offset / e.partBytes < SIA_MAX_PARTS) {id : Option CStr} {fn : CStr}
    {body : Bytes} (hfn : w.tmp fn = some body) {ans : Option CStr}
    (hans : putAnswer e path id (offset / e.partBytes + 1) body w.server = .ok ans)
    (size : Nat) :
    ∃ w', pushPart e path id size offset fn w =
        (.ok (if ans = none then - EIO else size), w') ∧
      w'.uploads = ans.elim w.uploads (fun t => w.uploads.modify i (·.setEtag ⟨_, hs⟩ t)) ∧
      w'.tmp = Function.update w.tmp fn
        (if ans.isSome ∧ e.verbose = false then none else some body) ∧
      w'.names = w.names ∧
      Sent e (putRequests path id (offset / e.partBytes + 1) body) w w' := by
  have hput : sia_worker_put_multipart_from_file e path id body.length fn
      (offset / e.partBytes + 1) w =
        (.ok ans, sendAll e (putRequests path id (offset / e.partBytes + 1) body) w) :=
    (put_from_file_apply hfn).trans (by rw [hans])
  rw [pushPart, Exec.get_bind, hfn, Option.getD_some, Exec.bind_of_ok hput]
  have hsent := sent_sendAll e (putRequests path id (offset / e.partBytes + 1) body) w
  have hself : w.tmp = Function.update w.tmp fn (some body) := by
    rw [← hfn, Function.update_eq_self]
  cases ans with
  | none => exact ⟨_, rfl, rfl, hself, rfl, hsent⟩
  | some etag =>
    have hi' : find_upload_by_path
        (sendAll e (putRequests path id (offset / e.partBytes + 1) body) w).uploads path =
          .ok (some i) := hi
    have hrecord : ∀ f : Unit → Sia σ Int,
        (etagNode path id offset >>= fun node =>
          recordEtag node (offset / e.partBytes) etag >>= f)
            (sendAll e (putRequests path id (offset / e.partBytes + 1) body) w) =
          f () { sendAll e (putRequests path id (offset / e.partBytes + 1) body) w with
            uploads := w.uploads.modify i (·.setEtag ⟨_, hs⟩ etag) } := fun f =>
      (Exec.bind_of_ok (etagNode_later h0 id hi')).trans
        (Exec.bind_of_ok (recordEtag_apply hs etag))
    by_cases hv : e.verbose = true
    · refine ⟨_, (hrecord _).trans (by rw [if_pos hv]; rfl), rfl, ?_, ?_, ?_⟩
      · simpa [hv] using hself
      · rfl
      · exact ⟨rfl, rfl, rfl, rfl, rfl⟩
    · refine ⟨_, (hrecord _).trans (by rw [if_neg hv]; rfl), rfl, ?_, ?_, ?_⟩
      · simp [hv]
      · rfl
      · exact ⟨rfl, rfl, rfl, rfl, rfl⟩

theorem pushPart_spec (hN : Named e w)
    (hi : find_upload_by_path w.uploads path = .ok (some i))
    (h0 : offset ≠ 0) (hs : offset / e.partBytes < SIA_MAX_PARTS) {id : Option CStr} {fn : CStr}
    {body : Bytes} (hfn : w.tmp fn = some body) {ans : Option CStr}
    (hans : putAnswer e path id (offset / e.partBytes + 1) body w.server = .ok ans)
    (size : Nat) :
    ∃ w', pushPart e path id size offset fn w =
        (.ok (if ans = none then - EIO else size), w') ∧
      w'.uploads = ans.elim w.uploads (fun t => w.uploads.modify i (·.setEtag ⟨_, hs⟩ t)) ∧
      w'.tmp = Function.update w.tmp fn
        (if ans.isSome ∧ e.verbose = false then none else some body) ∧
      Named e w' ∧ Sent e (putRequests path id (offset / e.partBytes + 1) body) w w' := by
  obtain ⟨w', hrun, huploads, htmp, hnames, hsent⟩ := pushPart_apply hi h0 hs hfn hans size
  refine ⟨w', hrun, huploads, htmp, hN.push ⟨_, hs⟩ ans huploads hnames htmp ?_, hsent⟩
  split
  · exact .inl rfl
  · exact .inr hfn.symm

end SiaFS
