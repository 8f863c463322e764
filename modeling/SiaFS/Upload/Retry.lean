/-
A multipart write that fails, and the same write tried again.

A write may name a staging file, link a node and append its bytes before the step that
fails, and undoes none of it.  `Spoils` is when it does: the file cannot be opened at
the start of a part, or the part is refused after bytes were appended to it or a file
was named for it.  A write that fails otherwise leaves the uploads and the staged bytes
as they are, so that a write tried until it succeeds comes to the part body it would
have come to at once.
-/
import SiaFS.Upload.Slots
import SiaFS.Upload.Session

namespace SiaFS

variable {σ : Type} (e : Env σ)

/-! ## What a write is to leave alone -/

/-- The bytes staged for a slot of a node, none before the slot has a file. -/
def stagedBytes (w : World σ) (i : Nat) (s : Fin SIA_MAX_PARTS) : Option Bytes :=
  (slotName w.uploads i s).map fun tmpfn => (w.tmp tmpfn).getD []

/-- The uploads with their ETags and the staged bytes are the same. -/
structure SameUploads (w w' : World σ) : Prop where
  uploads : w'.uploads = w.uploads
  staged : ∀ i s, stagedBytes w' i s = stagedBytes w i s

/-- A write that returns a negative value leaves the uploads and the staged bytes as
they were. -/
def FailsCleanly (path : CStr) (buf : Bytes) (offset : Nat) (w : World σ) : Prop :=
  ∀ status w', siafs_write e path buf offset w = (.ok status, w') → status < 0 → SameUploads w w'

/-! ## When it does not -/

/-- The staging file of a write: one named now, at the start of a part, or the one
recorded in the node of the path. -/
def stagingOf (path : CStr) (offset : Nat) (w : World σ) : Option CStr :=
  if h : offset / e.partBytes < SIA_MAX_PARTS then
    if offset % e.partBytes = 0 then some (stagingName e w.names (offset / e.partBytes))
    else (nodeNamed w.uploads path).bind fun u => (u.part ⟨_, h⟩).tmpfn
  else none

/-- The write has a node, which at the start of the file it makes. -/
def HasUpload (path : CStr) (offset : Nat) (w : World σ) : Prop :=
  if offset = 0 then (resolvedID e path w.server).isSome
  else (nodeNamed w.uploads path).isSome

/-- What the next `fwrite` writes of the buffer. -/
def written (buf : Bytes) (w : World σ) : Bytes :=
  buf.take (e.host.fwrite w.appends buf.length)

/-- The staging file after the append. -/
def stagedAfter (tmpfn : CStr) (buf : Bytes) (w : World σ) : Bytes :=
  (w.tmp tmpfn).getD [] ++ written e buf w

/-- The write pushes its part, and the server refuses it. -/
def Refused (path tmpfn : CStr) (buf : Bytes) (offset : Nat) (w : World σ) : Prop :=
  0 < lastWrite e buf.length offset ∧
    putAnswer e path (resolvedID e path w.server) (offset / e.partBytes + 1)
      (stagedAfter e tmpfn buf w) (askedID e path w).server = .ok none

/-- The write comes to its staging file and fails there, after something was named or
written. -/
def Spoils (path : CStr) (buf : Bytes) (offset : Nat) (w : World σ) : Prop :=
  HasUpload e path offset w ∧ ∃ tmpfn, stagingOf e path offset w = some tmpfn ∧
    (e.host.fopen w.appends = false ∧ offset % e.partBytes = 0 ∨
      e.host.fopen w.appends = true ∧ Refused e path tmpfn buf offset w ∧
        (offset % e.partBytes = 0 ∨ written e buf w ≠ []))

/-! ## What a write does -/

/-- From `w` the write came to the file `tmpfn` in `v`.  In the middle of a part it has
changed nothing by then. -/
structure Opened (path : CStr) (offset : Nat) (w : World σ) (tmpfn : CStr) (v : World σ) :
    Prop where
  upload : HasUpload e path offset w
  name : stagingOf e path offset w = some tmpfn
  tmp : v.tmp = w.tmp
  appends : v.appends = w.appends
  server : v.server = (askedID e path w).server
  node : ∃ u, nodeNamed v.uploads path = some u
  slot : ∃ (i : Nat) (s : Fin SIA_MAX_PARTS), s.val = offset / e.partBytes ∧
    slotName v.uploads i s = some tmpfn
  same : offset % e.partBytes ≠ 0 → v.uploads = w.uploads ∧ v.names = w.names

/-- The state after the append. -/
def appended (tmpfn : CStr) (buf : Bytes) (v : World σ) : World σ :=
  { v with
    tmp := Function.update v.tmp tmpfn (some (stagedAfter e tmpfn buf v))
    appends := v.appends + 1 }

section Halves

variable {e} {w v : World σ} {path tmpfn : CStr} {offset : Nat} {buf : Bytes}

theorem Opened.stagedAfter_eq (h : Opened e path offset w tmpfn v) (buf : Bytes) :
    stagedAfter e tmpfn buf v = stagedAfter e tmpfn buf w := by
  rw [stagedAfter, stagedAfter, written, written, h.tmp, h.appends]

theorem stagingOf_slot (h : stagingOf e path offset w = some tmpfn) :
    offset / e.partBytes < SIA_MAX_PARTS := by
  rw [stagingOf] at h
  by_contra hs
  rw [dif_neg hs] at h
  cases h

/-- At the start of the file the write links a node and names its first file. -/
theorem openStage_start {id : CStr} (hid : resolvedID e path w.server = some id)
    (hname : stagingOf e path 0 w = some tmpfn) :
    ∃ v, openStage e path (some id) 0 (askedID e path w) = (.ok (.ok tmpfn), v) ∧
      Opened e path 0 w tmpfn v := by
  have hs := stagingOf_slot hname
  have hstart : 0 % e.partBytes = 0 := Nat.zero_mod _
  have hfn : stagingName e w.names (0 / e.partBytes) = tmpfn := by
    rw [stagingOf, dif_pos hs, if_pos hstart] at hname
    exact Option.some.inj hname
  subst hfn
  refine ⟨_, (openStage_ok (uploadNode_start path id _)).trans
    (Exec.bind_of_ok (stagingFile_new hs hstart)), ?_, hname, rfl, rfl, rfl, ?_, ?_,
    fun h => absurd hstart h⟩
  · rw [HasUpload, if_pos rfl, hid]
    rfl
  · apply nodeNamed_of_mem
    rw [setTmpfn_names, append_upload_eq]
    simp [newUpload]
  · have hlast := append_upload_last w.uploads (newUpload path id)
    exact ⟨_, ⟨_, hs⟩, rfl, (slotName_setTmpfn hlast _ _ _ _).trans (if_pos ⟨rfl, rfl⟩)⟩

/-- Later it finds its node, and names a file or finds one recorded. -/
theorem openStage_later {u : SiaUpload} (id : Option CStr) (h0 : offset ≠ 0)
    (hu : nodeNamed w.uploads path = some u) (hname : stagingOf e path offset w = some tmpfn) :
    ∃ v, openStage e path id offset (askedID e path w) = (.ok (.ok tmpfn), v) ∧
      Opened e path offset w tmpfn v := by
  have hs := stagingOf_slot hname
  have hupload : HasUpload e path offset w := by
    rw [HasUpload, if_neg h0, hu]
    rfl
  obtain ⟨i, hnode, hi⟩ :=
    uploadNode_named (w := askedID e path w) id h0 hu
  by_cases hstart : offset % e.partBytes = 0
  · have hfn : stagingName e w.names (offset / e.partBytes) = tmpfn := by
      rw [stagingOf, dif_pos hs, if_pos hstart] at hname
      exact Option.some.inj hname
    subst hfn
    refine ⟨_, (openStage_ok hnode).trans (Exec.bind_of_ok (stagingFile_new hs hstart)), hupload,
      hname, rfl, rfl, rfl, ?_, ?_, fun h => absurd hstart h⟩
    · apply nodeNamed_of_mem
      rw [setTmpfn_names]
      exact List.mem_map.mpr ⟨u, List.mem_of_find?_eq_some hu, nodeNamed_name hu⟩
    · exact ⟨i, ⟨_, hs⟩, rfl, (slotName_setTmpfn hi _ _ _ _).trans (if_pos ⟨rfl, rfl⟩)⟩
  · have hslot : slotName w.uploads i ⟨_, hs⟩ = some tmpfn := by
      rw [stagingOf, dif_pos hs, if_neg hstart, hu] at hname
      rw [slotName, show w.uploads[i]? = some u from hi]
      exact hname
    have hfile : stagingFile e i offset (askedID e path w) = (.ok tmpfn, askedID e path w) := by
      rw [stagingFile_recorded hs hstart, show slotName (askedID e path w).uploads i ⟨_, hs⟩ =
        some tmpfn from hslot]
    exact ⟨_, (openStage_ok hnode).trans (Exec.bind_of_ok hfile), hupload, hname, rfl, rfl, rfl,
      ⟨u, hu⟩, ⟨i, ⟨_, hs⟩, rfl, hslot⟩, fun _ => ⟨rfl, rfl⟩⟩

/-- A write that has a node and a file comes to it. -/
theorem openStage_opened (hupload : HasUpload e path offset w)
    (hname : stagingOf e path offset w = some tmpfn) :
    ∃ v, openStage e path (resolvedID e path w.server) offset (askedID e path w) =
        (.ok (.ok tmpfn), v) ∧ Opened e path offset w tmpfn v := by
  by_cases h0 : offset = 0
  · subst h0
    rw [HasUpload, if_pos rfl] at hupload
    obtain ⟨id, hid⟩ := Option.isSome_iff_exists.mp hupload
    rw [hid]
    exact openStage_start hid hname
  · rw [HasUpload, if_neg h0] at hupload
    obtain ⟨u, hu⟩ := Option.isSome_iff_exists.mp hupload
    exact openStage_later _ h0 hu hname

/-- With a node but no name for its slot it stops. -/
theorem openStage_unnamed {u : SiaUpload} (id : Option CStr) (h0 : offset ≠ 0)
    (hu : nodeNamed w.uploads path = some u) (hname : stagingOf e path offset w = none) :
    ∃ x w', openStage e path id offset (askedID e path w) = (.error x, w') := by
  obtain ⟨i, hnode, hi⟩ := uploadNode_named (w := askedID e path w) id h0 hu
  rw [openStage_ok hnode]
  by_cases hs : offset / e.partBytes < SIA_MAX_PARTS
  · rw [stagingOf, dif_pos hs] at hname
    by_cases hstart : offset % e.partBytes = 0
    · rw [if_pos hstart] at hname
      cases hname
    · rw [if_neg hstart, hu] at hname
      have hslot : slotName (askedID e path w).uploads i ⟨_, hs⟩ = none := by
        rw [slotName, hi]
        exact hname
      have hfile : stagingFile e i offset (askedID e path w) = _ := stagingFile_recorded hs hstart
      rw [hslot] at hfile
      exact ⟨_, _, Exec.bind_of_error hfile⟩
  · exact ⟨_, _, Exec.bind_of_error (stagingFile_past (Nat.le_of_not_lt hs))⟩

/-- And no other does. -/
theorem openStage_early_or_fault
    (h : ¬ (HasUpload e path offset w ∧ ∃ tmpfn, stagingOf e path offset w = some tmpfn)) :
    (∃ x w', openStage e path (resolvedID e path w.server) offset (askedID e path w) =
        (.error x, w')) ∨
      ∃ status, openStage e path (resolvedID e path w.server) offset (askedID e path w) =
        (.ok (.error status), askedID e path w) ∧ status < 0 := by
  by_cases h0 : offset = 0
  · subst h0
    cases hid : resolvedID e path w.server with
    | none => exact .inr ⟨_, openStage_early (uploadNode_start_none path _), by decide⟩
    | some id =>
      have hs : 0 / e.partBytes < SIA_MAX_PARTS := by
        rw [Nat.zero_div]
        decide
      refine absurd ⟨?_, ?_, ?_⟩ h
      · rw [HasUpload, if_pos rfl, hid]
        rfl
      · exact stagingName e w.names (0 / e.partBytes)
      · exact (dif_pos hs).trans (if_pos (Nat.zero_mod _))
  · cases hu : nodeNamed w.uploads path with
    | none =>
      have hnode := uploadNode_none (w := askedID e path w)
        (resolvedID e path w.server) h0 hu
      split at hnode
      · exact .inr ⟨_, openStage_early hnode, by decide⟩
      · exact .inl ⟨_, _, by rw [openStage, Exec.bind_of_error hnode]⟩
    | some u =>
      left
      apply openStage_unnamed _ h0 hu
      have hupload : HasUpload e path offset w := by
        rw [HasUpload, if_neg h0, hu]
        rfl
      exact Option.eq_none_iff_forall_ne_some.mpr fun tmpfn hname => h ⟨hupload, tmpfn, hname⟩

/-! ### The second half -/

theorem finishWrite_unopened {id : Option CStr} (hopen : e.host.fopen v.appends = false) :
    finishWrite e path id buf offset tmpfn v =
      (.ok (- EIO), { v with appends := v.appends + 1 }) := by
  have happend : appendFile e tmpfn buf v = (.ok false, { v with appends := v.appends + 1 }) := by
    rw [appendFile, Exec.get_bind, if_neg (by rw [hopen]; decide)]
    rfl
  rw [finishWrite, Exec.bind_of_ok happend]
  rfl

theorem finishWrite_appended {id : Option CStr} (hopen : e.host.fopen v.appends = true) :
    finishWrite e path id buf offset tmpfn v =
      (if 0 < lastWrite e buf.length offset then
        pushPart e path id buf.length offset tmpfn else pure buf.length : Sia σ Int)
        (appended e tmpfn buf v) := by
  have happend : appendFile e tmpfn buf v = (.ok true, appended e tmpfn buf v) := by
    rw [appendFile, Exec.get_bind, if_pos hopen]
    rfl
  rw [finishWrite, Exec.bind_of_ok happend, if_pos rfl]

theorem pushPart_error {id : Option CStr} {x : Fault} {body : Bytes} (size : Nat)
    (hfn : v.tmp tmpfn = some body)
    (hans : putAnswer e path id (offset / e.partBytes + 1) body v.server = .error x) :
    ∃ w', pushPart e path id size offset tmpfn v = (.error x, w') := by
  have hput : sia_worker_put_multipart_from_file e path id body.length tmpfn
      (offset / e.partBytes + 1) v = _ :=
    put_from_file_apply hfn
  rw [hans] at hput
  rw [pushPart, Exec.get_bind, hfn, Option.getD_some]
  exact ⟨_, Exec.bind_of_error hput⟩

end Halves

/-- How a multipart write can end. -/
inductive WriteOutcome (path : CStr) (buf : Bytes) (offset : Nat) (w : World σ) :
    Except Fault Int × World σ → Prop
  | fault (x : Fault) (w' : World σ) : WriteOutcome path buf offset w (.error x, w')
  | early {status : Int} (hneg : status < 0) :
    WriteOutcome path buf offset w (.ok status, askedID e path w)
  | unopened {tmpfn : CStr} {v : World σ} (hv : Opened e path offset w tmpfn v)
    (hopen : e.host.fopen w.appends = false) :
    WriteOutcome path buf offset w (.ok (- EIO), { v with appends := v.appends + 1 })
  | staged {tmpfn : CStr} {v : World σ} (hv : Opened e path offset w tmpfn v) :
    WriteOutcome path buf offset w (.ok buf.length, appended e tmpfn buf v)
  | refused {tmpfn : CStr} {v w' : World σ} (hv : Opened e path offset w tmpfn v)
    (hopen : e.host.fopen w.appends = true) (href : Refused e path tmpfn buf offset w)
    (huploads : w'.uploads = v.uploads) (htmp : w'.tmp = (appended e tmpfn buf v).tmp)
    (hnames : w'.names = v.names) : WriteOutcome path buf offset w (.ok (- EIO), w')
  | accepted {tmpfn : CStr} {v w' : World σ} (hv : Opened e path offset w tmpfn v)
    (hpush : ∃ id reply, reply.status < 300 ∧ w'.trace.getLast? =
      some (.worker_put_multipart path id (offset / e.partBytes + 1) (stagedAfter e tmpfn buf w),
        reply)) :
    WriteOutcome path buf offset w (.ok buf.length, w')

section Writes

variable {e} {w v w' : World σ} {path tmpfn : CStr} {offset : Nat} {buf : Bytes}

theorem appended_tmp (hv : Opened e path offset w tmpfn v) :
    (appended e tmpfn buf v).tmp tmpfn = some (stagedAfter e tmpfn buf w) := by
  show Function.update v.tmp tmpfn (some (stagedAfter e tmpfn buf v)) tmpfn = _
  rw [Function.update_self, hv.stagedAfter_eq]

/-- A push that is answered. -/
theorem finishWrite_pushed (hv : Opened e path offset w tmpfn v)
    (hopen : e.host.fopen w.appends = true) (hlast : 0 < lastWrite e buf.length offset)
    {ans : Option CStr}
    (hans : putAnswer e path (resolvedID e path w.server) (offset / e.partBytes + 1)
      (stagedAfter e tmpfn buf w) (askedID e path w).server = .ok ans) :
    ∃ w', finishWrite e path (resolvedID e path w.server) buf offset tmpfn v =
        (.ok (if ans = none then - EIO else buf.length), w') ∧
      (ans = none → w'.uploads = v.uploads ∧ w'.tmp = (appended e tmpfn buf v).tmp ∧
        w'.names = v.names) ∧
      w'.trace = v.trace ++ (askAll e (putRequests path (resolvedID e path w.server)
        (offset / e.partBytes + 1) (stagedAfter e tmpfn buf w)) v.server).2 := by
  obtain ⟨u, hu⟩ := hv.node
  obtain ⟨i, hi, -, -⟩ := find_upload_by_path_ok hu
  have h0 : offset ≠ 0 := by
    rintro rfl
    exact e.geometry.not_pushes_zero _ ((lastWrite_pos_iff e _ _).mp hlast)
  rw [← hv.server] at hans
  obtain ⟨w', hw', huploads, htmp, hnames, hsent⟩ :=
    pushPart_apply (w := appended e tmpfn buf v) hi h0 (stagingOf_slot hv.name)
      (appended_tmp hv) hans buf.length
  rw [finishWrite_appended (by rw [hv.appends, hopen]), if_pos hlast]
  refine ⟨w', hw', ?_, hsent.trace⟩
  rintro rfl
  refine ⟨huploads, ?_, hnames⟩
  rw [htmp, ← appended_tmp hv]
  exact Function.update_eq_self _ _

/-- What becomes of a write once its file is open. -/
theorem finishWrite_outcome (hv : Opened e path offset w tmpfn v) :
    WriteOutcome e path buf offset w
      (finishWrite e path (resolvedID e path w.server) buf offset tmpfn v) := by
  cases hopen : e.host.fopen w.appends with
  | false =>
    rw [finishWrite_unopened (by rw [hv.appends, hopen])]
    exact .unopened hv hopen
  | true =>
    by_cases hlast : 0 < lastWrite e buf.length offset
    · cases hans : putAnswer e path (resolvedID e path w.server) (offset / e.partBytes + 1)
          (stagedAfter e tmpfn buf w) (askedID e path w).server with
      | error x =>
        rw [← hv.server] at hans
        obtain ⟨w', hw'⟩ := pushPart_error (v := appended e tmpfn buf v) buf.length
          (appended_tmp hv) hans
        rw [finishWrite_appended (by rw [hv.appends, hopen]), if_pos hlast, hw']
        exact .fault x w'
      | ok ans =>
        obtain ⟨w', hw', hrefused, htrace⟩ := finishWrite_pushed hv hopen hlast hans
        rw [hw']
        cases ans with
        | none =>
          obtain ⟨huploads, htmp, hnames⟩ := hrefused rfl
          exact .refused hv hopen ⟨hlast, hans⟩ huploads htmp hnames
        | some tag =>
          obtain ⟨id, hid, htag⟩ := putAnswer_tag hans
          obtain ⟨reply, hreply, hpush⟩ : ∃ reply, putTag reply = some tag ∧
              w'.trace.getLast? = some (.worker_put_multipart path id (offset / e.partBytes + 1)
                (stagedAfter e tmpfn buf w), reply) := by
            refine ⟨_, htag, ?_⟩
            rw [htrace, hid, hv.server]
            exact List.getLast?_concat
          refine .accepted hv ⟨id, reply, ?_, hpush⟩
          by_contra hstatus
          rw [putTag, if_neg hstatus] at hreply
          cases hreply
    · rw [finishWrite_appended (by rw [hv.appends, hopen]), if_neg hlast]
      exact .staged hv

theorem siafs_write_opened (hH : e.hugeFiles = true)
    (hmulti : ¬ (offset = 0 ∧ buf.length < e.small)) (hupload : HasUpload e path offset w)
    (hname : stagingOf e path offset w = some tmpfn) :
    ∃ v, siafs_write e path buf offset w =
        finishWrite e path (resolvedID e path w.server) buf offset tmpfn v ∧
      Opened e path offset w tmpfn v := by
  obtain ⟨v, hstage, hv⟩ := openStage_opened hupload hname
  refine ⟨v, ?_, hv⟩
  rw [siafs_write, if_neg hmulti, if_pos hH, writeHuge_eq, Exec.bind_of_ok hstage]

theorem write_outcome (path : CStr) (w : World σ) (hH : e.hugeFiles = true)
    (hmulti : ¬ (offset = 0 ∧ buf.length < e.small)) :
    WriteOutcome e path buf offset w (siafs_write e path buf offset w) := by
  by_cases hreach : HasUpload e path offset w ∧ ∃ tmpfn, stagingOf e path offset w = some tmpfn
  · obtain ⟨hupload, tmpfn, hname⟩ := hreach
    obtain ⟨v, hwrite, hv⟩ := siafs_write_opened hH hmulti hupload hname
    rw [hwrite]
    exact finishWrite_outcome hv
  · rw [siafs_write, if_neg hmulti, if_pos hH, writeHuge_eq]
    rcases openStage_early_or_fault hreach with ⟨x, w', hstage⟩ | ⟨status, hstage, hneg⟩
    · rw [Exec.bind_of_error hstage]
      exact .fault x w'
    · rw [Exec.bind_of_ok hstage]
      exact .early hneg

/-! ### Writes that fail -/

/-- Nothing is staged otherwise in `w'` than in `w`. -/
structure SameStages (w w' : World σ) : Prop where
  uploads : w'.uploads = w.uploads
  names : w'.names = w.names
  files : ∀ tmpfn, (w'.tmp tmpfn).getD [] = (w.tmp tmpfn).getD []

theorem SameStages.sameUploads (h : SameStages w w') : SameUploads w w' := by
  refine ⟨h.uploads, fun i s => ?_⟩
  rw [stagedBytes, stagedBytes, h.uploads]
  cases slotName w.uploads i s with
  | none => rfl
  | some tmpfn => exact congrArg some (h.files tmpfn)

/-- A write that fails and does not spoil what is staged. -/
theorem sameStages_of_failed (hH : e.hugeFiles = true)
    (hmulti : ¬ (offset = 0 ∧ buf.length < e.small)) (hspoils : ¬ Spoils e path buf offset w)
    {status : Int} (hwrite : siafs_write e path buf offset w = (.ok status, w'))
    (hneg : status < 0) : SameStages w w' := by
  have hout := write_outcome path w hH hmulti
  rw [hwrite] at hout
  have hsize : ¬ (buf.length : Int) < 0 := Int.not_lt.mpr (Int.natCast_nonneg _)
  cases hout with
  | early hneg => exact ⟨rfl, rfl, fun _ => rfl⟩
  | staged hv => exact absurd hneg hsize
  | accepted hv hpush => exact absurd hneg hsize
  | unopened hv hopen =>
    have hstart : offset % e.partBytes ≠ 0 := fun hstart =>
      hspoils ⟨hv.upload, _, hv.name, .inl ⟨hopen, hstart⟩⟩
    obtain ⟨huploads, hnames⟩ := hv.same hstart
    exact ⟨huploads, hnames, fun tmpfn => by rw [hv.tmp]⟩
  | @refused tmpfn v _ hv hopen href huploads htmp hnames =>
    have hrest : ¬ (offset % e.partBytes = 0 ∨ written e buf w ≠ []) := fun hrest =>
      hspoils ⟨hv.upload, _, hv.name, .inr ⟨hopen, href, hrest⟩⟩
    rw [not_or, not_not] at hrest
    obtain ⟨huploads', hnames'⟩ := hv.same hrest.1
    refine ⟨huploads.trans huploads', hnames.trans hnames', fun fn => ?_⟩
    rw [htmp]
    show (Function.update v.tmp tmpfn (some (stagedAfter e tmpfn buf v)) fn).getD [] = _
    rw [hv.stagedAfter_eq, stagedAfter, hrest.2, List.append_nil, hv.tmp]
    by_cases hfn : fn = tmpfn
    · rw [hfn, Function.update_self]
      rfl
    · rw [Function.update_of_ne hfn]

/-- A name just returned by `tmpnam` is in no slot. -/
theorem Recorded.fresh (hrec : Recorded e w) (hI : Function.Injective e.host.tmpnam) (i : Nat)
    (s : Fin SIA_MAX_PARTS) (n : Nat) : slotName w.uploads i s ≠ some (stagingName e w.names n) := by
  intro h
  obtain ⟨k, hk, he⟩ := hrec i s _ h
  have := stagingName_inj e hI he
  omega

/-- A file just named is in no slot of before. -/
theorem Opened.changes (hv : Opened e path offset w tmpfn v) (hrec : Recorded e w)
    (hI : Function.Injective e.host.tmpnam) (hstart : offset % e.partBytes = 0) :
    v.uploads ≠ w.uploads := by
  intro hsame
  obtain ⟨i, s, -, hslot⟩ := hv.slot
  have hname := hv.name
  rw [stagingOf, dif_pos (stagingOf_slot hname), if_pos hstart] at hname
  rw [hsame, ← hname] at hslot
  exact hrec.fresh hI i s _ hslot

/-- A write that spoils what is staged fails, and does change it. -/
theorem not_failsCleanly_of_spoils (hH : e.hugeFiles = true)
    (hI : Function.Injective e.host.tmpnam) (hrec : Recorded e w)
    (hmulti : ¬ (offset = 0 ∧ buf.length < e.small)) (hspoils : Spoils e path buf offset w) :
    ¬ FailsCleanly e path buf offset w := by
  intro hclean
  obtain ⟨hupload, tmpfn, hname, hfails⟩ := hspoils
  obtain ⟨v, hwrite, hv⟩ := siafs_write_opened hH hmulti hupload hname
  have hneg : - EIO < 0 := by decide
  rcases hfails with ⟨hopen, hstart⟩ | ⟨hopen, href, hrest⟩
  · rw [finishWrite_unopened (by rw [hv.appends, hopen])] at hwrite
    exact hv.changes hrec hI hstart (hclean _ _ hwrite hneg).uploads
  · obtain ⟨w', hw', hrefused, -⟩ := finishWrite_pushed hv hopen href.1 href.2
    obtain ⟨huploads, htmp, -⟩ := hrefused rfl
    have hsame := hclean _ _ (hwrite.trans hw') hneg
    by_cases hstart : offset % e.partBytes = 0
    · exact hv.changes hrec hI hstart (huploads.symm.trans hsame.uploads)
    · -- the bytes appended are still there
      obtain ⟨i, s, -, hslot⟩ := hv.slot
      rw [(hv.same hstart).1] at hslot
      have hstaged := hsame.staged i s
      rw [stagedBytes, stagedBytes, hsame.uploads, hslot, Option.map_some, Option.map_some,
        Option.some.injEq, htmp, appended_tmp hv] at hstaged
      exact hrest.resolve_left hstart (List.self_eq_append_right.mp hstaged.symm)

/-! ### The same write until it succeeds -/

/-- What the part of a write holds after it: what was staged and then the buffer. -/
def partBody (e : Env σ) (path : CStr) (buf : Bytes) (offset : Nat) (w : World σ) : Option Bytes :=
  (stagingOf e path offset w).map fun tmpfn => (w.tmp tmpfn).getD [] ++ buf

/-- The part of a write has come to hold `b`: it is staged, or has been pushed and
accepted. -/
def ComesTo (e : Env σ) (path : CStr) (offset : Nat) (b : Bytes) (w : World σ) : Prop :=
  (∃ tmpfn i, ∃ s : Fin SIA_MAX_PARTS, s.val = offset / e.partBytes ∧
    slotName w.uploads i s = some tmpfn ∧ w.tmp tmpfn = some b) ∨
  ∃ id reply, reply.status < 300 ∧
    w.trace.getLast? = some (.worker_put_multipart path id (offset / e.partBytes + 1) b, reply)

theorem SameStages.trans {w'' : World σ} (h : SameStages w w') (h' : SameStages w' w'') :
    SameStages w w'' :=
  ⟨h'.uploads.trans h.uploads, h'.names.trans h.names, fun fn => (h'.files fn).trans (h.files fn)⟩

theorem SameStages.partBody (h : SameStages w w') (path : CStr) (buf : Bytes) (offset : Nat) :
    partBody e path buf offset w' = partBody e path buf offset w := by
  have hname : stagingOf e path offset w' = stagingOf e path offset w := by
    rw [stagingOf, stagingOf, h.uploads, h.names]
  rw [SiaFS.partBody, SiaFS.partBody, hname]
  cases stagingOf e path offset w with
  | none => rfl
  | some tmpfn => exact congrArg some (congrArg (· ++ buf) (h.files tmpfn))

/-- A write that succeeds and writes all its bytes. -/
theorem comesTo_of_succeeded (hH : e.hugeFiles = true)
    (hmulti : ¬ (offset = 0 ∧ buf.length < e.small))
    {size : Int} (hwrite : siafs_write e path buf offset w = (.ok size, w')) (hsize : 0 ≤ size)
    (hall : e.host.fwrite w.appends buf.length = buf.length) :
    ∃ b, partBody e path buf offset w = some b ∧ ComesTo e path offset b w' := by
  have hout := write_outcome path w hH hmulti
  rw [hwrite] at hout
  have hbody : ∀ {tmpfn v}, Opened e path offset w tmpfn v →
      partBody e path buf offset w = some (stagedAfter e tmpfn buf w) := by
    intro tmpfn v hv
    rw [partBody, hv.name, stagedAfter, written, hall, List.take_length]
    rfl
  cases hout with
  | early hneg => exact absurd hneg (Int.not_lt.mpr hsize)
  | unopened hv hopen => exact absurd hsize (by decide)
  | refused hv hopen href huploads htmp hnames => exact absurd hsize (by decide)
  | staged hv =>
    obtain ⟨i, s, hs, hslot⟩ := hv.slot
    exact ⟨_, hbody hv, .inl ⟨_, i, s, hs, hslot, appended_tmp hv⟩⟩
  | accepted hv hpush => exact ⟨_, hbody hv, .inr hpush⟩

/-- After attempts that fail without spoiling anything the part is still to hold what
it was to hold before. -/
theorem sameStages_of_attempts (hH : e.hugeFiles = true)
    (hmulti : ¬ (offset = 0 ∧ buf.length < e.small)) {attempts : List Unit} {statuses : List Int}
    (hcond : Exec.Along (fun _ w => ¬ Spoils e path buf offset w)
      (fun _ => siafs_write e path buf offset) attempts w)
    (hrun : Exec.runAll (fun _ => siafs_write e path buf offset) attempts w = (.ok statuses, w'))
    (hneg : ∀ status ∈ statuses, status < 0) : SameStages w w' := by
  induction attempts generalizing w statuses with
  | nil =>
    cases hrun
    exact ⟨rfl, rfl, fun _ => rfl⟩
  | cons attempt attempts ih =>
    obtain ⟨status, w₁, hfirst, hrest⟩ := Exec.bind_eq_ok hrun
    obtain ⟨statuses', w₂, hrest, hend⟩ := Exec.bind_eq_ok hrest
    cases hend
    have hfailed := sameStages_of_failed hH hmulti hcond.1 hfirst
      (hneg status List.mem_cons_self)
    exact hfailed.trans (ih (hcond.2 status w₁ hfirst) hrest fun s hs =>
      hneg s (List.mem_cons_of_mem _ hs))

end Writes

/-! ## On a mount -/

/-- A C library whose second `fopen` for appending fails. -/
def secondFails : Host := { plainHost with fopen := fun k => k != 1 }

def secondFailsMount : Env Store := { mount .fuse2 true (fun _ => false) with host := secondFails }

/-- The first block of a file. -/
def firstBlock : List Op := [.write (lit "/a") (List.replicate 4096 1) 0]

def afterBlock (e : Env Store) : World Store :=
  (Exec.runAll (perform e) firstBlock (mounted Store.blank none)).2

/-- The last byte of the file. -/
def lastByte (e : Env Store) : Sia Store Int := siafs_write e (lit "/a") [1] 4096

/-- A run by its two results. -/
theorem run_eq {α : Type} {m : Sia Store α} {w : World Store} {r : Except Fault α}
    (h : (m w).1 = r) : m w = (r, (m w).2) := Prod.ext h rfl

end SiaFS
