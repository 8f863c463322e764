/-
What `opt.verbose` changes.

With it the staging file of a part stays behind after the push, and a release asks
for the parts of the upload before it completes it.  So two runs over the same
server that differ in the option alone hold the same files, but for those that the
quiet run has removed.  They send the same requests as long as no write appends to
one of these.
-/
import SiaFS.Lib.Alike
import SiaFS.Backend.Renterd
import SiaFS.Upload.Release

namespace SiaFS

open Exec

variable {σ : Type}

/-- The mount with the option set or not. -/
def Env.withVerbose (e : Env σ) (verbose : Bool) : Env σ := { e with verbose := verbose }

/-! ## Which files are left behind -/

variable (e : Env σ)

/-- The staging file that a write appends to, which is none for a small file. -/
def stagedFile (path : CStr) (buf : Bytes) (offset : Nat) (w : World σ) : Option CStr :=
  if offset = 0 ∧ buf.length < e.small then none
  else if offset % e.partBytes = 0 then some (stagingName e w.names (offset / e.partBytes))
  else (nodeNamed w.uploads path).bind fun u =>
    if h : offset / e.partBytes < SIA_MAX_PARTS then (u.part ⟨_, h⟩).tmpfn else none

/-- The operation appends to the file. -/
def AppendsTo (w : World σ) (fn : CStr) : Op → Prop
  | .write path buf offset => stagedFile e path buf offset w = some fn
  | _ => False

/-- The operation pushes the file as a part, and the push is accepted. -/
def Pushes (w : World σ) (fn : CStr) : Op → Prop
  | .write path buf offset =>
    stagedFile e path buf offset w = some fn ∧ e.geometry.pushes offset buf.length ∧
      (siafs_write e path buf offset w).1 = .ok (buf.length : Int)
  | _ => False

/-- No write of the run appends to a file that an earlier one has pushed, or to one
in `pushed`. -/
def SparesPushed : (CStr → Prop) → List Op → World σ → Prop
  | _, [], _ => True
  | pushed, op :: ops, w =>
    (∀ fn, AppendsTo e w fn op → ¬ pushed fn) ∧
      ∀ a w', perform e op w = (.ok a, w') →
        SparesPushed (fun fn => pushed fn ∨ Pushes e w fn op) ops w'

/-- A write or a release. -/
def Op.Uploads : Op → Prop
  | .write _ _ _ | .release _ => True
  | _ => False

/-- The requests sent and the replies received, but for the listings of parts. -/
def exchanges (w : World σ) : List (Request × Reply) :=
  w.trace.filter fun x => match x.1 with
    | .multipart_listparts _ _ => false
    | _ => true

/-- The second state is that of the verbose run, with the files `pushed` possibly
left behind. -/
structure Mirrors (pushed : CStr → Prop) (w w' : World σ) : Prop where
  same : w' = { w with tmp := w'.tmp, trace := w'.trace }
  exchanges : exchanges w' = exchanges w
  file : ∀ fn, ¬ pushed fn → w'.tmp fn = w.tmp fn

/-- What is left of it after a fault. -/
def SameExchanges (w w' : World σ) : Prop := exchanges w' = exchanges w

/-! ## The steps of a write -/

section Steps

variable {e} {pushed : CStr → Prop} {w w' : World σ} {α β : Type}

theorem mirrors_self (pushed : CStr → Prop) (w : World σ) : Mirrors pushed w w :=
  ⟨rfl, rfl, fun _ _ => rfl⟩

/-- The outcomes are the same, and so are the states. -/
abbrev MirrorsRun (pushed : CStr → Prop) :
    Except Fault α × World σ → Except Fault α × World σ → Prop :=
  Alike (fun _ => Mirrors pushed) SameExchanges

/-- Run in two such states, the computation does the same in both. -/
def IgnoresFiles (m : Sia σ α) : Prop :=
  ∀ pushed w w', Mirrors pushed w w' → MirrorsRun pushed (m w) (m w')

namespace Mirrors

variable (h : Mirrors pushed w w')

include h

theorem uploads : w'.uploads = w.uploads := by rw [h.same]

theorem names : w'.names = w.names := by rw [h.same]

theorem appends : w'.appends = w.appends := by rw [h.same]

theorem server : w'.server = w.server := by rw [h.same]

theorem mono {pushed' : CStr → Prop} (hmono : ∀ fn, pushed fn → pushed' fn) :
    Mirrors pushed' w w' :=
  ⟨h.same, h.exchanges, fun fn hfn => h.file fn fun hp => hfn (hmono fn hp)⟩

/-- Both states change alike, but for the files and the trace. -/
theorem update {f : World σ → World σ} (hf : f w' = { f w with tmp := w'.tmp, trace := w'.trace })
    (htmp : (f w).tmp = w.tmp) (htrace : (f w).trace = w.trace) :
    Mirrors pushed (f w) (f w') := by
  have htmp' : (f w').tmp = w'.tmp := by rw [hf]
  have htrace' : (f w').trace = w'.trace := by rw [hf]
  refine ⟨by rw [htmp', htrace']; exact hf, ?_, fun fn hfn => ?_⟩
  · unfold SiaFS.exchanges
    rw [htrace, htrace']
    exact h.exchanges
  · rw [htmp, htmp']
    exact h.file fn hfn

theorem setUploads (uploads : List SiaUpload) :
    Mirrors pushed { w with uploads := uploads } { w' with uploads := uploads } := by
  refine h.update (f := fun v => { v with uploads := uploads }) ?_ rfl rfl
  rw [h.same]

/-- The search for the node of a path, and what is done with it. -/
theorem find {path : CStr} {Q : α → World σ → World σ → Prop} {f f' : Option Nat → Sia σ α}
    (hf : ∀ found, find_upload_by_path w.uploads path = .ok found →
      Alike Q SameExchanges (f found w) (f' found w')) :
    Alike Q SameExchanges ((Exec.lift (find_upload_by_path w.uploads path) >>= f) w)
      ((Exec.lift (find_upload_by_path w'.uploads path) >>= f') w') := by
  rw [h.uploads]
  cases hfound : find_upload_by_path w.uploads path with
  | error x => exact .error h.exchanges
  | ok found => exact hf found hfound

end Mirrors

namespace IgnoresFiles

theorem pure (a : α) : IgnoresFiles (pure a : Sia σ α) := fun _ _ _ h => .ok h

theorem lift (x : Except Fault α) : IgnoresFiles (Exec.lift x : Sia σ α) := fun _ _ _ h =>
  alike_lift (fun _ _ => h) fun _ _ => h.exchanges

theorem bind {m : Sia σ α} {f : α → Sia σ β} (hm : IgnoresFiles m)
    (hf : ∀ a, IgnoresFiles (f a)) : IgnoresFiles (m >>= f) := fun pushed w w' h =>
  alike_bind (hm pushed w w' h) fun a v v' _ hv => hf a pushed v v' hv

theorem send (r : Request) : IgnoresFiles (send e r) := by
  intro pushed w w' h
  unfold SiaFS.send
  rw [h.server]
  refine .ok ⟨?_, ?_, h.file⟩
  · rw [h.same]
  · unfold SiaFS.exchanges
    rw [List.filter_append, List.filter_append]
    exact congrArg (· ++ _) h.exchanges

theorem get_uploadid (path : CStr) : IgnoresFiles (sia_bus_get_uploadid e path) := by
  refine bind (bind (send _) fun _ => pure _) fun listing => ?_
  cases (cJSON_Parse listing).bind (recoveredUploadID path) with
  | some answer => exact pure _
  | none => exact bind (bind (send _) fun _ => pure _) fun _ => pure _

theorem uploadNode (path : CStr) (id : Option CStr) (offset : Nat) :
    IgnoresFiles (σ := σ) (uploadNode path id offset) := by
  intro pushed w w' h
  unfold SiaFS.uploadNode
  by_cases h0 : offset = 0
  · rw [if_pos h0]
    cases id with
    | none => exact .ok h
    | some id =>
      show Alike _ _ (Except.ok (Except.ok (_ - 1)), _) (Except.ok (Except.ok (_ - 1)), _)
      rw [h.uploads]
      exact .ok (h.setUploads _)
  · rw [if_neg h0]
    refine h.find fun found _ => ?_
    cases found with
    | none => exact .ok h
    | some node => exact .ok h

theorem stagingFile (node offset : Nat) : IgnoresFiles (stagingFile e node offset) := by
  intro pushed w w' h
  unfold SiaFS.stagingFile
  rw [Exec.get_bind, Exec.get_bind]
  by_cases hs : offset / e.partBytes < SIA_MAX_PARTS
  · rw [dif_pos hs, dif_pos hs]
    by_cases hz : offset % e.partBytes = 0
    · rw [if_pos hz, if_pos hz, h.names]
      refine .ok (h.update (f := fun v => { v with
        uploads := v.uploads.modify node
          (·.setTmpfn ⟨_, hs⟩ (stagingName e w.names (offset / e.partBytes)))
        names := v.names + 1 }) ?_ rfl rfl)
      rw [h.same]
    · rw [if_neg hz, if_neg hz, h.uploads]
      cases (w.uploads[node]?).bind fun u => (u.part ⟨_, hs⟩).tmpfn with
      | none => exact .error h.exchanges
      | some fn => exact .ok h
  · rw [dif_neg hs, dif_neg hs]
    exact .error h.exchanges

end IgnoresFiles

/-- The node is the one found for the path, after the start of the file. -/
theorem uploadNode_found {path : CStr} {id : Option CStr} {offset node : Nat} {v : World σ}
    (h : uploadNode path id offset w = (.ok (.ok node), v)) :
    v.names = w.names ∧ (offset ≠ 0 → v.uploads = w.uploads ∧
      ∃ u, nodeNamed w.uploads path = some u ∧ w.uploads[node]? = some u) := by
  unfold uploadNode at h
  by_cases h0 : offset = 0
  · rw [if_pos h0] at h
    refine ⟨?_, fun hne => absurd h0 hne⟩
    cases id with
    | none => cases h
    | some id =>
      cases h
      rfl
  · rw [if_neg h0, Exec.get_bind] at h
    obtain ⟨found, v₁, hfound, hrest⟩ := Exec.bind_eq_ok h
    obtain ⟨hi, rfl⟩ : find_upload_by_path w.uploads path = .ok found ∧ w = v₁ :=
      Prod.mk.inj hfound
    cases found with
    | none => cases hrest
    | some i =>
      cases hrest
      exact ⟨rfl, fun _ => ⟨rfl, find_upload_by_path_eq_some hi⟩⟩

theorem stagingFile_name {node offset : Nat} {fn : CStr} {v : World σ}
    (h : stagingFile e node offset w = (.ok fn, v)) :
    (offset % e.partBytes = 0 ∧ fn = stagingName e w.names (offset / e.partBytes)) ∨
      offset % e.partBytes ≠ 0 ∧ ∃ hs : offset / e.partBytes < SIA_MAX_PARTS,
        slotName w.uploads node ⟨_, hs⟩ = some fn := by
  by_cases hs : offset / e.partBytes < SIA_MAX_PARTS
  · by_cases hz : offset % e.partBytes = 0
    · rw [stagingFile_new hs hz] at h
      cases h
      exact Or.inl ⟨hz, rfl⟩
    · rw [stagingFile_recorded hs hz] at h
      refine Or.inr ⟨hz, hs, ?_⟩
      cases hfn : slotName w.uploads node ⟨_, hs⟩ with
      | none =>
        rw [hfn] at h
        cases h
      | some fn' =>
        rw [hfn] at h
        cases h
        rfl
  · rw [stagingFile_past (Nat.le_of_not_lt hs)] at h
    cases h

/-- The file that a write comes to by its node. -/
theorem stagedFile_of_stage {path : CStr} {buf : Bytes} {id : Option CStr} {offset node : Nat}
    {fn : CStr} {v v₁ v₂ : World σ} (hsmall : ¬ (offset = 0 ∧ buf.length < e.small))
    (huploads : v.uploads = w.uploads) (hnames : v.names = w.names)
    (hnode : uploadNode path id offset v = (.ok (.ok node), v₁))
    (hfn : stagingFile e node offset v₁ = (.ok fn, v₂)) :
    stagedFile e path buf offset w = some fn := by
  obtain ⟨hnames₁, hfound⟩ := uploadNode_found hnode
  unfold stagedFile
  rw [if_neg hsmall]
  rcases stagingFile_name hfn with ⟨hz, rfl⟩ | ⟨hz, hs, hslot⟩
  · rw [if_pos hz, hnames₁, hnames]
  · have h0 : offset ≠ 0 := by
      rintro rfl
      exact hz (Nat.zero_mod _)
    obtain ⟨huploads₁, u, hu, hnode⟩ := hfound h0
    rw [slotName, huploads₁, hnode] at hslot
    rw [if_neg hz, ← huploads, hu]
    show (if hs : _ then _ else _) = _
    rw [dif_pos hs]
    exact hslot

theorem appendFile_mirrors (h : Mirrors pushed w w') {fn : CStr} (hfn : ¬ pushed fn)
    (buf : Bytes) : MirrorsRun pushed (appendFile e fn buf w) (appendFile e fn buf w') := by
  unfold appendFile
  rw [Exec.get_bind, Exec.get_bind, h.appends]
  by_cases hopen : e.host.fopen w.appends = true
  · rw [if_pos hopen]
    refine .ok ⟨?_, h.exchanges, fun g hg => ?_⟩
    · rw [h.same]
    · show Function.update _ _ _ g = Function.update _ _ _ g
      by_cases hgf : g = fn
      · rw [hgf, Function.update_self, Function.update_self]
        rw [h.appends, h.file fn hfn]
      · rw [Function.update_of_ne hgf, Function.update_of_ne hgf, h.file g hg]
  · rw [if_neg hopen]
    refine .ok (h.update (f := fun v => { v with appends := v.appends + 1 }) ?_ rfl rfl)
    rw [h.same]

theorem put_from_file_mirrors (h : Mirrors pushed w w') {fn : CStr} (hfn : ¬ pushed fn)
    (path : CStr) (id : Option CStr) (size n : Nat) :
    MirrorsRun pushed (sia_worker_put_multipart_from_file e path id size fn n w)
      (sia_worker_put_multipart_from_file e path id size fn n w') := by
  refine alike_bind (IgnoresFiles.lift _ pushed w w' h) fun id v v' hv h' => ?_
  obtain rfl : w = v := congrArg Prod.snd hv
  rw [Exec.get_bind, Exec.get_bind, h'.file fn hfn]
  cases w.tmp fn with
  | none => exact .ok h'
  | some contents =>
    refine alike_bind (IgnoresFiles.send _ pushed w v' h') fun reply v v' _ h' => ?_
    by_cases hstatus : reply.status < 300
    · rw [if_pos hstatus]
      exact IgnoresFiles.bind (IgnoresFiles.lift _) (fun _ => IgnoresFiles.pure _) pushed v v' h'
    · rw [if_neg hstatus]
      exact .ok h'

theorem IgnoresFiles.etagNode (path : CStr) (id : Option CStr) (offset : Nat) :
    IgnoresFiles (σ := σ) (etagNode path id offset) := by
  intro pushed w w' h
  unfold SiaFS.etagNode
  by_cases h0 : offset = 0
  · rw [if_pos h0]
    cases id with
    | none => exact .error h.exchanges
    | some id =>
      show Alike _ _ (Except.ok (_ - 1), _) (Except.ok (_ - 1), _)
      rw [h.uploads]
      exact .ok (h.setUploads _)
  · rw [if_neg h0]
    refine h.find fun found _ => ?_
    cases found with
    | none => exact .error h.exchanges
    | some node => exact .ok h

theorem IgnoresFiles.recordEtag (node slot : Nat) (etag : CStr) :
    IgnoresFiles (σ := σ) (recordEtag node slot etag) := by
  intro pushed w w' h
  unfold SiaFS.recordEtag
  by_cases hs : slot < SIA_MAX_PARTS
  · rw [dif_pos hs]
    refine .ok (h.update (f := fun v => { v with
      uploads := v.uploads.modify node (·.setEtag ⟨slot, hs⟩ etag) }) ?_ rfl rfl)
    rw [h.same]
  · rw [dif_neg hs]
    exact .error h.exchanges

/-- After an accepted push the quiet run has removed the file, and the verbose one has
it still. -/
theorem pushPart_mirrors (h : Mirrors pushed w w') {fn : CStr} (hfn : ¬ pushed fn)
    (path : CStr) (id : Option CStr) (size offset : Nat) :
    Alike (fun (a : Int) => Mirrors fun g => pushed g ∨ g = fn ∧ a = size) SameExchanges
      (pushPart (e.withVerbose false) path id size offset fn w)
      (pushPart (e.withVerbose true) path id size offset fn w') := by
  unfold pushPart
  rw [Exec.get_bind, Exec.get_bind, h.file fn hfn]
  refine alike_bind (put_from_file_mirrors (e := e) h hfn _ _ _ _) fun etag v v' _ h => ?_
  cases etag with
  | none => exact .ok (h.mono fun _ => Or.inl)
  | some etag =>
    refine alike_bind (IgnoresFiles.etagNode _ _ _ pushed v v' h) fun node v v' _ h => ?_
    refine alike_bind (IgnoresFiles.recordEtag _ _ _ pushed v v' h) fun _ v v' _ h => ?_
    refine .ok ⟨?_, h.exchanges, fun g hg => ?_⟩
    · rw [h.same]
    · have hne : g ≠ fn := fun he => hg (Or.inr ⟨he, rfl⟩)
      show v'.tmp g = Function.update v.tmp fn none g
      rw [Function.update_of_ne hne, h.file g fun hp => hg (Or.inl hp)]

theorem writeHuge_mirrors {path : CStr} {buf : Bytes} {offset : Nat} (h : Mirrors pushed w w')
    (hsmall : ¬ (offset = 0 ∧ buf.length < e.small))
    (hspare : ∀ fn, stagedFile e path buf offset w = some fn → ¬ pushed fn) :
    Alike (fun (a : Int) => Mirrors fun fn => pushed fn ∨
        stagedFile e path buf offset w = some fn ∧
          e.geometry.pushes offset buf.length ∧ a = buf.length) SameExchanges
      (writeHuge (e.withVerbose false) path buf offset w)
      (writeHuge (e.withVerbose true) path buf offset w') := by
  unfold writeHuge
  refine alike_bind (IgnoresFiles.get_uploadid (e := e) path pushed w w' h) fun id v v' hid h => ?_
  have hv : v.uploads = w.uploads ∧ v.names = w.names := by
    have := (sia_bus_get_uploadid_apply e path w).symm.trans hid
    obtain rfl : sendAll e _ w = v := congrArg Prod.snd this
    exact ⟨rfl, rfl⟩
  refine alike_bind (IgnoresFiles.uploadNode path id offset pushed v v' h) fun r v₁ v₁' hr h => ?_
  cases r with
  | error status => exact .ok (h.mono fun _ => Or.inl)
  | ok node =>
    refine alike_bind (IgnoresFiles.stagingFile (e := e) node offset pushed v₁ v₁' h)
      fun fn v₂ v₂' hfn h => ?_
    have hstaged := stagedFile_of_stage (e := e) hsmall hv.1 hv.2 hr hfn
    have hpushed := hspare fn hstaged
    refine alike_bind (appendFile_mirrors (e := e) h hpushed buf) fun opened v₃ v₃' _ h => ?_
    cases opened with
    | false => exact .ok (h.mono fun _ => Or.inl)
    | true =>
      show Alike _ _ ((if 0 < lastWrite e buf.length offset then _ else _ : Sia σ Int) v₃)
        ((if 0 < lastWrite e buf.length offset then _ else _ : Sia σ Int) v₃')
      by_cases hlast : 0 < lastWrite e buf.length offset
      · rw [if_pos hlast, if_pos hlast]
        refine (pushPart_mirrors h hpushed path id buf.length offset).mono (fun a _ v v' hm => ?_)
          fun _ _ hE => hE
        refine hm.mono fun g hg => ?_
        rcases hg with hg | ⟨rfl, ha⟩
        · exact Or.inl hg
        · exact Or.inr ⟨hstaged, (lastWrite_pos_iff e _ _).mp hlast, ha⟩
      · rw [if_neg hlast, if_neg hlast]
        exact .ok (h.mono fun _ => Or.inl)

/-! ## A release -/

theorem IgnoresFiles.lookup (key : CStr) (r : Request) : IgnoresFiles (cachedRequest e key r) := by
  have hget : IgnoresFiles (σ := σ) (mc_get key) := by
    intro pushed w w' h
    show Alike _ _ (Except.ok (mc_lookup w key), w) (Except.ok (mc_lookup w' key), w')
    have hlookup : mc_lookup w' key = mc_lookup w key := by rw [h.same]; rfl
    rw [hlookup]
    exact .ok h
  have hset : ∀ payload, IgnoresFiles (σ := σ) (mc_set key payload SIA_METACACHE_TTL) := by
    intro payload pushed w w' h
    unfold mc_set
    refine .ok ⟨?_, h.exchanges, h.file⟩
    rw [h.same]
  refine bind hget fun payload => ?_
  cases payload with
  | some body => exact pure _
  | none => exact bind (send r) fun reply => bind (hset _) fun _ => pure _

theorem IgnoresFiles.releaseCheck (path : CStr) : IgnoresFiles (releaseCheck e path) := by
  refine bind (bind (lookup _ _) fun _ => lift _) fun is_file => ?_
  cases is_file with
  | true => exact pure _
  | false => exact bind (bind (lookup _ _) fun _ => pure _) fun _ => pure _

theorem IgnoresFiles.complete (path id : CStr) :
    IgnoresFiles (sia_bus_multipart_complete_json e path id) := by
  intro pushed w w' h
  unfold sia_bus_multipart_complete_json
  rw [Exec.get_bind, Exec.get_bind, h.uploads]
  exact bind (lift _) (fun _ => bind (send _) fun _ => pure _) pushed w w' h

/-- A server asked for the parts of an upload answers and does nothing else. -/
def ListsParts (server : σ → Request → Reply × σ) : Prop :=
  ∀ s path id, (server s (.multipart_listparts path id)).2 = s

theorem Mirrors.listparts (hparts : ListsParts e.server) (h : Mirrors pushed w w')
    (path id : CStr) : Mirrors pushed w (sendAll e [.multipart_listparts path id] w') := by
  refine ⟨?_, ?_, h.file⟩
  · unfold sendAll
    rw [show (askAll e [.multipart_listparts path id] w'.server).1 = w'.server from hparts _ _ _]
    rw [h.same]
  · unfold SiaFS.exchanges sendAll
    rw [List.filter_append]
    exact (List.append_nil _).trans h.exchanges

theorem completeUpload_mirrors (hparts : ListsParts e.server) (h : Mirrors pushed w w')
    (path : CStr) : MirrorsRun pushed (completeUpload (e.withVerbose false) path w)
      (completeUpload (e.withVerbose true) path w') := by
  unfold completeUpload
  rw [Exec.get_bind, Exec.get_bind]
  refine h.find fun found _ => ?_
  cases found with
  | none => exact .ok h
  | some node =>
    simp only [h.uploads]
    cases hu : w.uploads[node]? with
    | none => exact .ok h
    | some upload =>
      have hcomplete : IgnoresFiles (σ := σ) (sia_bus_multipart_complete_json e path
          upload.uploadID >>= fun _ => Pure.pure (0 : Int)) :=
        IgnoresFiles.bind (IgnoresFiles.complete path upload.uploadID) fun _ => IgnoresFiles.pure _
      exact hcomplete pushed w _ (h.listparts hparts path upload.uploadID)

end Steps

/-! ## Runs -/

section Runs

variable {e} {pushed : CStr → Prop} {w w' : World σ}

theorem siafs_write_mirrors (hH : e.hugeFiles = true) {path : CStr} {buf : Bytes} {offset : Nat}
    (h : Mirrors pushed w w')
    (hspare : ∀ fn, stagedFile e path buf offset w = some fn → ¬ pushed fn) :
    Alike (fun (a : Int) => Mirrors fun fn => pushed fn ∨ stagedFile e path buf offset w = some fn ∧
        e.geometry.pushes offset buf.length ∧ a = buf.length) SameExchanges
      (siafs_write (e.withVerbose false) path buf offset w)
      (siafs_write (e.withVerbose true) path buf offset w') := by
  unfold siafs_write
  by_cases hsmall : offset = 0 ∧ buf.length < e.small
  · have hput : IgnoresFiles (sia_worker_put_object e path buf >>= fun _ =>
        Pure.pure (buf.length : Int)) :=
      (IgnoresFiles.bind (IgnoresFiles.send _) fun _ => IgnoresFiles.pure _).bind
        fun _ => IgnoresFiles.pure _
    have hrun := (hput pushed w w' h).mono (R := fun (a : Int) => Mirrors fun fn => pushed fn ∨
        stagedFile e path buf offset w = some fn ∧ e.geometry.pushes offset buf.length ∧
          a = buf.length) (fun _ _ _ _ h => h.mono fun _ => Or.inl) fun _ _ h => h
    have hsmall' : ∀ b, offset = 0 ∧ buf.length < (e.withVerbose b).small := fun _ => hsmall
    rw [if_pos (hsmall' false), if_pos (hsmall' true)]
    exact hrun
  · have hsmall' : ∀ b, ¬ (offset = 0 ∧ buf.length < (e.withVerbose b).small) := fun _ => hsmall
    have hH' : ∀ b, (e.withVerbose b).hugeFiles = true := fun _ => hH
    rw [if_neg (hsmall' false), if_neg (hsmall' true), if_pos (hH' false), if_pos (hH' true)]
    exact writeHuge_mirrors h hsmall hspare

theorem siafs_release_mirrors (hparts : ListsParts e.server) (h : Mirrors pushed w w')
    (path : CStr) : MirrorsRun pushed (siafs_release (e.withVerbose false) path w)
      (siafs_release (e.withVerbose true) path w') := by
  refine alike_bind (IgnoresFiles.releaseCheck (e := e) path pushed w w' h) fun passed v v' _ h => ?_
  cases passed with
  | true => exact completeUpload_mirrors hparts h path
  | false => exact .ok h

/-- One write or release, run with the option set and without. -/
theorem perform_mirrors (hH : e.hugeFiles = true) (hparts : ListsParts e.server)
    (h : Mirrors pushed w w') {op : Op} (hop : op.Uploads)
    (hspare : ∀ fn, AppendsTo (e.withVerbose false) w fn op → ¬ pushed fn) :
    Alike (fun _ => Mirrors fun fn => pushed fn ∨ Pushes (e.withVerbose false) w fn op)
      SameExchanges (perform (e.withVerbose false) op w) (perform (e.withVerbose true) op w') := by
  cases op with
  | write path buf offset =>
    unfold perform
    refine alike_bind (siafs_write_mirrors hH h hspare) fun a v v' ha hv => ?_
    refine .ok (hv.mono fun fn hfn => ?_)
    rcases hfn with hfn | ⟨hfn, hp, rfl⟩
    · exact Or.inl hfn
    · exact Or.inr ⟨hfn, hp, by rw [ha]⟩
  | release path =>
    unfold perform
    refine alike_bind (siafs_release_mirrors hparts h path) fun a v v' _ hv => ?_
    exact .ok (hv.mono fun _ => Or.inl)
  | _ => exact hop.elim

theorem runAll_mirrors (hH : e.hugeFiles = true) (hparts : ListsParts e.server) {ops : List Op}
    (hops : ∀ op ∈ ops, op.Uploads) (h : Mirrors pushed w w')
    (hspare : SparesPushed (e.withVerbose false) pushed ops w) :
    Alike (fun _ => SameExchanges) SameExchanges
      (runAll (perform (e.withVerbose false)) ops w)
      (runAll (perform (e.withVerbose true)) ops w') := by
  induction ops generalizing pushed w w' with
  | nil => exact .ok h.exchanges
  | cons op ops ih =>
    have hstep := perform_mirrors hH hparts h (hops op List.mem_cons_self) hspare.1
    refine alike_bind hstep fun a v v' ha hv => ?_
    have hrest := ih (fun o ho => hops o (List.mem_cons_of_mem _ ho)) hv (hspare.2 a v ha)
    exact alike_bind hrest fun _ _ _ _ hE => .ok hE

end Runs

/-- Two runs of writes and releases over the same server, one with `opt.verbose` and
one without, return the same and send the same requests but for the listings of parts,
when no write appends to a staging file that an earlier one has pushed. -/
theorem verbose_sends_same (hH : e.hugeFiles = true) (hparts : ListsParts e.server)
    {ops : List Op} (hops : ∀ op ∈ ops, op.Uploads) {w : World σ}
    (hspare : SparesPushed (e.withVerbose false) (fun _ => False) ops w) :
    (runAll (perform (e.withVerbose true)) ops w).1 =
        (runAll (perform (e.withVerbose false)) ops w).1 ∧
      exchanges (runAll (perform (e.withVerbose true)) ops w).2 =
        exchanges (runAll (perform (e.withVerbose false)) ops w).2 := by
  have hrun := runAll_mirrors hH hparts hops (mirrors_self _ w) hspare
  exact ⟨hrun.result.symm, hrun.state⟩

/-- A block and a byte, then the release. -/
theorem verbose_sends_same_block_and_byte :
    exchanges (runAll (perform (hugeMount.withVerbose true))
        [.write (lit "/f") (List.replicate 131072 0) 0, .write (lit "/f") [0] 131072,
          .release (lit "/f")] (mounted Store.blank none)).2 =
      exchanges (runAll (perform (hugeMount.withVerbose false))
        [.write (lit "/f") (List.replicate 131072 0) 0, .write (lit "/f") [0] 131072,
          .release (lit "/f")] (mounted Store.blank none)).2 := by
  refine (verbose_sends_same (e := hugeMount) rfl (fun _ _ _ => rfl) ?_ ?_).2
  · intro op hop
    rcases List.mem_cons.mp hop with rfl | hop
    · trivial
    rcases List.mem_cons.mp hop with rfl | hop
    · trivial
    · rw [List.mem_singleton.mp hop]
      trivial
  · refine ⟨fun _ _ => not_false, fun _ _ _ => ⟨fun fn _ hp => ?_, fun _ _ _ => ?_⟩⟩
    · rcases hp with hp | hp
      · exact hp
      · exact hugeMount.geometry.not_pushes_zero _ hp.2.1
    · exact ⟨fun _ h => h.elim, fun _ _ _ => trivial⟩

/-- The numbers of the parts pushed, and how long they are. -/
def pushedParts (w : World σ) : List (Nat × Nat) :=
  (exchanges w).filterMap fun x => match x.1 with
    | .worker_put_multipart _ _ n body => some (n, body.length)
    | _ => none

/-- A block and two bytes after it, then the release. -/
def blockAndBytes : List Op :=
  [.write (lit "/f") (List.replicate 4096 0) 0, .write (lit "/f") [0] 4096,
    .write (lit "/f") [0] 4097, .release (lit "/f")]

/-- The second byte is pushed behind all that was there before. -/
theorem verbose_pushes_more :
    pushedParts (runAll (perform ((mount .fuse2 true fun _ => false).withVerbose true))
        blockAndBytes (mounted Store.blank none)).2 = [(1, 4097), (1, 4098)] ∧
      pushedParts (runAll (perform ((mount .fuse2 true fun _ => false).withVerbose false))
        blockAndBytes (mounted Store.blank none)).2 = [(1, 4097), (1, 1)] := by
  decide +kernel

end SiaFS
