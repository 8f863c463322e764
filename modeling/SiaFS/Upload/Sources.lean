/-
Where the bytes that are sent come from.

A part is pushed from a staging file, which is found by the path and the offset of the
write, under a name that `tmpnam` made up.  `Staged` gives every such name an owner, the
path and the slot it was made up for, and says of each file that it is woven from blocks
written to its owner.  So the body of a part never has a byte in it that was not written
to the path, at an offset of the part, whatever the server answers, whatever fails on the
way and however the writes of several paths are interleaved.
-/
import SiaFS.Lib.Woven
import SiaFS.Requests
import SiaFS.Upload.Session

namespace SiaFS

variable {σ : Type}

/-- What an operation writes to a part of a path. -/
def Op.block (e : Env σ) (path : CStr) (n : Nat) : Op → Option Bytes
  | .write path' buf offset => if path' = path ∧ e.partNumber offset = n then some buf else none
  | _ => none

/-- The body of a request is made of what the operations wrote to the path of the request. -/
def Request.Sourced (e : Env σ) (ops : List Op) : Request → Prop
  | .worker_put path body => body = [] ∨ Op.write path body 0 ∈ ops
  | .worker_put_multipart path _ n body => Woven (ops.filterMap (Op.block e path n)) body
  | _ => True

variable (e : Env σ)

/-- The `k`-th name of `tmpnam` was made up for the slot `(owner k).2` of an upload of the
path `(owner k).1`. -/
structure Staged (owner : Nat → CStr × Nat) (ops : List Op) (w : World σ) : Prop where
  recorded : ∀ u ∈ w.uploads, ∀ s fn, (u.part s).tmpfn = some fn →
    ∃ k < w.names, fn = stagingName e k s ∧ owner k = (u.name, s.val)
  files : ∀ k s bytes, w.tmp (stagingName e k s) = some bytes →
    k < w.names ∧ Woven (ops.filterMap (Op.block e (owner k).1 ((owner k).2 + 1))) bytes

/-- What was sent after `base`. -/
def SourcesSent (base : List (Request × Reply)) (ops : List Op) (w : World σ) : Prop :=
  ∃ t, w.trace = base ++ t ∧ ∀ x ∈ t, x.1.Sourced e ops

structure Sources (base : List (Request × Reply)) (ops : List Op) (w : World σ) : Prop where
  staged : ∃ owner, Staged e owner ops w
  sent : SourcesSent e base ops w

/-- `fn` is the staging file of a slot of the path. -/
structure OwnFile (base : List (Request × Reply)) (ops : List Op) (path : CStr) (slot : Nat)
    (fn : CStr) (w : World σ) : Prop where
  staged : ∃ owner, Staged e owner ops w ∧ ∃ k < w.names,
    fn = stagingName e k slot ∧ owner k = (path, slot)
  sent : SourcesSent e base ops w

variable {e} {owner : Nat → CStr × Nat} {ops more : List Op} {w w' : World σ}
  {base : List (Request × Reply)} {r : Request}

/-! ## Steps -/

theorem Request.Sourced.append (h : r.Sourced e ops) (more : List Op) :
    r.Sourced e (ops ++ more) := by
  cases r with
  | worker_put path body => exact h.imp id fun h => List.mem_append_left _ h
  | worker_put_multipart path id n body => exact h.filterMap_append more
  | _ => trivial

theorem Staged.append (h : Staged e owner ops w) (more : List Op) :
    Staged e owner (ops ++ more) w := by
  refine ⟨h.recorded, fun k s bytes hbytes => ?_⟩
  obtain ⟨hk, hwoven⟩ := h.files k s bytes hbytes
  exact ⟨hk, hwoven.filterMap_append more⟩

theorem SourcesSent.append (h : SourcesSent e base ops w) (more : List Op) :
    SourcesSent e base (ops ++ more) w := by
  obtain ⟨t, ht, hsent⟩ := h
  exact ⟨t, ht, fun x hx => (hsent x hx).append more⟩

theorem Sources.append (h : Sources e base ops w) (more : List Op) :
    Sources e base (ops ++ more) w := by
  obtain ⟨owner, hstaged⟩ := h.staged
  exact ⟨⟨owner, hstaged.append more⟩, h.sent.append more⟩

theorem Staged.same (h : Staged e owner ops w) (huploads : w'.uploads = w.uploads)
    (htmp : w'.tmp = w.tmp) (hnames : w'.names = w.names) : Staged e owner ops w' := by
  refine ⟨?_, ?_⟩
  · rw [huploads, hnames]
    exact h.recorded
  · rw [htmp, hnames]
    exact h.files

theorem Staged.link (h : Staged e owner ops w) {path id : CStr}
    (huploads : w'.uploads = append_upload w.uploads (newUpload path id))
    (htmp : w'.tmp = w.tmp) (hnames : w'.names = w.names) : Staged e owner ops w' := by
  refine ⟨fun u hu s fn hfn => ?_, ?_⟩
  · rw [hnames]
    rw [huploads] at hu
    rcases mem_append_upload hu with hu | rfl
    · exact h.recorded u hu s fn hfn
    · cases hfn
  · rw [htmp, hnames]
    exact h.files

theorem Staged.etag (h : Staged e owner ops w) {i : Nat} {s : Fin SIA_MAX_PARTS} {tag : CStr}
    (huploads : w'.uploads = w.uploads.modify i (·.setEtag s tag))
    (htmp : w'.tmp = w.tmp) (hnames : w'.names = w.names) : Staged e owner ops w' := by
  refine ⟨fun u hu t fn hfn => ?_, ?_⟩
  · rw [hnames]
    rw [huploads] at hu
    rcases mem_modify hu with hu | ⟨v, hv, rfl⟩
    · exact h.recorded u hu t fn hfn
    · have hpart : ((v.setEtag s tag).part t).tmpfn = (v.part t).tmpfn := by
        by_cases hst : t = s
        · subst hst
          simp [SiaUpload.setEtag]
        · simp [SiaUpload.setEtag, Function.update_of_ne hst]
      exact h.recorded v (List.mem_of_getElem? hv) t fn (hpart ▸ hfn)
  · rw [htmp, hnames]
    exact h.files

/-- A new name belongs to the slot it is recorded in, and to no file yet. -/
theorem Staged.name (h : Staged e owner ops w) {i : Nat} {s : Fin SIA_MAX_PARTS} {path : CStr}
    (hnode : (w.uploads[i]?).map SiaUpload.name = some path)
    (huploads : w'.uploads = w.uploads.modify i (·.setTmpfn s (stagingName e w.names s)))
    (htmp : w'.tmp = w.tmp) (hnames : w'.names = w.names + 1) :
    Staged e (Function.update owner w.names (path, s.val)) ops w' := by
  have hold : ∀ k, k < w.names → Function.update owner w.names (path, s.val) k = owner k :=
    fun k hk => Function.update_of_ne (by omega) _ _
  refine ⟨fun u hu t fn hfn => ?_, fun k t bytes hbytes => ?_⟩
  · rw [hnames]
    have hlater : ∀ v ∈ w.uploads, (v.part t).tmpfn = some fn → ∃ k < w.names + 1,
        fn = stagingName e k t ∧
          Function.update owner w.names (path, s.val) k = (v.name, t.val) := by
      intro v hv hfn
      obtain ⟨k, hk, hname, howner⟩ := h.recorded v hv t fn hfn
      exact ⟨k, by omega, hname, (hold k hk).trans howner⟩
    rw [huploads] at hu
    rcases mem_modify hu with hu | ⟨v, hv, rfl⟩
    · exact hlater u hu hfn
    · by_cases hst : t = s
      · subst hst
        rw [hv] at hnode
        refine ⟨w.names, Nat.lt_succ_self _, ?_, ?_⟩
        · simpa [SiaUpload.setTmpfn, eq_comm] using hfn
        · rw [Function.update_self, ← Option.some.inj hnode]
          rfl
      · refine hlater v (List.mem_of_getElem? hv) ?_
        simpa [SiaUpload.setTmpfn, Function.update_of_ne hst] using hfn
  · rw [htmp] at hbytes
    obtain ⟨hk, hwoven⟩ := h.files k t bytes hbytes
    rw [hold k hk, hnames]
    exact ⟨by omega, hwoven⟩

/-- The file of an owner is written or removed. -/
theorem Staged.file (hI : Function.Injective e.host.tmpnam) (h : Staged e owner ops w)
    {k s : Nat} (hk : k < w.names) {v : Option Bytes}
    (hv : ∀ bytes, v = some bytes →
      Woven (ops.filterMap (Op.block e (owner k).1 ((owner k).2 + 1))) bytes)
    (huploads : w'.uploads = w.uploads) (hnames : w'.names = w.names)
    (htmp : w'.tmp = Function.update w.tmp (stagingName e k s) v) : Staged e owner ops w' := by
  refine ⟨?_, fun j t bytes hbytes => ?_⟩
  · rw [huploads, hnames]
    exact h.recorded
  · rw [hnames]
    rw [htmp] at hbytes
    by_cases hname : stagingName e j t = stagingName e k s
    · rw [hname, Function.update_self] at hbytes
      obtain rfl := stagingName_inj e hI hname
      exact ⟨hk, hv bytes hbytes⟩
    · rw [Function.update_of_ne hname] at hbytes
      exact h.files j t bytes hbytes

theorem SourcesSent.sends (h : SourcesSent e base ops w) {rs : List Request}
    (hrs : ∀ r ∈ rs, r.Sourced e ops) : SourcesSent e base ops (sendAll e rs w) := by
  obtain ⟨t, ht, hsent⟩ := h
  refine ⟨t ++ (askAll e rs w.server).2, ?_, fun x hx => ?_⟩
  · rw [← List.append_assoc, ← ht]
    rfl
  · exact (List.mem_append.mp hx).elim (hsent x) fun hx => hrs _ (askAll_requests e rs _ x hx)

theorem SourcesSent.same (h : SourcesSent e base ops w) (htrace : w'.trace = w.trace) :
    SourcesSent e base ops w' := by
  rw [SourcesSent, htrace]
  exact h

theorem Sources.sends (h : Sources e base ops w) {rs : List Request}
    (hrs : ∀ r ∈ rs, r.Sourced e ops) : Sources e base ops (sendAll e rs w) := by
  obtain ⟨owner, hstaged⟩ := h.staged
  exact ⟨⟨owner, hstaged.same rfl rfl rfl⟩, h.sent.sends hrs⟩

/-! ## A multipart write -/

section Write

variable {path fn : CStr} {buf : Bytes} {offset slot node : Nat}

theorem OwnFile.sources (h : OwnFile e base ops path slot fn w) : Sources e base ops w := by
  obtain ⟨owner, hstaged, -⟩ := h.staged
  exact ⟨⟨owner, hstaged⟩, h.sent⟩

theorem uploadNode_sources (id : Option CStr) :
    Exec.Triple (Sources e base ops) (uploadNode path id offset)
      (fun r w => Sources e base ops w ∧
        ∀ node, r = .ok node → (w.uploads[node]?).map SiaUpload.name = some path)
      (Sources e base ops) := by
  rw [uploadNode]
  refine Exec.triple_ite (fun _ => ?_) fun _ => ?_
  · cases id with
    | none => exact Exec.triple_pure fun w hw => ⟨hw, fun _ h => by cases h⟩
    | some id =>
      rw [create_upload_some]
      refine Exec.triple_bind (Q := fun node w => Sources e base ops w ∧
        (w.uploads[node]?).map SiaUpload.name = some path) ?_ fun node => ?_
      · rintro w ⟨⟨owner, hstaged⟩, hsent⟩
        refine ⟨fun node w' h => ?_, fun x w' h => ?_⟩ <;> cases h
        exact ⟨⟨⟨owner, hstaged.link rfl rfl rfl⟩, hsent⟩, by rw [append_upload_last]; rfl⟩
      · refine Exec.triple_pure fun w hw => ⟨hw.1, fun node' hnode => ?_⟩
        cases hnode
        exact hw.2
  · refine Exec.triple_get_bind fun w hw => ?_
    refine Exec.triple_bind (Q := fun found w' => Sources e base ops w' ∧
      ∀ i, found = some i → (w'.uploads[i]?).map SiaUpload.name = some path)
      (Exec.triple_lift ?_ fun _ w' _ h => h.2) fun found => ?_
    · rintro found w' hfound ⟨rfl, hw'⟩
      refine ⟨hw', ?_⟩
      rintro i rfl
      obtain ⟨u, hu, hi⟩ := find_upload_by_path_eq_some hfound
      rw [hi, Option.map_some, nodeNamed_name hu]
    · cases found with
      | none => exact Exec.triple_pure fun w hw => ⟨hw.1, fun _ h => by cases h⟩
      | some i =>
        refine Exec.triple_pure fun w hw => ⟨hw.1, fun node hnode => ?_⟩
        cases hnode
        exact hw.2 i rfl

theorem stagingFile_ownFile :
    Exec.Triple
      (fun w => Sources e base ops w ∧ (w.uploads[node]?).map SiaUpload.name = some path)
      (stagingFile e node offset)
      (fun fn w => OwnFile e base ops path (offset / e.partBytes) fn w) (Sources e base ops) := by
  refine Exec.triple_get_bind fun w hw => ?_
  obtain ⟨⟨⟨owner, hstaged⟩, hsent⟩, hnode⟩ := hw
  by_cases hs : offset / e.partBytes < SIA_MAX_PARTS
  · rw [dif_pos hs]
    refine Exec.triple_ite (fun _ => ?_) fun _ => ?_
    · refine Exec.triple_bind (Exec.triple_modify ?_) fun _ => Exec.triple_pure fun _ h => h
      rintro w' ⟨rfl, -⟩
      refine ⟨⟨_, hstaged.name (s := ⟨_, hs⟩) hnode rfl rfl rfl, w'.names, Nat.lt_succ_self _, rfl,
        Function.update_self ..⟩, hsent⟩
    · cases hfn : (w.uploads[node]?).bind fun u => (u.part ⟨_, hs⟩).tmpfn with
      | none => exact Exec.triple_fault fun w' hw' => hw'.2.1
      | some fn =>
        refine Exec.triple_pure ?_
        rintro w' ⟨rfl, -⟩
        obtain ⟨u, hu, hfn⟩ := Option.bind_eq_some_iff.mp hfn
        obtain ⟨k, hk, hname, howner⟩ := hstaged.recorded u (List.mem_of_getElem? hu) _ fn hfn
        rw [hu] at hnode
        exact ⟨⟨owner, hstaged, k, hk, hname, by rw [howner, Option.some.inj hnode]⟩, hsent⟩
  · rw [dif_neg hs]
    exact Exec.triple_fault fun w' hw' => hw'.2.1

/-- What a write adds to the blocks of its part. -/
theorem filterMap_block (hslot : slot + 1 = e.partNumber offset) :
    (ops ++ [Op.write path buf offset]).filterMap (Op.block e path (slot + 1)) =
      ops.filterMap (Op.block e path (slot + 1)) ++ [buf] := by
  rw [List.filterMap_append, List.filterMap_cons_some (b := buf) (by simp [Op.block, hslot])]
  rfl

theorem appendFile_ownFile (hI : Function.Injective e.host.tmpnam)
    (hslot : slot + 1 = e.partNumber offset) :
    Exec.Triple (OwnFile e base ops path slot fn) (appendFile e fn buf)
      (fun _ => OwnFile e base (ops ++ [Op.write path buf offset]) path slot fn)
      (Sources e base (ops ++ [Op.write path buf offset])) := by
  refine Exec.triple_get_bind fun w hw => ?_
  obtain ⟨⟨owner, hstaged, k, hk, hname, howner⟩, hsent⟩ := hw
  subst hname
  have hlater : ∀ w', Staged e owner (ops ++ [Op.write path buf offset]) w' → w'.names = w.names →
      w'.trace = w.trace →
      OwnFile e base (ops ++ [Op.write path buf offset]) path slot (stagingName e k slot) w' :=
    fun w' h hnames htrace => ⟨⟨owner, h, k, by omega, rfl, howner⟩, (hsent.append _).same htrace⟩
  refine Exec.triple_ite (fun _ => ?_) fun _ => ?_
  · refine Exec.triple_bind (Exec.triple_modify ?_) fun _ => Exec.triple_pure fun _ h => h
    rintro w' ⟨rfl, -⟩
    refine hlater _ ((hstaged.append _).file hI hk ?_ rfl rfl rfl) rfl rfl
    rintro bytes ⟨⟩
    rw [howner, filterMap_block hslot]
    cases hfile : w'.tmp (stagingName e k slot) with
    | none => exact (Woven.empty _).add buf _
    | some old =>
      have hwoven := (hstaged.files k slot old hfile).2
      rw [howner] at hwoven
      exact hwoven.add buf _
  · refine Exec.triple_bind (Exec.triple_modify ?_) fun _ => Exec.triple_pure fun _ h => h
    rintro w' ⟨rfl, -⟩
    exact hlater _ ((hstaged.append _).same rfl rfl rfl) rfl rfl

theorem put_from_file_ownFile (id : Option CStr) :
    Exec.Triple (fun w' => w' = w ∧ OwnFile e base ops path slot fn w')
      (sia_worker_put_multipart_from_file e path id ((w.tmp fn).getD []).length fn (slot + 1))
      (fun _ => OwnFile e base ops path slot fn) (OwnFile e base ops path slot fn) := by
  refine Exec.triple_bind (Q := fun _ w' => w' = w ∧ OwnFile e base ops path slot fn w')
    (Exec.triple_lift (fun _ _ _ h => h) fun _ _ _ h => h.2) fun i => ?_
  refine Exec.triple_get_bind fun w' hw => ?_
  obtain ⟨rfl, hw⟩ := hw
  cases hfile : w'.tmp fn with
  | none => exact Exec.triple_pure fun _ h => h.2.2
  | some contents =>
    refine Exec.triple_bind (Q := fun _ => OwnFile e base ops path slot fn) ?_ fun reply => ?_
    · rintro w'' ⟨rfl, -⟩
      refine ⟨fun reply w' h => ?_, fun x w' h => by cases h⟩
      rw [send_apply] at h
      cases h
      obtain ⟨⟨owner, hstaged, k, hk, rfl, howner⟩, hsent⟩ := hw
      have hwoven := (hstaged.files k slot contents hfile).2
      rw [howner] at hwoven
      refine ⟨⟨owner, hstaged.same rfl rfl rfl, k, hk, rfl, howner⟩,
        hsent.sends (List.forall_mem_singleton.mpr ?_)⟩
      rw [Option.getD_some, List.take_length]
      exact hwoven
    · refine Exec.triple_ite (fun _ => ?_) fun _ => Exec.triple_pure fun _ h => h
      refine Exec.triple_bind (Q := fun _ => OwnFile e base ops path slot fn)
        (Exec.triple_lift (fun _ _ _ h => h) fun _ _ _ h => h) fun _ => ?_
      exact Exec.triple_pure fun _ h => h

theorem etagNode_ownFile (id : Option CStr) :
    Exec.Triple (OwnFile e base ops path slot fn) (etagNode path id offset)
      (fun _ => OwnFile e base ops path slot fn) (OwnFile e base ops path slot fn) := by
  rw [etagNode]
  refine Exec.triple_ite (fun _ => ?_) fun _ => ?_
  · cases id with
    | none => exact Exec.triple_fault fun _ h => h
    | some id =>
      rintro w ⟨⟨owner, hstaged, hfile⟩, hsent⟩
      refine ⟨fun node w' h => ?_, fun x w' h => ?_⟩ <;> cases h
      exact ⟨⟨owner, hstaged.link rfl rfl rfl, hfile⟩, hsent⟩
  · refine Exec.triple_get_bind fun w hw => ?_
    refine Exec.triple_bind (Q := fun _ => OwnFile e base ops path slot fn)
      (Exec.triple_lift (fun _ _ _ h => h.2) fun _ _ _ h => h.2) fun found => ?_
    cases found with
    | none => exact Exec.triple_fault fun _ h => h
    | some node => exact Exec.triple_pure fun _ h => h

theorem recordEtag_ownFile (tag : CStr) (s : Nat) :
    Exec.Triple (OwnFile e base ops path slot fn) (recordEtag node s tag)
      (fun _ => OwnFile e base ops path slot fn) (OwnFile e base ops path slot fn) := by
  rw [recordEtag]
  split
  · refine Exec.triple_modify ?_
    rintro w ⟨⟨owner, hstaged, hfile⟩, hsent⟩
    exact ⟨⟨owner, hstaged.etag rfl rfl rfl, hfile⟩, hsent⟩
  · exact Exec.triple_fault fun _ h => h

theorem pushPart_sources (hI : Function.Injective e.host.tmpnam) (id : Option CStr) (size : Nat) :
    Exec.Triple (OwnFile e base ops path (offset / e.partBytes) fn)
      (pushPart e path id size offset fn) (fun _ => Sources e base ops) (Sources e base ops) := by
  refine Exec.triple_get_bind fun w hw => ?_
  have hfault : ∀ {α : Type} {m : Sia σ α} {P : World σ → Prop} {Q : α → World σ → Prop},
      Exec.Triple P m Q (OwnFile e base ops path (offset / e.partBytes) fn) →
      Exec.Triple P m Q (Sources e base ops) := fun h w' hw' =>
    ⟨(h w' hw').1, fun x w'' hx => ((h w' hw').2 x w'' hx).sources⟩
  refine Exec.triple_bind (hfault (put_from_file_ownFile id)) fun etag => ?_
  cases etag with
  | none => exact Exec.triple_pure fun _ h => h.sources
  | some tag =>
    refine Exec.triple_bind (hfault (etagNode_ownFile id)) fun node => ?_
    refine Exec.triple_bind (hfault (recordEtag_ownFile tag _)) fun _ => ?_
    refine Exec.triple_ite (fun _ => Exec.triple_pure fun _ h => h.sources) fun _ => ?_
    refine Exec.triple_bind (Exec.triple_modify ?_) fun _ => Exec.triple_pure fun _ h => h
    rintro w' ⟨⟨owner, hstaged, k, hk, rfl, howner⟩, hsent⟩
    exact ⟨⟨owner, hstaged.file hI hk (v := none) nofun rfl rfl rfl⟩, hsent⟩

theorem get_uploadid_sources (path : CStr) (h : Sources e base ops w) :
    Sources e base ops (sendAll e (uploadIDRequests e path w.server) w) := by
  refine h.sends fun r hr => ?_
  rw [uploadIDRequests] at hr
  split at hr <;> simp at hr <;> rcases hr with rfl | rfl <;> trivial

theorem writeHuge_sources (hH : e.hugeFiles = true) (hI : Function.Injective e.host.tmpnam)
    (h : Sources e base ops w) :
    Sources e base (ops ++ [Op.write path buf offset]) (writeHuge e path buf offset w).2 := by
  have hslot : offset / e.partBytes + 1 = e.partNumber offset := by
    rw [Env.partNumber, if_pos hH]
  have hearly : ∀ {α : Type} {m : Sia σ α} {P : World σ → Prop} {Q : α → World σ → Prop},
      Exec.Triple P m Q (Sources e base ops) →
      Exec.Triple P m Q (Sources e base (ops ++ [Op.write path buf offset])) := fun h w' hw' =>
    ⟨(h w' hw').1, fun x w'' hx => ((h w' hw').2 x w'' hx).append _⟩
  rw [writeHuge, Exec.bind_of_ok (sia_bus_get_uploadid_apply e path w)]
  refine (Exec.triple_bind (hearly (uploadNode_sources _)) fun r => ?_).state
    (get_uploadid_sources path h)
  cases r with
  | error status => exact Exec.triple_pure fun _ h => h.1.append _
  | ok node =>
    refine Exec.triple_bind (hearly (Exec.triple_pre stagingFile_ownFile fun _ h =>
      ⟨h.1, h.2 node rfl⟩)) fun fn => ?_
    refine Exec.triple_bind (appendFile_ownFile hI hslot) fun opened => ?_
    refine Exec.triple_ite (fun _ => ?_) fun _ => Exec.triple_pure fun _ h => h.sources
    refine Exec.triple_ite (fun _ => ?_) fun _ => Exec.triple_pure fun _ h => h.sources
    exact pushPart_sources hI _ _

theorem writePlain_sources (hP : ¬ e.hugeFiles = true) (h : Sources e base ops w) :
    Sources e base (ops ++ [Op.write path buf offset]) (writePlain e path buf offset w).2 := by
  have hslot : offset / e.small + 1 = e.partNumber offset := by
    rw [Env.partNumber, if_neg hP]
  rw [writePlain, Exec.bind_of_ok (sia_bus_get_uploadid_apply e path w)]
  refine Exec.Triple.state (I := Sources e base (ops ++ [Op.write path buf offset])) ?_
    ((get_uploadid_sources path h).append _)
  refine Exec.triple_bind (Q := fun _ => Sources e base (ops ++ [Op.write path buf offset]))
    ?_ fun etag => ?_
  · refine Exec.triple_bind (Q := fun _ => Sources e base (ops ++ [Op.write path buf offset]))
      (Exec.triple_lift (fun _ _ _ h => h) fun _ _ _ h => h) fun id => ?_
    refine Exec.triple_bind (Q := fun _ => Sources e base (ops ++ [Op.write path buf offset]))
      ?_ fun reply => ?_
    · refine fun w' hw' => ⟨fun reply w'' h => ?_, fun x w'' h => by cases h⟩
      rw [send_apply] at h
      cases h
      refine hw'.sends (List.forall_mem_singleton.mpr ?_)
      show Woven _ buf
      rw [filterMap_block hslot]
      exact Woven.of_mem (List.mem_append_right _ (List.mem_singleton.mpr rfl))
    · refine Exec.triple_bind (Q := fun _ => Sources e base (ops ++ [Op.write path buf offset]))
        (Exec.triple_lift (fun _ _ _ h => h) fun _ _ _ h => h) fun _ => ?_
      exact Exec.triple_pure fun _ h => h
  · cases etag with
    | none => exact Exec.triple_pure fun _ h => h
    | some tag =>
      refine Exec.triple_bind (uploadNode_sources _) fun r => ?_
      cases r with
      | error status => exact Exec.triple_pure fun _ h => h.1
      | ok node =>
        refine Exec.triple_bind (Q := fun _ => Sources e base (ops ++ [Op.write path buf offset]))
          ?_ fun _ => Exec.triple_pure fun _ h => h
        rw [recordEtag]
        split
        · refine Exec.triple_modify ?_
          rintro w' ⟨⟨⟨owner, hstaged⟩, hsent⟩, -⟩
          exact ⟨⟨owner, hstaged.etag rfl rfl rfl⟩, hsent⟩
        · exact Exec.triple_fault fun _ h => h.1

end Write

/-! ## A run -/

theorem release_asks (path : CStr) :
    Exec.Keeps (Asks e fun _ => True) (siafs_release e path) := by
  refine Exec.keeps_bind (fun w => ((keeps_releaseCheck path) w).mono fun _ _ => trivial)
    fun passed => ?_
  split
  · intro w
    rcases hu : nodeNamed w.uploads path with _ | u
    · rw [completeUpload_none hu]
      exact Std.Refl.refl w
    · rw [completeUpload_apply hu]
      exact ⟨rfl, rfl, rfl, rfl, rfl, _, fun _ _ => trivial, rfl, rfl⟩
  · exact Exec.keeps_pure _

/-- What is not a write sends no body but an empty one. -/
theorem Op.Requests.sourced {op : Op} (h : op.Requests e r)
    (hwrite : ∀ path buf offset, op ≠ .write path buf offset) : r.Sourced e ops := by
  cases r with
  | worker_put path body =>
    cases op with
    | mkdir _ | mknod _ =>
      cases h
      exact Or.inl rfl
    | write _ _ _ => exact absurd rfl (hwrite _ _ _)
    | _ => simp [Op.Requests, Request.LooksUp] at h
  | worker_put_multipart path id n body =>
    cases op with
    | write _ _ _ => exact absurd rfl (hwrite _ _ _)
    | _ => simp [Op.Requests, Request.LooksUp] at h
  | _ => trivial

theorem Sources.write (hI : Function.Injective e.host.tmpnam) (h : Sources e base ops w)
    (path : CStr) (buf : Bytes) (offset : Nat) :
    Sources e base (ops ++ [Op.write path buf offset]) (siafs_write e path buf offset w).2 := by
  rw [siafs_write]
  split
  · rename_i hsmall
    obtain ⟨rfl, -⟩ := hsmall
    refine (h.append _).sends (List.forall_mem_singleton.mpr ?_)
    exact Or.inr (List.mem_append_right ops (List.mem_singleton.mpr rfl))
  · split
    · exact writeHuge_sources ‹_› hI h
    · exact writePlain_sources ‹_› h

theorem Sources.perform (hI : Function.Injective e.host.tmpnam) (h : Sources e base ops w)
    (op : Op) : Sources e base (ops ++ [op]) (perform e op w).2 := by
  have hother : (∀ path buf offset, op ≠ .write path buf offset) →
      Asks e (fun _ => True) w (SiaFS.perform e op w).2 →
      Sources e base (ops ++ [op]) (SiaFS.perform e op w).2 := by
    intro hwrite hasks
    obtain ⟨owner, hstaged⟩ := (h.append [op]).staged
    obtain ⟨rs, hrs, hserver, htrace⟩ := perform_requests op w
    exact ⟨⟨owner, hstaged.same hasks.uploads hasks.tmp hasks.names⟩,
      ((h.append [op]).sent.sends fun r hr => (hrs r hr).sourced hwrite).same htrace⟩
  by_cases hwrite : ∃ path buf offset, op = .write path buf offset
  · obtain ⟨path, buf, offset, rfl⟩ := hwrite
    rw [SiaFS.perform, Exec.bind_pure_state]
    exact h.write hI path buf offset
  replace hwrite : ∀ path buf offset, op ≠ .write path buf offset :=
    fun path buf offset heq => hwrite ⟨path, buf, offset, heq⟩
  refine hother hwrite ?_
  by_cases hrelease : ∃ path, op = .release path
  · obtain ⟨path, rfl⟩ := hrelease
    exact (Exec.keeps_bind (release_asks path) fun _ => Exec.keeps_pure _ :
      Exec.Keeps (Asks e fun _ => True) _) w
  · exact (keeps_perform hwrite (fun path heq => hrelease ⟨path, heq⟩) w).mono fun _ _ => trivial

theorem Sources.run (hI : Function.Injective e.host.tmpnam) (h : Sources e base ops w)
    (more : List Op) : Sources e base (ops ++ more) (Exec.runAll (SiaFS.perform e) more w).2 := by
  induction more generalizing ops w with
  | nil =>
    rw [List.append_nil]
    exact h
  | cons op more ih =>
    have hop := h.perform hI op
    rw [← List.singleton_append, ← List.append_assoc]
    rcases Exec.runAll_cons_state (SiaFS.perform e) op more w with ⟨x, -, he⟩ | ⟨a, -, he⟩
    · rw [List.singleton_append, he]
      exact hop.append more
    · rw [List.singleton_append, he]
      exact ih hop

/-- In a new mount nothing is staged. -/
theorem Sources.start (huploads : w.uploads = []) (htmp : ∀ k s, w.tmp (stagingName e k s) = none) :
    Sources e w.trace [] w := by
  refine ⟨⟨fun _ => ([], 0), ⟨?_, ?_⟩⟩, [], (List.append_nil _).symm, by simp⟩
  · rw [huploads]
    exact fun u hu => absurd hu List.not_mem_nil
  · intro k s bytes hbytes
    rw [htmp] at hbytes
    cases hbytes

/-- Every body that a run sends is woven from what the run wrote to the path, for a part at
offsets of the part. -/
theorem bodies_sourced {e : Env σ} (hI : Function.Injective e.host.tmpnam) {w : World σ}
    (huploads : w.uploads = []) (htmp : ∀ k s, w.tmp (stagingName e k s) = none) (ops : List Op) :
    ∃ t, (Exec.runAll (perform e) ops w).2.trace = w.trace ++ t ∧
      ∀ x ∈ t, x.1.Sourced e ops :=
  ((Sources.start huploads htmp).run hI ops).sent

/-- Two files whose writes take turns. -/
theorem bodies_sourced_turns :
    let ops := [Op.write (lit "/a") (List.replicate 131072 0) 0,
      .write (lit "/b") (List.replicate 131072 1) 0, .write (lit "/a") [2] 131072,
      .write (lit "/b") [3] 131072, .release (lit "/a"), .release (lit "/b")]
    ∃ t, (Exec.runAll (perform hugeMount) ops (mounted Store.blank none)).2.trace = [] ++ t ∧
      ∀ x ∈ t, x.1.Sourced hugeMount ops :=
  bodies_sourced plainHost_reliable.tmpnam_injective rfl (fun _ _ => rfl) _

end SiaFS
