/-
Mounts that are killed.

A mount that is killed loses the list of its uploads, and its uploads stay pending on the
server.  At every moment of its life at most one is pending for a path, since a write begins
one only after the listing has shown none.  So the next mount can go on: a file it uploads
is stored as if nothing had been there, however many mounts were killed before it.
-/
import SiaFS.Agreeing
import SiaFS.Moments
import SiaFS.Upload.AnyOrder
import SiaFS.Upload.Resume

namespace SiaFS

open JsonText

variable {σ : Type}

/-! ## What holds at every moment -/

/-- If `I` holds of the server in `w`, it holds all the way to `w'`. -/
def Throughout (e : Env σ) (I : σ → Prop) (w w' : World σ) : Prop :=
  ∃ rs, w'.server = (askAll e rs w.server).1 ∧
    w'.trace = w.trace ++ (askAll e rs w.server).2 ∧
    (I w.server → ∀ sent rest, rs = sent ++ rest → I (askAll e sent w.server).1)

section Throughout

variable {e : Env σ} {I : σ → Prop} {w w' : World σ}

instance : Std.Refl (Throughout e I) where
  refl w := by
    refine ⟨[], rfl, (List.append_nil _).symm, fun h sent rest hrs => ?_⟩
    rw [(List.append_eq_nil_iff.mp hrs.symm).1]
    exact h

instance : IsTrans (World σ) (Throughout e I) where
  trans a b c hab hbc := by
    obtain ⟨rs, hs, ht, hI⟩ := hab
    obtain ⟨rs', hs', ht', hI'⟩ := hbc
    refine ⟨rs ++ rs', ?_, ?_, fun h sent rest hrs => ?_⟩
    · rw [hs', hs, askAll_append]
    · rw [ht', ht, hs, askAll_append, List.append_assoc]
    · rcases List.append_eq_append_iff.mp hrs with ⟨mid, rfl, hmid⟩ | ⟨mid, hmid, hrest⟩
      · rw [askAll_append, ← hs]
        exact hI' (by rw [hs]; exact hI h rs [] (List.append_nil _).symm) mid rest hmid
      · exact hI h sent mid hmid

theorem Sends.throughout {Q : Request → Prop} (h : Sends e Q w w')
    (hI : ∀ r, Q r → ∀ s, I s → I (e.server s r).2) : Throughout e I w w' := by
  obtain ⟨rs, hQ, hs, ht⟩ := h
  refine ⟨rs, hs, ht, fun hw sent rest hrs => ?_⟩
  refine askAll_keeps e (fun r hr => hI r (hQ r ?_)) hw
  rw [hrs]
  exact List.mem_append_left _ hr

theorem Throughout.passed {s : σ} (h : Throughout e I w w') (hw : I w.server)
    (hs : Passed e w w' s) : I s := by
  obtain ⟨rs, -, ht, hI⟩ := h
  obtain ⟨sent, rest, -, htrace, rfl⟩ := hs
  exact hI hw sent rest (askAll_inj (ht.symm.trans htrace))

end Throughout

/-! ## One upload for each path -/

def Bucket.OnePending (b : Bucket) : Prop := ∀ path, b.OneFor path

def Request.Creates : Request → Prop
  | .multipart_create _ _ => True
  | _ => False

section OnePending

variable {e : Env σ} {view : σ → Bucket} {rejects : Nat → Prop}

theorem Bucket.OnePending.create {b : Bucket} (h : b.OnePending) {path : CStr}
    (hidle : ∀ id, b.pending id ≠ some path) (id : CStr) : (b.create path id).OnePending := by
  intro p i j hi hj
  simp only [Bucket.create, Function.update_apply] at hi hj
  split at hi <;> split at hj
  · rename_i hi' hj'
    rw [hi', hj']
  · rw [← hi] at hj
    exact absurd hj (hidle j)
  · rw [← hj] at hi
    exact absurd hi (hidle i)
  · exact h p i j hi hj

theorem Bucket.OnePending.complete {b : Bucket} (h : b.OnePending) (path id : CStr)
    (listed : List (Nat × CStr)) : (b.complete path id listed).OnePending := by
  intro p i j hi hj
  rw [Bucket.complete_pending, Function.update_apply] at hi hj
  split at hi
  · cases hi
  · split at hj
    · cases hj
    · exact h p i j hi hj

/-- Only a new upload could be one too many. -/
theorem Doing.keeps_one (hD : Doing e.server view) {r : Request} (hr : ¬ r.Creates) (s : σ)
    (hs : (view s).OnePending) : (view (e.server s r).2).OnePending := by
  rcases hD s r with hsame | hdone
  · rw [hsame]
    exact hs
  cases r with
  | multipart_create path key => exact absurd trivial hr
  | objects_delete path =>
    rw [show view (e.server s (.objects_delete path)).2 = _ from hdone]
    exact hs
  | objects_rename source target mode =>
    rw [hdone.1]
    exact hs
  | multipart_complete payload =>
    obtain ⟨path, id, listed, -, -, hview⟩ := hdone
    rw [hview]
    exact hs.complete path id listed
  | worker_put path body =>
    rw [show view (e.server s (.worker_put path body)).2 = _ from hdone]
    exact hs
  | worker_put_multipart path id n body =>
    obtain ⟨-, tag, hview⟩ := hdone
    rw [hview]
    exact hs
  | objects path => exact hdone.elim
  | objects_list path => exact hdone.elim
  | multipart_listuploads path => exact hdone.elim
  | multipart_listparts path id => exact hdone.elim
  | worker_get path first last => exact hdone.elim

variable (hB : Backend e.server view rejects) (hD : Doing e.server view)

include hB in
/-- A write asks for a new upload when none is listed. -/
theorem get_uploadid_throughout (path : CStr) :
    Exec.Keeps (Throughout e fun s => (view s).OnePending) (sia_bus_get_uploadid e path) := by
  intro w
  rw [sia_bus_get_uploadid_apply]
  refine ⟨uploadIDRequests e path w.server, rfl, rfl, fun hw sent rest hrs => ?_⟩
  have hlisted : (view (e.server w.server (.multipart_listuploads path)).2).OnePending := by
    rw [hB.listuploads_view]
    exact hw
  rcases hB.listedID_cases w.server path with ⟨id, hid, -⟩ | ⟨hnone, hidle⟩
  · rw [uploadIDRequests, hid, Option.isSome_some, if_pos rfl] at hrs
    rcases List.cons_eq_append_iff.mp hrs with ⟨rfl, -⟩ | ⟨more, rfl, hmore⟩
    · exact hw
    · rw [(List.append_eq_nil_iff.mp hmore.symm).1]
      exact hlisted
  · rw [uploadIDRequests, hnone, Option.isSome_none, if_neg Bool.false_ne_true] at hrs
    rcases List.cons_eq_append_iff.mp hrs with ⟨rfl, -⟩ | ⟨more, rfl, hmore⟩
    · exact hw
    rcases List.cons_eq_append_iff.mp hmore with ⟨rfl, -⟩ | ⟨last, rfl, hlast⟩
    · exact hlisted
    · rw [(List.append_eq_nil_iff.mp hlast.symm).1]
      obtain ⟨doc, id, -, -, -, hview⟩ :=
        hB.create (e.server w.server (.multipart_listuploads path)).2 path zeroKey
      show (view (e.server _ (.multipart_create path zeroKey)).2).OnePending
      rw [hview]
      refine hlisted.create (fun i hi => ?_) id
      rw [hB.listuploads_view] at hi
      exact hidle i hi

/-- Of the operations only a write begins an upload. -/
theorem Op.Requests.no_create {op : Op} (hop : ∀ path buf offset, op ≠ .write path buf offset)
    {r : Request} (hr : op.Requests e r) : ¬ r.Creates := by
  have hlookup : ∀ path, Request.LooksUp path r → ¬ r.Creates := by
    intro path hpath
    simp only [Request.LooksUp, List.mem_cons, List.not_mem_nil, or_false] at hpath
    rcases hpath with rfl | rfl | rfl | rfl <;> exact id
  cases op with
  | getattr path => exact hlookup path hr
  | readdir path => exact hlookup path hr
  | «open» path => exact hlookup path hr
  | read path size offset => rcases hr with rfl | ⟨first, last, rfl⟩ <;> exact id
  | flush path => exact hr.elim
  | mkdir path => cases hr; exact id
  | mknod path => cases hr; exact id
  | unlink path => cases hr; exact id
  | rmdir path => cases hr; exact id
  | rename source target => rcases hr with rfl | rfl | rfl <;> exact id
  | write path buf offset => exact absurd rfl (hop path buf offset)
  | release path =>
    rcases hr with hr | ⟨id', rfl⟩ | ⟨u, rfl⟩
    · exact hlookup path hr
    · exact id
    · exact id

include hB hD

theorem write_throughout (path : CStr) (buf : Bytes) (offset : Nat) :
    Exec.Keeps (Throughout e fun s => (view s).OnePending) (siafs_write e path buf offset) := by
  have within : ∀ {α : Type} {m : Sia σ α}, Exec.Keeps (Sends e fun r => ¬ r.Creates) m →
      Exec.Keeps (Throughout e fun s => (view s).OnePending) m :=
    fun h w => Sends.throughout (h w) fun r hr s hs => hD.keeps_one hr s hs
  rw [siafs_write]
  split
  · exact Exec.keeps_bind (within (put_object_sends id)) fun _ => Exec.keeps_pure _
  · split
    · exact Exec.keeps_bind (get_uploadid_throughout hB path) fun i =>
        within (writeHuge_puts buf i fun _ _ => id)
    · exact Exec.keeps_bind (get_uploadid_throughout hB path) fun i =>
        within (writePlain_puts buf i fun _ _ => id)

theorem perform_throughout (op : Op) :
    Exec.Keeps (Throughout e fun s => (view s).OnePending) (perform e op) := by
  by_cases hop : ∃ path buf offset, op = .write path buf offset
  · obtain ⟨path, buf, offset, rfl⟩ := hop
    exact Exec.keeps_bind (write_throughout hB hD path buf offset) fun _ => Exec.keeps_pure _
  · intro w
    refine Sends.throughout (perform_requests op w) fun r hr s hs =>
      hD.keeps_one (hr.no_create ?_) s hs
    exact fun path buf offset h => hop ⟨path, buf, offset, h⟩

/-- At every moment of a run at most one upload is pending for a path. -/
theorem Passed.one_pending {ops : List Op} {w : World σ} {s : σ}
    (hs : Passed e w (after e ops w) s) (hw : (view w.server).OnePending) :
    (view s).OnePending := by
  have hrun : Throughout e (fun s => (view s).OnePending) w (after e ops w) :=
    Exec.runAll_invariant (I := Throughout e (fun s => (view s).OnePending) w)
      (fun op _ w' hw' => IsTrans.trans _ _ _ hw' (perform_throughout hB hD op w'))
      (Std.Refl.refl w)
  exact hrun.passed hw hs

end OnePending

/-! ## One mount after another -/

/-- The server has come from `s` to `s'` by mounts of any builds and options, one after the
other, each of them run for a while and killed.  It is told their names, as it is when they
arrive as they are. -/
inductive Survived (server : σ → Request → Reply × σ) (s : σ) : σ → Prop
  | start : Survived server s s
  | killed {s' s'' : σ} (h : Survived server s s') (e : Env σ) (he : e.server = server)
    (w : World σ) (hw : w.server = s') (ops : List Op) (hs : Passed e w (after e ops w) s'') :
    Survived server s s''

/-- A new mount, without a cache. -/
structure Remounted (e : Env σ) (s : σ) (w : World σ) : Prop where
  server : w.server = s
  uploads : w.uploads = []
  fresh : ∀ k t, w.tmp (stagingName e k t) = none
  L1 : w.L1 = none

section Survived

variable {server : σ → Request → Reply × σ} {view : σ → Bucket} {s s' : σ}

theorem Survived.one_pending {rejects : Nat → Prop} (hB : Backend server view rejects)
    (hD : Doing server view) (h : Survived server s s') (hs : (view s).OnePending) :
    (view s').OnePending := by
  induction h with
  | start => exact hs
  | killed _ e he w hw ops hpassed ih =>
    subst he hw
    exact hpassed.one_pending hB hD ih

theorem Remounted.restarted {e : Env σ} {w : World σ} (h : Remounted e s w)
    (hone : (view s).OnePending) (path : CStr) : Restarted e view w path where
  last last hlast := by
    rw [h.uploads] at hlast
    cases hlast
  one := by
    rw [h.server]
    exact hone path
  cache := cacheFine_of_none h.L1
  named := by
    refine ⟨fun i t fn hfn => ?_, fun i j t t' fn hfn => ?_, fun k t _ => h.fresh k t⟩
    · simp [slotName, h.uploads] at hfn
    · simp [slotName, h.uploads] at hfn

end Survived

end SiaFS
