/-
What the requests that change the server leave alone: the caches and the clock,
which they do not look at either.
-/
import SiaFS.Moves

namespace SiaFS

variable {σ : Type}

/-- The caches and the clock are as before. -/
structure SameCaches (w w' : World σ) : Prop where
  L1 : w'.L1 = w.L1
  L2 : w'.L2 = w.L2
  now : w'.now = w.now

instance : Std.Refl (SameCaches (σ := σ)) where
  refl _ := ⟨rfl, rfl, rfl⟩

instance : IsTrans (World σ) SameCaches where
  trans _ _ _ hab hbc := ⟨hbc.L1.trans hab.L1, hbc.L2.trans hab.L2, hbc.now.trans hab.now⟩

/-- The state with other caches, at another time. -/
def World.withCaches (w : World σ) (L1 : Option (CStr → Option L1Entry))
    (L2 : Option (CStr → Option Bytes)) (now : Nat) : World σ :=
  { w with L1 := L1, L2 := L2, now := now }

/-- Neither the caches nor the clock are looked at or changed. -/
def IgnoresCaches {α : Type} (m : Sia σ α) : Prop :=
  ∀ w L1 L2 now, m (w.withCaches L1 L2 now) = ((m w).1, (m w).2.withCaches L1 L2 now)

namespace IgnoresCaches

variable {e : Env σ} {α β : Type}

theorem pure (a : α) : IgnoresCaches (pure a : Sia σ α) := fun _ _ _ _ => rfl

theorem fault (x : Fault) : IgnoresCaches (Exec.fault x : Sia σ α) := fun _ _ _ _ => rfl

theorem lift (x : Except Fault α) : IgnoresCaches (Exec.lift x : Sia σ α) := fun _ _ _ _ => rfl

theorem send (r : Request) : IgnoresCaches (send e r) := fun _ _ _ _ => rfl

theorem modify {g : World σ → World σ}
    (h : ∀ w L1 L2 now, g (w.withCaches L1 L2 now) = (g w).withCaches L1 L2 now) :
    IgnoresCaches (Exec.modify g) := by
  intro w L1 L2 now
  rw [Exec.modify_apply, Exec.modify_apply, h]

theorem bind {m : Sia σ α} {f : α → Sia σ β} (hm : IgnoresCaches m)
    (hf : ∀ a, IgnoresCaches (f a)) : IgnoresCaches (m >>= f) := by
  intro w L1 L2 now
  have hsame := hm w L1 L2 now
  rcases hres : m w with ⟨x | a, w'⟩
  · rw [hres] at hsame
    rw [Exec.bind_of_error hsame, Exec.bind_of_error hres]
  · rw [hres] at hsame
    rw [Exec.bind_of_ok hsame, Exec.bind_of_ok hres]
    exact hf a w' L1 L2 now

theorem get_bind {f : World σ → Sia σ β}
    (hf : ∀ w L1 L2 now, f (w.withCaches L1 L2 now) = f w) (h : ∀ w, IgnoresCaches (f w)) :
    IgnoresCaches (Exec.get >>= f) := by
  intro w L1 L2 now
  rw [Exec.get_bind, Exec.get_bind, hf]
  exact h w w L1 L2 now

theorem keeps {m : Sia σ α} (h : IgnoresCaches m) : Exec.Keeps SameCaches m := by
  intro w
  have hsame : (m w).2 = (m w).2.withCaches w.L1 w.L2 w.now :=
    congrArg Prod.snd (h w w.L1 w.L2 w.now)
  rw [hsame]
  exact ⟨rfl, rfl, rfl⟩

theorem put_object (path : CStr) (buf : Bytes) :
    IgnoresCaches (sia_worker_put_object e path buf) := bind (send _) fun _ => pure _

theorem del_object (path : CStr) : IgnoresCaches (sia_bus_del_object e path) :=
  bind (send _) fun _ => pure _

theorem rename_object (source target mode : CStr) :
    IgnoresCaches (sia_bus_rename_object e source target mode) := bind (send _) fun _ => pure _

theorem get_uploadid (path : CStr) : IgnoresCaches (sia_bus_get_uploadid e path) := by
  refine bind (bind (send _) fun _ => pure _) fun listing => ?_
  split
  · exact pure _
  · exact bind (bind (send _) fun _ => pure _) fun _ => pure _

theorem linkUpload (upload : SiaUpload) : IgnoresCaches (linkUpload (σ := σ) upload) :=
  fun _ _ _ _ => rfl

theorem uploadNode (path : CStr) (upload_id : Option CStr) (offset : Nat) :
    IgnoresCaches (uploadNode (σ := σ) path upload_id offset) := by
  unfold SiaFS.uploadNode
  split
  · split
    · exact pure _
    · exact bind (linkUpload _) fun _ => pure _
  · refine get_bind (fun _ _ _ _ => rfl) fun w => bind (lift _) fun found => ?_
    cases found <;> exact pure _

theorem stagingFile (node offset : Nat) : IgnoresCaches (stagingFile e node offset) := by
  unfold SiaFS.stagingFile
  refine get_bind (fun _ _ _ _ => rfl) fun w => ?_
  split
  · split
    · exact bind (modify fun _ _ _ _ => rfl) fun _ => pure _
    · split
      · exact pure _
      · exact fault _
  · exact fault _

theorem appendFile (tmpfn : CStr) (buf : Bytes) : IgnoresCaches (appendFile e tmpfn buf) := by
  refine get_bind (fun _ _ _ _ => rfl) fun w => ?_
  split
  · exact bind (modify fun _ _ _ _ => rfl) fun _ => pure _
  · exact bind (modify fun _ _ _ _ => rfl) fun _ => pure _

theorem recordEtag (node slot : Nat) (etag : CStr) :
    IgnoresCaches (recordEtag (σ := σ) node slot etag) := by
  unfold SiaFS.recordEtag
  split
  · exact modify fun _ _ _ _ => rfl
  · exact fault _

theorem etagNode (path : CStr) (upload_id : Option CStr) (offset : Nat) :
    IgnoresCaches (etagNode (σ := σ) path upload_id offset) := by
  unfold SiaFS.etagNode
  split
  · split
    · exact fault _
    · exact linkUpload _
  · refine get_bind (fun _ _ _ _ => rfl) fun w => bind (lift _) fun found => ?_
    cases found
    · exact fault _
    · exact pure _

theorem put_multipart_from_file (path : CStr) (upload_id : Option CStr) (size : Nat) (fn : CStr)
    (slot : Nat) :
    IgnoresCaches (sia_worker_put_multipart_from_file e path upload_id size fn slot) := by
  refine bind (lift _) fun id => get_bind (fun _ _ _ _ => rfl) fun w => ?_
  split
  · exact pure _
  · refine bind (send _) fun reply => ?_
    split
    · exact bind (lift _) fun _ => pure _
    · exact pure _

theorem put_multipart (path : CStr) (upload_id : Option CStr) (buf : Bytes) (slot : Nat) :
    IgnoresCaches (sia_worker_put_multipart e path upload_id buf slot) := by
  refine bind (lift _) fun id => bind (send _) fun reply => ?_
  exact bind (lift _) fun _ => pure _

theorem pushPart (path : CStr) (upload_id : Option CStr) (size offset : Nat) (tmpfn : CStr) :
    IgnoresCaches (pushPart e path upload_id size offset tmpfn) := by
  refine get_bind (fun _ _ _ _ => rfl) fun w => bind (put_multipart_from_file _ _ _ _ _) fun etag => ?_
  cases etag with
  | none => exact pure _
  | some etag =>
    refine bind (etagNode _ _ _) fun node => bind (recordEtag _ _ _) fun _ => ?_
    split
    · exact pure _
    · exact bind (modify fun _ _ _ _ => rfl) fun _ => pure _

theorem writeHuge (path : CStr) (buf : Bytes) (offset : Nat) :
    IgnoresCaches (writeHuge e path buf offset) := by
  refine bind (get_uploadid _) fun id => bind (uploadNode _ _ _) fun r => ?_
  cases r with
  | error status => exact pure _
  | ok node =>
    refine bind (stagingFile _ _) fun fn => bind (appendFile _ _) fun opened => ?_
    split
    · split
      · exact pushPart _ _ _ _ _
      · exact pure _
    · exact pure _

theorem writePlain (path : CStr) (buf : Bytes) (offset : Nat) :
    IgnoresCaches (writePlain e path buf offset) := by
  refine bind (get_uploadid _) fun id => bind (put_multipart _ _ _ _) fun r => ?_
  cases r with
  | none => exact pure _
  | some etag =>
    refine bind (uploadNode _ _ _) fun r => ?_
    cases r with
    | error status => exact pure _
    | ok node => exact bind (recordEtag _ _ _) fun _ => pure _

theorem write (path : CStr) (buf : Bytes) (offset : Nat) :
    IgnoresCaches (siafs_write e path buf offset) := by
  unfold siafs_write
  split
  · exact bind (put_object _ _) fun _ => pure _
  · split
    · exact writeHuge _ _ _
    · exact writePlain _ _ _

theorem listparts_json (path uploadid : CStr) :
    IgnoresCaches (sia_bus_multipart_listparts_json e path uploadid) :=
  bind (send _) fun _ => pure _

theorem complete_json (path uploadid : CStr) :
    IgnoresCaches (sia_bus_multipart_complete_json e path uploadid) :=
  get_bind (fun _ _ _ _ => rfl) fun _ => bind (lift _) fun _ => bind (send _) fun _ => pure _

theorem completeUpload (path : CStr) : IgnoresCaches (completeUpload e path) := by
  refine get_bind (fun _ _ _ _ => rfl) fun w => bind (lift _) fun found => ?_
  cases found with
  | none => exact pure _
  | some node =>
    dsimp only
    split
    · exact pure _
    · split
      · exact bind (listparts_json _ _) fun _ => bind (complete_json _ _) fun _ => pure _
      · exact bind (complete_json _ _) fun _ => pure _

end IgnoresCaches

namespace SameCaches

variable {e : Env σ}

theorem put_object (path : CStr) (buf : Bytes) :
    Exec.Keeps SameCaches (sia_worker_put_object e path buf) :=
  (IgnoresCaches.put_object path buf).keeps

theorem del_object (path : CStr) : Exec.Keeps SameCaches (sia_bus_del_object e path) :=
  (IgnoresCaches.del_object path).keeps

theorem rename_object (source target mode : CStr) :
    Exec.Keeps SameCaches (sia_bus_rename_object e source target mode) :=
  (IgnoresCaches.rename_object source target mode).keeps

theorem write (path : CStr) (buf : Bytes) (offset : Nat) :
    Exec.Keeps SameCaches (siafs_write e path buf offset) :=
  (IgnoresCaches.write path buf offset).keeps

theorem completeUpload (path : CStr) : Exec.Keeps SameCaches (completeUpload e path) :=
  (IgnoresCaches.completeUpload path).keeps

end SameCaches

/-! ## Every operation -/

/-- The parts of an operation that change the server keep `R`. -/
structure PartsKeep (e : Env σ) (R : World σ → World σ → Prop) : Prop where
  put : ∀ path buf, Exec.Keeps R (sia_worker_put_object e path buf)
  delete : ∀ path, Exec.Keeps R (sia_bus_del_object e path)
  rename : ∀ source target mode, Exec.Keeps R (sia_bus_rename_object e source target mode)
  write : ∀ path buf offset, Exec.Keeps R (siafs_write e path buf offset)
  complete : ∀ path, Exec.Keeps R (completeUpload e path)

section Perform

variable {e : Env σ} {R : World σ → World σ → Prop} [Std.Refl R] [IsTrans (World σ) R]

/-- What these parts and the lookups keep, and flushes and reads where the operation is
one, the operation keeps. -/
theorem PartsKeep.perform (h : PartsKeep e R) (hlooks : ∀ path, LookupsKeep e R path) {op : Op}
    (hflush : ∀ path, op = .flush path ∨ op = .mknod path → Exec.Keeps R (siafs_flush e path))
    (hread : ∀ path size offset, op = .read path size offset →
      Exec.Keeps R (siafs_read e path size offset)) :
    Exec.Keeps R (perform e op) := by
  cases op with
  | getattr path => exact Exec.keeps_bind (hlooks path).getattr fun _ => Exec.keeps_pure _
  | readdir path => exact Exec.keeps_bind (hlooks path).readdir fun _ => Exec.keeps_pure _
  | «open» path => exact Exec.keeps_bind (hlooks path).open_ fun _ => Exec.keeps_pure _
  | read path size offset =>
    exact Exec.keeps_bind (hread path size offset rfl) fun _ => Exec.keeps_pure _
  | mkdir path =>
    refine Exec.keeps_bind ?_ fun _ => Exec.keeps_pure _
    rw [siafs_mkdir]
    split
    · exact Exec.keeps_fault _
    · exact Exec.keeps_bind (h.put _ _) fun _ => Exec.keeps_pure _
  | mknod path =>
    refine Exec.keeps_bind ?_ fun _ => Exec.keeps_pure _
    exact Exec.keeps_bind (h.put _ _) fun _ =>
      Exec.keeps_bind (hflush path (Or.inr rfl)) fun _ => Exec.keeps_pure _
  | flush path => exact Exec.keeps_bind (hflush path (Or.inl rfl)) fun _ => Exec.keeps_pure _
  | unlink path =>
    exact Exec.keeps_bind (Exec.keeps_bind (h.delete _) fun _ => Exec.keeps_pure _) fun _ =>
      Exec.keeps_pure _
  | rmdir path =>
    exact Exec.keeps_bind (Exec.keeps_bind (h.delete _) fun _ => Exec.keeps_pure _) fun _ =>
      Exec.keeps_pure _
  | rename source target =>
    refine Exec.keeps_bind ?_ fun _ => Exec.keeps_pure _
    refine Exec.keeps_bind (hlooks source).is_dir fun is_dir => ?_
    cases is_dir with
    | true => exact Exec.keeps_bind (h.rename _ _ _) fun _ => Exec.keeps_pure _
    | false => exact Exec.keeps_bind (h.rename _ _ _) fun _ => Exec.keeps_pure _
  | write path buf offset =>
    exact Exec.keeps_bind (h.write path buf offset) fun _ => Exec.keeps_pure _
  | release path =>
    refine Exec.keeps_bind ?_ fun _ => Exec.keeps_pure _
    refine Exec.keeps_bind (hlooks path).releaseCheck fun passed => ?_
    cases passed with
    | true => exact h.complete path
    | false => exact Exec.keeps_pure _

/-- What the caches and the clock determine, lookups keep, and flushes and reads
where the operation is one, the operation keeps. -/
theorem perform_keeps_caches (hsame : ∀ w w', SameCaches w w' → R w w')
    (hlookup : ∀ key r, Exec.Keeps R (cachedRequest e key r)) {op : Op}
    (hflush : ∀ path, op = .flush path ∨ op = .mknod path → Exec.Keeps R (siafs_flush e path))
    (hread : ∀ path size offset, op = .read path size offset →
      Exec.Keeps R (siafs_read e path size offset)) :
    Exec.Keeps R (perform e op) := by
  have hmade : ∀ {α : Type} {m : Sia σ α}, Exec.Keeps SameCaches m → Exec.Keeps R m :=
    fun h w => hsame w _ (h w)
  have hparts : PartsKeep e R :=
    { put := fun path buf => hmade (SameCaches.put_object path buf)
      delete := fun path => hmade (SameCaches.del_object path)
      rename := fun source target mode => hmade (SameCaches.rename_object source target mode)
      write := fun path buf offset => hmade (SameCaches.write path buf offset)
      complete := fun path => hmade (SameCaches.completeUpload path) }
  exact hparts.perform (fun path => ⟨hlookup _ _, hlookup _ _, hlookup _ _, hlookup _ _⟩)
    hflush hread

end Perform

end SiaFS
