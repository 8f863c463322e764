/-
A new file, from its making to its reads, with both caches.

`siafs_flush` deletes the entries of the two lookups that tell the kind and the size
of a path.  Lookups before the flush may leave old replies there; after it the
cache knows nothing of the path but what the server says now, and so the size
reported and the ranges read are those of what was written.
-/
import SiaFS.Cache.Reading
import SiaFS.Cache.Steady

namespace SiaFS

variable {σ : Type}

/-- What is documented of stored objects and of their records in the catalogue. -/
structure Stores (server : σ → Request → Reply × σ) (objects : σ → CStr → Option Bytes)
    (catalogue : σ → Catalogue) : Prop where
  objects_list_keeps : ∀ s path, objects (server s (.objects_list path)).2 = objects s
  worker_get_keeps : ∀ s path first last,
    catalogue (server s (.worker_get path first last)).2 = catalogue s
  put : ∀ s path body, objects (server s (.worker_put path body)).2 path = some body
  put_others : ∀ s path body name, name ≠ path →
    catalogue (server s (.worker_put path body)).2 name = catalogue s name
  entry : ∀ s path body, objects s path = some body →
    ∃ modTime, catalogue s path = some { size := body.length, modTime := modTime }
  times : ∀ s, (catalogue s).TimesFit

/-- What may happen between two steps. -/
inductive Beside
  | getattr (path : CStr)
  | wait (seconds : Nat)

def Beside.run (e : Env σ) : Beside → Sia σ Unit
  | .getattr path => do let _stat ← siafs_getattr e path
  | .wait seconds => Call.idle seconds

def Beside.paths : Beside → List CStr
  | .getattr path => [path]
  | .wait _ => []

/-- What may happen once the file is released. -/
inductive Later
  | beside (b : Beside)
  | read (size offset : Nat)

def Later.run (e : Env σ) (p : CStr) : Later → Sia σ Unit
  | .beside b => b.run e
  | .read size offset => do let _bytes ← siafs_read e p size offset

/-- The paths looked up are in `P`, and the range read ends within the file offsets. -/
def Later.Fits (P : CStr → Prop) : Later → Prop
  | .beside b => ∀ q ∈ b.paths, P q
  | .read size offset => 1 ≤ size ∧ size < 2 ^ 63 ∧ offset < 2 ^ 63

/-- A file is made, written, flushed and released. -/
def firstWrite (e : Env σ) (p : CStr) (c : Bytes) (g₀ g₁ g₂ g₃ : List Beside) :
    Sia σ Unit := do
  let _ ← Exec.runAll (Beside.run e) g₀
  let _status ← siafs_mknod e p
  let _ ← Exec.runAll (Beside.run e) g₁
  let _size ← siafs_write e p c 0
  let _ ← Exec.runAll (Beside.run e) g₂
  let _status ← siafs_flush e p
  let _ ← Exec.runAll (Beside.run e) g₃
  let _status ← siafs_release e p

section Setting

variable {e : Env σ} {objects : σ → CStr → Option Bytes} {catalogue : σ → Catalogue}
  {P : CStr → Prop} {p : CStr} {c : Bytes}

/-! ## Lookups and time -/

/-- What lookups and the passing of time keep, as far as the path `p` is concerned. -/
structure Around (e : Env σ) (objects : σ → CStr → Option Bytes) (p : CStr) (w w' : World σ) :
    Prop where
  uploads : w'.uploads = w.uploads
  L2 : w'.L2 = w.L2
  stored : objects w'.server = objects w.server
  coherent : Coherent e (· = p) w → Coherent e (· = p) w'

instance : Std.Refl (Around e objects p) where
  refl _ := ⟨rfl, rfl, rfl, fun h => h⟩

instance : IsTrans (World σ) (Around e objects p) where
  trans _ _ _ hab hbc := ⟨hbc.uploads.trans hab.uploads, hbc.L2.trans hab.L2,
    hbc.stored.trans hab.stored, fun h => hbc.coherent (hab.coherent h)⟩

section Around

variable (hC : Catalogued e.server catalogue) (hB : Ranged e.server objects (· = p))
  (hS : Stores e.server objects catalogue) (hP : Keyed e P) (hp : P p)

include hC hB hS hP hp

theorem around_lookup (l : Lookup) (hl : P l.path) :
    Exec.Keeps (Around e objects p) (cachedRequest e (l.key e) l.request) := by
  refine cachedRequest_keeps fun w hmiss => ?_
  have hlooks := keeps_lookup hC hP (Q := fun _ => True) l hl trivial w
  rw [cachedRequest_miss hmiss] at hlooks
  refine ⟨rfl, rfl, ?_, hlooks.coherent (forall_eq.mpr hp)⟩
  cases l with
  | object path => exact hB.objects_keeps w.server path
  | list path => exact hS.objects_list_keeps w.server path

theorem around_lookups {path : CStr} (hpath : P path) :
    LookupsKeep e (Around e objects p) path where
  object := around_lookup hC hB hS hP hp (.object path) hpath
  list := around_lookup hC hB hS hP hp (.list path) hpath
  entries := around_lookup hC hB hS hP hp (.object (withSlash path)) (hP.withSlash _ hpath)
  listDir := around_lookup hC hB hS hP hp (.list (withSlash path)) (hP.withSlash _ hpath)

theorem Beside.around {b : Beside} (hb : ∀ q ∈ b.paths, P q) :
    Exec.Keeps (Around e objects p) (b.run e) := by
  cases b with
  | getattr path =>
    have hpath := hb path (List.mem_singleton_self path)
    exact Exec.keeps_bind (around_lookups hC hB hS hP hp hpath).getattr fun _ => Exec.keeps_pure _
  | wait seconds =>
    intro w
    exact ⟨rfl, rfl, rfl, fun h => coherent_idle seconds h⟩

theorem besides_around {g : List Beside} (hg : ∀ b ∈ g, ∀ q ∈ b.paths, P q) {w w' : World σ}
    {us : List Unit} (h : Exec.runAll (Beside.run e) g w = (.ok us, w')) :
    Around e objects p w w' := by
  have hrun := Exec.runAll_invariant (fun b hb w₁ h => IsTrans.trans _ _ _ h
    (Beside.around hC hB hS hP hp (hg b hb) w₁)) (Std.Refl.refl (r := Around e objects p) w)
  rwa [h] at hrun

end Around

/-! ## After the flush -/

/-- The server stores the bytes, the cache tells of the path what the server says, and
the files hold the bytes. -/
structure Flushed (e : Env σ) (objects : σ → CStr → Option Bytes) (p : CStr) (c : Bytes)
    (w : World σ) : Prop where
  stored : objects w.server p = some c
  coherent : Coherent e (· = p) w
  files : ∀ size offset bytes, cachedFile e w p size offset = some bytes →
    bytes.take size = (c.drop offset).take size

theorem Flushed.around {w w' : World σ} (hw : Flushed e objects p c w)
    (h : Around e objects p w w') : Flushed e objects p c w' := by
  refine ⟨by rw [h.stored]; exact hw.stored, h.coherent hw.coherent, fun size offset bytes hfile => ?_⟩
  rw [cachedFile_congr h.L2] at hfile
  exact hw.files size offset bytes hfile

/-- The flush leaves nothing of the path in the cache. -/
theorem flushed_of_flush {w : World σ} (hstored : objects w.server p = some c)
    (hfiles : ∀ size offset, cachedFile e w p size offset = none) :
    Flushed e objects p c (siafs_flush e p w).2 := by
  refine ⟨hstored, fun l hl body hbody => ?_, fun size offset bytes hfile => ?_⟩
  · have hgone := ((flush_deletes p w).lookup l body hbody).2
    cases l with
    | object path =>
      obtain rfl : path = p := hl
      exact absurd (Or.inl rfl) hgone
    | list path =>
      obtain rfl : path = p := hl
      exact absurd (Or.inr rfl) hgone
  · have hfile : cachedFile e w p size offset = some bytes := hfile
    rw [hfiles] at hfile
    cases hfile

/-- MD5 cannot collide on one path. -/
theorem hashed_singleton (e : Env σ) (p : CStr) : Hashed e (· = p) where
  path := by
    rintro _ rfl _ rfl -
    rfl
  object := by
    rintro _ ⟨_, rfl, rfl⟩ _ ⟨_, rfl, rfl⟩ -
    rfl

/-- The release of a file without an upload to complete. -/
theorem release_file {w w₁ : World σ} (hfile : sia_bus_objects_is_file e p w = (.ok true, w₁))
    (huploads : w₁.uploads = []) : siafs_release e p w = (.ok 0, w₁) := by
  have hcheck : releaseCheck e p w = (.ok true, w₁) := by
    rw [releaseCheck, Exec.bind_of_ok hfile]
    rfl
  rw [siafs_release, Exec.bind_of_ok hcheck, if_pos rfl, completeUpload_none (by rw [huploads]; rfl),
    if_pos huploads]

section Flushed

variable (hC : Catalogued e.server catalogue) (hB : Ranged e.server objects (· = p))
  (hS : Stores e.server objects catalogue) (hP : Keyed e P) (hp : P p)
  (hslash : endsWithSlash p = false) (hc : 0 < c.length) (hc31 : c.length < 2 ^ 31)
  {w : World σ} {size offset : Nat}

include hB hslash hc31 in
theorem Flushed.exact (hw : Flushed e objects p c w) : Exact e objects (· = p) (fun _ => c) w := by
  refine ⟨?_, ?_, ?_⟩
  · rintro _ rfl
    exact hw.stored
  · rintro path rfl body hbody
    have halike := hw.coherent (.object path) rfl body hbody _ _ (.size path hslash)
    rw [halike]
    exact hB.replySize rfl hw.stored hc31
  · rintro path rfl size offset bytes hfile
    exact hw.files size offset bytes hfile

include hC hS hP hp in
/-- A read makes a lookup and asks for a range. -/
theorem read_looks (size offset : Nat) :
    ReadKeeps e (Looks e P catalogue fun _ => True) p size offset where
  object := keeps_lookup hC hP (.object p) hp trivial
  range first last := by
    intro w
    have hkeeps := hS.worker_get_keeps w.server p first last
    refine ⟨rfl, hkeeps, fun _ hw l hl body hbody => ?_, fun l _ hl => Or.inl hl⟩
    exact (hw l hl body hbody).trans (hC.reply_alike hkeeps.symm)
  file := disk_set_keeps fun w _ _ _ => ⟨rfl, rfl, fun _ h => h, fun _ _ h => Or.inl h⟩

include hC hB hS hP hp hslash hc hc31 in
theorem Flushed.read (hw : Flushed e objects p c w) (hsize : 1 ≤ size) (hsize63 : size < 2 ^ 63)
    (hoffset : offset < 2 ^ 63) :
    ∃ w', siafs_read e p size offset w = (.ok ((c.drop offset).take size), w') ∧
      Flushed e objects p c w' := by
  obtain ⟨w', hread, hexact⟩ := (hw.exact hB hslash hc31).read hB (hashed_singleton e p)
    (fun _ _ => ⟨hc, hc31⟩) rfl hsize hsize63 hoffset
  have hlooks := (read_looks hC hS hP hp size offset).read w
  rw [hread] at hlooks
  refine ⟨w', hread, hexact.stored p rfl, ?_, hexact.files p rfl⟩
  exact hlooks.coherent (forall_eq.mpr hp) hw.coherent

include hC hS hP hp hslash hc31 in
theorem Flushed.getattr (hw : Flushed e objects p c w) (hroot : p ≠ [slash]) :
    ∃ stat, (siafs_getattr e p w).1 = .ok (.ok stat) ∧ stat.st_mode &&& S_IFMT = S_IFREG ∧
      stat.st_size = c.length := by
  obtain ⟨modTime, hentry⟩ := hS.entry w.server p c hw.stored
  have htrue : ∀ l : Lookup, l.path = p → Truthful e catalogue (Coherent e (· = p)) l :=
    fun l hl => truthful_coherent hC hP (forall_eq.mpr hp) hl
  have hfile : (catalogue w.server).isFile p = true :=
    Catalogue.isFile_iff.mpr ⟨⟨_, hentry⟩, hslash⟩
  obtain ⟨_, hres, -⟩ := getattr_ends hC.toDescribed (htrue (.list p) rfl)
    (fun _ => htrue (.object p) rfl) (fun h => absurd hfile (by simp [h])) hw.coherent
  obtain ⟨stat, hstat, hmode, hst_size⟩ :=
    Catalogue.getattr_file (e := e) (w := w) (hS.times w.server) hroot hfile
  refine ⟨stat, by rw [hres, hstat], file_mode hmode, ?_⟩
  rw [hst_size, hentry]
  show s64 (u64 (Json.valueint (.num c.length))) = c.length
  rw [Json.valueint, u64, s64]
  split <;> omega

include hC hB hS hP hp hslash in
/-- The release finds a file, and no upload to complete. -/
theorem Flushed.release (hw : Flushed e objects p c w) (huploads : w.uploads = []) :
    ∃ w', siafs_release e p w = (.ok 0, w') ∧ Flushed e objects p c w' := by
  obtain ⟨modTime, hentry⟩ := hS.entry w.server p c hw.stored
  have hfile : (catalogue w.server).isFile p = true :=
    Catalogue.isFile_iff.mpr ⟨⟨_, hentry⟩, hslash⟩
  have htrue : Truthful e catalogue (Coherent e (· = p)) (.list p) :=
    truthful_coherent hC hP (forall_eq.mpr hp) rfl
  obtain ⟨w₁, hres, -⟩ := is_file_ends hC.toDescribed htrue hw.coherent
  rw [hfile] at hres
  have haround := (around_lookups hC hB hS hP hp hp).is_file w
  rw [hres] at haround
  exact ⟨w₁, release_file hres (haround.uploads.trans huploads), hw.around haround⟩

include hC hB hS hP hp hslash hc hc31 in
theorem Flushed.later {l : Later} (hl : l.Fits P) (hw : Flushed e objects p c w) :
    Flushed e objects p c (l.run e p w).2 := by
  cases l with
  | beside b => exact hw.around (Beside.around hC hB hS hP hp hl w)
  | read size offset =>
    obtain ⟨w', hread, hw'⟩ := hw.read hC hB hS hP hp hslash hc hc31 hl.1 hl.2.1 hl.2.2
    rw [Later.run, Exec.bind_of_ok hread]
    exact hw'

end Flushed

/-! ## The steps -/

/-- No upload is under way and the path has no file in the L2 cache. -/
structure Unread (e : Env σ) (p : CStr) (w : World σ) : Prop where
  uploads : w.uploads = []
  files : ∀ size offset, cachedFile e w p size offset = none

theorem Unread.congr {w w' : World σ} (hw : Unread e p w) (huploads : w'.uploads = w.uploads)
    (hL2 : w'.L2 = w.L2) : Unread e p w' :=
  ⟨huploads.trans hw.uploads, fun size offset => by rw [cachedFile_congr hL2]; exact hw.files _ _⟩

theorem mknod_apply (w : World σ) :
    siafs_mknod e p w = (.ok 0, (siafs_flush e p (sendAll e [.worker_put p []] w)).2) := rfl

theorem write_small_apply (hsmall : c.length < e.small) (w : World σ) :
    siafs_write e p c 0 w = (.ok c.length, sendAll e [.worker_put p c] w) := by
  rw [siafs_write, if_pos ⟨rfl, hsmall⟩]
  rfl

section Steps

variable (hC : Catalogued e.server catalogue) (hB : Ranged e.server objects (· = p))
  (hS : Stores e.server objects catalogue) (hP : Keyed e P) (hp : P p)
  (hslash : endsWithSlash p = false) (hc : 0 < c.length) (hsmall : c.length < e.small)
  {g₀ g₁ g₂ g₃ : List Beside} (hg₀ : ∀ b ∈ g₀, ∀ q ∈ b.paths, P q)
  (hg₁ : ∀ b ∈ g₁, ∀ q ∈ b.paths, P q) (hg₂ : ∀ b ∈ g₂, ∀ q ∈ b.paths, P q)
  (hg₃ : ∀ b ∈ g₃, ∀ q ∈ b.paths, P q) {w : World σ}

theorem small_lt (e : Env σ) : e.small < 2 ^ 31 := by
  show SIAFS_SMALL_FILE_SIZE_BYTES e.fuse < 2 ^ 31
  cases e.fuse <;> decide


include hC hB hS hP hp hslash hsmall hg₀ hg₁ hg₂ hg₃ in
/-- However the lookups before the flush were answered, the steps end with the cache
and the files in agreement with what was written. -/
theorem firstWrite_flushed {w' : World σ} (hw : Unread e p w)
    (hrun : firstWrite e p c g₀ g₁ g₂ g₃ w = (.ok (), w')) : Flushed e objects p c w' := by
  obtain ⟨_, w₁, h₁, hrun⟩ := Exec.bind_eq_ok hrun
  have ha₁ := besides_around hC hB hS hP hp hg₀ h₁
  have hw₁ := hw.congr ha₁.uploads ha₁.L2
  obtain ⟨_, w₂, h₂, hrun⟩ := Exec.bind_eq_ok hrun
  have hw₂ : Unread e p w₂ := by
    rw [mknod_apply] at h₂
    cases h₂
    exact hw₁.congr rfl rfl
  obtain ⟨_, w₃, h₃, hrun⟩ := Exec.bind_eq_ok hrun
  have ha₃ := besides_around hC hB hS hP hp hg₁ h₃
  have hw₃ := hw₂.congr ha₃.uploads ha₃.L2
  obtain ⟨_, w₄, h₄, hrun⟩ := Exec.bind_eq_ok hrun
  rw [write_small_apply hsmall] at h₄
  have hw₄ : Unread e p w₄ := by
    cases h₄
    exact hw₃.congr rfl rfl
  have hstored₄ : objects w₄.server p = some c := by
    cases h₄
    exact hS.put w₃.server p c
  obtain ⟨_, w₅, h₅, hrun⟩ := Exec.bind_eq_ok hrun
  have ha₅ := besides_around hC hB hS hP hp hg₂ h₅
  have hw₅ := hw₄.congr ha₅.uploads ha₅.L2
  obtain ⟨_, w₆, h₆, hrun⟩ := Exec.bind_eq_ok hrun
  have hflushed : Flushed e objects p c w₆ := by
    cases h₆
    exact flushed_of_flush (by rw [ha₅.stored, hstored₄]) hw₅.files
  have huploads : w₆.uploads = [] := by
    cases h₆
    exact hw₅.uploads
  obtain ⟨_, w₇, h₇, hrun⟩ := Exec.bind_eq_ok hrun
  have ha₇ := besides_around hC hB hS hP hp hg₃ h₇
  obtain ⟨_, w₈, h₈, hrun⟩ := Exec.bind_eq_ok hrun
  obtain ⟨_, hrelease, hw₈⟩ := (hflushed.around ha₇).release hC hB hS hP hp hslash
    (ha₇.uploads.trans huploads)
  cases hrelease.symm.trans h₈
  cases hrun
  exact hw₈

/-! ## The steps come to an end -/

variable {b : Catalogue}

include hC hS hslash in
/-- A put of an object leaves the cache steady when the object was there before or is
not in the cache afterwards. -/
theorem Steady.put {w' : World σ} (body : Bytes) (hw : Steady e P catalogue b w)
    (hserver : w'.server = (e.server w.server (.worker_put p body)).2)
    (hfewer : ∀ (l : Lookup) x, mc_lookup w' (l.key e) = some x →
      mc_lookup w (l.key e) = some x ∧ (l.path = p → (b p).isSome)) :
    Steady e P catalogue (catalogue w'.server) w' := by
  have hothers : ∀ path, path ≠ p → catalogue w'.server path = catalogue w.server path :=
    fun path hne => by rw [hserver]; exact hS.put_others w.server p body path hne
  have hnew : (catalogue w'.server p).isSome := by
    obtain ⟨modTime, hentry⟩ := hS.entry w'.server p body (by rw [hserver]; exact hS.put _ _ _)
    rw [hentry]
    rfl
  refine ⟨rfl, fun path hpath x hx => ?_, fun path hpath hs hb x hx => ?_⟩
  · obtain ⟨hold, hsome⟩ := hfewer (.list path) x hx
    refine (hw.lists path hpath x hold).trans (hC.alike ?_)
    by_cases hne : path = p
    · subst hne
      rw [Lookup.Changed, if_neg (by simp [hslash]), not_not, hnew, hw.catalogue]
      exact hsome rfl
    · have hsame := hothers path hne
      have hdir : (catalogue w'.server).dirTime path = (catalogue w.server).dirTime path := by
        rw [Catalogue.dirTime, hsame, Catalogue.dirTime]
      rw [Lookup.Changed, hsame, hdir]
      simp
  · obtain ⟨hold, hsome⟩ := hfewer (.object path) x hx
    refine hw.records path hpath hs ?_ x hold
    by_cases hne : path = p
    · subst hne
      exact hsome rfl
    · rwa [hothers path hne, hw.catalogue] at hb

include hC hP in
theorem Beside.total (hb : b.TimesFit) {beside : Beside} (hbeside : ∀ q ∈ beside.paths, P q)
    (hw : Steady e P catalogue b w) :
    ∃ w', beside.run e w = (.ok (), w') ∧ Steady e P catalogue b w' ∧ w'.uploads = w.uploads := by
  cases beside with
  | getattr path =>
    obtain ⟨stat, w', hres, hw'⟩ :=
      hw.getattr hC hP hb (hbeside path (List.mem_singleton_self path))
    have hasks := keeps_getattr (e := e) path w
    rw [hres] at hasks
    exact ⟨w', Exec.bind_of_ok hres, hw', hasks.uploads⟩
  | wait seconds => exact ⟨_, rfl, hw.idle seconds, rfl⟩

include hC hS hP in
theorem besides_total {g : List Beside} (hg : ∀ b ∈ g, ∀ q ∈ b.paths, P q)
    (hw : Steady e P catalogue b w) (huploads : w.uploads = []) :
    ∃ us w', Exec.runAll (Beside.run e) g w = (.ok us, w') ∧
      Steady e P catalogue b w' ∧ w'.uploads = [] := by
  have hb : b.TimesFit := by
    rw [← hw.catalogue]
    exact hS.times _
  refine Exec.runAll_total (I := fun w => Steady e P catalogue b w ∧ w.uploads = []) ?_
    ⟨hw, huploads⟩
  rintro beside hbeside w₁ ⟨hw₁, hu₁⟩
  obtain ⟨w₂, h₂, hw₂, hu₂⟩ := Beside.total hC hP hb (hg beside hbeside) hw₁
  exact ⟨(), w₂, h₂, hw₂, hu₂.trans hu₁⟩

include hC hB hS hP hp hslash hsmall hg₀ hg₁ hg₂ hg₃ in
/-- Over a cache that is coherent in the beginning no lookup fails. -/
theorem firstWrite_completes (hw : Unread e p w) (hcoherent : Coherent e P w) :
    ∃ w', firstWrite e p c g₀ g₁ g₂ g₃ w = (.ok (), w') ∧
      Steady e P catalogue (catalogue w'.server) w' := by
  have hsteady := steady_of_coherent hC (hS.times w.server) hcoherent rfl
  have hpresent : ∀ s body, (catalogue (e.server s (.worker_put p body)).2 p).isSome := by
    intro s body
    obtain ⟨modTime, hentry⟩ := hS.entry _ p body (hS.put s p body)
    rw [hentry]
    rfl
  obtain ⟨_, w₁, h₁, hw₁, hu₁⟩ := besides_total hC hS hP hg₀ hsteady hw.uploads
  have hw₂ : Steady e P catalogue (catalogue (e.server w₁.server (.worker_put p [])).2)
      (siafs_mknod e p w₁).2 := hw₁.put hC hS hslash [] rfl fun l x hx => by
    obtain ⟨hold, hgone⟩ := (flush_deletes p (sendAll e [.worker_put p []] w₁)).lookup l x hx
    refine ⟨hold, ?_⟩
    rintro rfl
    cases l with
    | object path => exact absurd (Or.inl rfl) hgone
    | list path => exact absurd (Or.inr rfl) hgone
  obtain ⟨_, w₃, h₃, hw₃, hu₃⟩ := besides_total hC hS hP hg₁ hw₂ hu₁
  have hw₄ : Steady e P catalogue (catalogue (sendAll e [.worker_put p c] w₃).server)
      (sendAll e [.worker_put p c] w₃) :=
    hw₃.put hC hS hslash c rfl fun l x hx => ⟨hx, fun _ => hpresent _ _⟩
  obtain ⟨_, w₅, h₅, hw₅, hu₅⟩ := besides_total hC hS hP hg₂ hw₄ hu₃
  have hw₆ := hw₅.fewer (rfl : (siafs_flush e p w₅).2.server = w₅.server) fun l x hx =>
    ((flush_deletes p w₅).lookup l x hx).1
  obtain ⟨_, w₇, h₇, hw₇, hu₇⟩ := besides_total hC hS hP hg₃ hw₆ hu₅
  have hfile : (catalogue w₇.server).isFile p = true := by
    rw [hw₇.catalogue, Catalogue.isFile_of_not_slash hslash]
    exact hpresent _ _
  obtain ⟨w₈, hres, hw₈, -⟩ := is_file_ends hC.toDescribed
    (Steady.truthful hC hP (by rw [← hw₇.catalogue]; exact hS.times _) hp) hw₇
  rw [hfile] at hres
  have hasks := keeps_is_file (e := e) p w₇
  rw [hres] at hasks
  have h₈ := release_file hres (hasks.uploads.trans hu₇)
  refine ⟨w₈, ?_, by rw [hw₈.catalogue]; exact hw₈⟩
  have h₂ : siafs_mknod e p w₁ = (.ok 0, (siafs_mknod e p w₁).2) := rfl
  have h₆ : siafs_flush e p w₅ = (.ok 0, (siafs_flush e p w₅).2) := rfl
  rw [firstWrite, Exec.bind_of_ok h₁, Exec.bind_of_ok h₂, Exec.bind_of_ok h₃,
    Exec.bind_of_ok (write_small_apply hsmall w₃), Exec.bind_of_ok h₅, Exec.bind_of_ok h₆,
    Exec.bind_of_ok h₇, Exec.bind_of_ok h₈]
  rfl

include hC hS hP hp in
theorem read_steady (hb : b.TimesFit) (size offset : Nat) :
    ReadKeeps e (Exec.Carries (Steady e P catalogue b)) p size offset where
  object _ hw := hw.lookup hC hP hb (.object p) hp
  range first last := by
    intro w hw
    have hkeeps := hS.worker_get_keeps w.server p first last
    refine ⟨hkeeps.trans hw.catalogue, fun path hpath x hx => ?_, hw.records⟩
    exact (hw.lists path hpath x hx).trans (hC.reply_alike hkeeps.symm)
  file := disk_set_keeps fun w _ _ _ hw => hw.fewer rfl fun _ _ h => h

include hC hB hS hP hp hslash hc hsmall in
theorem later_completes (hflushed : Flushed e objects p c w) (hsteady : Steady e P catalogue b w)
    {later : List Later} (hlater : ∀ l ∈ later, l.Fits P) :
    ∃ us w', Exec.runAll (Later.run e p) later w = (.ok us, w') := by
  have hc31 := Nat.lt_trans hsmall (small_lt e)
  have hb : b.TimesFit := by
    rw [← hsteady.catalogue]
    exact hS.times _
  have htotal : ∀ l ∈ later, ∀ w₁, Flushed e objects p c w₁ ∧ Steady e P catalogue b w₁ →
      ∃ u w₂, l.run e p w₁ = (.ok u, w₂) ∧ Flushed e objects p c w₂ ∧
        Steady e P catalogue b w₂ := by
    rintro l hl w₁ ⟨hf₁, hs₁⟩
    cases l with
    | beside beside =>
      obtain ⟨w₂, h₂, hs₂, -⟩ := Beside.total hC hP hb (hlater _ hl) hs₁
      have hf₂ := hf₁.later hC hB hS hP hp hslash hc hc31 (hlater _ hl)
      rw [Later.run, h₂] at hf₂
      exact ⟨(), w₂, h₂, hf₂, hs₂⟩
    | read size offset =>
      obtain ⟨hsize, hsize63, hoffset⟩ := hlater _ hl
      obtain ⟨w₂, hread, hf₂⟩ := hf₁.read hC hB hS hP hp hslash hc hc31 hsize hsize63 hoffset
      have hs₂ := (read_steady hC hS hP hp hb size offset).read w₁ hs₁
      rw [hread] at hs₂
      exact ⟨(), w₂, Exec.bind_of_ok hread, hf₂, hs₂⟩
  obtain ⟨us, w', hrun, -⟩ := Exec.runAll_total htotal ⟨hflushed, hsteady⟩
  exact ⟨us, w', hrun⟩

end Steps

end Setting

/-! ## On a server -/

theorem renterd_stores (refuse : Nat → Bool) :
    Stores (renterd refuse) Store.data Store.catalogue where
  objects_list_keeps s path := rfl
  worker_get_keeps s path first last :=
    congrArg Store.catalogue (renterd_worker_get_state refuse s path first last)
  put s path body := Function.update_self path _ _
  put_others s path body name hne := by
    show (Function.update s.data path (some body) name).map _ = (s.data name).map _
    rw [Function.update_of_ne hne]
  entry s path body hbody := by
    rw [Store.catalogue, hbody]
    exact ⟨_, rfl⟩
  times s := s.timesFit

end SiaFS
