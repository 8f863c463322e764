/-
When the L1 cache answers as the server would.

A call first makes lookups, then changes something on the server, and at the end
`siafs_flush` may delete the two entries of its path.  A run is clean when no
call changes a lookup that it leaves in the cache: then every answer of
`siafs_getattr` and `siafs_readdir` is the one an empty cache gives.  Only
`siafs_mknod` and a write that is flushed delete anything, and a directory made
where a lookup found nothing is not seen.
-/
import SiaFS.Paths.Answers
import SiaFS.Cache.Keys
import SiaFS.Cache.SameCaches

namespace SiaFS

variable {σ : Type}

/-- The operations the cache is to be coherent over.  A write is followed by the
flush of its path; between the operations time passes. -/
inductive Call
  | mkdir (path : CStr)
  | mknod (path : CStr)
  | write (path : CStr) (buf : Bytes) (offset : Nat)
  | release (path : CStr)
  | unlink (path : CStr)
  | rmdir (path : CStr)
  | rename (source target : CStr)
  | getattr (path : CStr)
  | readdir (path : CStr)
  | wait (seconds : Nat)

namespace Call

/-- Time passes. -/
def idle (seconds : Nat) : Sia σ Unit :=
  Exec.modify fun w => { w with now := w.now + seconds }

def run (e : Env σ) : Call → Sia σ Unit
  | .mkdir path => do let _status ← siafs_mkdir e path
  | .mknod path => do let _status ← siafs_mknod e path
  | .write path buf offset => do
    let _size ← siafs_write e path buf offset
    let _status ← siafs_flush e path
  | .release path => do let _status ← siafs_release e path
  | .unlink path => do let _status ← siafs_unlink e path
  | .rmdir path => do let _status ← siafs_rmdir e path
  | .rename source target => do let _status ← siafs_rename e source target
  | .getattr path => do let _stat ← siafs_getattr e path
  | .readdir path => do let _names ← siafs_readdir e path
  | .wait seconds => idle seconds

/-- The paths whose lookups the call makes. -/
def paths : Call → List CStr
  | .release path | .rename path _ | .getattr path | .readdir path => [path]
  | _ => []

/-- The lookups that the call deletes from the cache at its end. -/
def Flushes : Call → Lookup → Prop
  | .mknod path, l | .write path _ _, l => l = .object path ∨ l = .list path
  | _, _ => False

/-- The lookups that the call makes before it changes anything: a release asks for
the size of a path that is no file, a rename whether the source is a directory. -/
def Asks (b : Catalogue) : Call → Lookup → Prop
  | .release path, l =>
    l = .list path ∨ l = .object path ∧ b.isFile path = false
  | .rename source _, l => l = .list (withSlash source)
  | _, _ => False

/-- Every lookup that the call changes is deleted from the cache by it, or neither
in the cache before nor put there by the call. -/
def Clean (e : Env σ) (P : CStr → Prop) (catalogue : σ → Catalogue) (c : Call) (w : World σ) :
    Prop :=
  ∀ l : Lookup, P l.path → l.Changed (catalogue w.server) (catalogue (c.run e w).2.server) →
    c.Flushes l ∨ ¬ Cached e w l ∧ ¬ c.Asks (catalogue w.server) l

end Call

/-! ## One call -/

section Step

variable {e : Env σ} {P : CStr → Prop} {catalogue : σ → Catalogue} {w w₁ w₂ w₃ : World σ}

/-- The lookups with `D` are no longer in the cache, nothing else changed. -/
structure Deletes (e : Env σ) (D : Lookup → Prop) (w w' : World σ) : Prop where
  server : w'.server = w.server
  lookup : ∀ (l : Lookup) body, mc_lookup w' (l.key e) = some body →
    mc_lookup w (l.key e) = some body ∧ ¬ D l

theorem Deletes.none (w : World σ) : Deletes e (fun _ => False) w w :=
  ⟨rfl, fun _ _ h => ⟨h, not_false⟩⟩

/-- A call that makes its lookups, then changes the server, then deletes some
lookups from the cache, and is clean, leaves the cache coherent. -/
theorem coherent_after (hC : Catalogued e.server catalogue) {Q D : Lookup → Prop}
    (hlooks : Looks e P catalogue Q w w₁) (hsame : SameCaches w₁ w₂) (hdel : Deletes e D w₂ w₃)
    (hclean : ∀ l : Lookup, P l.path → l.Changed (catalogue w.server) (catalogue w₃.server) →
      D l ∨ ¬ Cached e w l ∧ ¬ Q l)
    (hw : Coherent e P w) : Coherent e P w₃ := by
  intro l hp body hbody
  obtain ⟨h₂, hD⟩ := hdel.lookup l body hbody
  have h₁ : mc_lookup w₁ (l.key e) = some body := by
    rw [← mc_lookup_congr hsame.L1 hsame.now]
    exact h₂
  have hsee : ¬ l.Changed (catalogue w₁.server) (catalogue w₃.server) := by
    rw [hlooks.catalogue]
    intro hch
    rcases hclean l hp hch with hd | ⟨hnc, hnq⟩
    · exact hD hd
    · rcases hlooks.cached l hp (by rw [Cached, h₁]; rfl) with hc | hq
      · exact hnc hc
      · exact hnq hq
  exact (hlooks.coherent (fun _ h => h) hw l hp body h₁).trans (hC.alike hsee)

theorem flush_deletes (path : CStr) (w : World σ) :
    Deletes e (fun l => l = .object path ∨ l = .list path) w (siafs_flush e path w).2 := by
  refine ⟨rfl, fun l body h => ?_⟩
  have h' : mc_lookup (mc_del (listKey e path) (mc_del (objectsKey e path) w).2).2 (l.key e) =
      some body := h
  rw [mc_lookup_del, mc_lookup_del] at h'
  split at h'
  · cases h'
  · rename_i hlist
    split at h'
    · cases h'
    · rename_i hobject
      refine ⟨h', ?_⟩
      rintro (rfl | rfl)
      · exact hobject rfl
      · exact hlist rfl

/-- What the test of a release looks up. -/
theorem releaseCheck_looks (hC : Catalogued e.server catalogue)
    (hP : Keyed e P) (hw : Coherent e P w) {path : CStr} (hp : P path) :
    Looks e P catalogue (Call.Asks (catalogue w.server) (.release path)) w
      (releaseCheck e path w).2 := by
  have htrue : Truthful e catalogue (Coherent e P) (.list path) :=
    truthful_coherent hC hP (fun _ h => h) hp
  obtain ⟨w', hres, -⟩ := is_file_ends hC.toDescribed htrue hw
  have hfile : (sia_bus_objects_is_file e path w).1 = .ok ((catalogue w.server).isFile path) := by
    rw [hres]
  have hlist : Exec.Keeps (Looks e P catalogue (Call.Asks (catalogue w.server) (.release path)))
      (sia_bus_objects_is_file e path) :=
    Exec.keeps_bind (keeps_lookup hC hP (.list path) hp (Or.inl rfl)) fun _ => Exec.keeps_lift _
  rw [releaseCheck, Exec.bind_of_ok (Prod.ext hfile rfl)]
  cases hb : (catalogue w.server).isFile path with
  | true => exact hlist w
  | false =>
    refine IsTrans.trans _ _ _ (hlist w) ?_
    exact (Exec.keeps_bind (Exec.keeps_bind (keeps_lookup hC hP (.object path) hp
      (Or.inr ⟨rfl, hb⟩)) fun _ => Exec.keeps_pure _) fun _ => Exec.keeps_pure _ :
        Exec.Keeps (Looks e P catalogue (Call.Asks (catalogue w.server) (.release path))) _) _

theorem rename_looks (hC : Catalogued e.server catalogue)
    (hP : Keyed e P) {source : CStr} (hp : P source) (target : CStr) (w : World σ) :
    ∃ w₁, Looks e P catalogue (fun l => l = .list (withSlash source)) w w₁ ∧
      SameCaches w₁ (siafs_rename e source target w).2 := by
  have hdir : Exec.Keeps (Looks e P catalogue fun l => l = .list (withSlash source))
      (sia_bus_objects_is_dir e source) :=
    Exec.keeps_bind (keeps_lookup hC hP (.list (withSlash source)) (hP.withSlash _ hp) rfl) fun _ =>
      Exec.keeps_lift _
  refine ⟨(sia_bus_objects_is_dir e source w).2, hdir w, ?_⟩
  rcases hres : sia_bus_objects_is_dir e source w with ⟨x | is_dir, w₁⟩
  · rw [siafs_rename, Exec.bind_of_error hres]
    exact Std.Refl.refl w₁
  · rw [siafs_rename, Exec.bind_of_ok hres]
    cases is_dir with
    | true =>
      exact (Exec.keeps_bind (SameCaches.rename_object _ _ _) fun _ => Exec.keeps_pure _ :
        Exec.Keeps SameCaches _) w₁
    | false =>
      exact (Exec.keeps_bind (SameCaches.rename_object _ _ _) fun _ => Exec.keeps_pure _ :
        Exec.Keeps SameCaches _) w₁

theorem release_looks (hC : Catalogued e.server catalogue)
    (hP : Keyed e P) (hw : Coherent e P w) {path : CStr} (hp : P path) :
    ∃ w₁, Looks e P catalogue (Call.Asks (catalogue w.server) (.release path)) w w₁ ∧
      SameCaches w₁ (siafs_release e path w).2 := by
  refine ⟨_, releaseCheck_looks hC hP hw hp, ?_⟩
  rcases hres : releaseCheck e path w with ⟨x | passed, w₁⟩
  · rw [siafs_release, Exec.bind_of_error hres]
    exact Std.Refl.refl w₁
  · rw [siafs_release, Exec.bind_of_ok hres]
    cases passed with
    | true => exact SameCaches.completeUpload path w₁
    | false => exact Std.Refl.refl w₁

theorem coherent_idle (seconds : Nat) (hw : Coherent e P w) :
    Coherent e P { w with now := w.now + seconds } := by
  intro l hp body h
  exact hw l hp body (mc_lookup_later h)

/-- A call makes its lookups, changes the server and deletes entries, in this
order, or changes nothing on the server. -/
theorem Call.phases (hC : Catalogued e.server catalogue) (hP : Keyed e P)
    {c : Call} {u : Unit} (hp : ∀ p ∈ c.paths, P p) (hw : Coherent e P w)
    (hrun : c.run e w = (.ok u, w₃)) :
    (∃ w₁ w₂, Looks e P catalogue (c.Asks (catalogue w.server)) w w₁ ∧ SameCaches w₁ w₂ ∧
      Deletes e c.Flushes w₂ w₃) ∨ Coherent e P w₃ := by
  have hstate : w₃ = (c.run e w).2 := by rw [hrun]
  cases c with
  | mkdir path =>
    rw [Call.run, Exec.bind_pure_state] at hstate
    subst hstate
    refine Or.inl ⟨w, _, Std.Refl.refl w, ?_, Deletes.none _⟩
    have : Exec.Keeps SameCaches (siafs_mkdir e path) := by
      rw [siafs_mkdir]
      split
      · exact Exec.keeps_fault _
      · exact Exec.keeps_bind (SameCaches.put_object _ _) fun _ => Exec.keeps_pure _
    exact this w
  | mknod path =>
    rw [Call.run, Exec.bind_pure_state] at hstate
    subst hstate
    refine Or.inl ⟨w, _, Std.Refl.refl w, SameCaches.put_object (e := e) path [] w, ?_⟩
    exact flush_deletes path _
  | write path buf offset =>
    obtain ⟨size, w₂, hwrite, hflush⟩ := Exec.bind_eq_ok hrun
    have hsame := SameCaches.write (e := e) path buf offset w
    rw [hwrite] at hsame
    refine Or.inl ⟨w, w₂, Std.Refl.refl w, hsame, ?_⟩
    have := flush_deletes (e := e) path w₂
    rwa [show w₃ = (siafs_flush e path w₂).2 from (congrArg Prod.snd hflush).symm]
  | release path =>
    rw [Call.run, Exec.bind_pure_state] at hstate
    subst hstate
    obtain ⟨w₁, hlooks, hsame⟩ := release_looks hC hP hw (hp path (List.mem_singleton_self path))
    exact Or.inl ⟨w₁, _, hlooks, hsame, Deletes.none _⟩
  | unlink path =>
    rw [Call.run, Exec.bind_pure_state] at hstate
    subst hstate
    refine Or.inl ⟨w, _, Std.Refl.refl w, ?_, Deletes.none _⟩
    exact (Exec.keeps_bind (SameCaches.del_object _) fun _ => Exec.keeps_pure _ :
      Exec.Keeps SameCaches (siafs_unlink e path)) w
  | rmdir path =>
    rw [Call.run, Exec.bind_pure_state] at hstate
    subst hstate
    refine Or.inl ⟨w, _, Std.Refl.refl w, ?_, Deletes.none _⟩
    exact (Exec.keeps_bind (SameCaches.del_object _) fun _ => Exec.keeps_pure _ :
      Exec.Keeps SameCaches (siafs_rmdir e path)) w
  | rename source target =>
    rw [Call.run, Exec.bind_pure_state] at hstate
    subst hstate
    obtain ⟨w₁, hlooks, hsame⟩ := rename_looks hC hP (hp source (List.mem_singleton_self source))
      target w
    exact Or.inl ⟨w₁, _, hlooks, hsame, Deletes.none _⟩
  | getattr path =>
    rw [Call.run, Exec.bind_pure_state] at hstate
    exact Or.inr (hstate ▸ ((lookups_look hC hP (hp path
      (List.mem_singleton_self path))).getattr w).coherent (fun _ h => h) hw)
  | readdir path =>
    rw [Call.run, Exec.bind_pure_state] at hstate
    exact Or.inr (hstate ▸ ((lookups_look hC hP (hp path
      (List.mem_singleton_self path))).readdir w).coherent (fun _ h => h) hw)
  | wait seconds =>
    exact Or.inr (hstate ▸ coherent_idle seconds hw)

/-- A clean call that succeeds leaves the cache coherent. -/
theorem Call.coherent (hC : Catalogued e.server catalogue)
    (hP : Keyed e P) {c : Call} {u : Unit} (hp : ∀ p ∈ c.paths, P p)
    (hclean : c.Clean e P catalogue w) (hw : Coherent e P w)
    (hrun : c.run e w = (.ok u, w₃)) : Coherent e P w₃ := by
  rw [Call.Clean, hrun] at hclean
  rcases Call.phases hC hP hp hw hrun with ⟨w₁, w₂, hlooks, hsame, hdel⟩ | h
  · exact coherent_after hC hlooks hsame hdel hclean hw
  · exact h

end Step

/-! ## Runs -/

/-- The state with an empty L1 cache. -/
def World.uncached (w : World σ) : World σ :=
  { w with L1 := w.L1.map fun _ _ => none }

theorem coherent_uncached (e : Env σ) (P : CStr → Prop) (w : World σ) :
    Coherent e P w.uncached := by
  intro l _ body h
  cases hL : w.L1 <;> simp [mc_lookup, World.uncached, hL] at h

theorem coherent_of_empty {e : Env σ} {P : CStr → Prop} {w : World σ}
    (h : w.L1 = some fun _ => none) : Coherent e P w := by
  intro l _ body hbody
  simp [mc_lookup, h] at hbody

/-- In every run of clean calls from a state with an empty cache, every answer is
the one an empty cache gives. -/
theorem answers_uncached {e : Env σ} {P : CStr → Prop} {catalogue : σ → Catalogue}
    (hC : Catalogued e.server catalogue) (hP : Keyed e P)
    {calls : List Call} (hpaths : ∀ c ∈ calls, ∀ p ∈ c.paths, P p)
    {w w' : World σ} {us : List Unit} (hempty : w.L1 = some fun _ => none)
    (hclean : Exec.Along (Call.Clean e P catalogue) (Call.run e) calls w)
    (hrun : Exec.runAll (Call.run e) calls w = (.ok us, w')) {q : CStr} (hq : P q) :
    (siafs_getattr e q w').1 = (siafs_getattr e q w'.uncached).1 ∧
      (siafs_readdir e q w').1 = (siafs_readdir e q w'.uncached).1 := by
  have hend : Coherent e P w' := Exec.runAll_along_ok
    (fun c w u w' hc hw h => Call.coherent hC hP hc.1 hc.2 hw h)
    (Exec.along_and hpaths hclean) (coherent_of_empty hempty) hrun
  have htrue : ∀ l : Lookup, P l.path → Truthful e catalogue (Coherent e P) l :=
    fun l hl => truthful_coherent hC hP (fun _ h => h) hl
  have hslash := hP.withSlash q hq
  have hgetattr : ∀ v, Coherent e P v →
      (siafs_getattr e q v).1 = (catalogue v.server).getattr e v q := fun v hv => by
    obtain ⟨_, h, -⟩ := getattr_ends hC.toDescribed (htrue (.list q) hq) (fun _ => htrue (.object q) hq)
      (fun _ => htrue (.list (withSlash q)) hslash) hv
    rw [h]
  have hreaddir : ∀ v, Coherent e P v → (siafs_readdir e q v).1 =
      (fillEntries (listedEntries ((Lookup.object (withSlash q)).reply e v.server))).map
        fun names => lit "." :: lit ".." :: names := fun v hv => by
    obtain ⟨_, h, -⟩ := readdir_ends (htrue (.object (withSlash q)) hslash) hv
    rw [h]
  have hempty' := coherent_uncached e P w'
  rw [hgetattr w' hend, hgetattr _ hempty', hreaddir w' hend, hreaddir _ hempty']
  exact ⟨rfl, rfl⟩

theorem Call.clean_of_same {e : Env σ} {P : CStr → Prop} {catalogue : σ → Catalogue} {c : Call}
    {w : World σ} (h : catalogue (c.run e w).2.server = catalogue w.server) :
    c.Clean e P catalogue w := by
  intro l _ hl
  rw [h] at hl
  exact absurd hl (l.not_changed_self _)

/-- A file that is stored shows only in the lookups of what its name begins with. -/
theorem not_changed_put {s : Store} {file : CStr} {body : Bytes} {l : Lookup}
    (habove : ¬ l.path <+: file) : ¬ l.Changed s.catalogue (s.put file body).catalogue := by
  have hother : ∀ name, name ≠ file → (s.put file body).catalogue name = s.catalogue name := by
    intro name hname
    show (Function.update s.data file (some body) name).map _ = (s.data name).map _
    rw [Function.update_of_ne hname]
  have hpath : l.path ≠ file := fun h => habove (h ▸ List.prefix_refl _)
  cases l with
  | list path =>
    simp [Lookup.Changed, Catalogue.dirTime, hother path hpath]
  | object path =>
    have hshows : ∀ x, s.catalogue.Shows path x ↔ (s.put file body).catalogue.Shows path x := by
      refine fun x => exists_congr fun name => and_congr_left fun hbelow => ?_
      rw [hother name fun h => habove (h ▸ hbelow.1)]
    simp [Lookup.Changed, hshows, hother path hpath]

/-- A directory is made and looked up, then a file: the file's own lookups are the
only ones of the cache that its making changes, were they there. -/
theorem mkdir_getattr_mknod_clean :
    Exec.Along (Call.Clean hashingMount (· ∈ hashedPaths) Store.catalogue)
      (Call.run hashingMount) [.mkdir (lit "/d"), .getattr (lit "/d"), .mknod (lit "/f")]
      (mounted Store.blank (some fun _ => none)) := by
  have hd : lit "/d" ∈ hashedPaths := by decide
  refine ⟨fun l _ _ => Or.inr ⟨?_, not_false⟩, fun _ w₁ _ => ?_⟩
  · rw [not_cached_iff]
    rfl
  refine ⟨Call.clean_of_same ?_, fun _ w₂ _ => ?_⟩
  · rw [Call.run, Exec.bind_pure_state]
    exact ((lookups_look (renterd_catalogued _) keyed_hashingMount hd).getattr w₁).catalogue
  refine ⟨fun l hl hchanged => Or.inl ?_, fun _ _ _ => trivial⟩
  by_contra hother
  refine not_changed_put (fun habove : l.path <+: lit "/f" => hother ?_) hchanged
  have hf : l.path = lit "/f" := by
    generalize l.path = path at hl habove
    revert path
    decide
  cases l with
  | object path => exact Or.inl (congrArg Lookup.object hf)
  | list path => exact Or.inr (congrArg Lookup.list hf)

theorem answers_uncached_mkdir_mknod :
    ∃ us w', Exec.runAll (Call.run hashingMount)
        [.mkdir (lit "/d"), .getattr (lit "/d"), .mknod (lit "/f")]
        (mounted Store.blank (some fun _ => none)) = (.ok us, w') ∧
      (siafs_getattr hashingMount (lit "/f") w').1 =
        (siafs_getattr hashingMount (lit "/f") w'.uncached).1 ∧
      (siafs_readdir hashingMount (lit "/f") w').1 =
        (siafs_readdir hashingMount (lit "/f") w'.uncached).1 := by
  have hsome : (Exec.runAll (Call.run hashingMount)
      [.mkdir (lit "/d"), .getattr (lit "/d"), .mknod (lit "/f")]
      (mounted Store.blank (some fun _ => none))).1.toOption.isSome = true := by decide +kernel
  rcases hrun : Exec.runAll (Call.run hashingMount)
      [.mkdir (lit "/d"), .getattr (lit "/d"), .mknod (lit "/f")]
      (mounted Store.blank (some fun _ => none)) with ⟨_ | us, w'⟩
  · rw [hrun] at hsome
    cases hsome
  · exact ⟨us, w', rfl, answers_uncached (renterd_catalogued _) keyed_hashingMount
      (by decide) rfl mkdir_getattr_mknod_clean hrun (by decide)⟩

/-- A lookup that finds nothing stays in the cache, and the directory made there
afterwards is not seen. -/
theorem directory_not_seen :
    ∃ us w', Exec.runAll (Call.run hugeMount) [.getattr (lit "/a"), .mkdir (lit "/a")]
        (mounted Store.blank (some fun _ => none)) = (.ok us, w') ∧
      (siafs_getattr hugeMount (lit "/a") w').1 = .ok (.error ENOENT) ∧
      ∃ stat, (siafs_getattr hugeMount (lit "/a") w'.uncached).1 = .ok (.ok stat) ∧
        stat.st_mode = S_IFDIR ||| 0o755 :=
  ⟨_, _, rfl, rfl, _, rfl, rfl⟩

end SiaFS
