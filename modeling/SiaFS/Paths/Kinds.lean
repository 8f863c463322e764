/-
What a path is, without caches.

The program decides it by scanning listings: the path is a file when an object
has its name, a directory when an object of size zero has its name with a slash
added.  No other object of the bucket takes part in the decision, wherever it
stands in a listing.
-/
import SiaFS.Paths.Answers

namespace SiaFS

variable {σ : Type}

/-! ## Kinds of answers -/

def S_IFMT : Nat := 0o170000

/-- `S_ISREG` of the mode reported. -/
def ReportsFile (answer : Except Fault (Except Int Stat)) : Prop :=
  ∃ stat, answer = .ok (.ok stat) ∧ stat.st_mode &&& S_IFMT = S_IFREG

/-- `S_ISDIR` of the mode reported. -/
def ReportsDir (answer : Except Fault (Except Int Stat)) : Prop :=
  ∃ stat, answer = .ok (.ok stat) ∧ stat.st_mode &&& S_IFMT = S_IFDIR

theorem reportsFile_iff (stat : Stat) :
    ReportsFile (.ok (.ok stat)) ↔ stat.st_mode &&& S_IFMT = S_IFREG := by
  simp [ReportsFile]

theorem reportsDir_iff (stat : Stat) :
    ReportsDir (.ok (.ok stat)) ↔ stat.st_mode &&& S_IFMT = S_IFDIR := by
  simp [ReportsDir]

theorem reg_ne_dir : S_IFREG ≠ S_IFDIR := by decide

theorem file_mode {mode : Nat} (h : mode = S_IFREG ||| 0o644) : mode &&& S_IFMT = S_IFREG := by
  subst h
  decide

theorem dir_mode {mode : Nat} (h : mode = S_IFDIR ||| 0o755) : mode &&& S_IFMT = S_IFDIR := by
  subst h
  decide

/-- Every modification time fits into the buffer of `sia_bus_objects_unixtime`. -/
def Catalogue.TimesFit (b : Catalogue) : Prop :=
  ∀ name entry, b name = some entry → entry.modTime.length < 32

/-- The object is the marker of a directory. -/
def Catalogue.Empty (b : Catalogue) (name : CStr) : Prop :=
  ∃ entry, b name = some entry ∧ entry.size = 0

theorem Store.timesFit (s : Store) : s.catalogue.TimesFit := by
  intro name entry h
  obtain ⟨body, -, rfl⟩ := Option.map_eq_some_iff.mp h
  exact show (lit "2024-01-01T00:00:00Z").length < 32 by decide

section Kinds

variable {e : Env σ} {b b' : Catalogue} {w w' : World σ} {path : CStr}

theorem valueint_num_eq_zero (n : Int) : Json.valueint (.num n) = 0 ↔ n = 0 := by
  show max (-2 ^ 31) (min n (2 ^ 31 - 1)) = 0 ↔ n = 0
  omega

theorem Catalogue.dirTime_isSome : (b.dirTime path).isSome = true ↔ b.Empty path := by
  rw [Catalogue.dirTime, Catalogue.Empty]
  cases b path with
  | none => simp
  | some entry =>
    simp only [Option.bind_some, Option.some.injEq, exists_eq_left', valueint_num_eq_zero]
    split <;> simp_all

theorem withSlash_of_not_slash (h : endsWithSlash path = false) :
    withSlash path = path ++ [slash] := by
  rw [withSlash, if_neg (by simp [h])]

theorem Catalogue.isFile_of_not_slash (h : endsWithSlash path = false) :
    b.isFile path = (b path).isSome := by
  rw [Catalogue.isFile, h]
  exact Bool.and_true _

theorem Catalogue.isDir_iff (h : endsWithSlash path = false) :
    b.isDir path = true ↔ b.Empty (path ++ [slash]) := by
  rw [Catalogue.isDir, Catalogue.dirTime_isSome, withSlash_of_not_slash h]

theorem statTime_ok (e : Env σ) {modTime : CStr} (h : modTime.length < 32) :
    ∃ mtime, statTime e modTime = .ok mtime := by
  have hcopy : copyTimestamp (some modTime) = .ok modTime := if_pos h
  have hbind : statTime e modTime =
      .ok (((e.host.strptime modTime).map e.host.mktime).getD 0) := by
    rw [statTime, hcopy]
    dsimp only [bind, Except.bind]
    cases e.host.strptime modTime <;> rfl
  exact ⟨_, hbind⟩

/-- The time of what is found can be read. -/
theorem Catalogue.TimesFit.unixtime (h : b.TimesFit)
    (hfound : b.isFile path = true ∨ b.isDir path = true) :
    ∃ mtime, b.unixtime e path = .ok mtime := by
  rw [Catalogue.unixtime, Catalogue.modTime]
  cases hfile : b.isFile path with
  | true =>
    obtain ⟨⟨entry, hentry⟩, -⟩ := Catalogue.isFile_iff.mp hfile
    rw [if_pos rfl, hentry]
    exact statTime_ok e (h path entry hentry)
  | false =>
    have hdir : b.isDir path = true := hfound.resolve_left (by simp [hfile])
    obtain ⟨entry, hentry, hsize⟩ := Catalogue.dirTime_isSome.mp hdir
    rw [if_neg Bool.false_ne_true, Catalogue.dirTime, hentry, Option.bind_some,
      if_pos ((valueint_num_eq_zero _).mpr hsize)]
    exact statTime_ok e (h _ entry hentry)

theorem Catalogue.getattr_file (h : b.TimesFit) (hroot : path ≠ [slash])
    (hfile : b.isFile path = true) :
    ∃ stat, b.getattr e w path = .ok (.ok stat) ∧ stat.st_mode = S_IFREG ||| 0o644 ∧
      stat.st_size = s64 (((b path).map Entry.bytes).getD 0) := by
  obtain ⟨mtime, hmtime⟩ := h.unixtime (e := e) (Or.inl hfile)
  rw [Catalogue.getattr, if_neg hroot, if_pos hfile, hmtime]
  exact ⟨_, rfl, rfl, rfl⟩

theorem Catalogue.getattr_dir (h : b.TimesFit) (hroot : path ≠ [slash])
    (hfile : b.isFile path = false) (hdir : b.isDir path = true) :
    ∃ stat, b.getattr e w path = .ok (.ok stat) ∧ stat.st_mode = S_IFDIR ||| 0o755 := by
  obtain ⟨mtime, hmtime⟩ := h.unixtime (e := e) (Or.inr hdir)
  rw [Catalogue.getattr, if_neg hroot, if_neg (by simp [hfile]), if_pos hdir, hmtime]
  exact ⟨_, rfl, rfl⟩

theorem Catalogue.getattr_absent (hroot : path ≠ [slash]) (hfile : b.isFile path = false)
    (hdir : b.isDir path = false) : b.getattr e w path = .ok (.error ENOENT) := by
  rw [Catalogue.getattr, if_neg hroot, if_neg (by simp [hfile]), if_neg (by simp [hdir])]

/-- Of the catalogue the answer needs two names. -/
theorem Catalogue.getattr_congr (hpath : b path = b' path)
    (hdir : b (withSlash path) = b' (withSlash path)) (hnow : w.now = w'.now) :
    b.getattr e w path = b'.getattr e w' path := by
  have hstat : blankStat e w = blankStat e w' := by rw [blankStat, hnow, blankStat]
  have htime : b.dirTime (withSlash path) = b'.dirTime (withSlash path) := by
    rw [Catalogue.dirTime, hdir, Catalogue.dirTime]
  unfold Catalogue.getattr Catalogue.unixtime Catalogue.modTime Catalogue.isDir Catalogue.isFile
  rw [hpath, htime, hstat, hnow]

/-! ## Without the caches -/

variable {catalogue : σ → Catalogue} (hC : Described e.server catalogue)

include hC

theorem getattr_off (hw : w.L1 = none) :
    (siafs_getattr e path w).1 = (catalogue w.server).getattr e w path := by
  obtain ⟨_, h, -⟩ := getattr_ends hC (truthful_off hC _) (fun _ => truthful_off hC _)
    (fun _ => truthful_off hC _) hw
  rw [h]

theorem open_off (hslash : endsWithSlash path = false) (hw : w.L1 = none) :
    (siafs_open e path w).1 = .ok (if (catalogue w.server path).isSome then
      if (catalogue w.server).isDir path then -EISDIR else 0 else -ENOENT) := by
  obtain ⟨_, h, -⟩ := open_ends hC (truthful_off hC _) (truthful_off hC _) hslash hw
  rw [h]

/-- A path without a trailing slash is a file, a directory or nothing, and the
three answers of `siafs_getattr` tell which. -/
theorem getattr_kinds (htimes : (catalogue w.server).TimesFit) (hroot : path ≠ [slash])
    (hslash : endsWithSlash path = false) (hw : w.L1 = none) :
    (ReportsFile (siafs_getattr e path w).1 ↔ (catalogue w.server path).isSome) ∧
      (ReportsDir (siafs_getattr e path w).1 ↔
        catalogue w.server path = none ∧ (catalogue w.server).Empty (path ++ [slash])) ∧
      ((siafs_getattr e path w).1 = .ok (.error ENOENT) ↔
        catalogue w.server path = none ∧ ¬ (catalogue w.server).Empty (path ++ [slash])) := by
  rw [getattr_off hC hw, ← Catalogue.isDir_iff hslash, ← Option.not_isSome_iff_eq_none,
    ← Catalogue.isFile_of_not_slash hslash]
  cases hfile : (catalogue w.server).isFile path with
  | true =>
    obtain ⟨stat, hstat, hmode, -⟩ := Catalogue.getattr_file (e := e) (w := w) htimes hroot hfile
    rw [hstat, reportsFile_iff, reportsDir_iff, file_mode hmode]
    simp [reg_ne_dir]
  | false =>
    cases hdir : (catalogue w.server).isDir path with
    | true =>
      obtain ⟨stat, hstat, hmode⟩ := Catalogue.getattr_dir (e := e) (w := w) htimes hroot hfile hdir
      rw [hstat, reportsFile_iff, reportsDir_iff, dir_mode hmode]
      simp [reg_ne_dir.symm]
    | false =>
      rw [Catalogue.getattr_absent hroot hfile hdir]
      simp [ReportsFile, ReportsDir]

end Kinds

/-- The objects named `path` and `path/` decide what `siafs_getattr` and `siafs_open`
answer about `path`, and no other object does. -/
theorem path_kinds {e : Env σ} {catalogue : σ → Catalogue} (hC : Described e.server catalogue)
    {w : World σ} (hw : w.L1 = none) (htimes : (catalogue w.server).TimesFit) {path : CStr}
    (hroot : path ≠ [slash]) (hslash : endsWithSlash path = false) :
    (ReportsFile (siafs_getattr e path w).1 ↔ (catalogue w.server path).isSome) ∧
      (ReportsDir (siafs_getattr e path w).1 ↔
        catalogue w.server path = none ∧ (catalogue w.server).Empty (path ++ [slash])) ∧
      ((siafs_getattr e path w).1 = .ok (.error ENOENT) ↔
        catalogue w.server path = none ∧ ¬ (catalogue w.server).Empty (path ++ [slash])) ∧
      (¬ ((catalogue w.server path).isSome ∧ (catalogue w.server (path ++ [slash])).isSome) →
        ((siafs_open e path w).1 = .ok 0 ↔ ReportsFile (siafs_getattr e path w).1)) ∧
      ∀ w', w'.L1 = none → w'.now = w.now →
        catalogue w'.server path = catalogue w.server path →
        catalogue w'.server (path ++ [slash]) = catalogue w.server (path ++ [slash]) →
        (siafs_getattr e path w').1 = (siafs_getattr e path w).1 ∧
          (siafs_open e path w').1 = (siafs_open e path w).1 := by
  obtain ⟨hfile, hdir, hnone⟩ := getattr_kinds hC htimes hroot hslash hw
  refine ⟨hfile, hdir, hnone, fun hboth => ?_, fun w' hw' hnow hpath hmark => ?_⟩
  · rw [hfile, open_off hC hslash hw]
    cases hp : (catalogue w.server path).isSome with
    | false => simp [ENOENT]
    | true =>
      have hmark : (catalogue w.server).isDir path = false := by
        rw [Bool.eq_false_iff, Ne, Catalogue.isDir_iff hslash]
        rintro ⟨entry, hentry, -⟩
        exact hboth ⟨hp, by rw [hentry]; rfl⟩
      simp [hmark]
  · have hmark' : catalogue w'.server (withSlash path) = catalogue w.server (withSlash path) := by
      rw [withSlash_of_not_slash hslash]
      exact hmark
    rw [getattr_off hC hw', getattr_off hC hw, Catalogue.getattr_congr hpath hmark' hnow,
      open_off hC hslash hw', open_off hC hslash hw, hpath, Catalogue.isDir, Catalogue.dirTime,
      hmark', Catalogue.isDir, Catalogue.dirTime]
    exact ⟨rfl, rfl⟩

/-- A file with a child and a sibling of its name in the bucket. -/
def kindsStore : Store :=
  ((Store.blank.put (lit "/p") [7]).put (lit "/px") []).put (lit "/p/x") []

theorem path_kinds_file :
    ReportsFile (siafs_getattr hugeMount (lit "/p") (mounted kindsStore none)).1 ∧
      (siafs_open hugeMount (lit "/p") (mounted kindsStore none)).1 = .ok 0 := by
  obtain ⟨hfile, -, -, hopen, -⟩ := path_kinds (e := hugeMount)
    (renterd_catalogued _).toDescribed (w := mounted kindsStore none) rfl (Store.timesFit _)
    (show lit "/p" ≠ [slash] by decide) (by decide)
  have hf := hfile.mpr (by decide)
  exact ⟨hf, (hopen (by decide)).mpr hf⟩

end SiaFS
