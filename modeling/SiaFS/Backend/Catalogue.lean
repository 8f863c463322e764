/-
The server as the L1 cache sees it.

A `Catalogue` is what the server tells of its objects: their sizes and
modification times.  `Described server catalogue` and `Catalogued server catalogue`
list what is documented of the two requests for metadata; what the other requests
do to the catalogue is left open.  The program reads little out of a reply, and
the results below say what: whether a file is there, the record of a directory,
the fields of an object and the names of the entries of a directory.
-/
import SiaFS.Backend.Answers
import SiaFS.Backend.Renterd

namespace SiaFS

open Json

structure Entry where
  size : Int
  modTime : CStr
  deriving DecidableEq

/-- The objects of the server by name. -/
abbrev Catalogue := CStr → Option Entry

/-- The object is listed under that name. -/
def ListedAs (name : CStr) (item : Json) : Prop :=
  cJSON_GetObjectItemCaseSensitive item (lit "name") = some (.str name)

namespace Catalogue

variable (b : Catalogue)

/-- A listed object is one of the catalogue. -/
def Describes (item : Json) : Prop :=
  ∃ name entry, b name = some entry ∧ ListedAs name item ∧
    cJSON_GetObjectItemCaseSensitive item (lit "size") = some (.num entry.size) ∧
    cJSON_GetObjectItemCaseSensitive item (lit "modTime") = some (.str entry.modTime)

/-- The modification time of a directory, that is of an object of size zero. -/
def dirTime (path : CStr) : Option CStr :=
  (b path).bind fun entry => if valueint (.num entry.size) = 0 then some entry.modTime else none

/-- `x` is an entry of the directory `path`. -/
def Shows (path x : CStr) : Prop :=
  ∃ name, (b name).isSome ∧ path <+: name ∧ name ≠ path ∧ entryUnder path name = x

end Catalogue

/-- The names in the `entries` of a reply, `none` for an entry without one. -/
def entryNames (payload : Option Body) : List (Option CStr) :=
  (listedEntries payload).map fun object =>
    (cJSON_GetObjectItemCaseSensitive object (lit "name")).bind valuestring

/-- What is documented of the requests for metadata about one path, which is the path that
the server reads. -/
structure Described {σ : Type} (server : σ → Request → Reply × σ) (catalogue : σ → Catalogue) :
    Prop where
  objects_keeps : ∀ s path, catalogue (server s (.objects path)).2 = catalogue s
  objects_list_keeps : ∀ s path, catalogue (server s (.objects_list path)).2 = catalogue s
  /-- The listing below a path describes objects, the path itself among them if
  there is such an object. -/
  objects_list : ∀ s path, ∃ doc items,
    cJSON_Parse (server s (.objects_list path)).1.body = some doc ∧
    cJSON_GetObjectItemCaseSensitive doc (lit "objects") = some (.arr items) ∧
    (∀ item ∈ items, (catalogue s).Describes item) ∧
    ((catalogue s path).isSome → ∃ item ∈ items, ListedAs path item)
  /-- A file is described, and nothing is said of one that is not there. -/
  objects : ∀ s path entry, endsWithSlash path = false → catalogue s path = some entry →
    objectField (server s (.objects path)).1.body (lit "size") = some (.num entry.size) ∧
    objectField (server s (.objects path)).1.body (lit "modTime") = some (.str entry.modTime)
  objects_none : ∀ s path, endsWithSlash path = false → catalogue s path = none →
    ∀ name, objectField (server s (.objects path)).1.body name = none

/-- The same, and what is documented of the entries of a directory: they come in an
order that only their names decide. -/
structure Catalogued {σ : Type} (server : σ → Request → Reply × σ) (catalogue : σ → Catalogue) :
    Prop extends Described server catalogue where
  entries : ∀ s s' path, endsWithSlash path = true →
    (∀ x, (catalogue s).Shows path x ↔ (catalogue s').Shows path x) →
    entryNames (server s (.objects path)).1.body = entryNames (server s' (.objects path)).1.body

/-! ## What is read out of a reply -/

section Items

variable {b : Catalogue} {items : List Json} {path : CStr}

theorem Catalogue.isSome_of_dirTime (h : (b.dirTime path).isSome) : (b path).isSome := by
  rw [Catalogue.dirTime] at h
  cases hb : b path with
  | none => simp [hb] at h
  | some entry => rfl

variable (path) in
theorem testDir_describes {item : Json} (h : b.Describes item) :
    ∃ x, testDir path item = .ok x ∧
      (x = true ↔ ListedAs path item ∧ (b.dirTime path).isSome) := by
  obtain ⟨name, entry, hb, hname, hsize, -⟩ := h
  by_cases hp : name = path
  · subst hp
    refine ⟨valueint (.num entry.size) == 0, ?_, ?_⟩
    · rw [testDir, hname, hsize]
      show (if name = name then _ else _) = _
      rw [if_pos rfl]
      rfl
    · rw [Catalogue.dirTime, hb, Option.bind_some]
      by_cases h0 : valueint (.num entry.size) = 0
      · simp [h0, hname]
      · simp [h0]
  · refine ⟨false, ?_, ?_⟩
    · rw [testDir, hname]
      show (if name = path then _ else _) = _
      rw [if_neg hp]
      rfl
    · have hne : ¬ ListedAs path item := fun hn => hp (by cases hname.symm.trans hn; rfl)
      simp [hne]

theorem scanObjects_exists (h : ∀ item ∈ items, b.Describes item)
    (hp : (b path).isSome → ∃ item ∈ items, ListedAs path item) :
    scanObjects (testExists path) items = .ok (b path).isSome := by
  have htest : ∀ {item : Json} {name : CStr}, ListedAs name item →
      testExists path item = .ok (name == path) := by
    intro item name hname
    rw [testExists, hname]
    rfl
  obtain ⟨x, hx, hiff⟩ := scanObjects_ok fun item hitem => by
    obtain ⟨name, entry, -, hname, -⟩ := h item hitem
    exact ⟨_, htest hname⟩
  rw [hx]
  congr 1
  refine Bool.eq_iff_iff.mpr (hiff.trans ⟨?_, fun hsome => ?_⟩)
  · rintro ⟨item, hitem, hfound⟩
    obtain ⟨name, entry, hb, hname, -⟩ := h item hitem
    rw [htest hname] at hfound
    obtain rfl : name = path := by simpa using hfound
    rw [hb]
    rfl
  · obtain ⟨item, hitem, hname⟩ := hp hsome
    exact ⟨item, hitem, by rw [htest hname]; simp⟩

theorem scanObjects_file (h : ∀ item ∈ items, b.Describes item)
    (hp : (b path).isSome → ∃ item ∈ items, ListedAs path item) :
    scanObjects (testFile path) items = .ok ((b path).isSome && !endsWithSlash path) := by
  obtain ⟨x, hx, hiff⟩ := scanObjects_ok fun item hitem => by
    obtain ⟨name, entry, -, hname, -⟩ := h item hitem
    exact ⟨_, testFile_named path hname⟩
  rw [hx]
  congr 1
  refine Bool.eq_iff_iff.mpr (hiff.trans ⟨?_, ?_⟩)
  · rintro ⟨item, hitem, htest⟩
    obtain ⟨name, entry, hb, hname, -⟩ := h item hitem
    rw [testFile_named path hname] at htest
    obtain ⟨rfl, hslash⟩ : name = path ∧ endsWithSlash name = false := by simpa using htest
    simp [hb, hslash]
  · intro hsome
    obtain ⟨hsome, hslash⟩ : (b path).isSome ∧ endsWithSlash path = false := by
      simpa using hsome
    obtain ⟨item, hitem, hname⟩ := hp hsome
    exact ⟨item, hitem, by rw [testFile_named path hname]; simp [hslash]⟩

theorem scanObjects_dir (h : ∀ item ∈ items, b.Describes item)
    (hp : (b path).isSome → ∃ item ∈ items, ListedAs path item) :
    scanObjects (testDir path) items = .ok (b.dirTime path).isSome := by
  obtain ⟨x, hx, hiff⟩ := scanObjects_ok fun item hitem => by
    obtain ⟨y, hy, -⟩ := testDir_describes path (h item hitem)
    exact ⟨y, hy⟩
  rw [hx]
  congr 1
  refine Bool.eq_iff_iff.mpr (hiff.trans ⟨?_, fun hd => ?_⟩)
  · rintro ⟨item, hitem, htest⟩
    obtain ⟨y, hy, hyiff⟩ := testDir_describes path (h item hitem)
    rw [hy] at htest
    cases htest
    exact (hyiff.mp rfl).2
  · obtain ⟨item, hitem, hname⟩ := hp (Catalogue.isSome_of_dirTime hd)
    obtain ⟨y, hy, hyiff⟩ := testDir_describes path (h item hitem)
    exact ⟨item, hitem, by rw [hy, hyiff.mpr ⟨hname, hd⟩]⟩

variable (path) in
/-- One turn of the loop leaves the answer alone or sets it to the time of the
directory, and does so at the entry of the directory. -/
theorem matchDirModtime_describes {item : Json} (h : b.Describes item) (answer : Option CStr) :
    ∃ x, matchDirModtime path answer item = .ok x ∧ (x = answer ∨ x = b.dirTime path) ∧
      (ListedAs path item → (b.dirTime path).isSome → x = b.dirTime path) := by
  obtain ⟨x, hx, hiff⟩ := testDir_describes path h
  cases x with
  | false =>
    refine ⟨answer, ?_, Or.inl rfl, fun hn hd => ?_⟩
    · rw [matchDirModtime, hx]
      rfl
    · cases hiff.mpr ⟨hn, hd⟩
  | true =>
    obtain ⟨hn, hd⟩ := hiff.mp rfl
    refine ⟨b.dirTime path, ?_, Or.inr rfl, fun _ _ => rfl⟩
    obtain ⟨name, entry, hb, hname, -, htime⟩ := h
    cases hname.symm.trans hn
    rw [Catalogue.dirTime, hb, Option.bind_some] at hd ⊢
    split at hd
    · rename_i h0
      rw [if_pos h0, matchDirModtime, hx, htime]
      rfl
    · cases hd

variable (path) in
theorem foldlM_describes (h : ∀ item ∈ items, b.Describes item) (answer : Option CStr) :
    ∃ x, items.foldlM (matchDirModtime path) answer = .ok x ∧
      (x = answer ∨ x = b.dirTime path) ∧
      ((∃ item ∈ items, ListedAs path item) → (b.dirTime path).isSome → x = b.dirTime path) := by
  induction items generalizing answer with
  | nil => exact ⟨answer, rfl, Or.inl rfl, by simp⟩
  | cons item items ih =>
    obtain ⟨x, hx, hcases, hset⟩ := matchDirModtime_describes path
      (h item List.mem_cons_self) answer
    obtain ⟨y, hy, hcases', hset'⟩ := ih (fun j hj => h j (List.mem_cons_of_mem _ hj)) x
    refine ⟨y, ?_, ?_, ?_⟩
    · rw [List.foldlM_cons, hx]
      exact hy
    · rcases hcases' with rfl | hd
      · exact hcases
      · exact Or.inr hd
    · rintro ⟨j, hj, hn⟩ hd
      rcases List.mem_cons.mp hj with rfl | hj
      · have hx' := hset hn hd
        rcases hcases' with hy' | hy'
        · exact hy'.trans hx'
        · exact hy'
      · exact hset' ⟨j, hj, hn⟩ hd

theorem foldlM_dirTime (h : ∀ item ∈ items, b.Describes item)
    (hp : (b path).isSome → ∃ item ∈ items, ListedAs path item) :
    items.foldlM (matchDirModtime path) none = .ok (b.dirTime path) := by
  obtain ⟨x, hx, hcases, hset⟩ := foldlM_describes path h none
  rw [hx]
  congr 1
  cases hd : b.dirTime path with
  | none => rcases hcases with hc | hc <;> simp [hc, hd]
  | some t =>
    have hsome : (b path).isSome := Catalogue.isSome_of_dirTime (by rw [hd]; rfl)
    rw [← hd]
    exact hset (hp hsome) (by rw [hd]; rfl)

end Items

section Replies

variable {σ : Type} {e : Env σ} {catalogue : σ → Catalogue} (hC : Described e.server catalogue)
  (s : σ) (path : CStr)

include hC

/-- The four scans of the listing below a path. -/
theorem Described.list_seen :
    scanObjects (testExists path) (listedObjects (e.server s (.objects_list path)).1.body) =
        .ok (catalogue s path).isSome ∧
      scanObjects (testFile path) (listedObjects (e.server s (.objects_list path)).1.body) =
        .ok ((catalogue s path).isSome && !endsWithSlash path) ∧
      scanObjects (testDir path) (listedObjects (e.server s (.objects_list path)).1.body) =
        .ok ((catalogue s).dirTime path).isSome ∧
      (objectsChildren (e.server s (.objects_list path)).1.body).foldlM
        (matchDirModtime path) none = .ok ((catalogue s).dirTime path) := by
  obtain ⟨doc, items, hdoc, hitems, hdesc, hp⟩ := hC.objects_list s path
  have hlisted : listedObjects (e.server s (.objects_list path)).1.body = items := by
    rw [listedObjects, hdoc, Option.bind_some, hitems]
  have hchildren : objectsChildren (e.server s (.objects_list path)).1.body = items := by
    rw [objectsChildren, hdoc, Option.bind_some, hitems]
    rfl
  rw [hlisted, hchildren]
  exact ⟨scanObjects_exists hdesc hp, scanObjects_file hdesc hp, scanObjects_dir hdesc hp, foldlM_dirTime hdesc hp⟩

/-- The fields of a file that did not change. -/
theorem Described.objectField_congr {s s' : σ} {path : CStr} (hslash : endsWithSlash path = false)
    (h : catalogue s path = catalogue s' path) :
    objectField (e.server s (.objects path)).1.body (lit "size") =
        objectField (e.server s' (.objects path)).1.body (lit "size") ∧
      objectField (e.server s (.objects path)).1.body (lit "modTime") =
        objectField (e.server s' (.objects path)).1.body (lit "modTime") := by
  cases hb : catalogue s path with
  | none =>
    have hb' := h.symm.trans hb
    rw [hC.objects_none s path hslash hb, hC.objects_none s path hslash hb,
      hC.objects_none s' path hslash hb', hC.objects_none s' path hslash hb']
    exact ⟨rfl, rfl⟩
  | some entry =>
    obtain ⟨hsize, htime⟩ := hC.objects s path entry hslash hb
    obtain ⟨hsize', htime'⟩ := hC.objects s' path entry hslash (h.symm.trans hb)
    exact ⟨hsize.trans hsize'.symm, htime.trans htime'.symm⟩

end Replies

/-- Only the names of the entries decide what is passed to the filler. -/
theorem fillEntries_eq (payload : Option Body) :
    fillEntries (listedEntries payload) = ((entryNames payload).filterMap id).mapM entryName := by
  rw [entryNames, List.filterMap_map]
  induction listedEntries payload with
  | nil => rfl
  | cons object rest ih =>
    rw [fillEntries]
    split
    · rename_i name hname
      rw [List.filterMap_cons_some (by exact hname), List.mapM_cons, ih]
    · rename_i hname
      rw [List.filterMap_cons_none (by exact hname), ih]

/-! ## The server that meets it -/

/-- What the store tells of its objects. -/
def Store.catalogue (s : Store) : Catalogue := fun name =>
  (s.data name).map fun body => { size := body.length, modTime := lit "2024-01-01T00:00:00Z" }

theorem Store.catalogue_isSome (s : Store) (name : CStr) :
    (s.catalogue name).isSome ↔ ∃ body, s.data name = some body := by
  rw [Store.catalogue, Option.isSome_map, Option.isSome_iff_exists]

theorem Store.mem_entryNames (s : Store) (path x : CStr) :
    x ∈ s.entryNames path ↔ s.catalogue.Shows path x := by
  rw [Store.entryNames, List.mem_insertionSort, List.mem_dedup, List.mem_map]
  constructor
  · rintro ⟨⟨name, body⟩, hmem, hx⟩
    obtain ⟨hbelow, hne⟩ := List.mem_filter.mp hmem
    obtain ⟨hpre, hdata⟩ := (s.mem_below path name body).mp hbelow
    exact ⟨name, (s.catalogue_isSome name).mpr ⟨body, hdata⟩, List.isPrefixOf_iff_prefix.mp hpre,
      by simpa using hne, hx⟩
  · rintro ⟨name, hsome, hpre, hne, hx⟩
    obtain ⟨body, hdata⟩ := (s.catalogue_isSome name).mp hsome
    refine ⟨(name, body), List.mem_filter.mpr ⟨?_, by simpa using hne⟩, hx⟩
    exact (s.mem_below path name body).mpr ⟨List.isPrefixOf_iff_prefix.mpr hpre, hdata⟩

/-- Two lists of entries with the same names are the same list. -/
theorem Store.entryNames_congr {s s' : Store} {path : CStr}
    (h : ∀ x, s.catalogue.Shows path x ↔ s'.catalogue.Shows path x) :
    s.entryNames path = s'.entryNames path := by
  have hmem : ∀ x, x ∈ s.entryNames path ↔ x ∈ s'.entryNames path := fun x => by
    rw [Store.mem_entryNames, Store.mem_entryNames, h]
  have hnodup : ∀ s : Store, (s.entryNames path).Nodup := fun s =>
    (List.perm_insertionSort _ _).nodup_iff.mpr (List.nodup_dedup _)
  have hperm : (s.entryNames path).Perm (s'.entryNames path) :=
    (List.perm_ext_iff_of_nodup (hnodup s) (hnodup s')).mpr hmem
  exact hperm.eq_of_pairwise' (List.pairwise_insertionSort _ _) (List.pairwise_insertionSort _ _)

theorem Store.below_describes (s : Store) (path : CStr) :
    ∀ item ∈ (s.below path).map fun x => objectJson x.1 x.2, s.catalogue.Describes item := by
  intro item hitem
  obtain ⟨⟨name, body⟩, hx, rfl⟩ := List.mem_map.mp hitem
  obtain ⟨-, hdata⟩ := (s.mem_below path name body).mp hx
  refine ⟨name, { size := body.length, modTime := lit "2024-01-01T00:00:00Z" }, ?_, rfl, rfl, rfl⟩
  rw [Store.catalogue, hdata]
  rfl

theorem entryNames_entries (s : Store) (path : CStr) :
    entryNames (jsonReply (s.entries path)).body = (s.entryNames path).map some := by
  show ((s.entryNames path).map fun name => objectJson name ((s.data name).getD [])).map _ = _
  rw [List.map_map]
  rfl

theorem renterd_catalogued (refuse : Nat → Bool) :
    Catalogued (renterd refuse) Store.catalogue where
  objects_keeps s path := congrArg Store.catalogue (renterd_objects_state refuse s path)
  objects_list_keeps s path := rfl
  objects_list s path := by
    refine ⟨_, _, rfl, rfl, s.below_describes path, fun hsome => ?_⟩
    obtain ⟨body, hdata⟩ := (s.catalogue_isSome path).mp hsome
    have hmem := (s.mem_below path path body).mpr ⟨isPrefixOf_self path, hdata⟩
    exact ⟨objectJson path body, List.mem_map.mpr ⟨(path, body), hmem, rfl⟩, rfl⟩
  objects s path entry hslash hentry := by
    obtain ⟨body, hdata, rfl⟩ := Option.map_eq_some_iff.mp hentry
    rw [renterd, if_neg (by simp [hslash]), hdata]
    exact ⟨rfl, rfl⟩
  objects_none s path hslash hnone name := by
    have hdata : s.data path = none := Option.map_eq_none_iff.mp hnone
    rw [renterd, if_neg (by simp [hslash]), hdata]
    rfl
  entries s s' path hslash h := by
    rw [renterd, renterd, if_pos hslash, if_pos hslash, entryNames_entries, entryNames_entries,
      Store.entryNames_congr h]

end SiaFS
