/-
The scanners of `sia_bus_objects.c` on whatever the server sends.

All five compare names and none looks whether there is one; two read a size as
well, and the last copies a time.  An element is `Usable` when its name is a string
and its size a number.  `Scannable` is what the elements of a listing have to be for a
scanner to come to its end and to pass over the ones that are not usable.
-/
import SiaFS.Lib.Folds
import SiaFS.Backend.Renterd
import SiaFS.Common.Metacache
import SiaFS.Reads

namespace SiaFS

open Json Folds

variable {σ : Type}

/-! ## One listing -/

def Usable (item : Json) : Prop :=
  ∃ name n, cJSON_GetObjectItemCaseSensitive item (lit "name") = some (.str name) ∧
    cJSON_GetObjectItemCaseSensitive item (lit "size") = some (.num n)

/-- The size is a number. -/
def Sized (size : Option Json) : Prop := ∃ n, size = some (.num n)

/-- Every element has a string for a name, and `Q` holds of the size of those with the name
that is looked for. -/
def Scannable (path : CStr) (Q : Option Json → Prop) (items : List Json) : Prop :=
  ∀ item ∈ items, ∃ name,
    cJSON_GetObjectItemCaseSensitive item (lit "name") = some (.str name) ∧
    (name = path → Q (cJSON_GetObjectItemCaseSensitive item (lit "size")))

/-- An element that is not usable does not match. -/
def PassesOver (test : Json → Except Fault Bool) (items : List Json) : Prop :=
  ∀ item ∈ items, ¬ Usable item → test item = .ok false

/-- A usable element with the name and with a size that passes. -/
def hits (path : CStr) (p : Int → Bool) (item : Json) : Bool :=
  match cJSON_GetObjectItemCaseSensitive item (lit "name"),
      cJSON_GetObjectItemCaseSensitive item (lit "size") with
  | some (.str name), some (.num n) => name == path && p n
  | _, _ => false

/-- The three tests: the name is compared, and the size of an element with that name
checked. -/
structure ComparesName (test : Json → Except Fault Bool) (path : CStr)
    (check : Option Json → Except Fault Bool) (p : Int → Bool) : Prop where
  test_eq : ∀ item, test item =
    (do
      let name ← stringOf (cJSON_GetObjectItemCaseSensitive item (lit "name"))
      if name = path then check (cJSON_GetObjectItemCaseSensitive item (lit "size"))
      else pure false)
  check_num : ∀ n, check (some (.num n)) = .ok (p n)

theorem testExists_compares (path : CStr) :
    ComparesName (testExists path) path (fun _ => .ok true) fun _ => true where
  test_eq item := by
    rw [testExists]
    cases stringOf (cJSON_GetObjectItemCaseSensitive item (lit "name")) with
    | error x => rfl
    | ok name =>
      show Except.ok (name == path) = if name = path then _ else _
      by_cases h : name = path
      · rw [if_pos h, beq_iff_eq.mpr h]
      · rw [if_neg h, beq_eq_false_iff_ne.mpr h]
        rfl
  check_num n := rfl

theorem testFile_compares (path : CStr) :
    ComparesName (testFile path) path (fun _ => .ok !endsWithSlash path)
      fun _ => !endsWithSlash path where
  test_eq item := by
    rw [testFile]
    cases stringOf (cJSON_GetObjectItemCaseSensitive item (lit "name")) with
    | error x => rfl
    | ok name =>
      show Except.ok (name == path && !endsWithSlash name) = if name = path then _ else _
      by_cases h : name = path
      · rw [if_pos h, beq_iff_eq.mpr h, h, Bool.true_and]
      · rw [if_neg h, beq_eq_false_iff_ne.mpr h, Bool.false_and]
        rfl
  check_num n := rfl

theorem testDir_compares (path : CStr) :
    ComparesName (testDir path) path (fun size => do pure ((← intOf size) == 0))
      fun n => n == 0 where
  test_eq item := rfl
  check_num n := by
    show Except.ok (valueint (.num n) == 0) = .ok (n == 0)
    have hzero : valueint (.num n) = 0 ↔ n = 0 := by
      show max (-2 ^ 31) (min n (2 ^ 31 - 1)) = 0 ↔ n = 0
      omega
    congr 1
    rw [Bool.eq_iff_iff, beq_iff_eq, beq_iff_eq, hzero]

theorem scan_ends {test : Json → Except Fault Bool} {items : List Json}
    (h : ∃ b, scanObjects test items = .ok b) :
    ∀ item ∈ items, ∃ b, test item = .ok b := by
  obtain ⟨b, h⟩ := h
  refine forall_of_foldlM_ok (fun answer item c hstep => ?_) h
  cases htest : test item with
  | error x =>
    rw [htest] at hstep
    cases hstep
  | ok b => exact ⟨b, rfl⟩

section Listing

variable {test : Json → Except Fault Bool} {path : CStr} {check : Option Json → Except Fault Bool}
  {p : Int → Bool} {Q : Option Json → Prop} {items : List Json} {item : Json}
  (hT : ComparesName test path check p)

include hT

theorem ComparesName.test_str {name : CStr}
    (h : cJSON_GetObjectItemCaseSensitive item (lit "name") = some (.str name)) :
    test item = if name = path then check (cJSON_GetObjectItemCaseSensitive item (lit "size"))
      else .ok false := by
  rw [hT.test_eq, h]
  rfl

/-- An element without a string for a name is not read past. -/
theorem ComparesName.named_of_ok {b : Bool} (h : test item = .ok b) :
    ∃ name, cJSON_GetObjectItemCaseSensitive item (lit "name") = some (.str name) := by
  rw [hT.test_eq] at h
  cases hname : cJSON_GetObjectItemCaseSensitive item (lit "name") with
  | none =>
    rw [hname] at h
    cases h
  | some j =>
    rw [hname] at h
    cases j with
    | str name => exact ⟨name, rfl⟩
    | null | bool | num | arr | obj => cases h

variable (hQ : ∀ size, Q size ↔ Sized size ∨ check size = .ok false)

include hQ

/-- What the elements have to be. -/
theorem ComparesName.named_iff :
    ((∀ item ∈ items, ∃ b, test item = .ok b) ∧ PassesOver test items) ↔
      Scannable path Q items := by
  constructor
  · rintro ⟨hends, hpasses⟩ item hitem
    obtain ⟨b, hb⟩ := hends item hitem
    obtain ⟨name, hname⟩ := hT.named_of_ok hb
    refine ⟨name, hname, fun heq => (hQ _).mpr ?_⟩
    by_cases hsize : Sized (cJSON_GetObjectItemCaseSensitive item (lit "size"))
    · exact Or.inl hsize
    · have hover := hpasses item hitem fun ⟨_, n, _, hn⟩ => hsize ⟨n, hn⟩
      rw [hT.test_str hname, if_pos heq] at hover
      exact Or.inr hover
  · intro h
    refine ⟨fun item hitem => ?_, fun item hitem hunusable => ?_⟩
    · obtain ⟨name, hname, hcheck⟩ := h item hitem
      rw [hT.test_str hname]
      split
      · rename_i heq
        rcases (hQ _).mp (hcheck heq) with ⟨n, hn⟩ | hfalse
        · exact ⟨p n, by rw [hn, hT.check_num]⟩
        · exact ⟨false, hfalse⟩
      · exact ⟨false, rfl⟩
    · obtain ⟨name, hname, hcheck⟩ := h item hitem
      rw [hT.test_str hname]
      split
      · rename_i heq
        exact ((hQ _).mp (hcheck heq)).resolve_left fun ⟨n, hn⟩ => hunusable ⟨name, n, hname, hn⟩
      · rfl

theorem ComparesName.test_hits (h : Scannable path Q items) (hitem : item ∈ items) :
    test item = .ok (hits path p item) := by
  obtain ⟨name, hname, hcheck⟩ := h item hitem
  rw [hT.test_str hname, hits, hname]
  split
  · rename_i heq
    rcases (hQ _).mp (hcheck heq) with ⟨n, hn⟩ | hfalse
    · rw [hn, hT.check_num]
      simp [heq]
    · rw [hfalse]
      split
      · rename_i n hname' hn
        rw [hn, hT.check_num] at hfalse
        cases hname'
        simpa [heq] using hfalse.symm
      · rfl
  · rename_i hne
    split
    · rename_i hname' _
      cases hname'
      simp [hne]
    · rfl

/-- A scan of such a listing finds the usable elements that match. -/
theorem ComparesName.scan (h : Scannable path Q items) :
    scanObjects test items = .ok (items.any (hits path p)) := by
  have hstep : ∀ item ∈ items, ∀ answer : Bool,
      (do pure (answer || (← test item)) : Except Fault Bool) =
        .ok (answer || hits path p item) := by
    intro item hitem answer
    rw [hT.test_hits hQ h hitem]
    rfl
  rw [scanObjects, foldlM_eq_ok hstep]
  congr 1
  have hany : ∀ answer : Bool, items.foldl (fun answer item => answer || hits path p item) answer =
      (answer || items.any (hits path p)) := by
    clear h hstep
    induction items with
    | nil => simp
    | cons item items ih =>
      intro answer
      rw [List.foldl_cons, ih, List.any_cons, Bool.or_assoc]
  rw [hany, Bool.false_or]

theorem ComparesName.scan_iff :
    (scanObjects test items = .ok (items.any (hits path p)) ∧ PassesOver test items) ↔
      Scannable path Q items := by
  constructor
  · rintro ⟨hscan, hpasses⟩
    exact (hT.named_iff hQ).mp ⟨scan_ends ⟨_, hscan⟩, hpasses⟩
  · intro h
    exact ⟨hT.scan hQ h, ((hT.named_iff hQ).mpr h).2⟩

end Listing

/-! ## The scanners -/

/-- The payload of a metadata request. -/
def askedPayload (m : Sia σ (Option Body)) (w : World σ) : Option Body :=
  match (m w).1 with
  | .ok payload => payload
  | .error _ => none

section Scanners

variable (e : Env σ) (path : CStr) (w : World σ)

/-- The listing of a path. -/
def askedListing : Option Body := askedPayload (sia_bus_objects_list_json e path) w

def afterListing : World σ := (sia_bus_objects_list_json e path w).2

/-- The sizes that the test for a file does not take for those of a file. -/
def FileSize (size : Option Json) : Prop := endsWithSlash path = true ∨ Sized size

/-- The sizes that the test for a directory does not take for zero, if they are no
numbers. -/
def DirSize (size : Option Json) : Prop := Sized size ∨ size = some (.bool true)

def existsListed : Bool := (listedObjects (askedListing e path w)).any (hits path fun _ => true)

def fileListed : Bool :=
  (listedObjects (askedListing e path w)).any (hits path fun _ => !endsWithSlash path)

def dirListed : Bool :=
  (listedObjects (askedListing e (withSlash path) w)).any (hits (withSlash path) fun n => n == 0)

/-- The time of the last marker of a directory that has one. -/
def markerTime (items : List Json) : Option CStr :=
  items.foldl (fun answer item =>
    if hits (withSlash path) (fun n => n == 0) item then
      ((cJSON_GetObjectItemCaseSensitive item (lit "modTime")).bind valuestring).or answer
    else answer) none

/-- The listing that is looked through for the time of a directory. -/
def timeListing : Option Body :=
  askedListing e (withSlash path) (afterListing e (withSlash path) (afterListing e path w))

/-- The time that the documents give. -/
def statedModtime : Option CStr :=
  if fileListed e path w then
    (objectField (askedPayload (sia_bus_objects_json e path) (afterListing e path w))
      (lit "modTime")).bind valuestring
  else if dirListed e path (afterListing e path w) then
    markerTime path (objectsChildren (timeListing e path w))
  else none

/-- `F` holds of the listings that are scanned for a time, as files and as directories. -/
structure TimeScans (F D : List Json → Prop) : Prop where
  file : F (listedObjects (askedListing e path w))
  dir : fileListed e path w = false →
    D (listedObjects (askedListing e (withSlash path) (afterListing e path w)))
  time : fileListed e path w = false → dirListed e path (afterListing e path w) = true →
    D (objectsChildren (timeListing e path w))

/-- What a time scan passes over. -/
def TimePassesOver : Prop :=
  TimeScans e path w (PassesOver (testFile path)) (PassesOver (testDir (withSlash path)))

/-- What the elements of a time scan have to be. -/
def TimeNamed : Prop :=
  TimeScans e path w (Scannable path (FileSize path)) (Scannable (withSlash path) DirSize)

end Scanners

section Runs

variable {e : Env σ} {path : CStr} {w : World σ}

theorem cachedRequest_payload (key : CStr) (r : Request) (w : World σ) :
    cachedRequest e key r w =
      (.ok (askedPayload (cachedRequest e key r) w), (cachedRequest e key r w).2) := by
  obtain ⟨payload, w', hjson⟩ := cachedRequest_ok key r w
  unfold askedPayload
  rw [hjson]

theorem list_json_apply (path : CStr) (w : World σ) :
    sia_bus_objects_list_json e path w = (.ok (askedListing e path w), afterListing e path w) :=
  cachedRequest_payload _ _ w

theorem exists_apply : sia_bus_objects_exists e path w =
    (scanObjects (testExists path) (listedObjects (askedListing e path w)),
      afterListing e path w) :=
  Exec.bind_of_ok (list_json_apply path w)

theorem is_file_apply : sia_bus_objects_is_file e path w =
    (scanObjects (testFile path) (listedObjects (askedListing e path w)), afterListing e path w) :=
  Exec.bind_of_ok (list_json_apply path w)

theorem is_dir_apply : sia_bus_objects_is_dir e path w =
    (scanObjects (testDir (withSlash path)) (listedObjects (askedListing e (withSlash path) w)),
      afterListing e (withSlash path) w) :=
  Exec.bind_of_ok (list_json_apply (withSlash path) w)

theorem sized_iff (size : Option Json) :
    Sized size ↔ Sized size ∨ (Except.ok true : Except Fault Bool) = .ok false := by simp

theorem fileSize_iff (path : CStr) (size : Option Json) : FileSize path size ↔
    Sized size ∨ (Except.ok !endsWithSlash path : Except Fault Bool) = .ok false := by
  rw [FileSize, or_comm]
  simp

theorem dirSize_iff (size : Option Json) : DirSize size ↔
    Sized size ∨ (do pure ((← intOf size) == 0) : Except Fault Bool) = .ok false := by
  rw [DirSize]
  cases size with
  | none =>
    have hfault : (do pure ((← intOf none) == 0) : Except Fault Bool) = .error .nullPointer := rfl
    simp [hfault]
  | some j =>
    have hint : (do pure ((← intOf (some j)) == 0) : Except Fault Bool) = .ok (valueint j == 0) :=
      rfl
    rw [hint]
    cases j with
    | num n => simp [Sized]
    | bool b => cases b <;> simp [Sized, valueint]
    | null | str | arr | obj => simp [Sized, valueint]

theorem exists_scan_iff :
    ((∃ w', sia_bus_objects_exists e path w = (.ok (existsListed e path w), w')) ∧
      PassesOver (testExists path) (listedObjects (askedListing e path w))) ↔
      Scannable path Sized (listedObjects (askedListing e path w)) := by
  rw [← (testExists_compares path).scan_iff sized_iff, exists_apply]
  simp [existsListed]

theorem is_file_scan_iff :
    ((∃ w', sia_bus_objects_is_file e path w = (.ok (fileListed e path w), w')) ∧
      PassesOver (testFile path) (listedObjects (askedListing e path w))) ↔
      Scannable path (FileSize path) (listedObjects (askedListing e path w)) := by
  rw [← (testFile_compares path).scan_iff (fileSize_iff path), is_file_apply]
  simp [fileListed]

theorem is_dir_scan_iff :
    ((∃ w', sia_bus_objects_is_dir e path w = (.ok (dirListed e path w), w')) ∧
      PassesOver (testDir (withSlash path)) (listedObjects (askedListing e (withSlash path) w))) ↔
      Scannable (withSlash path) DirSize (listedObjects (askedListing e (withSlash path) w)) := by
  rw [← (testDir_compares (withSlash path)).scan_iff dirSize_iff, is_dir_apply]
  simp [dirListed]

/-- One turn of the loop for the time of a directory makes the test of the entry. -/
theorem testDir_of_modtime {path2 : CStr} {answer answer' : Option CStr} {item : Json}
    (h : matchDirModtime path2 answer item = .ok answer') : ∃ b, testDir path2 item = .ok b := by
  rw [matchDirModtime] at h
  cases htest : testDir path2 item with
  | error x =>
    rw [htest] at h
    cases h
  | ok b => exact ⟨b, rfl⟩

theorem foldlM_markerTime {items : List Json} (h : Scannable (withSlash path) DirSize items) :
    items.foldlM (matchDirModtime (withSlash path)) none = .ok (markerTime path items) := by
  refine foldlM_eq_ok (fun item hitem answer => ?_) none
  rw [matchDirModtime, (testDir_compares (withSlash path)).test_hits dirSize_iff h hitem]
  show (if _ then _ else _) = _
  cases hits (withSlash path) (fun n => n == 0) item with
  | false => rfl
  | true =>
    cases (cJSON_GetObjectItemCaseSensitive item (lit "modTime")).bind valuestring <;> rfl

/-- Such listings give the time. -/
theorem TimeNamed.modtime (h : TimeNamed e path w) :
    ∃ w', sia_bus_objects_modtime e path w = (.ok (statedModtime e path w), w') := by
  have hfile : sia_bus_objects_is_file e path w =
      (.ok (fileListed e path w), afterListing e path w) := by
    rw [is_file_apply, (testFile_compares path).scan (fileSize_iff path) h.file]
    rfl
  rw [sia_bus_objects_modtime, Exec.bind_of_ok hfile, statedModtime]
  cases hf : fileListed e path w with
  | true =>
    exact ⟨_, Exec.bind_of_ok (cachedRequest_payload (objectsKey e path) (.objects path)
      (afterListing e path w))⟩
  | false =>
    have hdir : sia_bus_objects_is_dir e path (afterListing e path w) =
        (.ok (dirListed e path (afterListing e path w)),
          afterListing e (withSlash path) (afterListing e path w)) := by
      rw [is_dir_apply, (testDir_compares _).scan dirSize_iff (h.dir hf)]
      rfl
    rw [if_neg Bool.false_ne_true, Exec.bind_of_ok hdir]
    cases hd : dirListed e path (afterListing e path w) with
    | true =>
      rw [if_pos rfl, Exec.bind_of_ok (list_json_apply _ _)]
      exact ⟨_, Prod.ext (foldlM_markerTime (h.time hf hd)) rfl⟩
    | false => exact ⟨_, rfl⟩

/-- A time comes out only of such listings, when nothing unusable matches. -/
theorem timeNamed_of_modtime {answer : Option CStr} {w' : World σ}
    (hrun : sia_bus_objects_modtime e path w = (.ok answer, w'))
    (hpasses : TimePassesOver e path w) : TimeNamed e path w := by
  obtain ⟨is_file, w₁, hfile, hrun⟩ := Exec.bind_eq_ok hrun
  rw [is_file_apply, Prod.mk.injEq] at hfile
  obtain ⟨hfile, rfl⟩ := hfile
  have hnamed := ((testFile_compares path).named_iff (fileSize_iff path)).mp
    ⟨scan_ends ⟨_, hfile⟩, hpasses.file⟩
  have hf : fileListed e path w = is_file := by
    rw [(testFile_compares path).scan (fileSize_iff path) hnamed] at hfile
    exact Except.ok.inj hfile
  cases is_file with
  | true => exact ⟨hnamed, fun h => absurd (hf.symm.trans h) (by decide),
      fun h => absurd (hf.symm.trans h) (by decide)⟩
  | false =>
    rw [if_neg Bool.false_ne_true] at hrun
    obtain ⟨is_dir, w₂, hdir, hrun⟩ := Exec.bind_eq_ok hrun
    rw [is_dir_apply, Prod.mk.injEq] at hdir
    obtain ⟨hdir, rfl⟩ := hdir
    have hnamed' := ((testDir_compares (withSlash path)).named_iff dirSize_iff).mp
      ⟨scan_ends ⟨_, hdir⟩, hpasses.dir hf⟩
    have hd : dirListed e path (afterListing e path w) = is_dir := by
      rw [(testDir_compares _).scan dirSize_iff hnamed'] at hdir
      exact Except.ok.inj hdir
    refine ⟨hnamed, fun _ => hnamed', fun _ hlisted => ?_⟩
    obtain rfl : is_dir = true := hd.symm.trans hlisted
    rw [if_pos rfl, Exec.bind_of_ok (list_json_apply _ _)] at hrun
    have hfold := congrArg Prod.fst hrun
    exact ((testDir_compares _).named_iff dirSize_iff).mp
      ⟨forall_of_foldlM_ok (fun _ _ _ h => testDir_of_modtime h) hfold, hpasses.time hf hlisted⟩

theorem TimeNamed.passesOver (h : TimeNamed e path w) : TimePassesOver e path w :=
  ⟨(((testFile_compares path).named_iff (fileSize_iff path)).mpr h.file).2,
    fun hf => (((testDir_compares _).named_iff dirSize_iff).mpr (h.dir hf)).2,
    fun hf hd => (((testDir_compares _).named_iff dirSize_iff).mpr (h.time hf hd)).2⟩

theorem modtime_scan_iff :
    ((∃ w', sia_bus_objects_modtime e path w = (.ok (statedModtime e path w), w')) ∧
      TimePassesOver e path w) ↔ TimeNamed e path w := by
  constructor
  · rintro ⟨⟨w', hrun⟩, hpasses⟩
    exact timeNamed_of_modtime hrun hpasses
  · intro h
    exact ⟨h.modtime, h.passesOver⟩

/-- The time is asked for twice; the second answer has to be there and to fit. -/
theorem unixtime_scan_iff :
    ((∃ w', sia_bus_objects_unixtime e path w =
        (.ok (((statedModtime e path (sia_bus_objects_modtime e path w).2).map
          (string2unixtime e.host)).getD 0), w')) ∧
      TimePassesOver e path w ∧
        TimePassesOver e path (sia_bus_objects_modtime e path w).2) ↔
    TimeNamed e path w ∧ TimeNamed e path (sia_bus_objects_modtime e path w).2 ∧
      ∃ text, statedModtime e path (sia_bus_objects_modtime e path w).2 = some text ∧
        text.length < 32 := by
  constructor
  · rintro ⟨⟨w', hrun⟩, hpasses, hpasses'⟩
    obtain ⟨first, w₁, hfirst, hrun⟩ := Exec.bind_eq_ok hrun
    rw [hfirst] at hpasses' ⊢
    obtain ⟨second, w₂, hsecond, hrun⟩ := Exec.bind_eq_ok hrun
    obtain ⟨timestamp, w₃, hcopy, -⟩ := Exec.bind_eq_ok hrun
    have hnamed' := timeNamed_of_modtime hsecond hpasses'
    refine ⟨timeNamed_of_modtime hfirst hpasses, hnamed', ?_⟩
    obtain ⟨w₄, hstated⟩ := hnamed'.modtime
    rw [hsecond] at hstated
    obtain rfl : second = _ := Except.ok.inj (congrArg Prod.fst hstated)
    have hcopy := congrArg Prod.fst hcopy
    cases hs : statedModtime e path w₁ with
    | none =>
      rw [hs] at hcopy
      cases hcopy
    | some text =>
      rw [hs] at hcopy
      replace hcopy : (if text.length < 32 then _ else _) = _ := hcopy
      split at hcopy
      · exact ⟨text, rfl, by assumption⟩
      · cases hcopy
  · rintro ⟨h, h', text, htext, hfits⟩
    refine ⟨?_, h.passesOver, h'.passesOver⟩
    obtain ⟨w₁, hfirst⟩ := h.modtime
    rw [hfirst] at h' htext ⊢
    obtain ⟨w₂, hsecond⟩ := h'.modtime
    have hcopy : copyTimestamp (some text) = .ok text := if_pos hfits
    refine ⟨w₂, ?_⟩
    rw [sia_bus_objects_unixtime, Exec.bind_of_ok hfirst, Exec.bind_of_ok hsecond, htext,
      Exec.lift_ok_bind hcopy, Option.map_some, string2unixtime]
    cases e.host.strptime text <;> rfl

end Runs

/-- Each scanner comes to its answer, from the usable elements alone, exactly when every
element it looks at has a string for a name and those with the name it looks for have a
size it can tell; the conversion of a time also needs one of at most 31 bytes. -/
theorem scanners_iff (e : Env σ) (path : CStr) (w : World σ) :
    (((∃ w', sia_bus_objects_exists e path w = (.ok (existsListed e path w), w')) ∧
        PassesOver (testExists path) (listedObjects (askedListing e path w))) ↔
      Scannable path Sized (listedObjects (askedListing e path w))) ∧
    (((∃ w', sia_bus_objects_is_dir e path w = (.ok (dirListed e path w), w')) ∧
        PassesOver (testDir (withSlash path)) (listedObjects (askedListing e (withSlash path) w))) ↔
      Scannable (withSlash path) DirSize (listedObjects (askedListing e (withSlash path) w))) ∧
    (((∃ w', sia_bus_objects_is_file e path w = (.ok (fileListed e path w), w')) ∧
        PassesOver (testFile path) (listedObjects (askedListing e path w))) ↔
      Scannable path (FileSize path) (listedObjects (askedListing e path w))) ∧
    (((∃ w', sia_bus_objects_modtime e path w = (.ok (statedModtime e path w), w')) ∧
        TimePassesOver e path w) ↔ TimeNamed e path w) ∧
    (((∃ w', sia_bus_objects_unixtime e path w =
          (.ok (((statedModtime e path (sia_bus_objects_modtime e path w).2).map
            (string2unixtime e.host)).getD 0), w')) ∧
        TimePassesOver e path w ∧
          TimePassesOver e path (sia_bus_objects_modtime e path w).2) ↔
      TimeNamed e path w ∧ TimeNamed e path (sia_bus_objects_modtime e path w).2 ∧
        ∃ text, statedModtime e path (sia_bus_objects_modtime e path w).2 = some text ∧
          text.length < 32) :=
  ⟨exists_scan_iff, is_dir_scan_iff, is_file_scan_iff, modtime_scan_iff, unixtime_scan_iff⟩

/-- A mount of a server that lists these elements for every path. -/
def listMount (items : List Json) : Env Unit :=
  mountOf .fuse3 true fun u _ => (jsonReply (.obj [(lit "objects", .arr items)]), u)

/-- An element without a name, a marker without a size, one with a size that is no number,
one without a time and one with a time of 32 bytes. -/
theorem elements_crash :
    (sia_bus_objects_exists (listMount [.obj [(lit "size", .num 0)]]) (lit "/a")
        (mounted () none)).1 = .error .nullPointer ∧
      (sia_bus_objects_is_dir (listMount [.obj [(lit "name", .str (lit "/a/"))]]) (lit "/a")
        (mounted () none)).1 = .error .nullPointer ∧
      (sia_bus_objects_is_dir (listMount [.obj [(lit "name", .str (lit "/a/")),
        (lit "size", .null)]]) (lit "/a") (mounted () none)).1 = .ok true ∧
      (sia_bus_objects_unixtime (listMount [.obj [(lit "name", .str (lit "/a/")),
        (lit "size", .num 0)]]) (lit "/a") (mounted () none)).1 = .error .nullPointer ∧
      (sia_bus_objects_unixtime (listMount [.obj [(lit "name", .str (lit "/a/")),
        (lit "size", .num 0), (lit "modTime", .str (lit "2024-04-20T03:34:36.3677198380+0"))]])
        (lit "/a") (mounted () none)).1 = .error .outOfBounds :=
  ⟨rfl, rfl, rfl, rfl, rfl⟩

end SiaFS
