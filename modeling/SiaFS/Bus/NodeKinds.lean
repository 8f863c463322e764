/-
The kind of a node against the kind that a scan finds.

A scan takes an object for a file by its name alone, and for a directory by its
name and its size.  A node of the list of metadata takes it for a directory by its
name, and leaves an empty object without a slash at its end undecided.
-/
import SiaFS.Bus.Metacache
import SiaFS.Bus.Scans
import SiaFS.Paths.Listing

namespace SiaFS
namespace WithMetacache

open Json

variable {σ : Type}

/-- An entry of a listing, complete. -/
structure IsEntry (item : Json) (name : CStr) (n : Int) : Prop where
  nonempty : name ≠ []
  name_eq : cJSON_GetObjectItemCaseSensitive item (lit "name") = some (.str name)
  size_eq : cJSON_GetObjectItemCaseSensitive item (lit "size") = some (.num n)
  modTime : ∃ modTime,
    cJSON_GetObjectItemCaseSensitive item (lit "modTime") = some (.str modTime)

/-- A mount without nodes, for which every listing holds this entry and no other. -/
structure Uncached (e : Env σ) (item : Json) (s : MetaWorld σ) : Prop where
  metacache : s.metacache = some []
  only : ∀ path, listedObjects (askedListing e path s.world) = [item]

section Kinds

variable {e : Env σ} {stays : Nat → Bool} {s : MetaWorld σ} {item : Json} {name path : CStr}
  {n : Int}

theorem IsEntry.scannable (h : IsEntry item name n) (path : CStr) {Q : Option Json → Prop}
    (hQ : ∀ size, Sized size → Q size) : Scannable path Q [item] := by
  intro j hj
  obtain rfl := List.mem_singleton.mp hj
  exact ⟨name, h.name_eq, fun _ => hQ _ ⟨n, h.size_eq⟩⟩

/-- The test of an entry. -/
theorem IsEntry.test (h : IsEntry item name n) {test : Json → Except Fault Bool}
    {check : Option Json → Except Fault Bool} {p : Int → Bool} {Q : Option Json → Prop}
    (hT : ComparesName test path check p)
    (hQ : ∀ size, Q size ↔ Sized size ∨ check size = .ok false) :
    test item = .ok (name == path && p n) := by
  have hscan : Scannable path Q [item] :=
    h.scannable path fun size hsize => (hQ size).mpr (Or.inl hsize)
  rw [hT.test_hits hQ hscan (List.mem_singleton_self item), hits, h.name_eq, h.size_eq]

/-- The node of an entry. -/
theorem IsEntry.node (h : IsEntry item name n) (hn : 0 ≤ n) (hn31 : n < 2 ^ 31) (host : Host)
    (now : Nat) : ∃ node, build_meta_node_from_json host now item = .ok (some node) ∧
      node.name = name ∧ node.type = if endsWithSlash name then .SIA_DIR
        else if 0 < n then .SIA_FILE else .SIA_UNKOWN := by
  obtain ⟨modTime, htime⟩ := h.modTime
  have hsize : 0 < u64 (valueint (.num n)) ↔ 0 < n := by
    show 0 < u64 (max (-2 ^ 31) (min n (2 ^ 31 - 1))) ↔ 0 < n
    unfold u64
    omega
  have htype : metaType name (u64 (valueint (.num n))) = .ok (if endsWithSlash name then .SIA_DIR
      else if 0 < n then .SIA_FILE else .SIA_UNKOWN) := by
    rw [metaType, if_neg h.nonempty]
    simp only [hsize]
    cases endsWithSlash name <;> by_cases hpos : 0 < n <;> simp [hpos]
  rw [build_meta_node_from_json, h.name_eq, h.size_eq, htime]
  dsimp only
  rw [htype]
  exact ⟨_, rfl, rfl, rfl⟩

/-- A scan of one entry answers what the test does, whatever becomes of the node. -/
theorem scanPushing_entry {test : Json → Except Fault Bool} {push : Json → MetaSia σ Unit}
    {b : Bool} {s' : MetaWorld σ} (htest : test item = .ok b) (hpush : push item s = (.ok (), s')) :
    scanPushing test push [item] s = (.ok b, s') := by
  rw [scanPushing, List.foldlM_cons, Exec.bind_assoc]
  rw [Exec.lift_ok_bind htest, Exec.bind_assoc, Exec.bind_of_ok hpush]
  rfl

theorem metacache_empty (hs : s.metacache = some []) (w : World σ) :
    metacache { s with world := w } = (.ok [], { s with world := w }) := by
  rw [metacache, Exec.get_bind]
  dsimp only
  rw [hs]
  rfl

/-- The first node of a mount is appended. -/
theorem IsEntry.push_entry (h : IsEntry item name n) (hn : 0 ≤ n) (hn31 : n < 2 ^ 31)
    (hs : s.metacache = some []) (w : World σ) (frees : Bool) :
    ∃ s', push e stays frees item { s with world := w } = (.ok (), s') := by
  obtain ⟨node, hnode, -, -⟩ := h.node hn hn31 e.host w.now
  rw [push, Exec.get_bind, Exec.lift_ok_bind hnode]
  dsimp only
  rw [Exec.bind_of_ok (metacache_empty hs w)]
  exact ⟨_, rfl⟩

theorem Uncached.listed (hs : Uncached e item s) (path : CStr) :
    ∃ payload, base (sia_bus_objects_list_json e path) s =
        (.ok payload, { s with world := afterListing e path s.world }) ∧
      listedObjects payload = [item] := by
  refine ⟨askedListing e path s.world, ?_, hs.only path⟩
  rw [base, list_json_apply]

theorem Uncached.lookup_eq (hs : Uncached e item s) {α : Type} (path : CStr)
    (answer : SiaMetacache → α) (fetch : MetaSia σ α) : lookup path answer fetch s = fetch s := by
  have hnodes : WithMetacache.metacache s = (.ok [], s) := metacache_empty hs.metacache s.world
  rw [lookup, Exec.bind_of_ok hnodes]
  rfl

/-- A scan for a file compares the name and looks at its end. -/
theorem IsEntry.is_file (h : IsEntry item name n) (hn : 0 ≤ n) (hn31 : n < 2 ^ 31)
    (hs : Uncached e item s) (path : CStr) :
    (sia_bus_objects_is_file e stays path s).1 = .ok (name == path && !endsWithSlash path) := by
  obtain ⟨payload, hlist, hitems⟩ := hs.listed path
  rw [sia_bus_objects_is_file, hs.lookup_eq, is_file_listed, Exec.bind_of_ok hlist, hitems]
  obtain ⟨s', hpush⟩ := h.push_entry hn hn31 hs.metacache (afterListing e path s.world) false
  -- the list is printed before the push
  have hdump := metacache_empty hs.metacache (afterListing e path s.world)
  rw [scanPushing_entry (h.test (testFile_compares path) (fileSize_iff path))
    ((Exec.bind_of_ok hdump).trans hpush)]

/-- A scan for a directory compares the name with a slash added and looks at the size. -/
theorem IsEntry.is_dir (h : IsEntry item name n) (hn : 0 ≤ n) (hn31 : n < 2 ^ 31)
    (hs : Uncached e item s) (path : CStr) :
    (sia_bus_objects_is_dir e stays path s).1 = .ok (name == withSlash path && n == 0) := by
  obtain ⟨payload, hlist, hitems⟩ := hs.listed (withSlash path)
  rw [sia_bus_objects_is_dir, hs.lookup_eq, is_dir_listed, Exec.bind_of_ok hlist, hitems]
  obtain ⟨s', hpush⟩ :=
    h.push_entry hn hn31 hs.metacache (afterListing e (withSlash path) s.world) true
  rw [scanPushing_entry (h.test (testDir_compares (withSlash path)) dirSize_iff) hpush]

theorem beq_withSlash (name : CStr) : (name == withSlash name) = endsWithSlash name := by
  cases hslash : endsWithSlash name with
  | true =>
    have hadd : withSlash name = name := if_pos hslash
    rw [hadd, beq_self_eq_true]
  | false =>
    rw [beq_eq_false_iff_ne]
    intro heq
    rw [heq, endsWithSlash_withSlash] at hslash
    cases hslash

/-- The name of a directory, without its slash and with it. -/
theorem beq_withSlash_withoutSlash (hone : endsWithSlash (withoutSlash name) = false) :
    (name == withSlash (withoutSlash name)) = endsWithSlash name := by
  rcases withoutSlash_cases name with heq | heq
  · rw [← heq, beq_withSlash]
  · rw [withSlash_of_not_slash hone, ← heq, beq_self_eq_true, heq]
    simp [endsWithSlash]

theorem type_iff {type : SiaObjectType} (hn : 0 ≤ n) (h : type = if endsWithSlash name
    then .SIA_DIR else if 0 < n then .SIA_FILE else .SIA_UNKOWN) :
    (type = .SIA_FILE ↔ 0 < n ∧ endsWithSlash name = false) ∧
      (type = .SIA_DIR ↔ endsWithSlash name = true) ∧
      (type = .SIA_UNKOWN ↔ n = 0 ∧ endsWithSlash name = false) := by
  rw [h]
  cases endsWithSlash name with
  | true => simp
  | false =>
    by_cases hpos : 0 < n
    · simp [hpos, hpos.ne']
    · simp [show n = 0 by omega]

end Kinds

/-- A node is a file exactly when the scan finds a file and the object is not empty, and of
no kind exactly when the object is empty and its name without a slash at its end.  An
object with a slash at the end of its name is to be empty, and a node is then a directory
exactly when the scan finds one, unless the name ends in two slashes.  An expired node
answers as the scans do, but for the question for a file when the object is an empty one. -/
theorem node_kinds (e : Env σ) (stays : Nat → Bool) (now : Nat) {s : MetaWorld σ} {item : Json}
    {name : CStr} {n : Int} (h : IsEntry item name n) (hn : 0 ≤ n) (hn31 : n < 2 ^ 31)
    (hs : Uncached e item s) :
    ∃ node, build_meta_node_from_json e.host now item = .ok (some node) ∧
      (node.type = .SIA_FILE ↔ 0 < n ∧ (sia_bus_objects_is_file e stays name s).1 = .ok true) ∧
      (node.type = .SIA_UNKOWN ↔ n = 0 ∧ endsWithSlash name = false) ∧
      ((endsWithSlash name = true → n = 0) → endsWithSlash (withoutSlash name) = false →
        (node.type = .SIA_DIR ↔
          (sia_bus_objects_is_dir e stays (withoutSlash name) s).1 = .ok true)) ∧
      ∀ s' nodes i, s'.HasNode name nodes i node → node.expire < s'.world.now →
        ((n = 0 → endsWithSlash name = true) →
          (sia_bus_objects_is_file e stays name s').1 =
            (sia_bus_objects_is_file e stays name s).1) ∧
        ((endsWithSlash name = true → n = 0) →
          (sia_bus_objects_is_dir e stays name s').1 =
            (sia_bus_objects_is_dir e stays name s).1) := by
  obtain ⟨node, hnode, -, htype⟩ := h.node hn hn31 e.host now
  obtain ⟨hfile, hdir, hunknown⟩ := type_iff hn htype
  rw [h.is_file hn hn31 hs, h.is_dir hn hn31 hs, h.is_dir hn hn31 hs, beq_self_eq_true,
    Bool.true_and, beq_withSlash]
  refine ⟨node, hnode, ?_, hunknown, fun hzero hone => ?_, fun s' nodes i hhas hexpire => ?_⟩
  · rw [hfile]
    simp
  · rw [hdir, beq_withSlash_withoutSlash hone]
    simpa using hzero
  · -- an expired node answers by its type
    have hhit (answer : SiaMetacache → Bool) (fetch : MetaSia σ Bool) :
        lookup name answer fetch s' = (.ok (answer node), s') := lookup_expired hhas hexpire
    refine ⟨fun hempty => ?_, fun hzero => ?_⟩
    · rw [sia_bus_objects_is_file, hhit]
      simp only [hfile]
      by_cases hslash : endsWithSlash name = true
      · simp [hslash]
      · have hpos : 0 < n := by
          have hne : n ≠ 0 := fun hzero => hslash (hempty hzero)
          omega
        simp [hpos]
    · rw [sia_bus_objects_is_dir, hhit]
      simp only [hdir]
      by_cases hslash : endsWithSlash name = true
      · simp [hzero hslash]
      · simp [hslash]

/-- An entry of this name and size. -/
def sizedEntry (name : CStr) (n : Int) : Json :=
  .obj [(lit "name", .str name), (lit "size", .num n),
    (lit "modTime", .str (lit "2024-04-20T03:34:36Z"))]

/-- A mount without nodes. -/
def noNodes : MetaWorld Unit := ⟨mounted () none, some [], 0⟩

theorem node_kinds_marker :
    ∃ node, build_meta_node_from_json (listMount [sizedEntry (lit "/d/") 0]).host 0
        (sizedEntry (lit "/d/") 0) = .ok (some node) ∧
      (node.type = .SIA_DIR ↔
        (sia_bus_objects_is_dir (listMount [sizedEntry (lit "/d/") 0]) (fun _ => true)
          (withoutSlash (lit "/d/")) noNodes).1 = .ok true) := by
  have h : IsEntry (sizedEntry (lit "/d/") 0) (lit "/d/") 0 := ⟨by decide, rfl, rfl, _, rfl⟩
  have hs : Uncached (listMount [sizedEntry (lit "/d/") 0]) (sizedEntry (lit "/d/") 0) noNodes :=
    ⟨rfl, fun _ => rfl⟩
  obtain ⟨node, hnode, -, -, hdir, -⟩ :=
    node_kinds (listMount [sizedEntry (lit "/d/") 0]) (fun _ => true) 0 h (Int.le_refl 0)
      (by decide) hs
  exact ⟨node, hnode, hdir (fun _ => rfl) rfl⟩

/-- The type of the node of an entry. -/
def nodeType (item : Json) : Option SiaObjectType :=
  ((build_meta_node_from_json plainHost 0 item).toOption.bind id).map SiaMetacache.type

/-- An empty file, and an object that is not empty with a slash at the end of its name. -/
theorem empty_file_undecided :
    nodeType (sizedEntry (lit "/f") 0) = some .SIA_UNKOWN ∧
      (sia_bus_objects_is_file (listMount [sizedEntry (lit "/f") 0]) (fun _ => true)
        (lit "/f") noNodes).1.toOption = some true ∧
      nodeType (sizedEntry (lit "/d/") 5) = some .SIA_DIR ∧
      (sia_bus_objects_is_dir (listMount [sizedEntry (lit "/d/") 5]) (fun _ => true)
        (lit "/d") noNodes).1.toOption = some false :=
  ⟨by decide +kernel, by decide +kernel, by decide +kernel, by decide +kernel⟩

end WithMetacache
end SiaFS
