/-
The lookups of the build with `SIA_METACACHE`, `sia_bus_objects.c`.

Five of them look for a node of the path first and share the test of its age, which
is `lookup` here.  The test is the wrong way round: it keeps a node that is still to
expire from being used, and a node is used once it has expired.

The functions of the build without the list are those of `Bus/Objects`, and `base`
runs them beside a list.
-/
import SiaFS.Bus.Objects
import SiaFS.Common.Metacache
import SiaFS.Backend.Renterd

namespace SiaFS
namespace WithMetacache

structure MetaWorld (σ : Type) where
  world : World σ
  /-- `opt.metacache`, or `none` when its first node was freed and not taken out. -/
  metacache : Option (List SiaMetacache)
  /-- The number of nodes passed to `add_meta`. -/
  adds : Nat

abbrev MetaSia (σ α : Type) := Exec (MetaWorld σ) Fault α

variable {σ α β : Type}

def base (m : Sia σ α) : MetaSia σ α := fun s =>
  ((m s.world).1, { s with world := (m s.world).2 })

/-- The list, which a function that follows `opt.metacache` finds. -/
def metacache : MetaSia σ (List SiaMetacache) := do
  let s ← Exec.get
  match s.metacache with
  | some nodes => pure nodes
  | none => Exec.fault .outOfBounds

def setMetacache (nodes : Option (List SiaMetacache)) : MetaSia σ Unit :=
  Exec.modify fun s => { s with metacache := nodes }

/-- The node `find_meta_by_path` returns a pointer to, with the pointer. -/
def nodeFound (nodes : List SiaMetacache) (path : CStr) : Option (Nat × SiaMetacache) :=
  (find_meta_by_path nodes path).bind fun i => nodes[i]?.map fun n => (i, n)

/-- A node found answers when its time has passed, and else is taken out. -/
def lookup (path : CStr) (answer : SiaMetacache → α) (fetch : MetaSia σ α) : MetaSia σ α := do
  let nodes ← metacache
  match nodeFound nodes path with
  | none => fetch
  | some (i, n) => do
    let s ← Exec.get
    if n.expire < s.world.now then pure (answer n)
    else do
      let nodes ← Exec.lift (del_meta nodes i)
      setMetacache (some nodes)
      fetch

section Functions

variable (e : Env σ) (stays : Nat → Bool)

/-- A node is made of an object and added.  `frees` is whether the caller frees it
when `add_meta` returns a list, which it does whenever there is a node to add; the
first node of a list is then freed inside it. -/
def push (frees : Bool) (object : Json) : MetaSia σ Unit := do
  let s ← Exec.get
  match ← Exec.lift (build_meta_node_from_json e.host s.world.now object) with
  | none => pure ()
  | some mn => do
    let nodes ← metacache
    let added ← Exec.lift (add_meta (stays s.adds) s.world.now nodes mn)
    Exec.modify fun s =>
      { s with
        metacache := if frees = true ∧ nodes = [] then none else some added
        adds := s.adds + 1 }

/-- The scan of a listing, each object pushed once it is tested. -/
def scanPushing (test : Json → Except Fault Bool) (push : Json → MetaSia σ Unit)
    (objects : List Json) : MetaSia σ Bool :=
  objects.foldlM (fun answer object => do
    let found ← Exec.lift (test object)
    push object
    pure (answer || found)) false

def exists_listed (path : CStr) : MetaSia σ Bool := do
  let json_payload ← base (sia_bus_objects_list_json e path)
  scanPushing (testExists path) (push e stays true) (listedObjects json_payload)

def sia_bus_objects_exists (path : CStr) : MetaSia σ Bool :=
  lookup path (fun _ => true) (exists_listed e stays path)

def is_dir_listed (path : CStr) : MetaSia σ Bool := do
  let json_payload ← base (sia_bus_objects_list_json e (withSlash path))
  scanPushing (testDir (withSlash path)) (push e stays true) (listedObjects json_payload)

def sia_bus_objects_is_dir (path : CStr) : MetaSia σ Bool :=
  lookup path (fun n => decide (n.type = .SIA_DIR)) (is_dir_listed e stays path)

/-- The whole list is printed before an object is pushed and after it. -/
def is_file_listed (path : CStr) : MetaSia σ Bool := do
  let json_payload ← base (sia_bus_objects_list_json e path)
  scanPushing (testFile path) (fun object => do
    let _dumped ← metacache
    push e stays false object) (listedObjects json_payload)

def sia_bus_objects_is_file (path : CStr) : MetaSia σ Bool :=
  lookup path (fun n => decide (n.type = .SIA_FILE)) (is_file_listed e stays path)

def object_size_fetched (path : CStr) : MetaSia σ Nat := do
  let json_payload ← base (sia_bus_objects_json e path)
  pure (replySize json_payload)

def sia_bus_object_size (path : CStr) : MetaSia σ Nat :=
  lookup path (fun n => if n.type = .SIA_FILE then n.size else 0) (object_size_fetched e path)

def sia_bus_objects_modtime (path : CStr) : MetaSia σ (Option CStr) := do
  if ← sia_bus_objects_is_file e stays path then
    let json_payload ← base (sia_bus_objects_json e path)
    pure ((objectField json_payload (lit "modTime")).bind Json.valuestring)
  else if ← sia_bus_objects_is_dir e stays path then
    let json_payload ← base (sia_bus_objects_list_json e (withSlash path))
    Exec.lift ((objectsChildren json_payload).foldlM (matchDirModtime (withSlash path)) none)
  else pure none

def unixtime_fetched (path : CStr) : MetaSia σ Int := do
  let _time_payload ← sia_bus_objects_modtime e stays path
  let modtime ← sia_bus_objects_modtime e stays path
  let timestamp ← Exec.lift (copyTimestamp modtime)
  pure (string2unixtime e.host timestamp)

def sia_bus_objects_unixtime (path : CStr) : MetaSia σ Int :=
  lookup path SiaMetacache.modtime (unixtime_fetched e stays path)

end Functions

/-! ## The five lookups together -/

inductive Lookup
  | objects_exists
  | is_dir
  | is_file
  | object_size
  | objects_unixtime

inductive LookupAnswer
  | flag (b : Bool)
  | size (n : Nat)
  | time (t : Int)
  deriving DecidableEq

namespace Lookup

def run (e : Env σ) (stays : Nat → Bool) (path : CStr) : Lookup → MetaSia σ LookupAnswer
  | .objects_exists => do
    let b ← sia_bus_objects_exists e stays path
    pure (.flag b)
  | .is_dir => do
    let b ← sia_bus_objects_is_dir e stays path
    pure (.flag b)
  | .is_file => do
    let b ← sia_bus_objects_is_file e stays path
    pure (.flag b)
  | .object_size => do
    let n ← sia_bus_object_size e path
    pure (.size n)
  | .objects_unixtime => do
    let t ← sia_bus_objects_unixtime e stays path
    pure (.time t)

/-- What a node answers. -/
def ofNode (n : SiaMetacache) : Lookup → LookupAnswer
  | .objects_exists => .flag true
  | .is_dir => .flag (n.type = .SIA_DIR)
  | .is_file => .flag (n.type = .SIA_FILE)
  | .object_size => .size (if n.type = .SIA_FILE then n.size else 0)
  | .objects_unixtime => .time n.modtime

/-- What is done where there is no node. -/
def ofBackend (e : Env σ) (stays : Nat → Bool) (path : CStr) : Lookup → MetaSia σ LookupAnswer
  | .objects_exists => do
    let b ← exists_listed e stays path
    pure (.flag b)
  | .is_dir => do
    let b ← is_dir_listed e stays path
    pure (.flag b)
  | .is_file => do
    let b ← is_file_listed e stays path
    pure (.flag b)
  | .object_size => do
    let n ← object_size_fetched e path
    pure (.size n)
  | .objects_unixtime => do
    let t ← unixtime_fetched e stays path
    pure (.time t)

end Lookup

/-- A lookup, some time after what came before. -/
structure TimedLookup where
  wait : Nat
  path : CStr
  kind : Lookup

def MetaWorld.later (s : MetaWorld σ) (seconds : Nat) : MetaWorld σ :=
  { s with world := { s.world with now := s.world.now + seconds } }

def TimedLookup.run (e : Env σ) (stays : Nat → Bool) (c : TimedLookup) :
    MetaSia σ LookupAnswer := fun s => c.kind.run e stays c.path (s.later c.wait)

/-- The list has a node of the path, and this is the one a lookup ends at. -/
def MetaWorld.HasNode (s : MetaWorld σ) (path : CStr) (nodes : List SiaMetacache) (i : Nat)
    (n : SiaMetacache) : Prop :=
  s.metacache = some nodes ∧ nodeFound nodes path = some (i, n) ∧ n.name = path

/-- The node of the path answers only while its time has not passed; when it has, the
node is taken out and the backend answers. -/
def TimedLookup.Timely (e : Env σ) (stays : Nat → Bool) (c : TimedLookup) (s : MetaWorld σ) :
    Prop :=
  ∀ nodes i n, (s.later c.wait).HasNode c.path nodes i n →
    (c.run e stays s = (.ok (c.kind.ofNode n), s.later c.wait) →
      s.world.now + c.wait ≤ n.expire) ∧
    (n.expire < s.world.now + c.wait → ∃ rest, del_meta nodes i = .ok rest ∧
      c.run e stays s =
        c.kind.ofBackend e stays c.path { s.later c.wait with metacache := some rest })

/-- The time of the node of the path has not passed. -/
def TimedLookup.Unexpired (c : TimedLookup) (s : MetaWorld σ) : Prop :=
  ∀ nodes i n, (s.later c.wait).HasNode c.path nodes i n → s.world.now + c.wait ≤ n.expire

section Lookups

variable {e : Env σ} {stays : Nat → Bool} {s : MetaWorld σ} {nodes : List SiaMetacache}
  {path : CStr} {i : Nat} {n : SiaMetacache} {answer : SiaMetacache → α} {fetch : MetaSia σ α}

/-- A node whose time has passed answers, and nothing changes. -/
theorem lookup_expired (h : s.HasNode path nodes i n) (hexpire : n.expire < s.world.now) :
    lookup path answer fetch s = (.ok (answer n), s) := by
  have hnodes : metacache s = (.ok nodes, s) := by
    rw [metacache, Exec.get_bind, h.1]
    rfl
  rw [lookup, Exec.bind_of_ok hnodes, h.2.1]
  show (if n.expire < s.world.now then _ else _ : MetaSia σ α) s = _
  rw [if_pos hexpire]
  rfl

theorem Lookup.run_expired (c : Lookup) (h : s.HasNode path nodes i n)
    (hexpire : n.expire < s.world.now) : c.run e stays path s = (.ok (c.ofNode n), s) := by
  cases c <;> exact Exec.bind_of_ok (lookup_expired h hexpire)

/-- The step: a lookup is timely exactly when the node of its path is still to
expire. -/
theorem TimedLookup.timely_iff (c : TimedLookup) (s : MetaWorld σ) :
    c.Timely e stays s ↔ c.Unexpired s := by
  constructor
  · intro htimely nodes i n h
    by_contra hle
    have hexpire : n.expire < (s.later c.wait).world.now := Nat.lt_of_not_le hle
    exact hle ((htimely nodes i n h).1 (c.kind.run_expired h hexpire))
  · intro hunexpired nodes i n h
    have hle := hunexpired nodes i n h
    exact ⟨fun _ => hle, fun hlt => absurd hle (Nat.not_le_of_lt hlt)⟩

/-- A node is made to expire `SIA_METACACHE_TTL` seconds later, and in every run of
lookups each is timely exactly when it finds no node of its path expired. -/
theorem lookups_timely (calls : List TimedLookup) (s : MetaWorld σ) :
    (∀ now object n, build_meta_node_from_json e.host now object = .ok (some n) →
      n.expire = now + SIA_METACACHE_TTL) ∧
    (Exec.Along (TimedLookup.Timely e stays) (TimedLookup.run e stays) calls s ↔
      Exec.Along TimedLookup.Unexpired (TimedLookup.run e stays) calls s) := by
  constructor
  · intro now object n h
    exact build_meta_node_expire h
  · exact Exec.along_congr (I := fun _ => True) (fun c s _ => c.timely_iff s)
      (fun _ _ _ _ _ _ _ => trivial) calls trivial

end Lookups

/-- A file of one byte whose node has expired. -/
def expiredFile : SiaMetacache := ⟨lit "/a", .SIA_FILE, 1, 0, SIA_METACACHE_TTL⟩

/-- A mount that has had the node since it started, and a server without the file. -/
def expiring : MetaWorld Store := ⟨mounted Store.blank none, some [expiredFile], 1⟩

/-- Ten minutes and a second later its size comes from the node, which stays. -/
theorem expired_node_answers :
    ¬ Exec.Along (TimedLookup.Timely hugeMount fun _ => true)
        (TimedLookup.run hugeMount fun _ => true) [⟨601, lit "/a", .object_size⟩] expiring ∧
      ((TimedLookup.run hugeMount (fun _ => true) ⟨601, lit "/a", .object_size⟩
        expiring).1.toOption = some (.size 1) ∧
      (TimedLookup.run hugeMount (fun _ => true) ⟨601, lit "/a", .object_size⟩
        expiring).2.metacache = some [expiredFile]) := by
  refine ⟨fun h => ?_, by decide +kernel, by decide +kernel⟩
  have hnode : (expiring.later 601).HasNode (lit "/a") [expiredFile] 0 expiredFile :=
    ⟨rfl, by decide +kernel, rfl⟩
  have hle := (h.1 [expiredFile] 0 expiredFile hnode).1
    (Lookup.run_expired .object_size hnode (by decide))
  revert hle
  decide

end WithMetacache
end SiaFS
