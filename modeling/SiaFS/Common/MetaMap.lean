/-
The list of metadata nodes against the map it is meant to be.

`Nodes` keeps next to the list what the last `add_meta` of every name said that no
`del_meta` has undone since.  A call does `AsMap` when it succeeds and leaves the list
one of distinct names that says of each what was said last, and a search, when it
ends at the node of its name, or at none where there is none.  That is so of every
call of a run when nothing is added or looked up that the list, having nodes, does
not have already.
-/
import SiaFS.Common.Metacache
import SiaFS.Backend.Renterd

namespace SiaFS

open Json

structure Nodes where
  metacache : List SiaMetacache
  said : CStr → Option (SiaObjectType × Nat × Int)

/-- The list at the start of the program. -/
def Nodes.empty : Nodes := ⟨[], fun _ => none⟩

/-- What is left when the name of a node is taken back. -/
def Nodes.takeBack (s : Nodes) (i : Nat) : CStr → Option (SiaObjectType × Nat × Int) :=
  match s.metacache[i]? with
  | some n => Function.update s.said n.name none
  | none => s.said

/-- A node as `build_meta_node_from_json` made it, of an object of an answer. -/
structure FreshNode (h : Host) where
  built : Nat
  object : Json
  node : SiaMetacache
  fresh : build_meta_node_from_json h built object = .ok (some node)

inductive MetaCall (h : Host)
  /-- `add_meta` at a time, with what `realloc` would do -/
  | add (n : FreshNode h) (now : Nat) (stays : Bool)
  | del (node : Nat)
  | find (path : CStr)

namespace MetaCall

variable {h : Host}

def run : MetaCall h → Exec Nodes Fault (Option Nat)
  | .add n now stays => do
    let s ← Exec.get
    let metacache ← Exec.lift (add_meta stays now s.metacache n.node)
    Exec.modify fun s =>
      ⟨metacache, Function.update s.said n.node.name (some n.node.data)⟩
    pure none
  | .del i => do
    let s ← Exec.get
    let metacache ← Exec.lift (del_meta s.metacache i)
    Exec.modify fun s => ⟨metacache, s.takeBack i⟩
    pure none
  | .find path => do
    let s ← Exec.get
    pure (find_meta_by_path s.metacache path)

end MetaCall

/-- The list has one node of every name of which something was said, which says the
same. -/
structure Nodes.Faithful (s : Nodes) : Prop where
  distinct : (names s.metacache).Nodup
  agrees : ∀ path, nodeData s.metacache path = s.said path

/-- A pointer passed to `del_meta` is to a node of the list. -/
def MetaCall.OfNode {h : Host} : MetaCall h → Nodes → Prop
  | .del i, s => i < s.metacache.length
  | _, _ => True

/-- The call does what it would do on a map. -/
def MetaCall.AsMap {h : Host} (c : MetaCall h) (s : Nodes) : Prop :=
  c.OfNode s → ∃ found s', c.run s = (.ok found, s') ∧ s'.Faithful ∧
    ∀ path, c = .find path →
      (found.bind fun i => s'.metacache[i]?).map (fun n => (n.name, n.data)) =
        (s'.said path).map fun data => (path, data)

/-- What the call adds or looks up is in the list, if anything is, and the block of
its name is left where it is. -/
def MetaCall.Present {h : Host} : MetaCall h → Nodes → Prop
  | .add n _ stays, s =>
    s.metacache = [] ∨ n.node.name ∈ names s.metacache ∧ stays = true
  | .del _, _ => True
  | .find path, s => s.metacache = [] ∨ path ∈ names s.metacache

section Calls

variable {h : Host} {s s' : Nodes} {n : FreshNode h} {now i : Nat} {stays : Bool} {path : CStr}

theorem Nodes.empty_faithful : Nodes.empty.Faithful := ⟨List.nodup_nil, fun _ => rfl⟩

theorem Nodes.Faithful.said_eq_none (hs : s.Faithful) :
    s.said path = none ↔ path ∉ names s.metacache := by
  rw [← hs.agrees]
  exact nodeData_eq_none

theorem run_add_ok {metacache : List SiaMetacache}
    (hadd : add_meta stays now s.metacache n.node = .ok metacache) :
    (MetaCall.add n now stays).run s =
      (.ok none, ⟨metacache, Function.update s.said n.node.name (some n.node.data)⟩) := by
  rw [MetaCall.run, Exec.get_bind, Exec.lift_ok_bind hadd]
  rfl

theorem run_add_error {x : Fault} (hadd : add_meta stays now s.metacache n.node = .error x) :
    (MetaCall.add n now stays).run s = (.error x, s) := by
  rw [MetaCall.run, Exec.get_bind]
  exact Exec.bind_of_error (by rw [Exec.lift_apply, hadd])

theorem run_find : (MetaCall.find path : MetaCall h).run s =
    (.ok (find_meta_by_path s.metacache path), s) := rfl

/-- Where there is a node, `add_meta` overwrites one. -/
theorem add_meta_some {metacache : List SiaMetacache} {node : SiaMetacache}
    (hfind : find_meta_by_path metacache node.name = some i) :
    add_meta stays now metacache node = update_meta stays now metacache i node := by
  rw [add_meta, hfind]

/-- The first node of a list. -/
theorem add_first (hs : s.Faithful) (hempty : s.metacache = []) :
    (MetaCall.add n now stays).AsMap s := by
  intro _
  have hadd : add_meta stays now s.metacache n.node = .ok [n.node] := by
    rw [hempty]
    rfl
  refine ⟨none, _, run_add_ok hadd, ⟨List.nodup_singleton _, fun path => ?_⟩,
    fun path he => nomatch he⟩
  have hsaid : s.said path = none := hs.said_eq_none.mpr (by rw [hempty]; exact List.not_mem_nil)
  show nodeData [n.node] path = Function.update s.said n.node.name (some n.node.data) path
  rw [Function.update_apply, hsaid, nodeData, nodeData]
  by_cases hp : n.node.name = path
  · rw [if_pos hp, if_pos hp.symm]
  · rw [if_neg hp, if_neg (Ne.symm hp)]

/-- A node whose name the list has. -/
theorem add_present (hs : s.Faithful) (hmem : n.node.name ∈ names s.metacache) :
    (MetaCall.add n now true).AsMap s := by
  intro _
  obtain ⟨i, old, hfind, hi, hname, -⟩ := find_meta_of_mem hmem
  have hadd : add_meta true now s.metacache n.node =
      .ok (s.metacache.set i (n.node.renewed now)) := by
    rw [add_meta_some hfind]
    rfl
  refine ⟨none, _, run_add_ok hadd, ⟨?_, fun path => ?_⟩, fun path he => nomatch he⟩
  · show (names (s.metacache.set i (n.node.renewed now))).Nodup
    rw [names_set hi (n := n.node.renewed now) hname.symm]
    exact hs.distinct
  · show nodeData (s.metacache.set i (n.node.renewed now)) path = Function.update s.said _ _ path
    rw [nodeData_set hs.distinct hi (n := n.node.renewed now) hname.symm, Function.update_apply,
      hs.agrees]
    rfl

/-- A node whose name the list does not have takes the place of another. -/
theorem add_absent (hs : s.Faithful) (hne : s.metacache ≠ [])
    (hmem : n.node.name ∉ names s.metacache) : ¬ (MetaCall.add n now stays).AsMap s := by
  intro has
  obtain ⟨found, s', hrun, hs', -⟩ := has trivial
  obtain ⟨i, old, hfind, hi⟩ := find_meta_some hne n.node.name
  have hname : n.node.name ≠ old.name := fun he => hmem (he ▸ name_mem hi)
  cases stays with
  | false =>
    rw [run_add_error (x := .outOfBounds) (by rw [add_meta_some hfind]; rfl)] at hrun
    cases hrun
  | true =>
    rw [run_add_ok (by rw [add_meta_some hfind]; rfl)] at hrun
    cases hrun
    have hlost : nodeData (s.metacache.set i (n.node.renewed now)) old.name =
        Function.update s.said n.node.name (some n.node.data) old.name := hs'.agrees old.name
    rw [Function.update_of_ne hname.symm,
      nodeData_overwritten hs.distinct hi (n := n.node.renewed now) hname] at hlost
    exact hs.said_eq_none.mp hlost.symm (name_mem hi)

theorem add_moved (hmem : s.metacache ≠ []) : ¬ (MetaCall.add n now false).AsMap s := by
  intro has
  obtain ⟨found, s', hrun, -⟩ := has trivial
  obtain ⟨i, old, hfind, -⟩ := find_meta_some hmem n.node.name
  rw [run_add_error (x := .outOfBounds) (by rw [add_meta_some hfind]; rfl)] at hrun
  cases hrun

theorem del_asMap (hs : s.Faithful) : (MetaCall.del i : MetaCall h).AsMap s := by
  intro hi
  obtain ⟨old, hold⟩ : ∃ old, s.metacache[i]? = some old :=
    ⟨_, List.getElem?_eq_getElem hi⟩
  obtain ⟨rest, hdel, hsub, hdata⟩ := del_meta_spec hs.distinct hold
  refine ⟨none, ⟨rest, s.takeBack i⟩, ?_, ⟨hs.distinct.sublist hsub, fun path => ?_⟩,
    fun path he => nomatch he⟩
  · rw [MetaCall.run, Exec.get_bind, Exec.lift_ok_bind hdel]
    rfl
  · show nodeData rest path = s.takeBack i path
    rw [Nodes.takeBack, hold, hdata, hs.agrees, ← Function.update_apply]

/-- A search for the name of a node ends there. -/
theorem find_present (hs : s.Faithful) (hmem : path ∈ names s.metacache) :
    (MetaCall.find path : MetaCall h).AsMap s := by
  intro _
  obtain ⟨i, n, hfind, hi, hname, hdata⟩ := find_meta_of_mem hmem
  refine ⟨_, s, run_find, hs, fun path' he => ?_⟩
  cases he
  rw [hfind, Option.bind_some, hi, ← hs.agrees, hdata, ← hname]
  rfl

theorem find_none (hs : s.Faithful) (hempty : s.metacache = []) :
    (MetaCall.find path : MetaCall h).AsMap s := by
  intro _
  refine ⟨_, s, run_find, hs, fun path' he => ?_⟩
  rw [← hs.agrees, hempty]
  rfl

/-- A search for another name ends at a node too. -/
theorem find_absent (hs : s.Faithful) (hne : s.metacache ≠ [])
    (hmem : path ∉ names s.metacache) : ¬ (MetaCall.find path : MetaCall h).AsMap s := by
  intro has
  obtain ⟨found, s', hrun, -, hfound⟩ := has trivial
  obtain ⟨i, n, hfind, hi⟩ := find_meta_some hne path
  rw [run_find, hfind] at hrun
  cases hrun
  have := hfound path rfl
  rw [Option.bind_some, hi, hs.said_eq_none.mpr hmem] at this
  cases this

/-- The step: the call does as a map exactly when what it asks for is present. -/
theorem MetaCall.asMap_iff (c : MetaCall h) (hs : s.Faithful) : c.AsMap s ↔ c.Present s := by
  cases c with
  | add n now stays =>
    by_cases hne : s.metacache = []
    · exact ⟨fun _ => .inl hne, fun _ => add_first hs hne⟩
    · constructor
      · intro has
        by_cases hmem : n.node.name ∈ names s.metacache
        · cases stays with
          | true => exact .inr ⟨hmem, rfl⟩
          | false => exact absurd has (add_moved hne)
        · exact absurd has (add_absent hs hne hmem)
      · intro hpresent
        obtain ⟨hmem, rfl⟩ := hpresent.resolve_left hne
        exact add_present hs hmem
  | del i => exact ⟨fun _ => trivial, fun _ => del_asMap hs⟩
  | find path =>
    by_cases hne : s.metacache = []
    · exact ⟨fun _ => .inl hne, fun _ => find_none hs hne⟩
    · constructor
      · intro has
        by_contra hpresent
        exact find_absent hs hne (fun hmem => hpresent (.inr hmem)) has
      · intro hpresent
        exact find_present hs (hpresent.resolve_left hne)

/-- A call that succeeds is of a node of the list. -/
theorem MetaCall.ofNode {c : MetaCall h} {found : Option Nat}
    (hrun : c.run s = (.ok found, s')) : c.OfNode s := by
  cases c with
  | add n now stays => trivial
  | find path => trivial
  | del i =>
    rw [MetaCall.run, Exec.get_bind] at hrun
    obtain ⟨metacache, s₁, hdel, -⟩ := Exec.bind_eq_ok hrun
    exact del_meta_ok (congrArg Prod.fst hdel)

/-- Every call of a run from the empty list does as it would on a map exactly when
what each adds or looks up is present. -/
theorem metacache_is_map (calls : List (MetaCall h)) :
    Exec.Along MetaCall.AsMap MetaCall.run calls Nodes.empty ↔
      Exec.Along MetaCall.Present MetaCall.run calls Nodes.empty := by
  apply Exec.along_congr (I := Nodes.Faithful) _ _ calls Nodes.empty_faithful
  · exact fun c s hs => c.asMap_iff hs
  · intro c s found s' hpresent hs hrun
    obtain ⟨found', s₁, hrun', hs', -⟩ := (c.asMap_iff hs).mpr hpresent (c.ofNode hrun)
    rw [hrun] at hrun'
    cases hrun'
    exact hs'

end Calls

/-- A file of one byte, as an answer lists it. -/
def listedFile (name : CStr) : Json :=
  .obj [(lit "name", .str name), (lit "size", .num 1), (lit "modTime", .str (lit "2024"))]

def freshA : FreshNode plainHost where
  built := 0
  object := listedFile (lit "/a")
  node := ⟨lit "/a", .SIA_FILE, 1, 1704067200, 600⟩
  fresh := by decide +kernel

def freshB : FreshNode plainHost where
  built := 1
  object := listedFile (lit "/b")
  node := ⟨lit "/b", .SIA_FILE, 1, 1704067200, 601⟩
  fresh := by decide +kernel

/-- Of two files added one after the other the first is gone, and a search for it ends
at the second. -/
theorem second_node_overwrites :
    ¬ Exec.Along MetaCall.AsMap MetaCall.run [.add freshA 0 true, .add freshB 1 true]
        Nodes.empty ∧
      (Exec.runAll MetaCall.run
          [.add freshA 0 true, .add freshB 1 true, .find (lit "/a")] Nodes.empty).1.toOption =
        some [none, none, some 0] ∧
      (Exec.runAll MetaCall.run
          [.add freshA 0 true, .add freshB 1 true, .find (lit "/a")] Nodes.empty).2.metacache =
        [freshB.node.renewed 1] := by
  refine ⟨fun h => ?_, by decide +kernel, by decide +kernel⟩
  have hfirst : (MetaCall.add freshA 0 true).run Nodes.empty =
      (.ok none, ⟨[freshA.node],
        Function.update Nodes.empty.said (lit "/a") (some freshA.node.data)⟩) := rfl
  obtain ⟨found, s', hrun, hs', -⟩ := (h.2 _ _ hfirst).1 trivial
  have hsecond : s' = ⟨[freshB.node.renewed 1], _⟩ := (congrArg Prod.snd hrun).symm
  have hlost : nodeData s'.metacache (lit "/a") = s'.said (lit "/a") := hs'.agrees _
  rw [hsecond] at hlost
  revert hlost
  decide +kernel

end SiaFS
