/-
Paths that have no upload node, and the nodes in memory against their positions.

The functions on the lists of nodes, where a pointer is a position, are what the
functions that follow the links come to.  A search for a path without a node follows
a null pointer as soon as there is a node of another path, and so does a release of
such a path, once its test has let the path through.
-/
import SiaFS.Backend.Renterd
import SiaFS.Common.Pointers
import SiaFS.Upload.Release
import SiaFS.Upload.Stages

namespace SiaFS

open LinkedList Pointers

variable {σ : Type} {path : CStr}

/-! ## Nodes and positions -/

theorem append_upload_refines (c : Chain SiaUpload.fields) {a : Ptr} {u : SiaUpload}
    {next : Option Ptr} (ha : c.list.heap a = some ⟨u.fields, next⟩) (hnew : a ∉ c.pointers)
    (more : Nat) :
    ∃ (opt : Linked Ptr UploadFields) (current : Chain SiaUpload.fields),
      Pointers.append_upload (c.nodes.length + more) c.list (some a) =
        .ok (opt, current.list.head) ∧
      current.list.heap = opt.heap ∧ current.values = append_upload c.values u := by
  obtain ⟨c', current, hlink, -, hheap, hnodes, -⟩ := linkLast_chain c ha hnew more
  refine ⟨c'.list, current, hlink, hheap, ?_⟩
  rw [append_upload_eq, Chain.values, Chain.values, hnodes, List.map_append, List.getLast?_map,
    Option.toList_map]
  rfl

theorem find_pointer (nodes : List (Ptr × SiaUpload)) (path : CStr) :
    (nodes.find? fun x => x.2.name == path).map Prod.fst =
      ((nodes.map Prod.snd).findIdx? fun u => u.name == path).bind
        fun i => (nodes.map Prod.fst)[i]? := by
  induction nodes with
  | nil => rfl
  | cons x rest ih =>
    rw [List.find?_cons, List.map_cons, List.findIdx?_cons]
    cases hx : x.2.name == path with
    | true => simp
    | false =>
      rw [if_neg Bool.false_ne_true, ih]
      cases (rest.map Prod.snd).findIdx? fun u => u.name == path <;> rfl

/-- What the search by position answers, at the addresses of the nodes. -/
theorem find_upload_refines (c : Chain SiaUpload.fields) (path : CStr) (more : Nat) :
    Pointers.find_upload_by_path (c.nodes.length + more) c.list (some path) =
      match find_upload_by_path c.values path with
      | .ok r => .ok (r.bind fun i => c.pointers[i]?)
      | .error _ => .error .null := by
  have hfind := find_pointer c.nodes path
  rw [find_upload_of_chain]
  cases hnodes : c.nodes with
  | nil =>
    rw [show c.values = [] by rw [Chain.values, hnodes]; rfl]
    rfl
  | cons x rest =>
    rw [hnodes] at hfind
    rw [if_neg (List.cons_ne_nil x rest), Chain.pointers, Chain.values, hnodes, List.map_cons,
      find_upload_by_path, ← List.map_cons]
    cases hy : (x :: rest).find? fun x => x.2.name == path with
    | some y =>
      rw [hy, Option.map_some] at hfind
      cases hi : ((x :: rest).map Prod.snd).findIdx? fun u => u.name == path with
      | some i =>
        rw [hi] at hfind
        exact congrArg Except.ok hfind
      | none =>
        rw [hi] at hfind
        cases hfind
    | none =>
      have hi : (((x :: rest).map Prod.snd).findIdx? fun u => u.name == path) = none := by
        rw [List.findIdx?_eq_none_iff]
        intro u hu
        obtain ⟨y, hmem, rfl⟩ := List.mem_map.mp hu
        simpa using List.find?_eq_none.mp hy y hmem
      rw [hi]

/-! ## A release of a path without a node -/

/-- `siafs_release` returns, having looked at objects only. -/
def DoesNothing (e : Env σ) (path : CStr) (w : World σ) : Prop :=
  (siafs_release e path w).1 = .ok 0 ∧ Asks e Request.IsRead w (siafs_release e path w).2

/-- The test of `siafs_release` ends, and it turns the path away where there is any
upload. -/
def TurnsAway (e : Env σ) (path : CStr) (w : World σ) : Prop :=
  ∃ through, (releaseCheck e path w).1 = .ok through ∧ (through = true → w.uploads = [])

variable {e : Env σ} {w : World σ}

theorem release_unlisted (h : nodeNamed w.uploads path = none) :
    DoesNothing e path w ↔ TurnsAway e path w := by
  have hcheck := keeps_releaseCheck (e := e) path w
  rcases hres : releaseCheck e path w with ⟨x | through, w₁⟩
  · have hrelease : siafs_release e path w = (.error x, w₁) := Exec.bind_of_error hres
    rw [DoesNothing, TurnsAway, hrelease, hres]
    constructor
    · intro h
      cases h.1
    · intro h
      obtain ⟨through, h, -⟩ := h
      cases h
  · rw [hres] at hcheck
    have hrelease : siafs_release e path w =
        (if through = true then completeUpload e path else pure 0) w₁ := Exec.bind_of_ok hres
    rw [DoesNothing, TurnsAway, hrelease, hres]
    cases through with
    | false =>
      constructor
      · intro _
        exact ⟨false, rfl, nofun⟩
      · intro _
        exact ⟨rfl, hcheck⟩
    | true =>
      rw [if_pos rfl, completeUpload, Exec.get_bind, hcheck.uploads, find_upload_by_path_none h]
      by_cases hnil : w.uploads = []
      · rw [if_pos hnil]
        constructor
        · intro _
          exact ⟨true, rfl, fun _ => hnil⟩
        · intro _
          exact ⟨rfl, hcheck⟩
      · rw [if_neg hnil]
        constructor
        · intro h
          cases h.1
        · intro h
          obtain ⟨through, hthrough, hempty⟩ := h
          cases hthrough
          exact absurd (hempty rfl) hnil

theorem upload_found_iff (c : Chain SiaUpload.fields) (path : CStr) (more : Nat) (e : Env σ)
    (w : World σ) :
    (Pointers.find_upload_by_path (c.nodes.length + more) c.list (some path) =
        .ok ((c.nodes.find? fun x => x.2.name == path).map Prod.fst) ↔
      c.nodes = [] ∨ path ∈ c.values.map SiaUpload.name) ∧
    (path ∉ c.values.map SiaUpload.name →
      (DoesNothing e path { w with uploads := c.values } ↔
        TurnsAway e path { w with uploads := c.values })) := by
  constructor
  · rw [find_upload_of_chain]
    have hnames : path ∈ c.values.map SiaUpload.name ↔
        ∃ x, (c.nodes.find? fun x => x.2.name == path) = some x := by
      rw [← Option.isSome_iff_exists, List.find?_isSome]
      simp [Chain.values]
    rw [hnames]
    cases c.nodes.find? fun x => x.2.name == path with
    | some x => simp
    | none => by_cases hnil : c.nodes = [] <;> simp [hnil]
  · intro h
    exact release_unlisted (nodeNamed_eq_none.mpr h)

/-- One upload, of `/b`. -/
def otherUpload : Chain SiaUpload.fields where
  list :=
    { heap := fun a => if a = 0 then some ⟨(newUpload (lit "/b") (lit "7")).fields, none⟩ else none
      head := some 0 }
  nodes := [(0, newUpload (lit "/b") (lit "7"))]
  linked := ⟨rfl, none, rfl, rfl⟩

/-- A small file is closed while another file has an upload node. -/
theorem other_upload_crashes :
    lit "/a" ∉ otherUpload.values.map SiaUpload.name ∧
      Pointers.find_upload_by_path 1 otherUpload.list (some (lit "/a")) = .error .null ∧
      (siafs_release hugeMount (lit "/a")
        { mounted (Store.blank.put (lit "/a") [1]) none with
          uploads := otherUpload.values }).1 = .error .nullPointer := by
  refine ⟨by decide +kernel, rfl, rfl⟩

/-- The same mount while no listing arrives. -/
def silentMount : Env Store :=
  { hugeMount with
    server := fun s r =>
      match r with
      | .objects_list _ => (plainReply 500 [], s)
      | r => renterd (fun _ => false) s r }

/-- With one upload known, its node is found, and a file of one byte is turned away when
nothing says that it is a file. -/
theorem node_found_beside :
    (Pointers.find_upload_by_path 1 otherUpload.list (some (lit "/b")) =
        .ok ((otherUpload.nodes.find? fun x => x.2.name == lit "/b").map Prod.fst) ∧
      (otherUpload.nodes.find? fun x => x.2.name == lit "/b").map Prod.fst = some 0) ∧
    lit "/a" ∉ otherUpload.values.map SiaUpload.name ∧
      DoesNothing silentMount (lit "/a")
        { mounted (Store.blank.put (lit "/a") [1]) none with uploads := otherUpload.values } := by
  let w := mounted (Store.blank.put (lit "/a") [1]) none
  have hb : lit "/b" ∈ otherUpload.values.map SiaUpload.name := List.mem_singleton.mpr rfl
  have ha : lit "/a" ∉ otherUpload.values.map SiaUpload.name := by decide +kernel
  have hfound := (upload_found_iff otherUpload (lit "/b") 0 silentMount w).1.mpr (Or.inr hb)
  have hrelease := (upload_found_iff otherUpload (lit "/a") 0 silentMount w).2 ha
  exact ⟨⟨hfound, rfl⟩, ha, hrelease.mpr ⟨false, rfl, nofun⟩⟩

end SiaFS
