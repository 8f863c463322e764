/-
The list of metadata nodes of the build with `SIA_METACACHE`, `sia_common.c`.

A pointer to a node is its position in the list, as for the list of uploads.  The
search stops at the last node when it has found nothing before, so that it never
fails in a list with a node in it, and `add_meta`, which appends what the search
does not find, overwrites the last node instead.  `AsMap` is what a map would do.
-/
import SiaFS.World

namespace SiaFS

open Json

/-! ## The functions -/

inductive SiaObjectType
  | SIA_UNKOWN
  | SIA_DIR
  | SIA_FILE
  deriving DecidableEq, Repr

structure SiaMetacache where
  name : CStr
  type : SiaObjectType
  size : Nat
  modtime : Int
  expire : Nat
  deriving DecidableEq, Repr

/-- Zero when the text is no time. -/
def string2unixtime (h : Host) (timestamp : CStr) : Int :=
  ((h.strptime timestamp).map h.mktime).getD 0

/-- The type of a node.  The test for a slash leaves an empty name at its front. -/
def metaType (name : CStr) (size : Nat) : Except Fault SiaObjectType :=
  if name = [] then .error .outOfBounds
  else if 0 < size ∧ endsWithSlash name = false then .ok .SIA_FILE
  else if endsWithSlash name then .ok .SIA_DIR
  else .ok .SIA_UNKOWN

def build_meta_node_from_json (h : Host) (now : Nat) (object : Json) :
    Except Fault (Option SiaMetacache) :=
  match cJSON_GetObjectItemCaseSensitive object (lit "name"),
      cJSON_GetObjectItemCaseSensitive object (lit "size"),
      cJSON_GetObjectItemCaseSensitive object (lit "modTime") with
  | some (.str name), some (.num size), some (.str modTime) => do
    let size := u64 (valueint (.num size))
    let type ← metaType name size
    pure (some { name, type, size, modtime := string2unixtime h modTime,
                 expire := now + SIA_METACACHE_TTL })
  | _, _, _ => pure none

def append_meta (metacache : List SiaMetacache) (node : SiaMetacache) : List SiaMetacache :=
  metacache ++ [node]

/-- The node is taken out of the list after its name is freed; a pointer to no node
of the list is to freed memory. -/
def del_meta : List SiaMetacache → Nat → Except Fault (List SiaMetacache)
  | [], _ => .error .outOfBounds
  | _ :: rest, 0 => .ok rest
  | first :: rest, i + 1 => do
    let rest ← del_meta rest i
    pure (first :: rest)

/-- The loop of the search: from `current`, to the node of the name or to the last
one. -/
def findFrom (path : CStr) : SiaMetacache → List SiaMetacache → Nat
  | _, [] => 0
  | current, next :: rest => if current.name = path then 0 else findFrom path next rest + 1

def find_meta_by_path : List SiaMetacache → CStr → Option Nat
  | [], _ => none
  | current :: rest, path => some (findFrom path current rest)

def SiaMetacache.renewed (n : SiaMetacache) (now : Nat) : SiaMetacache :=
  { n with expire := now + SIA_METACACHE_TTL }

/-- `stays` tells whether `realloc` leaves the block of the name where it is.  The
new name is copied to where it was. -/
def update_meta (stays : Bool) (now : Nat) (metacache : List SiaMetacache) (src : Nat)
    (dst : SiaMetacache) : Except Fault (List SiaMetacache) :=
  if stays then .ok (metacache.set src (dst.renewed now))
  else .error .outOfBounds

def add_meta (stays : Bool) (now : Nat) (metacache : List SiaMetacache)
    (node : SiaMetacache) : Except Fault (List SiaMetacache) :=
  match find_meta_by_path metacache node.name with
  | none => .ok (append_meta metacache node)
  | some n => update_meta stays now metacache n node

/-! ## What the list holds -/

/-- What a node says of its name. -/
def SiaMetacache.data (n : SiaMetacache) : SiaObjectType × Nat × Int :=
  (n.type, n.size, n.modtime)

@[simp] theorem SiaMetacache.renewed_name (n : SiaMetacache) (now : Nat) :
    (n.renewed now).name = n.name := rfl

@[simp] theorem SiaMetacache.renewed_data (n : SiaMetacache) (now : Nat) :
    (n.renewed now).data = n.data := rfl

def names (metacache : List SiaMetacache) : List CStr := metacache.map SiaMetacache.name

/-- What the list says of a name: the data of its first node. -/
def nodeData : List SiaMetacache → CStr → Option (SiaObjectType × Nat × Int)
  | [], _ => none
  | n :: rest, name => if n.name = name then some n.data else nodeData rest name

variable {metacache : List SiaMetacache} {name path : CStr} {i : Nat} {n old : SiaMetacache}

@[simp] theorem names_cons (n : SiaMetacache) (metacache : List SiaMetacache) :
    names (n :: metacache) = n.name :: names metacache := rfl

theorem build_meta_node_expire {h : Host} {now : Nat} {object : Json}
    (hbuild : build_meta_node_from_json h now object = .ok (some n)) :
    n.expire = now + SIA_METACACHE_TTL := by
  unfold build_meta_node_from_json at hbuild
  split at hbuild
  · rename_i name size modTime _ _ _
    dsimp only at hbuild
    cases htype : metaType name (u64 (valueint (.num size))) with
    | error x =>
      rw [htype] at hbuild
      cases hbuild
    | ok type =>
      rw [htype] at hbuild
      cases hbuild
      rfl
  · cases hbuild

theorem name_mem (h : metacache[i]? = some n) : n.name ∈ names metacache :=
  List.mem_map_of_mem (List.mem_of_getElem? h)

theorem nodeData_eq_none : nodeData metacache name = none ↔ name ∉ names metacache := by
  induction metacache with
  | nil => simp [nodeData, names]
  | cons n rest ih =>
    rw [nodeData, names_cons, List.mem_cons, not_or, ← ih]
    by_cases hn : n.name = name
    · simp [hn]
    · simp [hn, Ne.symm hn]

/-- The search ends at the first node of a name that is in the list. -/
theorem find_meta_of_mem (h : path ∈ names metacache) :
    ∃ i n, find_meta_by_path metacache path = some i ∧ metacache[i]? = some n ∧
      n.name = path ∧ nodeData metacache path = some n.data := by
  induction metacache with
  | nil => cases h
  | cons current rest ih =>
    by_cases hc : current.name = path
    · refine ⟨0, current, ?_, rfl, hc, by rw [nodeData, if_pos hc]⟩
      cases rest with
      | nil => rfl
      | cons next rest => rw [find_meta_by_path, findFrom, if_pos hc]
    · rw [names_cons, List.mem_cons] at h
      obtain ⟨i, n, hfind, hi, hn, hdata⟩ := ih (h.resolve_left fun hp => hc hp.symm)
      refine ⟨i + 1, n, ?_, hi, hn, by rw [nodeData, if_neg hc, hdata]⟩
      cases rest with
      | nil => cases hi
      | cons next rest =>
        rw [find_meta_by_path, Option.some.injEq] at hfind
        rw [find_meta_by_path, findFrom, if_neg hc, hfind]

/-- In a list with a node in it the search ends at one. -/
theorem find_meta_some (h : metacache ≠ []) (path : CStr) :
    ∃ i n, find_meta_by_path metacache path = some i ∧ metacache[i]? = some n := by
  induction metacache with
  | nil => exact absurd rfl h
  | cons current rest ih =>
    cases rest with
    | nil => exact ⟨0, current, rfl, rfl⟩
    | cons next rest =>
      by_cases hc : current.name = path
      · exact ⟨0, current, by rw [find_meta_by_path, findFrom, if_pos hc], rfl⟩
      · obtain ⟨i, n, hfind, hi⟩ := ih (List.cons_ne_nil next rest)
        rw [find_meta_by_path, Option.some.injEq] at hfind
        exact ⟨i + 1, n, by rw [find_meta_by_path, findFrom, if_neg hc, hfind], hi⟩

theorem names_set (h : metacache[i]? = some old) (hname : n.name = old.name) :
    names (metacache.set i n) = names metacache := by
  obtain ⟨hi, rfl⟩ := List.getElem?_eq_some_iff.mp h
  have hi' : i < (metacache.map SiaMetacache.name).length := by rwa [List.length_map]
  rw [names, List.map_set, hname, names, ← List.getElem_map SiaMetacache.name (h := hi')]
  exact List.set_getElem_self hi'

/-- A node that takes the place of one of its name changes what is said of it. -/
theorem nodeData_set (hnames : (names metacache).Nodup) (h : metacache[i]? = some old)
    (hname : n.name = old.name) :
    nodeData (metacache.set i n) name =
      if name = n.name then some n.data else nodeData metacache name := by
  induction metacache generalizing i with
  | nil => cases h
  | cons first rest ih =>
    rw [names_cons, List.nodup_cons] at hnames
    cases i with
    | zero =>
      cases h
      show nodeData (n :: rest) name = _
      rw [nodeData, nodeData, hname]
      by_cases hq : old.name = name
      · rw [if_pos hq, if_pos hq.symm]
      · rw [if_neg hq, if_neg (Ne.symm hq), if_neg hq]
    | succ i =>
      have hne : first.name ≠ n.name := fun he =>
        hnames.1 (by rw [he, hname]; exact name_mem h)
      show nodeData (first :: rest.set i n) name = _
      rw [nodeData, nodeData, ih hnames.2 h]
      by_cases hq : first.name = name
      · rw [if_pos hq, if_pos hq, if_neg (hq ▸ hne)]
      · rw [if_neg hq, if_neg hq]

/-- A node that takes the place of one of another name leaves nothing of that. -/
theorem nodeData_overwritten (hnames : (names metacache).Nodup) (h : metacache[i]? = some old)
    (hname : n.name ≠ old.name) : nodeData (metacache.set i n) old.name = none := by
  induction metacache generalizing i with
  | nil => cases h
  | cons first rest ih =>
    rw [names_cons, List.nodup_cons] at hnames
    cases i with
    | zero =>
      cases h
      show nodeData (n :: rest) old.name = none
      rw [nodeData, if_neg hname]
      exact nodeData_eq_none.mpr hnames.1
    | succ i =>
      have hne : first.name ≠ old.name := fun he => hnames.1 (he ▸ name_mem h)
      show nodeData (first :: rest.set i n) old.name = none
      rw [nodeData, if_neg hne]
      exact ih hnames.2 h

theorem del_meta_ok {rest : List SiaMetacache} (h : del_meta metacache i = .ok rest) :
    i < metacache.length := by
  induction metacache generalizing i rest with
  | nil => cases h
  | cons first tail ih =>
    cases i with
    | zero => exact Nat.succ_pos _
    | succ i =>
      rw [del_meta] at h
      cases hdel : del_meta tail i with
      | error x =>
        rw [hdel] at h
        cases h
      | ok rest' => exact Nat.succ_lt_succ (ih hdel)

/-- A node in the list is taken out, and its name with it. -/
theorem del_meta_spec (hnames : (names metacache).Nodup) (h : metacache[i]? = some old) :
    ∃ rest, del_meta metacache i = .ok rest ∧ List.Sublist (names rest) (names metacache) ∧
      ∀ name, nodeData rest name =
        if name = old.name then none else nodeData metacache name := by
  induction metacache generalizing i with
  | nil => cases h
  | cons first rest ih =>
    rw [names_cons, List.nodup_cons] at hnames
    cases i with
    | zero =>
      cases h
      refine ⟨rest, rfl, List.sublist_cons_self _ _, fun name => ?_⟩
      rw [nodeData]
      by_cases hq : name = old.name
      · rw [if_pos hq, hq]
        exact nodeData_eq_none.mpr hnames.1
      · rw [if_neg hq, if_neg (Ne.symm hq)]
    | succ i =>
      obtain ⟨rest', hdel, hsub, hdata⟩ := ih hnames.2 h
      refine ⟨first :: rest', by rw [del_meta, hdel]; rfl, hsub.cons_cons _, fun name => ?_⟩
      have hne : first.name ≠ old.name := fun he => hnames.1 (he ▸ name_mem h)
      rw [nodeData, nodeData, hdata]
      by_cases hq : first.name = name
      · rw [if_pos hq, if_pos hq, if_neg (hq ▸ hne)]
      · rw [if_neg hq, if_neg hq]

end SiaFS
