/-
The two lists of `sia_common.c` as they lie in memory.

`opt->uploads` and `opt->metacache` are lists of nodes linked by their addresses.  The
functions here follow and assign the links; `Common.Upload` and `Common.Metacache`,
where a pointer is a position, are what they come to.  A `Chain` is a list that ends,
so that none of the loops over it runs for ever.
-/
import Mathlib.Data.List.InsertIdx
import SiaFS.Lib.LinkedList
import SiaFS.Common.Metacache

namespace SiaFS

open LinkedList

abbrev Ptr := Nat

/-- `sia_upload_t` but for its link.  A null pointer is `none`. -/
structure UploadFields where
  part : Fin SIA_MAX_PARTS → SiaUploadedPart
  name : Option CStr
  uploadID : Option CStr

/-- `sia_metacache_t` but for its link. -/
structure MetaFields where
  name : Option CStr
  type : SiaObjectType
  size : Nat
  modtime : Int
  expire : Nat

def SiaUpload.fields (u : SiaUpload) : UploadFields := ⟨u.part, some u.name, some u.uploadID⟩

def SiaMetacache.fields (n : SiaMetacache) : MetaFields :=
  ⟨some n.name, n.type, n.size, n.modtime, n.expire⟩

namespace Pointers

/-! ## The functions -/

/-- The list, and the node `current` stops at. -/
def append_upload (fuel : Nat) (opt : Linked Ptr UploadFields) :
    Option Ptr → Except Failure (Linked Ptr UploadFields × Option Ptr)
  | none => .ok (opt, none)
  | some upload => linkLast fuel opt upload

def append_meta (fuel : Nat) (opt : Linked Ptr MetaFields) :
    Option Ptr → Except Failure (Linked Ptr MetaFields × Option Ptr)
  | none => .ok (opt, opt.head)
  | some node => do
    let (opt, _) ← linkLast fuel opt node
    pure (opt, opt.head)

/-- The deletion of a node whose strings are freed first. -/
def freeNode {α : Type} (clear : α → α) (fuel : Nat) (opt : Linked Ptr α) :
    Option Ptr → Except Failure (Linked Ptr α × Option Ptr)
  | none => .ok (opt, opt.head)
  | some node => do
    let heap ← write opt.heap (fun n => { n with data := clear n.data }) (some node)
    let opt ← unlink fuel { opt with heap } node
    pure (opt, opt.head)

def del_upload : Nat → Linked Ptr UploadFields → Option Ptr →
    Except Failure (Linked Ptr UploadFields × Option Ptr) :=
  freeNode fun u => ⟨fun slot => { u.part slot with etag := none }, none, none⟩

def del_meta : Nat → Linked Ptr MetaFields → Option Ptr →
    Except Failure (Linked Ptr MetaFields × Option Ptr) :=
  freeNode fun n => { n with name := none }

/-- `strcmp(current->name, path) == 0` -/
def hasName (path : CStr) (n : Node Ptr UploadFields) : Except Failure Bool :=
  match n.data.name with
  | some name => .ok (name == path)
  | none => .error .null

def find_upload_by_path (fuel : Nat) (opt : Linked Ptr UploadFields) (path : Option CStr) :
    Except Failure (Option Ptr) :=
  match path, opt.head with
  | some path, some first => do
    let current ← walk opt.heap (hasName path) fuel (some first)
    -- behind the loop the name is read once more, of a null pointer where nothing was found
    let n ← deref opt.heap current
    if ← hasName path n then pure current else pure none
  | _, _ => .ok none

/-! ## Lists that end -/

/-- A list whose nodes, from the first on, hold these values at these addresses. -/
structure Chain {α β : Type} (fields : β → α) where
  list : Linked Ptr α
  nodes : List (Ptr × β)
  linked : Segment list.heap list.head (nodes.map fun x => (x.1, fields x.2)) none

variable {α β : Type} {fields : β → α} {clear : α → α}

theorem addresses_nodes (nodes : List (Ptr × β)) :
    addresses (nodes.map fun x => (x.1, fields x.2)) = nodes.map Prod.fst := by
  simp [addresses]

namespace Chain

def pointers (c : Chain fields) : List Ptr := c.nodes.map Prod.fst

def values (c : Chain fields) : List β := c.nodes.map Prod.snd

end Chain

/-- The node at an address is taken out and freed, and all others are left alone. -/
theorem freeNode_spec {opt : Linked Ptr α} {l₁ l₂ : List (Ptr × α)} {a : Ptr} {x : α}
    (clear : α → α) (h : Segment opt.heap opt.head (l₁ ++ (a, x) :: l₂) none) {fuel : Nat}
    (hfuel : l₁.length ≤ fuel) :
    ∃ opt', freeNode clear fuel opt (some a) = .ok (opt', opt'.head) ∧
      Segment opt'.heap opt'.head (l₁ ++ l₂) none ∧ opt'.heap a = none ∧
      ∀ b ∉ addresses (l₁ ++ (a, x) :: l₂), opt'.heap b = opt.heap b := by
  obtain ⟨heap, hwrite, hcleared, hother⟩ := h.write_data clear
  obtain ⟨opt', hunlink, hlist, hfree, hframe⟩ :=
    unlink_spec (s := { opt with heap }) hcleared hfuel
  refine ⟨opt', ?_, hlist, hfree, fun b hb => ?_⟩
  · rw [freeNode, hwrite]
    show (unlink fuel { opt with heap } a >>= _) = _
    rw [hunlink]
    rfl
  · have hba : b ≠ a := by
      rintro rfl
      apply hb
      rw [addresses_append]
      exact List.mem_append_right _ List.mem_cons_self
    have hb' : b ∉ addresses (l₁ ++ (a, clear x) :: l₂) := by
      rwa [addresses_append, addresses_cons, ← addresses_cons (a, x), ← addresses_append]
    exact (hframe b hb').trans (hother b hba)

/-- What is asked of a pair of functions that append to a list and delete from it. -/
structure EditList (fields : β → α)
    (append del : Nat → Linked Ptr α → Option Ptr →
      Except Failure (Linked Ptr α × Option Ptr)) : Prop where
  /-- Any node of any list is removed, and every other is left as it is. -/
  removes : ∀ (c : Chain fields) (i : Fin c.nodes.length) (more : Nat),
    ∃ c' : Chain fields,
      del (c.nodes.length + more) c.list (some c.nodes[i].1) = .ok (c'.list, c'.list.head) ∧
      c'.nodes = c.nodes.eraseIdx i ∧ c'.list.heap c.nodes[i].1 = none ∧
      ∀ a ∉ c.pointers, c'.list.heap a = c.list.heap a
  /-- A new node is linked behind all others, and deleting it restores the list. -/
  restores : ∀ (c : Chain fields) (a : Ptr) (x : β) (next : Option Ptr) (more : Nat),
    c.list.heap a = some ⟨fields x, next⟩ → a ∉ c.pointers →
      ∃ (c' : Chain fields) (current : Option Ptr) (opt : Linked Ptr α),
        append (c.nodes.length + more) c.list (some a) = .ok (c'.list, current) ∧
        c'.nodes = c.nodes ++ [(a, x)] ∧
        del (c.nodes.length + more) c'.list (some a) = .ok (opt, opt.head) ∧
        opt.head = c.list.head ∧ ∀ b, b ≠ a → opt.heap b = c.list.heap b

theorem freeNode_removes (c : Chain fields) (i : Fin c.nodes.length) (more : Nat) :
    ∃ c' : Chain fields,
      freeNode clear (c.nodes.length + more) c.list (some c.nodes[i].1) =
        .ok (c'.list, c'.list.head) ∧
      c'.nodes = c.nodes.eraseIdx i ∧ c'.list.heap c.nodes[i].1 = none ∧
      ∀ a ∉ c.pointers, c'.list.heap a = c.list.heap a := by
  have hsplit : c.nodes = c.nodes.take i ++ c.nodes[i] :: c.nodes.drop (i + 1) := by
    rw [Fin.getElem_fin, ← List.drop_eq_getElem_cons, List.take_append_drop]
  have hlinked := c.linked
  rw [hsplit, List.map_append, List.map_cons] at hlinked
  have hfuel : ((c.nodes.take i).map fun x => (x.1, fields x.2)).length ≤
      c.nodes.length + more := by
    rw [List.length_map, List.length_take]
    omega
  obtain ⟨opt, hdel, hlist, hfree, hframe⟩ := freeNode_spec clear hlinked hfuel
  rw [← List.map_append] at hlist
  refine ⟨⟨opt, c.nodes.take i ++ c.nodes.drop (i + 1), hlist⟩, hdel,
    (List.eraseIdx_eq_take_drop_succ _ _).symm, hfree, fun a ha => hframe a ?_⟩
  rw [Chain.pointers, hsplit, List.map_append, List.map_cons] at ha
  rwa [addresses_append, addresses_cons, addresses_nodes, addresses_nodes]

/-- The list with a new node, and the part of it from the former last node on. -/
theorem linkLast_chain (c : Chain fields) {a : Ptr} {x : β} {next : Option Ptr}
    (ha : c.list.heap a = some ⟨fields x, next⟩) (hnew : a ∉ c.pointers) (more : Nat) :
    ∃ c' current : Chain fields,
      linkLast (c.nodes.length + more) c.list a = .ok (c'.list, current.list.head) ∧
      c'.nodes = c.nodes ++ [(a, x)] ∧ current.list.heap = c'.list.heap ∧
      current.nodes = c.nodes.getLast?.toList ++ [(a, x)] ∧
      ∀ b ∉ a :: c.pointers, c'.list.heap b = c.list.heap b := by
  have hfuel : (c.nodes.map fun x => (x.1, fields x.2)).length ≤ c.nodes.length + more := by
    rw [List.length_map]
    omega
  have hnew' : a ∉ addresses (c.nodes.map fun x => (x.1, fields x.2)) := by
    rwa [addresses_nodes]
  obtain ⟨opt, current, hlink, hlist, hlast, hframe⟩ := linkLast_spec c.linked ha hnew' hfuel
  have hlist' : Segment opt.heap opt.head
      ((c.nodes ++ [(a, x)]).map fun x => (x.1, fields x.2)) none := by
    rw [List.map_append]
    exact hlist
  have hlast' : Segment opt.heap current
      ((c.nodes.getLast?.toList ++ [(a, x)]).map fun x => (x.1, fields x.2)) none := by
    rw [List.map_append, ← Option.toList_map, ← List.getLast?_map]
    exact hlast
  refine ⟨⟨opt, _, hlist'⟩, ⟨⟨opt.heap, current⟩, _, hlast'⟩, hlink, rfl, rfl, rfl, ?_⟩
  rwa [addresses_nodes] at hframe

/-- A function that links as `linkLast` does, whatever it returns. -/
theorem freeNode_restores {append : Nat → Linked Ptr α → Option Ptr →
      Except Failure (Linked Ptr α × Option Ptr)}
    (happend : ∀ fuel opt a opt' current, linkLast fuel opt a = .ok (opt', current) →
      ∃ r, append fuel opt (some a) = .ok (opt', r))
    (c : Chain fields) (a : Ptr) (x : β) (next : Option Ptr) (more : Nat)
    (ha : c.list.heap a = some ⟨fields x, next⟩) (hnew : a ∉ c.pointers) :
    ∃ (c' : Chain fields) (current : Option Ptr) (opt : Linked Ptr α),
      append (c.nodes.length + more) c.list (some a) = .ok (c'.list, current) ∧
      c'.nodes = c.nodes ++ [(a, x)] ∧
      freeNode clear (c.nodes.length + more) c'.list (some a) = .ok (opt, opt.head) ∧
      opt.head = c.list.head ∧ ∀ b, b ≠ a → opt.heap b = c.list.heap b := by
  obtain ⟨c', current, hlink, hnodes, -, -, hframe⟩ := linkLast_chain c ha hnew more
  obtain ⟨r, hr⟩ := happend _ _ _ _ _ hlink
  have hlinked := c'.linked
  rw [hnodes, List.map_append, List.map_singleton] at hlinked
  have hfuel : (c.nodes.map fun x => (x.1, fields x.2)).length ≤ c.nodes.length + more := by
    rw [List.length_map]
    omega
  obtain ⟨opt, hdel, hlist, -, hframe'⟩ := freeNode_spec clear hlinked hfuel
  rw [List.append_nil] at hlist
  refine ⟨c', r, opt, hr, hnodes, hdel, c.linked.start hlist, fun b hb => ?_⟩
  by_cases hmem : b ∈ c.pointers
  · apply c.linked.agree hlist
    rwa [addresses_nodes]
  · rw [hframe' b, hframe b]
    · rw [List.mem_cons, not_or]
      exact ⟨hb, hmem⟩
    · rw [addresses_append, addresses_nodes, List.mem_append, not_or]
      exact ⟨hmem, by simpa using hb⟩

theorem uploads_edit : EditList SiaUpload.fields append_upload del_upload := by
  refine ⟨freeNode_removes, freeNode_restores ?_⟩
  intro fuel opt a opt' current h
  exact ⟨current, h⟩

theorem metacache_edit : EditList SiaMetacache.fields append_meta del_meta := by
  refine ⟨freeNode_removes, freeNode_restores ?_⟩
  intro fuel opt a opt' current h
  refine ⟨opt'.head, ?_⟩
  rw [append_meta, h]
  rfl

theorem edit_lists :
    EditList SiaUpload.fields append_upload del_upload ∧
      EditList SiaMetacache.fields append_meta del_meta := ⟨uploads_edit, metacache_edit⟩

/-! ### The metadata nodes by position -/

theorem del_meta_eq {metacache : List SiaMetacache} {i : Nat} (h : i < metacache.length) :
    SiaFS.del_meta metacache i = .ok (metacache.eraseIdx i) := by
  induction metacache generalizing i with
  | nil => cases h
  | cons first rest ih =>
    cases i with
    | zero => rfl
    | succ i =>
      rw [SiaFS.del_meta, ih (Nat.lt_of_succ_lt_succ h)]
      rfl

theorem append_meta_refines (c : Chain SiaMetacache.fields) {a : Ptr} {n : SiaMetacache}
    {next : Option Ptr} (ha : c.list.heap a = some ⟨n.fields, next⟩) (hnew : a ∉ c.pointers)
    (more : Nat) :
    ∃ c' : Chain SiaMetacache.fields,
      append_meta (c.nodes.length + more) c.list (some a) = .ok (c'.list, c'.list.head) ∧
      c'.values = SiaFS.append_meta c.values n := by
  obtain ⟨c', current, hlink, hnodes, -⟩ := linkLast_chain c ha hnew more
  refine ⟨c', ?_, ?_⟩
  · rw [append_meta, hlink]
    rfl
  · rw [Chain.values, hnodes, List.map_append, SiaFS.append_meta]
    rfl

theorem del_meta_refines (c : Chain SiaMetacache.fields) (i : Fin c.nodes.length) (more : Nat) :
    ∃ c' : Chain SiaMetacache.fields,
      del_meta (c.nodes.length + more) c.list (some c.nodes[i].1) =
        .ok (c'.list, c'.list.head) ∧
      SiaFS.del_meta c.values i = .ok c'.values := by
  obtain ⟨c', hdel, hnodes, -⟩ := metacache_edit.removes c i more
  have hi : i.val < c.values.length := by
    rw [Chain.values, List.length_map]
    exact i.isLt
  refine ⟨c', hdel, ?_⟩
  rw [del_meta_eq hi, Chain.values, Chain.values, hnodes, List.eraseIdx_map]

/-! ## The search -/

variable {c : Chain SiaUpload.fields} {path : CStr}

theorem hasName_fields (path : CStr) (u : SiaUpload) (next : Option Ptr) :
    hasName path ⟨u.fields, next⟩ = .ok (u.name == path) := rfl

/-- A segment of nodes of other names does not end the loop. -/
theorem other_names {heap : Heap Ptr UploadFields} {p q : Option Ptr}
    {l : List (Ptr × SiaUpload)}
    (h : Segment heap p (l.map fun x => (x.1, x.2.fields)) q)
    (hl : ∀ x ∈ l, (x.2.name == path) = false) (a : Ptr)
    (ha : a ∈ addresses (l.map fun x => (x.1, x.2.fields))) (n : Node Ptr UploadFields)
    (hn : heap a = some n) : hasName path n = .ok false := by
  induction l generalizing p with
  | nil => cases ha
  | cons x l ih =>
    obtain ⟨-, next, hx, h⟩ := h
    rcases List.mem_cons.mp ha with rfl | ha
    · obtain rfl : n = ⟨x.2.fields, next⟩ := Option.some.inj (hn.symm.trans hx)
      rw [hasName_fields, hl x List.mem_cons_self]
    · exact ih h (fun y hy => hl y (List.mem_cons_of_mem _ hy)) ha

/-- The search ends at the first node of the name.  Where there is none it ends at the
null link behind the last node, and follows it. -/
theorem find_upload_of_chain (c : Chain SiaUpload.fields) (path : CStr) (more : Nat) :
    find_upload_by_path (c.nodes.length + more) c.list (some path) =
      match c.nodes.find? fun x => x.2.name == path with
      | some x => .ok (some x.1)
      | none => if c.nodes = [] then .ok none else .error .null := by
  obtain ⟨⟨heap, head⟩, nodes, hlinked⟩ := c
  have hlinked : Segment heap head (nodes.map fun x => (x.1, x.2.fields)) none := hlinked
  cases hfind : nodes.find? fun x => x.2.name == path with
  | some x =>
    obtain ⟨hx, l₁, l₂, rfl, hl₁⟩ := List.find?_eq_some_iff_append.mp hfind
    rw [List.map_append, List.map_cons] at hlinked
    obtain ⟨r, h₁, hr⟩ := segment_append.mp hlinked
    obtain ⟨rfl, next, hnode, -⟩ := hr
    have hpass := other_names h₁ fun y hy => by simpa using hl₁ y hy
    have hstop : hasName path ⟨x.2.fields, next⟩ = .ok true := by
      rw [hasName_fields, hx]
    have hfuel : (l₁.map fun x => (x.1, x.2.fields)).length < (l₁ ++ x :: l₂).length + more := by
      simp only [List.length_append, List.length_cons, List.length_map]
      omega
    have hwalk := walk_first h₁ hpass hnode hstop hfuel
    obtain ⟨first, rfl⟩ := h₁.exists_start
    show (walk heap (hasName path) _ (some first) >>= _) = _
    rw [hwalk]
    show (deref heap (some x.1) >>= _) = _
    rw [deref_some hnode]
    show (hasName path ⟨x.2.fields, next⟩ >>= fun b => if b = true then _ else _) = _
    rw [hstop]
    rfl
  | none =>
    have hall : ∀ x ∈ nodes, (x.2.name == path) = false := fun x hx => by
      simpa using List.find?_eq_none.mp hfind x hx
    cases nodes with
    | nil =>
      obtain rfl : head = none := hlinked
      rfl
    | cons x rest =>
      obtain rfl : head = some x.1 := hlinked.1
      have hwalk : walk heap (hasName path) ((x :: rest).length + more) (some x.1) =
          .ok none := by
        rw [← List.length_map fun x : Ptr × SiaUpload => (x.1, x.2.fields),
          walk_passes hlinked (other_names hlinked hall)]
        cases more <;> rfl
      show (walk heap (hasName path) _ (some x.1) >>= _) = _
      rw [hwalk]
      rfl

end Pointers

end SiaFS
