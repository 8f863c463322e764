/-
Singly linked lists in a heap.

`Segment heap p l q` says that the link `p` leads through the nodes of `l`, given by
their addresses and data, to the link `q`.  A segment that ends in a null link is a
list, and its addresses are distinct: what follows a node is determined by its
address, so a node that came twice would be followed by itself for ever.

The loops over a list take fuel, one unit for a node.  `outOfFuel` is a loop that is
still running.
-/
import Mathlib.Data.List.Basic
import Mathlib.Logic.Function.Basic

namespace LinkedList

/-- Why an access or a loop ends without a result. -/
inductive Failure
  | null
  | dangling
  | outOfFuel
  deriving DecidableEq, Repr

structure Node (ι α : Type) where
  data : α
  next : Option ι

abbrev Heap (ι α : Type) := ι → Option (Node ι α)

variable {ι α : Type}

def deref (heap : Heap ι α) : Option ι → Except Failure (Node ι α)
  | none => .error .null
  | some a =>
    match heap a with
    | some n => .ok n
    | none => .error .dangling

/-- The loop `while (!stop(current)) current = current->next`, which ends at a null link
as well. -/
def walk (heap : Heap ι α) (stop : Node ι α → Except Failure Bool) :
    Nat → Option ι → Except Failure (Option ι)
  | _, none => .ok none
  | 0, some _ => .error .outOfFuel
  | fuel + 1, some a => do
    let n ← deref heap (some a)
    if ← stop n then pure (some a) else walk heap stop fuel n.next

def Segment (heap : Heap ι α) : Option ι → List (ι × α) → Option ι → Prop
  | p, [], q => p = q
  | p, (a, x) :: l, q => p = some a ∧ ∃ next, heap a = some ⟨x, next⟩ ∧ Segment heap next l q

def addresses (l : List (ι × α)) : List ι := l.map Prod.fst

@[simp] theorem addresses_nil : addresses ([] : List (ι × α)) = [] := rfl

@[simp] theorem addresses_cons (x : ι × α) (l : List (ι × α)) :
    addresses (x :: l) = x.1 :: addresses l := rfl

@[simp] theorem addresses_append (l₁ l₂ : List (ι × α)) :
    addresses (l₁ ++ l₂) = addresses l₁ ++ addresses l₂ := List.map_append

variable {heap heap' : Heap ι α} {p p' q r : Option ι} {l l' l₁ l₂ : List (ι × α)} {a b : ι}
  {x y : α} {n : Node ι α} {stop : Node ι α → Except Failure Bool} {fuel : Nat}

section Updates

variable [DecidableEq ι]

/-- An assignment to fields of a node. -/
def write (heap : Heap ι α) (f : Node ι α → Node ι α) : Option ι → Except Failure (Heap ι α)
  | none => .error .null
  | some a =>
    match heap a with
    | some n => .ok (Function.update heap a (some (f n)))
    | none => .error .dangling

def free (heap : Heap ι α) (a : ι) : Heap ι α := Function.update heap a none

/-- A list that is reached from the link `head`. -/
structure Linked (ι α : Type) where
  heap : Heap ι α
  head : Option ι

/-- `current->next == NULL` -/
def isLast (n : Node ι α) : Except Failure Bool := .ok n.next.isNone

/-- `before->next == x || before->next == NULL` -/
def isBefore (x : ι) (n : Node ι α) : Except Failure Bool :=
  .ok (n.next == some x || n.next.isNone)

/-- Link a node behind the last one.  The address returned is that of the former last
node, or of the new one where it is the first. -/
def linkLast (fuel : Nat) (s : Linked ι α) (x : ι) :
    Except Failure (Linked ι α × Option ι) :=
  match s.head with
  | some first => do
    let current ← walk s.heap isLast fuel (some first)
    let heap ← write s.heap (fun n => { n with next := some x }) current
    let heap ← write heap (fun n => { n with next := none }) (some x)
    pure ({ s with heap }, current)
  | none => do
    let heap ← write s.heap (fun n => { n with next := none }) (some x)
    pure (⟨heap, some x⟩, some x)

/-- Take a node out of the list and free it.  A node other than the first is looked for
from its predecessor. -/
def unlink (fuel : Nat) (s : Linked ι α) (x : ι) : Except Failure (Linked ι α) :=
  if s.head = some x then do
    let n ← deref s.heap (some x)
    pure ⟨free s.heap x, n.next⟩
  else do
    let before ← walk s.heap (isBefore x) fuel s.head
    let b ← deref s.heap before
    if b.next = some x then do
      let n ← deref s.heap (some x)
      let heap ← write s.heap (fun b => { b with next := n.next }) before
      pure { s with heap := free heap x }
    else pure s

end Updates

theorem deref_some (h : heap a = some n) : deref heap (some a) = .ok n := by
  rw [deref, h]

/-! ## Segments -/

theorem segment_append :
    Segment heap p (l₁ ++ l₂) q ↔ ∃ r, Segment heap p l₁ r ∧ Segment heap r l₂ q := by
  induction l₁ generalizing p with
  | nil =>
    constructor
    · intro h
      exact ⟨p, rfl, h⟩
    · intro h
      obtain ⟨r, hr, h⟩ := h
      rwa [show p = r from hr]
  | cons x l₁ ih =>
    constructor
    · intro h
      obtain ⟨hp, next, hx, h⟩ := h
      obtain ⟨r, h₁, h₂⟩ := ih.mp h
      exact ⟨r, ⟨hp, next, hx, h₁⟩, h₂⟩
    · intro h
      obtain ⟨r, ⟨hp, next, hx, h₁⟩, h₂⟩ := h
      exact ⟨hp, next, hx, ih.mpr ⟨r, h₁, h₂⟩⟩

theorem segment_singleton (h : heap a = some ⟨x, q⟩) : Segment heap (some a) [(a, x)] q :=
  ⟨rfl, q, h, rfl⟩

/-- A segment reads its own nodes only. -/
theorem Segment.congr (h : Segment heap p l q) (hheap : ∀ a ∈ addresses l, heap' a = heap a) :
    Segment heap' p l q := by
  induction l generalizing p with
  | nil => exact h
  | cons x l ih =>
    obtain ⟨hp, next, hx, h⟩ := h
    have htail : ∀ a ∈ addresses l, heap' a = heap a :=
      fun a ha => hheap a (List.mem_cons_of_mem _ ha)
    exact ⟨hp, next, (hheap x.1 List.mem_cons_self).trans hx, ih h htail⟩

/-- Where a list starts decides what it is. -/
theorem Segment.unique (h : Segment heap p l none) (h' : Segment heap p l' none) : l = l' := by
  induction l generalizing p l' with
  | nil =>
    cases l' with
    | nil => rfl
    | cons y l' =>
      have hp : p = none := h
      rw [hp] at h'
      cases h'.1
  | cons x l ih =>
    obtain ⟨hp, next, hx, h⟩ := h
    cases l' with
    | nil =>
      have hp' : p = none := h'
      rw [hp] at hp'
      cases hp'
    | cons y l' =>
      obtain ⟨hp', next', hy, h'⟩ := h'
      have hxy : x.1 = y.1 := Option.some.inj (hp.symm.trans hp')
      rw [← hxy, hx, Option.some.injEq, Node.mk.injEq] at hy
      obtain ⟨hdata, rfl⟩ := hy
      rw [ih h h', Prod.ext hxy hdata]

/-- A list has no node twice. -/
theorem Segment.nodup (h : Segment heap p l none) : (addresses l).Nodup := by
  induction l generalizing p with
  | nil => exact List.nodup_nil
  | cons x l ih =>
    obtain ⟨hp, next, hx, hl⟩ := h
    rw [addresses_cons, List.nodup_cons]
    refine ⟨fun hmem => ?_, ih hl⟩
    -- from its second place on the list would be the whole list again
    obtain ⟨y, hy, hyx⟩ := List.mem_map.mp hmem
    obtain ⟨l₁, l₂, rfl⟩ := List.append_of_mem hy
    obtain ⟨r, -, hr⟩ := segment_append.mp hl
    have hr' : r = p := by rw [hr.1, hp, hyx]
    have hsame : y :: l₂ = x :: (l₁ ++ y :: l₂) :=
      (hr' ▸ hr).unique ⟨hp, next, hx, hl⟩
    have hlength := congrArg List.length hsame
    simp only [List.length_cons, List.length_append] at hlength
    omega

/-- The link out of a node of a segment leads into it or to its end. -/
theorem Segment.next_mem (h : Segment heap p l (some b)) (ha : a ∈ addresses l)
    (hn : heap a = some n) : ∃ c, n.next = some c ∧ (c ∈ addresses l ∨ c = b) := by
  induction l generalizing p with
  | nil => cases ha
  | cons x l ih =>
    obtain ⟨-, next, hx, h⟩ := h
    rcases List.mem_cons.mp ha with rfl | ha
    · have hnext : n = ⟨x.2, next⟩ := Option.some.inj (hn.symm.trans hx)
      rw [hnext]
      cases l with
      | nil => exact ⟨b, h, .inr rfl⟩
      | cons y l => exact ⟨y.1, h.1, .inl (List.mem_cons_of_mem _ List.mem_cons_self)⟩
    · obtain ⟨c, hc, hmem⟩ := ih h ha
      exact ⟨c, hc, hmem.imp_left (List.mem_cons_of_mem _)⟩

theorem Segment.start (h : Segment heap p l q) (h' : Segment heap' p' l q) : p' = p := by
  cases l with
  | nil => exact Eq.trans h' (Eq.symm h)
  | cons x l => exact h'.1.trans h.1.symm

/-- Two heaps with the same list have the same nodes in it. -/
theorem Segment.agree (h : Segment heap p l q) (h' : Segment heap' p' l q) :
    ∀ a ∈ addresses l, heap' a = heap a := by
  induction l generalizing p p' with
  | nil => exact nofun
  | cons x l ih =>
    obtain ⟨-, next, hx, h⟩ := h
    obtain ⟨-, next', hx', h'⟩ := h'
    have hnext : next' = next := h.start h'
    intro a ha
    rcases List.mem_cons.mp ha with rfl | ha
    · rw [hx, hx', hnext]
    · exact ih h h' a ha

/-- A segment that ends in a link begins with one. -/
theorem Segment.exists_start (h : Segment heap p l (some a)) : ∃ first, p = some first := by
  cases l with
  | nil => exact ⟨a, h⟩
  | cons x l => exact ⟨x.1, h.1⟩

/-- A segment of some nodes does not begin with any other. -/
theorem Segment.start_ne (h : Segment heap p l q) (hl : l ≠ []) (ha : a ∉ addresses l) :
    p ≠ some a := by
  cases l with
  | nil => exact absurd rfl hl
  | cons x l =>
    intro hp
    have hxa : x.1 = a := Option.some.inj (h.1.symm.trans hp)
    exact ha (hxa ▸ List.mem_cons_self)

/-- A node of a list occurs once in it. -/
theorem Segment.not_mem (h : Segment heap p (l₁ ++ (a, x) :: l₂) none) :
    a ∉ addresses l₁ ∧ a ∉ addresses l₂ := by
  have hnodup := h.nodup
  rw [addresses_append, List.nodup_append, addresses_cons, List.nodup_cons] at hnodup
  obtain ⟨-, ⟨ha₂, -⟩, hne⟩ := hnodup
  exact ⟨fun hmem => hne a hmem a List.mem_cons_self rfl, ha₂⟩

/-! ## Loops -/

/-- A loop runs through a segment none of whose nodes ends it. -/
theorem walk_passes (h : Segment heap p l q)
    (hstop : ∀ a ∈ addresses l, ∀ n, heap a = some n → stop n = .ok false) :
    walk heap stop (l.length + fuel) p = walk heap stop fuel q := by
  induction l generalizing p with
  | nil => rw [show p = q from h, List.length_nil, Nat.zero_add]
  | cons x l ih =>
    obtain ⟨rfl, next, hx, h⟩ := h
    have hnode : stop ⟨x.2, next⟩ = .ok false := hstop x.1 List.mem_cons_self _ hx
    have htail := ih h fun a ha => hstop a (List.mem_cons_of_mem _ ha)
    rw [List.length_cons, Nat.add_right_comm, walk, deref_some hx, ← htail]
    show (stop ⟨x.2, next⟩ >>= fun b => if b = true then _ else _) = _
    rw [hnode]
    rfl

theorem walk_stops (h : heap a = some n) (hstop : stop n = .ok true) :
    walk heap stop (fuel + 1) (some a) = .ok (some a) := by
  rw [walk, deref_some h]
  show (stop n >>= fun b => if b = true then _ else _) = _
  rw [hstop]
  rfl

/-- A loop ends at the first node that ends it. -/
theorem walk_first (h : Segment heap p l (some a))
    (hpass : ∀ b ∈ addresses l, ∀ m, heap b = some m → stop m = .ok false)
    (ha : heap a = some n) (hstop : stop n = .ok true) (hfuel : l.length < fuel) :
    walk heap stop fuel p = .ok (some a) := by
  obtain ⟨more, rfl⟩ : ∃ more, fuel = l.length + (more + 1) :=
    ⟨fuel - l.length - 1, by omega⟩
  rw [walk_passes h hpass]
  exact walk_stops ha hstop

/-- Every node before another has a link. -/
theorem Segment.not_last (h : Segment heap p l (some a)) :
    ∀ b ∈ addresses l, ∀ m, heap b = some m → isLast m = .ok false := by
  intro b hb m hm
  obtain ⟨d, hd, -⟩ := h.next_mem hb hm
  rw [isLast, hd]
  rfl

/-! ## Updates -/

variable [DecidableEq ι]

theorem write_some (h : heap a = some n) (f : Node ι α → Node ι α) :
    write heap f (some a) = .ok (Function.update heap a (some (f n))) := by
  rw [write, h]

/-- The last node of a segment linked elsewhere. -/
theorem Segment.relink (h : Segment heap p l (some a)) (ha : a ∉ addresses l) (x : α)
    (r : Option ι) :
    Segment (Function.update heap a (some ⟨x, r⟩)) p (l ++ [(a, x)]) r := by
  have hother : ∀ b ∈ addresses l, Function.update heap a (some ⟨x, r⟩) b = heap b := by
    intro b hb
    exact Function.update_of_ne (ne_of_mem_of_not_mem hb ha) _ _
  exact segment_append.mpr ⟨some a, h.congr hother, segment_singleton (Function.update_self _ _ _)⟩

/-- A segment does not change with a node that is not in it. -/
theorem Segment.update (h : Segment heap p l q) (ha : a ∉ addresses l)
    (m : Option (Node ι α)) : Segment (Function.update heap a m) p l q :=
  h.congr fun _ hb => Function.update_of_ne (ne_of_mem_of_not_mem hb ha) _ _

/-- An assignment to the data of one node. -/
theorem Segment.write_data (h : Segment heap p (l₁ ++ (a, x) :: l₂) none) (f : α → α) :
    ∃ heap', write heap (fun n => { n with data := f n.data }) (some a) = .ok heap' ∧
      Segment heap' p (l₁ ++ (a, f x) :: l₂) none ∧ ∀ b, b ≠ a → heap' b = heap b := by
  obtain ⟨ha₁, ha₂⟩ := h.not_mem
  obtain ⟨r, h₁, hr⟩ := segment_append.mp h
  obtain ⟨rfl, next, hx, h₂⟩ := hr
  refine ⟨_, write_some hx _, ?_, fun b hb => Function.update_of_ne hb _ _⟩
  exact segment_append.mpr
    ⟨some a, h₁.update ha₁ _, rfl, next, Function.update_self _ _ _, h₂.update ha₂ _⟩

/-- Nodes that are followed by other nodes than `a` do not come before it. -/
theorem Segment.not_before (h : Segment heap p l (some b)) (ha : a ∉ addresses l)
    (hab : a ≠ b) : ∀ c ∈ addresses l, ∀ m, heap c = some m → isBefore a m = .ok false := by
  intro c hc m hm
  obtain ⟨d, hd, hmem⟩ := h.next_mem hc hm
  have hda : d ≠ a := by
    intro hda
    rcases hmem with hmem | hdb
    · exact ha (hda ▸ hmem)
    · exact hab (hda.symm.trans hdb)
  rw [isBefore, hd]
  simp [hda]

theorem linkLast_spec {s : Linked ι α} (h : Segment s.heap s.head l none)
    (hn : s.heap a = some n) (ha : a ∉ addresses l) (hfuel : l.length ≤ fuel) :
    ∃ s' current, linkLast fuel s a = .ok (s', current) ∧
      Segment s'.heap s'.head (l ++ [(a, n.data)]) none ∧
      Segment s'.heap current (l.getLast?.toList ++ [(a, n.data)]) none ∧
      ∀ b ∉ a :: addresses l, s'.heap b = s.heap b := by
  obtain ⟨heap, head⟩ := s
  have hn : heap a = some n := hn
  have h : Segment heap head l none := h
  rcases List.eq_nil_or_concat' l with rfl | ⟨l, ⟨b, y⟩, rfl⟩
  · have hhead : head = none := h
    subst hhead
    have hnode : Segment (Function.update heap a (some { n with next := none })) (some a)
        [(a, n.data)] none := segment_singleton (Function.update_self _ _ _)
    refine ⟨⟨Function.update heap a (some { n with next := none }), some a⟩, some a, ?_, hnode,
      hnode, fun b hb => Function.update_of_ne (List.ne_of_not_mem_cons hb) _ _⟩
    rw [linkLast, write_some hn]
    rfl
  · obtain ⟨r, hl, hb⟩ := segment_append.mp h
    obtain ⟨rfl, next, hb, hnext⟩ := hb
    obtain rfl : next = none := hnext
    have hbl : b ∉ addresses l := h.not_mem.1
    rw [addresses_append, List.mem_append, not_or] at ha
    have hab : a ≠ b := List.ne_of_not_mem_cons ha.2
    rw [List.length_append, List.length_singleton] at hfuel
    have hwalk : walk heap isLast fuel head = .ok (some b) :=
      walk_first hl hl.not_last hb rfl hfuel
    obtain ⟨first, rfl⟩ := hl.exists_start
    have hlast : Segment (Function.update heap b (some ⟨y, some a⟩)) (some first)
        (l ++ [(b, y)]) (some a) := hl.relink hbl y (some a)
    have ha' : a ∉ addresses (l ++ [(b, y)]) := by
      rw [addresses_append, List.mem_append, not_or]
      exact ha
    have hn' : Function.update heap b (some ⟨y, some a⟩) a = some n := by
      rw [Function.update_of_ne hab]
      exact hn
    have hdone := hlast.relink ha' n.data none
    obtain ⟨r, hfront, hback⟩ := segment_append.mp
      (show Segment _ _ (l ++ ([(b, y)] ++ [(a, n.data)])) _ by rwa [← List.append_assoc])
    obtain rfl : r = some b := hback.1
    refine ⟨⟨_, some first⟩, some b, ?_, hdone, ?_, ?_⟩
    · rw [linkLast]
      show (walk heap isLast fuel (some first) >>= _) = _
      rw [hwalk]
      show (write heap _ (some b) >>= _) = _
      rw [write_some hb]
      show (write _ _ (some a) >>= _) = _
      rw [write_some hn']
      rfl
    · rwa [List.getLast?_concat]
    · intro c hc
      rw [List.mem_cons, addresses_append, List.mem_append, not_or, not_or] at hc
      show Function.update (Function.update heap b _) a _ c = heap c
      rw [Function.update_of_ne hc.1, Function.update_of_ne (List.ne_of_not_mem_cons hc.2.2)]

theorem unlink_spec {s : Linked ι α} (h : Segment s.heap s.head (l₁ ++ (a, x) :: l₂) none)
    (hfuel : l₁.length ≤ fuel) :
    ∃ s', unlink fuel s a = .ok s' ∧ Segment s'.heap s'.head (l₁ ++ l₂) none ∧
      s'.heap a = none ∧ ∀ b ∉ addresses (l₁ ++ (a, x) :: l₂), s'.heap b = s.heap b := by
  obtain ⟨heap, head⟩ := s
  obtain ⟨hal, ha₂⟩ := h.not_mem
  obtain ⟨r, hl₁, hr⟩ := segment_append.mp h
  obtain ⟨rfl, next, hx, hl₂⟩ := hr
  have hx : heap a = some ⟨x, next⟩ := hx
  rcases List.eq_nil_or_concat' l₁ with rfl | ⟨l, ⟨b, y⟩, rfl⟩
  · have hhead : head = some a := hl₁
    subst hhead
    refine ⟨⟨free heap a, next⟩, ?_, hl₂.update ha₂ none, Function.update_self _ _ _, ?_⟩
    · rw [unlink, if_pos rfl]
      show (deref heap (some a) >>= _) = _
      rw [deref_some hx]
      rfl
    · intro c hc
      exact Function.update_of_ne (List.ne_of_not_mem_cons hc) _ _
  · obtain ⟨r, hl, hb⟩ := segment_append.mp hl₁
    obtain ⟨rfl, next', hb, hnext⟩ := hb
    obtain rfl : next' = some a := hnext
    rw [List.append_assoc] at h
    obtain ⟨hbl, hb'⟩ := h.not_mem
    have hb₂ : b ∉ addresses l₂ := fun hmem => hb' (List.mem_cons_of_mem _ hmem)
    have ha := hal
    rw [addresses_append, List.mem_append, not_or] at ha
    rw [List.length_append, List.length_singleton] at hfuel
    have hwalk : walk heap (isBefore a) fuel head = .ok (some b) :=
      walk_first hl (hl.not_before ha.1 (List.ne_of_not_mem_cons ha.2)) hb (by simp [isBefore])
        hfuel
    have hhead : head ≠ some a := hl₁.start_ne (by simp) hal
    have hfront : Segment (Function.update heap b (some ⟨y, next⟩)) head (l ++ [(b, y)]) next :=
      hl.relink hbl y next
    have hback : Segment (Function.update heap b (some ⟨y, next⟩)) next l₂ none :=
      hl₂.update hb₂ _
    refine ⟨⟨free (Function.update heap b (some ⟨y, next⟩)) a, head⟩, ?_, ?_,
      Function.update_self _ _ _, ?_⟩
    · rw [unlink, if_neg hhead]
      show (walk heap (isBefore a) fuel head >>= _) = _
      rw [hwalk]
      show (deref heap (some b) >>= _) = _
      rw [deref_some hb]
      show (if some a = some a then deref heap (some a) >>= _ else _) = _
      rw [if_pos rfl, deref_some hx]
      show (write heap _ (some b) >>= _) = _
      rw [write_some hb]
      rfl
    · exact segment_append.mpr ⟨next, hfront.update hal none, hback.update ha₂ none⟩
    · intro c hc
      rw [addresses_append, addresses_append, List.mem_append, List.mem_append, not_or,
        not_or] at hc
      show Function.update (Function.update heap b _) a none c = heap c
      rw [Function.update_of_ne (List.ne_of_not_mem_cons hc.2),
        Function.update_of_ne (List.ne_of_not_mem_cons hc.1.2)]

end LinkedList
