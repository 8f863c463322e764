/-
Several paths uploaded at once.

`append_upload` keeps only the last node of the list and the new one, so the
first write of a file drops the node of every upload but the one begun last.
The next write of a path that has lost its node, or its release, follows a null
pointer.  As long as every path that is written on is one of the two begun last,
no upload takes notice of the others.
-/
import SiaFS.Upload.Rewrite

namespace SiaFS

open Staging Pieces

variable {σ : Type} {e : Env σ} {view : σ → Bucket} {w w' : World σ} {p q : CStr} {c : Bytes}
  {m : Nat}

/-! ## Interleavings -/

/-- The path that an operation writes or releases. -/
def Op.target : Op → Option CStr
  | .write path _ _ => some path
  | .release path => some path
  | _ => none

/-- The path whose upload an operation begins. -/
def Op.begins : Op → Option CStr
  | .write path _ offset => if offset = 0 then some path else none
  | _ => none

/-- The operations on a path, in order. -/
def turnsOf (path : CStr) (ops : List Op) : List Op := ops.filter fun op => op.target == some path

/-- `ops` interleaves the runs that upload `c p` to `p`, for the paths `p` of
`ps`. -/
structure Interleaves (e : Env σ) (ps : List CStr) (c : CStr → Bytes) (ops : List Op) : Prop where
  targets : ∀ op ∈ ops, ∃ p ∈ ps, op.target = some p
  runs : ∀ p ∈ ps, turnsOf p ops = uploadRun e p (c p)

/-- The paths whose upload has begun, in order. -/
def begun (ops : List Op) : List CStr := ops.filterMap Op.begins

def lastTwo {α : Type} (l : List α) : List α := l.reverse.take 2

/-- Once `began` have begun, every write past the start of a path and every
release among `ops` is of one of the two paths begun last at that point. -/
def Kept : List CStr → List Op → Prop
  | _, [] => True
  | began, op :: ops =>
    (∀ path, op.Later path → path ∈ lastTwo began) ∧ Kept (began ++ op.begins.toList) ops

theorem mem_lastTwo_concat {α : Type} {l : List α} {x y : α} :
    y ∈ lastTwo (l ++ [x]) ↔ y = x ∨ l.getLast? = some y := by
  rw [lastTwo, List.reverse_append, List.reverse_singleton, List.singleton_append,
    List.take_succ_cons, List.mem_cons, ← List.head?_reverse]
  cases l.reverse with
  | nil => simp
  | cons z zs => simp [eq_comm]

theorem begun_concat (ops : List Op) (op : Op) :
    begun (ops ++ [op]) = begun ops ++ op.begins.toList := by
  rw [begun, List.filterMap_append, begun]
  cases h : op.begins <;> simp [h]

theorem turnsOf_concat (ops : List Op) (op : Op) (path : CStr) :
    turnsOf path (ops ++ [op]) = turnsOf path ops ++ if op.target = some path then [op] else [] := by
  rw [turnsOf, List.filter_append, turnsOf]
  by_cases h : op.target = some path <;> simp [h]

/-- The operations of a run, by their number. -/
theorem uploadRun_turn {op : Op} (h : (uploadRun e p c)[m]? = some op) :
    (m < e.geometry.blocks c ∧ op = .write p (piece e.small c m) (m * e.small)) ∨
      (m = e.geometry.blocks c ∧ op = .release p) := by
  have hlen : (blockWrites e p c (e.geometry.blocks c)).length = e.geometry.blocks c := by
    rw [blockWrites, List.length_map, List.length_range]
  rw [uploadRun, List.getElem?_append, hlen] at h
  by_cases hm : m < e.geometry.blocks c
  · rw [if_pos hm, blockWrites, List.getElem?_map, List.getElem?_range hm] at h
    cases h
    exact Or.inl ⟨hm, rfl⟩
  · rw [if_neg hm, List.getElem?_singleton] at h
    split at h
    · cases h
      exact Or.inr ⟨by omega, rfl⟩
    · cases h

/-- The next operation on a path is the next one of its run. -/
theorem Interleaves.turn {ps : List CStr} {c : CStr → Bytes} {before after : List Op} {op : Op}
    (h : Interleaves e ps c (before ++ op :: after)) (hp : p ∈ ps) (hop : op.target = some p) :
    (uploadRun e p (c p))[(turnsOf p before).length]? = some op := by
  rw [← h.runs p hp, turnsOf, List.filter_append, List.filter_cons_of_pos (by simpa using hop),
    ← turnsOf, List.getElem?_append_right (Nat.le_refl _), Nat.sub_self, List.getElem?_cons_zero]

/-! ## One upload among others -/

/-- The path has no object yet, and what is cached about it shows none. -/
structure Unfinished (e : Env σ) (view : σ → Bucket) (w : World σ) (p : CStr) : Prop where
  object : (view w.server).objects p = none
  cached : ∀ key, key = listKey e p ∨ key = objectsKey e p →
    ∀ body, mc_lookup w key = some body → EntryFine p (some body)

theorem Unfinished.cacheFine (h : Unfinished e view w p) : CacheFine e (view w.server) w p where
  scan body hl := (h.cached _ (Or.inl rfl) body hl).scan
  size _ _ := ⟨fun body ho => (h.cached _ (Or.inr rfl) body ho).size, fun _ => Or.inl h.object⟩

/-- How far the upload of `c` to `p` is after its first `m` operations. -/
inductive Stage (e : Env σ) (view : σ → Bucket) (w : World σ) (p : CStr) (c : Bytes) : Nat → Prop
  | waiting (h : Unfinished e view w p) (hidle : ∀ id, (view w.server).pending id ≠ some p)
    (hnode : p ∉ w.uploads.map SiaUpload.name) : Stage e view w p c 0
  | writing {m : Nat} {base : List (Request × Reply)} {u : SiaUpload} {st : Slots UInt8 CStr}
    (h : Unfinished e view w p) (h0 : 0 < m) (hm : m ≤ e.geometry.blocks c)
    (hS : Session e view base w p u st) (hI : InOrder e.geometry c (fun _ => False) m st) :
    Stage e view w p c m
  | lost {m : Nat} (h : Unfinished e view w p) (h0 : 0 < m) (hm : m ≤ e.geometry.blocks c)
    (hne : w.uploads ≠ []) (hnode : p ∉ w.uploads.map SiaUpload.name) : Stage e view w p c m
  | done (h : (view w.server).objects p = some c) : Stage e view w p c (e.geometry.blocks c + 1)

theorem Stage.finished (h : Stage e view w p c (uploadRun e p c).length) :
    (view w.server).objects p = some c := by
  have hlen : (uploadRun e p c).length = e.geometry.blocks c + 1 := by
    rw [uploadRun, List.length_append, blockWrites, List.length_map, List.length_range,
      List.length_singleton]
  rw [hlen] at h
  generalize hm : e.geometry.blocks c + 1 = m at h
  cases h with
  | waiting => omega
  | writing h h0 hle => omega
  | lost h h0 hle => omega
  | done h => exact h

/-- What a step for other paths leaves of a path in the bucket. -/
structure Bucket.Spares (p : CStr) (b b' : Bucket) : Prop where
  object : b'.objects p = b.objects p
  pending : ∀ id, b'.pending id = some p ↔ b.pending id = some p
  parts : ∀ id, b.pending id = some p → b'.parts id = b.parts id

/-- What a step for other paths leaves of the upload of `p`, unless its node is
lost. -/
structure Spares (e : Env σ) (view : σ → Bucket) (p : CStr) (w w' : World σ) : Prop where
  bucket : Bucket.Spares p (view w.server) (view w'.server)
  cache : CacheGrows w w'
  nonempty : w.uploads ≠ [] → w'.uploads ≠ []
  unnamed : p ∉ w.uploads.map SiaUpload.name → p ∉ w'.uploads.map SiaUpload.name
  stages : ∀ base u st, Stages base w p u st →
    Stages base w' p u st ∨ (w'.uploads ≠ [] ∧ p ∉ w'.uploads.map SiaUpload.name)

theorem Unfinished.spared (h : Unfinished e view w p) (hs : Spares e view p w w') :
    Unfinished e view w' p := by
  refine ⟨hs.bucket.object.trans h.object, fun key hkey _ hl => ?_⟩
  rcases hs.cache key _ hl with hl | hfine
  · exact h.cached key hkey _ hl
  · exact hfine p

theorem Stage.spared (h : Stage e view w p c m) (hs : Spares e view p w w') (hN : Named e w') :
    Stage e view w' p c m := by
  cases h with
  | waiting h hidle hnode =>
    exact .waiting (h.spared hs) (fun id hid => hidle id ((hs.bucket.pending id).mp hid))
      (hs.unnamed hnode)
  | writing h h0 hm hS hI =>
    rcases hs.stages _ _ _ hS.stages with hst | ⟨hne, hnode⟩
    · have hpending := (hS.pending _).mpr rfl
      refine .writing (h.spared hs) h0 hm ⟨hst, hN, fun id => ?_, fun s => ?_⟩ hI
      · rw [hs.bucket.pending]
        exact hS.pending id
      · rw [hs.bucket.parts _ hpending]
        exact hS.stored s
    · exact .lost (h.spared hs) h0 hm hne hnode
  | lost h h0 hm hne hnode => exact .lost (h.spared hs) h0 hm (hs.nonempty hne) (hs.unnamed hnode)
  | done h => exact .done (hs.bucket.object.trans h)

section Bucket

variable {b b' : Bucket} {id : CStr}

theorem PartsOnly.spares (h : PartsOnly id b b') (hid : b.pending id = some q) (hq : p ≠ q) :
    Bucket.Spares p b b' := by
  refine ⟨congrFun h.objects p, fun i => by rw [h.pending], fun i hi => h.parts i ?_⟩
  rintro rfl
  rw [hid] at hi
  exact hq (Option.some.inj hi).symm

theorem Bucket.spares_create (hid : ¬ b.issued id) (hq : p ≠ q) :
    Bucket.Spares p b (b.create q id) := by
  have hne : ∀ i, b.pending i = some p → i ≠ id := by
    rintro i hi rfl
    exact hid (b.pending_issued i p hi)
  refine ⟨rfl, fun i => ?_, fun i hi => Function.update_of_ne (hne i hi) _ _⟩
  show Function.update b.pending id (some q) i = some p ↔ _
  by_cases hi : i = id
  · subst hi
    rw [Function.update_self]
    exact ⟨fun h => absurd (Option.some.inj h).symm hq, fun h => absurd rfl (hne i h)⟩
  · rw [Function.update_of_ne hi]

theorem Bucket.spares_complete (hid : b.pending id = some q) (hq : p ≠ q)
    (listed : List (Nat × CStr)) : Bucket.Spares p b (b.complete q id listed) := by
  refine ⟨?_, fun i => ?_, fun _ _ => rfl⟩
  · rw [Bucket.complete_objects, Function.update_of_ne hq]
  · rw [Bucket.complete_pending]
    by_cases hi : i = id
    · subst hi
      rw [Function.update_self, hid]
      exact ⟨nofun, fun h => absurd (Option.some.inj h).symm hq⟩
    · rw [Function.update_of_ne hi]

end Bucket

/-! ## The turns of a path -/

theorem Sent.cacheGrows {rs : List Request} (h : Sent e rs w w') : CacheGrows w w' :=
  fun key _ hl => Or.inl (mc_lookup_congr h.L1 h.now key ▸ hl)

theorem Asks.stages (h : Asks e (Request.PutsNot p) w w') {base : List (Request × Reply)}
    {u : SiaUpload} {st : Slots UInt8 CStr} (hS : Stages base w p u st) : Stages base w' p u st := by
  obtain ⟨t, ht, hputs⟩ := hS.puts
  obtain ⟨t', ht', hnot⟩ := h.trace_eq
  refine ⟨by rw [h.uploads]; exact hS.found, by rw [h.tmp]; exact hS.staged, hS.tag, t ++ t', ?_,
    fun s => ?_⟩
  · rw [ht', ht, List.append_assoc]
  · rw [putsOf_append, putsOf_eq_nil hnot, List.append_nil, hputs]

theorem asks_sendAll {Q : Request → Prop} {rs : List Request} (h : ∀ r ∈ rs, Q r) (w : World σ) :
    Asks e Q w (sendAll e rs w) :=
  ⟨rfl, rfl, rfl, rfl, rfl, rs, h, rfl, rfl⟩

/-- The node begun last is the one found, if it is the only one of its path. -/
theorem nodeNamed_last {uploads : List SiaUpload} {x : SiaUpload}
    (hlast : uploads.getLast? = some x) (hname : x.name = p)
    (hcount : (uploads.map SiaUpload.name).count p ≤ 1) : nodeNamed uploads p = some x := by
  obtain ⟨init, rfl⟩ := List.getLast?_eq_some_iff.mp hlast
  have hnone : nodeNamed init p = none := by
    rw [nodeNamed_eq_none, ← List.count_eq_zero]
    rw [List.map_append, List.count_append, List.map_singleton, hname, List.count_singleton_self]
      at hcount
    omega
  rw [nodeNamed] at hnone ⊢
  rw [List.find?_append, hnone]
  simp [hname]

/-- The names in the list after an operation. -/
def namesAfter (op : Op) (names : List CStr) : List CStr :=
  op.begins.elim names fun q => names.getLast?.toList ++ [q]

/-- A turn of `q` went well: it was answered with a success, it took the upload
of `q` one step on, and it left the others alone. -/
structure Turn (e : Env σ) (view : σ → Bucket) (q : CStr) (c : Bytes) (m : Nat) (op : Op)
    (w w' : World σ) : Prop where
  answer : ∃ code : Int, 0 ≤ code ∧ perform e op w = (.ok (.status code), w')
  named : Named e w'
  names : w'.uploads.map SiaUpload.name = namesAfter op (w.uploads.map SiaUpload.name)
  stage : Stage e view w' q c m
  spares : ∀ p, p ≠ q → (w.uploads.map SiaUpload.name).count p ≤ 1 → Spares e view p w w'

section Turn

variable (hB : Backend e.server view fun _ => False) (hR : e.host.Reliable)
  (hH : e.hugeFiles = true) (hN : Named e w) (hc : e.small ≤ c.length)

include hB hR hH hN hc

/-- The first write of a path. -/
theorem Stage.begin (h : Stage e view w q c 0) :
    ∃ w', Turn e view q c 1 (.write q (piece e.small c 0) 0) w w' := by
  obtain ⟨hfree, hidle, hnode⟩ : Unfinished e view w q ∧
      (∀ id, (view w.server).pending id ≠ some q) ∧ q ∉ w.uploads.map SiaUpload.name := by
    cases h with
    | waiting h hidle hnode => exact ⟨h, hidle, hnode⟩
    | writing h h0 => exact absurd h0 (Nat.lt_irrefl 0)
    | lost h h0 => exact absurd h0 (Nat.lt_irrefl 0)
  have hlast : ∀ last, w.uploads.getLast? = some last → last.name ≠ q := by
    rintro last hl rfl
    exact hnode (List.mem_map_of_mem (List.mem_of_getLast? hl))
  have hlen : (piece e.small c 0).length = e.small :=
    length_piece_of_le (by rw [Nat.zero_add, Nat.one_mul]; exact hc)
  obtain ⟨w', u, fn, hrun, hstart, hfresh, hview, hS⟩ :=
    Session.start hB hR hN hlast hidle (piece e.small c 0)
  have hu : u.name = q := nodeNamed_name hS.stages.found
  have hpos := e.small_pos
  have hnames : w'.uploads.map SiaUpload.name =
      (w.uploads.map SiaUpload.name).getLast?.toList ++ [q] := by
    rw [hstart.uploads, List.map_append, List.getLast?_map, List.map_singleton, hu]
    cases w.uploads.getLast? <;> rfl
  have hunfinished : Unfinished e view w' q :=
    ⟨by rw [hview]; exact hfree.object,
      fun key hkey _ hl => hfree.cached key hkey _
        (mc_lookup_congr hstart.sent.L1 hstart.sent.now key ▸ hl)⟩
  refine ⟨w', ⟨_, Int.natCast_nonneg _, perform_writeHuge hH (fun hz => by omega) hrun⟩,
    hstart.named, hnames,
    .writing hunfinished Nat.one_pos (e.geometry.blocks_pos (by omega)) hS (inOrder_first hc),
    fun p hp hcount => ⟨?_, hstart.sent.cacheGrows, fun _ => ?_, fun hnot => ?_,
      fun base v st hst => ?_⟩⟩
  · rw [hview]
    exact Bucket.spares_create hfresh hp
  · rw [hstart.uploads]
    simp
  · rw [hnames]
    intro hmem
    rcases List.mem_append.mp hmem with hmem | hmem
    · exact hnot (List.mem_of_getLast? (by simpa using hmem))
    · exact hp (List.mem_singleton.mp hmem)
  · -- Only the node begun last stays in the list.
    by_cases hx : (w.uploads.map SiaUpload.name).getLast? = some p
    · rw [List.getLast?_map] at hx
      obtain ⟨x, hx, hname⟩ := Option.map_eq_some_iff.mp hx
      have hfound := hst.found
      rw [nodeNamed_last hx hname hcount] at hfound
      cases hfound
      exact Or.inl (hstart.stages_other hx hst)
    · refine Or.inr ⟨by rw [hstart.uploads]; simp, ?_⟩
      rw [hnames]
      intro hmem
      rcases List.mem_append.mp hmem with hmem | hmem
      · exact hx (by simpa using hmem)
      · exact hp (List.mem_singleton.mp hmem)

omit hN in
/-- A later write of a path that has its node. -/
theorem Stage.write (h : Stage e view w q c m) (hm : 0 < m) (hlt : m < e.geometry.blocks c)
    (hfit : c.length ≤ SIA_MAX_PARTS * e.partBytes) (hnode : q ∈ w.uploads.map SiaUpload.name) :
    ∃ w', Turn e view q c (m + 1) (.write q (piece e.small c m) (m * e.small)) w w' := by
  have hlen : m * e.small < c.length := by
    have := e.geometry.blocks_lt (Nat.lt_of_lt_of_le e.small_pos hc)
    have hle : m * e.small ≤ (e.geometry.blocks c - 1) * e.small :=
      Nat.mul_le_mul_right _ (by omega)
    exact Nat.lt_of_le_of_lt hle this
  cases h with
  | waiting => exact absurd hm (Nat.lt_irrefl 0)
  | lost h h0 hm' hne hnot => exact absurd hnode hnot
  | done => exact absurd hlt (by omega)
  | @writing _ base u st h h0 hm' hS hI =>
    obtain ⟨w', u', st', ans, body, hrun, hrej, hwrote, hid, honly, hS', hI'⟩ :=
      hS.block hB hR hH hI hc hm hlen (block_slot_lt (Nat.lt_of_lt_of_le hlen hfit))
    have hans : ¬ (e.geometry.pushes (m * e.small) (piece e.small c m).length ∧ ans = none) :=
      fun hz => (hrej hz.1).mp hz.2
    rw [writeStatus, if_neg hans] at hrun
    have hbegins : (Op.write q (piece e.small c m) (m * e.small)).begins = none :=
      if_neg (Nat.mul_ne_zero (Nat.ne_of_gt hm) (Nat.ne_of_gt e.small_pos))
    have hpending := (hS.pending _).mpr rfl
    refine ⟨w', ⟨_, Int.natCast_nonneg _, perform_write hrun⟩, hwrote.named, ?_,
      .writing ⟨?_, fun key hkey _ hl => ?_⟩ (Nat.succ_pos m) hlt hS' hI',
      fun p hp _ => ⟨honly.spares hpending hp, hwrote.sent.cacheGrows, fun hne hnil => ?_,
        fun hnot => ?_, fun base v sx hst => Or.inl (hwrote.others p hp base v sx hst)⟩⟩
    · rw [namesAfter, hbegins]
      exact hwrote.names
    · rw [honly.objects]
      exact h.object
    · exact h.cached key hkey _ (mc_lookup_congr hwrote.sent.L1 hwrote.sent.now key ▸ hl)
    · have := hwrote.names
      rw [hnil] at this
      exact hne (List.map_eq_nil_iff.mp this.symm)
    · rw [hwrote.names]
      exact hnot

omit hR hH hN in
/-- The release of a path that has its node. -/
theorem Stage.release (h : Stage e view w q c (e.geometry.blocks c))
    (hshort : ¬ e.small ∣ c.length) (hfit : c.length ≤ SIA_MAX_PARTS * e.partBytes)
    (hnode : q ∈ w.uploads.map SiaUpload.name) :
    ∃ w', Turn e view q c (e.geometry.blocks c + 1) (.release q) w w' := by
  have h0 : 0 < c.length := Nat.lt_of_lt_of_le e.small_pos hc
  have hblocks := e.geometry.blocks_pos h0
  generalize hm : e.geometry.blocks c = m at h hblocks ⊢
  cases h with
  | waiting => exact absurd hblocks (Nat.lt_irrefl 0)
  | lost h h0 hm' hne hnot => exact absurd hnode hnot
  | done => omega
  | @writing _ base u st h _ _ hS hI =>
    subst hm
    obtain ⟨w₁, w', hrel, hasks, rfl, hgrows, -, hview⟩ := hS.holds.release hB h.cacheFine
    have hasks' : ∀ p, Asks e (Request.PutsNot p) w (sendAll e (releaseRequests e q u) w₁) := by
      intro p
      refine IsTrans.trans _ _ _ (hasks.mono fun r hr => ?_) (asks_sendAll (fun r hr => ?_) w₁)
      · cases r <;> trivial
      · rw [releaseRequests] at hr
        split at hr <;> simp at hr
        · rcases hr with rfl | rfl <;> trivial
        · subst hr
          trivial
    have hsame := hasks' q
    have hpending := (hS.pending _).mpr rfl
    refine ⟨_, ⟨0, Int.le_refl 0, perform_release hrel⟩,
      hS.named.congr (fun _ _ => by rw [hsame.uploads]) hsame.names hsame.tmp,
      congrArg (List.map SiaUpload.name) hsame.uploads, .done ?_,
      fun p hp _ => ⟨?_, hgrows, fun hne => ?_, fun hnot => ?_, fun base v sx hst =>
        Or.inl ((hasks' p).stages hst)⟩⟩
    · rw [hview, Bucket.complete_objects, Function.update_self, hS.holds.assemble]
      exact congrArg some ((hI.published_eq_iff (fun _ h => h) h0
        (block_slot_lt (Nat.lt_of_lt_of_le (e.geometry.blocks_lt h0) hfit))).mpr (Or.inl hshort))
    · rw [hview]
      exact Bucket.spares_complete hpending hp _
    · rw [hsame.uploads]
      exact hne
    · rw [hsame.uploads]
      exact hnot

end Turn

/-- The next turn of a path that has lost its node follows a null pointer. -/
theorem Stage.fault (hB : Backend e.server view fun _ => False) (hH : e.hugeFiles = true)
    {op : Op} (h : Stage e view w q c m) (hop : (uploadRun e q c)[m]? = some op)
    (hlater : op.Later q) (hc : e.small ≤ c.length)
    (hnode : q ∉ w.uploads.map SiaUpload.name) : ∃ x w', perform e op w = (.error x, w') := by
  have hblocks := e.geometry.blocks_pos (Nat.lt_of_lt_of_le e.small_pos hc)
  have hturn := uploadRun_turn hop
  have hm : 0 < m := by
    rcases hturn with ⟨-, rfl⟩ | ⟨rfl, -⟩
    · exact Nat.pos_of_ne_zero fun hz => hlater.2 (by rw [hz, Nat.zero_mul])
    · exact hblocks
  cases h with
  | waiting => exact absurd hm (Nat.lt_irrefl 0)
  | writing h h0 hm' hS hI =>
    exact absurd (nodeNamed_eq_none.mpr hnode) (by rw [hS.stages.found]; exact nofun)
  | done => omega
  | lost h h0 hm' hne hnot =>
    have hnone := nodeNamed_eq_none.mpr hnode
    rcases hturn with ⟨-, rfl⟩ | ⟨-, rfl⟩
    · obtain ⟨w', hrun⟩ := write_lost hH (piece e.small c m) hlater.2 hnone hne
      exact ⟨_, w', by rw [perform, Exec.bind_of_error hrun]⟩
    · obtain ⟨w₁, hcheck, hasks, -, -⟩ := hB.releaseCheck_passes h.cacheFine
      have hcomplete : completeUpload e q w₁ = (.error .nullPointer, w₁) := by
        rw [completeUpload_none (by rw [hasks.uploads]; exact hnone),
          if_neg (by rw [hasks.uploads]; exact hne)]
      have hrun : siafs_release e q w = (.error .nullPointer, w₁) := by
        rw [siafs_release, Exec.bind_of_ok hcheck]
        exact hcomplete
      exact ⟨_, w₁, by rw [perform, Exec.bind_of_error hrun]⟩

/-! ## Runs -/

theorem Op.Later.target {op : Op} (h : op.Later p) : op.target = some p := by
  cases op with
  | write path buf offset => exact congrArg some h.1
  | release path => exact congrArg some h
  | _ => exact h.elim

/-- After the operations `before` of an interleaving: which nodes are left, and
how far each path is. -/
structure Interleaved (e : Env σ) (view : σ → Bucket) (ps : List CStr) (c : CStr → Bytes)
    (before : List Op) (w : World σ) : Prop where
  named : Named e w
  kept : ∀ p ∈ ps, p ∈ w.uploads.map SiaUpload.name ↔ p ∈ lastTwo (begun before)
  last : ∀ p ∈ ps, (w.uploads.map SiaUpload.name).getLast? = some p ↔
    (begun before).getLast? = some p
  once : ∀ p ∈ ps, (w.uploads.map SiaUpload.name).count p ≤ 1
  stage : ∀ p ∈ ps, Stage e view w p (c p) (turnsOf p before).length

section Run

variable {ps : List CStr} {c : CStr → Bytes} {before after : List Op} {op : Op}

theorem Interleaved.turn (h : Interleaved e view ps c before w) (hq : q ∈ ps)
    (htarget : op.target = some q)
    (hbegins : op.begins = none ∨ op.begins = some q ∧ q ∉ w.uploads.map SiaUpload.name)
    (ht : Turn e view q (c q) ((turnsOf q before).length + 1) op w w') :
    Interleaved e view ps c (before ++ [op]) w' := by
  have hstage : ∀ p ∈ ps, Stage e view w' p (c p) (turnsOf p (before ++ [op])).length := by
    intro p hp
    rw [turnsOf_concat]
    by_cases hpq : p = q
    · subst hpq
      rw [if_pos htarget, List.length_append]
      exact ht.stage
    · rw [if_neg (by rw [htarget]; exact fun heq => hpq (Option.some.inj heq).symm),
        List.append_nil]
      exact (h.stage p hp).spared (ht.spares p hpq (h.once p hp)) ht.named
  have hnames := ht.names
  rw [namesAfter] at hnames
  rcases hbegins with hb | ⟨hb, hnew⟩
  · rw [hb, Option.elim_none] at hnames
    have hbegun : begun (before ++ [op]) = begun before := by
      rw [begun_concat, hb]
      exact List.append_nil _
    refine ⟨ht.named, ?_, ?_, ?_, hstage⟩
    · rw [hnames, hbegun]
      exact h.kept
    · rw [hnames, hbegun]
      exact h.last
    · rw [hnames]
      exact h.once
  · rw [hb, Option.elim_some] at hnames
    have hbegun : begun (before ++ [op]) = begun before ++ [q] := by
      rw [begun_concat, hb]
      rfl
    refine ⟨ht.named, fun p hp => ?_, fun p hp => ?_, fun p hp => ?_, hstage⟩
    · rw [hnames, hbegun, mem_lastTwo_concat, List.mem_append, List.mem_singleton, or_comm]
      refine or_congr_right ?_
      rw [Option.mem_toList]
      exact h.last p hp
    · rw [hnames, hbegun, List.getLast?_concat, List.getLast?_concat]
    · rw [hnames]
      cases hl : (w.uploads.map SiaUpload.name).getLast? with
      | none => simp [List.count_singleton]; split <;> omega
      | some x =>
        have hx : x ≠ q := by
          rintro rfl
          exact hnew (List.mem_of_getLast? hl)
        simp only [Option.toList_some, List.singleton_append, List.count_cons, List.count_nil]
        by_cases hxp : x = p
        · subst hxp
          simp [Ne.symm hx]
        · simp [hxp]
          split <;> omega

variable (hB : Backend e.server view fun _ => False) (hR : e.host.Reliable)
  (hH : e.hugeFiles = true)
  (hsize : ∀ p ∈ ps, e.small ≤ (c p).length ∧ ¬ e.small ∣ (c p).length)
  (hfit : ∀ p ∈ ps, (c p).length ≤ SIA_MAX_PARTS * e.partBytes)

include hB hR hH hsize hfit

/-- An operation of an interleaving goes well if it begins an upload or finds the
node of its path, and follows a null pointer otherwise. -/
theorem Interleaved.step (h : Interleaved e view ps c before w)
    (hI : Interleaves e ps c (before ++ op :: after)) :
    (∃ w' code, 0 ≤ code ∧ perform e op w = (.ok (.status code), w') ∧
        Interleaved e view ps c (before ++ [op]) w' ∧
        ∀ p, op.Later p → p ∈ lastTwo (begun before)) ∨
      (∃ x w', perform e op w = (.error x, w')) ∧
        ∃ p, op.Later p ∧ p ∉ lastTwo (begun before) := by
  obtain ⟨q, hq, htarget⟩ := hI.targets op (List.mem_append_right _ List.mem_cons_self)
  obtain ⟨hc, hshort⟩ := hsize q hq
  have hop := hI.turn hq htarget
  have hstage := h.stage q hq
  have hlater : ∀ p, op.Later p → p = q := fun p hp =>
    Option.some.inj (hp.target.symm.trans htarget)
  by_cases hwaits : op.begins = some q
  · -- The path begins.
    obtain ⟨m0, rfl⟩ : (turnsOf q before).length = 0 ∧ op = .write q (piece e.small (c q) 0) 0 := by
      rcases uploadRun_turn hop with ⟨-, rfl⟩ | ⟨-, rfl⟩
      · by_cases hz : (turnsOf q before).length = 0
        · rw [hz, Nat.zero_mul]
          exact ⟨rfl, rfl⟩
        · rw [Op.begins, if_neg (Nat.mul_ne_zero hz (Nat.ne_of_gt e.small_pos))] at hwaits
          cases hwaits
      · cases hwaits
    rw [m0] at hstage
    have hnode : q ∉ w.uploads.map SiaUpload.name := by
      cases hstage with
      | waiting h hidle hnode => exact hnode
      | writing h h0 => exact absurd h0 (Nat.lt_irrefl 0)
      | lost h h0 => exact absurd h0 (Nat.lt_irrefl 0)
    obtain ⟨w', ht⟩ := hstage.begin hB hR hH h.named hc
    obtain ⟨code, hcode, hrun⟩ := ht.answer
    refine Or.inl ⟨w', code, hcode, hrun, h.turn hq htarget (Or.inr ⟨hwaits, hnode⟩) ?_,
      fun p hp => absurd rfl hp.2⟩
    rw [m0]
    exact ht
  · have hLater : op.Later q ∧ op.begins = none := by
      rcases uploadRun_turn hop with ⟨-, rfl⟩ | ⟨-, rfl⟩
      · have hne : (turnsOf q before).length * e.small ≠ 0 := fun hz => hwaits (if_pos hz)
        exact ⟨⟨rfl, hne⟩, if_neg hne⟩
      · exact ⟨rfl, rfl⟩
    by_cases hkept : q ∈ lastTwo (begun before)
    · have hnode := (h.kept q hq).mpr hkept
      obtain ⟨w', ht⟩ : ∃ w', Turn e view q (c q) ((turnsOf q before).length + 1) op w w' := by
        rcases uploadRun_turn hop with ⟨hm, rfl⟩ | ⟨hm, rfl⟩
        · exact hstage.write hB hR hH hc
            (Nat.pos_of_ne_zero fun hz => hLater.1.2 (by rw [hz, Nat.zero_mul])) hm (hfit q hq)
            hnode
        · rw [hm] at hstage ⊢
          exact hstage.release hB hc hshort (hfit q hq) hnode
      obtain ⟨code, hcode, hrun⟩ := ht.answer
      exact Or.inl ⟨w', code, hcode, hrun, h.turn hq htarget (Or.inl hLater.2) ht,
        fun p hp => hlater p hp ▸ hkept⟩
    · have hnode : q ∉ w.uploads.map SiaUpload.name := fun hmem => hkept ((h.kept q hq).mp hmem)
      exact Or.inr ⟨hstage.fault hB hH hop hLater.1 hc hnode, q, hLater.1, hkept⟩

/-- A run of an interleaving goes well to its end, or to the first operation on a
path that has lost its node. -/
theorem Interleaved.run (h : Interleaved e view ps c before w)
    (hI : Interleaves e ps c (before ++ after)) :
    (∃ w' answers, Exec.runAll (perform e) after w = (.ok answers, w') ∧
        (∀ a ∈ answers, ∃ code : Int, 0 ≤ code ∧ a = .status code) ∧
        Interleaved e view ps c (before ++ after) w' ∧ Kept (begun before) after) ∨
      (∃ x w', Exec.runAll (perform e) after w = (.error x, w')) ∧ ¬ Kept (begun before) after := by
  induction after generalizing before w with
  | nil => exact Or.inl ⟨w, [], rfl, nofun, by rwa [List.append_nil], trivial⟩
  | cons op after ih =>
    rcases h.step hB hR hH hsize hfit hI with ⟨w₁, code, hcode, hrun, h₁, hkept⟩ | ⟨⟨x, w', hrun⟩, p, hp, hlost⟩
    · have hsplit : before ++ op :: after = (before ++ [op]) ++ after := by simp
      rw [hsplit] at hI ⊢
      rcases ih h₁ hI with ⟨w', answers, hrest, hgood, hend, hK⟩ | ⟨⟨x, w', hrest⟩, hK⟩
      · refine Or.inl ⟨w', _, Exec.runAll_cons_ok hrun hrest, fun a ha => ?_, hend, hkept, ?_⟩
        · rcases List.mem_cons.mp ha with rfl | ha
          · exact ⟨code, hcode, rfl⟩
          · exact hgood a ha
        · rw [← begun_concat]
          exact hK
      · refine Or.inr ⟨⟨x, w', ?_⟩, fun hall => hK ?_⟩
        · rw [Exec.runAll, Exec.bind_of_ok hrun, Exec.bind_of_error hrest]
        · rw [begun_concat]
          exact hall.2
    · exact Or.inr ⟨⟨x, w', Exec.runAll_cons_error hrun⟩, fun hall => hlost (hall.1 p hp)⟩

end Run

/-! ## Isolation -/

/-- Nothing is known of the path yet, neither to the server nor to the mount. -/
structure Fresh (e : Env σ) (view : σ → Bucket) (w : World σ) (p : CStr) : Prop
    extends Unfinished e view w p where
  idle : ∀ id, (view w.server).pending id ≠ some p
  node : p ∉ w.uploads.map SiaUpload.name

/-- The interleaving goes through, every operation is answered with a success, and
every path ends up with the object that its own run leaves when it is alone. -/
def Isolated (e : Env σ) (view : σ → Bucket) (ps : List CStr) (c : CStr → Bytes) (ops : List Op)
    (w : World σ) : Prop :=
  ∃ w' answers, Exec.runAll (perform e) ops w = (.ok answers, w') ∧
    (∀ a ∈ answers, ∃ code : Int, 0 ≤ code ∧ a = .status code) ∧
    ∀ p ∈ ps, ∃ w₁ answers₁,
      Exec.runAll (perform e) (uploadRun e p (c p)) w = (.ok answers₁, w₁) ∧
      (view w'.server).objects p = (view w₁.server).objects p

section Isolated

variable {ps : List CStr} {c : CStr → Bytes} {ops : List Op}

theorem interleaved_start (hN : Named e w) (hfresh : ∀ p ∈ ps, Fresh e view w p) :
    Interleaved e view ps c [] w where
  named := hN
  kept p hp := by simpa [begun, lastTwo] using (hfresh p hp).node
  last p hp := by
    have hne : (w.uploads.map SiaUpload.name).getLast? ≠ some p := fun hl =>
      (hfresh p hp).node (List.mem_of_getLast? hl)
    simpa [begun] using hne
  once p hp := by rw [List.count_eq_zero.mpr (hfresh p hp).node]; exact Nat.zero_le 1
  stage p hp := .waiting (hfresh p hp).toUnfinished (hfresh p hp).idle (hfresh p hp).node

/-- What a fresh path is stored as when it is uploaded alone. -/
theorem Fresh.alone (hB : Backend e.server view fun _ => False) (hR : e.host.Reliable)
    (hH : e.hugeFiles = true) (hN : Named e w) (h : Fresh e view w p) {c : Bytes}
    (hc : e.small ≤ c.length) (hshort : ¬ e.small ∣ c.length)
    (hfit : c.length ≤ SIA_MAX_PARTS * e.partBytes) :
    ∃ w' answers, Exec.runAll (perform e) (uploadRun e p c) w = (.ok answers, w') ∧
      (view w'.server).objects p = some c := by
  have hlast : ∀ last, w.uploads.getLast? = some last → last.name ≠ p := by
    rintro last hl rfl
    exact h.node (List.mem_map_of_mem (List.mem_of_getLast? hl))
  obtain ⟨w', answers, stored, hrun, hobject, hiff⟩ :=
    upload_stores hB hR hH ⟨⟨hlast, h.idle, h.cacheFine⟩, hN⟩ hc hfit
  exact ⟨w', answers, hrun, hobject.trans (congrArg some (hiff.mpr (Or.inl hshort)))⟩

theorem isolated_iff_kept (hB : Backend e.server view fun _ => False) (hR : e.host.Reliable)
    (hH : e.hugeFiles = true) (hN : Named e w) (hfresh : ∀ p ∈ ps, Fresh e view w p)
    (hsize : ∀ p ∈ ps, e.small ≤ (c p).length ∧ ¬ e.small ∣ (c p).length)
    (hI : Interleaves e ps c ops) :
    Isolated e view ps c ops w ↔
      (∀ p ∈ ps, (c p).length ≤ SIA_MAX_PARTS * e.partBytes) ∧ Kept [] ops := by
  have hstart := interleaved_start (c := c) hN hfresh
  constructor
  · rintro ⟨w', answers, hrun, -, halone⟩
    have hfit : ∀ p ∈ ps, (c p).length ≤ SIA_MAX_PARTS * e.partBytes := by
      intro p hp
      obtain ⟨w₁, answers₁, hrun₁, -⟩ := halone p hp
      exact uploadRun_fits hB hR hH hN (hfresh p hp).idle (hsize p hp).1 hrun₁
    refine ⟨hfit, ?_⟩
    rcases hstart.run hB hR hH hsize hfit hI with ⟨-, -, -, -, -, hkept⟩ | ⟨⟨x, w₁, herr⟩, -⟩
    · exact hkept
    · rw [herr] at hrun
      cases hrun
  · rintro ⟨hfit, hkept⟩
    rcases hstart.run hB hR hH hsize hfit hI with ⟨w', answers, hrun, hgood, hend, -⟩ | ⟨-, hnot⟩
    · refine ⟨w', answers, hrun, hgood, fun p hp => ?_⟩
      obtain ⟨hc, hshort⟩ := hsize p hp
      obtain ⟨w₁, answers₁, hrun₁, hobject⟩ :=
        (hfresh p hp).alone hB hR hH hN hc hshort (hfit p hp)
      refine ⟨w₁, answers₁, hrun₁, ?_⟩
      have hstage := hend.stage p hp
      rw [List.nil_append, hI.runs p hp] at hstage
      exact hstage.finished.trans hobject.symm
    · exact absurd hkept hnot

/-- In any state of a mount, the runs that upload fresh paths do not disturb each
other exactly when every file fits in its parts and, at every write past the
start of a path and every release, the path is one of the two begun last. -/
theorem isolated_iff (hB : Backend e.server view fun _ => False) (hR : e.host.Reliable)
    (hH : e.hugeFiles = true) {w₀ : World σ} (hempty : w₀.uploads = []) (hN : Named e w₀)
    (earlier : List Op) (hw : w = (Exec.runAll (perform e) earlier w₀).2)
    (hfresh : ∀ p ∈ ps, Fresh e view w p)
    (hsize : ∀ p ∈ ps, e.small ≤ (c p).length ∧ ¬ e.small ∣ (c p).length)
    (hI : Interleaves e ps c ops) :
    Isolated e view ps c ops w ↔
      (∀ p ∈ ps, (c p).length ≤ SIA_MAX_PARTS * e.partBytes) ∧ Kept [] ops :=
  isolated_iff_kept hB hR hH (hw ▸ (sound_run hB hR hempty hN earlier).named) hfresh hsize hI

/-- The run that uploads a block and a byte. -/
theorem uploadRun_blockAnd (p : CStr) (b : UInt8) :
    uploadRun hugeMount p (blockAnd b) =
      [.write p (piece 131072 (blockAnd b) 0) 0, .write p (piece 131072 (blockAnd b) 1) 131072,
        .release p] := by
  have hblocks : hugeMount.geometry.blocks (blockAnd b) = 2 := by
    rw [Geometry.blocks, blockAnd, List.length_replicate]
    rfl
  rw [uploadRun, hblocks]
  rfl

/-- The files begin one after another, and go on once all have begun. -/
def allAtOnce (ps : List CStr) : List Op :=
  ps.map (fun p => .write p (piece 131072 (blockAnd 0) 0) 0) ++
    ps.flatMap fun p => [.write p (piece 131072 (blockAnd 0) 1) 131072, .release p]

theorem allAtOnce_targets {ps : List CStr} {op : Op} (h : op ∈ allAtOnce ps) :
    ∃ p ∈ ps, op.target = some p := by
  rcases List.mem_append.mp h with h | h
  · obtain ⟨p, hp, rfl⟩ := List.mem_map.mp h
    exact ⟨p, hp, rfl⟩
  · obtain ⟨p, hp, h⟩ := List.mem_flatMap.mp h
    refine ⟨p, hp, ?_⟩
    rcases List.mem_cons.mp h with rfl | h
    · rfl
    · rw [List.mem_singleton.mp h]
      rfl

theorem blockAnd_runs :
    hugeMount.small ≤ (blockAnd 0).length ∧ ¬ hugeMount.small ∣ (blockAnd 0).length := by
  rw [blockAnd, List.length_replicate]
  decide

theorem mounted_fresh (p : CStr) : Fresh hugeMount Store.view (mounted Store.blank none) p where
  object := rfl
  cached _ _ _ hl := by cases hl
  idle := (mounted_ready hugeMount p).idle
  node := nofun

/-- Two files at once. -/
theorem isolated_two_files :
    Isolated hugeMount Store.view [lit "/a", lit "/b"] (fun _ => blockAnd 0)
        (allAtOnce [lit "/a", lit "/b"]) (mounted Store.blank none) ↔
      (∀ p ∈ [lit "/a", lit "/b"],
          (blockAnd 0).length ≤ SIA_MAX_PARTS * hugeMount.partBytes) ∧
        Kept [] (allAtOnce [lit "/a", lit "/b"]) := by
  refine isolated_iff renterd_accepts plainHost_reliable rfl rfl
    (mounted_named hugeMount Store.blank none) [] rfl (fun p _ => mounted_fresh p)
    (fun _ _ => blockAnd_runs) ⟨fun _ => allAtOnce_targets, fun p hp => ?_⟩
  rw [uploadRun_blockAnd]
  rcases List.mem_cons.mp hp with rfl | hp
  · rfl
  · rw [List.mem_singleton.mp hp]
    rfl

/-- The first of three files begun has lost its node when it is written on. -/
theorem third_file_drops_first :
    Interleaves hugeMount [lit "/a", lit "/b", lit "/c"] (fun _ => blockAnd 0)
        (allAtOnce [lit "/a", lit "/b", lit "/c"]) ∧
      ¬ Isolated hugeMount Store.view [lit "/a", lit "/b", lit "/c"] (fun _ => blockAnd 0)
        (allAtOnce [lit "/a", lit "/b", lit "/c"]) (mounted Store.blank none) := by
  have hI : Interleaves hugeMount [lit "/a", lit "/b", lit "/c"] (fun _ => blockAnd 0)
      (allAtOnce [lit "/a", lit "/b", lit "/c"]) := by
    refine ⟨fun _ => allAtOnce_targets, fun p hp => ?_⟩
    rw [uploadRun_blockAnd]
    rcases List.mem_cons.mp hp with rfl | hp
    · rfl
    rcases List.mem_cons.mp hp with rfl | hp
    · rfl
    · rw [List.mem_singleton.mp hp]
      rfl
  refine ⟨hI, fun h => ?_⟩
  obtain ⟨-, hkept⟩ := (isolated_iff_kept renterd_accepts plainHost_reliable rfl
    (mounted_named hugeMount Store.blank none) (fun p _ => mounted_fresh p)
    (fun _ _ => blockAnd_runs) hI).mp h
  have hlost := hkept.2.2.2.1 (lit "/a") ⟨rfl, by decide⟩
  revert hlost
  decide

end Isolated

end SiaFS
