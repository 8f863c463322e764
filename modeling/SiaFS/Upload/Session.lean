/-
Uploading in order against the documented server.

`Session` adds to `Stages` what the server holds: one pending upload for the
path, under the ID of the node, with the accepted parts stored.  A write keeps
the session, and so does a run of blocks in order, which therefore ends in a
state that `InOrder` describes; a release then finishes the upload with the
bodies of the accepted parts.
-/
import SiaFS.Backend.Renterd
import SiaFS.Upload.Release

namespace SiaFS

open Staging Pieces

variable {σ : Type} {e : Env σ} {view : σ → Bucket} {rejects : Nat → Prop}

/-- The server has one pending upload for the path, that of the node found for
it, with the parts `part`, whose tags the node has recorded. -/
structure Holds (view : σ → Bucket) (w : World σ) (path : CStr) (u : SiaUpload)
    (part : Nat → Option (Bytes × CStr)) : Prop where
  found : nodeNamed w.uploads path = some u
  tag : ∀ s : Fin SIA_MAX_PARTS, (u.part s).etag = (part s).map Prod.snd
  pending : ∀ id, (view w.server).pending id = some path ↔ id = u.uploadID
  stored : ∀ s, (view w.server).parts u.uploadID (s + 1) = part s

/-- An upload in progress, as the program and the server have it. -/
structure Session (e : Env σ) (view : σ → Bucket) (base : List (Request × Reply))
    (w : World σ) (path : CStr) (u : SiaUpload) (st : Slots UInt8 CStr) : Prop where
  stages : Stages base w path u st
  named : Named e w
  pending : ∀ id, (view w.server).pending id = some path ↔ id = u.uploadID
  stored : ∀ s, (view w.server).parts u.uploadID (s + 1) = (st s).part

theorem Session.holds {base : List (Request × Reply)} {w : World σ} {path : CStr}
    {u : SiaUpload} {st : Slots UInt8 CStr} (h : Session e view base w path u st) :
    Holds view w path u fun s => (st s).part :=
  ⟨h.stages.found, h.stages.tag, h.pending, h.stored⟩

/-- Only the parts of the upload `id` changed. -/
structure PartsOnly (id : CStr) (b b' : Bucket) : Prop where
  objects : b'.objects = b.objects
  pending : b'.pending = b.pending
  issued : b'.issued = b.issued
  parts : ∀ i, i ≠ id → b'.parts i = b.parts i

theorem PartsOnly.refl (id : CStr) (b : Bucket) : PartsOnly id b b :=
  ⟨rfl, rfl, rfl, fun _ _ => rfl⟩

theorem partsOnly_store (b : Bucket) (id : CStr) (n : Nat) (part : Bytes × CStr) :
    PartsOnly id b (b.store id n part) :=
  ⟨rfl, rfl, rfl, fun _ hi => Function.update_of_ne hi _ _⟩

/-! ## One write -/

variable {w : World σ} {path : CStr} {u : SiaUpload} {offset : Nat}
  {base : List (Request × Reply)} {st : Slots UInt8 CStr} {b buf : Bytes}

/-- What the server answers to the push of a write, and what it then holds. -/
theorem Backend.write_answer (hB : Backend e.server view rejects) {id : CStr} {s : σ}
    (hid : ∀ i, (view s).pending i = some path ↔ i = id) (offset size : Nat) (body : Bytes) :
    ∃ ans, writeAnswer e path offset size body s = .ok ans ∧
      (e.geometry.pushes offset size →
        (ans = none ↔ rejects (offset / e.partBytes + 1))) ∧
      view (askAll e (writeRequests e path offset size body s) s).1 =
        if e.geometry.pushes offset size then
          ans.elim (view s) fun tag => (view s).store id (offset / e.partBytes + 1) (body, tag)
        else view s := by
  obtain ⟨hres, -, hview⟩ := hB.resolvedID_pending hid
  by_cases hp : e.geometry.pushes offset size
  · simp only [writeAnswer, writeRequests, if_pos hp, hres, askAll_append]
    by_cases hr : rejects (offset / e.partBytes + 1)
    · obtain ⟨hans, hv⟩ := hB.putAnswer_rejected
        (s := (askAll e (uploadIDRequests e path s) s).1) hr path id body
      exact ⟨none, hans, fun _ => ⟨fun _ => hr, fun _ => rfl⟩, hv.trans hview⟩
    · have hpend : (view (askAll e (uploadIDRequests e path s) s).1).pending id = some path := by
        rw [hview]
        exact (hid id).mpr rfl
      obtain ⟨tag, hans, hv⟩ := hB.putAnswer_accepted hpend hr body
      refine ⟨some tag, hans, fun _ => ⟨fun h => absurd h (Option.some_ne_none tag),
        fun h => absurd h hr⟩, ?_⟩
      rw [hv, hview]
      rfl
  · simp only [writeAnswer, writeRequests, if_neg hp, List.append_nil]
    exact ⟨none, rfl, fun h => absurd h hp, hview⟩

/-- A write past the start of the file keeps the session. -/
theorem Session.write (hB : Backend e.server view rejects) (hR : e.host.Reliable)
    (h : Session e view base w path u st) (h0 : offset ≠ 0)
    (hs : offset / e.partBytes < SIA_MAX_PARTS) (hb : e.geometry.found st offset = some b)
    (buf : Bytes) :
    ∃ w' u' ans, writeHuge e path buf offset w =
        (.ok (writeStatus e offset buf.length ans), w') ∧
      (e.geometry.pushes offset buf.length →
        (ans = none ↔ rejects (offset / e.partBytes + 1))) ∧
      Wrote e path (writeRequests e path offset buf.length (b ++ buf) w.server) w w' ∧
      u'.uploadID = u.uploadID ∧
      PartsOnly u.uploadID (view w.server) (view w'.server) ∧
      Session e view base w' path u' (Function.update st (offset / e.partBytes)
        (e.geometry.settle (st (offset / e.partBytes)) offset buf.length (b ++ buf) ans)) := by
  obtain ⟨ans, hans, hrej, hview⟩ :=
    hB.write_answer h.pending offset buf.length (b ++ buf)
  obtain ⟨w', u', hrun, hwrote, hid, hst⟩ := writeHuge_step hR h.named h.stages h0 hs hb hans
  rw [← hwrote.sent.server] at hview
  have honly : PartsOnly u.uploadID (view w.server) (view w'.server) := by
    rw [hview]
    split
    · cases ans with
      | none => exact PartsOnly.refl _ _
      | some tag => exact partsOnly_store _ _ _ _
    · exact PartsOnly.refl _ _
  refine ⟨w', u', ans, hrun, hrej, hwrote, hid, honly, hst, hwrote.named, fun id => ?_,
    fun s => ?_⟩
  · rw [honly.pending, hid]
    exact h.pending id
  · rw [hid, hview]
    by_cases hs : s = offset / e.partBytes
    · subst hs
      rw [Function.update_self]
      by_cases hp : e.geometry.pushes offset buf.length
      · rw [if_pos hp, e.geometry.settle_of_pushes hp]
        cases ans with
        | none => exact (h.stored _).trans (Slot.push_part_none _ _ _).symm
        | some tag =>
          rw [Slot.push_part_some]
          simp [Bucket.store]
      · rw [if_neg hp, e.geometry.settle_of_not_pushes hp]
        exact h.stored _
    · rw [Function.update_of_ne hs, ← h.stored s]
      split
      · cases ans with
        | none => rfl
        | some tag => simp [Bucket.store, hs]
      · rfl

/-! ## The first write -/

/-- The slots after the first write of a file. -/
def firstSlots (buf : Bytes) : Slots UInt8 CStr :=
  Function.update (fun _ => Slot.empty) 0 (Slot.empty.hold buf)

theorem firstSlots_part (buf : Bytes) (s : Nat) : (firstSlots buf s).part = none := by
  by_cases hs : s = 0
  · subst hs
    rfl
  · rw [firstSlots, Function.update_of_ne hs]
    rfl

/-- A path that a multipart upload can begin for: nothing is pending for it, the
node that stays in the list is not named so, and what is cached about it does
not stop its release.  A fresh path has no live entry in the L1 cache, and meets the last
by `cacheFine_of_unread`. -/
structure Free (e : Env σ) (view : σ → Bucket) (w : World σ) (path : CStr) : Prop where
  last : ∀ last, w.uploads.getLast? = some last → last.name ≠ path
  idle : ∀ id, (view w.server).pending id ≠ some path
  cache : CacheFine e (view w.server) w path

theorem cacheFine_of_unread {e : Env σ} {b : Bucket} {w : World σ} {path : CStr}
    (hlist : mc_lookup w (listKey e path) = none)
    (hobject : mc_lookup w (objectsKey e path) = none) : CacheFine e b w path where
  scan body h := by
    rw [hlist] at h
    cases h
  size _ hfile := by
    refine ⟨fun body h => ?_, fun _ => Bucket.sizeless_of_not_isFile (hfile hlist)⟩
    rw [hobject] at h
    cases h

theorem Free.over {e : Env σ} {server : σ → Request → Reply × σ} {view : σ → Bucket}
    {w : World σ} {path : CStr} (h : Free e view w path) : Free (e.over server) view w path where
  last := h.last
  idle := h.idle
  cache := ⟨h.cache.scan, h.cache.size⟩

/-- The same in the build with `SIA_HUGE_FILES`, with the staging files in
order. -/
structure Ready (e : Env σ) (view : σ → Bucket) (w : World σ) (path : CStr) : Prop
    extends Free e view w path where
  named : Named e w

/-- The first write begins a session under a new ID. -/
theorem Session.start (hB : Backend e.server view rejects) (hR : e.host.Reliable) (hN : Named e w)
    (hlast : ∀ last, w.uploads.getLast? = some last → last.name ≠ path)
    (hidle : ∀ id, (view w.server).pending id ≠ some path) (buf : Bytes) :
    ∃ w' u fn, writeHuge e path buf 0 w = (.ok buf.length, w') ∧
      Started e path buf w w' u fn ∧ ¬ (view w.server).issued u.uploadID ∧
      view w'.server = (view w.server).create path u.uploadID ∧
      Session e view w.trace w' path u (firstSlots buf) := by
  obtain ⟨id, hid, hfresh, hview⟩ := hB.resolvedID_new hidle
  obtain ⟨w', fn, hrun, hstart⟩ := writeHuge_started hR hN hid buf
  rw [← hstart.sent.server] at hview
  refine ⟨w', _, fn, hrun, hstart, hfresh, hview, hstart.stages_self hlast, hstart.named,
    fun i => ?_, fun s => ?_⟩
  · rw [hview]
    by_cases hi : i = id
    · subst hi
      simp [Bucket.create, newUpload]
    · simp [Bucket.create, newUpload, hi, hidle i]
  · rw [hview, firstSlots_part]
    simp [Bucket.create, newUpload]

/-! ## Runs of writes -/

theorem siafs_write_huge (hH : e.hugeFiles = true)
    (h : ¬ (offset = 0 ∧ buf.length < e.small)) :
    siafs_write e path buf offset = writeHuge e path buf offset := by
  rw [siafs_write, if_neg h, if_pos hH]

theorem perform_write {w' : World σ} {r : Int}
    (h : siafs_write e path buf offset w = (.ok r, w')) :
    perform e (.write path buf offset) w = (.ok (.status r), w') := by
  rw [perform, Exec.bind_of_ok h]
  rfl

theorem perform_writeHuge (hH : e.hugeFiles = true) (h : ¬ (offset = 0 ∧ buf.length < e.small))
    {w' : World σ} {r : Int} (hrun : writeHuge e path buf offset w = (.ok r, w')) :
    perform e (.write path buf offset) w = (.ok (.status r), w') :=
  perform_write ((congrFun (siafs_write_huge hH h) w).trans hrun)

theorem perform_release {w' : World σ} {r : Int} (h : siafs_release e path w = (.ok r, w')) :
    perform e (.release path) w = (.ok (.status r), w') := by
  rw [perform, Exec.bind_of_ok h]
  rfl

/-- The writes of the first `m` blocks of `c`, in order. -/
def blockWrites (e : Env σ) (path : CStr) (c : Bytes) (m : Nat) : List Op :=
  (List.range m).map fun i => .write path (piece e.small c i) (i * e.small)

/-- All of `c` written in order, then a release. -/
def uploadRun (e : Env σ) (path : CStr) (c : Bytes) : List Op :=
  blockWrites e path c (e.geometry.blocks c) ++ [.release path]

theorem blockWrites_succ (e : Env σ) (path : CStr) (c : Bytes) (m : Nat) :
    blockWrites e path c (m + 1) =
      blockWrites e path c m ++ [.write path (piece e.small c m) (m * e.small)] := by
  simp [blockWrites, List.range_succ]

/-- After the first `m` blocks of `c`, written from the state `w` on. -/
structure Uploaded (e : Env σ) (view : σ → Bucket) (rejects : Nat → Prop) (w : World σ)
    (path : CStr) (c : Bytes) (m : Nat) (w' : World σ) (u : SiaUpload)
    (st : Slots UInt8 CStr) : Prop where
  session : Session e view w.trace w' path u st
  inOrder : InOrder e.geometry c (fun s => rejects (s + 1)) m st
  fresh : ¬ (view w.server).issued u.uploadID
  objects : (view w'.server).objects = (view w.server).objects
  L1 : w'.L1 = w.L1
  now : w'.now = w.now
  completions : completions w'.trace = completions w.trace

variable {c : Bytes} {m : Nat}

theorem inOrder_first {rej : Nat → Prop} (hc : e.small ≤ c.length) :
    InOrder e.geometry c rej 1 (firstSlots (piece e.small c 0)) := by
  have hblock : e.geometry.block = e.small := rfl
  have hpos := e.small_pos
  have hslots : 0 < e.geometry.slots := by
    show 0 < SIA_MAX_PARTS
    decide
  obtain ⟨st', hst', hin⟩ :=
    (inOrder_zero : InOrder e.geometry c rej 0 (fun _ => (Slot.empty : Slot UInt8 CStr))).step
      (by omega) hc (by rw [Nat.zero_div]; exact hslots) none fun hp =>
        absurd hp (by rw [Nat.zero_mul]; exact e.geometry.not_pushes_zero _)
  rw [Nat.zero_mul, e.geometry.write_zero hslots] at hst'
  cases hst'
  exact hin

theorem Uploaded.first (hB : Backend e.server view rejects) (hR : e.host.Reliable)
    (hH : e.hugeFiles = true) (hN : Named e w)
    (hlast : ∀ last, w.uploads.getLast? = some last → last.name ≠ path)
    (hidle : ∀ id, (view w.server).pending id ≠ some path) (hc : e.small ≤ c.length) :
    ∃ w' u st, siafs_write e path (piece e.small c 0) (0 * e.small) w =
        (.ok (piece e.small c 0).length, w') ∧
      Uploaded e view rejects w path c 1 w' u st := by
  have hlen : (piece e.small c 0).length = e.small :=
    length_piece_of_le (by rw [Nat.zero_add, Nat.one_mul]; exact hc)
  obtain ⟨w', u, fn, hrun, hstart, hfresh, hview, hS⟩ :=
    Session.start hB hR hN hlast hidle (piece e.small c 0)
  refine ⟨w', u, _, ?_, hS, inOrder_first hc, hfresh, by rw [hview]; rfl, hstart.sent.L1,
    hstart.sent.now, ?_⟩
  · rw [Nat.zero_mul, siafs_write_huge hH (by omega), hrun]
  · rw [hstart.sent.completions_eq, uploadIDRequests_completion, List.append_nil]

/-- One more block of a session in order. -/
theorem Session.block (hB : Backend e.server view rejects) (hR : e.host.Reliable)
    (hH : e.hugeFiles = true) (hS : Session e view base w path u st)
    (hI : InOrder e.geometry c (fun s => rejects (s + 1)) m st) (hc : e.small ≤ c.length)
    (hm : 0 < m) (hlt : m * e.small < c.length)
    (hslots : m / SAIFS_WRITES_PER_MULTIPART < SIA_MAX_PARTS) :
    ∃ w' u' st' ans body, siafs_write e path (piece e.small c m) (m * e.small) w =
        (.ok (writeStatus e (m * e.small) (piece e.small c m).length ans), w') ∧
      (e.geometry.pushes (m * e.small) (piece e.small c m).length →
        (ans = none ↔ rejects (m / SAIFS_WRITES_PER_MULTIPART + 1))) ∧
      Wrote e path (writeRequests e path (m * e.small) (piece e.small c m).length body w.server)
        w w' ∧
      u'.uploadID = u.uploadID ∧
      PartsOnly u.uploadID (view w.server) (view w'.server) ∧
      Session e view base w' path u' st' ∧
      InOrder e.geometry c (fun s => rejects (s + 1)) (m + 1) st' := by
  have hne : m * e.small ≠ 0 := Nat.mul_ne_zero (Nat.ne_of_gt hm) (Nat.ne_of_gt e.small_pos)
  have hdiv : m * e.small / e.partBytes = m / SAIFS_WRITES_PER_MULTIPART :=
    e.geometry.block_div m
  obtain ⟨w', u', ans, hrun, hrej, hwrote, hid, honly, hS'⟩ :=
    hS.write hB hR hne (by rwa [hdiv]) (hI.found_eq hlt) (piece e.small c m)
  rw [hdiv] at hrej
  obtain ⟨st', hst', hin⟩ := hI.step hlt hc hslots ans hrej
  have hs : m * e.small / e.geometry.partSize < e.geometry.slots := by
    show m * e.small / e.partBytes < SIA_MAX_PARTS
    rwa [hdiv]
  rw [show m * e.geometry.block = m * e.small from rfl,
    e.geometry.write_eq_some hs (hI.found_eq hlt)] at hst'
  cases hst'
  exact ⟨w', u', _, ans, _, (congrFun (siafs_write_huge hH fun hz => hne hz.1) w).trans hrun,
    hrej, hwrote, hid, honly, hS', hin⟩

theorem Uploaded.next (hB : Backend e.server view rejects) (hR : e.host.Reliable)
    (hH : e.hugeFiles = true) (hc : e.small ≤ c.length) (hm : 0 < m)
    (hlt : m * e.small < c.length) (hslots : m / SAIFS_WRITES_PER_MULTIPART < SIA_MAX_PARTS)
    {w' : World σ} (h : Uploaded e view rejects w path c m w' u st) :
    ∃ w'' u' st' r, siafs_write e path (piece e.small c m) (m * e.small) w' = (.ok r, w'') ∧
      Uploaded e view rejects w path c (m + 1) w'' u' st' := by
  obtain ⟨w'', u', st', ans, body, hrun, -, hwrote, hid, honly, hS, hin⟩ :=
    h.session.block hB hR hH h.inOrder hc hm hlt hslots
  refine ⟨w'', u', st', _, hrun, hS, hin, by rw [hid]; exact h.fresh,
    honly.objects.trans h.objects, hwrote.sent.L1.trans h.L1, hwrote.sent.now.trans h.now, ?_⟩
  rw [hwrote.sent.completions_eq, writeRequests_completion, List.append_nil, h.completions]

/-- The run of the first `m` blocks. -/
theorem blockWrites_run (hB : Backend e.server view rejects) (hR : e.host.Reliable)
    (hH : e.hugeFiles = true) (hN : Named e w)
    (hlast : ∀ last, w.uploads.getLast? = some last → last.name ≠ path)
    (hidle : ∀ id, (view w.server).pending id ≠ some path) (hc : e.small ≤ c.length) (hm : 0 < m)
    (hlt : (m - 1) * e.small < c.length)
    (hslots : (m - 1) / SAIFS_WRITES_PER_MULTIPART < SIA_MAX_PARTS) :
    ∃ w' answers u st, Exec.runAll (perform e) (blockWrites e path c m) w = (.ok answers, w') ∧
      Uploaded e view rejects w path c m w' u st := by
  induction m, hm using Nat.le_induction with
  | base =>
    obtain ⟨w', u, st, hrun, hU⟩ := Uploaded.first hB hR hH hN hlast hidle hc
    exact ⟨w', _, u, st, Exec.runAll_cons_ok (perform_write hrun) (Exec.runAll_nil w'), hU⟩
  | succ m hm ih =>
    rw [Nat.add_sub_cancel] at hlt hslots
    have hprev : (m - 1) * e.small ≤ m * e.small := Nat.mul_le_mul_right _ (Nat.sub_le m 1)
    have hslot : (m - 1) / SAIFS_WRITES_PER_MULTIPART ≤ m / SAIFS_WRITES_PER_MULTIPART :=
      Nat.div_le_div_right (Nat.sub_le m 1)
    obtain ⟨w', answers, u, st, hrun, hU⟩ := ih (by omega) (by omega)
    obtain ⟨w'', u', st', r, hwrite, hU'⟩ := hU.next hB hR hH hc hm hlt hslots
    have hall := Exec.runAll_append_ok hrun
      (Exec.runAll_cons_ok (perform_write hwrite) (Exec.runAll_nil w''))
    rw [← blockWrites_succ] at hall
    exact ⟨w'', _, u', st', hall, hU'⟩

/-! ## Release -/

theorem recordedParts_increasing (u : SiaUpload) :
    (recordedParts u).Pairwise fun x y => x.1 < y.1 := by
  refine (List.pairwise_lt_finRange SIA_MAX_PARTS).filterMap _ fun i j hij x hx y hy => ?_
  obtain ⟨etag, -, rfl⟩ := Option.map_eq_some_iff.mp hx
  obtain ⟨etag', -, rfl⟩ := Option.map_eq_some_iff.mp hy
  exact Nat.succ_lt_succ hij

theorem recordedParts_sorted (u : SiaUpload) :
    (recordedParts u).Pairwise fun x y => x.1 ≤ y.1 :=
  (recordedParts_increasing u).imp Nat.le_of_lt

theorem mem_recordedParts {u : SiaUpload} {x : Nat × CStr} :
    x ∈ recordedParts u ↔
      ∃ i : Fin SIA_MAX_PARTS, x.1 = i + 1 ∧ (u.part i).etag = some x.2 := by
  constructor
  · intro hx
    obtain ⟨i, -, h⟩ := List.mem_filterMap.mp hx
    obtain ⟨etag, hetag, rfl⟩ := Option.map_eq_some_iff.mp h
    exact ⟨i, rfl, hetag⟩
  · rintro ⟨i, h1, h2⟩
    refine List.mem_filterMap.mpr ⟨i, List.mem_finRange i, ?_⟩
    rw [h2, Option.map_some, ← h1]

variable {part : Nat → Option (Bytes × CStr)}

/-- The server has every part that the node lists. -/
theorem Holds.has (h : Holds view w path u part) :
    (view w.server).Has u.uploadID (recordedParts u) := by
  intro x hx
  obtain ⟨i, hi, hetag⟩ := mem_recordedParts.mp hx
  rw [h.tag i] at hetag
  obtain ⟨⟨body, tag⟩, hpart, rfl⟩ := Option.map_eq_some_iff.mp hetag
  exact ⟨body, by rw [hi, h.stored, hpart]⟩

theorem flatMap_filterMap_eq {α β γ : Type} {f : α → Option β} {g : β → List γ}
    {h : α → List γ} {l : List α} (hfg : ∀ a ∈ l, (f a).elim [] g = h a) :
    (l.filterMap f).flatMap g = l.flatMap h := by
  induction l with
  | nil => rfl
  | cons a l ih =>
    rw [List.flatMap_cons, ← ih fun a ha => hfg a (List.mem_cons_of_mem _ ha),
      ← hfg a List.mem_cons_self]
    cases hf : f a with
    | none => rw [List.filterMap_cons_none hf]; rfl
    | some b => rw [List.filterMap_cons_some hf]; rfl

/-- What the server makes of the parts listed: their bodies in order. -/
theorem Holds.assemble (h : Holds view w path u part) :
    (view w.server).assemble u.uploadID (recordedParts u) =
      (List.range SIA_MAX_PARTS).flatMap fun s => ((part s).map Prod.fst).getD [] := by
  rw [Bucket.assemble, List.mergeSort_of_pairwise (by simpa using recordedParts_sorted u),
    ← List.map_coe_finRange_eq_range, List.flatMap_map, recordedParts]
  refine flatMap_filterMap_eq fun i _ => ?_
  rw [h.tag i]
  cases hpart : part i with
  | none => rfl
  | some x =>
    show (((view w.server).parts u.uploadID (i + 1)).map Prod.fst).getD [] = x.1
    rw [h.stored, hpart]
    rfl

/-- A release finishes the upload. -/
theorem Holds.release (hB : Backend e.server view rejects) (h : Holds view w path u part)
    (hC : CacheFine e (view w.server) w path) :
    ∃ w₁ w', siafs_release e path w = (.ok 0, w') ∧ Asks e Request.IsRead w w₁ ∧
      w' = sendAll e (releaseRequests e path u) w₁ ∧ CacheGrows w w' ∧
      completions w'.trace = completions w.trace ++
        [completePayload e path u.uploadID (recordedParts u)] ∧
      view w'.server = (view w.server).complete path u.uploadID (recordedParts u) := by
  obtain ⟨w₁, hcheck, hasks, hview, hgrows⟩ := hB.releaseCheck_passes hC
  have hu : nodeNamed w₁.uploads path = some u := by
    rw [hasks.uploads]
    exact h.found
  refine ⟨w₁, _, siafs_release_passed hcheck hu, hasks, rfl, hgrows, ?_, ?_⟩
  · rw [completions_sendAll, hasks.completions_eq, releaseRequests_completion]
  have hcomplete : ∀ s, view s = view w₁.server →
      view (e.server s (.multipart_complete
        (completePayload e path u.uploadID (recordedParts u)))).2 =
          (view w.server).complete path u.uploadID (recordedParts u) := by
    intro s hs
    rw [hview] at hs
    rw [hB.complete s _ path u.uploadID _ (completePayload_completes _ _ _)
      (by rw [hs]; exact (h.pending _).mpr rfl) (by rw [hs]; exact h.has), hs]
  rw [releaseRequests]
  by_cases hv : e.verbose = true
  · rw [if_pos hv]
    exact hcomplete _ (hB.listparts_view _ _ _)
  · rw [if_neg hv]
    exact hcomplete _ rfl

/-! ## A mount to start from -/

/-- What is cached about a path matters only through the cache, the time and the
objects. -/
theorem CacheFine.congr {b b' : Bucket} {w' : World σ} (h : CacheFine e b w path)
    (hL1 : w'.L1 = w.L1) (hnow : w'.now = w.now) (hb : b'.objects = b.objects) :
    CacheFine e b' w' path := by
  have hlookup := mc_lookup_congr hL1 hnow
  have hfile : b'.IsFile path ↔ b.IsFile path := by rw [Bucket.IsFile, Bucket.IsFile, hb]
  have hsizeless : b'.Sizeless path ↔ b.Sizeless path := by
    rw [Bucket.Sizeless, Bucket.Sizeless, hb]
  refine ⟨fun body => ?_, ?_⟩
  · rw [hlookup]
    exact h.scan body
  · simp only [hlookup, hfile, hsizeless]
    exact h.size

/-- Without the L1 cache nothing is cached. -/
theorem cacheFine_of_none {b : Bucket} (h : w.L1 = none) : CacheFine e b w path := by
  have hlookup : ∀ key, mc_lookup w key = none := fun key => by rw [mc_lookup, h]; rfl
  exact cacheFine_of_unread (hlookup _) (hlookup _)

theorem plainHost_reliable : plainHost.Reliable where
  tmpnam_injective j k h := by
    have := congrArg List.length h
    simpa [plainHost] using this
  fopen_ok _ := rfl
  fwrite_all _ _ := rfl

theorem mounted_named (e : Env σ) (s : σ) (L1 : Option (CStr → Option L1Entry)) :
    Named e (mounted s L1) where
  recorded i s' fn h := by simp [mounted, slotName] at h
  distinct i j s' t fn h := by simp [mounted, slotName] at h
  unused _ _ _ := rfl

/-- Without a cache, every path of a new mount of an empty bucket is ready. -/
theorem mounted_free (e : Env Store) (path : CStr) :
    Free e Store.view (mounted Store.blank none) path where
  last last h := by simp [mounted] at h
  idle id h := by
    obtain ⟨k, -, hk⟩ := Store.blank.pending_eq_some h
    simp [Store.blank] at hk
  cache := cacheFine_of_none rfl

theorem mounted_ready (e : Env Store) (path : CStr) :
    Ready e Store.view (mounted Store.blank none) path where
  toFree := mounted_free e path
  named := mounted_named e _ _

end SiaFS
