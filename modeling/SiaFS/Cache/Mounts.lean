/-
Several mounts with the same caches.

Memcached and the cache directory belong to the host, and the names in them tell
the request and the path but not the bucket or the server.  A mount is served what
another one left there.  Its answers are its own as long as it looks up nothing
that it did not fetch itself while the caches hold it: then they are those of the
mount alone, from which the entries are gone that the others deleted.
-/
import Mathlib.Data.List.Induction
import SiaFS.Cache.Alongside
import SiaFS.Cache.Versions

namespace SiaFS

variable {σ : Type} {e : Env σ}

/-! ## What another mount does to the caches -/

/-- The path whose two entries the operation deletes. -/
def Op.flushed : Op → Option CStr
  | .flush path | .mknod path => some path
  | _ => none

/-- A key of one of the entries that the operation deletes. -/
def Op.Deletes (e : Env σ) (op : Op) (key : CStr) : Prop :=
  ∃ path, op.flushed = some path ∧ (key = objectsKey e path ∨ key = listKey e path)

/-- What the caches hold they still hold, but for the keys `D` and the names `N`. -/
structure Retains (D N : CStr → Prop) (w w' : World σ) : Prop where
  now : w'.now = w.now
  memcached : w'.L1.isSome = w.L1.isSome
  disk : w'.L2.isSome = w.L2.isSome
  entry : ∀ key entry, liveEntry w key = some entry → liveEntry w' key = some entry ∨ D key
  file : ∀ name bytes, keptFile w name = some bytes → keptFile w' name = some bytes ∨ N name

instance (D N : CStr → Prop) : Std.Refl (Retains (σ := σ) D N) where
  refl _ := ⟨rfl, rfl, rfl, fun _ _ => Or.inl, fun _ _ => Or.inl⟩

instance (D N : CStr → Prop) : IsTrans (World σ) (Retains D N) where
  trans a b c hab hbc := by
    refine ⟨hbc.now.trans hab.now, hbc.memcached.trans hab.memcached, hbc.disk.trans hab.disk,
      fun key entry h => ?_, fun name bytes h => ?_⟩
    · rcases hab.entry key entry h with hb | hd
      · exact hbc.entry key entry hb
      · exact Or.inr hd
    · rcases hab.file name bytes h with hb | hn
      · exact hbc.file name bytes hb
      · exact Or.inr hn

namespace Retains

variable {D N : CStr → Prop}

theorem of_same {w w' : World σ} (h : SameCaches w w') : Retains D N w w' := by
  refine ⟨h.now, by rw [h.L1], by rw [h.L2], fun key entry hentry => Or.inl ?_,
    fun name bytes hfile => Or.inl ?_⟩
  · rw [liveEntry, h.L1, h.now]
    exact hentry
  · rw [keptFile, h.L2]
    exact hfile

/-- A reply is cached only where nothing is served. -/
theorem cachedRequest (key : CStr) (r : Request) :
    Exec.Keeps (Retains D N) (cachedRequest e key r) := by
  refine cachedRequest_keeps fun w hmiss => ?_
  refine ⟨rfl, Option.isSome_map .., rfl, fun key' entry h => Or.inl ?_, fun _ _ => Or.inl⟩
  have hne : key' ≠ key := by
    intro hkey
    rw [hkey, liveEntry_eq_none.mpr hmiss] at h
    cases h
  rw [liveEntry_fetched_ne hne, h]

/-- A file is written only where there is none. -/
theorem read (path : CStr) (size offset : Nat) :
    Exec.Keeps (Retains D fun _ => False) (siafs_read e path size offset) := by
  intro w
  cases hfile : cachedFile e w path size offset with
  | some stored =>
    rw [read_hit hfile]
    exact Std.Refl.refl w
  | none =>
    have hkeeps : ReadKeeps e (Retains D (· = disk_name (disk_key e path) size offset)) path size
        offset := by
      refine ⟨cachedRequest _ _, fun _ _ _ => of_same ⟨rfl, rfl, rfl⟩,
        disk_set_keeps fun w files bytes hL => ?_⟩
      refine ⟨rfl, rfl, by rw [hL]; rfl, fun _ _ => Or.inl, fun name bytes h => ?_⟩
      by_cases hname : name = disk_name (disk_key e path) size offset
      · exact Or.inr hname
      · refine Or.inl ?_
        rw [keptFile, hL] at h
        show Function.update files _ _ name = _
        rw [Function.update_of_ne hname]
        exact h
    have h := hkeeps.read w
    refine ⟨h.now, h.memcached, h.disk, h.entry, fun name bytes hbytes => ?_⟩
    rcases h.file name bytes hbytes with hkept | rfl
    · exact Or.inl hkept
    · rw [show keptFile w _ = none from hfile] at hbytes
      cases hbytes

theorem flush (path : CStr) :
    Exec.Keeps (Retains (fun key => key = objectsKey e path ∨ key = listKey e path) N)
      (siafs_flush e path) := by
  intro w
  refine ⟨rfl, ?_, rfl, fun key entry h => ?_, fun _ _ => Or.inl⟩
  · show ((w.L1.map _).map _).isSome = w.L1.isSome
    rw [Option.isSome_map, Option.isSome_map]
  · by_cases hkey : key = objectsKey e path ∨ key = listKey e path
    · exact Or.inr hkey
    · refine Or.inl ?_
      rw [liveEntry_flush, if_neg hkey]
      exact h

theorem perform (op : Op) :
    Exec.Keeps (Retains (op.Deletes e) fun _ => False) (perform e op) := by
  refine perform_keeps_caches (fun _ _ => of_same) cachedRequest (fun path hop w => ?_)
    fun path size offset _ => read path size offset
  have h := flush (e := e) (N := fun _ => False) path w
  refine ⟨h.now, h.memcached, h.disk, fun key entry hentry => ?_, h.file⟩
  refine (h.entry key entry hentry).imp_right fun hkey => ⟨path, ?_, hkey⟩
  rcases hop with rfl | rfl <;> rfl

end Retains

/-! ## Runs of several mounts -/

section Mounts

variable {ι : Type} [DecidableEq ι]

/-- A call of one of the mounts.  The others find the caches and the clock as it
leaves them. -/
def together (e : ι → Env σ) (ws : ι → World σ) (c : ι × TimedOp) : ι → World σ :=
  let w' := (c.2.run (e c.1) (ws c.1)).2
  fun i => if i = c.1 then w' else (ws i).withCaches w'.L1 w'.L2 w'.now

/-- What one of the mounts has of it when it is alone: all of a call of its own, of
another call that time passes and that entries are deleted. -/
def alone (e : ι → Env σ) (i : ι) (s : World σ) (c : ι × TimedOp) : World σ :=
  if c.1 = i then (c.2.run (e i) s).2
  else
    let s' := { s with now := s.now + c.2.wait }
    match c.2.op.flushed with
    | some path => (siafs_flush (e c.1) path s').2
    | none => s'

/-- All mounts have the same caches. -/
def Shared (ws : ι → World σ) : Prop := ∀ i j, SameCaches (ws i) (ws j)

/-- What the caches of `s` hold is a part of what those of `w` hold. -/
def PartOf (s w : World σ) : Prop := Alongside (fun _ => True) (fun _ => True) s w

/-- The requests that the call sends. -/
def TimedOp.sent (e : Env σ) (c : TimedOp) (s : World σ) : List Request :=
  ((c.run e s).2.trace.drop s.trace.length).map Prod.fst

/-- Whatever the mount, alone in the state `s`, has to ask its server for, the caches
of `w` do not hold either. -/
structure TimedOp.Own (e : Env σ) (c : TimedOp) (s w : World σ) : Prop where
  lookup : ∀ l : Lookup, l.request ∈ c.sent e s →
    mc_lookup { w with now := w.now + c.wait } (l.key e) = none
  file : ∀ path size offset, c.op = .read path size offset →
    cachedFile e s path size offset = none → cachedFile e w path size offset = none

variable {e : ι → Env σ} {ws : ι → World σ} {i : ι}

theorem together_self (c : TimedOp) : together e ws (i, c) i = (c.run (e i) (ws i)).2 :=
  if_pos rfl

theorem alone_self (s : World σ) (c : TimedOp) : alone e i s (i, c) = (c.run (e i) s).2 :=
  if_pos rfl

/-- All mounts find the caches and the clock as the call leaves them. -/
theorem together_caches (c : ι × TimedOp) (j : ι) :
    SameCaches (c.2.run (e c.1) (ws c.1)).2 (together e ws c j) := by
  unfold together
  split
  · exact Std.Refl.refl _
  · exact ⟨rfl, rfl, rfl⟩

theorem together_shared (c : ι × TimedOp) : Shared (together e ws c) := by
  intro j k
  have hj : SameCaches _ (together e ws c j) := together_caches c j
  have hk : SameCaches _ (together e ws c k) := together_caches c k
  exact ⟨hk.L1.trans hj.L1.symm, hk.L2.trans hj.L2.symm, hk.now.trans hj.now.symm⟩

/-- After a call of another mount the entries that it deleted are gone. -/
theorem alone_other (s : World σ) {c : ι × TimedOp} (hc : c.1 ≠ i) :
    alone e i s c = s.withCaches (alone e i s c).L1 s.L2 (s.now + c.2.wait) ∧
      (alone e i s c).L1.isSome = s.L1.isSome ∧
      ∀ key entry, liveEntry (alone e i s c) key = some entry →
        liveEntry { s with now := s.now + c.2.wait } key = some entry ∧
          ¬ c.2.op.Deletes (e c.1) key := by
  rw [alone, if_neg hc]
  cases hop : c.2.op.flushed with
  | none =>
    refine ⟨rfl, rfl, fun key entry h => ⟨h, ?_⟩⟩
    rintro ⟨path, hpath, -⟩
    rw [hop] at hpath
    cases hpath
  | some path =>
    refine ⟨rfl, (Retains.flush (e := e c.1) (N := fun _ => False) path
      { s with now := s.now + c.2.wait }).memcached, fun key entry h => ?_⟩
    replace h : liveEntry (siafs_flush (e c.1) path { s with now := s.now + c.2.wait }).2 key =
      some entry := h
    rw [liveEntry_flush] at h
    split at h
    · cases h
    · rename_i hkept
      refine ⟨h, ?_⟩
      rintro ⟨path', hpath, hkey⟩
      rw [hop] at hpath
      cases hpath
      exact hkept hkey

namespace PartOf

variable {s w : World σ}

theorem of_some (hsame : w = s.withCaches w.L1 w.L2 s.now) (hL1 : w.L1.isSome = s.L1.isSome)
    (hL2 : w.L2.isSome = s.L2.isSome)
    (hentry : ∀ key entry, liveEntry s key = some entry → liveEntry w key = some entry)
    (hfile : ∀ name bytes, keptFile s name = some bytes → keptFile w name = some bytes) :
    PartOf s w := by
  refine Alongside.of_some hsame hL1 hL2 hentry fun name => ?_
  cases hs : keptFile s name with
  | none => exact Or.inr ⟨trivial, rfl⟩
  | some bytes => exact Or.inl (hfile name bytes hs)

/-- A call of its own, over its own part of the caches. -/
theorem call {e : Env σ} (h : PartOf s w) {c : TimedOp} (hown : c.Own e s w) :
    (c.run e w).1 = (c.run e s).1 ∧ PartOf (c.run e s).2 (c.run e w).2 := by
  have hread : ∀ path size offset, c.op = .read path size offset →
      ¬ (True ∧ keptFile s (disk_name (disk_key e path) size offset) = none ∧
        keptFile w (disk_name (disk_key e path) size offset) ≠ none) :=
    fun path size offset hop hforeign =>
      hforeign.2.2 (hown.file path size offset hop hforeign.2.1)
  obtain ⟨t, htrace, hsame⟩ := Follows.perform (e := e)
    (K := fun key => liveEntry { s with now := s.now + c.wait } key = none ∧
      liveEntry { w with now := w.now + c.wait } key ≠ none)
    (F := fun name => True ∧ keptFile s name = none ∧ keptFile w name ≠ none) hread
    { s with now := s.now + c.wait }
  have hsent : c.sent e s = t.map Prod.fst := by
    rw [TimedOp.sent, TimedOp.run_eq, htrace, List.drop_left]
  obtain ⟨hresult, hafter⟩ := hsame _ (h.idle c.wait).extra fun x hx l hl hforeign => by
    have hmiss := hown.lookup l (by rw [hsent, hl]; exact List.mem_map_of_mem hx)
    exact hforeign.2 (liveEntry_eq_none.mpr hmiss)
  refine ⟨hresult, hafter.same, hafter.memcached, hafter.disk, fun key => ?_, fun name => ?_⟩
  · exact (hafter.entry key).imp_right fun h => ⟨trivial, h.2⟩
  · exact (hafter.file name).imp_right fun h => ⟨trivial, h.2⟩

/-- A call of another mount. -/
theorem beside (h : PartOf s (ws i)) (hshared : Shared ws) {c : ι × TimedOp} (hc : c.1 ≠ i) :
    PartOf (alone e i s c) (together e ws c i) := by
  obtain ⟨hsame, hL1, hlive⟩ := alone_other (e := e) s hc
  have hcaches := hshared i c.1
  have hlater := h.idle c.2.wait
  have hafter := Retains.perform (e := e c.1) c.2.op
    { ws c.1 with now := (ws c.1).now + c.2.wait }
  rw [← TimedOp.run_eq] at hafter
  have hother : together e ws c i = (ws i).withCaches (c.2.run (e c.1) (ws c.1)).2.L1
      (c.2.run (e c.1) (ws c.1)).2.L2 (c.2.run (e c.1) (ws c.1)).2.now := if_neg (Ne.symm hc)
  have hL1' : (c.2.run (e c.1) (ws c.1)).2.L1.isSome = (alone e i s c).L1.isSome :=
    hafter.memcached.trans ((congrArg Option.isSome hcaches.L1).trans (h.memcached.trans hL1.symm))
  have hL2' : (c.2.run (e c.1) (ws c.1)).2.L2.isSome = (alone e i s c).L2.isSome := by
    rw [hsame]
    exact hafter.disk.trans ((congrArg Option.isSome hcaches.L2).trans h.disk)
  have hnow : (c.2.run (e c.1) (ws c.1)).2.now = s.now + c.2.wait :=
    hafter.now.trans (congrArg (· + c.2.wait) (hcaches.now.trans h.now))
  rw [hother]
  refine of_some ?_ hL1' hL2' (fun key entry hs => ?_) fun name bytes hs => ?_
  · rw [hnow, hsame, h.same]
    rfl
  · obtain ⟨hs', hkept⟩ := hlive key entry hs
    have hw : liveEntry { ws c.1 with now := (ws c.1).now + c.2.wait } key = some entry := by
      rw [← hlater.entry_some hs', liveEntry, liveEntry, hcaches.L1, hcaches.now]
    exact (hafter.entry key entry hw).resolve_right hkept
  · have hs' : keptFile s name = some bytes := by
      rw [hsame] at hs
      exact hs
    have hw : keptFile { ws c.1 with now := (ws c.1).now + c.2.wait } name = some bytes := by
      rw [← h.file_some hs', keptFile, keptFile, hcaches.L2]
    exact (hafter.file name bytes hw).resolve_right not_false

end PartOf

/-- As long as a mount looks up nothing that the caches hold and it did not fetch
itself, its answers are those that it gives alone. -/
theorem answers_own {s : World σ} (hstart : PartOf s (ws i)) (hshared : Shared ws)
    {calls : List (ι × TimedOp)}
    (hown : ∀ done c rest, calls = done ++ (i, c) :: rest →
      c.Own (e i) (done.foldl (alone e i) s) (done.foldl (together e) ws i)) :
    ∀ done c rest, calls = done ++ (i, c) :: rest →
      (c.run (e i) (done.foldl (together e) ws i)).1 =
        (c.run (e i) (done.foldl (alone e i) s)).1 := by
  have hpart : ∀ done rest, calls = done ++ rest →
      PartOf (done.foldl (alone e i) s) (done.foldl (together e) ws i) ∧
        Shared (done.foldl (together e) ws) := by
    intro done
    induction done using List.reverseRec with
    | nil => exact fun _ _ => ⟨hstart, hshared⟩
    | append_singleton done c ih =>
      intro rest hsplit
      rw [List.append_assoc] at hsplit
      obtain ⟨hbefore, hbefore'⟩ := ih _ hsplit
      rw [List.foldl_append, List.foldl_append]
      refine ⟨?_, together_shared c⟩
      rcases c with ⟨j, c⟩
      by_cases hj : j = i
      · subst hj
        show PartOf (alone e j _ (j, c)) (together e _ (j, c) j)
        rw [alone_self, together_self]
        exact (hbefore.call (hown done c rest hsplit)).2
      · exact hbefore.beside hbefore' hj
  intro done c rest hsplit
  exact ((hpart done _ hsplit).1.call (hown done c rest hsplit)).1

end Mounts

/-! ## Two buckets -/

/-- Two mounts of one host, each of its own bucket. -/
def twoMounts (i : Bool) : Env Store :=
  { hugeMount with bucket := if i then lit "one" else lit "two" }

/-- They begin with empty caches, and a file `/a` in both buckets. -/
def twoBuckets (i : Bool) : World Store :=
  mountedCached (Store.blank.put (lit "/a") (if i then [1] else [2, 2]))

theorem twoBuckets_shared : Shared twoBuckets := fun _ _ => ⟨rfl, rfl, rfl⟩

theorem PartOf.refl (w : World σ) : PartOf w w :=
  of_some rfl rfl rfl (fun _ _ h => h) fun _ _ h => h

/-- The other mount has read another file before. -/
theorem answers_own_read :
    ((⟨1, .read (lit "/a") 1 0⟩ : TimedOp).run (twoMounts true)
        (together twoMounts twoBuckets (false, ⟨0, .read (lit "/b") 1 0⟩) true)).1 =
      ((⟨1, .read (lit "/a") 1 0⟩ : TimedOp).run (twoMounts true)
        (alone twoMounts true (twoBuckets true) (false, ⟨0, .read (lit "/b") 1 0⟩))).1 := by
  have hsent : (⟨1, .read (lit "/a") 1 0⟩ : TimedOp).sent (twoMounts true)
      (alone twoMounts true (twoBuckets true) (false, ⟨0, .read (lit "/b") 1 0⟩)) =
        [.objects (lit "/a"), .worker_get (lit "/a") 0 0] := rfl
  have hown : ∀ done c rest,
      ([(false, ⟨0, .read (lit "/b") 1 0⟩), (true, ⟨1, .read (lit "/a") 1 0⟩)] :
        List (Bool × TimedOp)) = done ++ (true, c) :: rest →
      c.Own (twoMounts true) (done.foldl (alone twoMounts true) (twoBuckets true))
        (done.foldl (together twoMounts) twoBuckets true) := by
    intro done c rest hsplit
    rcases done with _ | ⟨d, _ | ⟨d', done⟩⟩
    · cases hsplit
    · cases hsplit
      refine ⟨fun l hl => ?_, fun path size offset hop _ => ?_⟩
      · rw [List.foldl_cons, List.foldl_nil, hsent] at hl
        cases l with
        | object path =>
          obtain rfl : path = lit "/a" := by simpa [Lookup.request] using hl
          rfl
        | list path => simp [Lookup.request] at hl
      · cases hop
        rfl
    · simp at hsplit
  exact answers_own (PartOf.refl (twoBuckets true)) twoBuckets_shared hown
    [(false, ⟨0, .read (lit "/b") 1 0⟩)] _ [] rfl

/-- A mount is told the size and given the bytes of the other bucket's file. -/
theorem other_bucket_read :
    (∃ stat, ((⟨1, .getattr (lit "/a")⟩ : TimedOp).run (twoMounts true)
        (together twoMounts twoBuckets (false, ⟨0, .getattr (lit "/a")⟩) true)).1 =
          .ok (.stat (.ok stat)) ∧ stat.st_size = 2) ∧
      (∃ stat, ((⟨1, .getattr (lit "/a")⟩ : TimedOp).run (twoMounts true)
        (alone twoMounts true (twoBuckets true) (false, ⟨0, .getattr (lit "/a")⟩))).1 =
          .ok (.stat (.ok stat)) ∧ stat.st_size = 1) ∧
      ((⟨1, .read (lit "/a") 1 0⟩ : TimedOp).run (twoMounts true)
        (together twoMounts twoBuckets (false, ⟨0, .read (lit "/a") 1 0⟩) true)).1 =
          .ok (.data [2]) ∧
      ((⟨1, .read (lit "/a") 1 0⟩ : TimedOp).run (twoMounts true)
        (alone twoMounts true (twoBuckets true) (false, ⟨0, .read (lit "/a") 1 0⟩))).1 =
          .ok (.data [1]) :=
  ⟨⟨_, rfl, rfl⟩, ⟨_, rfl, rfl⟩, rfl, rfl⟩

end SiaFS
