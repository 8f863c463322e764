/-
Two states whose caches differ, and computations that do the same over both.

The second state may hold more in its caches than the first.  As long as the first
one asks its server for nothing that only the second one has cached, a computation
sends the same requests and ends with the same result over both.
-/
import SiaFS.Cache.Lookups
import SiaFS.Cache.SameCaches

namespace SiaFS

variable {σ : Type}

/-! ## What the caches hold -/

/-- An entry of the L1 cache that is served. -/
def liveEntry (w : World σ) (key : CStr) : Option L1Entry :=
  w.L1.bind fun cache => (cache key).filter fun entry =>
    decide (w.now < entry.expire) && entry.payload.isSome

/-- A file of the L2 cache. -/
def keptFile (w : World σ) (name : CStr) : Option Bytes := w.L2.bind fun files => files name

theorem mc_lookup_eq (w : World σ) (key : CStr) :
    mc_lookup w key = (liveEntry w key).bind L1Entry.payload := by
  cases hL : w.L1 with
  | none => simp [mc_lookup, liveEntry, hL]
  | some cache =>
    cases hk : cache key with
    | none => simp [mc_lookup, liveEntry, hL, hk]
    | some entry =>
      rcases entry with ⟨payload, expire⟩
      by_cases hlive : w.now < expire
      · cases payload <;> simp [mc_lookup, liveEntry, hL, hk, hlive, Option.filter]
      · simp [mc_lookup, liveEntry, hL, hk, hlive, Option.filter]

theorem liveEntry_eq_none {w : World σ} {key : CStr} :
    liveEntry w key = none ↔ mc_lookup w key = none := by
  rw [mc_lookup_eq]
  constructor
  · intro h
    rw [h]
    rfl
  · intro h
    cases hlive : liveEntry w key with
    | none => rfl
    | some entry =>
      obtain ⟨cache, -, hentry⟩ := Option.bind_eq_some_iff.mp hlive
      have hpayload := (Option.filter_eq_some_iff.mp hentry).2
      rw [hlive, Option.bind_some] at h
      rw [h] at hpayload
      simp at hpayload

theorem liveEntry_later (w : World σ) (seconds : Nat) (key : CStr) :
    liveEntry { w with now := w.now + seconds } key =
      (liveEntry w key).filter fun entry => decide (w.now + seconds < entry.expire) := by
  cases hL : w.L1 with
  | none => simp [liveEntry, hL]
  | some cache =>
    cases hk : cache key with
    | none => simp [liveEntry, hL, hk]
    | some entry =>
      by_cases hlater : w.now + seconds < entry.expire
      · have hnow : w.now < entry.expire := by omega
        cases hp : entry.payload <;> simp [liveEntry, hL, hk, Option.filter, hlater, hnow, hp]
      · by_cases hnow : w.now < entry.expire <;> cases hp : entry.payload <;>
          simp [liveEntry, hL, hk, Option.filter, hlater, hnow, hp]

theorem liveEntry_entry (w : World σ) (key : CStr) : liveEntry w key =
    (w.entry key).filter fun entry => decide (w.now < entry.expire) && entry.payload.isSome := by
  unfold liveEntry World.entry
  cases w.L1 <;> rfl

theorem liveEntry_del (key key' : CStr) (w : World σ) :
    liveEntry (mc_del key w).2 key' = if key' = key then none else liveEntry w key' := by
  rw [liveEntry_entry, liveEntry_entry, World.entry_del]
  split <;> rfl

/-- A flush deletes the two entries of its path. -/
theorem World.entry_flush (e : Env σ) (path key : CStr) (w : World σ) :
    (siafs_flush e path w).2.entry key =
      if key = objectsKey e path ∨ key = listKey e path then none else w.entry key := by
  show (mc_del (listKey e path) (mc_del (objectsKey e path) w).2).2.entry key = _
  rw [World.entry_del, World.entry_del]
  by_cases hobject : key = objectsKey e path
  · simp [hobject]
  · simp [hobject]

theorem liveEntry_flush (e : Env σ) (path key : CStr) (w : World σ) :
    liveEntry (siafs_flush e path w).2 key =
      if key = objectsKey e path ∨ key = listKey e path then none else liveEntry w key := by
  rw [liveEntry_entry, liveEntry_entry, World.entry_flush]
  split <;> rfl

theorem liveEntry_fetched_ne {e : Env σ} {key key' : CStr} (h : key' ≠ key) (r : Request)
    (w : World σ) : liveEntry (fetched e key r w) key' = liveEntry w key' := by
  cases hL : w.L1 with
  | none => simp [liveEntry, fetched, hL]
  | some cache => simp [liveEntry, fetched, sendAll, hL, h]

/-! ## The caches of one mount among those of the host -/

/-- The states are the same but for the caches, and what the first one holds the
second one holds.  The second one may hold more under the keys `K` and the names `F`. -/
structure Alongside (K F : CStr → Prop) (s w : World σ) : Prop where
  same : w = s.withCaches w.L1 w.L2 s.now
  memcached : w.L1.isSome = s.L1.isSome
  disk : w.L2.isSome = s.L2.isSome
  entry : ∀ key, liveEntry w key = liveEntry s key ∨ K key ∧ liveEntry s key = none
  file : ∀ name, keptFile w name = keptFile s name ∨ F name ∧ keptFile s name = none

variable {e : Env σ} {K F : CStr → Prop} {s w : World σ} {α β : Type}

namespace Alongside

variable (h : Alongside K F s w)

include h

theorem now : w.now = s.now := by
  rw [h.same]
  rfl

theorem server : w.server = s.server := by
  rw [h.same]
  rfl

theorem sendAll (rs : List Request) : Alongside K F (sendAll e rs s) (sendAll e rs w) := by
  refine ⟨?_, h.memcached, h.disk, h.entry, h.file⟩
  rw [h.same]
  rfl

theorem entry_some {key : CStr} {entry : L1Entry} (hs : liveEntry s key = some entry) :
    liveEntry w key = some entry := by
  rcases h.entry key with hsame | ⟨-, hnone⟩
  · rw [hsame, hs]
  · rw [hs] at hnone
    cases hnone

theorem file_some {name : CStr} {bytes : Bytes} (hs : keptFile s name = some bytes) :
    keptFile w name = some bytes := by
  rcases h.file name with hsame | ⟨-, hnone⟩
  · rw [hsame, hs]
  · rw [hs] at hnone
    cases hnone

/-- What the second state holds besides is under keys and names that the first lacks. -/
theorem extra : Alongside (fun key => liveEntry s key = none ∧ liveEntry w key ≠ none)
    (fun name => F name ∧ keptFile s name = none ∧ keptFile w name ≠ none) s w := by
  refine ⟨h.same, h.memcached, h.disk, fun key => ?_, fun name => ?_⟩
  · rcases h.entry key with hsame | ⟨-, hnone⟩
    · exact Or.inl hsame
    · by_cases hw : liveEntry w key = none
      · exact Or.inl (hw.trans hnone.symm)
      · exact Or.inr ⟨⟨hnone, hw⟩, hnone⟩
  · rcases h.file name with hsame | ⟨hF, hnone⟩
    · exact Or.inl hsame
    · by_cases hw : keptFile w name = none
      · exact Or.inl (hw.trans hnone.symm)
      · exact Or.inr ⟨⟨hF, hnone, hw⟩, hnone⟩

omit h in
theorem of_some (hsame : w = s.withCaches w.L1 w.L2 s.now) (hL1 : w.L1.isSome = s.L1.isSome)
    (hL2 : w.L2.isSome = s.L2.isSome)
    (hentry : ∀ key entry, liveEntry s key = some entry → liveEntry w key = some entry)
    (hfile : ∀ name, keptFile w name = keptFile s name ∨ F name ∧ keptFile s name = none) :
    Alongside (fun _ => True) F s w := by
  refine ⟨hsame, hL1, hL2, fun key => ?_, hfile⟩
  cases hs : liveEntry s key with
  | none => exact Or.inr ⟨trivial, rfl⟩
  | some entry => exact Or.inl (hentry key entry hs)

/-- Time passes for both. -/
theorem idle (seconds : Nat) : Alongside (fun _ => True) F
    { s with now := s.now + seconds } { w with now := w.now + seconds } := by
  refine of_some ?_ h.memcached h.disk (fun key entry hs => ?_) h.file
  · rw [h.now, h.same]
    rfl
  · rw [liveEntry_later] at hs ⊢
    obtain ⟨hlive, hlater⟩ := Option.filter_eq_some_iff.mp hs
    rw [h.entry_some hlive, h.now]
    exact Option.filter_eq_some_iff.mpr ⟨rfl, hlater⟩

end Alongside

/-- No lookup that is asked for has a key in `K`. -/
def Request.Clear (e : Env σ) (K : CStr → Prop) (r : Request) : Prop :=
  ∀ l : Lookup, l.request = r → ¬ K (l.key e)

/-- As long as the requests sent are clear of the keys `K`, the computation does the
same over both states. -/
def Follows (e : Env σ) (K F : CStr → Prop) (m : Sia σ α) : Prop :=
  ∀ s, ∃ t, (m s).2.trace = s.trace ++ t ∧ ∀ w, Alongside K F s w →
    (∀ x ∈ t, x.1.Clear e K) → (m w).1 = (m s).1 ∧ Alongside K F (m s).2 (m w).2

namespace Follows

theorem pure (a : α) : Follows e K F (pure a : Sia σ α) :=
  fun _ => ⟨[], (List.append_nil _).symm, fun _ hw _ => ⟨rfl, hw⟩⟩

theorem lift (x : Except Fault α) : Follows e K F (Exec.lift x : Sia σ α) :=
  fun _ => ⟨[], (List.append_nil _).symm, fun _ hw _ => ⟨rfl, hw⟩⟩

theorem fault (x : Fault) : Follows e K F (Exec.fault x : Sia σ α) :=
  fun _ => ⟨[], (List.append_nil _).symm, fun _ hw _ => ⟨rfl, hw⟩⟩

theorem send (r : Request) : Follows e K F (send e r) := by
  intro s
  refine ⟨[(r, (e.server s.server r).1)], rfl, fun w hw _ => ⟨?_, hw.sendAll [r]⟩⟩
  show Except.ok (e.server w.server r).1 = _
  rw [hw.server]
  rfl

theorem bind {m : Sia σ α} {f : α → Sia σ β} (hm : Follows e K F m)
    (hf : ∀ a, Follows e K F (f a)) : Follows e K F (m >>= f) := by
  intro s
  obtain ⟨t₁, htrace₁, h₁⟩ := hm s
  rcases hres : m s with ⟨x | a, s₁⟩
  · rw [hres] at htrace₁ h₁
    rw [Exec.bind_of_error hres]
    refine ⟨t₁, htrace₁, fun w hw hclear => ?_⟩
    obtain ⟨hresult, hafter⟩ := h₁ w hw hclear
    rw [Exec.bind_of_error (show m w = (.error x, (m w).2) from Prod.ext hresult rfl)]
    exact ⟨rfl, hafter⟩
  · rw [hres] at htrace₁ h₁
    rw [Exec.bind_of_ok hres]
    obtain ⟨t₂, htrace₂, h₂⟩ := hf a s₁
    refine ⟨t₁ ++ t₂, by rw [htrace₂, htrace₁, List.append_assoc], fun w hw hclear => ?_⟩
    obtain ⟨hresult, hafter⟩ := h₁ w hw fun x hx => hclear x (List.mem_append_left t₂ hx)
    rw [Exec.bind_of_ok (show m w = (.ok a, (m w).2) from Prod.ext hresult rfl)]
    exact h₂ _ hafter fun x hx => hclear x (List.mem_append_right t₁ hx)

theorem get_bind {f : World σ → Sia σ β} (hf : ∀ s w, Alongside K F s w → f w = f s)
    (h : ∀ s, Follows e K F (f s)) : Follows e K F (Exec.get >>= f) := by
  intro s
  obtain ⟨t, htrace, hsame⟩ := h s s
  refine ⟨t, htrace, fun w hw hclear => ?_⟩
  rw [Exec.get_bind, Exec.get_bind, hf s w hw]
  exact hsame w hw hclear

/-- What does not look at the caches does the same. -/
theorem of_ignores {m : Sia σ α} (hm : IgnoresCaches m)
    (htrace : ∀ s, ∃ t, (m s).2.trace = s.trace ++ t) : Follows e K F m := by
  intro s
  obtain ⟨t, ht⟩ := htrace s
  refine ⟨t, ht, fun w hw _ => ?_⟩
  have hafter : m w = ((m s).1, (m s).2.withCaches w.L1 w.L2 s.now) := by
    rw [← hm s w.L1 w.L2 s.now, ← hw.same]
  have hcaches := hm.keeps s
  rw [hafter]
  refine ⟨rfl, ?_, ?_, ?_, fun key => ?_, fun name => ?_⟩
  · rw [hcaches.now]
    rfl
  · rw [hcaches.L1]
    exact hw.memcached
  · rw [hcaches.L2]
    exact hw.disk
  · have hlive : liveEntry (m s).2 key = liveEntry s key := by
      rw [liveEntry, liveEntry, hcaches.L1, hcaches.now]
    have hlive' : liveEntry ((m s).2.withCaches w.L1 w.L2 s.now) key = liveEntry w key := by
      rw [liveEntry, liveEntry, hw.now]
      rfl
    rw [hlive, hlive']
    exact hw.entry key
  · have hkept : keptFile (m s).2 name = keptFile s name := by
      rw [keptFile, keptFile, hcaches.L2]
    rw [hkept]
    exact hw.file name

/-! ### The caches -/

theorem lookup (l : Lookup) : Follows e K F (cachedRequest e (l.key e) l.request) := by
  intro s
  cases hhit : mc_lookup s (l.key e) with
  | some body =>
    rw [cachedRequest_hit hhit]
    refine ⟨[], (List.append_nil _).symm, fun w hw _ => ?_⟩
    have hhit' : mc_lookup w (l.key e) = some body := by
      rcases hw.entry (l.key e) with hsame | ⟨-, hnone⟩
      · rw [mc_lookup_eq, hsame, ← mc_lookup_eq, hhit]
      · rw [liveEntry_eq_none.mp hnone] at hhit
        cases hhit
    rw [cachedRequest_hit hhit']
    exact ⟨rfl, hw⟩
  | none =>
    rw [cachedRequest_miss hhit]
    refine ⟨[(l.request, (e.server s.server l.request).1)], rfl, fun w hw hclear => ?_⟩
    have hmiss : mc_lookup w (l.key e) = none := by
      rcases hw.entry (l.key e) with hsame | ⟨hforeign, -⟩
      · rw [mc_lookup_eq, hsame, ← mc_lookup_eq, hhit]
      · exact absurd hforeign (hclear _ List.mem_cons_self l rfl)
    have hsent := hw.sendAll (e := e) [l.request]
    rw [cachedRequest_miss hmiss]
    refine ⟨congrArg (fun s => Except.ok (e.server s l.request).1.body) hw.server, ?_, ?_, hw.disk,
      fun key => ?_, hw.file⟩
    · rw [fetched, hsent.same]
      rfl
    · rw [fetched, fetched, Option.isSome_map, Option.isSome_map]
      exact hw.memcached
    · by_cases hkey : key = l.key e
      · refine Or.inl ?_
        subst hkey
        have hon := hw.memcached
        cases hL : s.L1 <;> cases hL' : w.L1 <;> rw [hL, hL'] at hon
        · simp [liveEntry, fetched, hL, hL']
        · cases hon
        · cases hon
        · simp [liveEntry, fetched, SiaFS.sendAll, hL, hL', hw.now, hw.server]
      · rw [liveEntry_fetched_ne hkey, liveEntry_fetched_ne hkey]
        exact hw.entry key

theorem mc_del (key : CStr) : Follows e K F (mc_del (σ := σ) key) := by
  intro s
  refine ⟨[], (List.append_nil _).symm, fun w hw _ => ⟨rfl, ?_, ?_, hw.disk, fun key' => ?_, hw.file⟩⟩
  · rw [hw.same]
    rfl
  · show (w.L1.map _).isSome = (s.L1.map _).isSome
    rw [Option.isSome_map, Option.isSome_map]
    exact hw.memcached
  · rw [liveEntry_del, liveEntry_del]
    split
    · exact Or.inl rfl
    · exact hw.entry key'

theorem disk_get {key : CStr} {size offset : Nat} (hname : ¬ F (disk_name key size offset)) :
    Follows e K F (disk_get (σ := σ) key size offset) := by
  intro s
  refine ⟨[], (List.append_nil _).symm, fun w hw _ => ⟨?_, hw⟩⟩
  show Except.ok ((keptFile w _).map _) = Except.ok ((keptFile s _).map _)
  rw [(hw.file _).resolve_right fun h => hname h.1]

theorem disk_set (key : CStr) (payload : Option Body) (len size offset : Nat) :
    Follows e K F (disk_set (σ := σ) key payload len size offset) := by
  intro s
  cases hL : s.L2 with
  | none =>
    rw [disk_set_off hL]
    refine ⟨[], (List.append_nil _).symm, fun w hw _ => ?_⟩
    have hdisk := hw.disk
    rw [hL, Option.isSome_none, Option.isSome_eq_false_iff, Option.isNone_iff_eq_none] at hdisk
    rw [disk_set_off hdisk]
    exact ⟨rfl, hw⟩
  | some files =>
    have hon : ∀ w, Alongside K F s w → ∃ files', w.L2 = some files' := fun w hw =>
      Option.isSome_iff_exists.mp (by rw [hw.disk, hL]; rfl)
    cases hread : readPayload payload len with
    | error x =>
      rw [disk_set_unread hL hread]
      refine ⟨[], (List.append_nil _).symm, fun w hw _ => ?_⟩
      obtain ⟨files', hL'⟩ := hon w hw
      rw [disk_set_unread hL' hread]
      exact ⟨rfl, hw⟩
    | ok bytes =>
      rw [disk_set_written hL hread]
      refine ⟨[], (List.append_nil _).symm, fun w hw _ => ?_⟩
      obtain ⟨files', hL'⟩ := hon w hw
      rw [disk_set_written hL' hread]
      refine ⟨rfl, ?_, hw.memcached, rfl, hw.entry, fun name => ?_⟩
      · rw [hw.same]
        rfl
      · have hname := hw.file name
        rw [keptFile, keptFile, hL, hL'] at hname
        show Function.update files' _ (some bytes) name = Function.update files _ (some bytes) name ∨
          F name ∧ Function.update files _ (some bytes) name = none
        by_cases hsame : name = disk_name key size offset
        · rw [hsame, Function.update_self, Function.update_self]
          exact Or.inl rfl
        · rw [Function.update_of_ne hsame, Function.update_of_ne hsame]
          exact hname

/-! ### Operations -/

theorem object (path : CStr) : Follows e K F (sia_bus_objects_json e path) := lookup (.object path)

theorem list (path : CStr) : Follows e K F (sia_bus_objects_list_json e path) := lookup (.list path)

theorem exists_ (path : CStr) : Follows e K F (sia_bus_objects_exists e path) :=
  bind (list path) fun _ => lift _

theorem is_dir (path : CStr) : Follows e K F (sia_bus_objects_is_dir e path) :=
  bind (list (withSlash path)) fun _ => lift _

theorem is_file (path : CStr) : Follows e K F (sia_bus_objects_is_file e path) :=
  bind (list path) fun _ => lift _

theorem object_size (path : CStr) : Follows e K F (sia_bus_object_size e path) :=
  bind (object path) fun _ => pure _

theorem object_etag (path : CStr) : Follows e K F (sia_bus_object_etag e path) :=
  bind (object path) fun _ => pure _

theorem modtime (path : CStr) : Follows e K F (sia_bus_objects_modtime e path) := by
  refine bind (is_file path) fun is_file => ?_
  cases is_file with
  | true => exact bind (object path) fun _ => pure _
  | false =>
    refine bind (is_dir path) fun is_dir => ?_
    cases is_dir with
    | true => exact bind (list (withSlash path)) fun _ => lift _
    | false => exact pure _

theorem unixtime (path : CStr) : Follows e K F (sia_bus_objects_unixtime e path) := by
  refine bind (modtime path) fun _ => bind (modtime path) fun modtime => ?_
  refine bind (lift _) fun timestamp => ?_
  cases e.host.strptime timestamp <;> exact pure _

theorem getattr (path : CStr) : Follows e K F (siafs_getattr e path) := by
  refine get_bind (fun s w hw => by simp only [blankStat, hw.now]) fun s => ?_
  by_cases hroot : path = [slash]
  · rw [if_pos hroot]
    exact pure _
  · rw [if_neg hroot]
    refine bind (is_file path) fun is_file => ?_
    cases is_file with
    | true => exact bind (object_size path) fun _ => bind (unixtime path) fun _ => pure _
    | false =>
      refine bind (is_dir path) fun is_dir => ?_
      cases is_dir with
      | true => exact bind (unixtime path) fun _ => pure _
      | false => exact pure _

theorem readdir (path : CStr) : Follows e K F (siafs_readdir e path) :=
  bind (object (withSlash path)) fun _ => bind (lift _) fun _ => pure _

theorem open_ (path : CStr) : Follows e K F (siafs_open e path) := by
  refine bind (exists_ path) fun found => ?_
  cases found with
  | false => exact pure _
  | true =>
    refine bind (is_dir path) fun is_dir => ?_
    cases is_dir <;> exact pure _

theorem get_object {path : CStr} {size offset : Nat}
    (hname : ¬ F (disk_name (disk_key e path) size offset)) :
    Follows e K F (sia_worker_get_object e path size offset) := by
  refine bind (disk_get hname) fun hit => ?_
  cases hit with
  | some bytes => exact pure _
  | none =>
    refine bind (object_size path) fun object_size => bind (send _) fun reply => ?_
    by_cases hok : reply.ok ∧ reply.status < 400
    · rw [if_pos hok]
      refine bind (lift _) fun value => bind (object_etag path) fun etag => ?_
      cases etag with
      | some etag => exact bind (disk_set _ _ _ _ _) fun _ => pure _
      | none => exact pure _
    · rw [if_neg hok]
      exact pure _

theorem read {path : CStr} {size offset : Nat}
    (hname : ¬ F (disk_name (disk_key e path) size offset)) :
    Follows e K F (siafs_read e path size offset) := by
  refine bind (get_object hname) fun got => bind (lift _) fun bytes => ?_
  by_cases hfit : got.2 ≤ size
  · rw [if_pos hfit]
    exact pure _
  · rw [if_neg hfit]
    exact fault _

theorem flush (path : CStr) : Follows e K F (siafs_flush e path) :=
  bind (mc_del _) fun _ => bind (mc_del _) fun _ => pure _

theorem put_object (path : CStr) (buf : Bytes) :
    Follows e K F (sia_worker_put_object e path buf) := bind (send _) fun _ => pure _

theorem mkdir (path : CStr) : Follows e K F (siafs_mkdir e path) := by
  rw [siafs_mkdir]
  split
  · exact fault _
  · exact bind (put_object _ _) fun _ => pure _

theorem del_object (path : CStr) : Follows e K F (sia_bus_del_object e path) :=
  bind (send _) fun _ => pure _

theorem rename (source target : CStr) : Follows e K F (siafs_rename e source target) := by
  refine bind (is_dir source) fun is_dir => ?_
  cases is_dir with
  | true => exact bind (bind (send _) fun _ => pure _) fun _ => pure _
  | false => exact bind (bind (send _) fun _ => pure _) fun _ => pure _

theorem write (path : CStr) (buf : Bytes) (offset : Nat) :
    Follows e K F (siafs_write e path buf offset) :=
  of_ignores (IgnoresCaches.write path buf offset) fun s =>
    moves_trace (siafs_write_moves path buf offset s)

theorem release (path : CStr) : Follows e K F (siafs_release e path) := by
  have hcheck : Follows e K F (releaseCheck e path) := by
    refine bind (is_file path) fun is_file => ?_
    cases is_file with
    | true => exact pure _
    | false => exact bind (object_size path) fun _ => pure _
  refine bind hcheck fun passed => ?_
  cases passed with
  | true =>
    exact of_ignores (IgnoresCaches.completeUpload path) fun s =>
      moves_trace (completeUpload_moves (P := permits e s (.release path)) rfl s)
  | false => exact pure _

/-- Every operation does the same alone, but for a read of a file with a name in `F`. -/
theorem perform {op : Op} (hread : ∀ path size offset, op = .read path size offset →
    ¬ F (disk_name (disk_key e path) size offset)) : Follows e K F (perform e op) := by
  cases op with
  | getattr path => exact bind (getattr path) fun _ => pure _
  | readdir path => exact bind (readdir path) fun _ => pure _
  | «open» path => exact bind (open_ path) fun _ => pure _
  | read path size offset => exact bind (read (hread path size offset rfl)) fun _ => pure _
  | mkdir path => exact bind (mkdir path) fun _ => pure _
  | mknod path =>
    exact bind (bind (put_object _ _) fun _ => bind (flush path) fun _ => pure _) fun _ => pure _
  | flush path => exact bind (flush path) fun _ => pure _
  | unlink path => exact bind (bind (del_object _) fun _ => pure _) fun _ => pure _
  | rmdir path => exact bind (bind (del_object _) fun _ => pure _) fun _ => pure _
  | rename source target => exact bind (rename source target) fun _ => pure _
  | write path buf offset => exact bind (write path buf offset) fun _ => pure _
  | release path => exact bind (release path) fun _ => pure _

end Follows

end SiaFS
