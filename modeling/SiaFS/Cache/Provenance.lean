/-
Where the answers come from.

`arrivals` lists the replies of a timed run with the times at which they came.  Whatever
the server answers, and wherever the run stops, an entry of the L1 cache that was not there
at the start is one of them, filed under the key of its own request, and expires
`SIA_METACACHE_TTL` seconds after it came; a file of the L2 cache holds what one of them
brought from the offset in its name.  So a lookup is answered by one recent reply and a
read by one reply, never by a mixture.
-/
import SiaFS.Cache.Lengths
import SiaFS.Cache.Lookups
import SiaFS.Cache.Versions
import SiaFS.Requests

namespace SiaFS

variable {σ : Type}

/-- A reply, and when it came. -/
structure Arrival where
  time : Nat
  request : Request
  reply : Reply

/-- What has come from the first state to the second, at the time of the second. -/
def arrived (w w' : World σ) : List Arrival :=
  (w'.trace.drop w.trace.length).map fun x => ⟨w'.now, x.1, x.2⟩

/-- The replies of a run. -/
def arrivals (e : Env σ) : List TimedOp → World σ → List Arrival
  | [], _ => []
  | c :: cs, w =>
    match c.run e w with
    | (.ok _, w') => arrived w w' ++ arrivals e cs w'
    | (.error _, w') => arrived w w'

/-- The lookup as the program makes it. -/
def Lookup.ask (e : Env σ) : Lookup → Sia σ (Option Body)
  | .object path => sia_bus_objects_json e path
  | .list path => sia_bus_objects_list_json e path

theorem Lookup.ask_eq (e : Env σ) (l : Lookup) : l.ask e = cachedRequest e (l.key e) l.request := by
  cases l <;> rfl

namespace Arrival

/-- The reply is what the entry holds, under the key of its request. -/
def Fills (e : Env σ) (x : Arrival) (key : CStr) (entry : L1Entry) : Prop :=
  ∃ l : Lookup, x.request = l.request ∧ key = l.key e ∧
    entry = { payload := x.reply.body, expire := x.time + SIA_METACACHE_TTL }

/-- The reply to a range from `offset` brought `bytes`, as many as its header says. -/
def Yields (e : Env σ) (x : Arrival) (key : CStr) (offset : Nat) (bytes : Bytes) : Prop :=
  ∃ path last value, key = disk_key e path ∧ x.request = .worker_get path offset last ∧
    x.reply.ok = true ∧ x.reply.status < 400 ∧ headerValue x.reply.contentLength = .ok value ∧
    readPayload x.reply.body (u64 (strtol value)) = .ok bytes

end Arrival

/-- What the caches hold they held in `w₀`, or it came with one of the replies `H`. -/
structure Sourced (e : Env σ) (w₀ : World σ) (H : List Arrival) (w : World σ) : Prop where
  past : ∀ x ∈ H, x.time ≤ w.now
  entries : ∀ key entry, w.entry key = some entry →
    w₀.entry key = some entry ∨ ∃ x ∈ H, x.Fills e key entry
  files : ∀ name bytes, (w.L2.bind fun files => files name) = some bytes →
    (w₀.L2.bind fun files => files name) = some bytes ∨
      ∃ x ∈ H, ∃ key size offset, name = disk_name key size offset ∧ x.Yields e key offset bytes

/-- From `w` to `w'` the clock stands still, and what the caches take in is from the
replies that come, or from `K`. -/
structure Gathers (e : Env σ) (w₀ : World σ) (K : List Arrival) (w w' : World σ) : Prop where
  now : w'.now = w.now
  trace : w.trace <+: w'.trace
  sourced : ∀ H, K ⊆ H → Sourced e w₀ H w → Sourced e w₀ (H ++ arrived w w') w'

section Gathers

variable {e : Env σ} {w₀ w w' w'' : World σ} {H K : List Arrival}

@[simp] theorem arrived_self (w : World σ) : arrived w w = [] := by
  rw [arrived, List.drop_length, List.map_nil]

theorem arrived_append (h : w.trace <+: w'.trace) (h' : w'.trace <+: w''.trace)
    (hnow : w''.now = w'.now) : arrived w w'' = arrived w w' ++ arrived w' w'' := by
  obtain ⟨t, ht⟩ := h
  obtain ⟨t', ht'⟩ := h'
  rw [arrived, arrived, arrived, ← ht', ← ht, hnow, List.append_assoc, List.drop_left,
    List.drop_left, ← List.append_assoc, List.drop_left, List.map_append]

theorem arrived_one {r : Request} {reply : Reply} (h : w'.trace = w.trace ++ [(r, reply)])
    (hnow : w'.now = w.now) : arrived w w' = [⟨w.now, r, reply⟩] := by
  rw [arrived, h, List.drop_left, hnow]
  rfl

theorem arrived_sendAll (r : Request) (w : World σ) :
    arrived w (sendAll e [r] w) = [⟨w.now, r, (e.server w.server r).1⟩] :=
  arrived_one rfl rfl

theorem arrived_fetched (key : CStr) (r : Request) (w : World σ) :
    arrived w (fetched e key r w) = [⟨w.now, r, (e.server w.server r).1⟩] :=
  arrived_one rfl rfl

theorem mem_arrived {x : Arrival} (h : x ∈ arrived w w') : x.time = w'.now := by
  obtain ⟨y, -, rfl⟩ := List.mem_map.mp h
  rfl

theorem Sourced.mono (h : Sourced e w₀ H w) {H' : List Arrival} (hnow : w.now ≤ w'.now)
    (hH : H ⊆ H') (hpast : ∀ x ∈ H', x ∈ H ∨ x.time = w'.now) (hL1 : w'.L1 = w.L1)
    (hL2 : w'.L2 = w.L2) : Sourced e w₀ H' w' where
  past x hx := (hpast x hx).elim (fun hmem => Nat.le_trans (h.past x hmem) hnow) Nat.le_of_eq
  entries key entry hentry := by
    rw [World.entry, hL1] at hentry
    refine (h.entries key entry hentry).imp id ?_
    rintro ⟨x, hx, hfills⟩
    exact ⟨x, hH hx, hfills⟩
  files name bytes hfile := by
    rw [hL2] at hfile
    refine (h.files name bytes hfile).imp id ?_
    rintro ⟨x, hx, hyields⟩
    exact ⟨x, hH hx, hyields⟩

instance : Std.Refl (Gathers e w₀ K) where
  refl w := ⟨rfl, List.prefix_refl _, fun H _ h => by rwa [arrived_self, List.append_nil]⟩

instance : IsTrans (World σ) (Gathers e w₀ K) where
  trans a b c hab hbc := by
    refine ⟨hbc.now.trans hab.now, hab.trace.trans hbc.trace, fun H hK h => ?_⟩
    rw [arrived_append hab.trace hbc.trace hbc.now, ← List.append_assoc]
    exact hbc.sourced _ (fun x hx => List.mem_append_left _ (hK hx)) (hab.sourced H hK h)

/-- Requests that leave the caches alone. -/
theorem gathers_sent (hsame : SameCaches w w') (htrace : w.trace <+: w'.trace) :
    Gathers e w₀ K w w' :=
  ⟨hsame.now, htrace, fun _ _ h => h.mono (Nat.le_of_eq hsame.now.symm)
    (fun _ hx => List.mem_append_left _ hx)
    (fun _ hx => (List.mem_append.mp hx).imp id mem_arrived) hsame.L1 hsame.L2⟩

theorem Sends.extends {Q : Request → Prop} (h : Sends e Q w w') : w.trace <+: w'.trace := by
  obtain ⟨rs, -, -, ht⟩ := h
  exact ⟨_, ht.symm⟩

theorem gathers_of_sends {α : Type} {m : Sia σ α} {Q : Request → Prop}
    (hsame : Exec.Keeps SameCaches m) (hsends : Exec.Keeps (Sends e Q) m) :
    Exec.Keeps (Gathers e w₀ K) m := fun w => gathers_sent (hsame w) (hsends w).extends

/-! ## Lookups and flushes -/

theorem entry_fetched {key key' : CStr} {r : Request} {entry : L1Entry}
    (h : (fetched e key r w).entry key' = some entry) :
    (key' = key ∧ entry = ⟨(e.server w.server r).1.body, w.now + SIA_METACACHE_TTL⟩) ∨
      w.entry key' = some entry := by
  cases hL : w.L1 with
  | none => simp [World.entry, fetched, hL] at h
  | some cache =>
    by_cases hk : key' = key
    · subst hk
      exact Or.inl ⟨rfl, by simpa [World.entry, fetched, hL, eq_comm] using h⟩
    · exact Or.inr (by simpa [World.entry, fetched, hL, hk] using h)

theorem lookup_gathers (l : Lookup) :
    Exec.Keeps (Gathers e w₀ K) (cachedRequest e (l.key e) l.request) := by
  intro w
  cases hhit : mc_lookup w (l.key e) with
  | some body =>
    rw [cachedRequest_hit hhit]
    exact Std.Refl.refl w
  | none =>
    rw [cachedRequest_miss hhit]
    have htrace : w.trace <+: (fetched e (l.key e) l.request w).trace := ⟨_, rfl⟩
    refine ⟨rfl, htrace, fun H _ h => ⟨fun x hx => ?_, fun key entry hentry => ?_,
      fun name bytes hfile => ?_⟩⟩
    · exact (List.mem_append.mp hx).elim (h.past x) fun hx => Nat.le_of_eq (mem_arrived hx)
    · rw [arrived_fetched]
      rcases entry_fetched hentry with ⟨rfl, rfl⟩ | hold
      · exact Or.inr ⟨_, List.mem_append_right _ (List.mem_singleton_self _), l, rfl, rfl, rfl⟩
      · refine (h.entries key entry hold).imp id ?_
        rintro ⟨x, hx, hfills⟩
        exact ⟨x, List.mem_append_left _ hx, hfills⟩
    · refine (h.files name bytes hfile).imp id ?_
      rintro ⟨x, hx, hyields⟩
      exact ⟨x, List.mem_append_left _ hx, hyields⟩

theorem lookups_gather (path : CStr) : LookupsKeep e (Gathers e w₀ K) path :=
  ⟨lookup_gathers (.object path), lookup_gathers (.list path),
    lookup_gathers (.object (withSlash path)), lookup_gathers (.list (withSlash path))⟩

theorem mc_del_gathers (key : CStr) : Exec.Keeps (Gathers e w₀ K) (mc_del (σ := σ) key) := by
  intro w
  refine ⟨rfl, List.prefix_refl _, fun H _ h => ?_⟩
  have hnone : arrived w (mc_del key w).2 = [] := arrived_self w
  rw [hnone, List.append_nil]
  refine ⟨h.past, fun key' entry hentry => ?_, h.files⟩
  rw [World.entry_del] at hentry
  split at hentry
  · cases hentry
  · exact h.entries key' entry hentry

theorem flush_gathers (path : CStr) : Exec.Keeps (Gathers e w₀ K) (siafs_flush e path) :=
  Exec.keeps_bind (mc_del_gathers _) fun _ =>
    Exec.keeps_bind (mc_del_gathers _) fun _ => Exec.keeps_pure _

/-! ## Reads -/

/-- What follows a request may fill the caches from its reply. -/
theorem send_gathers {α : Type} {r : Request} {f : Reply → Sia σ α}
    (hf : ∀ w : World σ, Exec.Keeps (Gathers e w₀ (⟨w.now, r, (e.server w.server r).1⟩ :: K))
      (f (e.server w.server r).1)) :
    Exec.Keeps (Gathers e w₀ K) (send e r >>= f) := by
  intro w
  rw [Exec.bind_of_ok (send_apply e r w)]
  have hsend : Gathers e w₀ K w (sendAll e [r] w) := gathers_sent ⟨rfl, rfl, rfl⟩ ⟨_, rfl⟩
  have h := hf w (sendAll e [r] w)
  refine ⟨h.now, hsend.trace.trans h.trace, fun H hK hH => ?_⟩
  rw [arrived_append hsend.trace h.trace h.now, ← List.append_assoc]
  refine h.sourced _ (List.cons_subset.mpr ⟨?_, fun y hy => ?_⟩) (hsend.sourced H hK hH)
  · rw [arrived_sendAll]
    exact List.mem_append_right _ (List.mem_singleton_self _)
  · exact List.mem_append_left _ (hK hy)

theorem disk_set_gathers {x : Arrival} {path value : CStr} {offset : Nat} {last : Int}
    (hx : x ∈ K) (hrequest : x.request = .worker_get path offset last) (hok : x.reply.ok = true)
    (hstatus : x.reply.status < 400) (hvalue : headerValue x.reply.contentLength = .ok value)
    (size : Nat) :
    Exec.Keeps (Gathers e w₀ K)
      (disk_set (disk_key e path) x.reply.body (u64 (strtol value)) size offset) := by
  intro w
  cases hL : w.L2 with
  | none =>
    rw [disk_set_off hL]
    exact Std.Refl.refl w
  | some files =>
    cases hread : readPayload x.reply.body (u64 (strtol value)) with
    | error y =>
      rw [disk_set_unread hL hread]
      exact Std.Refl.refl w
    | ok bytes =>
      rw [disk_set_written hL hread]
      refine ⟨rfl, List.prefix_refl _, fun H hK h => ?_⟩
      have hnone : ∀ L2, arrived w { w with L2 := L2 } = [] := fun _ => arrived_self w
      rw [hnone, List.append_nil]
      refine ⟨h.past, h.entries, fun name stored hfile => ?_⟩
      by_cases hname : name = disk_name (disk_key e path) size offset
      · subst hname
        obtain rfl : bytes = stored := by simpa using hfile
        exact Or.inr ⟨x, hK hx, _, size, offset, rfl, path, last, value, rfl, hrequest, hok,
          hstatus, hvalue, hread⟩
      · refine h.files name stored ?_
        rw [hL]
        simpa [hname] using hfile

/-- What a read does with the reply to its range. -/
theorem range_gathers {x : Arrival} {path : CStr} {offset : Nat} {last : Int} (hx : x ∈ K)
    (hrequest : x.request = .worker_get path offset last) (size : Nat) :
    Exec.Keeps (Gathers e w₀ K)
      (if x.reply.ok ∧ x.reply.status < 400 then do
        let value ← Exec.lift (headerValue x.reply.contentLength)
        let etag ← sia_bus_object_etag e path
        if etag.isSome then
          disk_set (disk_key e path) x.reply.body (u64 (strtol value)) size offset
        pure (x.reply.body, u64 (strtol value))
      else pure (none, 0) : Sia σ (Option Body × Nat)) := by
  split
  · rename_i hok
    refine Exec.keeps_lift_bind fun value hvalue => ?_
    refine Exec.keeps_bind ((Exec.keeps_bind (lookups_gather path).object fun _ =>
      Exec.keeps_pure _)) fun etag => ?_
    split
    · refine Exec.keeps_bind ?_ fun _ => Exec.keeps_pure _
      exact disk_set_gathers hx hrequest hok.1 hok.2 hvalue size
    · exact Exec.keeps_pure _
  · exact Exec.keeps_pure _

theorem get_object_gathers (path : CStr) (size offset : Nat) :
    Exec.Keeps (Gathers e w₀ K) (sia_worker_get_object e path size offset) := by
  refine Exec.keeps_bind (Exec.keeps_get_bind fun w => Std.Refl.refl w) fun hit => ?_
  cases hit with
  | some bytes => exact Exec.keeps_pure _
  | none =>
    refine Exec.keeps_bind (lookups_gather path).object_size fun object_size => ?_
    refine send_gathers fun w => ?_
    exact range_gathers (x := ⟨w.now, _, (e.server w.server _).1⟩) List.mem_cons_self rfl size

theorem read_gathers (path : CStr) (size offset : Nat) :
    Exec.Keeps (Gathers e w₀ K) (siafs_read e path size offset) := by
  refine Exec.keeps_bind (get_object_gathers path size offset) fun got => ?_
  refine Exec.keeps_bind (Exec.keeps_lift _) fun bytes => ?_
  split
  · exact Exec.keeps_pure _
  · exact Exec.keeps_fault _

/-- A read that finds no file returns nothing, or what the reply to its range brought. -/
theorem read_yields {path : CStr} {size offset : Nat} {bytes : Bytes}
    (hmiss : cachedFile e w path size offset = none)
    (hread : siafs_read e path size offset w = (.ok bytes, w'')) :
    bytes = [] ∨ ∃ x ∈ arrived w w'', x.Yields e (disk_key e path) offset bytes ∧
      bytes.length ≤ size := by
  obtain ⟨payload, k, hobject, hpayload, hfit⟩ := read_eq_ok_cases hread
  obtain ⟨json, w₁, hjson⟩ := cachedRequest_ok (objectsKey e path) (.objects path) w
  have hsize := object_size_of_json hjson
  have hlooked : Gathers e w [] w (sia_bus_object_size e path w).2 :=
    (lookups_gather path).object_size w
  rw [hsize] at hlooked
  by_cases haccepted : (rangeReply e w₁ path size offset (replySize json)).ok ∧
      (rangeReply e w₁ path size offset (replySize json)).status < 400
  · obtain ⟨text, htext, rfl, rfl⟩ := get_object_accepted hmiss hsize haccepted hobject
    let x : Arrival := ⟨w₁.now, rangeRequest path size offset (replySize json),
      rangeReply e w₁ path size offset (replySize json)⟩
    have hrest : Gathers e w [x] (sendAll e [x.request] w₁) w'' := by
      have h : Gathers e w [x] _ _ :=
        range_gathers (List.mem_singleton_self x) rfl size (sendAll e [x.request] w₁)
      rw [get_object_miss hmiss hsize, Exec.bind_of_ok (send_apply e _ w₁)] at hobject
      obtain rfl : _ = w'' := congrArg Prod.snd hobject
      exact h
    refine Or.inr ⟨x, ?_, ⟨path, _, text, rfl, rfl, haccepted.1, haccepted.2, htext, hpayload⟩, ?_⟩
    · have hsent : w₁.trace <+: (sendAll e [x.request] w₁).trace := ⟨_, rfl⟩
      rw [arrived_append hlooked.trace (hsent.trans hrest.trace) hrest.now,
        arrived_append hsent hrest.trace hrest.now, arrived_sendAll]
      exact List.mem_append_right _ (List.mem_append_left _ (List.mem_singleton_self _))
    · rw [(readPayload_eq_ok hpayload).2]
      exact (List.length_take_le _ _).trans hfit
  · rw [read_refused hmiss hsize haccepted] at hread
    cases hread
    exact Or.inl rfl

/-! ## Runs -/

theorem parts_gather : PartsKeep e (Gathers e w₀ K) where
  put path buf := gathers_of_sends (SameCaches.put_object path buf)
    (put_object_sends (Q := fun _ => True) trivial)
  delete path := gathers_of_sends (SameCaches.del_object path)
    (Exec.keeps_bind (sends_send (Q := fun _ => True) trivial) fun _ => Exec.keeps_pure _)
  rename source target mode := gathers_of_sends (SameCaches.rename_object source target mode)
    (Exec.keeps_bind (sends_send (Q := fun _ => True) trivial) fun _ => Exec.keeps_pure _)
  write path buf offset := gathers_of_sends (SameCaches.write path buf offset) (write_sends buf)
  complete path := gathers_of_sends (SameCaches.completeUpload path) (completeUpload_sends path)

theorem perform_gathers (op : Op) : Exec.Keeps (Gathers e w₀ K) (perform e op) :=
  parts_gather.perform lookups_gather (fun path _ => flush_gathers path)
    fun path size offset _ => read_gathers path size offset

theorem sourced_start (w : World σ) : Sourced e w [] w :=
  ⟨nofun, fun _ _ h => Or.inl h, fun _ _ h => Or.inl h⟩

/-- The step: an operation some time later. -/
theorem Sourced.step (h : Sourced e w₀ H w) (c : TimedOp) :
    Sourced e w₀ (H ++ arrived w (c.run e w).2) (c.run e w).2 := by
  have hlater : Sourced e w₀ H { w with now := w.now + c.wait } :=
    h.mono (Nat.le_add_right _ _) (List.Subset.refl _) (fun _ hx => Or.inl hx) rfl rfl
  exact (perform_gathers c.op { w with now := w.now + c.wait }).sourced H (List.nil_subset _) hlater

theorem Sourced.run (h : Sourced e w₀ H w) (cs : List TimedOp) :
    Sourced e w₀ (H ++ arrivals e cs w) (Exec.runAll (TimedOp.run e) cs w).2 := by
  induction cs generalizing w H with
  | nil => rwa [arrivals, List.append_nil]
  | cons c cs ih =>
    have hstep := h.step c
    rw [arrivals]
    rcases hrun : c.run e w with ⟨x | a, w₁⟩
    · rw [Exec.runAll_cons_error hrun]
      rwa [hrun] at hstep
    · rw [hrun] at hstep
      have hstate : (Exec.runAll (TimedOp.run e) (c :: cs) w).2 =
          (Exec.runAll (TimedOp.run e) cs w₁).2 := Exec.runAll_cons_state_ok hrun
      rw [hstate, ← List.append_assoc]
      exact ih hstep

end Gathers

/-- After any run a lookup is answered by one reply to a request with its key, which came
less than `SIA_METACACHE_TTL` seconds ago, or by an entry that the cache held at the start
and that has not expired. -/
theorem lookups_fresh (e : Env σ) (cs : List TimedOp) (w : World σ) (l : Lookup) :
    ∃ payload w' w'', w' = (Exec.runAll (TimedOp.run e) cs w).2 ∧
      l.ask e w' = (.ok payload, w'') ∧
      ((∃ x ∈ arrivals e cs w ++ arrived w' w'', ∃ l' : Lookup, x.request = l'.request ∧
          l'.key e = l.key e ∧ payload = x.reply.body ∧
          x.time ≤ w'.now ∧ w'.now < x.time + SIA_METACACHE_TTL) ∨
        ∃ entry, w.entry (l.key e) = some entry ∧ payload = entry.payload ∧
          w'.now < entry.expire) := by
  have hsourced := (sourced_start (e := e) w).run cs
  rw [List.nil_append] at hsourced
  rw [Lookup.ask_eq]
  cases hhit : mc_lookup (Exec.runAll (TimedOp.run e) cs w).2 (l.key e) with
  | some body =>
    refine ⟨_, _, _, rfl, cachedRequest_hit hhit _, ?_⟩
    rw [mc_lookup_entry] at hhit
    obtain ⟨entry, hentry, hlive⟩ := Option.bind_eq_some_iff.mp hhit
    split at hlive
    · rename_i hnow
      rcases hsourced.entries _ entry hentry with hold | ⟨x, hx, l', hrequest, hkey, rfl⟩
      · exact Or.inr ⟨entry, hold, hlive.symm, hnow⟩
      · exact Or.inl ⟨x, List.mem_append_left _ hx, l', hrequest, hkey.symm, hlive.symm,
          hsourced.past x hx, hnow⟩
    · cases hlive
  | none =>
    refine ⟨_, _, _, rfl, cachedRequest_miss hhit _, Or.inl ⟨⟨_, l.request, _⟩,
      List.mem_append_right _ ?_, l, rfl, rfl, rfl, Nat.le_refl _, ?_⟩⟩
    · rw [arrived_fetched]
      exact List.mem_singleton_self _
    · exact Nat.lt_add_of_pos_right (by decide)

/-- After any run a read returns nothing, or what one reply to a range brought that starts
where the read does and is of a file with the same name in the cache, or what such a file
held at the start. -/
theorem reads_sourced (e : Env σ) (cs : List TimedOp) (w : World σ) (path : CStr)
    (size offset : Nat) {bytes : Bytes} {w'' : World σ}
    (hread : siafs_read e path size offset (Exec.runAll (TimedOp.run e) cs w).2 =
      (.ok bytes, w'')) :
    bytes = [] ∨ (∃ stored, cachedFile e w path size offset = some stored ∧
        bytes = stored.take size) ∨
      ∃ x ∈ arrivals e cs w ++ arrived (Exec.runAll (TimedOp.run e) cs w).2 w'', ∃ stored,
        x.Yields e (disk_key e path) offset stored ∧ bytes = stored.take size := by
  have hsourced := (sourced_start (e := e) w).run cs
  rw [List.nil_append] at hsourced
  cases hfile : cachedFile e (Exec.runAll (TimedOp.run e) cs w).2 path size offset with
  | some stored =>
    rw [read_hit hfile] at hread
    cases hread
    refine Or.inr ?_
    rcases hsourced.files _ stored hfile with hold | ⟨x, hx, key, size', offset', hname, hyields⟩
    · exact Or.inl ⟨stored, hold, rfl⟩
    · obtain ⟨rfl, rfl, rfl⟩ := disk_name_inj hname
      exact Or.inr ⟨x, List.mem_append_left _ hx, stored, hyields, rfl⟩
  | none =>
    rcases read_yields hfile hread with rfl | ⟨x, hx, hyields, hlength⟩
    · exact Or.inl rfl
    · exact Or.inr (Or.inr ⟨x, List.mem_append_right _ hx, bytes, hyields,
        (List.take_of_length_le hlength).symm⟩)

/-- The second of two reads is served from the file that the first one left. -/
theorem reads_sourced_again :
    ∃ x ∈ arrivals hugeMount [⟨0, .read (lit "/a") 2 0⟩]
        (mountedCached (Store.blank.put (lit "/a") [1, 2])), ∃ stored,
      x.Yields hugeMount (disk_key hugeMount (lit "/a")) 0 stored ∧ [1, 2] = stored.take 2 := by
  rcases reads_sourced hugeMount [⟨0, .read (lit "/a") 2 0⟩]
      (mountedCached (Store.blank.put (lit "/a") [1, 2])) (lit "/a") 2 0
      (show _ = (Except.ok [1, 2], _) from rfl) with h | ⟨stored, h, -⟩ | ⟨x, hx, h⟩
  · cases h
  · cases h
  · exact ⟨x, (List.mem_append.mp hx).elim id nofun, h⟩

end SiaFS
