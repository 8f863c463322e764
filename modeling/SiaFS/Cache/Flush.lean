/-
What `siafs_flush` takes out of the L1 cache.

`L1Request` has all that the program caches there: the lookups of a path, the network
statistics and the state of the consensus.  The strings hashed for two of them differ,
whatever the paths are.  A flush deletes the entries of the two lookups of its path,
which then go to the server until they are made again.
-/
import SiaFS.Cache.Alongside
import SiaFS.Cache.Keys

namespace SiaFS

variable {σ : Type} (e : Env σ)

/-- An answer from the L1 cache, or else this reply, which is then cached. -/
def cachedReply (key : CStr) (reply : Reply) (expiration : Nat) : Sia σ (Option Body) := do
  let payload ← mc_get key
  match payload with
  | some body => pure (some body)
  | none => do
    mc_set key reply.body expiration
    pure reply.body

def SIA_BLOCKCHAIN_TTL : Nat := 3600

/-- `sia_stats_json`, with the reply of `https://sia.tech/api/stats`. -/
def sia_stats_json (reply : Reply) : Sia σ (Option Body) :=
  cachedReply (mc_key e (lit "api/stats") (lit "*SIA*") (lit "sia_stats_json")) reply
    SIA_BLOCKCHAIN_TTL

/-- `sia_bus_consensus_state_json`, with the reply of `api/bus/consensus/state`. -/
def sia_bus_consensus_state_json (reply : Reply) : Sia σ (Option Body) :=
  cachedReply (mc_key e (lit "api/bus/consensus/state") (lit "*SIA*")
    (lit "sia_bus_consensus_state_json")) reply SIA_BLOCKCHAIN_TTL

/-- A request that the program caches. -/
inductive L1Request
  | lookup (l : Lookup)
  | stats
  | consensus

namespace L1Request

/-- The string that is hashed for the key. -/
def text : L1Request → CStr
  | .lookup l => l.text
  | .stats => lit "sia_stats_json" ++ lit "::" ++ lit "api/stats" ++ lit "::" ++ lit "*SIA*"
  | .consensus =>
    lit "sia_bus_consensus_state_json" ++ lit "::" ++ lit "api/bus/consensus/state" ++ lit "::" ++
      lit "*SIA*"

def key (r : L1Request) : CStr := e.host.md5 r.text

/-- The call that makes the request, with the reply for one that is not a lookup. -/
def call (reply : Reply) : L1Request → Sia σ (Option Body)
  | .lookup (.object path) => sia_bus_objects_json e path
  | .lookup (.list path) => sia_bus_objects_list_json e path
  | .stats => sia_stats_json e reply
  | .consensus => sia_bus_consensus_state_json e reply

/-- A path may hold `::`, but comes last. -/
theorem text_inj {r r' : L1Request} (h : r.text = r'.text) : r = r' := by
  cases r with
  | lookup l =>
    cases r' with
    | lookup l' => rw [Lookup.text_injective h]
    | stats =>
      have := congrArg (fun s : CStr => s[4]?) h
      cases l <;> simp [text, Lookup.text, lit] at this
    | consensus =>
      have := congrArg (fun s : CStr => s[8]?) h
      cases l <;> simp [text, Lookup.text, lit] at this
  | stats =>
    have := congrArg (fun s : CStr => s[4]?) h
    cases r' with
    | lookup l' => cases l' <;> simp [text, Lookup.text, lit] at this
    | stats => rfl
    | consensus => simp [text, lit] at this
  | consensus =>
    have := congrArg (fun s : CStr => s[8]?) h
    cases r' with
    | lookup l' => cases l' <;> simp [text, Lookup.text, lit] at this
    | stats => simp [text, lit] at this
    | consensus => rfl

end L1Request

/-- The requests of a set whose strings MD5 does not confuse have different keys. -/
theorem L1Request.key_inj {H : L1Request → Prop}
    (hmd5 : Set.InjOn e.host.md5 {s | ∃ r, H r ∧ L1Request.text r = s}) {r r' : L1Request}
    (hr : H r) (hr' : H r') (h : r.key e = r'.key e) : r = r' :=
  L1Request.text_inj (hmd5 ⟨r, hr, rfl⟩ ⟨r', hr', rfl⟩ h)

section Entries

variable {e} {w : World σ} {key key' : CStr} {r r' : L1Request} {reply : Reply}

theorem lookup_key (l : Lookup) : (L1Request.lookup l).key e = l.key e := by cases l <;> rfl

theorem lookup_call (l : Lookup) :
    (L1Request.lookup l).call e reply = cachedRequest e (l.key e) l.request := by cases l <;> rfl

/-- A lookup that has no entry goes to the server. -/
theorem lookup_asks {l : Lookup} (h : w.entry (l.key e) = none) :
    (L1Request.lookup l).call e reply w =
      (.ok (l.reply e w.server), fetched e (l.key e) l.request w) := by
  have hmiss : mc_lookup w (l.key e) = none := by
    rw [mc_lookup_entry, h]
    rfl
  rw [lookup_call, cachedRequest_miss hmiss]
  rfl

theorem cachedReply_entry (expiration : Nat) (h : key' ≠ key) :
    (cachedReply key reply expiration w).2.entry key' = w.entry key' := by
  have hget : mc_get key w = (.ok (mc_lookup w key), w) := rfl
  rw [cachedReply, Exec.bind_of_ok hget]
  cases mc_lookup w key with
  | some body => rfl
  | none => exact World.entry_set _ _ h

/-- A call leaves the entries of the other requests alone. -/
theorem call_entry (h : r.key e ≠ key) : (r.call e reply w).2.entry key = w.entry key := by
  cases r with
  | stats => exact cachedReply_entry _ h.symm
  | consensus => exact cachedReply_entry _ h.symm
  | lookup l =>
    rw [lookup_call]
    rw [lookup_key] at h
    cases hlookup : mc_lookup w (l.key e) with
    | some body => rw [cachedRequest_hit hlookup]
    | none =>
      rw [cachedRequest_miss hlookup]
      exact World.entry_set (w := sendAll e [l.request] w) _ _ h.symm

theorem cachedReply_same {w' : World σ} (expiration : Nat)
    (hlookup : mc_lookup w' key = mc_lookup w key) (htrace : w'.trace = w.trace) :
    (cachedReply key reply expiration w').1 = (cachedReply key reply expiration w).1 ∧
      (cachedReply key reply expiration w').2.trace =
        (cachedReply key reply expiration w).2.trace := by
  have hget : ∀ u : World σ, mc_get key u = (.ok (mc_lookup u key), u) := fun _ => rfl
  rw [cachedReply, Exec.bind_of_ok (hget w'), Exec.bind_of_ok (hget w), hlookup]
  cases mc_lookup w key with
  | some body => exact ⟨rfl, htrace⟩
  | none => exact ⟨rfl, htrace⟩

theorem cachedRequest_same {w' : World σ} (request : Request)
    (hlookup : mc_lookup w' key = mc_lookup w key) (hserver : w'.server = w.server)
    (htrace : w'.trace = w.trace) :
    (cachedRequest e key request w').1 = (cachedRequest e key request w).1 ∧
      (cachedRequest e key request w').2.trace = (cachedRequest e key request w).2.trace := by
  cases hw : mc_lookup w key with
  | some body =>
    rw [hw] at hlookup
    rw [cachedRequest_hit hlookup, cachedRequest_hit hw]
    exact ⟨rfl, htrace⟩
  | none =>
    rw [hw] at hlookup
    rw [cachedRequest_miss hlookup, cachedRequest_miss hw, hserver]
    refine ⟨rfl, ?_⟩
    show w'.trace ++ _ = w.trace ++ _
    rw [htrace, hserver]

/-- A call is answered from its own entry, or by the server. -/
theorem call_same {w' : World σ} (hentry : w'.entry (r.key e) = w.entry (r.key e))
    (hnow : w'.now = w.now) (hserver : w'.server = w.server) (htrace : w'.trace = w.trace) :
    (r.call e reply w').1 = (r.call e reply w).1 ∧
      (r.call e reply w').2.trace = (r.call e reply w).2.trace := by
  have hlookup : mc_lookup w' (r.key e) = mc_lookup w (r.key e) := by
    rw [mc_lookup_entry, mc_lookup_entry, hentry, hnow]
  cases r with
  | stats => exact cachedReply_same _ hlookup htrace
  | consensus => exact cachedReply_same _ hlookup htrace
  | lookup l =>
    rw [lookup_call]
    rw [lookup_key] at hlookup
    exact cachedRequest_same _ hlookup hserver htrace

/-- Nor does a run of calls that have other keys. -/
theorem runAll_entry {calls : List (L1Request × Reply)} (h : ∀ c ∈ calls, c.1.key e ≠ key) :
    (Exec.runAll (fun c : L1Request × Reply => c.1.call e c.2) calls w).2.entry key =
      w.entry key := by
  apply Exec.runAll_invariant (I := fun u => World.entry u key = w.entry key) _ rfl
  intro c hc u hu
  rw [call_entry (h c hc), hu]

/-- The two lookups of the path of a flush. -/
theorem flushed_lookup (e : Env σ) (l : Lookup) (w : World σ) :
    (siafs_flush e l.path w).2.entry ((L1Request.lookup l).key e) = none := by
  rw [World.entry_flush, if_pos]
  cases l with
  | object path => exact Or.inl rfl
  | list path => exact Or.inr rfl

theorem flushed_other {path : CStr} (hobject : r.key e ≠ (L1Request.lookup (.object path)).key e)
    (hlist : r.key e ≠ (L1Request.lookup (.list path)).key e) :
    (siafs_flush e path w).2.entry (r.key e) = w.entry (r.key e) := by
  rw [World.entry_flush, if_neg]
  exact not_or.mpr ⟨hobject, hlist⟩

end Entries

/-- The lookup is answered by the server, which is sent its request. -/
def Lookup.GoesToServer (l : Lookup) (w : World σ) : Prop := ∀ reply,
  ((L1Request.lookup l).call e reply w).1 = .ok (l.reply e w.server) ∧
    ((L1Request.lookup l).call e reply w).2.trace =
      w.trace ++ [(l.request, (e.server w.server l.request).1)]

/-- A flush deletes the entries of the two lookups of its path and no other, and changes
nothing else.  What the two fill is what was deleted.  Every other request is answered as
before, and the two go to the server until they are made again. -/
theorem flush_removes_lookups {H : L1Request → Prop}
    (hmd5 : Set.InjOn e.host.md5 {s | ∃ r, H r ∧ L1Request.text r = s}) (path : CStr)
    (hobject : H (.lookup (.object path))) (hlist : H (.lookup (.list path))) (w : World σ) :
    ∃ w', siafs_flush e path w = (.ok 0, w') ∧ { w' with L1 := w.L1 } = w ∧
      (∀ key, w'.entry key =
        if key = mc_key e (lit "api/bus/objects") path (lit "sia_bus_objects_json") ∨
          key = mc_key e (lit "api/bus/objects/list") path (lit "sia_bus_objects_list_json")
        then none else w.entry key) ∧
      (∀ l : Lookup, l.path = path → ∀ reply u key,
        ((L1Request.lookup l).call e reply u).2.entry key ≠ u.entry key → w'.entry key = none) ∧
      (∀ r, H r → r ≠ .lookup (.object path) → r ≠ .lookup (.list path) →
        w'.entry (r.key e) = w.entry (r.key e) ∧
          ∀ reply, (r.call e reply w').1 = (r.call e reply w).1 ∧
            (r.call e reply w').2.trace = (r.call e reply w).2.trace) ∧
      ∀ l : Lookup, l.path = path → ∀ calls : List (L1Request × Reply),
        (∀ c ∈ calls, H c.1 ∧ c.1 ≠ .lookup l) →
        l.GoesToServer e (Exec.runAll (fun c => c.1.call e c.2) calls w').2 := by
  have hgone : ∀ l : Lookup, l.path = path →
      (siafs_flush e path w).2.entry ((L1Request.lookup l).key e) = none := by
    intro l hl
    rw [← hl]
    exact flushed_lookup e l w
  refine ⟨(siafs_flush e path w).2, rfl, rfl, fun key => World.entry_flush e path key w,
    fun l hl reply u key hfilled => ?_, fun r hr hro hrl => ?_, fun l hl calls hcalls reply => ?_⟩
  · have hkey : (L1Request.lookup l).key e = key := by
      by_contra hne
      exact hfilled (call_entry hne)
    rw [← hkey]
    exact hgone l hl
  · have hkept := flushed_other (w := w) (fun hk => hro (L1Request.key_inj e hmd5 hr hobject hk))
      fun hk => hrl (L1Request.key_inj e hmd5 hr hlist hk)
    exact ⟨hkept, fun reply => call_same hkept rfl rfl rfl⟩
  · have hH : H (.lookup l) := by
      subst hl
      cases l with
      | object path => exact hobject
      | list path => exact hlist
    have hstill := runAll_entry (w := (siafs_flush e path w).2) fun c hc hk =>
      (hcalls c hc).2 (L1Request.key_inj e hmd5 (hcalls c hc).1 hH hk)
    rw [hgone l hl, lookup_key] at hstill
    rw [lookup_asks hstill]
    exact ⟨rfl, rfl⟩

/-- An entry of every request, of a path with and without the slash. -/
def everyEntry : World Store :=
  mounted Store.blank (some fun _ => some { payload := some ⟨[123, 125], none⟩, expire := 600 })

theorem flush_removes_lookups_file :
    ∃ w', siafs_flush hashingMount (lit "/f") everyEntry = (.ok 0, w') ∧
      w'.entry ((L1Request.lookup (.list (lit "/f/"))).key hashingMount) =
        everyEntry.entry ((L1Request.lookup (.list (lit "/f/"))).key hashingMount) ∧
      (Lookup.list (lit "/f")).GoesToServer hashingMount w' := by
  let H : L1Request → Prop := fun r => ∃ l : Lookup, l.path ∈ hashedPaths ∧ r = .lookup l
  have hmd5 : Set.InjOn hashingMount.host.md5 {s | ∃ r, H r ∧ r.text = s} :=
    keyed_hashingMount.md5.mono (by
      rintro _ ⟨_, ⟨l, hl, rfl⟩, rfl⟩
      exact ⟨l, hl, rfl⟩)
  have hf : lit "/f" ∈ hashedPaths := by decide
  obtain ⟨w', hflush, _, _, _, hothers, hgone⟩ :=
    flush_removes_lookups hashingMount hmd5 (lit "/f") ⟨.object _, hf, rfl⟩ ⟨.list _, hf, rfl⟩
      everyEntry
  have hkept := hothers (.lookup (.list (lit "/f/"))) ⟨.list _, by decide, rfl⟩ nofun fun h => by
    injection h with h
    injection h with h
    revert h
    decide
  exact ⟨w', hflush, hkept.1, hgone (.list (lit "/f")) rfl [] nofun⟩

end SiaFS
