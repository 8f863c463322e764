/-
The L1 cache, `memcached_cache.c`.

An entry is served until `SIA_METACACHE_TTL` seconds have passed.  An empty
payload comes back from the server as a null pointer, which the callers take for
a miss.
-/
import SiaFS.World

namespace SiaFS

variable {σ : Type} (e : Env σ)

/-- `mc_key`: the MD5 sum of `extra::endpoint::path`. -/
def mc_key (endpoint path extra : CStr) : CStr :=
  e.host.md5 (extra ++ lit "::" ++ endpoint ++ lit "::" ++ path)

/-- What `mc_get` finds under a key, `none` for a miss or without the cache. -/
def mc_lookup (w : World σ) (key : CStr) : Option Body :=
  w.L1.bind fun cache => (cache key).bind fun entry =>
    if w.now < entry.expire then entry.payload else none

/-- What is stored under a key. -/
def World.entry (w : World σ) (key : CStr) : Option L1Entry := w.L1.bind fun cache => cache key

theorem mc_lookup_entry (w : World σ) (key : CStr) : mc_lookup w key =
    (w.entry key).bind fun entry => if w.now < entry.expire then entry.payload else none := by
  rw [mc_lookup, World.entry, Option.bind_assoc]

theorem mc_lookup_congr {w w' : World σ} (hL1 : w'.L1 = w.L1) (hnow : w'.now = w.now)
    (key : CStr) : mc_lookup w' key = mc_lookup w key := by
  rw [mc_lookup, mc_lookup, hL1, hnow]

/-- Entries only expire while time passes. -/
theorem mc_lookup_later {w : World σ} {seconds : Nat} {key : CStr} {body : Body}
    (h : mc_lookup { w with now := w.now + seconds } key = some body) :
    mc_lookup w key = some body := by
  cases hL : w.L1 with
  | none => simp [mc_lookup, hL] at h
  | some cache =>
    cases hk : cache key with
    | none => simp [mc_lookup, hL, hk] at h
    | some entry =>
      simp only [mc_lookup, hL, hk, Option.bind_some] at h ⊢
      split at h
      · rw [if_pos (by omega)]
        exact h
      · cases h

def mc_get (key : CStr) : Sia σ (Option Body) := do
  let w ← Exec.get
  pure (mc_lookup w key)

def mc_set (key : CStr) (payload : Option Body) (expiration : Nat) : Sia σ Unit :=
  Exec.modify fun w =>
    { w with
      L1 := w.L1.map fun cache =>
        Function.update cache key (some { payload := payload, expire := w.now + expiration }) }

def mc_del (key : CStr) : Sia σ Unit :=
  Exec.modify fun w => { w with L1 := w.L1.map fun cache => Function.update cache key none }

theorem World.entry_del (key key' : CStr) (w : World σ) :
    (mc_del key w).2.entry key' = if key' = key then none else w.entry key' := by
  show World.entry { w with L1 := w.L1.map fun cache => Function.update cache key none } key' = _
  cases hL : w.L1 with
  | none => simp [World.entry, hL]
  | some cache =>
    by_cases hk : key' = key
    · simp [World.entry, hk]
    · simp [World.entry, hL, hk]

theorem World.entry_set {w : World σ} {key key' : CStr} (payload : Option Body)
    (expiration : Nat) (h : key' ≠ key) :
    (mc_set key payload expiration w).2.entry key' = w.entry key' := by
  show (w.L1.map _).bind _ = w.L1.bind _
  cases w.L1 with
  | none => rfl
  | some cache => exact Function.update_of_ne h _ _

theorem mc_lookup_del (key key' : CStr) (w : World σ) :
    mc_lookup (mc_del key w).2 key' = if key' = key then none else mc_lookup w key' := by
  rw [mc_lookup_entry, mc_lookup_entry, World.entry_del]
  split <;> rfl

end SiaFS
