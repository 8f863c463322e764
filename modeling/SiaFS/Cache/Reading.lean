/-
Reads of objects that do not change.

Over a server that answers ranges as documented, every read returns the bytes of
the object in the range asked for: a file of the L2 cache holds just these, and the
size that clamps the range is the true one, be it cached or not.
-/
import SiaFS.Cache.Files
import SiaFS.Cache.Coherence
import SiaFS.Cache.Keys

namespace SiaFS

variable {σ : Type}

/-- What is documented of the server about the objects under the paths `P`. -/
structure Ranged (server : σ → Request → Reply × σ) (objects : σ → CStr → Option Bytes)
    (P : CStr → Prop) : Prop where
  objects_keeps : ∀ s path, objects (server s (.objects path)).2 = objects s
  worker_get_keeps : ∀ s path first last,
    objects (server s (.worker_get path first last)).2 = objects s
  /-- The true size, and an ETag. -/
  described : ∀ s path body, P path → objects s path = some body →
    objectField (server s (.objects path)).1.body (lit "size") = some (.num body.length) ∧
      ∃ tag, objectField (server s (.objects path)).1.body (lit "eTag") = some (.str tag)
  /-- A range within the object. -/
  range : ∀ s path body (first last : Nat), P path → objects s path = some body →
    first ≤ last → last < body.length →
    (server s (.worker_get path first last)).1.Brings ((body.drop first).take (last - first + 1))
  /-- A range that ends before it begins. -/
  refused : ∀ s path body (first last : Int), P path → objects s path = some body →
    last < first → 400 ≤ (server s (.worker_get path first last)).1.status

theorem Ranged.mono {server : σ → Request → Reply × σ} {objects : σ → CStr → Option Bytes}
    {P Q : CStr → Prop} (h : Ranged server objects P) (hQ : ∀ path, Q path → P path) :
    Ranged server objects Q where
  objects_keeps := h.objects_keeps
  worker_get_keeps := h.worker_get_keeps
  described s path body hq := h.described s path body (hQ path hq)
  range s path body first last hq := h.range s path body first last (hQ path hq)
  refused s path body first last hq := h.refused s path body first last (hQ path hq)

/-- MD5 does not collide on the strings hashed for reads of the paths. -/
structure Hashed (e : Env σ) (P : CStr → Prop) : Prop where
  path : Set.InjOn e.host.md5 {path | P path}
  object : Set.InjOn e.host.md5 {s | ∃ path, P path ∧ (Lookup.object path).text = s}

theorem Hashed.mono {e : Env σ} {P Q : CStr → Prop} (h : Hashed e Q)
    (hQ : ∀ path, P path → Q path) : Hashed e P where
  path := h.path.mono hQ
  object := h.object.mono (by
    rintro _ ⟨path, hp, rfl⟩
    exact ⟨path, hQ path hp, rfl⟩)

/-- The server stores the contents, and the caches agree with them. -/
structure Exact (e : Env σ) (objects : σ → CStr → Option Bytes) (P : CStr → Prop)
    (content : CStr → Bytes) (w : World σ) : Prop where
  stored : ∀ path, P path → objects w.server path = some (content path)
  sizes : ∀ path, P path → ∀ body, mc_lookup w (objectsKey e path) = some body →
    replySize (some body) = (content path).length
  files : ∀ path, P path → ∀ size offset bytes, cachedFile e w path size offset = some bytes →
    bytes.take size = ((content path).drop offset).take size

section Step

variable {e : Env σ} {objects : σ → CStr → Option Bytes} {P : CStr → Prop}
  {content : CStr → Bytes} {w : World σ} {path : CStr} {size offset : Nat}

/-- A range within the object, clamped or not. -/
theorem take_clamped (c : Bytes) (size : Nat) (h : offset < c.length) :
    (c.drop offset).take (min (offset + size) c.length - 1 - offset + 1) =
      (c.drop offset).take size ∨ size = 0 := by
  rcases Nat.eq_zero_or_pos size with hzero | hpos
  · exact Or.inr hzero
  · refine Or.inl (List.take_eq_take_iff.mpr ?_)
    rw [List.length_drop]
    omega

theorem Ranged.replySize (hB : Ranged e.server objects P) {s : σ} {body : Bytes} (hp : P path)
    (hbody : objects s path = some body) (h31 : body.length < 2 ^ 31) :
    replySize (e.server s (.objects path)).1.body = body.length := by
  rw [SiaFS.replySize, (hB.described s path body hp hbody).1]
  show u64 (Json.valueint (.num body.length)) = body.length
  rw [Json.valueint, u64]
  omega

theorem Exact.objects_json (hB : Ranged e.server objects P) (hH : Hashed e P)
    (hw : Exact e objects P content w) (hsmall : ∀ path, P path → (content path).length < 2 ^ 31)
    (hp : P path) :
    ∃ payload w', sia_bus_objects_json e path w = (.ok payload, w') ∧
      replySize payload = (content path).length ∧ Exact e objects P content w' := by
  cases hhit : mc_lookup w (objectsKey e path) with
  | some body =>
    exact ⟨_, _, cachedRequest_hit hhit _, hw.sizes path hp body hhit, hw⟩
  | none =>
    have hsize := hB.replySize hp (hw.stored path hp) (hsmall path hp)
    refine ⟨_, _, cachedRequest_miss hhit _, hsize, ⟨fun p hp' => ?_, fun p hp' body hbody => ?_,
      hw.files⟩⟩
    · show objects (e.server w.server (.objects path)).2 p = _
      rw [hB.objects_keeps]
      exact hw.stored p hp'
    · rcases mc_lookup_fetched hbody with ⟨hkey, hreply⟩ | hold
      · have htext : (Lookup.object p).text = (Lookup.object path).text :=
          hH.object ⟨p, hp', rfl⟩ ⟨path, hp, rfl⟩ hkey
        cases Lookup.text_injective htext
        rw [← hreply]
        exact hsize
      · exact hw.sizes p hp' body hold

theorem Exact.range_request (hB : Ranged e.server objects P) (hw : Exact e objects P content w)
    (path' : CStr) (first last : Int) :
    Exact e objects P content (sendAll e [.worker_get path' first last] w) := by
  refine ⟨fun p hp' => ?_, hw.sizes, hw.files⟩
  show objects (e.server w.server (.worker_get path' first last)).2 p = _
  rw [hB.worker_get_keeps]
  exact hw.stored p hp'

theorem Exact.keepFile (hH : Hashed e P) (hw : Exact e objects P content w) (hp : P path)
    {bytes : Bytes} (hbytes : bytes.take size = ((content path).drop offset).take size) :
    Exact e objects P content (w.keepFile e path size offset bytes) := by
  refine ⟨hw.stored, hw.sizes, fun p hp' size' offset' stored h => ?_⟩
  rcases cachedFile_keepFile hH.path hp hp' h with ⟨rfl, rfl, rfl, rfl⟩ | hold
  · exact hbytes
  · exact hw.files p hp' _ _ _ hold

/-- A read returns the range of the object and leaves the caches in agreement. -/
theorem Exact.read (hB : Ranged e.server objects P) (hH : Hashed e P)
    (hw : Exact e objects P content w)
    (hlength : ∀ path, P path → 0 < (content path).length ∧ (content path).length < 2 ^ 31)
    (hp : P path) (hsize : 1 ≤ size) (hsize63 : size < 2 ^ 63) (hoffset : offset < 2 ^ 63) :
    ∃ w', siafs_read e path size offset w = (.ok (((content path).drop offset).take size), w') ∧
      Exact e objects P content w' := by
  cases hfile : cachedFile e w path size offset with
  | some stored =>
    rw [← hw.files path hp size offset stored hfile]
    exact ⟨w, read_hit hfile, hw⟩
  | none =>
    have hsmall := fun path hp => (hlength path hp).2
    obtain ⟨payload, w₁, hjson, hn, hw₁⟩ := hw.objects_json hB hH hsmall hp
    have hobject := object_size_of_json hjson
    rw [hn] at hobject
    have hlast := rangeEnd_eq (hlength path hp).1 (hsmall path hp) hsize hsize63 hoffset
    have hstored := hw₁.stored path hp
    by_cases hlt : offset < (content path).length
    · have hbrings := hB.range w₁.server path _ offset
        (min (offset + size) (content path).length - 1) hp hstored (by omega) (by omega)
      rw [(take_clamped _ size hlt).resolve_right (by omega)] at hbrings
      have hcast : ((min (offset + size) (content path).length - 1 : Nat) : Int) =
          s64 (rangeEnd size offset (content path).length) := by
        rw [hlast]
        omega
      rw [hcast] at hbrings
      obtain ⟨payload', w₂, hjson', -, hw₂⟩ :=
        (hw₁.range_request hB path offset _).objects_json hB hH hsmall hp
      have hetag := object_etag_of_json hjson'
      refine ⟨_, read_served hfile hobject hbrings (List.length_take_le _ _) hsize63 hetag, ?_⟩
      split
      · exact hw₂.keepFile hH hp (by rw [List.take_take, Nat.min_self])
      · exact hw₂
    · have hrefused := hB.refused w₁.server path _ offset _ hp hstored
        (show s64 (rangeEnd size offset (content path).length) < offset by rw [hlast]; omega)
      have hread := read_refused hfile hobject fun h => absurd h.2 (Nat.not_lt.mpr hrefused)
      rw [List.drop_eq_nil_of_le (Nat.le_of_not_lt hlt), List.take_nil]
      exact ⟨_, hread, hw₁.range_request hB path offset _⟩

theorem Exact.idle (seconds : Nat) (hw : Exact e objects P content w) :
    Exact e objects P content { w with now := w.now + seconds } := by
  refine ⟨hw.stored, fun p hp body hbody => ?_, hw.files⟩
  exact hw.sizes p hp body (mc_lookup_later hbody)

end Step

/-! ## Runs -/

/-- A read, some time after the one before. -/
structure ReadCall where
  wait : Nat
  path : CStr
  size : Nat
  offset : Nat

def ReadCall.run (e : Env σ) (c : ReadCall) : Sia σ Bytes := do
  Call.idle c.wait
  siafs_read e c.path c.size c.offset

/-- The bytes of the object from the offset on, `size` of them if there are as many. -/
def ReadCall.expected (content : CStr → Bytes) (c : ReadCall) : Bytes :=
  ((content c.path).drop c.offset).take c.size

section Runs

variable {e : Env σ} {objects : σ → CStr → Option Bytes} {P : CStr → Prop}
  {content : CStr → Bytes} {w : World σ} (hB : Ranged e.server objects P) (hH : Hashed e P)
  (hlength : ∀ path, P path → 0 < (content path).length ∧ (content path).length < 2 ^ 31)

include hB hH hlength

theorem Exact.run {calls : List ReadCall} (hw : Exact e objects P content w)
    (hcalls : ∀ c ∈ calls, P c.path ∧ 1 ≤ c.size ∧ c.size < 2 ^ 63 ∧ c.offset < 2 ^ 63) :
    ∃ w', Exec.runAll (ReadCall.run e) calls w = (.ok (calls.map (ReadCall.expected content)), w') ∧
      Exact e objects P content w' := by
  induction calls generalizing w with
  | nil => exact ⟨w, rfl, hw⟩
  | cons c calls ih =>
    obtain ⟨hp, hsize, hsize63, hoffset⟩ := hcalls c List.mem_cons_self
    obtain ⟨w₁, hread, hw₁⟩ := (hw.idle c.wait).read hB hH hlength hp hsize hsize63 hoffset
    obtain ⟨w₂, hrest, hw₂⟩ := ih hw₁ fun d hd => hcalls d (List.mem_cons_of_mem _ hd)
    exact ⟨w₂, Exec.runAll_cons_ok hread hrest, hw₂⟩

/-- From empty caches, every read of a run returns the bytes of its object in the
range asked for, whether a file of the cache or the server answers it. -/
theorem reads_exact (hL1 : w.L1 = some fun _ => none) (hL2 : w.L2 = some fun _ => none)
    (hstored : ∀ path, P path → objects w.server path = some (content path))
    {calls : List ReadCall}
    (hcalls : ∀ c ∈ calls, P c.path ∧ 1 ≤ c.size ∧ c.size < 2 ^ 63 ∧ c.offset < 2 ^ 63) :
    ∃ w', Exec.runAll (ReadCall.run e) calls w =
      (.ok (calls.map (ReadCall.expected content)), w') := by
  have hw : Exact e objects P content w := by
    refine ⟨hstored, fun p hp body h => ?_, fun p hp size offset bytes h => ?_⟩
    · simp [mc_lookup, hL1] at h
    · simp [cachedFile, hL2] at h
  obtain ⟨w', hrun, -⟩ := hw.run hB hH hlength hcalls
  exact ⟨w', hrun⟩

end Runs

/-! ## On a server -/

theorem renterd_ranged (refuse : Nat → Bool) :
    Ranged (renterd refuse) Store.data fun path => endsWithSlash path = false where
  objects_keeps s path := congrArg Store.data (renterd_objects_state refuse s path)
  worker_get_keeps s path first last :=
    congrArg Store.data (renterd_worker_get_state refuse s path first last)
  described s path body hslash hbody := by
    rw [renterd, if_neg (by simp [hslash]), hbody]
    exact ⟨rfl, _, rfl⟩
  range s path body first last hslash hbody hle hlt := by
    have hcount : ((last : Int) - first + 1).toNat = last - first + 1 := by omega
    rw [renterd, hbody]
    show Reply.Brings (if (first : Int) ≤ last then _ else _ : Reply × Store).1 _
    rw [if_pos (by omega), hcount]
    exact ⟨rfl, show 206 < 400 by decide, rfl, rfl⟩
  refused s path body first last hslash hbody hlt := by
    rw [renterd, hbody]
    show 400 ≤ (if first ≤ last then _ else _ : Reply × Store).1.status
    rw [if_neg (by omega)]
    exact (by decide : 400 ≤ 416)

/-- The state a mount with both caches starts in. -/
def mountedCached {σ : Type} (s : σ) : World σ :=
  { mounted s (some fun _ => none) with L2 := some fun _ => none }

theorem hashed_hashingMount : Hashed hashingMount (· ∈ hashedPaths) where
  path := hashingHost_injOn.mono fun _ hpath => mem_hashedTexts hpath (Or.inl rfl)
  object := hashingHost_injOn.mono (by
    rintro _ ⟨path, hpath, rfl⟩
    exact mem_hashedTexts hpath (Or.inr (Or.inl rfl)))

/-- Two reads that overlap and the first again, and a read behind the end of another
file. -/
theorem reads_exact_overlapping :
    ∃ w', Exec.runAll (ReadCall.run hashingMount)
        [⟨0, lit "/f", 2, 0⟩, ⟨5, lit "/f", 4, 1⟩, ⟨0, lit "/d", 1, 9⟩, ⟨70, lit "/f", 2, 0⟩]
        (mountedCached ((Store.blank.put (lit "/f") [1, 2, 3]).put (lit "/d") [4])) =
      (.ok [[1, 2], [2, 3], [], [1, 2]], w') := by
  let content : CStr → Bytes := fun path => if path = lit "/f" then [1, 2, 3] else [4]
  have hranged : Ranged hashingMount.server Store.data fun path =>
      path = lit "/f" ∨ path = lit "/d" := (renterd_ranged _).mono (by
    rintro path (rfl | rfl) <;> decide)
  have hhashed : Hashed hashingMount fun path => path = lit "/f" ∨ path = lit "/d" :=
    hashed_hashingMount.mono (by rintro path (rfl | rfl) <;> decide)
  have hlength : ∀ path, path = lit "/f" ∨ path = lit "/d" →
      0 < (content path).length ∧ (content path).length < 2 ^ 31 := by
    rintro path (rfl | rfl) <;> decide
  have hstored : ∀ path, path = lit "/f" ∨ path = lit "/d" →
      ((Store.blank.put (lit "/f") [1, 2, 3]).put (lit "/d") [4]).data path =
        some (content path) := by
    rintro path (rfl | rfl) <;> rfl
  exact reads_exact hranged hhashed hlength (w := mountedCached _) rfl rfl hstored (by simp)

end SiaFS
