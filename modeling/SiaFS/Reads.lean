/-
What the reading operations leave alone.

A lookup sends requests that only read, may fill the caches, and touches neither
the list of uploads nor the temporary files.  `Asks Q` says this of two states;
every function below keeps it, so a proof about uploads passes over any number
of lookups at once.
-/
import SiaFS.Fuse

namespace SiaFS

variable {σ : Type} (e : Env σ)

/-- The server after a list of requests, and what they were answered. -/
def askAll : List Request → σ → σ × List (Request × Reply)
  | [], s => (s, [])
  | r :: rs, s =>
    ((askAll rs (e.server s r).2).1, (r, (e.server s r).1) :: (askAll rs (e.server s r).2).2)

theorem askAll_append (rs rs' : List Request) (s : σ) :
    askAll e (rs ++ rs') s =
      ((askAll e rs' (askAll e rs s).1).1,
        (askAll e rs s).2 ++ (askAll e rs' (askAll e rs s).1).2) := by
  induction rs generalizing s with
  | nil => rfl
  | cons r rs ih => simp only [List.cons_append, askAll, ih]

theorem askAll_requests (rs : List Request) (s : σ) :
    ∀ x ∈ (askAll e rs s).2, x.1 ∈ rs := by
  induction rs generalizing s with
  | nil => intro x hx; cases hx
  | cons r rs ih =>
    intro x hx
    rcases List.mem_cons.mp hx with rfl | hx
    · exact List.mem_cons_self
    · exact List.mem_cons_of_mem _ (ih _ x hx)

theorem askAll_requests_eq (rs : List Request) (s : σ) :
    (askAll e rs s).2.map Prod.fst = rs := by
  induction rs generalizing s with
  | nil => rfl
  | cons r rs ih => rw [askAll, List.map_cons, ih]

/-- What holds of the server and each of the requests keeps, holds after them. -/
theorem askAll_keeps {I : σ → Prop} {rs : List Request}
    (h : ∀ r ∈ rs, ∀ s, I s → I (e.server s r).2) {s : σ} (hs : I s) :
    I (askAll e rs s).1 := by
  induction rs generalizing s with
  | nil => exact hs
  | cons r rs ih =>
    exact ih (fun r' hr' => h r' (List.mem_cons_of_mem _ hr')) (h r List.mem_cons_self s hs)

/-- The state after a list of requests. -/
def sendAll (rs : List Request) (w : World σ) : World σ :=
  { w with
    server := (askAll e rs w.server).1
    trace := w.trace ++ (askAll e rs w.server).2 }

@[simp] theorem sendAll_uploads (rs : List Request) (w : World σ) :
    (sendAll e rs w).uploads = w.uploads := rfl

@[simp] theorem sendAll_tmp (rs : List Request) (w : World σ) :
    (sendAll e rs w).tmp = w.tmp := rfl

@[simp] theorem sendAll_names (rs : List Request) (w : World σ) :
    (sendAll e rs w).names = w.names := rfl

theorem sendAll_append (rs rs' : List Request) (w : World σ) :
    sendAll e (rs ++ rs') w = sendAll e rs' (sendAll e rs w) := by
  simp [sendAll, askAll_append]

theorem send_apply (r : Request) (w : World σ) :
    send e r w = (.ok (e.server w.server r).1, sendAll e [r] w) := rfl

/-- From `w` to `w'`, only requests with `Q` were sent, and apart from the caches
nothing else changed. -/
structure Asks (Q : Request → Prop) (w w' : World σ) : Prop where
  uploads : w'.uploads = w.uploads
  tmp : w'.tmp = w.tmp
  names : w'.names = w.names
  appends : w'.appends = w.appends
  now : w'.now = w.now
  asked : ∃ rs, (∀ r ∈ rs, Q r) ∧ w'.server = (askAll e rs w.server).1 ∧
    w'.trace = w.trace ++ (askAll e rs w.server).2

variable {e} {Q : Request → Prop}

instance : Std.Refl (Asks e Q) where
  refl w := ⟨rfl, rfl, rfl, rfl, rfl, [], by simp, rfl, (List.append_nil _).symm⟩

instance : IsTrans (World σ) (Asks e Q) where
  trans a b c hab hbc := by
    obtain ⟨rs, hQ, hs, ht⟩ := hab.asked
    obtain ⟨rs', hQ', hs', ht'⟩ := hbc.asked
    refine ⟨hbc.uploads.trans hab.uploads, hbc.tmp.trans hab.tmp, hbc.names.trans hab.names,
      hbc.appends.trans hab.appends, hbc.now.trans hab.now, rs ++ rs', ?_, ?_, ?_⟩
    · intro r hr
      rcases List.mem_append.mp hr with h | h
      · exact hQ r h
      · exact hQ' r h
    · rw [hs', hs, askAll_append]
    · rw [ht', ht, hs, askAll_append, List.append_assoc]

theorem Asks.mono {Q' : Request → Prop} {w w' : World σ} (h : Asks e Q w w')
    (hQ : ∀ r, Q r → Q' r) : Asks e Q' w w' := by
  obtain ⟨rs, hr, hs, ht⟩ := h.asked
  exact ⟨h.uploads, h.tmp, h.names, h.appends, h.now, rs, fun r hm => hQ r (hr r hm), hs, ht⟩

/-- What the server keeps under requests with `Q` still holds. -/
theorem Asks.server_keeps {I : σ → Prop} {w w' : World σ} (h : Asks e Q w w')
    (hI : ∀ r, Q r → ∀ s, I s → I (e.server s r).2) (hs : I w.server) : I w'.server := by
  obtain ⟨rs, hr, hw, -⟩ := h.asked
  rw [hw]
  exact askAll_keeps e (fun r hm => hI r (hr r hm)) hs

/-- Every request that `w'` has over `w` has `Q`. -/
theorem Asks.trace_eq {w w' : World σ} (h : Asks e Q w w') :
    ∃ t, w'.trace = w.trace ++ t ∧ ∀ x ∈ t, Q x.1 := by
  obtain ⟨rs, hr, -, ht⟩ := h.asked
  exact ⟨_, ht, fun x hx => hr _ (askAll_requests e rs _ x hx)⟩

theorem keeps_send {r : Request} (hr : Q r) : Exec.Keeps (Asks e Q) (send e r) := by
  intro w
  exact ⟨rfl, rfl, rfl, rfl, rfl, [r], by simpa using hr, rfl, rfl⟩

/-- A change of the caches alone. -/
theorem asks_caches (w : World σ) (L1 : Option (CStr → Option L1Entry))
    (L2 : Option (CStr → Option Bytes)) : Asks e Q w { w with L1 := L1, L2 := L2 } :=
  ⟨rfl, rfl, rfl, rfl, rfl, [], by simp, rfl, (List.append_nil _).symm⟩

/-! ## Lookups -/

/-- A request that only reads. -/
def Request.IsRead : Request → Prop
  | .objects _ | .objects_list _ | .worker_get _ _ _ => True
  | _ => False

theorem keeps_mc_get (key : CStr) : Exec.Keeps (Asks e Q) (mc_get (σ := σ) key) :=
  Exec.keeps_get_bind fun w => Std.Refl.refl w

theorem keeps_mc_set (key : CStr) (payload : Option Body) (expiration : Nat) :
    Exec.Keeps (Asks e Q) (mc_set (σ := σ) key payload expiration) :=
  Exec.keeps_modify fun w => asks_caches w _ w.L2

theorem keeps_mc_del (key : CStr) : Exec.Keeps (Asks e Q) (mc_del (σ := σ) key) :=
  Exec.keeps_modify fun w => asks_caches w _ w.L2

theorem keeps_cachedRequest {key : CStr} {r : Request} (hr : Q r) :
    Exec.Keeps (Asks e Q) (cachedRequest e key r) := by
  refine Exec.keeps_bind (keeps_mc_get key) fun payload => ?_
  cases payload with
  | some body => exact Exec.keeps_pure _
  | none =>
    refine Exec.keeps_bind (keeps_send hr) fun reply => ?_
    exact Exec.keeps_bind (keeps_mc_set _ _ _) fun _ => Exec.keeps_pure _

/-- The state after a miss: the reply is cached. -/
def fetched (e : Env σ) (key : CStr) (r : Request) (w : World σ) : World σ :=
  { sendAll e [r] w with
    L1 := w.L1.map fun cache =>
      Function.update cache key
        (some { payload := (e.server w.server r).1.body, expire := w.now + SIA_METACACHE_TTL }) }

theorem cachedRequest_hit {w : World σ} {key : CStr} {body : Body}
    (h : mc_lookup w key = some body) (r : Request) :
    cachedRequest e key r w = (.ok (some body), w) := by
  have hget : mc_get key w = (.ok (some body), w) := by
    rw [mc_get, Exec.get_bind, h]
    rfl
  rw [cachedRequest, Exec.bind_of_ok hget]
  rfl

theorem cachedRequest_miss {w : World σ} {key : CStr} (h : mc_lookup w key = none)
    (r : Request) :
    cachedRequest e key r w = (.ok (e.server w.server r).1.body, fetched e key r w) := by
  have hget : mc_get key w = (.ok none, w) := by
    rw [mc_get, Exec.get_bind, h]
    rfl
  rw [cachedRequest, Exec.bind_of_ok hget]
  exact Exec.bind_of_ok (send_apply e r w)

/-- A metadata request always answers. -/
theorem cachedRequest_ok (key : CStr) (r : Request) (w : World σ) :
    ∃ payload w', cachedRequest e key r w = (.ok payload, w') := by
  cases hhit : mc_lookup w key with
  | some body => exact ⟨_, _, cachedRequest_hit hhit r⟩
  | none => exact ⟨_, _, cachedRequest_miss hhit r⟩

/-- What a miss keeps, the request keeps. -/
theorem cachedRequest_keeps {R : World σ → World σ → Prop} [Std.Refl R] {key : CStr} {r : Request}
    (h : ∀ w, mc_lookup w key = none → R w (fetched e key r w)) :
    Exec.Keeps R (cachedRequest e key r) := by
  intro w
  cases hhit : mc_lookup w key with
  | some body =>
    rw [cachedRequest_hit hhit]
    exact Std.Refl.refl w
  | none =>
    rw [cachedRequest_miss hhit]
    exact h w hhit

/-- What is cached after a miss was so before, or is the reply. -/
theorem mc_lookup_fetched {w : World σ} {key key' : CStr} {r : Request} {body : Body}
    (h : mc_lookup (fetched e key r w) key' = some body) :
    (key' = key ∧ (e.server w.server r).1.body = some body) ∨ mc_lookup w key' = some body := by
  cases hL : w.L1 with
  | none => simp [mc_lookup, fetched, hL] at h
  | some cache =>
    by_cases hk : key' = key
    · subst hk
      exact Or.inl ⟨rfl, by simpa [mc_lookup, fetched, sendAll, hL, SIA_METACACHE_TTL] using h⟩
    · exact Or.inr (by simpa [mc_lookup, fetched, sendAll, hL, hk] using h)

theorem keeps_objects_json (path : CStr) :
    Exec.Keeps (Asks e Request.IsRead) (sia_bus_objects_json e path) :=
  keeps_cachedRequest trivial

theorem keeps_objects_list_json (path : CStr) :
    Exec.Keeps (Asks e Request.IsRead) (sia_bus_objects_list_json e path) :=
  keeps_cachedRequest trivial

/-- The fields of an object are those of its reply. -/
theorem object_size_of_json {w w' : World σ} {path : CStr} {payload : Option Body}
    (h : sia_bus_objects_json e path w = (.ok payload, w')) :
    sia_bus_object_size e path w = (.ok (replySize payload), w') := by
  rw [sia_bus_object_size]
  exact Exec.bind_of_ok h

theorem object_etag_of_json {w w' : World σ} {path : CStr} {payload : Option Body}
    (h : sia_bus_objects_json e path w = (.ok payload, w')) :
    sia_bus_object_etag e path w = (.ok (replyEtag payload), w') := by
  rw [sia_bus_object_etag]
  exact Exec.bind_of_ok h

/-- Whatever the metadata requests for a path keep, the functions that make them
keep. -/
structure LookupsKeep (e : Env σ) (R : World σ → World σ → Prop) (path : CStr) : Prop where
  object : Exec.Keeps R (sia_bus_objects_json e path)
  list : Exec.Keeps R (sia_bus_objects_list_json e path)
  entries : Exec.Keeps R (sia_bus_objects_json e (withSlash path))
  listDir : Exec.Keeps R (sia_bus_objects_list_json e (withSlash path))

namespace LookupsKeep

variable {R : World σ → World σ → Prop} [Std.Refl R] [IsTrans (World σ) R] {path : CStr}
  (h : LookupsKeep e R path)

include h

theorem exists_ : Exec.Keeps R (sia_bus_objects_exists e path) :=
  Exec.keeps_bind h.list fun _ => Exec.keeps_lift _

theorem is_dir : Exec.Keeps R (sia_bus_objects_is_dir e path) :=
  Exec.keeps_bind h.listDir fun _ => Exec.keeps_lift _

theorem is_file : Exec.Keeps R (sia_bus_objects_is_file e path) :=
  Exec.keeps_bind h.list fun _ => Exec.keeps_lift _

theorem object_size : Exec.Keeps R (sia_bus_object_size e path) :=
  Exec.keeps_bind h.object fun _ => Exec.keeps_pure _

theorem modtime : Exec.Keeps R (sia_bus_objects_modtime e path) := by
  refine Exec.keeps_bind h.is_file fun is_file => ?_
  cases is_file with
  | true => exact Exec.keeps_bind h.object fun _ => Exec.keeps_pure _
  | false =>
    refine Exec.keeps_bind h.is_dir fun is_dir => ?_
    cases is_dir with
    | true => exact Exec.keeps_bind h.listDir fun _ => Exec.keeps_lift _
    | false => exact Exec.keeps_pure _

theorem unixtime : Exec.Keeps R (sia_bus_objects_unixtime e path) := by
  refine Exec.keeps_bind h.modtime fun _ => ?_
  refine Exec.keeps_bind h.modtime fun modtime => ?_
  refine Exec.keeps_bind (Exec.keeps_lift _) fun timestamp => ?_
  cases e.host.strptime timestamp <;> exact Exec.keeps_pure _

theorem getattr : Exec.Keeps R (siafs_getattr e path) := by
  refine Exec.keeps_get_bind fun w₀ => ?_
  by_cases hroot : path = [slash]
  · rw [if_pos hroot]
    exact Std.Refl.refl w₀
  · rw [if_neg hroot]
    refine (Exec.keeps_bind h.is_file fun is_file => ?_) w₀
    cases is_file with
    | true =>
      refine Exec.keeps_bind h.object_size fun _ => ?_
      exact Exec.keeps_bind h.unixtime fun _ => Exec.keeps_pure _
    | false =>
      refine Exec.keeps_bind h.is_dir fun is_dir => ?_
      cases is_dir with
      | true => exact Exec.keeps_bind h.unixtime fun _ => Exec.keeps_pure _
      | false => exact Exec.keeps_pure _

theorem readdir : Exec.Keeps R (siafs_readdir e path) := by
  refine Exec.keeps_bind h.entries fun _ => ?_
  exact Exec.keeps_bind (Exec.keeps_lift _) fun _ => Exec.keeps_pure _

theorem open_ : Exec.Keeps R (siafs_open e path) := by
  refine Exec.keeps_bind h.exists_ fun found => ?_
  cases found with
  | false => exact Exec.keeps_pure _
  | true =>
    refine Exec.keeps_bind h.is_dir fun is_dir => ?_
    cases is_dir <;> exact Exec.keeps_pure _

theorem releaseCheck : Exec.Keeps R (releaseCheck e path) := by
  refine Exec.keeps_bind h.is_file fun is_file => ?_
  cases is_file with
  | true => exact Exec.keeps_pure _
  | false => exact Exec.keeps_bind h.object_size fun _ => Exec.keeps_pure _

end LookupsKeep

theorem lookups_ask (path : CStr) : LookupsKeep e (Asks e Request.IsRead) path :=
  ⟨keeps_objects_json _, keeps_objects_list_json _, keeps_objects_json _,
    keeps_objects_list_json _⟩

theorem keeps_is_dir (path : CStr) :
    Exec.Keeps (Asks e Request.IsRead) (sia_bus_objects_is_dir e path) :=
  (lookups_ask path).is_dir

theorem keeps_is_file (path : CStr) :
    Exec.Keeps (Asks e Request.IsRead) (sia_bus_objects_is_file e path) :=
  (lookups_ask path).is_file

theorem keeps_getattr (path : CStr) :
    Exec.Keeps (Asks e Request.IsRead) (siafs_getattr e path) := (lookups_ask path).getattr

theorem keeps_readdir (path : CStr) :
    Exec.Keeps (Asks e Request.IsRead) (siafs_readdir e path) := (lookups_ask path).readdir

theorem keeps_open (path : CStr) :
    Exec.Keeps (Asks e Request.IsRead) (siafs_open e path) := (lookups_ask path).open_

/-- What the writing of a file keeps, `disk_set` keeps. -/
theorem disk_set_keeps {R : World σ → World σ → Prop} [Std.Refl R] {key : CStr} {size offset : Nat}
    (h : ∀ (w : World σ) files bytes, w.L2 = some files →
      R w { w with L2 := some (Function.update files (disk_name key size offset) (some bytes)) })
    (payload : Option Body) (len : Nat) :
    Exec.Keeps R (disk_set key payload len size offset) := by
  intro w
  cases hL : w.L2 with
  | none =>
    rw [disk_set_off hL]
    exact Std.Refl.refl w
  | some files =>
    cases hread : readPayload payload len with
    | error x =>
      rw [disk_set_unread hL hread]
      exact Std.Refl.refl w
    | ok bytes =>
      rw [disk_set_written hL hread]
      exact h w files bytes hL

theorem keeps_disk_set (key : CStr) (payload : Option Body) (len size offset : Nat) :
    Exec.Keeps (Asks e Q) (disk_set (σ := σ) key payload len size offset) :=
  disk_set_keeps (fun w _ _ _ => asks_caches w w.L1 _) payload len

/-- Whatever the requests of a read and its file keep, the read keeps. -/
structure ReadKeeps (e : Env σ) (R : World σ → World σ → Prop) (path : CStr) (size offset : Nat) :
    Prop where
  object : Exec.Keeps R (sia_bus_objects_json e path)
  range : ∀ first last, Exec.Keeps R (send e (.worker_get path first last))
  file : ∀ payload len, Exec.Keeps R (disk_set (disk_key e path) payload len size offset)

namespace ReadKeeps

variable {R : World σ → World σ → Prop} [Std.Refl R] [IsTrans (World σ) R] {path : CStr}
  {size offset : Nat} (h : ReadKeeps e R path size offset)

include h

theorem get_object : Exec.Keeps R (sia_worker_get_object e path size offset) := by
  refine Exec.keeps_bind (Exec.keeps_get_bind fun w => Std.Refl.refl w) fun hit => ?_
  cases hit with
  | some bytes => exact Exec.keeps_pure _
  | none =>
    refine Exec.keeps_bind (Exec.keeps_bind h.object fun _ => Exec.keeps_pure _) fun object_size => ?_
    refine Exec.keeps_bind (h.range _ _) fun reply => ?_
    by_cases hok : reply.ok ∧ reply.status < 400
    · rw [if_pos hok]
      refine Exec.keeps_bind (Exec.keeps_lift _) fun value => ?_
      refine Exec.keeps_bind (Exec.keeps_bind h.object fun _ => Exec.keeps_pure _) fun etag => ?_
      cases etag with
      | some etag => exact Exec.keeps_bind (h.file _ _) fun _ => Exec.keeps_pure _
      | none => exact Exec.keeps_pure _
    · rw [if_neg hok]
      exact Exec.keeps_pure _

theorem read : Exec.Keeps R (siafs_read e path size offset) := by
  refine Exec.keeps_bind h.get_object fun got => ?_
  refine Exec.keeps_bind (Exec.keeps_lift _) fun bytes => ?_
  by_cases hfit : got.2 ≤ size
  · rw [if_pos hfit]
    exact Exec.keeps_pure _
  · rw [if_neg hfit]
    exact Exec.keeps_fault _

end ReadKeeps

theorem read_asks (path : CStr) (size offset : Nat) :
    ReadKeeps e (Asks e Request.IsRead) path size offset :=
  ⟨keeps_objects_json path, fun _ _ => keeps_send trivial, fun _ _ => keeps_disk_set _ _ _ _ _⟩

theorem keeps_read (path : CStr) (size offset : Nat) :
    Exec.Keeps (Asks e Request.IsRead) (siafs_read e path size offset) :=
  (read_asks path size offset).read

end SiaFS
