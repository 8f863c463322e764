/-
What the mounts answer once nothing changes.

Any number of mounts have one bucket, and some of them may have their caches in common.
While objects come and go a lookup is answered with what was there up to
`SIA_METACACHE_TTL` seconds ago, and may say something else to every mount.  When nothing
has changed for so long, each mount answers as it would without a cache, whoever made the
changes before and whatever it then held.
-/
import SiaFS.Cache.Coherence
import SiaFS.Cache.Provenance
import SiaFS.Updates

namespace SiaFS

variable {σ : Type}

/-! ## Entries and their age -/

/-- No entry of a lookup stays for longer than `SIA_METACACHE_TTL` seconds. -/
def Timely (e : Env σ) (P : CStr → Prop) (w : World σ) : Prop :=
  ∀ l : Lookup, P l.path → ∀ entry, w.entry (l.key e) = some entry →
    entry.expire ≤ w.now + SIA_METACACHE_TTL

/-- What came after the time `t` and is still there is like what the server would answer
now. -/
def CurrentSince (e : Env σ) (P : CStr → Prop) (t : Nat) (w : World σ) : Prop :=
  ∀ l : Lookup, P l.path → ∀ entry, w.entry (l.key e) = some entry →
    t + SIA_METACACHE_TTL < entry.expire → l.Alike entry.payload (l.reply e w.server)

/-- A metadata request is about one of the paths. -/
def Request.Within (P : CStr → Prop) (r : Request) : Prop := ∀ l : Lookup, r = l.request → P l.path

/-- From `w` to `w'` no update is sent, and the lookups are those of the paths. -/
def Calms (P : CStr → Prop) (w w' : World σ) : Prop :=
  ∀ x ∈ arrived w w', x.request.Within P ∧ x.request.updates = false

/-- From `w` to `w'` entries are made that stay for `SIA_METACACHE_TTL` seconds, and while
no update is sent they are what the server has. -/
structure Settles (e : Env σ) (P : CStr → Prop) (catalogue : σ → Catalogue) (w w' : World σ) :
    Prop where
  now : w'.now = w.now
  trace : w.trace <+: w'.trace
  timely : (∀ x ∈ arrived w w', x.request.Within P) → Timely e P w → Timely e P w'
  catalogue : Calms P w w' → catalogue w'.server = catalogue w.server
  current : Calms P w w' → ∀ t, CurrentSince e P t w → CurrentSince e P t w'

section Settles

variable {e : Env σ} {P : CStr → Prop} {catalogue : σ → Catalogue} {w w' : World σ} {t : Nat}

/-- At the time `t` nothing has come after it. -/
theorem Timely.current (h : Timely e P w) : CurrentSince e P w.now w := by
  intro l hp entry hentry hlate
  have hexpire := h l hp entry hentry
  omega

/-- When all that was there before is gone, the cache is coherent. -/
theorem CurrentSince.coherent (h : CurrentSince e P t w) (hnow : t + SIA_METACACHE_TTL ≤ w.now) :
    Coherent e P w := by
  intro l hp body hbody
  rw [mc_lookup_entry] at hbody
  obtain ⟨entry, hentry, hlive⟩ := Option.bind_eq_some_iff.mp hbody
  split at hlive
  · rename_i hlater
    rw [← hlive]
    exact h l hp entry hentry (Nat.lt_of_le_of_lt hnow hlater)
  · cases hlive

/-- The same caches, of a mount of the same server, when the catalogue is the same. -/
theorem CurrentSince.congr {e' : Env σ} (hC : Catalogued e'.server catalogue)
    (h : CurrentSince e P t w) (hserver : e'.server = e.server)
    (hmd5 : e'.host.md5 = e.host.md5) (hL1 : w'.L1 = w.L1)
    (hcat : catalogue w'.server = catalogue w.server) : CurrentSince e' P t w' := by
  intro l hp entry hentry hlate
  have hkey : l.key e' = l.key e := by rw [Lookup.key_eq, Lookup.key_eq, hmd5]
  have hreply : l.reply e w.server = l.reply e' w.server := by
    rw [Lookup.reply, Lookup.reply, hserver]
  rw [World.entry, hL1, hkey] at hentry
  have hold := h l hp entry hentry hlate
  rw [hreply] at hold
  exact hold.trans (hC.reply_alike hcat.symm)

theorem Timely.congr {e' : Env σ} (h : Timely e P w) (hmd5 : e'.host.md5 = e.host.md5)
    (hL1 : w'.L1 = w.L1) (hnow : w.now ≤ w'.now) : Timely e' P w' := by
  intro l hp entry hentry
  have hkey : l.key e' = l.key e := by rw [Lookup.key_eq, Lookup.key_eq, hmd5]
  rw [World.entry, hL1, hkey] at hentry
  exact (h l hp entry hentry).trans (Nat.add_le_add_right hnow _)

/-- What comes in two steps. -/
theorem forall_arrived {w'' : World σ} {Q : Arrival → Prop} (h : w.trace <+: w'.trace)
    (h' : w'.trace <+: w''.trace) (hnow : w''.now = w'.now) :
    (∀ x ∈ arrived w w'', Q x) ↔ (∀ x ∈ arrived w w', Q x) ∧ ∀ x ∈ arrived w' w'', Q x := by
  rw [arrived_append h h' hnow, List.forall_mem_append]

instance : Std.Refl (Settles e P catalogue) where
  refl _ := ⟨rfl, List.prefix_refl _, fun _ => id, fun _ => rfl, fun _ _ => id⟩

instance : IsTrans (World σ) (Settles e P catalogue) where
  trans a b c hab hbc := by
    have hparts : ∀ {Q : Arrival → Prop}, (∀ x ∈ arrived a c, Q x) ↔
        (∀ x ∈ arrived a b, Q x) ∧ ∀ x ∈ arrived b c, Q x :=
      forall_arrived hab.trace hbc.trace hbc.now
    refine ⟨hbc.now.trans hab.now, hab.trace.trans hbc.trace, fun h ha => ?_, fun h => ?_,
      fun h t ha => ?_⟩
    · exact hbc.timely (hparts.mp h).2 (hab.timely (hparts.mp h).1 ha)
    · exact (hbc.catalogue (hparts.mp h).2).trans (hab.catalogue (hparts.mp h).1)
    · exact hbc.current (hparts.mp h).2 t (hab.current (hparts.mp h).1 t ha)

/-! ## The parts of an operation -/

/-- The requests that are no updates leave the catalogue alone. -/
def UpdatesOnly (server : σ → Request → Reply × σ) (catalogue : σ → Catalogue) : Prop :=
  ∀ s r, r.updates = false → catalogue (server s r).2 = catalogue s

theorem sent_calm {rs : List Request} (htrace : w'.trace = w.trace ++ (askAll e rs w.server).2)
    (h : Calms P w w') : ∀ r ∈ rs, r.updates = false := by
  intro r hr
  rw [← askAll_requests_eq e rs w.server] at hr
  obtain ⟨y, hy, rfl⟩ := List.mem_map.mp hr
  refine (h ⟨w'.now, y.1, y.2⟩ (List.mem_map.mpr ⟨y, ?_, rfl⟩)).2
  rwa [htrace, List.drop_left]

variable (hC : Catalogued e.server catalogue) (hU : UpdatesOnly e.server catalogue)

include hC hU

/-- Requests that leave the caches alone. -/
theorem settles_sent {Q : Request → Prop} (hsame : SameCaches w w') (hsent : Sends e Q w w') :
    Settles e P catalogue w w' := by
  obtain ⟨rs, -, hserver, htrace⟩ := hsent
  have hcat : Calms P w w' → catalogue w'.server = catalogue w.server := by
    intro hcalm
    rw [hserver]
    exact askAll_keeps e (I := fun s => catalogue s = catalogue w.server)
      (fun r hr s hs => (hU s r (sent_calm htrace hcalm r hr)).trans hs) rfl
  refine ⟨hsame.now, ⟨_, htrace.symm⟩, fun _ h => ?_, hcat, fun hcalm t h => ?_⟩
  · exact h.congr rfl hsame.L1 (Nat.le_of_eq hsame.now.symm)
  · exact h.congr hC rfl rfl hsame.L1 (hcat hcalm)

theorem settles_of_sends {α : Type} {m : Sia σ α} {Q : Request → Prop}
    (hsame : Exec.Keeps SameCaches m) (hsends : Exec.Keeps (Sends e Q) m) :
    Exec.Keeps (Settles e P catalogue) m := fun w => settles_sent hC hU (hsame w) (hsends w)

theorem parts_settle : PartsKeep e (Settles e P catalogue) where
  put path buf := settles_of_sends hC hU (SameCaches.put_object path buf)
    (put_object_sends (Q := fun _ => True) trivial)
  delete path := settles_of_sends hC hU (SameCaches.del_object path)
    (Exec.keeps_bind (sends_send (Q := fun _ => True) trivial) fun _ => Exec.keeps_pure _)
  rename source target mode := settles_of_sends hC hU (SameCaches.rename_object source target mode)
    (Exec.keeps_bind (sends_send (Q := fun _ => True) trivial) fun _ => Exec.keeps_pure _)
  write path buf offset := settles_of_sends hC hU (SameCaches.write path buf offset)
    (write_sends buf)
  complete path := settles_of_sends hC hU (SameCaches.completeUpload path)
    (completeUpload_sends path)

omit hU in
theorem lookup_settles (hP : Keyed e P) (l : Lookup) :
    Exec.Keeps (Settles e P catalogue) (cachedRequest e (l.key e) l.request) := by
  refine cachedRequest_keeps fun w _ => ?_
  have hkeeps : catalogue (fetched e (l.key e) l.request w).server = catalogue w.server :=
    hC.lookup_keeps l w.server
  have hin : (∀ x ∈ arrived w (fetched e (l.key e) l.request w), x.request.Within P) →
      P l.path := by
    rw [arrived_fetched]
    exact fun h => h _ (List.mem_singleton_self _) l rfl
  refine ⟨rfl, ⟨_, rfl⟩, fun _ hw l' hp entry hentry => ?_, fun _ => hkeeps,
    fun hcalm t hw l' hp entry hentry hlate => ?_⟩
  · rcases entry_fetched hentry with ⟨-, rfl⟩ | hold
    · exact Nat.le_refl _
    · exact hw l' hp entry hold
  · have hsame := hC.reply_alike (l := l') hkeeps.symm
    rcases entry_fetched hentry with ⟨hkey, rfl⟩ | hold
    · cases hP.key_inj hp (hin fun x hx => (hcalm x hx).1) hkey
      exact hsame
    · exact (hw l' hp entry hold hlate).trans hsame

omit hC hU in
theorem entry_of_del {key key' : CStr} {entry : L1Entry}
    (h : (mc_del key w).2.entry key' = some entry) : w.entry key' = some entry := by
  rw [World.entry_del] at h
  split at h
  · cases h
  · exact h

omit hC hU in
theorem mc_del_timely (key : CStr) (h : Timely e P w) : Timely e P (mc_del key w).2 :=
  fun l hp entry hentry => h l hp entry (entry_of_del hentry)

omit hC hU in
theorem mc_del_current (key : CStr) (h : CurrentSince e P t w) :
    CurrentSince e P t (mc_del key w).2 :=
  fun l hp entry hentry => h l hp entry (entry_of_del hentry)

omit hC hU in
theorem mc_del_settles (key : CStr) :
    Exec.Keeps (Settles e P catalogue) (mc_del (σ := σ) key) := fun _ =>
  ⟨rfl, List.prefix_refl _, fun _ => mc_del_timely key, fun _ => rfl, fun _ _ => mc_del_current key⟩

omit hC hU in
theorem flush_settles (path : CStr) : Exec.Keeps (Settles e P catalogue) (siafs_flush e path) :=
  Exec.keeps_bind (mc_del_settles _) fun _ =>
    Exec.keeps_bind (mc_del_settles _) fun _ => Exec.keeps_pure _

theorem perform_settles (hP : Keyed e P) (op : Op) :
    Exec.Keeps (Settles e P catalogue) (perform e op) := by
  refine (parts_settle hC hU).perform (fun path => ?_) (fun path _ => flush_settles path)
    fun path size offset _ => ReadKeeps.read ⟨lookup_settles hC hP (.object path), ?_, ?_⟩
  · exact ⟨lookup_settles hC hP (.object path), lookup_settles hC hP (.list path),
      lookup_settles hC hP (.object (withSlash path)),
      lookup_settles hC hP (.list (withSlash path))⟩
  · exact fun first last => settles_of_sends hC hU (fun _ => ⟨rfl, rfl, rfl⟩)
      (sends_send (Q := fun _ => True) trivial)
  · exact disk_set_keeps fun w files bytes hL => ⟨rfl, List.prefix_refl _, fun _ => id,
      fun _ => rfl, fun _ _ => id⟩

end Settles

/-! ## Answers over a coherent cache -/

/-- They are those over an empty one. -/
theorem Coherent.answers {e : Env σ} {P : CStr → Prop} {catalogue : σ → Catalogue} {w : World σ}
    (hw : Coherent e P w) (hC : Catalogued e.server catalogue) (hP : Keyed e P) {q : CStr}
    (hq : P q) :
    (siafs_getattr e q w).1 = (siafs_getattr e q w.uncached).1 ∧
      (siafs_readdir e q w).1 = (siafs_readdir e q w.uncached).1 ∧
      (endsWithSlash q = false → (siafs_open e q w).1 = (siafs_open e q w.uncached).1) := by
  have hempty := coherent_uncached e P w
  have htrue : ∀ l : Lookup, P l.path → Truthful e catalogue (Coherent e P) l :=
    fun l hl => truthful_coherent hC hP (fun _ h => h) hl
  have hlist := htrue (.list q) hq
  have hdir := htrue (.list (withSlash q)) (hP.withSlash q hq)
  have hentries := htrue (.object (withSlash q)) (hP.withSlash q hq)
  refine ⟨?_, ?_, fun hslash => ?_⟩
  · obtain ⟨_, h, -⟩ := getattr_ends hC.toDescribed hlist (fun _ => htrue (.object q) hq)
      (fun _ => hdir) hw
    obtain ⟨_, h', -⟩ := getattr_ends hC.toDescribed hlist (fun _ => htrue (.object q) hq)
      (fun _ => hdir) hempty
    rw [h, h']
    rfl
  · obtain ⟨_, h, -⟩ := readdir_ends hentries hw
    obtain ⟨_, h', -⟩ := readdir_ends hentries hempty
    rw [h, h']
    rfl
  · obtain ⟨_, h, -⟩ := open_ends hC.toDescribed hlist hdir hslash hw
    obtain ⟨_, h', -⟩ := open_ends hC.toDescribed hlist hdir hslash hempty
    rw [h, h']
    rfl

/-! ## The mounts of a bucket -/

/-- The path that an operation looks up. -/
def Op.looked : Op → Option CStr
  | .getattr path | .readdir path | .open path | .read path _ _ | .release path => some path
  | .rename source _ => some source
  | _ => none

section Turns

variable {ι κ : Type} [DecidableEq ι] [DecidableEq κ]

/-- The mounts when one of them has come to `w'`: the others find the server as it leaves
it, and its caches if they share them. -/
def turned (caches : ι → κ) (ws : ι → World σ) (i : ι) (w' : World σ) : ι → World σ := fun j =>
  if j = i then w'
  else if caches j = caches i then { (ws j).withCaches w'.L1 w'.L2 w'.now with server := w'.server }
  else { ws j with server := w'.server }

variable {caches : ι → κ} {ws : ι → World σ} {i : ι} {w' : World σ}

theorem turned_server (j : ι) : (turned caches ws i w' j).server = w'.server := by
  unfold turned
  split
  · rfl
  · split <;> rfl

theorem turned_now {j : ι} (h : w'.now = (ws j).now) : (turned caches ws i w' j).now = w'.now := by
  unfold turned
  split
  · rfl
  · split
    · rfl
    · exact h.symm

theorem turned_L1 (j : ι) : (turned caches ws i w' j).L1 =
    if caches j = caches i then w'.L1 else (ws j).L1 := by
  unfold turned
  split
  · rename_i hj
    rw [hj, if_pos rfl]
  · split <;> rfl

end Turns

/-- What happens next: an operation of a mount, a change that no mount makes, the loss of an
entry by a memcached server, or nothing for a while. -/
inductive Event (ι σ : Type)
  | call (i : ι) (op : Op)
  | change (s : σ)
  | drop (i : ι) (key : CStr)
  | wait (seconds : Nat)

namespace Event

variable {ι κ : Type} [DecidableEq ι] [DecidableEq κ]

/-- The mounts after it; those with the same value of `caches` have the same caches. -/
def next (e : ι → Env σ) (caches : ι → κ) (ws : ι → World σ) : Event ι σ → ι → World σ
  | .call i op => turned caches ws i (perform (e i) op (ws i)).2
  | .change s => fun j => { ws j with server := s }
  | .drop i key => fun j => if caches j = caches i then (mc_del key (ws j)).2 else ws j
  | .wait seconds => fun j => { ws j with now := (ws j).now + seconds }

/-- It looks up one of the paths, if any. -/
def Within (P : CStr → Prop) : Event ι σ → Prop
  | .call _ op => ∀ path, op.looked = some path → P path
  | _ => True

/-- It changes no object: no update is sent. -/
def Quiet (e : ι → Env σ) (ws : ι → World σ) : Event ι σ → Prop
  | .call i op => ∀ x ∈ arrived (ws i) (perform (e i) op (ws i)).2, x.request.updates = false
  | .change _ => False
  | .drop _ _ => True
  | .wait _ => True

/-- The mounts after all of it. -/
def run (e : ι → Env σ) (caches : ι → κ) (evs : List (Event ι σ)) (ws : ι → World σ) :
    ι → World σ := evs.foldl (next e caches) ws

/-- All of it is quiet. -/
def Calm (e : ι → Env σ) (caches : ι → κ) : List (Event ι σ) → (ι → World σ) → Prop
  | [], _ => True
  | ev :: evs, ws => ev.Quiet e ws ∧ Calm e caches evs (ev.next e caches ws)

theorem run_append (e : ι → Env σ) (caches : ι → κ) (evs evs' : List (Event ι σ))
    (ws : ι → World σ) :
    run e caches (evs ++ evs') ws = run e caches evs' (run e caches evs ws) :=
  List.foldl_append

end Event

/-- Mounts of one server and one hash function. -/
structure Mounts {ι : Type} (e : ι → Env σ) (P : CStr → Prop) (catalogue : σ → Catalogue) :
    Prop where
  server : ∀ i j, (e i).server = (e j).server
  md5 : ∀ i j, (e i).host.md5 = (e j).host.md5
  keyed : ∀ i, Keyed (e i) P
  catalogued : ∀ i, Catalogued (e i).server catalogue
  updates : ∀ i, UpdatesOnly (e i).server catalogue

/-- The mounts have the same server, at the same time, and the same caches where they share
them; no entry stays for longer than `SIA_METACACHE_TTL` seconds. -/
structure OneBucket {ι κ : Type} (e : ι → Env σ) (caches : ι → κ) (P : CStr → Prop)
    (ws : ι → World σ) : Prop where
  server : ∀ i j, (ws i).server = (ws j).server
  now : ∀ i j, (ws i).now = (ws j).now
  shared : ∀ i j, caches i = caches j → (ws i).L1 = (ws j).L1
  timely : ∀ i, Timely (e i) P (ws i)

section Mounts

variable {ι κ : Type} [DecidableEq ι] [DecidableEq κ] {e : ι → Env σ} {caches : ι → κ}
  {P : CStr → Prop} {catalogue : σ → Catalogue} {server : σ → Request → Reply × σ}
  {md5 : CStr → CStr} {ws : ι → World σ} {t : Nat}

theorem Lookup.request_within (l : Lookup) (h : P l.path) : l.request.Within P := by
  intro l' heq
  cases l <;> cases l' <;> cases heq <;> exact h

theorem Request.LooksUp.within {e : Env σ} {path : CStr} {r : Request} (hP : Keyed e P)
    (hp : P path) (h : r.LooksUp path) : r.Within P := by
  have hslash := hP.withSlash path hp
  simp only [Request.LooksUp, List.mem_cons, List.not_mem_nil, or_false] at h
  rcases h with rfl | rfl | rfl | rfl
  · exact Lookup.request_within (.object path) hp
  · exact Lookup.request_within (.list path) hp
  · exact Lookup.request_within (.object (withSlash path)) hslash
  · exact Lookup.request_within (.list (withSlash path)) hslash

/-- An operation looks up the paths it should. -/
theorem Op.Requests.within {e : Env σ} {op : Op} {r : Request} (hP : Keyed e P)
    (hop : ∀ path, op.looked = some path → P path) (h : op.Requests e r) : r.Within P := by
  have hother : (∀ l : Lookup, r ≠ l.request) → r.Within P := fun hne l hl => absurd hl (hne l)
  cases op with
  | getattr path | readdir path | «open» path =>
    exact Request.LooksUp.within hP (hop path rfl) h
  | read path size offset =>
    rcases h with rfl | ⟨first, last, rfl⟩
    · exact Lookup.request_within (.object path) (hop path rfl)
    · exact hother fun l hl => by cases l <;> cases hl
  | flush path => exact h.elim
  | rename source target =>
    rcases h with rfl | rfl | rfl
    · exact Lookup.request_within (.list (withSlash source)) (hP.withSlash _ (hop source rfl))
    · exact hother fun l hl => by cases l <;> cases hl
    · exact hother fun l hl => by cases l <;> cases hl
  | release path =>
    rcases h with h | ⟨id, rfl⟩ | ⟨u, rfl⟩
    · exact Request.LooksUp.within hP (hop path rfl) h
    · exact hother fun l hl => by cases l <;> cases hl
    · exact hother fun l hl => by cases l <;> cases hl
  | write path buf offset =>
    rw [Op.Requests] at h
    split at h
    · subst h
      exact hother fun l hl => by cases l <;> cases hl
    · rcases h with rfl | rfl | ⟨id, body, rfl⟩ <;>
        exact hother fun l hl => by cases l <;> cases hl
  | mkdir path | mknod path | unlink path | rmdir path =>
    obtain rfl := h
    exact hother fun l hl => by cases l <;> cases hl

/-- Each request of an operation is about one of the paths. -/
theorem perform_within {e : Env σ} {op : Op} (hP : Keyed e P)
    (hop : ∀ path, op.looked = some path → P path) (w : World σ) :
    ∀ x ∈ arrived w (perform e op w).2, x.request.Within P := by
  obtain ⟨t, ht, hsent⟩ := (perform_requests (e := e) op w).trace_eq
  intro x hx
  rw [arrived, ht, List.drop_left] at hx
  obtain ⟨y, hy, rfl⟩ := List.mem_map.mp hx
  exact (hsent y hy).within hP hop

variable (he : Mounts e P catalogue)

include he

theorem OneBucket.take_turn (hws : OneBucket e caches P ws) {i : ι} {w' : World σ}
    (hnow : w'.now = (ws i).now) (htimely : Timely (e i) P w') :
    OneBucket e caches P (turned caches ws i w') := by
  have htime : ∀ j, (turned caches ws i w' j).now = w'.now := fun j =>
    turned_now (hnow.trans (hws.now i j))
  refine ⟨fun j k => ?_, fun j k => ?_, fun j k hjk => ?_, fun j => ?_⟩
  · rw [turned_server, turned_server]
  · rw [htime, htime]
  · rw [turned_L1, turned_L1, hjk, hws.shared j k hjk]
  · by_cases hj : caches j = caches i
    · exact htimely.congr (he.md5 j i) ((turned_L1 j).trans (if_pos hj))
        (Nat.le_of_eq (htime j).symm)
    · refine (hws.timely j).congr rfl ((turned_L1 j).trans (if_neg hj)) (Nat.le_of_eq ?_)
      rw [htime, hnow, hws.now j i]

/-- The step: whatever happens, entries do not stay longer. -/
theorem OneBucket.next (hws : OneBucket e caches P ws) {ev : Event ι σ} (hev : ev.Within P) :
    OneBucket e caches P (ev.next e caches ws) := by
  cases ev with
  | call i op =>
    have hstep : Settles (e i) P catalogue (ws i) (perform (e i) op (ws i)).2 :=
      perform_settles (he.catalogued i) (he.updates i) (he.keyed i) op (ws i)
    exact hws.take_turn he hstep.now
      (hstep.timely (perform_within (he.keyed i) hev (ws i)) (hws.timely i))
  | change s => exact ⟨fun _ _ => rfl, hws.now, hws.shared, hws.timely⟩
  | drop i key =>
    have hserver : ∀ j, ((Event.drop i key).next e caches ws j).server = (ws j).server := by
      intro j
      simp only [Event.next]
      split <;> rfl
    have hnow : ∀ j, ((Event.drop i key).next e caches ws j).now = (ws j).now := by
      intro j
      simp only [Event.next]
      split <;> rfl
    refine ⟨fun j k => ?_, fun j k => ?_, fun j k hjk => ?_, fun j => ?_⟩
    · rw [hserver, hserver, hws.server j k]
    · rw [hnow, hnow, hws.now j k]
    · simp only [Event.next, hjk]
      split
      · show (ws j).L1.map _ = (ws k).L1.map _
        rw [hws.shared j k hjk]
      · exact hws.shared j k hjk
    · simp only [Event.next]
      split
      · exact mc_del_timely key (hws.timely j)
      · exact hws.timely j
  | wait seconds =>
    refine ⟨hws.server, fun i j => ?_, hws.shared, fun i => ?_⟩
    · exact congrArg (· + seconds) (hws.now i j)
    · exact (hws.timely i).congr rfl rfl (Nat.le_add_right _ _)

/-- The step: while nothing changes, what has come since stays like what is there. -/
theorem OneBucket.current_next (hws : OneBucket e caches P ws) {ev : Event ι σ}
    (hev : ev.Within P) (hquiet : ev.Quiet e ws) (h : ∀ i, CurrentSince (e i) P t (ws i)) (j : ι) :
    CurrentSince (e j) P t (ev.next e caches ws j) := by
  cases ev with
  | call i op =>
    have hstep : Settles (e i) P catalogue (ws i) (perform (e i) op (ws i)).2 :=
      perform_settles (he.catalogued i) (he.updates i) (he.keyed i) op (ws i)
    have hcalm : Calms P (ws i) (perform (e i) op (ws i)).2 := fun x hx =>
      ⟨perform_within (he.keyed i) hev (ws i) x hx, hquiet x hx⟩
    have hserver : catalogue (turned caches ws i (perform (e i) op (ws i)).2 j).server =
        catalogue (perform (e i) op (ws i)).2.server := by rw [turned_server]
    by_cases hj : caches j = caches i
    · exact (hstep.current hcalm t (h i)).congr (he.catalogued j) (he.server j i) (he.md5 j i)
        ((turned_L1 j).trans (if_pos hj)) hserver
    · refine (h j).congr (he.catalogued j) rfl rfl ((turned_L1 j).trans (if_neg hj)) ?_
      rw [hws.server j i]
      exact hserver.trans (hstep.catalogue hcalm)
  | change s => exact hquiet.elim
  | drop i key =>
    simp only [Event.next]
    split
    · exact mc_del_current key (h j)
    · exact h j
  | wait seconds => exact (h j).congr (he.catalogued j) rfl rfl rfl rfl

/-! ## Runs -/

theorem OneBucket.run (hws : OneBucket e caches P ws) {evs : List (Event ι σ)}
    (hevs : ∀ ev ∈ evs, ev.Within P) : OneBucket e caches P (Event.run e caches evs ws) := by
  induction evs generalizing ws with
  | nil => exact hws
  | cons ev evs ih =>
    rw [List.forall_mem_cons] at hevs
    exact ih (hws.next he hevs.1) hevs.2

theorem OneBucket.current_run (hws : OneBucket e caches P ws) {evs : List (Event ι σ)}
    (hevs : ∀ ev ∈ evs, ev.Within P) (hcalm : Event.Calm e caches evs ws)
    (h : ∀ i, CurrentSince (e i) P t (ws i)) (i : ι) :
    CurrentSince (e i) P t (Event.run e caches evs ws i) := by
  induction evs generalizing ws with
  | nil => exact h i
  | cons ev evs ih =>
    rw [List.forall_mem_cons] at hevs
    exact ih (hws.next he hevs.1) hevs.2 hcalm.2 (hws.current_next he hevs.1 hcalm.1 h)

end Mounts

/-! ## An example -/

theorem renterd_updatesOnly (refuse : Nat → Bool) :
    UpdatesOnly (renterd refuse) Store.catalogue := by
  intro s r hr
  cases r with
  | objects path => rw [renterd_objects_state]
  | worker_get path first last => rw [renterd_worker_get_state]
  | worker_put_multipart path id n body =>
    rw [renterd]
    split <;> rfl
  | objects_list | multipart_listuploads | multipart_create | multipart_listparts => rfl
  | objects_delete | objects_rename | multipart_complete | worker_put => cases hr

/-- Two mounts of one build, each with a memcached server of its own. -/
def twoHosts (_ : Bool) : Env Store := hashingMount

theorem twoHosts_mounts : Mounts twoHosts (· ∈ hashedPaths) Store.catalogue where
  server _ _ := rfl
  md5 _ _ := rfl
  keyed _ := keyed_hashingMount
  catalogued _ := renterd_catalogued _
  updates _ := renterd_updatesOnly _

end SiaFS
