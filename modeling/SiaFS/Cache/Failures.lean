/-
What a failed fetch leaves in the L1 cache.

A reply is cached whatever its status and whatever is in it, so an error page is
served for `SIA_METACACHE_TTL` seconds to every lookup that has its key.  Compared
are the run as it is and the run as if the failed fetches had never happened, in
which what they stored is gone after the call.
-/
import Mathlib.Data.List.Induction
import SiaFS.Cache.Alongside
import SiaFS.Cache.Versions
import SiaFS.Paths.Missing

namespace SiaFS

variable {σ : Type}

/-- An error status, or a body that is no JSON document. -/
def Reply.failed (reply : Reply) : Bool :=
  decide (400 ≤ reply.status) || (cJSON_Parse reply.body).isNone

/-! ## Calls -/

/-- A lookup on its own, or an operation. -/
inductive Query
  | objects_exists (path : CStr)
  | objects_is_dir (path : CStr)
  | objects_is_file (path : CStr)
  | object_size (path : CStr)
  | operation (op : Op)

inductive QueryAnswer
  | found (found : Bool)
  | size (bytes : Nat)
  | answer (answer : Answer)

def Query.run (e : Env σ) : Query → Sia σ QueryAnswer
  | .objects_exists path => do pure (.found (← sia_bus_objects_exists e path))
  | .objects_is_dir path => do pure (.found (← sia_bus_objects_is_dir e path))
  | .objects_is_file path => do pure (.found (← sia_bus_objects_is_file e path))
  | .object_size path => do pure (.size (← sia_bus_object_size e path))
  | .operation op => do pure (.answer (← perform e op))

/-- A call, some time after the one before. -/
structure TimedQuery where
  wait : Nat
  query : Query

namespace TimedQuery

variable (e : Env σ) (c : TimedQuery) (w : World σ)

def run : Sia σ QueryAnswer := fun w => c.query.run e { w with now := w.now + c.wait }

/-- The requests sent in the call and their replies. -/
def exchanged : List (Request × Reply) := (c.run e w).2.trace.drop w.trace.length

end TimedQuery

/-! ## As if they had never happened -/

section Forget

variable (e : Env σ)

/-- The key under which the reply is cached. -/
def Request.key : Request → Option CStr
  | .objects path => some (objectsKey e path)
  | .objects_list path => some (listKey e path)
  | _ => none

/-- The last fetch under the key failed. -/
def failedLast (t : List (Request × Reply)) (key : CStr) : Bool :=
  match (t.filter fun x => x.1.key e == some key).getLast? with
  | some x => x.2.failed
  | none => false

/-- What the failed fetches have stored is gone. -/
def forget (t : List (Request × Reply)) (w : World σ) : World σ :=
  { w with L1 := w.L1.map fun cache key => if failedLast e t key then none else cache key }

/-- The state after a call, as if its failed fetches had never happened. -/
def TimedQuery.asIf (s : World σ) (c : TimedQuery) : World σ :=
  forget e (c.exchanged e s) (c.run e s).2

/-- The state after a call. -/
def TimedQuery.real (w : World σ) (c : TimedQuery) : World σ := (c.run e w).2

/-- Of what the call has to fetch in the state `s`, nothing is cached in `w`. -/
def TimedQuery.Clear (c : TimedQuery) (s w : World σ) : Prop :=
  ∀ l : Lookup, l.request ∈ (c.exchanged e s).map Prod.fst →
    mc_lookup { w with now := w.now + c.wait } (l.key e) = none

end Forget

section Runs

variable {e : Env σ} {s w : World σ}

/-- The second state may hold more in the L1 cache. -/
abbrev LacksSome (s w : World σ) : Prop := Alongside (fun _ => True) (fun _ => False) s w

theorem lacksSome_self (w : World σ) : LacksSome w w :=
  Alongside.of_some rfl rfl rfl (fun _ _ h => h) fun _ => Or.inl rfl

theorem Follows.query {K F : CStr → Prop} (hF : ∀ name, ¬ F name) (q : Query) :
    Follows e K F (q.run e) := by
  cases q with
  | objects_exists path => exact bind (exists_ path) fun _ => pure _
  | objects_is_dir path => exact bind (is_dir path) fun _ => pure _
  | objects_is_file path => exact bind (is_file path) fun _ => pure _
  | object_size path => exact bind (object_size path) fun _ => pure _
  | operation op => exact bind (perform fun _ _ _ _ => hF _) fun _ => pure _

theorem forget_liveEntry (t : List (Request × Reply)) {key : CStr} {entry : L1Entry}
    (h : liveEntry (forget e t w) key = some entry) : liveEntry w key = some entry := by
  unfold liveEntry forget at h
  unfold liveEntry
  cases hL : w.L1 with
  | none => simp [hL] at h
  | some cache =>
    simp only [hL, Option.map_some, Option.bind_some] at h
    split at h
    · cases h
    · exact h

/-- One call, with what failed fetches have stored and without. -/
theorem LacksSome.call (h : LacksSome s w) {c : TimedQuery} (hclear : c.Clear e s w) :
    (c.run e w).1 = (c.run e s).1 ∧ LacksSome (c.asIf e s) (c.real e w) := by
  have hextra := (h.idle c.wait).extra
  obtain ⟨t, htrace, hsame⟩ := Follows.query (e := e)
    (K := fun key => liveEntry { s with now := s.now + c.wait } key = none ∧
      liveEntry { w with now := w.now + c.wait } key ≠ none)
    (F := fun name => False ∧ keptFile s name = none ∧ keptFile w name ≠ none)
    (fun _ hname => hname.1) c.query { s with now := s.now + c.wait }
  have hexchanged : c.exchanged e s = t := by
    unfold TimedQuery.exchanged
    rw [show (c.run e s).2.trace = s.trace ++ t from htrace, List.drop_left]
  obtain ⟨hresult, hafter⟩ := hsame _ hextra fun x hx l hl hforeign => by
    have hsent : l.request ∈ (c.exchanged e s).map Prod.fst := by
      rw [hexchanged, hl]
      exact List.mem_map_of_mem hx
    exact hforeign.2 (liveEntry_eq_none.mpr (hclear l hsent))
  refine ⟨hresult, Alongside.of_some ?_ ?_ hafter.disk (fun key entry hs => ?_) fun name => ?_⟩
  · exact hafter.same
  · show (c.run e w).2.L1.isSome = ((c.run e s).2.L1.map _).isSome
    rw [Option.isSome_map]
    exact hafter.memcached
  · exact hafter.entry_some (forget_liveEntry _ hs)
  · exact (hafter.file name).imp_right fun hname => ⟨hname.1.1, hname.2⟩

end Runs

/-- As long as no call looks up what a failed fetch has stored, every answer is the one
given as if the failed fetches had never happened. -/
theorem failures_forgotten {e : Env σ} {w : World σ} {calls : List TimedQuery}
    (hclear : ∀ done c rest, calls = done ++ c :: rest →
      c.Clear e (done.foldl (TimedQuery.asIf e) w) (done.foldl (TimedQuery.real e) w)) :
    ∀ done c rest, calls = done ++ c :: rest →
      (c.run e (done.foldl (TimedQuery.real e) w)).1 =
        (c.run e (done.foldl (TimedQuery.asIf e) w)).1 := by
  have hlacks : ∀ done rest, calls = done ++ rest →
      LacksSome (done.foldl (TimedQuery.asIf e) w) (done.foldl (TimedQuery.real e) w) := by
    intro done
    induction done using List.reverseRec with
    | nil => exact fun _ _ => lacksSome_self w
    | append_singleton done c ih =>
      intro rest hsplit
      rw [List.append_assoc] at hsplit
      rw [List.foldl_append, List.foldl_append]
      exact ((ih _ hsplit).call (hclear done c rest hsplit)).2
  intro done c rest hsplit
  exact ((hlacks done _ hsplit).call (hclear done c rest hsplit)).1

/-! ## An outage -/

/-- The file `/f` on a server whose next listing fails. -/
def beforeOutage : World (Store × Nat) := mountedCached (Store.blank.put (lit "/f") [1], 1)

/-- The lookup that fails, and the one after it. -/
def lookUp (wait : Nat) : TimedQuery := ⟨wait, .objects_is_file (lit "/f")⟩

/-- A fetch that fails without a page stores nothing. -/
theorem failures_forgotten_no_page :
    ((lookUp 1).run (outageMount none) ((lookUp 0).real (outageMount none) beforeOutage)).1 =
      ((lookUp 1).run (outageMount none) ((lookUp 0).asIf (outageMount none) beforeOutage)).1 := by
  have hclear : ∀ done c rest, [lookUp 0, lookUp 1] = done ++ c :: rest →
      c.Clear (outageMount none) (done.foldl (TimedQuery.asIf (outageMount none)) beforeOutage)
        (done.foldl (TimedQuery.real (outageMount none)) beforeOutage) := by
    intro done c rest hsplit l hl
    rcases done with _ | ⟨d, _ | ⟨d', done⟩⟩
    · cases hsplit
      rfl
    · cases hsplit
      have hsent : ((lookUp 1).exchanged (outageMount none)
          ((lookUp 0).asIf (outageMount none) beforeOutage)).map Prod.fst =
            [.objects_list (lit "/f")] := rfl
      rw [List.foldl_cons, List.foldl_nil, hsent, List.mem_singleton] at hl
      cases l with
      | object path => cases hl
      | list path =>
        cases hl
        -- What is stored without a page is no reply to anything.
        refine Option.eq_none_iff_forall_not_mem.mpr fun body hbody => ?_
        have hstored : mc_lookup (fetched (outageMount none) (listKey (outageMount none) (lit "/f"))
            (.objects_list (lit "/f")) beforeOutage) (listKey (outageMount none) (lit "/f")) =
              some body := mc_lookup_later hbody
        rcases mc_lookup_fetched hstored with ⟨-, hreply⟩ | hbefore
        · cases hreply
        · cases hbefore
    · simp at hsplit
  exact failures_forgotten hclear [lookUp 0] (lookUp 1) [] rfl

/-- A mount of a server that answers a failed request with a page. -/
def pageMount : Env (Store × Nat) :=
  outageMount (some { bytes := lit "internal error", document := none })

/-- The page is served as the listing once the server answers again. -/
theorem page_served :
    ((lookUp 1).run pageMount ((lookUp 0).real pageMount beforeOutage)).1 =
        .ok (.found false) ∧
      ((lookUp 1).run pageMount ((lookUp 0).asIf pageMount beforeOutage)).1 =
        .ok (.found true) :=
  ⟨rfl, rfl⟩

end SiaFS
