/-
The updates that a run sends.

Of the requests of a run those that change an object are the ones that its operations
stand for, each of them once and in the order of the operations.  Nothing is sent twice,
dropped or put off, whatever the server answers and whatever the caches hold; an operation
that stops with a fault has not sent its update.
-/
import SiaFS.Errors
import SiaFS.Requests

namespace SiaFS

variable {σ : Type}

/-- A request that changes objects. -/
def Request.updates : Request → Bool
  | .objects_delete _ | .objects_rename _ _ _ | .worker_put _ _ | .multipart_complete _ => true
  | _ => false

def updates (trace : List (Request × Reply)) : List Request :=
  (trace.map Prod.fst).filter Request.updates

/-- The updates of an operation that returns: its request, and none when it has none or is
a release that finds nothing to complete. -/
def Op.Stands (e : Env σ) (op : Op) (rs : List Request) : Prop :=
  (∃ r, Forwards e op r ∧ rs = [r]) ∨ rs = [] ∧ (¬ op.Single e ∨ ∃ path, op = .release path)

section Updates

variable {e : Env σ} {w w' : World σ} {op : Op} {t t' : List (Request × Reply)}

theorem updates_append (t t' : List (Request × Reply)) :
    updates (t ++ t') = updates t ++ updates t' := by
  rw [updates, List.map_append, List.filter_append]
  rfl

theorem updates_eq_nil (h : ∀ x ∈ t, x.1.updates = false) : updates t = [] := by
  rw [updates, List.filter_eq_nil_iff]
  intro r hr
  obtain ⟨x, hx, rfl⟩ := List.mem_map.mp hr
  exact Bool.eq_false_iff.mp (h x hx)

theorem Request.LooksUp.no_update {path : CStr} {r : Request} (h : r.LooksUp path) :
    r.updates = false := by
  simp only [Request.LooksUp, List.mem_cons, List.not_mem_nil, or_false] at h
  rcases h with rfl | rfl | rfl | rfl <;> rfl

theorem Request.Looks.no_update {r : Request} (h : r.Looks) : r.updates = false := by
  cases r <;> first | rfl | exact h.elim

theorem Forwards.updates {r : Request} (h : Forwards e op r) : r.updates = true := by
  cases h <;> rfl

/-- What is sent last is the only update. -/
theorem SendsLast.updates {r : Request} {s : σ} (h : SendsLast e r s w w')
    (hr : r.updates = true) : ∃ t, w'.trace = w.trace ++ t ∧ updates t = [r] := by
  obtain ⟨rs, hrs, -, htrace⟩ := h.asked
  refine ⟨_, htrace.trans (List.append_assoc _ _ _), ?_⟩
  rw [updates_append, updates_eq_nil fun x hx =>
    (hrs _ (askAll_requests e rs _ x hx)).no_update]
  simp [SiaFS.updates, hr]

/-- An operation that stands for no request sends no update. -/
theorem Op.Requests.no_update (hop : ¬ op.Single e) {r : Request} (hr : op.Requests e r) :
    r.updates = false := by
  cases op with
  | getattr path => exact Request.LooksUp.no_update hr
  | readdir path => exact Request.LooksUp.no_update hr
  | «open» path => exact Request.LooksUp.no_update hr
  | read path size offset => rcases hr with rfl | ⟨first, last, rfl⟩ <;> rfl
  | flush path => exact hr.elim
  | write path buf offset =>
    rw [Op.Requests] at hr
    split at hr
    · rename_i hsmall
      obtain ⟨rfl, hlen⟩ := hsmall
      exact absurd ⟨_, .write path buf hlen⟩ hop
    · rcases hr with rfl | rfl | ⟨id, body, rfl⟩ <;> rfl
  | mkdir path => exact absurd ⟨_, .mkdir path⟩ hop
  | mknod path => exact absurd ⟨_, .mknod path⟩ hop
  | unlink path => exact absurd ⟨_, .unlink path⟩ hop
  | rmdir path => exact absurd ⟨_, .rmdir path⟩ hop
  | rename source target => exact absurd ⟨_, .rename source target⟩ hop
  | release path => exact absurd ⟨_, .release path [] []⟩ hop

theorem Asks.no_update (h : Asks e Request.IsRead w w') :
    ∃ t, w'.trace = w.trace ++ t ∧ updates t = [] := by
  obtain ⟨t, ht, hread⟩ := h.trace_eq
  refine ⟨t, ht, updates_eq_nil fun x hx => ?_⟩
  have hx := hread x hx
  revert hx
  cases x.1 <;> first | exact fun _ => rfl | exact False.elim

/-- A release that completes nothing sends no update. -/
theorem release_no_update {path : CStr}
    (h : completions (perform e (.release path) w).2.trace = completions w.trace) :
    ∃ t, (perform e (.release path) w).2.trace = w.trace ++ t ∧ updates t = [] := by
  obtain ⟨t, ht, hsent⟩ := (perform_requests (e := e) (.release path) w).trace_eq
  rw [ht, completions_append] at h
  have hnone : completions t = [] := List.append_right_eq_self.mp h
  refine ⟨t, ht, updates_eq_nil fun x hx => ?_⟩
  rcases hsent x hx with hlook | ⟨id, hid⟩ | ⟨u, hu⟩
  · exact hlook.no_update
  · rw [hid]
    rfl
  · have hmem : completePayload e path u.uploadID (recordedParts u) ∈ completions t :=
      List.mem_filterMap.mpr ⟨x, hx, by rw [hu]; rfl⟩
    rw [hnone] at hmem
    cases hmem

/-- An operation that returns has sent the update it stands for. -/
theorem perform_updates {a : Answer} (hrun : perform e op w = (.ok a, w')) :
    ∃ t, w'.trace = w.trace ++ t ∧ op.Stands e (updates t) := by
  by_cases hop : op.Single e
  · by_cases hsent : ∀ path, op = .release path → completions w'.trace ≠ completions w.trace
    · obtain ⟨-, r, s, hforward, hlast⟩ := perform_sends hop hrun hsent
      obtain ⟨t, ht, hupdates⟩ := hlast.updates hforward.updates
      exact ⟨t, ht, Or.inl ⟨r, hforward, hupdates⟩⟩
    · push Not at hsent
      obtain ⟨path, rfl, hsame⟩ := hsent
      have hworld : (perform e (.release path) w).2 = w' := congrArg Prod.snd hrun
      obtain ⟨t, ht, hupdates⟩ := release_no_update (hworld ▸ hsame)
      rw [hworld] at ht
      exact ⟨t, ht, Or.inr ⟨hupdates, Or.inr ⟨path, rfl⟩⟩⟩
  · obtain ⟨t, ht, hsent⟩ := (perform_requests (e := e) op w).trace_eq
    rw [hrun] at ht
    exact ⟨t, ht, Or.inr ⟨updates_eq_nil fun x hx => (hsent x hx).no_update hop, Or.inl hop⟩⟩

/-! ## An operation that faults -/

theorem mkdir_faulted {path : CStr} {x : Fault} (h : siafs_mkdir e path w = (.error x, w')) :
    w' = w := by
  rw [siafs_mkdir] at h
  split at h
  · exact (congrArg Prod.snd h).symm
  · cases h

theorem rename_faulted {source target : CStr} {x : Fault}
    (h : siafs_rename e source target w = (.error x, w')) : Asks e Request.IsRead w w' := by
  have hasks := keeps_is_dir (e := e) source w
  rcases Exec.bind_eq_error h with hdir | ⟨is_dir, w₁, -, hrest⟩
  · rw [hdir] at hasks
    exact hasks
  · cases is_dir <;> cases hrest

theorem release_faulted {path : CStr} {x : Fault}
    (h : siafs_release e path w = (.error x, w')) : Asks e Request.IsRead w w' := by
  have hasks := keeps_releaseCheck (e := e) path w
  rcases Exec.bind_eq_error h with hcheck | ⟨passed, w₁, hcheck, hrest⟩
  · rw [hcheck] at hasks
    exact hasks
  · rw [hcheck] at hasks
    cases passed with
    | false => cases hrest
    | true =>
      rw [if_pos rfl] at hrest
      rcases hu : nodeNamed w₁.uploads path with _ | u
      · rw [completeUpload_none hu] at hrest
        obtain rfl : w₁ = w' := congrArg Prod.snd hrest
        exact hasks
      · rw [completeUpload_apply hu] at hrest
        cases hrest

/-- An operation that stops with a fault has not sent its update. -/
theorem perform_faulted {x : Fault} (hrun : perform e op w = (.error x, w')) :
    ∃ t, w'.trace = w.trace ++ t ∧ updates t = [] := by
  by_cases hop : op.Single e
  · obtain ⟨r, hr⟩ := hop
    cases hr with
    | mknod path => cases hrun
    | unlink path => cases hrun
    | rmdir path => cases hrun
    | mkdir path =>
      rcases Exec.bind_eq_error hrun with h | ⟨_, _, -, h⟩
      · rw [mkdir_faulted h]
        exact ⟨[], (List.append_nil _).symm, rfl⟩
      · cases h
    | renameAll source target =>
      rcases Exec.bind_eq_error hrun with h | ⟨_, _, -, h⟩
      · exact (rename_faulted h).no_update
      · cases h
    | rename source target =>
      rcases Exec.bind_eq_error hrun with h | ⟨_, _, -, h⟩
      · exact (rename_faulted h).no_update
      · cases h
    | write path buf hsmall =>
      rcases Exec.bind_eq_error hrun with h | ⟨_, _, -, h⟩
      · rw [siafs_write, if_pos ⟨rfl, hsmall⟩] at h
        cases h
      · cases h
    | release path id parts =>
      rcases Exec.bind_eq_error hrun with h | ⟨_, _, -, h⟩
      · exact (release_faulted h).no_update
      · cases h
  · obtain ⟨t, ht, hsent⟩ := (perform_requests (e := e) op w).trace_eq
    rw [hrun] at ht
    exact ⟨t, ht, updates_eq_nil fun x hx => (hsent x hx).no_update hop⟩

/-- The updates of a run are what its operations stand for, one after another, up to the
operation that faults. -/
theorem run_updates (e : Env σ) (ops : List Op) (w : World σ) :
    ∃ done rest groups as w₁ t, ops = done ++ rest ∧
      Exec.runAll (perform e) done w = (.ok as, w₁) ∧
      (rest = [] ∨ ∃ op later x, rest = op :: later ∧
        perform e op w₁ = (.error x, (Exec.runAll (perform e) ops w).2)) ∧
      (Exec.runAll (perform e) ops w).2.trace = w.trace ++ t ∧
      updates t = groups.flatten ∧ List.Forall₂ (Op.Stands e) done groups := by
  induction ops generalizing w with
  | nil =>
    exact ⟨[], [], [], [], w, [], rfl, rfl, Or.inl rfl, (List.append_nil _).symm, rfl, .nil⟩
  | cons op ops ih =>
    rcases hop : perform e op w with ⟨x | a, w₁⟩
    · obtain ⟨t, ht, hnone⟩ := perform_faulted hop
      rw [Exec.runAll_cons_error hop]
      exact ⟨[], op :: ops, [], [], w, t, rfl, rfl, Or.inr ⟨op, ops, x, rfl, hop⟩, ht, hnone, .nil⟩
    · obtain ⟨t₁, ht₁, hstands⟩ := perform_updates hop
      obtain ⟨done, rest, groups, as, w₂, t, hops, hdone, hrest, ht, hupdates, hgroups⟩ := ih w₁
      have hstate : (Exec.runAll (perform e) (op :: ops) w).2 =
          (Exec.runAll (perform e) ops w₁).2 := Exec.runAll_cons_state_ok hop
      refine ⟨op :: done, rest, updates t₁ :: groups, a :: as, w₂, t₁ ++ t, by rw [hops]; rfl,
        Exec.runAll_cons_ok hop hdone, hstate ▸ hrest, ?_, ?_, .cons hstands hgroups⟩
      · rw [hstate, ht, ht₁, List.append_assoc]
      · rw [updates_append, hupdates, List.flatten_cons]

end Updates

end SiaFS
