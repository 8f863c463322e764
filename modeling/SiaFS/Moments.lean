/-
What the server holds in the middle of an operation.

The mount may be killed, or another client may look, between any two requests.  Since an
operation changes the objects with one of its requests at most, they are at every moment
those after a whole number of operations: nobody sees half of one.
-/
import SiaFS.Updates
import SiaFS.Upload.Integrity

namespace SiaFS

variable {σ β : Type}

/-! ## The states on the way -/

/-- The server was in the state `s` on the way from `w` to `w'`. -/
def Passed (e : Env σ) (w w' : World σ) (s : σ) : Prop :=
  ∃ rs rest, w'.server = (askAll e (rs ++ rest) w.server).1 ∧
    w'.trace = w.trace ++ (askAll e (rs ++ rest) w.server).2 ∧ s = (askAll e rs w.server).1

section Passed

variable {e : Env σ} {w w₁ w' : World σ} {s : σ} {rs rs' : List Request}

/-- The trace tells which requests were sent. -/
theorem askAll_inj {t : List (Request × Reply)}
    (h : t ++ (askAll e rs s).2 = t ++ (askAll e rs' s).2) : rs = rs' := by
  have hmap := congrArg (List.map Prod.fst) (List.append_cancel_left h)
  rwa [askAll_requests_eq, askAll_requests_eq] at hmap

theorem Sends.passed_end {Q : Request → Prop} (h : Sends e Q w w') : Passed e w w' w'.server := by
  obtain ⟨rs, -, hserver, htrace⟩ := h
  exact ⟨rs, [], by rw [List.append_nil]; exact hserver, by rw [List.append_nil]; exact htrace,
    hserver⟩

/-- A state on the way is on the way to `w₁` or on the way from there. -/
theorem Passed.split {Q Q' : Request → Prop} (h : Passed e w w' s) (h₁ : Sends e Q w w₁)
    (h₂ : Sends e Q' w₁ w') : Passed e w w₁ s ∨ Passed e w₁ w' s := by
  obtain ⟨rs, rest, hserver, htrace, hs⟩ := h
  obtain ⟨rs₁, -, hserver₁, htrace₁⟩ := h₁
  obtain ⟨rs₂, -, hserver₂, htrace₂⟩ := h₂
  have hall : rs ++ rest = rs₁ ++ rs₂ := by
    refine askAll_inj (e := e) (s := w.server) (t := w.trace) ?_
    rw [← htrace, htrace₂, htrace₁, hserver₁, askAll_append, List.append_assoc]
  rcases List.append_eq_append_iff.mp hall with ⟨mid, hmid, hrest⟩ | ⟨mid, hmid, hrest⟩
  · refine Or.inl ⟨rs, mid, ?_, ?_, hs⟩
    · rw [hserver₁, hmid]
    · rw [htrace₁, hmid]
  · refine Or.inr ⟨mid, rest, ?_, ?_, ?_⟩
    · rw [hserver₂, hrest]
    · rw [htrace₂, hrest]
    · rw [hs, hserver₁, hmid, askAll_append]

end Passed

/-! ## A whole number of operations -/

/-- Only the updates change what is looked at. -/
def Observed (server : σ → Request → Reply × σ) (look : σ → β) : Prop :=
  ∀ s r, r.updates = false → look (server s r).2 = look s

theorem Doing.observed {server : σ → Request → Reply × σ} {view : σ → Bucket}
    (h : Doing server view) : Observed server fun s => (view s).objects := by
  intro s r hr
  rcases h s r with hsame | hdone
  · exact congrArg Bucket.objects hsame
  · cases r with
    | multipart_create path key =>
      obtain ⟨id, -, hview⟩ := hdone
      dsimp only
      rw [hview, Bucket.create_objects]
    | worker_put_multipart path id n body =>
      obtain ⟨-, tag, hview⟩ := hdone
      dsimp only
      rw [hview, Bucket.store_objects]
    | objects path => exact hdone.elim
    | objects_list path => exact hdone.elim
    | multipart_listuploads path => exact hdone.elim
    | multipart_listparts path id => exact hdone.elim
    | worker_get path first last => exact hdone.elim
    | objects_delete path => cases hr
    | objects_rename source target mode => cases hr
    | multipart_complete payload => cases hr
    | worker_put path body => cases hr

section Atomic

variable {e : Env σ} {look : σ → β} {w w' : World σ} {s : σ}

/-- Requests without an update leave everything to see as it is. -/
theorem Observed.askAll (h : Observed e.server look) {rs : List Request}
    (hrs : rs.filter Request.updates = []) (s : σ) : look (askAll e rs s).1 = look s :=
  askAll_keeps e (I := fun t => look t = look s)
    (fun r hr t ht => (h t r (Bool.eq_false_iff.mpr (List.filter_eq_nil_iff.mp hrs r hr))).trans ht)
    rfl

/-- An operation sends one update at most. -/
theorem perform_one_update (op : Op) (w : World σ) :
    ∃ t, (perform e op w).2.trace = w.trace ++ t ∧ (updates t).length ≤ 1 := by
  rcases hrun : perform e op w with ⟨x | a, w'⟩
  · obtain ⟨t, ht, hnone⟩ := perform_faulted hrun
    exact ⟨t, ht, by rw [hnone]; exact Nat.zero_le 1⟩
  · obtain ⟨t, ht, hstands⟩ := perform_updates hrun
    refine ⟨t, ht, ?_⟩
    rcases hstands with ⟨r, -, hr⟩ | ⟨hr, -⟩ <;> rw [hr]
    · exact Nat.le_refl 1
    · exact Nat.zero_le 1

/-- In the middle of an operation one sees what was there before it or what is there
after it. -/
theorem perform_atomic (h : Observed e.server look) (op : Op)
    (hs : Passed e w (perform e op w).2 s) :
    look s = look w.server ∨ look s = look (perform e op w).2.server := by
  obtain ⟨rs, rest, hserver, htrace, rfl⟩ := hs
  obtain ⟨t, ht, hone⟩ := perform_one_update (e := e) op w
  obtain rfl : t = (askAll e (rs ++ rest) w.server).2 :=
    List.append_cancel_left (ht.symm.trans htrace)
  have hcount : (rs.filter Request.updates).length + (rest.filter Request.updates).length ≤ 1 := by
    rwa [updates, askAll_requests_eq, List.filter_append, List.length_append] at hone
  by_cases hrs : rs.filter Request.updates = []
  · exact Or.inl (h.askAll hrs _)
  · have hpos := List.length_pos_of_ne_nil hrs
    have hrest : rest.filter Request.updates = [] := List.length_eq_zero_iff.mp (by omega)
    right
    rw [hserver, askAll_append]
    exact (h.askAll hrest _).symm

/-- The state after the operations. -/
def after (e : Env σ) (ops : List Op) (w : World σ) : World σ :=
  (Exec.runAll (perform e) ops w).2

theorem after_singleton (op : Op) (w : World σ) : after e [op] w = (perform e op w).2 := by
  rw [after]
  rcases hrun : perform e op w with ⟨x | a, w'⟩
  · rw [Exec.runAll_cons_error hrun]
  · rw [Exec.runAll_cons_ok hrun (Exec.runAll_nil _)]

/-- At every moment of a run, also of one that stops with a fault, one sees what is there
before the operation under way or what is there after it. -/
theorem run_atomic (h : Observed e.server look) (ops : List Op) (w : World σ) {s : σ}
    (hs : Passed e w (after e ops w) s) : s = w.server ∨ ∃ before op later,
      ops = before ++ op :: later ∧ Passed e (after e before w) (after e (before ++ [op]) w) s ∧
      (look s = look (after e before w).server ∨
        look s = look (after e (before ++ [op]) w).server) := by
  induction ops generalizing w with
  | nil =>
    obtain ⟨rs, rest, -, htrace, rfl⟩ := hs
    have hnil : rs ++ rest = [] := askAll_inj (e := e) (s := w.server) (t := w.trace)
      (htrace.symm.trans (List.append_nil _).symm)
    rw [(List.append_eq_nil_iff.mp hnil).1]
    exact Or.inl rfl
  | cons op ops ih =>
    right
    have hfirst : Passed e w (perform e op w).2 s → ∃ before op' later,
        op :: ops = before ++ op' :: later ∧
        Passed e (after e before w) (after e (before ++ [op']) w) s ∧
        (look s = look (after e before w).server ∨
          look s = look (after e (before ++ [op']) w).server) := fun hop => by
      refine ⟨[], op, ops, rfl, ?_, ?_⟩
      · rwa [List.nil_append, after_singleton]
      · rw [List.nil_append, after_singleton]
        exact perform_atomic h op hop
    rcases hrun : perform e op w with ⟨x | a, w₁⟩
    · rw [after, Exec.runAll_cons_error hrun] at hs
      exact hfirst (by rwa [hrun])
    · have hcons : ∀ ops', after e (op :: ops') w = after e ops' w₁ := fun ops' =>
        Exec.runAll_cons_state_ok hrun
      have hop := perform_requests (e := e) op w
      rw [hrun] at hop
      rw [hcons] at hs
      rcases hs.split hop (run_sends ops w₁) with hbefore | hlater
      · exact hfirst (by rwa [hrun])
      · rcases ih w₁ hlater with rfl | ⟨before, op', later, rfl, hpassed, hlook⟩
        · exact hfirst (by rw [hrun]; exact hop.passed_end)
        · refine ⟨op :: before, op', later, rfl, ?_, ?_⟩
          · rwa [List.cons_append, hcons, hcons]
          · rwa [List.cons_append, hcons, hcons]

end Atomic

/-- Between the two requests of a rename of a file the file is where it was or where it
goes. -/
theorem run_atomic_rename : (askAll hugeMount
      [.worker_put (lit "/a") [1], .objects_list (lit "/a/")] Store.blank).1 = Store.blank ∨
    ∃ before op later,
      [Op.write (lit "/a") [1] 0, .rename (lit "/a") (lit "/b")] = before ++ op :: later ∧
      Passed hugeMount (after hugeMount before (mounted Store.blank none))
        (after hugeMount (before ++ [op]) (mounted Store.blank none))
        (askAll hugeMount [.worker_put (lit "/a") [1], .objects_list (lit "/a/")]
          Store.blank).1 ∧
      (Store.data (askAll hugeMount [.worker_put (lit "/a") [1], .objects_list (lit "/a/")]
          Store.blank).1 = Store.data (after hugeMount before (mounted Store.blank none)).server ∨
        Store.data (askAll hugeMount [.worker_put (lit "/a") [1], .objects_list (lit "/a/")]
          Store.blank).1 =
          Store.data (after hugeMount (before ++ [op]) (mounted Store.blank none)).server) :=
  run_atomic (renterd_doing _).observed _ (mounted Store.blank none)
    ⟨_, [.objects_rename (lit "/a") (lit "/b") (lit "single")], rfl, rfl, rfl⟩

end SiaFS
