/-
One handle writes a path while others read and release it.

`siafs_release` looks for an upload by path and does not know whose release it
is; a node stays in the list when its upload has been completed.  So the release
of any handle completes the upload that another one is writing, and every later
release completes it again.
-/
import SiaFS.Moves
import SiaFS.Upload.Session

namespace SiaFS

open Json

variable {σ : Type} {e : Env σ} {w : World σ} {path : CStr}

/-! ## Requests to complete an upload -/

/-- The upload IDs in the requests to complete an upload, in order. -/
def completedIDs (trace : List (Request × Reply)) : List CStr :=
  (completions trace).filterMap fun payload =>
    (cJSON_GetObjectItemCaseSensitive payload (lit "uploadID")).bind valuestring

/-- Only a release sends a request to complete an upload. -/
theorem completions_perform {op : Op} (h : ∀ p, op ≠ .release p) (w : World σ) :
    completions (perform e op w).2.trace = completions w.trace := by
  have hno : ∀ p, ¬ (permits e w op).complete p := by
    intro p
    cases op <;> first | exact id | exact absurd rfl (h _)
  refine perform_keeps e op (I := fun w' => completions w'.trace = completions w.trace)
    (fun w₁ w₂ hm hw₁ => ?_) rfl
  cases hm with
  | ask hr => exact (completions_plain hr.completion w₁).trans hw₁
  | put n body hP => exact (completions_plain rfl w₁).trans hw₁
  | complete hP hu => exact absurd hP (hno _)
  | cache | link | name | append | unlink | record => exact hw₁

/-- A release sends none while there is no node of the path. -/
theorem completions_release_none (h : nodeNamed w.uploads path = none) :
    completions (perform e (.release path) w).2.trace = completions w.trace := by
  refine (perform_keeps e (.release path) (I := fun w' =>
    path ∉ w'.uploads.map SiaUpload.name ∧ completions w'.trace = completions w.trace)
    (fun w₁ w₂ hm hw₁ => ?_) ⟨nodeNamed_eq_none.mp h, rfl⟩).2
  obtain ⟨hnames, hcompl⟩ := hw₁
  cases hm with
  | ask hr => exact ⟨hnames, (completions_plain hr.completion w₁).trans hcompl⟩
  | cache | append | unlink => exact ⟨hnames, hcompl⟩
  | link hP => exact hP.elim
  | put n body hP => exact hP.elim
  | record hP => exact hP.elim
  | name i s =>
    refine ⟨?_, hcompl⟩
    rwa [setTmpfn_names]
  | complete hP hu =>
    obtain rfl : _ = path := hP
    exact absurd hu (by rw [nodeNamed_eq_none.mpr hnames]; exact nofun)

/-- A release sends at most one. -/
theorem completions_release (path : CStr) (w : World σ) :
    ∃ l, completions (perform e (.release path) w).2.trace = completions w.trace ++ l ∧
      l.length ≤ 1 := by
  by_cases h : (releaseCheck e path w).1 = .ok true
  · have hcheck := keeps_releaseCheck (e := e) path w
    obtain ⟨w₁, hw₁⟩ : ∃ w₁, releaseCheck e path w = (.ok true, w₁) := ⟨_, Prod.ext h rfl⟩
    rw [hw₁] at hcheck
    rw [perform, Exec.bind_pure_state, siafs_release, Exec.bind_of_ok hw₁, if_pos rfl,
      ← hcheck.completions_eq]
    rcases hu : nodeNamed w₁.uploads path with _ | u
    · rw [completeUpload_none hu]
      exact ⟨[], (List.append_nil _).symm, by simp⟩
    · rw [completeUpload_apply hu, completions_sendAll, releaseRequests_completion]
      exact ⟨_, rfl, by simp⟩
  · exact ⟨[], by rw [completions_release_refused h, List.append_nil], by simp⟩

/-! ## Schedules -/

inductive Handle
  | writer
  | other (n : Nat)
  deriving DecidableEq

/-- What a handle that does not write does to the path. -/
inductive Reads (path : CStr) : Op → Prop
  | open : Reads path (.open path)
  | read (size offset : Nat) : Reads path (.read path size offset)
  | release : Reads path (.release path)

/-- An interleaving of the run of the writing handle, with the writes `writes`,
and whatever other handles of the path do. -/
structure Schedule (path : CStr) (writes : List Op) (turns : List (Handle × Op)) : Prop where
  written : ∀ op ∈ writes, ∃ buf offset, op = .write path buf offset
  writer : (turns.filter fun t => t.1 = .writer).map Prod.snd =
    .open path :: writes ++ [.release path]
  others : ∀ t ∈ turns, t.1 ≠ .writer → Reads path t.2

abbrev turn (e : Env σ) (t : Handle × Op) : Sia σ Answer := perform e t.2

/-- No upload is completed before the last write of the writing handle has
returned, and none more than once. -/
structure CompletesOnce (e : Env σ) (w : World σ) (turns : List (Handle × Op)) : Prop where
  not_before : ∀ before after path buf offset,
    turns = before ++ (.writer, .write path buf offset) :: after →
    ∀ t, (Exec.runAll (turn e) (before ++ [(.writer, .write path buf offset)]) w).2.trace =
      w.trace ++ t → completedIDs t = []
  once : ∀ t, (Exec.runAll (turn e) turns w).2.trace = w.trace ++ t → (completedIDs t).Nodup

/-- No other handle releases the path while there is a node for it. -/
def Undisturbed (path : CStr) (t : Handle × Op) (w : World σ) : Prop :=
  t.1 ≠ .writer → t.2 = .release path → nodeNamed w.uploads path = none

/-- A turn that is not the release of the writing handle, nor one that finds a
node, completes nothing. -/
theorem completions_turn {t : Handle × Op} (hother : t.1 ≠ .writer → Reads path t.2)
    (hwriter : t.1 = .writer → ∀ p, t.2 ≠ .release p) (h : Undisturbed path t w) :
    completions (turn e t w).2.trace = completions w.trace := by
  by_cases hw : t.1 = .writer
  · exact completions_perform (hwriter hw) w
  have hnode := h hw
  obtain ⟨handle, op⟩ := t
  cases hother hw with
  | «open» => exact completions_perform (fun p h => by cases h) w
  | read size offset => exact completions_perform (fun p h => by cases h) w
  | release => exact completions_release_none (hnode rfl)

theorem completions_quiet {turns : List (Handle × Op)}
    (hothers : ∀ t ∈ turns, t.1 ≠ .writer → Reads path t.2)
    (hwriter : ∀ t ∈ turns, t.1 = .writer → ∀ p, t.2 ≠ .release p)
    (h : Exec.Along (Undisturbed path) (turn e) turns w) :
    completions (Exec.runAll (turn e) turns w).2.trace = completions w.trace := by
  refine Exec.runAll_along (I := fun w' => completions w'.trace = completions w.trace)
    (fun t w' hC hI => ?_)
    turns (Exec.along_and (p := fun t => (t.1 ≠ .writer → Reads path t.2) ∧
      (t.1 = .writer → ∀ p, t.2 ≠ .release p)) (fun t ht => ⟨hothers t ht, hwriter t ht⟩) h) rfl
  exact (completions_turn hC.1.1 hC.1.2 hC.2).trans hI

theorem Schedule.not_release {writes : List Op} {turns : List (Handle × Op)}
    (h : Schedule path writes turns) {op : Op} (hop : op ∈ Op.open path :: writes) (p : CStr) :
    op ≠ .release p := by
  rintro rfl
  rcases List.mem_cons.mp hop with hcase | hcase
  · cases hcase
  · obtain ⟨buf, offset, hcase⟩ := h.written _ hcase
    cases hcase

/-- The turns of the writing handle up to one of its writes. -/
theorem Schedule.before_write {writes : List Op} {before after : List (Handle × Op)}
    {path' : CStr} {buf : Bytes} {offset : Nat}
    (h : Schedule path writes (before ++ (.writer, .write path' buf offset) :: after)) :
    ∀ t ∈ before ++ [(.writer, .write path' buf offset)], t.1 = .writer →
      ∀ p, t.2 ≠ .release p := by
  have hwriter := h.writer
  rw [List.filter_append, List.filter_cons_of_pos (by rfl), List.map_append, List.map_cons] at hwriter
  have hearlier := congrArg List.dropLast hwriter
  rw [List.dropLast_append_of_ne_nil (List.cons_ne_nil _ _), List.dropLast_concat] at hearlier
  intro t ht hw
  rcases List.mem_append.mp ht with ht | ht
  · refine h.not_release ?_
    rw [← hearlier]
    exact List.mem_append_left _ (List.mem_map_of_mem (List.mem_filter.mpr ⟨ht, by simpa using hw⟩))
  · rw [List.mem_singleton.mp ht]
    exact fun p hp => by cases hp

/-- The release of the writing handle is the last of its turns. -/
theorem Schedule.split {writes : List Op} {turns : List (Handle × Op)}
    (h : Schedule path writes turns) :
    ∃ before after, turns = before ++ (.writer, .release path) :: after ∧
      (∀ t ∈ before, t.1 = .writer → ∀ p, t.2 ≠ .release p) ∧
      ∀ t ∈ after, t.1 ≠ .writer := by
  obtain ⟨l, l', hl, hopen, hlast⟩ := List.map_eq_append_iff.mp h.writer
  obtain ⟨before, rest, rfl, hbefore, hrest⟩ := List.filter_eq_append_iff.mp hl
  obtain ⟨⟨handle, op⟩, l'', rfl, hop, hnil⟩ := List.map_eq_cons_iff.mp hlast
  obtain rfl := List.map_eq_nil_iff.mp hnil
  obtain ⟨quiet, after, rfl, hquiet, hhandle, hafter⟩ := List.filter_eq_cons_iff.mp hrest
  obtain rfl : op = .release path := hop
  obtain rfl : handle = .writer := by simpa using hhandle
  refine ⟨before ++ quiet, after, by simp, fun t ht hw => ?_, fun t ht hw => ?_⟩
  · rcases List.mem_append.mp ht with ht | ht
    · refine h.not_release ?_
      rw [← hopen, ← hbefore]
      exact List.mem_map_of_mem (List.mem_filter.mpr ⟨ht, by simpa using hw⟩)
    · exact absurd (by simpa using hw) (hquiet t ht)
  · have := List.filter_eq_nil_iff.mp hafter t ht
    exact this (by simpa using hw)

/-- The run of a schedule sends at most one request to complete an upload. -/
theorem Schedule.completions {writes : List Op} {turns : List (Handle × Op)}
    (h : Schedule path writes turns) (hcond : Exec.Along (Undisturbed path) (turn e) turns w) :
    ∃ l, completions (Exec.runAll (turn e) turns w).2.trace = completions w.trace ++ l ∧
      l.length ≤ 1 := by
  obtain ⟨before, after, rfl, hbefore, hafter⟩ := h.split
  have hfirst := completions_quiet (fun t ht => h.others t (List.mem_append_left _ ht)) hbefore
    (Exec.along_append hcond)
  rcases Exec.runAll_append_state (turn e) before ((.writer, .release path) :: after) w with
    ⟨x, -, he⟩ | ⟨as, has, he⟩
  · exact ⟨[], by rw [he, hfirst, List.append_nil], by simp⟩
  obtain ⟨w₁, hw₁⟩ : ∃ w₁, Exec.runAll (turn e) before w = (.ok as, w₁) :=
    ⟨_, Prod.ext has rfl⟩
  have hrest := Exec.along_drop hcond hw₁
  rw [hw₁] at hfirst he
  obtain ⟨l, hl, hlen⟩ := completions_release (e := e) path w₁
  refine ⟨l, ?_, hlen⟩
  rw [he, ← hfirst, ← hl]
  rcases Exec.runAll_cons_state (turn e) (.writer, .release path) after w₁ with
    ⟨x, -, he⟩ | ⟨a, ha, he⟩
  · rw [he]
  · rw [he]
    exact completions_quiet
      (fun t ht => h.others t (List.mem_append_right _ (List.mem_cons_of_mem _ ht)))
      (fun t ht hw => absurd hw (hafter t ht)) (hrest.2 a _ (Prod.ext ha rfl))

/-- While no other handle releases the path in the presence of a node for it, its
upload is completed at most once, and not before the last write. -/
theorem completes_once {writes : List Op} {turns : List (Handle × Op)}
    (hS : Schedule path writes turns)
    (hcond : Exec.Along (Undisturbed path) (turn e) turns w) : CompletesOnce e w turns := by
  refine ⟨?_, fun t ht => ?_⟩
  · rintro before after path' buf offset rfl t ht
    have hmem : ∀ t ∈ before ++ [(.writer, .write path' buf offset)],
        t ∈ before ++ (.writer, .write path' buf offset) :: after := by
      intro t ht
      rw [List.append_cons]
      exact List.mem_append_left _ ht
    rw [List.append_cons] at hcond
    have hquiet := completions_quiet (fun t ht => hS.others t (hmem t ht)) hS.before_write
      (Exec.along_append hcond)
    rw [ht, completions_append] at hquiet
    rw [completedIDs, List.append_right_eq_self.mp hquiet]
    rfl
  · obtain ⟨l, hl, hlen⟩ := hS.completions hcond
    rw [ht, completions_append] at hl
    obtain rfl := List.append_cancel_left hl
    have hle : (completedIDs t).length ≤ 1 := Nat.le_trans (List.length_filterMap_le _ _) hlen
    match completedIDs t, hle with
    | [], _ => exact List.nodup_nil
    | [id], _ => exact List.pairwise_singleton _ id

/-- The writes of a file of one block and a byte. -/
def blockAndByte (path : CStr) (block : Bytes) : List Op :=
  [.write path block 0, .write path [0] block.length]

/-- Another handle is released before the first write. -/
def readerFirst (path : CStr) (block : Bytes) : List (Handle × Op) :=
  [(.other 0, .open path), (.other 0, .release path), (.writer, .open path),
    (.writer, .write path block 0), (.writer, .write path [0] block.length),
    (.writer, .release path), (.other 1, .open path), (.other 1, .read path 100 0)]

/-- Another handle is released between the writes. -/
def readerBetween (path : CStr) (block : Bytes) : List (Handle × Op) :=
  [(.writer, .open path), (.other 0, .open path), (.writer, .write path block 0),
    (.other 0, .release path), (.writer, .write path [0] block.length), (.writer, .release path)]

theorem readerFirst_schedule (path : CStr) (block : Bytes) :
    Schedule path (blockAndByte path block) (readerFirst path block) where
  written op hop := by
    rcases List.mem_cons.mp hop with rfl | hop
    · exact ⟨_, _, rfl⟩
    · exact ⟨_, _, List.mem_singleton.mp hop⟩
  writer := rfl
  others t ht hw := by
    simp only [readerFirst, List.mem_cons, List.not_mem_nil, or_false] at ht
    rcases ht with rfl | rfl | rfl | rfl | rfl | rfl | rfl | rfl
    all_goals first | exact absurd rfl hw | constructor

theorem completes_once_reader_first :
    CompletesOnce hugeMount (mounted Store.blank none)
      (readerFirst (lit "/f") (List.replicate 131072 0)) := by
  refine completes_once (readerFirst_schedule (lit "/f") _)
    ⟨nofun, fun a w h => ⟨fun _ _ => ?_, fun a w h => ⟨fun hw => absurd rfl hw, fun a w h =>
      ⟨fun hw => absurd rfl hw, fun a w h => ⟨fun hw => absurd rfl hw, fun a w h =>
        ⟨fun hw => absurd rfl hw, fun a w h => ⟨nofun, fun a w h => ⟨nofun, fun a w h => trivial⟩⟩⟩⟩⟩⟩⟩⟩
  cases h
  rfl

theorem readerBetween_schedule (path : CStr) (block : Bytes) :
    Schedule path (blockAndByte path block) (readerBetween path block) where
  written := (readerFirst_schedule path block).written
  writer := rfl
  others t ht hw := by
    simp only [readerBetween, List.mem_cons, List.not_mem_nil, or_false] at ht
    rcases ht with rfl | rfl | rfl | rfl | rfl | rfl
    all_goals first | exact absurd rfl hw | constructor

/-- A write at the end of a run adds no request to complete an upload. -/
theorem completions_then {before : List (Handle × Op)} {as : List Answer} {w' : World σ}
    (hrun : Exec.runAll (turn e) before w = (.ok as, w')) {t : Handle × Op}
    (ht : ∀ p, t.2 ≠ .release p) :
    completions (Exec.runAll (turn e) (before ++ [t]) w).2.trace = completions w'.trace := by
  have hstep := completions_perform (e := e) ht w'
  rcases Exec.runAll_append_state (turn e) before [t] w with ⟨x, hx, -⟩ | ⟨as', -, he⟩
  · rw [hrun] at hx
    cases hx
  · rw [he, hrun]
    rcases Exec.runAll_cons_state (turn e) t [] w' with ⟨x, -, he⟩ | ⟨a, -, he⟩
    · rw [he, hstep]
    · rw [he]
      exact hstep

/-- The release of a handle that only opened the path completes the upload. -/
theorem readerBetween_completes {block : Bytes} {t : List (Request × Reply)}
    (hblock : hugeMount.small ≤ block.length)
    (hopens : Exec.runAll (turn hugeMount) [(.writer, .open path), (.other 0, .open path)]
      (mounted (Store.blank.put path []) none) =
        (.ok [.status 0, .status 0], { mounted (Store.blank.put path []) none with trace := t })) :
    ¬ CompletesOnce hugeMount (mounted (Store.blank.put path []) none)
      (readerBetween path block) := by
  intro honce
  have hN := mounted_named hugeMount (Store.blank.put path []) none
  have hidle : ∀ id, (Store.blank.put path []).view.pending id ≠ some path := fun id h => by
    obtain ⟨k, -, hk⟩ := (Store.blank.put path []).pending_eq_some h
    simp [Store.blank, Store.put] at hk
  obtain ⟨w₁, u, fn, hwrite, hstart, -, -, hS⟩ :=
    Session.start (w := { mounted (Store.blank.put path []) none with trace := t })
      renterd_accepts plainHost_reliable ⟨hN.recorded, hN.distinct, hN.unused⟩
      (fun last h => by cases h) hidle block
  obtain ⟨-, w₂, hrelease, -, -, -, hcompl, -⟩ :=
    hS.holds.release (e := hugeMount) renterd_accepts (cacheFine_of_none hstart.sent.L1)
  have hfirst : turn hugeMount (.writer, .write path block 0) _ =
      (.ok (.status block.length), w₁) :=
    perform_writeHuge rfl (fun h => by omega) hwrite
  have hother : turn hugeMount (.other 0, .release path) w₁ = (.ok (.status 0), w₂) :=
    perform_release hrelease
  have hrun := Exec.runAll_append_ok hopens
    (Exec.runAll_cons_ok hfirst (Exec.runAll_cons_ok hother (Exec.runAll_nil w₂)))
  have hlast := completions_then (t := (.writer, .write path [0] block.length)) hrun
    fun p h => by cases h
  have hnone := honce.not_before _ [(.writer, .release path)] path [0] block.length
    (show readerBetween path block = [(.writer, .open path), (.other 0, .open path)] ++
      [(.writer, .write path block 0), (.other 0, .release path)] ++
      (.writer, .write path [0] block.length) :: [(.writer, .release path)] from rfl)
    _ (List.nil_append _).symm
  rw [completedIDs, hlast, hcompl, List.filterMap_append] at hnone
  have hpayload := (List.append_eq_nil_iff.mp hnone).2
  rw [List.filterMap_cons_some (b := u.uploadID), List.filterMap_nil] at hpayload
  · cases hpayload
  · rw [(completePayload_completes _ _ _).uploadID]
    rfl

theorem completed_between_writes :
    Schedule (lit "/f") (blockAndByte (lit "/f") (List.replicate 131072 0))
        (readerBetween (lit "/f") (List.replicate 131072 0)) ∧
      ¬ CompletesOnce hugeMount (mounted (Store.blank.put (lit "/f") []) none)
        (readerBetween (lit "/f") (List.replicate 131072 0)) :=
  ⟨readerBetween_schedule _ _,
    readerBetween_completes (by rw [List.length_replicate]; decide) rfl⟩

end SiaFS
