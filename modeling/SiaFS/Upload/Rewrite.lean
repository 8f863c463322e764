/-
Writing a path again.

The node of an upload that has been completed stays in the list.  If it is still
the last one when the path is written again, it comes before the new node, and
is the one that every later write and the release find: the old upload is
completed once more and the new one never.
-/
import SiaFS.Moves
import SiaFS.Upload.InOrder

namespace SiaFS

open Staging Pieces

variable {σ : Type} {e : Env σ} {view : σ → Bucket} {w w' : World σ} {path : CStr} {c : Bytes}

/-! ## The nodes of any state -/

/-- The name and the upload ID of a node. -/
def SiaUpload.ident (u : SiaUpload) : CStr × CStr := (u.name, u.uploadID)

theorem modify_idents {uploads : List SiaUpload} {i : Nat} {f : SiaUpload → SiaUpload}
    (hf : ∀ v, (f v).ident = v.ident) :
    (uploads.modify i f).map SiaUpload.ident = uploads.map SiaUpload.ident := by
  induction uploads generalizing i with
  | nil => simp
  | cons v rest ih =>
    cases i with
    | zero => simp [hf]
    | succ i => simp [List.modify_succ_cons, ih]

/-- Without leave to link a node, a move leaves the nodes as they are, with their
IDs. -/
theorem Move.idents {P : Permit σ} (hm : Move e P w w') (h : ∀ s p i, ¬ P.link s p i) :
    w'.uploads.map SiaUpload.ident = w.uploads.map SiaUpload.ident := by
  cases hm with
  | link hlink => exact absurd hlink (h _ _ _)
  | name i s => exact modify_idents (f := (·.setTmpfn s (stagingName e w.names s))) fun _ => rfl
  | @record i s p id tag => exact modify_idents (f := (·.setEtag s tag)) fun _ => rfl
  | ask | cache | append | unlink | put | complete => rfl

/-- The node found for a path has the name and the ID it had. -/
theorem nodeNamed_ident {uploads uploads' : List SiaUpload} {u : SiaUpload}
    (h : uploads'.map SiaUpload.ident = uploads.map SiaUpload.ident)
    (hu : nodeNamed uploads path = some u) :
    ∃ u', nodeNamed uploads' path = some u' ∧ u'.uploadID = u.uploadID := by
  have hfind : ∀ l : List SiaUpload, (nodeNamed l path).map SiaUpload.ident =
      (l.map SiaUpload.ident).find? fun x => x.1 == path := by
    intro l
    rw [List.find?_map]
    rfl
  have heq := (hfind uploads').trans ((congrArg _ h).trans (hfind uploads).symm)
  rw [hu, Option.map_some] at heq
  obtain ⟨u', hu', hid⟩ := Option.map_eq_some_iff.mp heq
  exact ⟨u', hu', congrArg Prod.snd hid⟩

/-- What holds of the nodes of any state that a mount reaches: the names of their
staging files are in order, and their upload IDs were handed out. -/
structure Sound (e : Env σ) (view : σ → Bucket) (w : World σ) : Prop where
  named : Named e w
  issued : ∀ u ∈ w.uploads, (view w.server).issued u.uploadID

section Sound

variable {rejects : Nat → Prop} (hB : Backend e.server view rejects)

include hB

theorem Backend.issued_askAll {id : CStr} (rs : List Request) {s : σ} (h : (view s).issued id) :
    (view (askAll e rs s).1).issued id :=
  askAll_keeps e (I := fun s => (view s).issued id)
    (fun r _ s hs => hB.issued_keeps s r id hs) h

/-- The ID that a write works with was handed out by the time it is used. -/
theorem Backend.resolved_issued {id : CStr} {s s' : σ} (hid : resolvedID e path s = some id)
    (hs : Asked e path s s') : (view s').issued id := by
  obtain ⟨rs, rfl⟩ := hs
  by_cases hnew : ∃ i, (view s).pending i = some path
  · rcases hB.listedID_cases s path with ⟨i, hl, hp⟩ | ⟨-, hnone⟩
    · rw [resolvedID, hl] at hid
      cases hid
      exact hB.issued_askAll _ ((view s).pending_issued _ _ hp)
    · obtain ⟨i, hi⟩ := hnew
      exact absurd hi (hnone i)
  · obtain ⟨i, hi, -, hview⟩ := hB.resolvedID_new (not_exists.mp hnew)
    rw [hid] at hi
    cases hi
    rw [askAll_append]
    refine hB.issued_askAll rs ?_
    rw [hview]
    exact Or.inl rfl

theorem Sound.perform (hR : e.host.Reliable) (h : Sound e view w) (op : Op) :
    Sound e view (perform e op w).2 := by
  refine perform_keeps e op (I := Sound e view) (fun w₁ w₂ hm hw₁ => ?_) h
  have hsent : ∀ r, Sound e view (sendAll e [r] w₁) := fun r =>
    ⟨hw₁.named.congr (fun _ _ => rfl) rfl rfl,
      fun u hu => hB.issued_keeps _ r _ (hw₁.issued u hu)⟩
  cases hm with
  | ask hr => exact hsent _
  | put n body hput => exact hsent _
  | complete hP hu => exact hsent _
  | cache => exact ⟨hw₁.named.congr (fun _ _ => rfl) rfl rfl, hw₁.issued⟩
  | append v hfn => exact ⟨hw₁.named.file hR hfn rfl rfl rfl, hw₁.issued⟩
  | unlink hfn => exact ⟨hw₁.named.file hR hfn rfl rfl rfl, hw₁.issued⟩
  | link hlink =>
    refine ⟨hw₁.named.append rfl rfl rfl, fun u hu => ?_⟩
    rcases mem_append_upload hu with hu | rfl
    · exact hw₁.issued u hu
    · cases op with
      | write p buf offset =>
        obtain ⟨rfl, -, -, hid, hasked⟩ := hlink
        exact hB.resolved_issued hid hasked
      | _ => exact hlink.elim
  | name i s =>
    refine ⟨hw₁.named.name hR i s rfl rfl rfl, fun u hu => ?_⟩
    rcases mem_modify hu with hu | ⟨v, hv, rfl⟩
    · exact hw₁.issued u hu
    · exact hw₁.issued v (List.mem_of_getElem? hv)
  | @record i s p id tag =>
    refine ⟨hw₁.named.congr (fun j t => slotName_setEtag _ _ _ _ _ _) rfl rfl, fun u hu => ?_⟩
    rcases mem_modify hu with hu | ⟨v, hv, rfl⟩
    · exact hw₁.issued u hu
    · exact hw₁.issued v (List.mem_of_getElem? hv)

/-- So it is in every state of every run from a mount. -/
theorem sound_run (hR : e.host.Reliable) {w₀ : World σ} (hempty : w₀.uploads = [])
    (hN : Named e w₀) (ops : List Op) : Sound e view (Exec.runAll (perform e) ops w₀).2 := by
  refine Exec.runAll_invariant (fun op _ w h => h.perform hB hR op) ⟨hN, fun u hu => ?_⟩
  rw [hempty] at hu
  cases hu

end Sound

/-! ## The operations after the first write -/

/-- A write past the start of the path, or its release. -/
def Op.Later (path : CStr) : Op → Prop
  | .write p _ offset => p = path ∧ offset ≠ 0
  | .release p => p = path
  | _ => False

theorem uploadRun_eq (path : CStr) (h : 0 < c.length) :
    ∃ later, uploadRun e path c = .write path (piece e.small c 0) 0 :: later ∧
      (∀ op ∈ later, op.Later path) ∧
      ∀ i, 0 < i → i < e.geometry.blocks c →
        .write path (piece e.small c i) (i * e.small) ∈ later := by
  obtain ⟨n, hn⟩ := Nat.exists_eq_succ_of_ne_zero (Nat.ne_of_gt (e.geometry.blocks_pos h))
  refine ⟨(List.range n).map (fun i => .write path (piece e.small c (i + 1)) ((i + 1) * e.small)) ++
    [.release path], ?_, fun op hop => ?_, fun i h0 hi => ?_⟩
  · rw [uploadRun, hn, blockWrites, List.range_succ_eq_map, List.map_cons, List.map_map,
      Nat.zero_mul]
    rfl
  · rcases List.mem_append.mp hop with hop | hop
    · obtain ⟨i, -, rfl⟩ := List.mem_map.mp hop
      exact ⟨rfl, Nat.mul_ne_zero (Nat.succ_ne_zero i) (Nat.ne_of_gt e.small_pos)⟩
    · rw [List.mem_singleton.mp hop]
      rfl
  · obtain ⟨i, rfl⟩ := Nat.exists_eq_succ_of_ne_zero (Nat.ne_of_gt h0)
    exact List.mem_append_left _
      (List.mem_map.mpr ⟨i, List.mem_range.mpr (by omega), rfl⟩)

/-- The requests to complete an upload since `w` are for the ID. -/
def CompletesOnly (e : Env σ) (path id : CStr) (w w' : World σ) : Prop :=
  ∃ l, completions w'.trace = completions w.trace ++ l ∧
    ∀ payload ∈ l, ∃ parts, payload = completePayload e path id parts

theorem CompletesOnly.refl (e : Env σ) (path id : CStr) (w : World σ) :
    CompletesOnly e path id w w := ⟨[], (List.append_nil _).symm, nofun⟩

theorem CompletesOnly.congr {id : CStr} {w'' : World σ} (h : CompletesOnly e path id w w')
    (hcompl : completions w''.trace = completions w'.trace) : CompletesOnly e path id w w'' := by
  obtain ⟨l, hl, hall⟩ := h
  exact ⟨l, hcompl.trans hl, hall⟩

theorem Op.Later.no_link {op : Op} (h : op.Later path) (w : World σ) (s : σ) (p i : CStr) :
    ¬ (permits e w op).link s p i := by
  intro hlink
  cases op with
  | write p buf offset => exact h.2 hlink.2.1
  | _ => exact hlink

theorem Op.Later.complete {op : Op} (h : op.Later path) {p : CStr}
    (hP : (permits e w op).complete p) : p = path := by
  cases op with
  | release q => exact hP.trans h
  | _ => exact hP.elim

/-- The later operations leave the nodes as they are, and complete only the
upload whose node is found when they begin. -/
theorem later_run {ops : List Op} (hops : ∀ op ∈ ops, op.Later path) {u : SiaUpload}
    (hu : nodeNamed w.uploads path = some u) :
    (Exec.runAll (perform e) ops w).2.uploads.map SiaUpload.ident =
        w.uploads.map SiaUpload.ident ∧
      CompletesOnly e path u.uploadID w (Exec.runAll (perform e) ops w).2 := by
  refine Exec.runAll_invariant (I := fun w' =>
    w'.uploads.map SiaUpload.ident = w.uploads.map SiaUpload.ident ∧
      CompletesOnly e path u.uploadID w w') (fun op hop w₁ hw₁ => ?_)
    ⟨rfl, CompletesOnly.refl _ _ _ _⟩
  have hlater := hops op hop
  refine perform_keeps e op (I := fun w' =>
    w'.uploads.map SiaUpload.ident = w.uploads.map SiaUpload.ident ∧
      CompletesOnly e path u.uploadID w w') (fun w₂ w₃ hm hw₂ => ?_) hw₁
  obtain ⟨hids, hcompl⟩ := hw₂
  refine ⟨(hm.idents (hlater.no_link w₁)).trans hids, ?_⟩
  cases hm with
  | ask hr => exact hcompl.congr (completions_plain hr.completion w₂)
  | put n body hput => exact hcompl.congr (completions_plain rfl w₂)
  | cache | link | name | append | unlink | record => exact hcompl.congr rfl
  | complete hP hu' =>
    obtain rfl := hlater.complete hP
    obtain ⟨u'', hu'', hid⟩ := nodeNamed_ident hids hu
    rw [hu''] at hu'
    cases hu'
    obtain ⟨l, hl, hall⟩ := hcompl
    refine ⟨l ++ [_], by rw [completions_sendAll, hl, List.append_assoc]; rfl, fun payload hp => ?_⟩
    rcases List.mem_append.mp hp with hp | hp
    · exact hall payload hp
    · exact ⟨_, by rw [List.mem_singleton.mp hp, hid]⟩

/-- A write to a path that has lost its node follows a null pointer. -/
theorem write_lost (hH : e.hugeFiles = true) (buf : Bytes) {offset : Nat} (h0 : offset ≠ 0)
    (hu : nodeNamed w.uploads path = none) (hne : w.uploads ≠ []) :
    ∃ w', siafs_write e path buf offset w = (.error .nullPointer, w') := by
  have hnode : uploadNode path (resolvedID e path w.server) offset
      (sendAll e (uploadIDRequests e path w.server) w) =
        (.error .nullPointer, sendAll e (uploadIDRequests e path w.server) w) := by
    rw [uploadNode, if_neg h0, Exec.get_bind, sendAll_uploads, find_upload_by_path_none hu,
      if_neg hne]
    rfl
  rw [siafs_write_huge hH fun h => h0 h.1, writeHuge,
    Exec.bind_of_ok (sia_bus_get_uploadid_apply e path w), Exec.bind_of_error hnode]
  exact ⟨_, rfl⟩

/-- A write past the last slot leaves the array of parts. -/
theorem write_past_end (hH : e.hugeFiles = true) (buf : Bytes) {offset : Nat} (h0 : offset ≠ 0)
    (hslot : SIA_MAX_PARTS ≤ offset / e.partBytes) (hne : w.uploads ≠ []) :
    ∃ x w', siafs_write e path buf offset w = (.error x, w') := by
  cases hu : nodeNamed w.uploads path with
  | none => exact ⟨_, write_lost hH buf h0 hu hne⟩
  | some u =>
    obtain ⟨i, hi, -, -⟩ := find_upload_by_path_ok hu
    have hfile : stagingFile e i offset (sendAll e (uploadIDRequests e path w.server) w) =
        (.error .outOfBounds, sendAll e (uploadIDRequests e path w.server) w) :=
      stagingFile_past hslot
    have hi' : find_upload_by_path (sendAll e (uploadIDRequests e path w.server) w).uploads path =
        .ok (some i) := hi
    rw [siafs_write_huge hH fun h => h0 h.1, writeHuge,
      Exec.bind_of_ok (sia_bus_get_uploadid_apply e path w),
      Exec.bind_of_ok (uploadNode_later h0 _ hi')]
    exact ⟨_, _, Exec.bind_of_error hfile⟩

/-! ## Writing a path again -/

/-- `c` is written to the path and released, and is then the object there.  One
request was sent to complete an upload: it is a new one, and every ETag in the
request was obtained since the first write. -/
def Rewrites (e : Env σ) (view : σ → Bucket) (path : CStr) (c : Bytes) (w : World σ) : Prop :=
  ∃ w' answers t id parts,
    Exec.runAll (perform e) (uploadRun e path c) w = (.ok answers, w') ∧
    w'.trace = w.trace ++ t ∧
    (view w'.server).objects path = some c ∧
    completions t = [completePayload e path id parts] ∧
    ¬ (view w.server).issued id ∧
    ∀ x ∈ parts, ∃ id', PutUnder t path id' x.1 x.2

theorem completePayload_injective {id id' : CStr} {parts parts' : List (Nat × CStr)}
    (h : completePayload e path id parts = completePayload e path id' parts') : id = id' := by
  have hid := (completePayload_completes (e := e) path id parts).uploadID
  rw [h, (completePayload_completes path id' parts').uploadID] at hid
  simpa using hid.symm

/-- The first write of a run links a node at the end of the list, and finds the
node `u` for the path from then on. -/
theorem uploadRun_first {rejects : Nat → Prop} (hB : Backend e.server view rejects)
    (hR : e.host.Reliable) (hH : e.hugeFiles = true) (hN : Named e w)
    (hidle : ∀ id, (view w.server).pending id ≠ some path) (hc : e.small ≤ c.length) :
    ∃ w₁ r u v, perform e (.write path (piece e.small c 0) 0) w = (.ok r, w₁) ∧
      w₁.uploads.getLast? = some v ∧ v.name = path ∧
      nodeNamed w₁.uploads path = some u ∧ completions w₁.trace = completions w.trace ∧
      ∀ last, w.uploads.getLast? = some last → last.name = path → u = last := by
  obtain ⟨id, hid, -, -⟩ := hB.resolvedID_new hidle
  obtain ⟨w₁, fn, hrun, hstart⟩ := writeHuge_started hR hN hid (piece e.small c 0)
  have hlen : (piece e.small c 0).length = e.small :=
    length_piece_of_le (by rw [Nat.zero_add, Nat.one_mul]; exact hc)
  have hwrite := perform_writeHuge hH (fun h => by omega) hrun
  have hcompl : completions w₁.trace = completions w.trace := by
    rw [hstart.sent.completions_eq, uploadIDRequests_completion, List.append_nil]
  have hend : w₁.uploads.getLast? = some ((newUpload path id).setTmpfn firstSlot fn) := by
    rw [hstart.uploads, List.getLast?_concat]
  by_cases hlast : ∀ last, w.uploads.getLast? = some last → last.name ≠ path
  · refine ⟨w₁, _, (newUpload path id).setTmpfn firstSlot fn, _, hwrite, hend, rfl, ?_, hcompl,
      fun last h hname => absurd hname (hlast last h)⟩
    rw [hstart.uploads]
    exact nodeNamed_linked hlast rfl
  · obtain ⟨last, hl, hname⟩ : ∃ last, w.uploads.getLast? = some last ∧ last.name = path := by
      simpa using hlast
    refine ⟨w₁, _, last, _, hwrite, hend, rfl, ?_, hcompl, fun last' h _ => ?_⟩
    · rw [hstart.uploads, hl]
      simp [nodeNamed, hname]
    · rw [hl] at h
      cases h
      rfl

section Run

variable {rejects : Nat → Prop} (hB : Backend e.server view rejects) (hR : e.host.Reliable)
  (hH : e.hugeFiles = true) (hN : Named e w)
  (hidle : ∀ id, (view w.server).pending id ≠ some path) (hc : e.small ≤ c.length)

include hB hR hH hN hidle hc

/-- The node that a run links is still the last one at its end. -/
theorem uploadRun_last {answers : List Answer}
    (hrun : Exec.runAll (perform e) (uploadRun e path c) w = (.ok answers, w')) :
    ∃ last, w'.uploads.getLast? = some last ∧ last.name = path := by
  obtain ⟨later, hops, hlater, -⟩ :=
    uploadRun_eq (e := e) (c := c) path (Nat.lt_of_lt_of_le e.small_pos hc)
  obtain ⟨w₁, r, u, v, hfirst, hv, hname, hu, -⟩ := uploadRun_first hB hR hH hN hidle hc
  rw [hops] at hrun
  obtain ⟨a, w₂, ha, hrest⟩ := Exec.bind_eq_ok hrun
  rw [hfirst] at ha
  cases ha
  obtain ⟨as, w₃, hlaterrun, hend⟩ := Exec.bind_eq_ok hrest
  cases hend
  obtain ⟨hids, -⟩ := later_run (e := e) hlater hu
  have hlast := congrArg List.getLast? hids
  rw [hlaterrun, List.getLast?_map, List.getLast?_map, hv, Option.map_some] at hlast
  obtain ⟨last, hl, hident⟩ := Option.map_eq_some_iff.mp hlast
  exact ⟨last, hl, (congrArg Prod.fst hident).trans hname⟩

/-- A run that goes through has no write past the last slot. -/
theorem uploadRun_fits {answers : List Answer}
    (hrun : Exec.runAll (perform e) (uploadRun e path c) w = (.ok answers, w')) :
    c.length ≤ SIA_MAX_PARTS * e.partBytes := by
  have h0 : 0 < c.length := Nat.lt_of_lt_of_le e.small_pos hc
  obtain ⟨later, hops, hlater, hwrites⟩ := uploadRun_eq (e := e) (c := c) path h0
  obtain ⟨w₁, r, u, -, hfirst, -, -, hu, -⟩ := uploadRun_first hB hR hH hN hidle hc
  rw [hops] at hrun
  obtain ⟨a, w₂, ha, hrest⟩ := Exec.bind_eq_ok hrun
  rw [hfirst] at ha
  cases ha
  obtain ⟨as, w₃, hlaterrun, -⟩ := Exec.bind_eq_ok hrest
  by_contra hfit
  -- The first block past the last slot.
  have hstart : SIA_MAX_PARTS * SAIFS_WRITES_PER_MULTIPART * e.small =
      SIA_MAX_PARTS * e.partBytes := by
    rw [Env.partBytes, Nat.mul_comm e.small, Nat.mul_assoc]
  have hblock : SIA_MAX_PARTS * SAIFS_WRITES_PER_MULTIPART < e.geometry.blocks c := by
    refine Nat.lt_of_mul_lt_mul_right (a := e.small) ?_
    exact Nat.lt_of_lt_of_le (by omega) (e.geometry.length_le_blocks c)
  obtain ⟨pre, post, hsplit⟩ := List.append_of_mem (hwrites _ (by decide) hblock)
  rw [hsplit] at hlaterrun
  obtain ⟨bs, cs, w₄, hpre, hpost, -⟩ := Exec.runAll_append_eq_ok hlaterrun
  have hpre' : ∀ op ∈ pre, op.Later path := fun op hop =>
    hlater op (hsplit ▸ List.mem_append_left _ hop)
  obtain ⟨hids, -⟩ := later_run (e := e) hpre' hu
  rw [hpre] at hids
  have hne : w₄.uploads ≠ [] := by
    intro hnil
    rw [hnil, List.map_nil] at hids
    rw [List.map_eq_nil_iff.mp hids.symm] at hu
    cases hu
  have hoffset : SIA_MAX_PARTS * SAIFS_WRITES_PER_MULTIPART * e.small ≠ 0 :=
    Nat.mul_ne_zero (by decide) (Nat.ne_of_gt e.small_pos)
  obtain ⟨x, w₅, hfault⟩ := write_past_end hH
    (piece e.small c (SIA_MAX_PARTS * SAIFS_WRITES_PER_MULTIPART)) hoffset
    (by rw [hstart, Nat.mul_div_cancel _ e.partBytes_pos]) hne
  obtain ⟨a, w₆, hop, -⟩ := Exec.bind_eq_ok hpost
  rw [perform, Exec.bind_of_error hfault] at hop
  cases hop

end Run

section Needs

variable {rejects : Nat → Prop} (hB : Backend e.server view rejects) (hR : e.host.Reliable)
  (hH : e.hugeFiles = true) (hS : Sound e view w)
  (hidle : ∀ id, (view w.server).pending id ≠ some path) (hc : e.small ≤ c.length)

include hB hR hH hS hidle hc

/-- The last node in the list is one of another path. -/
theorem Rewrites.last (h : Rewrites e view path c w) :
    ∀ last, w.uploads.getLast? = some last → last.name ≠ path := by
  intro last hl hname
  obtain ⟨w', answers, t, id, parts, hrun, ht, -, hcompl, hfresh, -⟩ := h
  obtain ⟨later, hops, hlater, -⟩ :=
    uploadRun_eq (e := e) (c := c) path (Nat.lt_of_lt_of_le e.small_pos hc)
  obtain ⟨w₁, r, u, -, hfirst, -, -, hu, hcompl₁, hstale⟩ :=
    uploadRun_first hB hR hH hS.named hidle hc
  obtain rfl := hstale last hl hname
  rw [hops] at hrun
  obtain ⟨a, w₂, ha, hrest⟩ := Exec.bind_eq_ok hrun
  rw [hfirst] at ha
  cases ha
  obtain ⟨as, w₃, hlaterrun, hend⟩ := Exec.bind_eq_ok hrest
  cases hend
  obtain ⟨-, l, hl', hall⟩ := later_run (e := e) hlater hu
  rw [hlaterrun, hcompl₁, ht, completions_append] at hl'
  obtain rfl := List.append_cancel_left hl'
  obtain ⟨parts', heq⟩ := hall _ (hcompl ▸ List.mem_singleton_self _)
  exact hfresh (completePayload_injective heq ▸ hS.issued u (List.mem_of_getLast? hl))

/-- The release is let through. -/
theorem Rewrites.cache (h : Rewrites e view path c w) :
    CacheFine e (view w.server) w path := by
  have h0 : 0 < c.length := Nat.lt_of_lt_of_le e.small_pos hc
  have hlast := h.last hB hR hH hS hidle hc
  obtain ⟨w', answers, t, id, parts, hrun, ht, -, hcompl, -⟩ := h
  have hfit := uploadRun_fits hB hR hH hS.named hidle hc hrun
  obtain ⟨w₁, as, u, st, hblocks, hU⟩ :=
    blockWrites_run hB hR hH hS.named hlast hidle hc (e.geometry.blocks_pos h0)
      (e.geometry.blocks_lt h0) (block_slot_lt (Nat.lt_of_lt_of_le (e.geometry.blocks_lt h0) hfit))
  obtain ⟨as', bs, w₂, hblocks', hlast', -⟩ := Exec.runAll_append_eq_ok hrun
  rw [hblocks] at hblocks'
  cases hblocks'
  refine CacheFine.congr (hB.cacheFine_of_passes ?_) hU.L1.symm hU.now.symm hU.objects.symm
  -- A release that is not let through completes nothing.
  by_contra hcheck
  have hnone := completions_release_refused hcheck
  obtain ⟨a, w₃, hrel, hend⟩ := Exec.bind_eq_ok hlast'
  obtain ⟨as, w₄, hnil, hend⟩ := Exec.bind_eq_ok hend
  cases hnil
  cases hend
  rw [hrel, hU.completions, ht, completions_append, hcompl] at hnone
  simp at hnone

end Needs

theorem putsOf_putUnder {t : List (Request × Reply)} {n : Nat} {body : Bytes} {tag : CStr}
    (h : (body, some tag) ∈ putsOf path n t) : ∃ id, PutUnder t path id n tag := by
  obtain ⟨⟨r, reply⟩, hmem, hput⟩ := List.mem_filterMap.mp h
  cases r with
  | worker_put_multipart q id m body' =>
    obtain ⟨⟨rfl, rfl⟩, hpair⟩ := Option.ite_none_right_eq_some.mp hput
    obtain ⟨rfl, htag⟩ := Prod.mk.inj (Option.some.inj hpair)
    refine ⟨id, body', reply, hmem, ?_⟩
    rw [putTag] at htag
    obtain ⟨-, htag⟩ := Option.ite_none_right_eq_some.mp htag
    cases hv : headerValue reply.etag with
    | ok v => rw [hv] at htag; cases htag; rfl
    | error x => rw [hv] at htag; cases htag
  | _ => cases hput

/-- Whatever was done since the mount, a path for which nothing is pending is
written again as it should be exactly when the last node in the list is not one
of the path, the file fits in the parts, and what is cached lets the release
through. -/
theorem rewrites_iff (hB : Backend e.server view fun _ => False) (hR : e.host.Reliable)
    (hH : e.hugeFiles = true) {w₀ : World σ} (hempty : w₀.uploads = []) (hN : Named e w₀)
    (ops : List Op) (hw : w = (Exec.runAll (perform e) ops w₀).2)
    (hidle : ∀ id, (view w.server).pending id ≠ some path) (hc : e.small ≤ c.length)
    (hshort : ¬ e.small ∣ c.length) :
    Rewrites e view path c w ↔
      (∀ last, w.uploads.getLast? = some last → last.name ≠ path) ∧
        c.length ≤ SIA_MAX_PARTS * e.partBytes ∧ CacheFine e (view w.server) w path := by
  have hS : Sound e view w := hw ▸ sound_run hB hR hempty hN ops
  have h0 : 0 < c.length := Nat.lt_of_lt_of_le e.small_pos hc
  constructor
  · intro h
    obtain ⟨w', answers, t, id, parts, hrun, -⟩ := id h
    exact ⟨h.last hB hR hH hS hidle hc, uploadRun_fits hB hR hH hS.named hidle hc hrun,
      h.cache hB hR hH hS hidle hc⟩
  · rintro ⟨hlast, hfit, hcache⟩
    have hlt := e.geometry.blocks_lt h0
    obtain ⟨w', answers, u, st, hrun, hrel⟩ := released_run hB hR hH
      ⟨⟨hlast, hidle, hcache⟩, hS.named⟩ hc (e.geometry.blocks_pos h0) hlt hfit
    obtain ⟨t, ⟨t', ht⟩, hputs⟩ := hrel.puts
    rw [List.append_assoc] at ht
    have hpublished : e.geometry.published st = c :=
      (hrel.inOrder.published_eq_iff (fun _ h => h) h0
        (block_slot_lt (Nat.lt_of_lt_of_le hlt hfit))).mpr (Or.inl hshort)
    refine ⟨w', answers, t ++ t', u.uploadID, recordedParts u, hrun, ht, ?_, ?_, hrel.fresh,
      fun x hx => ?_⟩
    · rw [hrel.objects, Function.update_self, hpublished]
    · have hcompl := hrel.completions
      rw [ht, completions_append] at hcompl
      exact List.append_cancel_left hcompl
    · obtain ⟨i, hi, hetag⟩ := mem_recordedParts.mp hx
      obtain ⟨body, hbody⟩ := Slot.tag_mem_puts ((hrel.tag i).symm.trans hetag)
      rw [← hputs, ← hi] at hbody
      obtain ⟨id, body', reply, hmem, htag⟩ := putsOf_putUnder hbody
      exact ⟨id, body', reply, List.mem_append_left _ hmem, htag⟩

/-- A file of one block and a byte, all of one value. -/
def blockAnd (b : UInt8) : Bytes := List.replicate 131073 b

theorem blockAnd_fits (b : UInt8) : hugeMount.small ≤ (blockAnd b).length := by
  rw [blockAnd, List.length_replicate]
  decide

theorem first_upload (b : UInt8) :
    ∃ w answers, Exec.runAll (perform hugeMount) (uploadRun hugeMount (lit "/f") (blockAnd b))
        (mounted Store.blank none) = (.ok answers, w) ∧
      w.server.view.objects (lit "/f") = some (blockAnd b) ∧
      (∀ id, w.server.view.pending id ≠ some (lit "/f")) ∧
      ∃ last, w.uploads.getLast? = some last ∧ last.name = lit "/f" := by
  have hr := mounted_ready hugeMount (lit "/f")
  have h0 : 0 < (blockAnd b).length := by
    rw [blockAnd, List.length_replicate]
    decide
  have hfit : (blockAnd b).length ≤ SIA_MAX_PARTS * hugeMount.partBytes := by
    rw [blockAnd, List.length_replicate]
    decide
  have hshort : ¬ hugeMount.small ∣ (blockAnd b).length := by
    rw [blockAnd, List.length_replicate]
    decide
  have hlt := hugeMount.geometry.blocks_lt h0
  obtain ⟨w, answers, u, st, hrun, hrel⟩ := released_run renterd_accepts plainHost_reliable rfl hr
    (blockAnd_fits b) (hugeMount.geometry.blocks_pos h0) hlt hfit
  have hpublished := (hrel.inOrder.published_eq_iff (fun _ h => h) h0
    (block_slot_lt (Nat.lt_of_lt_of_le hlt hfit))).mpr (Or.inl hshort)
  refine ⟨w, answers, hrun, ?_, hrel.idle, ?_⟩
  · show (Store.view w.server).objects (lit "/f") = _
    rw [hrel.objects, Function.update_self, hpublished]
  · exact uploadRun_last renterd_accepts plainHost_reliable rfl
      hr.named hr.idle (blockAnd_fits b) hrun

theorem rewrites_block_and_byte :
    ∃ w, w.server.view.objects (lit "/f") = some (blockAnd 0) ∧
      (Rewrites hugeMount Store.view (lit "/f") (blockAnd 1) w ↔
        (∀ last, w.uploads.getLast? = some last → last.name ≠ lit "/f") ∧
          (blockAnd 1).length ≤ SIA_MAX_PARTS * hugeMount.partBytes ∧
          CacheFine hugeMount w.server.view w (lit "/f")) := by
  obtain ⟨w, answers, hrun, hobject, hidle, -⟩ := first_upload 0
  refine ⟨w, hobject, rewrites_iff renterd_accepts plainHost_reliable rfl rfl
    (mounted_named hugeMount Store.blank none) _ (by rw [hrun]) hidle (blockAnd_fits 1) ?_⟩
  rw [blockAnd, List.length_replicate]
  decide

/-- Writing the path once more completes the old upload again. -/
theorem rewrite_completes_old_upload :
    ∃ w answers, Exec.runAll (perform hugeMount) (uploadRun hugeMount (lit "/f") (blockAnd 0))
        (mounted Store.blank none) = (.ok answers, w) ∧
      w.server.view.objects (lit "/f") = some (blockAnd 0) ∧
      ¬ Rewrites hugeMount Store.view (lit "/f") (blockAnd 1) w := by
  obtain ⟨w, answers, hrun, hobject, hidle, last, hlast, hname⟩ := first_upload 0
  refine ⟨w, answers, hrun, hobject, fun h => ?_⟩
  have hS : Sound hugeMount Store.view w := by
    have := sound_run renterd_accepts plainHost_reliable rfl
      (mounted_named hugeMount Store.blank none) (uploadRun hugeMount (lit "/f") (blockAnd 0))
    rwa [hrun] at this
  exact h.last renterd_accepts plainHost_reliable rfl hS hidle (blockAnd_fits 1) last hlast hname

end SiaFS
