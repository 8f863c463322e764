/-
One multipart write of the build with `SIA_HUGE_FILES`, as one step of the
staging machine.

`Stages` relates a state to the abstract slots of an upload: what the staging
files hold, which ETags the node has, and which parts were sent.  A write past
the start of the file finds the node by path and is `Geometry.write` on these
slots, whatever the server answers.  The first write of a file links a new node,
and of the nodes already in the list only the last one survives that.
-/
import SiaFS.Upload.Write

namespace SiaFS

open Staging

variable {σ : Type} (e : Env σ)

/-! ## The pushes in a trace -/

/-- The ETag a reply to the push of a part is taken to carry. -/
def putTag (reply : Reply) : Option CStr :=
  if reply.status < 300 then (headerValue reply.etag).toOption else none

/-- The pushes of one part of a path, with their bodies and their tags. -/
def putsOf (path : CStr) (n : Nat) (trace : List (Request × Reply)) :
    List (Bytes × Option CStr) :=
  trace.filterMap fun x =>
    match x.1 with
    | .worker_put_multipart q _ m body => if q = path ∧ m = n then some (body, putTag x.2) else none
    | _ => none

theorem putsOf_append (path : CStr) (n : Nat) (t t' : List (Request × Reply)) :
    putsOf path n (t ++ t') = putsOf path n t ++ putsOf path n t' :=
  List.filterMap_append

/-- A request that pushes no part of the path. -/
def Request.PutsNot (path : CStr) : Request → Prop
  | .worker_put_multipart q _ _ _ => q ≠ path
  | _ => True

theorem putsOf_eq_nil {path : CStr} {t : List (Request × Reply)}
    (h : ∀ x ∈ t, x.1.PutsNot path) (n : Nat) : putsOf path n t = [] := by
  refine List.filterMap_eq_nil_iff.mpr fun x hx => ?_
  have := h x hx
  rcases x with ⟨r, reply⟩
  cases r <;> simp_all [Request.PutsNot]

theorem uploadIDRequests_putsNot (path q : CStr) (s : σ) :
    ∀ r ∈ uploadIDRequests e path s, r.PutsNot q := by
  intro r hr
  rw [uploadIDRequests] at hr
  split at hr <;> simp at hr <;> rcases hr with rfl | rfl <;> trivial

variable {e}

theorem putAnswer_tag {path : CStr} {id : Option CStr} {n : Nat} {body : Bytes} {s : σ}
    {ans : Option CStr} (h : putAnswer e path id n body s = .ok ans) :
    ∃ id', id = some id' ∧
      putTag (e.server s (.worker_put_multipart path id' n body)).1 = ans := by
  cases id with
  | none => cases h
  | some id =>
    refine ⟨id, rfl, ?_⟩
    rw [putAnswer] at h
    rw [putTag]
    split at h
    · rename_i hst
      rw [if_pos hst]
      cases hv : headerValue (e.server s (.worker_put_multipart path id n body)).1.etag with
      | error x => rw [hv] at h; cases h
      | ok v => rw [hv] at h; cases h; rfl
    · rename_i hst
      rw [if_neg hst]
      cases h
      rfl

/-! ## What a state holds of an upload -/

/-- The node `u` is the one found for the path, and the state holds of its
upload what the slots `st` say.  Only what was sent after `base` counts. -/
structure Stages (base : List (Request × Reply)) (w : World σ) (path : CStr) (u : SiaUpload)
    (st : Slots UInt8 CStr) : Prop where
  found : nodeNamed w.uploads path = some u
  staged : ∀ s : Fin SIA_MAX_PARTS,
    (u.part s).tmpfn.map (fun fn => (w.tmp fn).getD []) = (st s).staged
  tag : ∀ s : Fin SIA_MAX_PARTS, (u.part s).etag = (st s).tag
  puts : ∃ t, w.trace = base ++ t ∧ ∀ s, putsOf path (s + 1) t = (st s).puts

/-! ## The slot a write leaves behind -/

/-- A node after a write to a slot: the file name is recorded, and the tag of an
accepted push. -/
def SiaUpload.settle (u : SiaUpload) (slot : Fin SIA_MAX_PARTS) (fn : CStr)
    (ans : Option CStr) : SiaUpload :=
  ans.elim (u.setTmpfn slot fn) ((u.setTmpfn slot fn).setEtag slot)

namespace SiaUpload

variable (u : SiaUpload) (slot : Fin SIA_MAX_PARTS) (fn : CStr) (ans : Option CStr)

@[simp] theorem settle_name : (u.settle slot fn ans).name = u.name := by
  cases ans <;> rfl

@[simp] theorem settle_uploadID : (u.settle slot fn ans).uploadID = u.uploadID := by
  cases ans <;> rfl

theorem settle_tmpfn (t : Fin SIA_MAX_PARTS) :
    ((u.settle slot fn ans).part t).tmpfn = if t = slot then some fn else (u.part t).tmpfn := by
  by_cases h : t = slot
  · subst h
    cases ans <;> simp [settle, setTmpfn, setEtag]
  · cases ans <;> simp [settle, setTmpfn, setEtag, h]

theorem settle_etag (t : Fin SIA_MAX_PARTS) :
    ((u.settle slot fn ans).part t).etag =
      if t = slot then ans <|> (u.part t).etag else (u.part t).etag := by
  by_cases h : t = slot
  · subst h
    cases ans <;> simp [settle, setTmpfn, setEtag]
  · cases ans <;> simp [settle, setTmpfn, setEtag, h]

end SiaUpload

/-- What one write leaves behind: the node `i` settled in its slot, and the
staging file `fn` with the content `v`. -/
structure Settled (e : Env σ) (rs : List Request) (w w' : World σ) (i : Nat)
    (slot : Fin SIA_MAX_PARTS) (fn : CStr) (v : Option Bytes) (ans : Option CStr) : Prop where
  uploads : w'.uploads = w.uploads.modify i (·.settle slot fn ans)
  tmp : w'.tmp = Function.update w.tmp fn v
  /-- No other slot has that file. -/
  apart : ∀ j t, slotName w.uploads j t = some fn → j = i ∧ t = slot
  named : Named e w'
  sent : Sent e rs w w'

/-- A file other than the one written holds what it held. -/
theorem staged_update {tmp : CStr → Option Bytes} {fn : CStr} {v : Option Bytes}
    {name : Option CStr} (h : name ≠ some fn) :
    name.map (fun f => (Function.update tmp fn v f).getD []) =
      name.map (fun f => (tmp f).getD []) := by
  cases name with
  | none => rfl
  | some f =>
    have hne : f ≠ fn := fun he => h (congrArg some he)
    rw [Option.map_some, Option.map_some, Function.update_of_ne hne]

/-- Requests that push no part of a path leave its pushes as they are. -/
theorem Stages.puts_sent {base : List (Request × Reply)} {w w' : World σ} {q : CStr}
    {x : SiaUpload} {sx : Slots UInt8 CStr} {rs : List Request} (hS : Stages base w q x sx)
    (h : Sent e rs w w') (hrs : ∀ r ∈ rs, r.PutsNot q) :
    ∃ t, w'.trace = base ++ t ∧ ∀ s, putsOf q (s + 1) t = (sx s).puts := by
  obtain ⟨t, ht, hputs⟩ := hS.puts
  refine ⟨t ++ (askAll e rs w.server).2, ?_, fun s => ?_⟩
  · rw [h.trace, ht, List.append_assoc]
  · rw [putsOf_append, hputs, putsOf_eq_nil, List.append_nil]
    exact fun y hy => hrs _ (askAll_requests e rs _ y hy)

section Settled

variable {w w' : World σ} {rs : List Request} {i : Nat} {slot : Fin SIA_MAX_PARTS} {fn : CStr}
  {v : Option Bytes} {ans : Option CStr} {base : List (Request × Reply)} {path : CStr}
  {u : SiaUpload} {st : Slots UInt8 CStr}

theorem Settled.names (h : Settled e rs w w' i slot fn v ans) :
    w'.uploads.map SiaUpload.name = w.uploads.map SiaUpload.name := by
  rw [h.uploads]
  exact modify_names fun u => u.settle_name slot fn ans

/-- The upload of another path is as it was. -/
theorem Settled.stages_other (h : Settled e rs w w' i slot fn v ans)
    (hu : w.uploads[i]? = some u) {q : CStr} (hq : u.name ≠ q) (hrs : ∀ r ∈ rs, r.PutsNot q)
    {x : SiaUpload} {sx : Slots UInt8 CStr} (hS : Stages base w q x sx) :
    Stages base w' q x sx := by
  obtain ⟨j, -, hj, -⟩ := find_upload_by_path_ok hS.found
  refine ⟨?_, fun s => ?_, hS.tag, hS.puts_sent h.sent hrs⟩
  · rw [h.uploads, nodeNamed_modify_ne hu hq fun u => u.settle_name slot fn ans]
    exact hS.found
  · rw [← hS.staged s, h.tmp]
    refine staged_update fun hfn => ?_
    obtain ⟨rfl, -⟩ := h.apart j s (by rw [slotName, hj, Option.bind_some, hfn])
    rw [hu] at hj
    cases hj
    exact hq (nodeNamed_name hS.found)

/-- The upload of the path itself has a new slot. -/
theorem Settled.stages_self (h : Settled e rs w w' i slot fn v ans)
    (hS : Stages base w path u st)
    (hi : find_upload_by_path w.uploads path = .ok (some i)) {fresh : Slot UInt8 CStr}
    (hstaged : fresh.staged = some (v.getD [])) (htag : fresh.tag = (ans <|> (st slot).tag))
    (hputs : ∀ s, (Function.update st slot fresh s).puts =
      (st s).puts ++ putsOf path (s + 1) (askAll e rs w.server).2) :
    Stages base w' path (u.settle slot fn ans) (Function.update st slot fresh) := by
  obtain ⟨j, hj, hu, hmod⟩ := find_upload_by_path_ok hS.found
  obtain rfl : i = j := by
    rw [hi] at hj
    cases hj
    rfl
  refine ⟨?_, fun s => ?_, fun s => ?_, ?_⟩
  · rw [h.uploads]
    exact hmod _ fun u => u.settle_name slot fn ans
  · rw [u.settle_tmpfn, h.tmp]
    by_cases hs : s = slot
    · subst hs
      rw [if_pos rfl, Option.map_some, Function.update_self, Function.update_self, hstaged]
    · have hne : (s : Nat) ≠ slot := fun he => hs (Fin.ext he)
      rw [if_neg hs, Function.update_of_ne hne, ← hS.staged s]
      refine staged_update fun hfn => ?_
      exact hs (h.apart i s (by rw [slotName, hu, Option.bind_some, hfn])).2
  · rw [u.settle_etag]
    by_cases hs : s = slot
    · subst hs
      rw [if_pos rfl, Function.update_self, htag, hS.tag]
    · have hne : (s : Nat) ≠ slot := fun he => hs (Fin.ext he)
      rw [if_neg hs, Function.update_of_ne hne, hS.tag]
  · obtain ⟨t, ht, ht'⟩ := hS.puts
    refine ⟨t ++ (askAll e rs w.server).2, ?_, fun s => ?_⟩
    · rw [h.sent.trace, ht, List.append_assoc]
    · rw [putsOf_append, ht', hputs]

end Settled

/-! ## A write past the start of the file -/

section Write

variable (e) (path : CStr) (offset size : Nat) (body : Bytes) (s : σ)

/-- The requests of a write that stages `body` in its slot. -/
def writeRequests : List Request :=
  uploadIDRequests e path s ++
    if e.geometry.pushes offset size then
      putRequests path (resolvedID e path s) (offset / e.partBytes + 1) body
    else []

/-- What the push of a write is answered, if it pushes. -/
def writeAnswer : Except Fault (Option CStr) :=
  if e.geometry.pushes offset size then
    putAnswer e path (resolvedID e path s) (offset / e.partBytes + 1) body
      (askAll e (uploadIDRequests e path s) s).1
  else .ok none

/-- What a write returns: its size, unless its push is rejected. -/
def writeStatus (ans : Option CStr) : Int :=
  if e.geometry.pushes offset size ∧ ans = none then - EIO else size

end Write

/-- One write to `path` went through: what it sent, and that it left the uploads
of other paths alone. -/
structure Wrote (e : Env σ) (path : CStr) (rs : List Request) (w w' : World σ) : Prop where
  named : Named e w'
  sent : Sent e rs w w'
  names : w'.uploads.map SiaUpload.name = w.uploads.map SiaUpload.name
  others : ∀ q, q ≠ path → ∀ base u st, Stages base w q u st → Stages base w' q u st

theorem putRequests_putsNot {path q : CStr} (h : q ≠ path) (id : Option CStr) (n : Nat)
    (body : Bytes) : ∀ r ∈ putRequests path id n body, r.PutsNot q := by
  intro r hr
  obtain ⟨id', -, rfl⟩ := List.mem_map.mp hr
  exact h.symm

theorem writeRequests_putsNot {path q : CStr} (h : q ≠ path) (offset size : Nat) (body : Bytes)
    (s : σ) : ∀ r ∈ writeRequests e path offset size body s, r.PutsNot q := by
  intro r hr
  rcases List.mem_append.mp hr with hr | hr
  · exact uploadIDRequests_putsNot e path q s r hr
  · split at hr
    · exact putRequests_putsNot h _ _ _ r hr
    · cases hr

/-- The pushes that a write adds to the trace. -/
theorem putsOf_write {path : CStr} {offset size : Nat} {body : Bytes} {s : σ}
    {ans : Option CStr} (hans : writeAnswer e path offset size body s = .ok ans) (n : Nat) :
    putsOf path (n + 1) (askAll e (writeRequests e path offset size body s) s).2 =
      if e.geometry.pushes offset size ∧ n = offset / e.partBytes then [(body, ans)] else [] := by
  rw [writeRequests, askAll_append, putsOf_append,
    putsOf_eq_nil (fun x hx => uploadIDRequests_putsNot e path path s _
      (askAll_requests e _ _ x hx)), List.nil_append]
  by_cases hp : e.geometry.pushes offset size
  · rw [writeAnswer, if_pos hp] at hans
    obtain ⟨id, hid, htag⟩ := putAnswer_tag hans
    rw [if_pos hp, hid]
    by_cases hn : n = offset / e.partBytes
    · subst hn
      simp [putRequests, askAll, putsOf, htag, hp]
    · simp [putRequests, askAll, putsOf, hn, Ne.symm hn]
  · rw [if_neg hp]
    simp [askAll, putsOf, hp]

variable {w : World σ} {path : CStr} {u : SiaUpload} {offset : Nat}
  {base : List (Request × Reply)} {st : Slots UInt8 CStr} {b buf : Bytes} {ans : Option CStr}

theorem uploadNode_later {i : Nat} (h0 : offset ≠ 0) (id : Option CStr)
    (hi : find_upload_by_path w.uploads path = .ok (some i)) :
    uploadNode path id offset w = (.ok (.ok i), w) := by
  rw [uploadNode, if_neg h0, Exec.get_bind, Exec.lift_ok_bind hi]
  rfl

/-- Up to its push, a write puts its bytes behind what its slot holds. -/
theorem writeHuge_staged (hR : e.host.Reliable) (hN : Named e w)
    (hS : Stages base w path u st) (h0 : offset ≠ 0)
    (hs : offset / e.partBytes < SIA_MAX_PARTS) (hb : e.geometry.found st offset = some b)
    (buf : Bytes) :
    ∃ i fn w₂, find_upload_by_path w.uploads path = .ok (some i) ∧
      Appended e (sendAll e (uploadIDRequests e path w.server) w) w₂ i ⟨_, hs⟩ fn (b ++ buf) ∧
      Sent e (uploadIDRequests e path w.server) w w₂ ∧
      writeHuge e path buf offset w =
        (if 0 < lastWrite e buf.length offset then
          pushPart e path (resolvedID e path w.server) buf.length offset fn
        else pure (buf.length : Int) : Sia σ Int) w₂ := by
  obtain ⟨i, hi, hu, -⟩ := find_upload_by_path_ok hS.found
  have hN' : Named e (sendAll e (uploadIDRequests e path w.server) w) :=
    ⟨hN.recorded, hN.distinct, hN.unused⟩
  obtain ⟨fn, w₁, w₂, hfile, happend, hA⟩ :=
    stage_spec hR hN' hu hs (fun _ => hS.staged ⟨_, hs⟩) hb buf
  have hi₁ : find_upload_by_path
      (sendAll e (uploadIDRequests e path w.server) w).uploads path = .ok (some i) := hi
  refine ⟨i, fn, w₂, hi, hA, ?_, ?_⟩
  · have := (sent_sendAll e (uploadIDRequests e path w.server) w).trans e hA.sent
    rwa [List.append_nil] at this
  · rw [writeHuge, Exec.bind_of_ok (sia_bus_get_uploadid_apply e path w),
      Exec.bind_of_ok (uploadNode_later h0 _ hi₁)]
    exact (Exec.bind_of_ok hfile).trans (Exec.bind_of_ok happend)

/-- The write settles the node it finds. -/
theorem writeHuge_settled (hR : e.host.Reliable) (hN : Named e w)
    (hS : Stages base w path u st) (h0 : offset ≠ 0)
    (hs : offset / e.partBytes < SIA_MAX_PARTS) (hb : e.geometry.found st offset = some b)
    (hans : writeAnswer e path offset buf.length (b ++ buf) w.server = .ok ans) :
    ∃ w' i fn v, writeHuge e path buf offset w =
        (.ok (writeStatus e offset buf.length ans), w') ∧
      find_upload_by_path w.uploads path = .ok (some i) ∧
      Settled e (writeRequests e path offset buf.length (b ++ buf) w.server) w w' i ⟨_, hs⟩ fn v
        ans ∧
      v.getD [] = if e.geometry.pushes offset buf.length ∧ ans.isSome ∧ e.verbose = false then []
        else b ++ buf := by
  obtain ⟨i, fn, w₂, hi, hA, hsent₂, hrun⟩ := writeHuge_staged hR hN hS h0 hs hb buf
  by_cases hp : e.geometry.pushes offset buf.length
  · rw [writeAnswer, if_pos hp, ← hsent₂.server] at hans
    have hnames : w₂.uploads.map SiaUpload.name = w.uploads.map SiaUpload.name := by
      rw [hA.uploads]
      exact setTmpfn_names _ _ _ _
    have hi₂ : find_upload_by_path w₂.uploads path = .ok (some i) :=
      (find_upload_by_path_congr hnames path).trans hi
    have hfn : w₂.tmp fn = some (b ++ buf) := by
      rw [hA.tmp, Function.update_self]
    obtain ⟨w', hpush, huploads, htmp, hN', hsent⟩ :=
      pushPart_spec hA.named hi₂ h0 hs hfn hans buf.length
    refine ⟨w', i, fn, if ans.isSome ∧ e.verbose = false then none else some (b ++ buf), ?_, hi,
      ⟨?_, ?_, hA.apart, hN', ?_⟩, ?_⟩
    · rw [hrun, if_pos ((lastWrite_pos_iff e _ _).mpr hp), hpush, writeStatus]
      simp only [hp, true_and]
    · rw [huploads, hA.uploads]
      cases ans with
      | none => rfl
      | some etag => exact List.modify_modify_eq _ _ _ _
    · rw [htmp, hA.tmp, Function.update_idem]
      rfl
    · rw [writeRequests, if_pos hp]
      exact hsent₂.trans e hsent
    · split <;> simp_all
  · rw [writeAnswer, if_neg hp] at hans
    cases hans
    refine ⟨w₂, i, fn, some (b ++ buf), ?_, hi, ⟨?_, hA.tmp, hA.apart, hA.named, ?_⟩, ?_⟩
    · rw [hrun, if_neg (fun h => hp ((lastWrite_pos_iff e _ _).mp h)), writeStatus]
      simp [hp]
    · exact hA.uploads
    · rw [writeRequests, if_neg hp, List.append_nil]
      exact hsent₂
    · simp [hp]

/-- A write past the start of the file is one step of the staging machine. -/
theorem writeHuge_step (hR : e.host.Reliable) (hN : Named e w)
    (hS : Stages base w path u st) (h0 : offset ≠ 0)
    (hs : offset / e.partBytes < SIA_MAX_PARTS) (hb : e.geometry.found st offset = some b)
    (hans : writeAnswer e path offset buf.length (b ++ buf) w.server = .ok ans) :
    ∃ w' u', writeHuge e path buf offset w =
        (.ok (writeStatus e offset buf.length ans), w') ∧
      Wrote e path (writeRequests e path offset buf.length (b ++ buf) w.server) w w' ∧
      u'.uploadID = u.uploadID ∧
      Stages base w' path u' (Function.update st (offset / e.partBytes)
        (e.geometry.settle (st (offset / e.partBytes)) offset buf.length (b ++ buf) ans)) := by
  obtain ⟨w', i, fn, v, hrun, hi, hset, hv⟩ := writeHuge_settled hR hN hS h0 hs hb hans
  obtain ⟨j, hj, hu, -⟩ := find_upload_by_path_ok hS.found
  obtain rfl : i = j := by
    rw [hi] at hj
    cases hj
    rfl
  have hname := nodeNamed_name hS.found
  have hputs := putsOf_write hans
  refine ⟨w', u.settle ⟨_, hs⟩ fn ans, hrun, ⟨hset.named, hset.sent, hset.names, ?_⟩,
    u.settle_uploadID _ _ _, ?_⟩
  · intro q hq base' x sx hx
    exact hset.stages_other hu (by rw [hname]; exact hq.symm)
      (writeRequests_putsNot hq _ _ _ _) hx
  · by_cases hp : e.geometry.pushes offset buf.length
    · rw [e.geometry.settle_of_pushes hp]
      refine hset.stages_self hS hi ?_ ?_ fun s => ?_
      · rw [hv]
        simp only [Slot.push, hp, true_and]
        rfl
      · cases ans with
        | none => exact congrArg (Option.map Prod.snd) (Slot.push_part_none _ _ _)
        | some t => exact congrArg (Option.map Prod.snd) (Slot.push_part_some _ _ _ _)
      · rw [hputs]
        by_cases hne : s = offset / e.partBytes
        · subst hne
          simp [hp]
        · simp [hne]
    · rw [e.geometry.settle_of_not_pushes hp]
      refine hset.stages_self hS hi ?_ ?_ fun s => ?_
      · rw [hv]
        simp [hp]
      · rw [writeAnswer, if_neg hp] at hans
        cases hans
        rfl
      · rw [hputs]
        by_cases hne : s = offset / e.partBytes
        · subst hne
          simp [hp]
        · simp [hne, hp]

/-- A write that returns found its slot staged, and its push was answered. -/
theorem writeHuge_returns (hR : e.host.Reliable) (hN : Named e w) (hS : Stages base w path u st)
    (h0 : offset ≠ 0) {r : Int} {w' : World σ}
    (hrun : writeHuge e path buf offset w = (.ok r, w')) :
    offset / e.partBytes < SIA_MAX_PARTS ∧ ∃ b ans, e.geometry.found st offset = some b ∧
      writeAnswer e path offset buf.length (b ++ buf) w.server = .ok ans := by
  obtain ⟨i, hi, hu, -⟩ := find_upload_by_path_ok hS.found
  have hi₁ : find_upload_by_path
      (sendAll e (uploadIDRequests e path w.server) w).uploads path = .ok (some i) := hi
  have hfault : ∀ x, stagingFile e i offset (sendAll e (uploadIDRequests e path w.server) w) =
      (.error x, sendAll e (uploadIDRequests e path w.server) w) → False := by
    intro x hx
    rw [writeHuge, Exec.bind_of_ok (sia_bus_get_uploadid_apply e path w),
      Exec.bind_of_ok (uploadNode_later h0 _ hi₁)] at hrun
    have := (Exec.bind_of_error hx).symm.trans hrun
    cases this
  have hs : offset / e.partBytes < SIA_MAX_PARTS := by
    by_contra hs
    exact hfault .outOfBounds (stagingFile_past (Nat.le_of_not_lt hs))
  refine ⟨hs, ?_⟩
  cases hb : e.geometry.found st offset with
  | none =>
    rw [found_eq] at hb
    by_cases hz : offset % e.partBytes = 0
    · rw [if_pos hz] at hb
      cases hb
    · rw [if_neg hz] at hb
      have hfn : (u.part ⟨_, hs⟩).tmpfn = none :=
        Option.map_eq_none_iff.mp ((hS.staged ⟨_, hs⟩).trans hb)
      have hslot : slotName (sendAll e (uploadIDRequests e path w.server) w).uploads i
          ⟨_, hs⟩ = none := by
        show (w.uploads[i]?).bind _ = none
        rw [hu, Option.bind_some, hfn]
      refine (hfault .nullPointer ?_).elim
      rw [stagingFile_recorded hs hz, hslot]
  | some b =>
    cases hans : writeAnswer e path offset buf.length (b ++ buf) w.server with
    | ok ans => exact ⟨b, ans, rfl, hans⟩
    | error x =>
      obtain ⟨j, fn, w₂, -, hA, hsent, hstaged⟩ := writeHuge_staged hR hN hS h0 hs hb buf
      by_cases hp : e.geometry.pushes offset buf.length
      · rw [writeAnswer, if_pos hp, ← hsent.server] at hans
        have hfn : w₂.tmp fn = some (b ++ buf) := by
          rw [hA.tmp, Function.update_self]
        have hput : sia_worker_put_multipart_from_file e path (resolvedID e path w.server)
            (b ++ buf).length fn (offset / e.partBytes + 1) w₂ = _ := put_from_file_apply hfn
        rw [hans] at hput
        rw [hstaged, if_pos ((lastWrite_pos_iff e _ _).mpr hp), pushPart, Exec.get_bind, hfn,
          Option.getD_some, Exec.bind_of_error hput] at hrun
        cases hrun
      · rw [writeAnswer, if_neg hp] at hans
        cases hans

/-! ## The first write of a file -/

/-- The node that `create_upload` makes. -/
def newUpload (path id : CStr) : SiaUpload :=
  { part := fun _ => { etag := none, tmpfn := none }, name := path, uploadID := id }

theorem create_upload_some (path id : CStr) :
    create_upload path (some id) = some (newUpload path id) := rfl

theorem append_upload_modify_last (uploads : List SiaUpload) (upload : SiaUpload)
    (f : SiaUpload → SiaUpload) :
    (append_upload uploads upload).modify ((append_upload uploads upload).length - 1) f =
      uploads.getLast?.toList ++ [f upload] := by
  rw [append_upload_eq]
  cases uploads.getLast? <;> rfl

/-- Of the names in the list only those of the last node stay in use. -/
theorem Named.append (hN : Named e w) {w' : World σ} {id : CStr}
    (huploads : w'.uploads = append_upload w.uploads (newUpload path id))
    (hnames : w'.names = w.names) (htmp : w'.tmp = w.tmp) : Named e w' := by
  refine ⟨fun j t fn h => ?_, fun j j' t t' fn h h' => ?_, fun k t hk => ?_⟩
  · rw [huploads] at h
    rw [hnames]
    exact hN.recorded _ t fn (slotName_append (fun _ => rfl) h).2
  · rw [huploads] at h h'
    obtain ⟨rfl, hl⟩ := slotName_append (fun _ => rfl) h
    obtain ⟨rfl, hl'⟩ := slotName_append (fun _ => rfl) h'
    exact ⟨rfl, (hN.distinct _ _ t t' fn hl hl').2⟩
  · rw [htmp]
    exact hN.unused k t (hnames ▸ hk)

/-- A first write to `path` went through: `u` is its node, the last of the new
list, and `fn` the staging file of its first slot. -/
structure Started (e : Env σ) (path : CStr) (buf : Bytes) (w w' : World σ) (u : SiaUpload)
    (fn : CStr) : Prop where
  uploads : w'.uploads = w.uploads.getLast?.toList ++ [u]
  tmp : w'.tmp = Function.update w.tmp fn (some buf)
  /-- No slot of the node that stays in the list has that file. -/
  apart : ∀ last, w.uploads.getLast? = some last → ∀ t, (last.part t).tmpfn ≠ some fn
  named : Named e w'
  sent : Sent e (uploadIDRequests e path w.server) w w'

def firstSlot : Fin SIA_MAX_PARTS := ⟨0, by decide⟩

theorem writeHuge_started (hR : e.host.Reliable) (hN : Named e w) {id : CStr}
    (hid : resolvedID e path w.server = some id) (buf : Bytes) :
    ∃ w' fn, writeHuge e path buf 0 w = (.ok buf.length, w') ∧
      Started e path buf w w' ((newUpload path id).setTmpfn firstSlot fn) fn := by
  let w₁ : World σ :=
    { sendAll e (uploadIDRequests e path w.server) w with
      uploads := append_upload w.uploads (newUpload path id) }
  have hN₁ : Named e w₁ := hN.append rfl rfl rfl
  have hz : 0 / e.partBytes = 0 := Nat.zero_div _
  have hs : 0 / e.partBytes < SIA_MAX_PARTS := by
    rw [hz]
    decide
  have hslot : (⟨0 / e.partBytes, hs⟩ : Fin SIA_MAX_PARTS) = firstSlot := Fin.ext hz
  have hfound : e.geometry.found (fun _ => Slot.empty : Slots UInt8 CStr) 0 = some [] := by
    rw [found_eq, if_pos (Nat.zero_mod _)]
  obtain ⟨fn, w₂, w', hfile, happend, hA⟩ :=
    stage_spec hR hN₁ (append_upload_last w.uploads (newUpload path id)) hs
      (fun h => absurd (Nat.zero_mod _) h) hfound buf
  rw [hslot] at hA
  have hnode : uploadNode path (resolvedID e path w.server) 0
      (sendAll e (uploadIDRequests e path w.server) w) =
        (.ok (.ok ((append_upload w.uploads (newUpload path id)).length - 1)), w₁) := by
    rw [uploadNode, if_pos rfl, hid, create_upload_some]
    rfl
  refine ⟨w', fn, ?_, ?_, hA.tmp, fun last hl t ht => ?_, hA.named, ?_⟩
  · rw [writeHuge, Exec.bind_of_ok (sia_bus_get_uploadid_apply e path w),
      Exec.bind_of_ok hnode]
    refine (Exec.bind_of_ok hfile).trans ((Exec.bind_of_ok happend).trans ?_)
    have hlast : ¬ 0 < lastWrite e buf.length 0 := fun h =>
      e.geometry.not_pushes_zero _ ((lastWrite_pos_iff e _ _).mp h)
    rw [if_pos rfl, if_neg hlast]
    rfl
  · rw [hA.uploads]
    exact append_upload_modify_last _ _ _
  · obtain ⟨h0, -⟩ := hA.apart 0 t (by simp [w₁, slotName, append_upload_eq, hl, ht])
    simp [append_upload_eq, hl] at h0
  · have := hA.sent
    exact ⟨this.server, this.trace.trans (List.append_nil _), this.L1, this.L2, this.now⟩

section Started

variable {w' : World σ} {fn : CStr}

/-- The upload that a first write begins, found unless the node that stays in
the list has the same name. -/
theorem Started.stages_self {id : CStr}
    (h : Started e path buf w w' ((newUpload path id).setTmpfn firstSlot fn) fn)
    (hlast : ∀ last, w.uploads.getLast? = some last → last.name ≠ path) :
    Stages w.trace w' path ((newUpload path id).setTmpfn firstSlot fn)
      (Function.update (fun _ => Slot.empty) 0 (Slot.empty.hold buf)) := by
  refine ⟨?_, fun s => ?_, fun s => ?_, _, h.sent.trace, fun s => ?_⟩
  · rw [h.uploads]
    exact nodeNamed_linked hlast rfl
  · rw [h.tmp]
    by_cases hs : s = firstSlot
    · subst hs
      simp [newUpload, SiaUpload.setTmpfn, firstSlot]
    · have hne : (s : Nat) ≠ 0 := fun h0 => hs (Fin.ext h0)
      simp [newUpload, SiaUpload.setTmpfn, hs, hne]
  · by_cases hs : s = firstSlot
    · subst hs
      simp [newUpload, SiaUpload.setTmpfn, firstSlot, Slot.tag, Slot.part, Slot.accepted]
    · have hne : (s : Nat) ≠ 0 := fun h0 => hs (Fin.ext h0)
      simp [newUpload, SiaUpload.setTmpfn, hs, hne, Slot.tag, Slot.part, Slot.accepted]
  · rw [putsOf_eq_nil fun y hy => uploadIDRequests_putsNot e path path _ _
      (askAll_requests e _ _ y hy)]
    by_cases hs : s = 0
    · subst hs
      simp
    · simp [hs]

/-- The upload of the last node survives the first write of another. -/
theorem Started.stages_other {u : SiaUpload} (h : Started e path buf w w' u fn) {q : CStr}
    {x : SiaUpload} (hx : w.uploads.getLast? = some x) {sx : Slots UInt8 CStr}
    (hS : Stages base w q x sx) : Stages base w' q x sx := by
  refine ⟨?_, fun s => ?_, hS.tag,
    hS.puts_sent h.sent (uploadIDRequests_putsNot e path q w.server)⟩
  · rw [h.uploads, hx]
    have := nodeNamed_name hS.found
    simp [nodeNamed, this]
  · rw [← hS.staged s, h.tmp]
    exact staged_update (h.apart x hx s)

end Started

end SiaFS
