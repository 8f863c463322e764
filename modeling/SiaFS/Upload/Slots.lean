/-
The slot a multipart write of the build with `SIA_HUGE_FILES` works on.

A write is `openStage`, which ends with the name of a staging file, and then
`finishWrite`.  `openStage` follows the list of uploads, the array of parts and the
name recorded in a slot without a look at any of them, except that it does notice an
empty list.  So it stays in bounds exactly when the node is in the list, the offset is
within the parts, and the slot has a name unless it gets one now; what it prints does
fit its buffers then.
-/
import SiaFS.Moves
import SiaFS.Paths.Urls
import SiaFS.Backend.Renterd

namespace SiaFS

open Percent

variable {σ : Type} (e : Env σ)

/-! ## A write in two halves -/

/-- A multipart write up to the name of its staging file. -/
def openStage (path : CStr) (upload_id : Option CStr) (offset : Nat) : Sia σ (Except Int CStr) := do
  match ← uploadNode path upload_id offset with
  | .error status => pure (.error status)
  | .ok node => do
    let tmpfn ← stagingFile e node offset
    pure (.ok tmpfn)

/-- What a multipart write does with its staging file. -/
def finishWrite (path : CStr) (upload_id : Option CStr) (buf : Bytes) (offset : Nat)
    (tmpfn : CStr) : Sia σ Int := do
  if ← appendFile e tmpfn buf then
    if 0 < lastWrite e buf.length offset then
      pushPart e path upload_id buf.length offset tmpfn
    else pure buf.length
  else pure (- EIO)

/-- The state in which a write looks for its node. -/
def askedID (path : CStr) (w : World σ) : World σ :=
  sendAll e (uploadIDRequests e path w.server) w

theorem writeHuge_eq (path : CStr) (buf : Bytes) (offset : Nat) (w : World σ) :
    writeHuge e path buf offset w =
      (openStage e path (resolvedID e path w.server) offset >>= fun stage =>
        match stage with
        | .error status => pure status
        | .ok tmpfn => finishWrite e path (resolvedID e path w.server) buf offset tmpfn)
        (askedID e path w) := by
  rw [writeHuge, Exec.bind_of_ok (sia_bus_get_uploadid_apply e path w), openStage,
    Exec.bind_assoc]
  show (uploadNode path _ offset >>= _) (askedID e path w) = _
  refine congrFun (congrArg _ (funext fun stage => ?_)) _
  cases stage with
  | error status => rfl
  | ok node =>
    rw [Exec.bind_assoc]
    rfl

section Stage

variable {e} {w : World σ} {path tmpfn : CStr} {id : Option CStr} {offset : Nat} {u : SiaUpload}

theorem openStage_ok {node : Nat} {w₁ : World σ}
    (hnode : uploadNode path id offset w = (.ok (.ok node), w₁)) :
    openStage e path id offset w =
      (stagingFile e node offset >>= fun tmpfn => pure (.ok tmpfn)) w₁ := by
  rw [openStage, Exec.bind_of_ok hnode]

theorem openStage_early {status : Int} {w₁ : World σ}
    (hnode : uploadNode path id offset w = (.ok (.error status), w₁)) :
    openStage e path id offset w = (.ok (.error status), w₁) := by
  rw [openStage, Exec.bind_of_ok hnode]
  rfl

/-- The node a write past the start of the file works on. -/
theorem uploadNode_named (id : Option CStr) (h0 : offset ≠ 0)
    (hu : nodeNamed w.uploads path = some u) :
    ∃ i, uploadNode path id offset w = (.ok (.ok i), w) ∧ w.uploads[i]? = some u := by
  obtain ⟨i, hi, hat, -⟩ := find_upload_by_path_ok hu
  exact ⟨i, uploadNode_later h0 id hi, hat⟩

theorem uploadNode_none (id : Option CStr) (h0 : offset ≠ 0)
    (hu : nodeNamed w.uploads path = none) :
    uploadNode path id offset w =
      (if w.uploads = [] then .ok (.error (-ENOENT)) else .error .nullPointer, w) := by
  rw [uploadNode, if_neg h0, Exec.get_bind, find_upload_by_path_none hu]
  split
  · rw [Exec.lift_ok_bind rfl]
    rfl
  · exact Exec.bind_of_error rfl

theorem uploadNode_start (path id : CStr) (w : World σ) :
    uploadNode path (some id) 0 w =
      (.ok (.ok ((append_upload w.uploads (newUpload path id)).length - 1)),
        { w with uploads := append_upload w.uploads (newUpload path id) }) := rfl

theorem uploadNode_start_none (path : CStr) (w : World σ) :
    uploadNode path none 0 w = (.ok (.error (-ENOMEM)), w) := rfl

end Stage

/-! ## The names recorded in the slots -/

/-- Every name in a slot is one that `tmpnam` returned, followed by the slot. -/
def Recorded (w : World σ) : Prop :=
  ∀ i s tmpfn, slotName w.uploads i s = some tmpfn → ∃ k, k < w.names ∧ tmpfn = stagingName e k s

variable {e}

theorem Recorded.setTmpfn {w w' : World σ} (h : Recorded e w) {i : Nat} {s : Fin SIA_MAX_PARTS}
    (huploads : w'.uploads = w.uploads.modify i (·.setTmpfn s (stagingName e w.names s)))
    (hnames : w'.names = w.names + 1) : Recorded e w' := by
  intro j t tmpfn hfn
  rw [huploads] at hfn
  rw [hnames]
  cases hu : w.uploads[i]? with
  | none =>
    rw [List.modify_eq_self (List.getElem?_eq_none_iff.mp hu)] at hfn
    obtain ⟨k, hk, he⟩ := h j t tmpfn hfn
    exact ⟨k, Nat.lt_succ_of_lt hk, he⟩
  | some u =>
    rw [slotName_setTmpfn hu] at hfn
    split at hfn
    · rename_i hij
      cases hfn
      exact ⟨w.names, Nat.lt_succ_self _, by rw [hij.2]⟩
    · obtain ⟨k, hk, he⟩ := h j t tmpfn hfn
      exact ⟨k, Nat.lt_succ_of_lt hk, he⟩

theorem Recorded.move {P : Permit σ} {w w' : World σ} (hm : Move e P w w') (h : Recorded e w) :
    Recorded e w' := by
  cases hm with
  | ask hr => exact h
  | cache => exact h
  | append v hfn => exact h
  | unlink hfn => exact h
  | put n body hput => exact h
  | complete hP hu => exact h
  | name i s => exact h.setTmpfn rfl rfl
  | link hlink =>
    intro j t tmpfn hfn
    exact h _ t tmpfn (slotName_append (fun _ => rfl) hfn).2
  | record hput hname htag =>
    intro j t tmpfn hfn
    exact h j t tmpfn ((slotName_setEtag _ _ _ _ _ _).symm.trans hfn)

/-- So it is in every state of every run from a mount. -/
theorem recorded_run {w₀ : World σ} (hempty : w₀.uploads = []) (ops : List Op) :
    Recorded e (Exec.runAll (perform e) ops w₀).2 := by
  refine Exec.runAll_invariant (fun op _ w h => perform_keeps e op (fun _ _ => Recorded.move) h) ?_
  intro i s tmpfn hfn
  rw [hempty] at hfn
  cases hfn

/-! ## Bounds -/

variable (e) in
/-- The write finds room for its slot: the file begins, no upload is known, or the
path has a node, the offset is within the parts and its slot has a name unless it
gets one now. -/
def WithinParts (path : CStr) (offset : Nat) (w : World σ) : Prop :=
  offset = 0 ∨ w.uploads = [] ∨
    ∃ u, nodeNamed w.uploads path = some u ∧ ∃ hs : offset / e.partBytes < SIA_MAX_PARTS,
      offset % e.partBytes = 0 ∨ (u.part ⟨_, hs⟩).tmpfn ≠ none

/-- The size of the block `sia_worker_put_multipart_from_file` builds its URL in, a
pointer taking eight bytes. -/
def finalUrlRoom (unauthenticated_url bucket path uploadid : CStr) : Nat :=
  8 * unauthenticated_url.length + 21 + 8 * (escape path).length + 8 + 8 * bucket.length + 10 +
    8 * uploadid.length + 12 + 1

variable (e) in
/-- What is made of a slot fits where it is put: in `ss`, in `tmpfn`, in `str_slot` and
in the URL of the part, each with its NUL. -/
structure SlotFits (L_tmpnam : Nat) (unauthenticated_url path : CStr) (slot : Nat)
    (tmpfn : CStr) : Prop where
  ss : (lit "." ++ decimal slot).length < 7
  tmpfn : tmpfn.length < L_tmpnam + 6
  str_slot : (decimal (slot + 1)).length < 6
  final_url : ∀ uploadid : CStr,
    (sia_worker_put_multipart_from_file_url unauthenticated_url e.bucket path uploadid
      (slot + 1)).length < finalUrlRoom unauthenticated_url e.bucket path uploadid

variable (e) in
/-- The write comes to a staging file by a slot within the parts, and all fits, or it
fails and leaves everything as it is. -/
def KeepsToParts (L_tmpnam : Nat) (unauthenticated_url path : CStr) (buf : Bytes) (offset : Nat)
    (w : World σ) : Prop :=
  (∃ tmpfn w', openStage e path (resolvedID e path w.server) offset (askedID e path w) =
      (.ok (.ok tmpfn), w') ∧ offset / e.partBytes < SIA_MAX_PARTS ∧
    SlotFits e L_tmpnam unauthenticated_url path (offset / e.partBytes) tmpfn) ∨
  ∃ status w', siafs_write e path buf offset w = (.ok status, w') ∧ status < 0 ∧
    w'.uploads = w.uploads ∧ w'.tmp = w.tmp ∧ w'.names = w.names

section Bounds

variable {w : World σ} {path tmpfn : CStr} {id : Option CStr} {offset : Nat} {buf : Bytes}

/-- Elsewhere the write leaves the array or follows a null pointer. -/
theorem openStage_faults (id : Option CStr) (h : ¬ WithinParts e path offset w) :
    ∃ x, openStage e path id offset w = (.error x, w) := by
  have h0 : offset ≠ 0 := fun h0 => h (.inl h0)
  have hne : w.uploads ≠ [] := fun hne => h (.inr (.inl hne))
  cases hu : nodeNamed w.uploads path with
  | none =>
    refine ⟨.nullPointer, ?_⟩
    have hnode := uploadNode_none id h0 hu
    rw [if_neg hne] at hnode
    rw [openStage, Exec.bind_of_error hnode]
  | some u =>
    obtain ⟨i, hnode, hi⟩ := uploadNode_named id h0 hu
    rw [openStage_ok hnode]
    by_cases hs : offset / e.partBytes < SIA_MAX_PARTS
    · have hslot : ¬ (offset % e.partBytes = 0 ∨ (u.part ⟨_, hs⟩).tmpfn ≠ none) :=
        fun hslot => h (.inr (.inr ⟨u, hu, hs, hslot⟩))
      rw [not_or, not_not] at hslot
      have hname : slotName w.uploads i ⟨_, hs⟩ = none := by
        rw [slotName, hi]
        exact hslot.2
      refine ⟨.nullPointer, Exec.bind_of_error ?_⟩
      rw [stagingFile_recorded hs hslot.1, hname]
    · exact ⟨.outOfBounds, Exec.bind_of_error (stagingFile_past (Nat.le_of_not_lt hs))⟩

/-- There the write comes to the name of a staging file, made now or recorded, or ends
early. -/
theorem openStage_within (id : Option CStr) (hrec : Recorded e w)
    (h : WithinParts e path offset w) :
    (∃ k w', openStage e path id offset w =
        (.ok (.ok (stagingName e k (offset / e.partBytes))), w') ∧
      offset / e.partBytes < SIA_MAX_PARTS) ∨
    ∃ status, openStage e path id offset w = (.ok (.error status), w) ∧ status < 0 := by
  by_cases h0 : offset = 0
  · subst h0
    cases id with
    | none => exact .inr ⟨_, openStage_early (uploadNode_start_none path w), by decide⟩
    | some id =>
      have hs : 0 / e.partBytes < SIA_MAX_PARTS := by
        rw [Nat.zero_div]
        decide
      left
      exact ⟨_, _, (openStage_ok (uploadNode_start path id w)).trans
        (Exec.bind_of_ok (stagingFile_new hs (Nat.zero_mod _))), hs⟩
  · cases hu : nodeNamed w.uploads path with
    | none =>
      rcases h with h | hempty | ⟨u, hu', -⟩
      · exact absurd h h0
      · have hnode := uploadNode_none id h0 hu
        rw [if_pos hempty] at hnode
        exact .inr ⟨_, openStage_early hnode, by decide⟩
      · rw [hu] at hu'
        cases hu'
    | some u =>
      obtain ⟨i, hnode, hi⟩ := uploadNode_named id h0 hu
      rcases h with h | hempty | ⟨u', hu', hs, hslot⟩
      · exact absurd h h0
      · rw [hempty] at hi
        cases hi
      · rw [hu] at hu'
        cases hu'
        rw [openStage_ok hnode]
        left
        by_cases hstart : offset % e.partBytes = 0
        · exact ⟨_, _, Exec.bind_of_ok (stagingFile_new hs hstart), hs⟩
        · obtain ⟨tmpfn, htmpfn⟩ := Option.ne_none_iff_exists'.mp (hslot.resolve_left hstart)
          have hname : slotName w.uploads i ⟨_, hs⟩ = some tmpfn := by
            rw [slotName, hi]
            exact htmpfn
          obtain ⟨k, -, rfl⟩ := hrec i ⟨_, hs⟩ tmpfn hname
          refine ⟨k, w, Exec.bind_of_ok ?_, hs⟩
          rw [stagingFile_recorded hs hstart, hname]

theorem le_length_escape (path : CStr) : path.length ≤ (escape path).length := by
  induction path with
  | nil => exact Nat.zero_le _
  | cons b path ih =>
    have hb : 0 < (escapeByte b).length := by
      unfold escapeByte
      split <;> exact Nat.succ_pos _
    show path.length + 1 ≤ (escapeByte b ++ escape path).length
    rw [List.length_append]
    omega

theorem slotFits {L_tmpnam : Nat} (hL : ∀ k, (e.host.tmpnam k).length < L_tmpnam)
    (hpath : path ≠ []) (unauthenticated_url : CStr) {slot : Nat} (hs : slot < SIA_MAX_PARTS)
    (k : Nat) : SlotFits e L_tmpnam unauthenticated_url path slot (stagingName e k slot) := by
  have hs : slot < 10000 := hs
  have hslot : (decimal slot).length ≤ 4 := decimal_length (by decide) hs
  have hnext : (decimal (slot + 1)).length ≤ 5 := decimal_length (by decide) (by omega)
  have hdot : (lit ".").length = 1 := rfl
  refine ⟨?_, ?_, ?_, fun uploadid => ?_⟩
  · rw [List.length_append]
    omega
  · have := hL k
    rw [stagingName, List.length_append, List.length_append]
    omega
  · omega
  · have hpos : 0 < (escape path).length :=
      Nat.lt_of_lt_of_le (List.length_pos_iff.mpr hpath) (le_length_escape path)
    have h1 : (lit "api/worker/multipart").length = 20 := rfl
    have h2 : (lit "?bucket=").length = 8 := rfl
    have h3 : (lit "&uploadid=").length = 10 := rfl
    have h4 : (lit "&partnumber=").length = 12 := rfl
    simp only [sia_worker_put_multipart_from_file_url, final_url, finalUrlRoom, List.length_append]
    omega

/-- Either way nothing is undefined up to the name of the staging file. -/
theorem KeepsToParts.ends {L_tmpnam : Nat} {unauthenticated_url : CStr}
    (h : KeepsToParts e L_tmpnam unauthenticated_url path buf offset w) :
    ((openStage e path (resolvedID e path w.server) offset
        (askedID e path w)).1.toOption.isSome ∨
      (siafs_write e path buf offset w).1.toOption.isSome) := by
  rcases h with ⟨tmpfn, w', hstage, -⟩ | ⟨status, w', hstatus, -⟩
  · rw [hstage]
    exact .inl rfl
  · rw [hstatus]
    exact .inr rfl

/-- A multipart write keeps to the parts, or fails and leaves everything as it is,
exactly when it finds room for its slot. -/
theorem write_keeps_to_parts (hH : e.hugeFiles = true) {L_tmpnam : Nat}
    (hL : ∀ k, (e.host.tmpnam k).length < L_tmpnam) (unauthenticated_url : CStr) {w₀ : World σ}
    (hempty : w₀.uploads = []) (ops : List Op) (hw : w = (Exec.runAll (perform e) ops w₀).2)
    (hpath : path ≠ []) (hmulti : ¬ (offset = 0 ∧ buf.length < e.small)) :
    KeepsToParts e L_tmpnam unauthenticated_url path buf offset w ↔ WithinParts e path offset w := by
  have hwrite : siafs_write e path buf offset w = writeHuge e path buf offset w := by
    rw [siafs_write, if_neg hmulti, if_pos hH]
  have hrec : Recorded e (askedID e path w) := by
    rw [hw]
    exact recorded_run hempty ops
  constructor
  · intro h
    by_contra hout
    obtain ⟨x, hx⟩ := openStage_faults (w := askedID e path w)
      (resolvedID e path w.server) (show ¬ WithinParts e path offset (askedID e path w) from hout)
    rcases h with ⟨tmpfn, w', hstage, -⟩ | ⟨status, w', hstatus, -⟩
    · rw [hx] at hstage
      cases hstage
    · rw [hwrite, writeHuge_eq, Exec.bind_of_error hx] at hstatus
      cases hstatus
  · intro h
    rcases openStage_within (resolvedID e path w.server) hrec h with
      ⟨k, w', hstage, hs⟩ | ⟨status, hstage, hneg⟩
    · exact .inl ⟨_, w', hstage, hs, slotFits hL hpath unauthenticated_url hs k⟩
    · refine .inr ⟨status, askedID e path w, ?_, hneg, rfl, rfl, rfl⟩
      rw [hwrite, writeHuge_eq, Exec.bind_of_ok hstage]
      rfl

end Bounds

/-! ## On a mount -/

/-- Names of at most fifteen bytes. -/
def shortNames : Host :=
  { plainHost with tmpnam := fun k => lit "/tmp/file" ++ decimal (k % 1000000) }

theorem shortNames_length (k : Nat) : (shortNames.tmpnam k).length < 20 := by
  have hk : (decimal (k % 1000000)).length ≤ 6 :=
    decimal_length (by decide) (Nat.mod_lt k (by decide))
  have hfile : (lit "/tmp/file").length = 9 := rfl
  show (lit "/tmp/file" ++ decimal (k % 1000000)).length < 20
  rw [List.length_append]
  omega

def shortMount : Env Store := { mount .fuse2 true (fun _ => false) with host := shortNames }

/-- The mount after the first block of a file. -/
def oneBlock : World Store :=
  (Exec.runAll (perform shortMount) [.write (lit "/a") (List.replicate 4096 1) 0]
    (mounted Store.blank none)).2

/-- The second block goes to the slot of the first one. -/
theorem write_keeps_to_parts_staged :
    KeepsToParts shortMount 20 (lit "http://localhost:9980/") (lit "/a") [1] 4096 oneBlock := by
  have hiff : KeepsToParts shortMount 20 (lit "http://localhost:9980/") (lit "/a") [1] 4096
      oneBlock ↔ WithinParts shortMount (lit "/a") 4096 oneBlock :=
    write_keeps_to_parts rfl shortNames_length _ rfl
      [.write (lit "/a") (List.replicate 4096 1) 0] rfl (by decide) (by decide)
  have hnamed : ((nodeNamed oneBlock.uploads (lit "/a")).any
      fun u => (u.part ⟨0, by decide⟩).tmpfn.isSome) = true := by decide +kernel
  obtain ⟨u, hu, htmpfn⟩ := (Option.any_eq_true _ _).mp hnamed
  refine hiff.mpr (Or.inr (Or.inr ⟨u, hu, by decide, Or.inr ?_⟩))
  exact Option.isSome_iff_ne_none.mp htmpfn

/-- A block past the last part and one in the middle of a part not begun. -/
theorem write_leaves_parts :
    ¬ KeepsToParts shortMount 20 (lit "http://localhost:9980/") (lit "/a") [1] 41943040000
        oneBlock ∧
      ¬ KeepsToParts shortMount 20 (lit "http://localhost:9980/") (lit "/a") [1] 4198400
        oneBlock := by
  constructor <;>
  · intro h
    have hends := h.ends
    revert hends
    decide +kernel

end SiaFS
