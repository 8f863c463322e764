/-
Under which upload ID parts are pushed.

Every multipart write asks the server for the upload of the path, or begins a
new one, and pushes under the ID it is told, while the node keeps the ID of the
first write.  The replies are arbitrary here; as long as they lead to the ID of
the node whenever a part is pushed, the parts a node lists were pushed under its
ID.
-/
import Mathlib.Data.List.Induction
import SiaFS.Moves
import SiaFS.Upload.Session

namespace SiaFS

open Json Staging

variable {σ : Type} {e : Env σ} {w w' : World σ} {path id : CStr}

/-! ## What the replies lead to -/

/-- The ID of the last entry for the path in a listing of uploads. -/
def lastListed (path : CStr) (listing : Option Body) : Option CStr :=
  match (cJSON_Parse listing).bind (cJSON_GetObjectItemCaseSensitive · (lit "uploads")) with
  | some (.arr items) =>
    (((items.filterMap uploadEntry).filter fun x => x.2 = path).getLast?).map Prod.fst
  | _ => none

/-- The listing of the uploads has the ID in its last entry for the path, or it
has no such entry and the reply to the request for a new upload carries it. -/
def RepliesCarry (e : Env σ) (path id : CStr) (s : σ) : Prop :=
  lastListed path (e.server s (.multipart_listuploads path)).1.body = some id ∨
    lastListed path (e.server s (.multipart_listuploads path)).1.body = none ∧
      ∃ document,
        cJSON_Parse (e.server (e.server s (.multipart_listuploads path)).2
          (.multipart_create path zeroKey)).1.body = some document ∧
        cJSON_GetObjectItemCaseSensitive document (lit "uploadID") = some (.str id)

theorem foldl_matchUpload_last (path : CStr) (items : List Json) :
    items.foldl (matchUpload path) none =
      (((items.filterMap uploadEntry).filter fun x => x.2 = path).getLast?).map Prod.fst := by
  induction items using List.reverseRecOn with
  | nil => rfl
  | append_singleton items item ih =>
    rw [List.foldl_concat, ih, matchUpload_eq, List.filterMap_append, List.filter_append]
    cases hentry : uploadEntry item with
    | none => simp [hentry]
    | some entry =>
      by_cases hp : entry.2 = path
      · simp [hentry, hp]
      · simp [hentry, hp, Ne.symm hp]

theorem listedID_eq (path : CStr) (s : σ) :
    listedID e path s = lastListed path (e.server s (.multipart_listuploads path)).1.body := by
  unfold listedID lastListed
  cases cJSON_Parse (e.server s (.multipart_listuploads path)).1.body with
  | none => rfl
  | some document =>
    simp only [Option.bind_some, recoveredUploadID]
    cases cJSON_GetObjectItemCaseSensitive document (lit "uploads") with
    | none => rfl
    | some uploads =>
      cases uploads with
      | arr items => exact foldl_matchUpload_last path items
      | null | bool | num | str | obj => rfl

theorem valuestring_eq_some {item : Json} {v : CStr} :
    item.valuestring = some v ↔ item = .str v := by
  cases item <;> simp [valuestring]

/-- The ID that a write works with is the one the replies carry. -/
theorem resolvedID_eq_some_iff {s : σ} :
    resolvedID e path s = some id ↔ RepliesCarry e path id s := by
  unfold resolvedID RepliesCarry
  rw [listedID_eq]
  cases lastListed path (e.server s (.multipart_listuploads path)).1.body with
  | some listed => simp
  | none =>
    simp only [reduceCtorEq, false_or, true_and, Option.bind_eq_some_iff, newUploadID,
      valuestring_eq_some, exists_eq_right]

/-! ## Parts under the ID of their node -/

/-- The parts recorded in the node were pushed under its ID. -/
def PartsUnder (trace : List (Request × Reply)) (u : SiaUpload) : Prop :=
  ∀ (s : Fin SIA_MAX_PARTS) tag, (u.part s).etag = some tag →
    PutUnder trace u.name u.uploadID (s + 1) tag

/-- So were those of every node in the list, and of every node that an upload was
completed from. -/
structure UnderNodeID (e : Env σ) (w : World σ) : Prop where
  recorded : ∀ u ∈ w.uploads, PartsUnder w.trace u
  completed : ∀ payload ∈ completions w.trace, ∃ u, PartsUnder w.trace u ∧
    payload = completePayload e u.name u.uploadID (recordedParts u)

theorem PutUnder.later {t t' : List (Request × Reply)} {n : Nat} {tag : CStr}
    (h : PutUnder t path id n tag) : PutUnder (t ++ t') path id n tag := by
  obtain ⟨body, reply, hmem, htag⟩ := h
  exact ⟨body, reply, List.mem_append_left _ hmem, htag⟩

theorem PartsUnder.later {t t' : List (Request × Reply)} {u : SiaUpload} (h : PartsUnder t u) :
    PartsUnder (t ++ t') u := fun s tag hs => (h s tag hs).later

/-- A request that completes no upload. -/
theorem UnderNodeID.ask {r : Request} (h : UnderNodeID e w) (hr : r.completion = none) :
    UnderNodeID e (sendAll e [r] w) := by
  refine ⟨fun u hu => (h.recorded u hu).later, fun payload hp => ?_⟩
  rw [completions_plain hr] at hp
  obtain ⟨u, hu, heq⟩ := h.completed payload hp
  exact ⟨u, hu.later, heq⟩

/-- Other nodes with parts pushed under their IDs. -/
theorem UnderNodeID.nodes (h : UnderNodeID e w) (htrace : w'.trace = w.trace)
    (hnodes : ∀ u ∈ w'.uploads, PartsUnder w.trace u) : UnderNodeID e w' := by
  refine ⟨fun u hu => ?_, fun payload hp => ?_⟩
  · rw [htrace]
    exact hnodes u hu
  · rw [htrace] at hp ⊢
    exact h.completed payload hp

/-- The path of which an operation pushes a part, if it gets that far. -/
def pushedPath (e : Env σ) : Op → Option CStr
  | .write path buf offset =>
    if offset = 0 ∧ buf.length < e.small then none
    else if e.hugeFiles = true ∧ ¬ e.geometry.pushes offset buf.length then none
    else some path
  | _ => none

/-- If the operation pushes a part of a path that has a node, the replies it gets
carry the ID of the node. -/
def RepliesAgree (e : Env σ) (op : Op) (w : World σ) : Prop :=
  ∀ path, pushedPath e op = some path → ∀ u ∈ w.uploads, u.name = path →
    RepliesCarry e path u.uploadID w.server

theorem RepliesAgree.put {op : Op} (h : RepliesAgree e op w)
    (hput : (permits e w op).put path id) : ∀ u ∈ w.uploads, u.name = path → u.uploadID = id := by
  cases op with
  | write p buf offset =>
    obtain ⟨rfl, hid, hsmall, hpushes⟩ := hput
    intro u hu hname
    have hpath : pushedPath e (.write path buf offset) = some path := by
      rw [pushedPath, if_neg hsmall, if_neg fun hn => hn.2 (hpushes hn.1)]
    have := resolvedID_eq_some_iff.mpr (h path hpath u hu hname)
    exact Option.some.inj (this.symm.trans hid)
  | _ => exact hput.elim

theorem permits_agree {op : Op} {s : σ} {id' : CStr} (hlink : (permits e w op).link s path id)
    (hput : (permits e w op).put path id') : id = id' := by
  cases op with
  | write p buf offset => exact Option.some.inj (hlink.2.2.2.1.symm.trans hput.2.1)
  | _ => exact hlink.elim

/-- The nodes of a path that an operation pushes parts of have the ID that it
pushes them under. -/
def NodesAgree (P : Permit σ) (w : World σ) : Prop :=
  ∀ p i, P.put p i → ∀ u ∈ w.uploads, u.name = p → u.uploadID = i

theorem NodesAgree.modify {P : Permit σ} (h : NodesAgree P w) {i : Nat}
    {f : SiaUpload → SiaUpload} (huploads : w'.uploads = w.uploads.modify i f)
    (hname : ∀ v, (f v).name = v.name) (hid : ∀ v, (f v).uploadID = v.uploadID) :
    NodesAgree P w' := by
  intro p j hput u hu hu'
  rw [huploads] at hu
  rcases mem_modify hu with hu | ⟨v, hv, rfl⟩
  · exact h p j hput u hu hu'
  · rw [hid]
    exact h p j hput v (List.mem_of_getElem? hv) ((hname v).symm.trans hu')

theorem perform_underNodeID {op : Op} (hagree : RepliesAgree e op w) (hw : UnderNodeID e w) :
    UnderNodeID e (perform e op w).2 := by
  refine (perform_keeps e op (I := fun w' => UnderNodeID e w' ∧ NodesAgree (permits e w op) w')
    (fun w₁ w₂ hm hw₁ => ?_) ⟨hw, fun p i => hagree.put⟩).1
  obtain ⟨hunder, hnodes⟩ := hw₁
  cases hm with
  | ask hr => exact ⟨hunder.ask hr.completion, hnodes⟩
  | put n body hput => exact ⟨hunder.ask rfl, hnodes⟩
  | cache | append | unlink => exact ⟨⟨hunder.recorded, hunder.completed⟩, hnodes⟩
  | link hlink =>
    refine ⟨hunder.nodes rfl fun u hu => ?_, fun p i hput u hu hname => ?_⟩
    · rcases mem_append_upload hu with hu | rfl
      · exact hunder.recorded u hu
      · exact fun s tag hs => by cases hs
    · rcases mem_append_upload hu with hu | rfl
      · exact hnodes p i hput u hu hname
      · obtain rfl : _ = p := hname
        exact permits_agree hlink hput
  | name i s =>
    refine ⟨hunder.nodes rfl fun u hu => ?_,
      hnodes.modify (f := (·.setTmpfn s (stagingName e w₁.names s))) rfl (fun _ => rfl) fun _ => rfl⟩
    rcases mem_modify hu with hu | ⟨v, hv, rfl⟩
    · exact hunder.recorded u hu
    · intro t tag ht
      refine hunder.recorded v (List.mem_of_getElem? hv) t tag ?_
      rw [← ht]
      by_cases hts : t = s <;> simp [SiaUpload.setTmpfn, hts]
  | @record i s p id tag hput hname hsent =>
    refine ⟨hunder.nodes rfl fun u hu => ?_,
      hnodes.modify (f := (·.setEtag s tag)) rfl (fun _ => rfl) fun _ => rfl⟩
    rcases mem_modify hu with hu | ⟨v, hv, rfl⟩
    · exact hunder.recorded u hu
    · obtain rfl : v.name = p := by simpa [hv] using hname
      obtain rfl := hnodes _ _ hput v (List.mem_of_getElem? hv) rfl
      intro t tag' ht
      by_cases hts : t = s
      · subst hts
        obtain rfl : tag = tag' := by simpa [SiaUpload.setEtag] using ht
        exact hsent
      · exact hunder.recorded v (List.mem_of_getElem? hv) t tag'
          (by simpa [SiaUpload.setEtag, hts] using ht)
  | @complete p u hP hu =>
    have hparts := hunder.recorded u (List.mem_of_find?_eq_some hu)
    refine ⟨⟨fun v hv => (hunder.recorded v hv).later, fun payload hp => ?_⟩, hnodes⟩
    rw [completions_sendAll] at hp
    rcases List.mem_append.mp hp with hp | hp
    · obtain ⟨v, hv, heq⟩ := hunder.completed payload hp
      exact ⟨v, hv.later, heq⟩
    · refine ⟨u, hparts.later, ?_⟩
      rw [nodeNamed_name hu]
      exact List.mem_singleton.mp hp

/-- In every run from a new mount in which the replies to the pushes agree with
the nodes, the parts recorded in a node were pushed under its ID, and so were
the parts of every request that completes an upload. -/
theorem parts_under_node_id {ops : List Op} (huploads : w.uploads = []) (htrace : w.trace = [])
    (hcond : Exec.Along (RepliesAgree e) (perform e) ops w) :
    UnderNodeID e (Exec.runAll (perform e) ops w).2 := by
  refine Exec.runAll_along (fun _ _ => perform_underNodeID) ops hcond ⟨fun u hu => ?_, ?_⟩
  · rw [huploads] at hu
    cases hu
  · rw [htrace]
    exact nofun

/-- A block and a byte, the part of which is pushed under the ID of the listing. -/
theorem parts_under_node_id_block_and_byte :
    UnderNodeID hugeMount (Exec.runAll (perform hugeMount)
      [.write (lit "/f") (List.replicate 131072 0) 0, .write (lit "/f") [0] 131072]
      (mounted Store.blank none)).2 := by
  have hr := mounted_ready hugeMount (lit "/f")
  obtain ⟨w₁, u, fn, hwrite, hstart, -, -, hS⟩ :=
    Session.start renterd_accepts plainHost_reliable hr.named hr.last hr.idle
      (List.replicate 131072 0)
  have hsmall : ¬ ((0 : Nat) = 0 ∧ (List.replicate 131072 (0 : UInt8)).length < hugeMount.small) := by
    rw [List.length_replicate]
    decide
  refine parts_under_node_id rfl rfl ⟨fun path hpath => ?_, fun a w' h => ⟨?_, fun _ _ _ => trivial⟩⟩
  · rw [pushedPath, if_neg hsmall,
      if_pos ⟨rfl, hugeMount.geometry.not_pushes_zero _⟩] at hpath
    cases hpath
  · rw [perform_write ((congrFun (siafs_write_huge rfl hsmall) _).trans hwrite)] at h
    cases h
    intro path hpath v hv _
    rw [hstart.uploads] at hv
    obtain rfl := List.mem_singleton.mp hv
    obtain rfl : lit "/f" = path := Option.some.inj hpath
    exact resolvedID_eq_some_iff.mp
      ((renterd_accepts.resolvedID_pending (e := hugeMount) hS.pending).1)

/-- A server that lists no uploads. -/
def listless (created : Nat) : Request → Reply × Nat
  | .multipart_create _ _ =>
    (jsonReply (.obj [(lit "uploadID", .str (Store.uploadID created))]), created + 1)
  | .worker_put_multipart _ _ n _ =>
    ({ ok := true, status := 200, etag := some (quote :: Store.tag n ++ [quote]),
       contentLength := none, body := none }, created)
  | _ => (plainReply 500 [], created)

def listlessMount : Env Nat := mountOf .fuse3 true listless

theorem listless_pushes_elsewhere {path : CStr} {block : Bytes} (hlen : block.length = 131072) :
    ¬ UnderNodeID listlessMount (Exec.runAll (perform listlessMount)
      [.write path block 0, .write path [0] 131072] (mounted 0 none)).2 := by
  have hid : resolvedID listlessMount path (mounted 0 none).server = some (Store.uploadID 0) := rfl
  have hid' : resolvedID listlessMount path 1 = some (Store.uploadID 1) := rfl
  obtain ⟨w₁, fn, hfirst, hstart⟩ :=
    writeHuge_started (e := listlessMount) plainHost_reliable (mounted_named _ 0 none) hid block
  have hS := hstart.stages_self fun last h => by cases h
  have hp : listlessMount.geometry.pushes 131072 [(0 : UInt8)].length := by decide
  have hserver : w₁.server = 1 := hstart.sent.server
  have hslot : (131072 / listlessMount.partBytes : Nat) = (firstSlot : Nat) := by decide
  have hans : writeAnswer listlessMount path 131072 [(0 : UInt8)].length (block ++ [0]) w₁.server =
      .ok (some (Store.tag 1)) := by
    rw [hserver, writeAnswer, if_pos hp, hid', hslot]
    rfl
  obtain ⟨w₂, u, hsecond, hwrote, hu, hS₂⟩ :=
    writeHuge_step plainHost_reliable hstart.named hS (by decide) (by decide) rfl hans
  have hrun : (Exec.runAll (perform listlessMount)
      [.write path block 0, .write path [0] 131072] (mounted 0 none)).2 = w₂ := by
    have h1 := perform_writeHuge (e := listlessMount) rfl
      (fun h => by rw [hlen] at h; exact absurd h.2 (by decide)) hfirst
    have h2 := perform_writeHuge (e := listlessMount) rfl (fun h => absurd h.1 (by decide)) hsecond
    rw [Exec.runAll_cons_ok h1 (Exec.runAll_cons_ok h2 (Exec.runAll_nil w₂))]
  rw [hrun]
  intro hunder
  have htag : (u.part firstSlot).etag = some (Store.tag 1) := by
    rw [hS₂.tag, ← hslot, Function.update_self, listlessMount.geometry.settle_of_pushes hp]
    exact congrArg (Option.map Prod.snd) (Slot.push_part_some _ _ _ _)
  obtain ⟨body, reply, hmem, -⟩ :=
    hunder.recorded u (List.mem_of_find?_eq_some hS₂.found) firstSlot _ htag
  have hname := nodeNamed_name hS₂.found
  rw [hu, hname, hwrote.sent.trace, hstart.sent.trace] at hmem
  -- The only push in the trace is that of the second write, under the second ID.
  rcases List.mem_append.mp hmem with hmem | hmem
  · have hlist := askAll_requests _ _ _ _ hmem
    exact uploadIDRequests_putsNot listlessMount path path _ _ hlist rfl
  · have hlist := askAll_requests _ _ _ _ hmem
    rw [writeRequests, if_pos hp, hserver, hid'] at hlist
    rcases List.mem_append.mp hlist with hlist | hlist
    · exact uploadIDRequests_putsNot listlessMount path path _ _ hlist rfl
    · have hid := List.mem_singleton.mp hlist
      injection hid with _ hid
      exact absurd (Store.uploadID_injective hid) (by decide)

/-- The part is pushed under the ID of a second upload. -/
theorem part_pushed_under_new_id :
    ¬ UnderNodeID listlessMount (Exec.runAll (perform listlessMount)
      [.write (lit "/f") (List.replicate 131072 0) 0, .write (lit "/f") [0] 131072]
      (mounted 0 none)).2 :=
  listless_pushes_elsewhere List.length_replicate

end SiaFS
