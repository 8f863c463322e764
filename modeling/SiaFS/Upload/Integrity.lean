/-
What the objects of the server are made of.

The server does what a request asks for, or it does not; nothing else is assumed of it, so
any request may fail at any time.  From an empty bucket on, every object is then put
together from parts in the order of their numbers, and each part is woven from what was
written to one path at the offsets of the part.  No byte of a file comes from another one,
and none is made up.
-/
import SiaFS.Upload.InOrder
import SiaFS.Upload.Sources

namespace SiaFS

variable {σ : Type}

/-! ## What a request does -/

/-- A request that is not refused has changed the bucket from `before` to `after`. -/
def Request.Affects (before after : Bucket) : Request → Prop
  | .objects_delete path =>
    after = { before with objects := Function.update before.objects path none }
  | .objects_rename _ _ _ =>
    after = { before with objects := after.objects } ∧ ∀ name body,
      after.objects name = some body → ∃ name', before.objects name' = some body
  | .multipart_create path _ => ∃ id, ¬ before.issued id ∧ after = before.create path id
  | .multipart_complete payload => ∃ path id listed,
      (∀ path' id' listed', CompletesWith payload path' id' listed' →
        path' = path ∧ id' = id ∧ listed' = listed) ∧
      before.pending id = some path ∧ after = before.complete path id listed
  | .worker_put path body =>
    after = { before with objects := Function.update before.objects path (some body) }
  | .worker_put_multipart path id n body =>
    before.pending id = some path ∧ ∃ tag, after = before.store id n (body, tag)
  | _ => False

/-- Every request is done or refused. -/
def Doing (server : σ → Request → Reply × σ) (view : σ → Bucket) : Prop :=
  ∀ s r, view (server s r).2 = view s ∨ r.Affects (view s) (view (server s r).2)

/-! ## What an object is made of -/

section Integral

/-- The content is made of numbered parts, and each part is allowed for the path. -/
def MadeOf (W : CStr → Nat → Bytes → Prop) (path : CStr) (content : Bytes) : Prop :=
  ∃ parts : List (Nat × Bytes), (parts.Pairwise fun x y => x.1 < y.1) ∧
    (∀ x ∈ parts, W path x.1 x.2) ∧ content = parts.flatMap Prod.snd

/-- What the request stores is allowed; it renames only where that is, and completes what a
node has recorded. -/
def Request.Fits (W : CStr → Nat → Bytes → Prop) (renames : Prop) : Request → Prop
  | .objects_rename _ _ _ => renames
  | .multipart_complete payload =>
    ∃ (path id : CStr) (u : SiaUpload), CompletesWith payload path id (recordedParts u)
  | .worker_put path body => MadeOf W path body
  | .worker_put_multipart path _ n body => W path n body
  | _ => True

/-- The objects are made of what is allowed, and so is what is stored for the pending
uploads; where nothing is renamed they are made of it under their own names. -/
structure Integral (W : CStr → Nat → Bytes → Prop) (renames : Prop) (b : Bucket) : Prop where
  objects : ∀ name content, b.objects name = some content → ∃ path,
    MadeOf W path content ∧ (¬ renames → path = name)
  parts : ∀ id path n body tag, b.pending id = some path → b.parts id n = some (body, tag) →
    W path n body

variable {W : CStr → Nat → Bytes → Prop} {renames : Prop} {b b' : Bucket} {r : Request}

theorem madeOf_nil (path : CStr) : MadeOf W path [] :=
  ⟨[], List.Pairwise.nil, by simp, rfl⟩

theorem madeOf_one {path : CStr} {body : Bytes} (n : Nat) (h : W path n body) :
    MadeOf W path body := by
  refine ⟨[(n, body)], List.pairwise_singleton _ _, fun x hx => ?_, by simp⟩
  rw [List.mem_singleton.mp hx]
  exact h

/-- The parts of an upload, put together. -/
theorem madeOf_assemble {path id : CStr} (u : SiaUpload) (hempty : ∀ n, W path n [])
    (h : ∀ n body tag, b.parts id n = some (body, tag) → W path n body) :
    MadeOf W path (b.assemble id (recordedParts u)) := by
  have hsort : (recordedParts u).mergeSort (fun x y => x.1 ≤ y.1) = recordedParts u :=
    List.mergeSort_of_pairwise ((recordedParts_sorted u).imp (by simp))
  refine ⟨(recordedParts u).map fun x => (x.1, ((b.parts id x.1).map Prod.fst).getD []), ?_, ?_, ?_⟩
  · exact (recordedParts_increasing u).map _ fun _ _ h => h
  · intro x hx
    obtain ⟨y, -, rfl⟩ := List.mem_map.mp hx
    cases hpart : b.parts id y.1 with
    | none => exact hempty y.1
    | some part => exact h y.1 part.1 part.2 hpart
  · rw [Bucket.assemble, hsort, List.flatMap_map]

theorem Integral.start (hobjects : b.objects = fun _ => none)
    (hpending : b.pending = fun _ => none) : Integral W renames b := by
  refine ⟨fun name content hname => ?_, fun id path n body tag hid => ?_⟩
  · rw [hobjects] at hname
    cases hname
  · rw [hpending] at hid
    cases hid

/-- The parts of the uploads are as they were. -/
theorem Integral.of_objects (h : Integral W renames b) (hb : b' = { b with objects := b'.objects })
    (hobjects : ∀ name content, b'.objects name = some content → ∃ path,
      MadeOf W path content ∧ (¬ renames → path = name)) : Integral W renames b' := by
  refine ⟨hobjects, ?_⟩
  rw [hb]
  exact h.parts

/-- What a request does that fits. -/
theorem Integral.affects (h : Integral W renames b) (hempty : ∀ path n, W path n [])
    (hfits : r.Fits W renames) (hr : r.Affects b b') : Integral W renames b' := by
  cases r with
  | objects path => exact hr.elim
  | objects_list path => exact hr.elim
  | multipart_listuploads path => exact hr.elim
  | multipart_listparts path id => exact hr.elim
  | worker_get path first last => exact hr.elim
  | objects_delete path =>
    obtain rfl := hr
    refine h.of_objects rfl fun name content hname => ?_
    by_cases hpath : name = path
    · subst hpath
      simp at hname
    · rw [show ({ b with objects := Function.update b.objects path none } : Bucket).objects =
        Function.update b.objects path none from rfl, Function.update_of_ne hpath] at hname
      exact h.objects name content hname
  | objects_rename source target mode =>
    refine h.of_objects hr.1 fun name content hname => ?_
    obtain ⟨name', hname'⟩ := hr.2 name content hname
    obtain ⟨path, hpath, -⟩ := h.objects name' content hname'
    exact ⟨path, hpath, fun hnone => absurd hfits hnone⟩
  | worker_put path body =>
    obtain rfl := hr
    refine h.of_objects rfl fun name content hname => ?_
    by_cases hpath : name = path
    · subst hpath
      obtain rfl : body = content := by simpa using hname
      exact ⟨name, hfits, fun _ => rfl⟩
    · rw [show ({ b with objects := Function.update b.objects path (some body) } : Bucket).objects =
        Function.update b.objects path (some body) from rfl, Function.update_of_ne hpath] at hname
      exact h.objects name content hname
  | multipart_create path key =>
    obtain ⟨id, hid, rfl⟩ := hr
    refine ⟨h.objects, fun i path' n body tag hpending hpart => ?_⟩
    by_cases hi : i = id
    · subst hi
      simp [Bucket.create] at hpart
    · simp only [Bucket.create, Function.update_of_ne hi] at hpending hpart
      exact h.parts i path' n body tag hpending hpart
  | worker_put_multipart path id n body =>
    obtain ⟨hid, tag, rfl⟩ := hr
    refine ⟨h.objects, fun i path' m body' tag' hpending hpart => ?_⟩
    rw [Bucket.store_pending] at hpending
    by_cases hi : i = id
    · subst hi
      obtain rfl : path = path' := Option.some.inj (hid.symm.trans hpending)
      by_cases hm : m = n
      · subst hm
        obtain ⟨rfl, -⟩ : body = body' ∧ tag = tag' := by simpa [Bucket.store] using hpart
        exact hfits
      · refine h.parts i path m body' tag' hpending ?_
        simpa [Bucket.store, hm] using hpart
    · refine h.parts i path' m body' tag' hpending ?_
      simpa [Bucket.store, hi] using hpart
  | multipart_complete payload =>
    obtain ⟨path, id, listed, hpayload, hpending, rfl⟩ := hr
    obtain ⟨_, _, u, hu⟩ := hfits
    obtain ⟨-, -, hlisted⟩ := hpayload _ _ _ hu
    refine ⟨fun name content hname => ?_, fun i path' n body tag hi hpart => ?_⟩
    · rw [Bucket.complete_objects] at hname
      by_cases hpath : name = path
      · subst hpath
        obtain rfl : b.assemble id listed = content := by simpa using hname
        rw [← hlisted]
        exact ⟨name, madeOf_assemble u (hempty name) fun n body tag =>
          h.parts id name n body tag hpending, fun _ => rfl⟩
      · rw [Function.update_of_ne hpath] at hname
        exact h.objects name content hname
    · rw [Bucket.complete_pending] at hi
      by_cases hid : i = id
      · subst hid
        simp at hi
      · rw [Function.update_of_ne hid] at hi
        exact h.parts i path' n body tag hi hpart

end Integral

/-! ## What a mount stores -/

variable (e : Env σ) (ops : List Op)

/-- What the operations have written to the part. -/
def Written (path : CStr) (n : Nat) (body : Bytes) : Prop :=
  Woven (ops.filterMap (Op.block e path n)) body

/-- The content is made of numbered parts, and each part of blocks written to the path. -/
def Composed (path : CStr) (content : Bytes) : Prop :=
  ∃ parts : List (Nat × Bytes), (parts.Pairwise fun x y => x.1 < y.1) ∧
    (∀ x ∈ parts, Woven (ops.filterMap (Op.block e path x.1)) x.2) ∧
    content = parts.flatMap Prod.snd

def Op.Renames : Op → Prop
  | .rename _ _ => True
  | _ => False

variable {e ops} {r : Request}

/-- A request that completes an upload lists what a node has recorded. -/
theorem Op.Requests.completed {op : Op} {payload : Json}
    (h : op.Requests e (.multipart_complete payload)) : ∃ (u : SiaUpload) (path : CStr),
      payload = completePayload e path u.uploadID (recordedParts u) := by
  cases op with
  | release path =>
    rcases h with h | ⟨_, h⟩ | ⟨u, h⟩
    · simp [Request.LooksUp] at h
    · cases h
    · exact ⟨u, path, Request.multipart_complete.inj h⟩
  | _ => simp [Op.Requests, Request.LooksUp, Request.Uploads] at h

/-- What an operation sends fits what the operations have written. -/
theorem Op.Requests.fits {op : Op} (h : op.Requests e r) (hop : op ∈ ops)
    (hsourced : r.Sourced e ops) : r.Fits (Written e ops) (∃ op ∈ ops, op.Renames) := by
  cases r with
  | objects_rename source target mode =>
    refine ⟨op, hop, ?_⟩
    cases op with
    | rename _ _ => trivial
    | _ => simp [Op.Requests, Request.LooksUp, Request.Uploads] at h
  | multipart_complete payload =>
    obtain ⟨u, path, rfl⟩ := h.completed
    exact ⟨path, u.uploadID, u, completePayload_completes _ _ _⟩
  | worker_put path body =>
    rcases hsourced with rfl | hwrite
    · exact madeOf_nil path
    · refine madeOf_one (e.partNumber 0) (Woven.of_mem (List.mem_filterMap.mpr ⟨_, hwrite, ?_⟩))
      simp [Op.block]
  | worker_put_multipart path id n body => exact hsourced
  | _ => trivial

/-! ## A run -/

/-- What is exchanged are requests of the operations, with bodies they wrote. -/
theorem run_exchanges (ops : List Op) {w : World σ} (hI : Function.Injective e.host.tmpnam)
    (huploads : w.uploads = []) (htmp : ∀ k s, w.tmp (stagingName e k s) = none) :
    ∃ t, (Exec.runAll (perform e) ops w).2.trace = w.trace ++ t ∧
      ∀ x ∈ t, (∃ op ∈ ops, op.Requests e x.1) ∧ x.1.Sourced e ops := by
  obtain ⟨t, ht, hrequests⟩ := (run_sends (e := e) ops w).trace_eq
  obtain ⟨t', ht', hsourced⟩ := ((Sources.start huploads htmp).run hI ops).sent
  obtain rfl : t = t' := List.append_cancel_left (ht.symm.trans ht')
  exact ⟨t, ht, fun x hx => ⟨hrequests x hx, hsourced x hx⟩⟩

/-- The server has got the requests of the operations, with bodies they wrote. -/
theorem run_requests (ops : List Op) {w : World σ} (hI : Function.Injective e.host.tmpnam)
    (huploads : w.uploads = []) (htmp : ∀ k s, w.tmp (stagingName e k s) = none) :
    ∃ rs, (∀ r ∈ rs, (∃ op ∈ ops, op.Requests e r) ∧ r.Sourced e ops) ∧
      (Exec.runAll (perform e) ops w).2.server = (askAll e rs w.server).1 := by
  obtain ⟨rs, -, hserver, htrace⟩ := run_sends (e := e) ops w
  obtain ⟨t, ht, hsent⟩ := run_exchanges ops hI huploads htmp
  refine ⟨rs, fun r hr => ?_, hserver⟩
  obtain rfl : t = (askAll e rs w.server).2 := List.append_cancel_left (ht.symm.trans htrace)
  rw [← askAll_requests_eq e rs w.server] at hr
  obtain ⟨x, hx, rfl⟩ := List.mem_map.mp hr
  exact hsent x hx

/-- After any run from an empty bucket, every object is composed of what the run wrote to
one path, and to its own when nothing was renamed. -/
theorem objects_composed {e : Env σ} {view : σ → Bucket} (hserver : Doing e.server view)
    (hI : Function.Injective e.host.tmpnam) {w : World σ} (huploads : w.uploads = [])
    (htmp : ∀ k s, w.tmp (stagingName e k s) = none)
    (hobjects : (view w.server).objects = fun _ => none)
    (hpending : (view w.server).pending = fun _ => none) (ops : List Op) {name : CStr}
    {content : Bytes}
    (h : (view (Exec.runAll (perform e) ops w).2.server).objects name = some content) :
    ∃ path, Composed e ops path content ∧ ((∀ op ∈ ops, ¬ op.Renames) → path = name) := by
  obtain ⟨rs, hrs, hend⟩ := run_requests ops hI huploads htmp
  have hall :
      Integral (Written e ops) (∃ op ∈ ops, op.Renames) (view (askAll e rs w.server).1) := by
    refine askAll_keeps e (I := fun s => Integral _ _ (view s)) (fun r hr s hs => ?_)
      (Integral.start hobjects hpending)
    rcases hserver s r with hsame | hdone
    · rw [hsame]
      exact hs
    · obtain ⟨⟨op, hop, hrequest⟩, hsourced⟩ := hrs r hr
      exact hs.affects (fun _ _ => Woven.empty _) (hrequest.fits hop hsourced) hdone
  rw [hend] at h
  obtain ⟨path, hmade, hname⟩ := hall.objects name content h
  refine ⟨path, hmade, fun hnone => hname ?_⟩
  rintro ⟨op, hop, hrenames⟩
  exact hnone op hop hrenames

/-! ## Of a server -/

theorem Store.complete_affects (s : Store) (payload : Json) :
    (s.complete payload).2 = s ∨
      (Request.multipart_complete payload).Affects s.view (s.complete payload).2.view := by
  unfold Store.complete
  split
  · rename_i path id parts hpath hid hparts
    dsimp only
    split
    · rename_i hlisted
      refine Or.inr ⟨path, id, _, fun path' id' listed' h => ⟨?_, ?_, ?_⟩, hlisted.1,
        view_finish s path id hlisted.1 _⟩
      · rw [h.path] at hpath
        exact Option.some.inj hpath
      · rw [h.uploadID] at hid
        exact Option.some.inj hid
      · obtain rfl : listed'.map partJson = parts :=
          Json.arr.inj (Option.some.inj (h.parts.symm.trans hparts))
        rw [List.filterMap_map, show listedPart ∘ partJson = some from funext listedPart_partJson,
          List.filterMap_some]
    · exact Or.inl rfl
  · exact Or.inl rfl

theorem renterd_doing (refuse : Nat → Bool) : Doing (renterd refuse) Store.view := by
  intro s r
  cases r with
  | objects path => exact Or.inl (congrArg Store.view (renterd_objects_state refuse s path))
  | objects_list path => exact Or.inl rfl
  | multipart_listuploads path => exact Or.inl rfl
  | multipart_listparts path id => exact Or.inl rfl
  | worker_get path first last =>
    exact Or.inl (congrArg Store.view (renterd_worker_get_state refuse s path first last))
  | objects_delete path => exact Or.inr rfl
  | objects_rename source target mode =>
    rw [renterd]
    split
    · refine Or.inr ⟨rfl, fun name body hname => ?_⟩
      rcases Option.or_eq_some_iff.mp hname with hmoved | ⟨-, hstays⟩
      · rw [Store.moved] at hmoved
        split at hmoved
        · exact ⟨_, hmoved⟩
        · cases hmoved
      · split at hstays
        · cases hstays
        · exact ⟨name, hstays⟩
    · cases hsource : s.data source with
      | none => exact Or.inl rfl
      | some body =>
        refine Or.inr ⟨rfl, fun name body' hname => ?_⟩
        by_cases hn : name = target
        · subst hn
          exact ⟨source, hsource.trans (by simpa [Store.view, Store.put] using hname)⟩
        · by_cases hn' : name = source
          · subst hn'
            simp [Store.view, Store.put, Store.delete, hn] at hname
          · exact ⟨name, by simpa [Store.view, Store.put, Store.delete, hn, hn'] using hname⟩
  | multipart_create path key =>
    refine Or.inr ⟨Store.uploadID s.uploads.length, ?_, view_create s path⟩
    rintro ⟨k, hk, hid⟩
    have := Store.uploadID_injective hid
    omega
  | multipart_complete payload =>
    exact (s.complete_affects payload).imp (congrArg Store.view) id
  | worker_put path body => exact Or.inr rfl
  | worker_put_multipart path id n body =>
    rw [renterd]
    split
    · rename_i hput
      exact Or.inr ⟨hput.2, _, view_store s id n body⟩
    · exact Or.inl rfl

theorem blank_pending : Store.blank.view.pending = fun _ => none := by
  funext id
  show Store.blank.pending id = none
  rw [Store.pending]
  split <;> rfl

/-- The build with `SIA_HUGE_FILES` and libfuse 2. -/
abbrev blockMount : Env Store := mount .fuse2 true fun _ => false

/-- Two files of a block and a byte each, uploaded at the same time. -/
def twoUploads : List Op :=
  [.write (lit "/a") (List.replicate 4096 1) 0, .write (lit "/b") (List.replicate 4096 2) 0,
    .write (lit "/a") [3] 4096, .write (lit "/b") [4] 4096, .release (lit "/b"),
    .release (lit "/a")]

set_option maxRecDepth 40000 in
theorem objects_composed_interleaved : ∃ path,
    Composed blockMount twoUploads path (List.replicate 4096 1 ++ [3]) ∧
      ((∀ op ∈ twoUploads, ¬ op.Renames) → path = lit "/a") :=
  objects_composed (w := mounted Store.blank none) (renterd_doing _)
    plainHost_reliable.tmpnam_injective rfl (fun _ _ => rfl) rfl blank_pending twoUploads
    (by decide +kernel)

end SiaFS
