/-
What becomes of an error of the server.

Each operation that changes the bucket forwards one request and returns its
success code whatever the reply is.  An error status and a connection that fails are
both lost.  A request that the server accepts does what the operation asks when it names
what the operation names: the URL of a delete and the body of a rename are not escaped,
and a rename is sent for a directory or for a file, never for both.
-/
import SiaFS.Agreeing
import SiaFS.Lib.KeyTree
import SiaFS.Paths.Kinds

namespace SiaFS

open JsonText KeyTree Percent

variable {σ : Type}

/-- A success status arrived. -/
def Reply.Accepted (reply : Reply) : Prop :=
  reply.ok = true ∧ 200 ≤ reply.status ∧ reply.status < 300

instance (reply : Reply) : Decidable reply.Accepted := by
  unfold Reply.Accepted
  infer_instance

/-- The request has been done, from the bucket before it to the one after. -/
def Request.Done (before after : Bucket) : Request → Prop
  | .worker_put path body => after.objects = Function.update before.objects path (some body)
  | .objects_delete path => after.objects = Function.update before.objects path none
  | .objects_rename source target mode =>
    if mode = lit "multi" then after.objects = moveOnto source target before.objects
    else
      (∀ body, before.objects source = some body → after.objects =
          Function.update (Function.update before.objects source none) target (some body)) ∧
        (before.objects source = none → after.objects = before.objects)
  | .multipart_complete payload =>
    ∀ path id listed, CompletesWith payload path id listed →
      after.objects = Function.update before.objects path (some (before.assemble id listed))
  | _ => True

/-- A request that leaves the bucket alone. -/
def Request.Looks : Request → Prop
  | .objects _ | .objects_list _ | .worker_get _ _ _ | .multipart_listparts _ _ => True
  | _ => False

/-- A server that refuses some requests, and does the others. -/
structure Judging (server : σ → Request → Reply × σ) (view : σ → Bucket)
    (refuses : σ → Request → Prop) : Prop where
  looks : ∀ s r, r.Looks → view (server s r).2 = view s
  accepts : ∀ s r, ¬ refuses s r →
    (server s r).1.Accepted ∧ r.Done (view s) (view (server s r).2)
  refusal : ∀ s r, refuses s r → ¬ (server s r).1.Accepted

/-- The operations that change the bucket by one request, and that request. -/
inductive Forwards (e : Env σ) : Op → Request → Prop
  | mkdir (path : CStr) : Forwards e (.mkdir path) (.worker_put (path ++ [slash]) [])
  | mknod (path : CStr) : Forwards e (.mknod path) (.worker_put path [])
  | unlink (path : CStr) : Forwards e (.unlink path) (.objects_delete path)
  | rmdir (path : CStr) : Forwards e (.rmdir path) (.objects_delete (withSlash path))
  | renameAll (source target : CStr) : Forwards e (.rename source target)
      (.objects_rename (withSlash source) (withSlash target) (lit "multi"))
  | rename (source target : CStr) : Forwards e (.rename source target)
      (.objects_rename source target (lit "single"))
  | write (path : CStr) (buf : Bytes) (h : buf.length < e.small) :
    Forwards e (.write path buf 0) (.worker_put path buf)
  | release (path id : CStr) (parts : List (Nat × CStr)) :
    Forwards e (.release path) (.multipart_complete (completePayload e path id parts))

/-- The operations meant, a write only when it is small. -/
def Op.Single (e : Env σ) (op : Op) : Prop := ∃ r, Forwards e op r

/-- What an operation returns when it succeeds. -/
def Op.success : Op → Answer
  | .write _ buf _ => .status buf.length
  | _ => .status 0

/-- After requests that only look, the run sends `r` to the server in the state `s`,
and nothing more. -/
structure SendsLast (e : Env σ) (r : Request) (s : σ) (w w' : World σ) : Prop where
  server : w'.server = (e.server s r).2
  asked : ∃ rs, (∀ r ∈ rs, r.Looks) ∧ s = (askAll e rs w.server).1 ∧
    w'.trace = w.trace ++ (askAll e rs w.server).2 ++ [(r, (e.server s r).1)]

/-! ## The request an operation forwards -/

section Operations

variable {e : Env σ} {w w₁ w' : World σ} {a : Answer}

theorem sendsLast_now (r : Request) (w : World σ) :
    SendsLast e r w.server w (sendAll e [r] w) :=
  ⟨rfl, [], by simp, rfl, by simp [sendAll, askAll]⟩

theorem SendsLast.after_asks {r : Request} {s : σ} (hr : ∃ rs, (∀ r ∈ rs, r.Looks) ∧
      w₁.server = (askAll e rs w.server).1 ∧ w₁.trace = w.trace ++ (askAll e rs w.server).2)
    (h : SendsLast e r s w₁ w') : SendsLast e r s w w' := by
  obtain ⟨rs, hrs, hs, ht⟩ := hr
  obtain ⟨rs', hrs', hs', ht'⟩ := h.asked
  refine ⟨h.server, rs ++ rs', ?_, ?_, ?_⟩
  · intro x hx
    rcases List.mem_append.mp hx with hx | hx
    · exact hrs x hx
    · exact hrs' x hx
  · rw [hs', hs, askAll_append]
  · rw [ht', ht, hs, askAll_append, List.append_assoc w.trace]

theorem Asks.looks (h : Asks e Request.IsRead w w₁) : ∃ rs, (∀ r ∈ rs, r.Looks) ∧
    w₁.server = (askAll e rs w.server).1 ∧ w₁.trace = w.trace ++ (askAll e rs w.server).2 := by
  obtain ⟨rs, hrs, hs, ht⟩ := h.asked
  refine ⟨rs, fun r hr => ?_, hs, ht⟩
  have hread := hrs r hr
  cases r <;> trivial

theorem rename_sends {source target : CStr} {code : Int}
    (hrun : siafs_rename e source target w = (.ok code, w')) :
    code = 0 ∧ ∃ r s, Forwards e (.rename source target) r ∧ SendsLast e r s w w' := by
  obtain ⟨is_dir, w₁, hdir, hrest⟩ := Exec.bind_eq_ok hrun
  have hasks := keeps_is_dir (e := e) source w
  rw [hdir] at hasks
  cases is_dir with
  | true =>
    cases hrest
    exact ⟨rfl, _, _, .renameAll source target,
      (sendsLast_now _ w₁).after_asks (Asks.looks hasks)⟩
  | false =>
    cases hrest
    exact ⟨rfl, _, _, .rename source target, (sendsLast_now _ w₁).after_asks (Asks.looks hasks)⟩

theorem release_sends {path : CStr} {code : Int}
    (hrun : siafs_release e path w = (.ok code, w'))
    (hsent : completions w'.trace ≠ completions w.trace) :
    code = 0 ∧ ∃ r s, Forwards e (.release path) r ∧ SendsLast e r s w w' := by
  obtain ⟨passed, w₁, hcheck, hrest⟩ := Exec.bind_eq_ok hrun
  have hasks := keeps_releaseCheck (e := e) path w
  rw [hcheck] at hasks
  cases passed with
  | false =>
    cases hrest
    exact absurd hasks.completions_eq hsent
  | true =>
    rw [if_pos rfl] at hrest
    rcases hu : nodeNamed w₁.uploads path with _ | u
    · rw [completeUpload_none hu] at hrest
      obtain rfl : w₁ = w' := congrArg Prod.snd hrest
      exact absurd hasks.completions_eq hsent
    · rw [completeUpload_apply hu] at hrest
      cases hrest
      have hlast : ∃ s, SendsLast e
          (.multipart_complete (completePayload e path u.uploadID (recordedParts u))) s w₁
          (sendAll e (releaseRequests e path u) w₁) := by
        rw [releaseRequests, sendAll_append]
        refine ⟨_, SendsLast.after_asks ⟨_, fun r hr => ?_, rfl, rfl⟩ (sendsLast_now _ _)⟩
        split at hr
        · rw [List.mem_singleton] at hr
          subst hr
          trivial
        · cases hr
      obtain ⟨s, hs⟩ := hlast
      exact ⟨rfl, _, s, .release path u.uploadID (recordedParts u),
        hs.after_asks (Asks.looks hasks)⟩

/-- An operation that returns has forwarded its request, and returns success. -/
theorem perform_sends {op : Op} (hop : op.Single e) (hrun : perform e op w = (.ok a, w'))
    (hsent : ∀ path, op = .release path → completions w'.trace ≠ completions w.trace) :
    a = op.success ∧ ∃ r s, Forwards e op r ∧ SendsLast e r s w w' := by
  obtain ⟨r, hr⟩ := hop
  cases hr with
  | mkdir path =>
    obtain ⟨code, w₁, hmkdir, hend⟩ := Exec.bind_eq_ok hrun
    cases hend
    rw [siafs_mkdir] at hmkdir
    split at hmkdir
    · cases hmkdir
    · cases hmkdir
      exact ⟨rfl, _, _, .mkdir path, sendsLast_now _ w⟩
  | mknod path =>
    cases hrun
    have h := sendsLast_now (e := e) (.worker_put path []) w
    exact ⟨rfl, _, _, .mknod path, h.server, h.asked⟩
  | unlink path =>
    cases hrun
    exact ⟨rfl, _, _, .unlink path, sendsLast_now _ w⟩
  | rmdir path =>
    cases hrun
    exact ⟨rfl, _, _, .rmdir path, sendsLast_now _ w⟩
  | renameAll source target =>
    obtain ⟨code, w₁, hrename, hend⟩ := Exec.bind_eq_ok hrun
    cases hend
    obtain ⟨rfl, h⟩ := rename_sends hrename
    exact ⟨rfl, h⟩
  | rename source target =>
    obtain ⟨code, w₁, hrename, hend⟩ := Exec.bind_eq_ok hrun
    cases hend
    obtain ⟨rfl, h⟩ := rename_sends hrename
    exact ⟨rfl, h⟩
  | write path buf hsmall =>
    obtain ⟨code, w₁, hwrite, hend⟩ := Exec.bind_eq_ok hrun
    cases hend
    rw [siafs_write, if_pos ⟨rfl, hsmall⟩] at hwrite
    cases hwrite
    exact ⟨rfl, _, _, .write path buf hsmall, sendsLast_now _ w⟩
  | release path id parts =>
    obtain ⟨code, w₁, hrelease, hend⟩ := Exec.bind_eq_ok hrun
    cases hend
    obtain ⟨rfl, h⟩ := release_sends hrelease (hsent path rfl)
    exact ⟨rfl, h⟩

end Operations

/-! ## What the operation asks -/

/-- The old name is gone and the new one holds what it held: the file of that name, and when
the directory is there everything below it. -/
structure Renamed (source target : CStr) (before after : CStr → Option Bytes) : Prop where
  file : ∀ body, before source = some body →
    after target = some body ∧ (source ≠ target → after source = none)
  directory : before (source ++ [slash]) = some [] → ∀ rest body,
    before (source ++ [slash] ++ rest) = some body →
      after (target ++ [slash] ++ rest) = some body ∧
        (¬ target ++ [slash] <+: source ++ [slash] ++ rest →
          after (source ++ [slash] ++ rest) = none)

/-- The bucket reflects the operation. -/
def Op.Reflected (r : Request) (before after : Bucket) : Op → Prop
  | .rename source target => Renamed source target before.objects after.objects
  | _ => r.Done before after

/-- The names in a rename that the kernel passes on. -/
def Op.Passed : Op → Prop
  | .rename source target => endsWithSlash source = false ∧ endsWithSlash target = false ∧
      (withSlash target <+: withSlash source → source = target)
  | _ => True

/-- The delete is not refused, and removes that object, or nothing where there is none. -/
def Removes (refuses : Request → Prop) (before : CStr → Option Bytes) (name : CStr) : Prop :=
  ∃ read, deletedName name = some read ∧ ¬ refuses (.objects_delete read) ∧
    (Plain name ∨ before name = none ∧ before read = none)

/-- What the operation takes to be done: its request is not refused, a delete is read as the
name meant, and a rename as both names, with no object of the other kind of the old name. -/
def Op.Meets (e : Env σ) (refuses : Request → Prop) (before : CStr → Option Bytes) (r : Request) :
    Op → Prop
  | .unlink path => Removes refuses before path
  | .rmdir path => Removes refuses before (withSlash path)
  | .rename source target => (Clean e.bucket ∧ Clean source ∧ Clean target) ∧ ¬ refuses r ∧
      (source = target ∨
        (r = .objects_rename (withSlash source) (withSlash target) (lit "multi") →
          before source = none) ∧
        (r = .objects_rename source target (lit "single") →
          before (withSlash source) ≠ some []))
  | _ => ¬ refuses r

section Asked

variable {source target : CStr} {before after : CStr → Option Bytes}

theorem not_below_itself (source : CStr) : ¬ source ++ [slash] <+: source :=
  fun hpre => by simpa using hpre.length_le

/-- A directory moved leaves the file of its name where it is. -/
theorem renamed_all_iff
    (hafter : after = moveOnto (source ++ [slash]) (target ++ [slash]) before) :
    Renamed source target before after ↔ source = target ∨ before source = none := by
  subst hafter
  have hleft : ∀ body, before source = some body →
      moveOnto (source ++ [slash]) (target ++ [slash]) before source ≠ none := by
    intro body hbody h
    rw [moveOnto, if_neg (not_below_itself source), hbody, Option.or_eq_none_iff] at h
    cases h.2
  constructor
  · intro h
    by_contra hnot
    obtain ⟨hne, hsome⟩ := not_or.mp hnot
    obtain ⟨body, hbody⟩ := Option.ne_none_iff_exists'.mp hsome
    exact hleft body hbody ((h.file body hbody).2 hne)
  · intro h
    refine ⟨fun body hbody => ?_, fun _ rest body hbody => ⟨?_, fun hnot => ?_⟩⟩
    · rcases h with rfl | hnone
      · refine ⟨?_, fun hne => absurd rfl hne⟩
        rw [moveOnto, if_neg (not_below_itself source), if_neg (not_below_itself source)]
        exact hbody
      · rw [hnone] at hbody
        cases hbody
    · rw [moveOnto, if_pos (List.prefix_append _ rest), List.drop_left, hbody, Option.some_or]
    · rw [moveOnto, if_neg hnot, if_pos (List.prefix_append _ rest), Option.none_or]

/-- A file moved leaves the directory of its name where it is. -/
theorem renamed_single_iff (hsource : endsWithSlash source = false)
    (htarget : endsWithSlash target = false)
    (habove : target ++ [slash] <+: source ++ [slash] → source = target)
    (hsome : ∀ body, before source = some body →
      after = Function.update (Function.update before source none) target (some body))
    (hnone : before source = none → after = before) :
    Renamed source target before after ↔
      source = target ∨ before (source ++ [slash]) ≠ some [] := by
  have hother : ∀ name, endsWithSlash name = true → after name = before name := by
    intro name hname
    cases hbefore : before source with
    | none => rw [hnone hbefore]
    | some body =>
      rw [hsome body hbefore, Function.update_of_ne, Function.update_of_ne]
      · rintro rfl
        rw [hsource] at hname
        cases hname
      · rintro rfl
        rw [htarget] at hname
        cases hname
  constructor
  · intro h
    by_contra hnot
    obtain ⟨hne, hmark⟩ := not_or.mp hnot
    have hmark := not_not.mp hmark
    have hgone := (h.directory hmark [] [] (by rw [List.append_nil]; exact hmark)).2
      fun hpre => hne (habove (by simpa using hpre))
    rw [List.append_nil, hother _ (by simp [endsWithSlash]), hmark] at hgone
    cases hgone
  · intro h
    refine ⟨fun body hbody => ?_, fun hmark rest body hbody => ?_⟩
    · rw [hsome body hbody, Function.update_self]
      refine ⟨rfl, fun hne => ?_⟩
      rw [Function.update_of_ne hne, Function.update_self]
    · rcases h with rfl | hno
      · have hsame : after = before := by
          cases hbefore : before source with
          | none => exact hnone hbefore
          | some body =>
            rw [hsome body hbefore, Function.update_idem, ← hbefore, Function.update_eq_self]
        rw [hsame]
        exact ⟨hbody, fun hpre => absurd (List.prefix_append _ rest) hpre⟩
      · exact absurd hmark hno

/-- A delete that is read as another name removes nothing else where there is nothing. -/
theorem removed_iff {name read : CStr} (hread : deletedName name = some read)
    (hafter : after = Function.update before read none) :
    after = Function.update before name none ↔
      Plain name ∨ before name = none ∧ before read = none := by
  subst hafter
  constructor
  · intro h
    by_cases heq : read = name
    · exact Or.inl (deletedName_iff.mp (heq ▸ hread))
    · have hname := congrFun h name
      have hread' := congrFun h read
      rw [Function.update_self, Function.update_of_ne (Ne.symm heq)] at hname
      rw [Function.update_self, Function.update_of_ne heq] at hread'
      exact Or.inr ⟨hname, hread'.symm⟩
  · rintro (hplain | ⟨hname, hnone⟩)
    · rw [deletedName_iff.mpr hplain] at hread
      cases hread
      rfl
    · rw [← hnone, Function.update_eq_self, hnone, ← hname, Function.update_eq_self]

end Asked

/-! ## What becomes of the request -/

section Judged

variable {server : σ → Request → Reply × σ} {view : σ → Bucket} {refuses : σ → Request → Prop}
  {bucket : CStr} {s : σ}

theorem not_accepted {status : Nat} (h : 300 ≤ status) (bytes : Bytes) :
    ¬ (plainReply status bytes).Accepted := fun ha => absurd ha.2.2 (Nat.not_lt.mpr h)

theorem receiving_unread {r : Request} (h : r.received bucket = none) :
    receiving bucket server s r = (plainReply 400 [], s) := by
  rw [receiving, h]

variable (hJ : Judging server view refuses)

include hJ

/-- A request that looks is read as one that looks. -/
theorem Judging.looks_received {r : Request} (hr : r.Looks) :
    view (receiving bucket server s r).2 = view s := by
  cases hread : r.received bucket with
  | none => rw [receiving_unread hread]
  | some r' =>
    rw [receiving_read hread]
    refine hJ.looks s r' ?_
    cases r with
    | objects path =>
      have hsame : some (Request.objects path) = some r' := hread
      exact Option.some.inj hsame ▸ hr
    | worker_get path first last =>
      have hsame : some (Request.worker_get path first last) = some r' := hread
      exact Option.some.inj hsame ▸ hr
    | objects_list path =>
      rw [Request.received, Option.map_eq_some_iff] at hread
      obtain ⟨_, -, rfl⟩ := hread
      trivial
    | multipart_listparts path id =>
      rw [Request.received] at hread
      simp only [Option.bind_eq_bind, Option.bind_eq_some_iff, Option.pure_def,
        Option.some.injEq] at hread
      obtain ⟨_, -, _, -, _, -, rfl⟩ := hread
      trivial
    | _ => exact hr.elim

/-- What is read is accepted and done, or refused. -/
theorem Judging.told {r r' : Request} (h : r.received bucket = some r') :
    ((receiving bucket server s r).1.Accepted ↔ ¬ refuses s r') ∧
      (¬ refuses s r' → r'.Done (view s) (view (receiving bucket server s r).2)) := by
  rw [receiving_read h]
  exact ⟨⟨fun ha hr => hJ.refusal s r' hr ha, fun hr => (hJ.accepts s r' hr).1⟩,
    fun hr => (hJ.accepts s r' hr).2⟩

theorem Judging.asIs {r : Request} (h : r.received bucket = some r) :
    ((receiving bucket server s r).1.Accepted ∧
      r.Done (view s) (view (receiving bucket server s r).2)) ↔ ¬ refuses s r := by
  obtain ⟨haccepted, hdone⟩ := hJ.told (s := s) h
  exact ⟨fun hp => haccepted.mp hp.1, fun hr => ⟨haccepted.mpr hr, hdone hr⟩⟩

theorem Judging.deleted (name : CStr) :
    ((receiving bucket server s (.objects_delete name)).1.Accepted ∧
      (Request.objects_delete name).Done (view s)
        (view (receiving bucket server s (.objects_delete name)).2)) ↔
      Removes (refuses s) (view s).objects name := by
  cases hread : deletedName name with
  | none =>
    have hunread : (Request.objects_delete name).received bucket = none := by
      rw [Request.received, hread]
      rfl
    rw [receiving_unread hunread]
    refine iff_of_false (fun h => not_accepted (by decide) [] h.1) ?_
    rintro ⟨read, hsome, -⟩
    rw [hread] at hsome
    cases hsome
  | some read =>
    have hreceived : (Request.objects_delete name).received bucket =
        some (.objects_delete read) := by
      rw [Request.received, hread]
      rfl
    obtain ⟨haccepted, hdone⟩ := hJ.told (s := s) hreceived
    constructor
    · rintro ⟨ha, hgone⟩
      have hr := haccepted.mp ha
      exact ⟨read, hread, hr, (removed_iff hread (hdone hr)).mp hgone⟩
    · rintro ⟨read', hread', hr, hplain⟩
      obtain rfl := Option.some.inj (hread.symm.trans hread')
      exact ⟨haccepted.mpr hr, (removed_iff hread (hdone hr)).mpr hplain⟩

/-- A rename whose names arrive as they are. -/
theorem Judging.renamed {r : Request} {source target : CStr} {e : Env σ}
    (hforward : Forwards e (.rename source target) r) (h : r.received bucket = some r)
    (hpassed : (Op.rename source target).Passed) :
    ((receiving bucket server s r).1.Accepted ∧
      Renamed source target (view s).objects (view (receiving bucket server s r).2).objects) ↔
      ¬ refuses s r ∧ (source = target ∨
        (r = .objects_rename (withSlash source) (withSlash target) (lit "multi") →
          (view s).objects source = none) ∧
        (r = .objects_rename source target (lit "single") →
          (view s).objects (withSlash source) ≠ some [])) := by
  obtain ⟨haccepted, hdone⟩ := hJ.told (s := s) h
  obtain ⟨hsource, htarget, habove⟩ := hpassed
  rw [haccepted, withSlash_of_not_slash hsource, withSlash_of_not_slash htarget]
  rw [withSlash_of_not_slash hsource, withSlash_of_not_slash htarget] at habove
  refine and_congr_right fun hr => ?_
  have hd := hdone hr
  cases hforward with
  | renameAll =>
    rw [Request.Done, if_pos rfl] at hd
    have hmode : lit "multi" ≠ lit "single" := by decide
    rw [renamed_all_iff (hd.trans (by
      rw [withSlash_of_not_slash hsource, withSlash_of_not_slash htarget]))]
    simp [withSlash_of_not_slash hsource, withSlash_of_not_slash htarget, hmode]
  | rename =>
    rw [Request.Done, if_neg (by decide)] at hd
    rw [renamed_single_iff hsource htarget habove hd.1 hd.2]
    have hmode : lit "single" ≠ lit "multi" := by decide
    simp [hmode]

end Judged

/-- An operation returns success whatever becomes of its request.  The request has been
accepted and the bucket reflects the operation when the condition is met, and only then
unless a rename is misread. -/
theorem success_accepted {e : Env σ} {server : σ → Request → Reply × σ} {view : σ → Bucket}
    {refuses : σ → Request → Prop} (he : e.server = receiving e.bucket server)
    (hJ : Judging server view refuses) {op : Op} (hop : op.Single e) (hpassed : op.Passed)
    {w w' : World σ} {a : Answer} (hrun : perform e op w = (.ok a, w'))
    (hsent : ∀ path, op = .release path → completions w'.trace ≠ completions w.trace) :
    a = op.success ∧ ∃ r s, Forwards e op r ∧ SendsLast e r s w w' ∧
      (op.Meets e (refuses s) (view w.server).objects r →
        (e.server s r).1.Accepted ∧ op.Reflected r (view w.server) (view w'.server)) ∧
      ((∀ source target, op = .rename source target →
          Clean e.bucket ∧ Clean source ∧ Clean target) →
        (e.server s r).1.Accepted ∧ op.Reflected r (view w.server) (view w'.server) →
          op.Meets e (refuses s) (view w.server).objects r) := by
  obtain ⟨ha, r, s, hforward, hsends⟩ := perform_sends hop hrun hsent
  refine ⟨ha, r, s, hforward, hsends, ?_⟩
  obtain ⟨rs, hrs, hs, -⟩ := hsends.asked
  have hview : view s = view w.server := by
    rw [hs]
    exact askAll_keeps e (I := fun s => view s = view w.server)
      (fun r hmem s hs => by
        rw [he, hJ.looks_received (hrs r hmem)]
        exact hs) rfl
  rw [hsends.server, ← hview, he]
  have hput : ∀ {r : Request}, r.received e.bucket = some r →
      ((receiving e.bucket server s r).1.Accepted ∧
        r.Done (view s) (view (receiving e.bucket server s r).2) ↔ ¬ refuses s r) :=
    fun h => hJ.asIs h
  have hrename : ∀ {source target r}, Forwards e (.rename source target) r →
      (Op.rename source target).Passed → Clean e.bucket ∧ Clean source ∧ Clean target →
      ((receiving e.bucket server s r).1.Accepted ∧
        Renamed source target (view s).objects (view (receiving e.bucket server s r).2).objects ↔
        (Op.rename source target).Meets e (refuses s) (view s).objects r) := by
    rintro source target r hf hpassed ⟨hbucket, hsource, htarget⟩
    have hreceived : r.received e.bucket = some r := by
      cases hf with
      | renameAll =>
        exact received_rename hbucket (clean_withSlash hsource) (clean_withSlash htarget)
          clean_multi
      | rename => exact received_rename hbucket hsource htarget clean_single
    rw [hJ.renamed hf hreceived hpassed]
    exact (and_iff_right ⟨hbucket, hsource, htarget⟩).symm
  cases hforward with
  | mkdir path => exact ⟨(hput rfl).mpr, fun _ => (hput rfl).mp⟩
  | mknod path => exact ⟨(hput rfl).mpr, fun _ => (hput rfl).mp⟩
  | write path buf h => exact ⟨(hput rfl).mpr, fun _ => (hput rfl).mp⟩
  | release path id parts => exact ⟨(hput rfl).mpr, fun _ => (hput rfl).mp⟩
  | unlink path => exact ⟨(hJ.deleted path).mpr, fun _ => (hJ.deleted path).mp⟩
  | rmdir path => exact ⟨(hJ.deleted _).mpr, fun _ => (hJ.deleted _).mp⟩
  | renameAll source target =>
    exact ⟨fun h => (hrename (.renameAll source target) hpassed h.1).mpr h,
      fun hclean => (hrename (.renameAll source target) hpassed (hclean _ _ rfl)).mp⟩
  | rename source target =>
    exact ⟨fun h => (hrename (.rename source target) hpassed h.1).mpr h,
      fun hclean => (hrename (.rename source target) hpassed (hclean _ _ rfl)).mp⟩

/-! ## Servers -/

theorem renameAll_done (s : Store) (source target : CStr) :
    (Request.objects_rename source target (lit "multi")).Done s.view
      (s.renameAll source target).view := by
  rw [Request.Done, if_pos rfl]
  funext name
  show (s.moved source target name).or (if source.isPrefixOf name then none else s.data name) =
    moveOnto source target s.data name
  simp only [Store.moved, moveOnto, List.isPrefixOf_iff_prefix]

theorem rename_done (s : Store) {source : CStr} (target : CStr) {body : Bytes}
    (h : s.data source = some body) {mode : CStr} (hmode : mode ≠ lit "multi") :
    (Request.objects_rename source target mode).Done s.view
      ((s.delete source).put target body).view := by
  rw [Request.Done, if_neg hmode]
  refine ⟨fun body' hbody' => ?_, fun hnone => absurd (h.symm.trans hnone) nofun⟩
  obtain rfl : body = body' := Option.some.inj (h.symm.trans hbody')
  rfl

theorem complete_done (s : Store) {payload : Json} (h : (s.complete payload).1.Accepted) :
    (Request.multipart_complete payload).Done s.view (s.complete payload).2.view := by
  intro path id listed hc
  have hlisted : (listed.map partJson).filterMap listedPart = listed := by
    rw [List.filterMap_map, show listedPart ∘ partJson = some from funext listedPart_partJson,
      List.filterMap_some]
  rw [Store.complete, hc.path, hc.uploadID, hc.parts] at h ⊢
  simp only [Option.bind_some, Json.valuestring, hlisted] at h ⊢
  split at h
  · rename_i hok
    rw [if_pos hok]
    rfl
  · exact absurd h (not_accepted (by decide) [])

/-- A server refuses what it answers with an error. -/
def Refuses (server : σ → Request → Reply × σ) (s : σ) (r : Request) : Prop :=
  ¬ (server s r).1.Accepted

theorem renterd_judging (refuse : Nat → Bool) :
    Judging (renterd refuse) Store.view (Refuses (renterd refuse)) where
  looks s r hr := by
    cases r with
    | objects path => exact (renterd_backend refuse).objects_view s path
    | worker_get path first last => exact (renterd_backend refuse).worker_get_view s path first last
    | objects_list path => rfl
    | multipart_listparts path id => rfl
    | _ => exact hr.elim
  refusal s r h := h
  accepts s r h := by
    have haccepted := not_not.mp h
    refine ⟨haccepted, ?_⟩
    cases r with
    | worker_put path body => rfl
    | objects_delete path => rfl
    | multipart_complete payload => exact complete_done s haccepted
    | objects_rename source target mode =>
      rw [renterd] at haccepted ⊢
      split at haccepted
      · rename_i hmode
        rw [if_pos hmode, hmode]
        exact renameAll_done s source target
      · rename_i hmode
        rw [if_neg hmode]
        cases hdata : s.data source with
        | none =>
          rw [hdata] at haccepted
          exact absurd haccepted (not_accepted (by decide) [])
        | some body => exact rename_done s target hdata hmode
    | _ => trivial

theorem success_accepted_write :
    ∃ w', perform receivingMount (.write (lit "/f") [7] 0) (mounted Store.blank none) =
        (.ok (.status 1), w') ∧ w'.server.view.objects (lit "/f") = some [7] := by
  have hsmall : [7].length < receivingMount.small := by decide
  have hrun : perform receivingMount (.write (lit "/f") [7] 0) (mounted Store.blank none) =
      (.ok (.status 1), sendAll receivingMount [.worker_put (lit "/f") [7]]
        (mounted Store.blank none)) := by
    rw [perform, siafs_write, if_pos ⟨rfl, hsmall⟩]
    rfl
  have hnorelease : ∀ path, Op.write (lit "/f") [7] 0 = .release path → False := by
    intro path h
    cases h
  obtain ⟨-, r, s, hforward, hsends, hmeets, -⟩ := success_accepted receivingMount_server
    (renterd_judging fun _ => false) ⟨_, .write (lit "/f") [7] hsmall⟩ trivial hrun
    fun path h => (hnorelease path h).elim
  cases hforward
  have haccepted : (renterd (fun _ => false) s (.worker_put (lit "/f") [7])).1.Accepted :=
    ⟨rfl, Nat.le_refl 200, show 200 < 300 by decide⟩
  obtain ⟨-, hdone⟩ := hmeets (not_not.mpr haccepted)
  exact ⟨_, hrun, (congrFun hdone (lit "/f")).trans (Function.update_self ..)⟩

/-- A server on which a rename does not overwrite, as the request asks of it. -/
def unforced (s : Store) : Request → Reply × Store
  | .objects_rename source target mode =>
    if (s.data target).isSome then (plainReply 500 [], s)
    else renterd (fun _ => false) s (.objects_rename source target mode)
  | r => renterd (fun _ => false) s r

/-- A rename onto a file that is there returns 0 and moves nothing. -/
theorem rename_lost :
    ∃ w', perform (mountOf .fuse3 true unforced) (.rename (lit "/a") (lit "/b"))
        (mounted ((Store.blank.put (lit "/a") [1]).put (lit "/b") [2]) none) =
        (.ok (.status 0), w') ∧
      w'.server.data (lit "/a") = some [1] ∧ w'.server.data (lit "/b") = some [2] :=
  ⟨_, rfl, rfl, rfl⟩

end SiaFS
