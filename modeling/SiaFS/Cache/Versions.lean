/-
When the L2 cache still holds the object.

Nothing ever removes a file of the L2 cache, and its name tells the path, the size
and the offset of a read but not the version of the object, though the ETag of the
object is passed to `disk_set`.  The reads are right as long as no call changes an
object in the bytes that some file holds of it.
-/
import SiaFS.Cache.Reading

namespace SiaFS

variable {σ : Type}

/-- What is documented of the server: a range is answered with a part of the object
that is there. -/
structure Honest (server : σ → Request → Reply × σ) (objects : σ → CStr → Option Bytes) :
    Prop where
  objects_keeps : ∀ s path, objects (server s (.objects path)).2 = objects s
  worker_get_keeps : ∀ s path first last,
    objects (server s (.worker_get path first last)).2 = objects s
  range : ∀ s path (first : Nat) (last : Int),
    (server s (.worker_get path first last)).1.ok →
    (server s (.worker_get path first last)).1.status < 400 →
    ∃ body bytes, objects s path = some body ∧ bytes <+: body.drop first ∧
      (server s (.worker_get path first last)).1.Brings bytes

/-- The bytes of the object from the offset on, none when there is no object. -/
def storedFrom (objects : σ → CStr → Option Bytes) (s : σ) (path : CStr) (offset : Nat) : Bytes :=
  ((objects s path).getD []).drop offset

/-- Every file of the cache holds bytes that the object has at its offset. -/
def Current (e : Env σ) (objects : σ → CStr → Option Bytes) (P : CStr → Prop) (w : World σ) :
    Prop :=
  ∀ path, P path → ∀ size offset bytes, cachedFile e w path size offset = some bytes →
    bytes.take size <+: storedFrom objects w.server path offset

/-- An operation, some time after the one before. -/
structure TimedOp where
  wait : Nat
  op : Op

namespace TimedOp

def run (e : Env σ) (c : TimedOp) : Sia σ Answer := do
  Call.idle c.wait
  perform e c.op

/-- When the call changes an object, what the files hold of it the new object has
too, at the same offsets. -/
def LeavesCurrent (e : Env σ) (objects : σ → CStr → Option Bytes) (P : CStr → Prop) (c : TimedOp)
    (w : World σ) : Prop :=
  ∀ answer w', c.run e w = (.ok answer, w') →
    ∀ path, P path → objects w'.server path ≠ objects w.server path →
      ∀ size offset bytes, cachedFile e w path size offset = some bytes →
        bytes.take size <+: storedFrom objects w'.server path offset

end TimedOp

/-! ## What leaves the files alone -/

/-- The files of the L2 cache are as before. -/
structure SameFiles (w w' : World σ) : Prop where
  L2 : w'.L2 = w.L2

instance : Std.Refl (SameFiles (σ := σ)) where
  refl _ := ⟨rfl⟩

instance : IsTrans (World σ) SameFiles where
  trans _ _ _ hab hbc := ⟨hbc.L2.trans hab.L2⟩

namespace SameFiles

variable {e : Env σ}

theorem cachedRequest (key : CStr) (r : Request) :
    Exec.Keeps SameFiles (cachedRequest e key r) := cachedRequest_keeps fun _ _ => ⟨rfl⟩

theorem flush (path : CStr) : Exec.Keeps SameFiles (siafs_flush e path) := fun _ => ⟨rfl⟩

/-- Only a read writes a file. -/
theorem perform {op : Op} (hread : ∀ path size offset, op ≠ .read path size offset) :
    Exec.Keeps SameFiles (perform e op) :=
  perform_keeps_caches (fun _ _ h => ⟨h.L2⟩) cachedRequest (fun path _ => flush path)
    fun path size offset hop => absurd hop (hread path size offset)

end SameFiles

/-! ## A read -/

section Read

variable {e : Env σ} {objects : σ → CStr → Option Bytes} {P : CStr → Prop} {w w' : World σ}
  {path : CStr} {size offset : Nat}

/-- The objects and the files are as before. -/
structure SameContents (objects : σ → CStr → Option Bytes) (w w' : World σ) : Prop where
  objects : objects w'.server = objects w.server
  L2 : w'.L2 = w.L2

theorem SameContents.current (h : SameContents objects w w') (hw : Current e objects P w) :
    Current e objects P w' := by
  intro path hp size offset bytes hfile
  rw [cachedFile_congr h.L2] at hfile
  rw [storedFrom, h.objects]
  exact hw path hp size offset bytes hfile

theorem Current.keepFile (hmd5 : Set.InjOn e.host.md5 {path | P path})
    (hw : Current e objects P w) (hp : P path) {bytes : Bytes}
    (hbytes : bytes <+: storedFrom objects w.server path offset) :
    Current e objects P (w.keepFile e path size offset bytes) := by
  intro path' hp' size' offset' stored hfile
  rcases cachedFile_keepFile hmd5 hp hp' hfile with ⟨rfl, rfl, rfl, rfl⟩ | hold
  · exact (List.take_prefix size' stored).trans hbytes
  · exact hw path' hp' size' offset' stored hold

variable (hB : Honest e.server objects)

include hB

theorem Honest.objects_json (path : CStr) (w : World σ) :
    ∃ payload w', sia_bus_objects_json e path w = (.ok payload, w') ∧
      SameContents objects w w' := by
  cases hhit : mc_lookup w (objectsKey e path) with
  | some body => exact ⟨_, w, cachedRequest_hit hhit _, rfl, rfl⟩
  | none => exact ⟨_, _, cachedRequest_miss hhit _, hB.objects_keeps w.server path, rfl⟩

theorem Honest.object_size (path : CStr) (w : World σ) :
    ∃ n w', sia_bus_object_size e path w = (.ok n, w') ∧ SameContents objects w w' := by
  obtain ⟨payload, w', hjson, hsame⟩ := hB.objects_json path w
  exact ⟨replySize payload, w', object_size_of_json hjson, hsame⟩

theorem Honest.object_etag (path : CStr) (w : World σ) :
    ∃ etag w', sia_bus_object_etag e path w = (.ok etag, w') ∧ SameContents objects w w' := by
  obtain ⟨payload, w', hjson, hsame⟩ := hB.objects_json path w
  exact ⟨replyEtag payload, w', object_etag_of_json hjson, hsame⟩

theorem Honest.range_request (path : CStr) (size offset n : Nat) (w : World σ) :
    SameContents objects w (sendAll e [rangeRequest path size offset n] w) :=
  ⟨hB.worker_get_keeps w.server path _ _, rfl⟩

/-- A read changes no object. -/
theorem Honest.read_objects (path : CStr) (size offset : Nat) (w : World σ) :
    objects (siafs_read e path size offset w).2.server = objects w.server := by
  have hkeeps : ReadKeeps e (Asks e fun r => ∀ s, objects (e.server s r).2 = objects s) path size
      offset :=
    ⟨keeps_cachedRequest fun s => hB.objects_keeps s path,
      fun first last => keeps_send fun s => hB.worker_get_keeps s path first last,
      fun _ _ => keeps_disk_set _ _ _ _ _⟩
  exact (hkeeps.read w).server_keeps (I := fun s => objects s = objects w.server)
    (fun r hr s hs => (hr s).trans hs) rfl

/-- A read over files that are current returns bytes of the object, and the files
stay current. -/
theorem Current.read (hmd5 : Set.InjOn e.host.md5 {path | P path})
    (hw : Current e objects P w) (hp : P path) {bytes : Bytes}
    (hread : siafs_read e path size offset w = (.ok bytes, w')) :
    bytes <+: storedFrom objects w.server path offset ∧ Current e objects P w' := by
  cases hfile : cachedFile e w path size offset with
  | some stored =>
    rw [read_hit hfile] at hread
    cases hread
    exact ⟨hw path hp size offset stored hfile, hw⟩
  | none =>
    obtain ⟨n, w₁, hsize, h₁⟩ := hB.object_size path w
    have hasked := hB.range_request path size offset n w₁
    by_cases hreply : (e.server w₁.server (rangeRequest path size offset n)).1.ok ∧
        (e.server w₁.server (rangeRequest path size offset n)).1.status < 400
    · obtain ⟨body, stored, hbody, hprefix, hbrings⟩ :=
        hB.range w₁.server path offset _ hreply.1 hreply.2
      obtain ⟨etag, w₂, hetag, h₂⟩ :=
        hB.object_etag path (sendAll e [rangeRequest path size offset n] w₁)
      have hstored : stored <+: storedFrom objects w.server path offset := by
        rw [storedFrom, ← h₁.objects, hbody]
        exact hprefix
      have hlater : storedFrom objects w₂.server path offset =
          storedFrom objects w.server path offset := by
        rw [storedFrom, h₂.objects, hasked.objects, h₁.objects]
        rfl
      have hcurrent : Current e objects P w₂ := h₂.current (hasked.current (h₁.current hw))
      obtain ⟨rfl, rfl⟩ :=
        read_eq_ok (get_object_served hfile hsize hbrings hetag) hbrings.readPayload hread
      have hcut := (List.take_prefix LONG_MAX stored).trans hstored
      refine ⟨hcut, ?_⟩
      split
      · exact hcurrent.keepFile hmd5 hp (hlater ▸ hcut)
      · exact hcurrent
    · rw [read_refused hfile hsize hreply] at hread
      cases hread
      exact ⟨List.nil_prefix, hasked.current (h₁.current hw)⟩

end Read

/-! ## Runs -/

section Runs

variable {e : Env σ} {objects : σ → CStr → Option Bytes} {P : CStr → Prop} {w w' : World σ}

theorem Current.idle (seconds : Nat) (hw : Current e objects P w) :
    Current e objects P { w with now := w.now + seconds } := hw

theorem TimedOp.run_eq (e : Env σ) (c : TimedOp) (w : World σ) :
    c.run e w = perform e c.op { w with now := w.now + c.wait } := rfl

/-- A call that is no read leaves the files alone. -/
theorem TimedOp.same_files {c : TimedOp}
    (hread : ∀ path size offset, c.op ≠ .read path size offset) {answer : Answer}
    (hrun : c.run e w = (.ok answer, w')) : w'.L2 = w.L2 := by
  have h := (SameFiles.perform (e := e) hread { w with now := w.now + c.wait }).L2
  rwa [← TimedOp.run_eq, hrun] at h

/-- A read changes no object, so the files are no less current after it. -/
theorem TimedOp.read_objects (hB : Honest e.server objects) {c : TimedOp} {path : CStr}
    {size offset : Nat} (hop : c.op = .read path size offset) {answer : Answer}
    (hrun : c.run e w = (.ok answer, w')) : objects w'.server = objects w.server := by
  have hobjects := hB.read_objects path size offset { w with now := w.now + c.wait }
  rw [TimedOp.run_eq, hop, perform] at hrun
  obtain ⟨bytes, w₁, hbytes, hpure⟩ := Exec.bind_eq_ok hrun
  cases hpure
  rwa [hbytes] at hobjects

theorem TimedOp.leavesCurrent_read (hB : Honest e.server objects) {c : TimedOp} {path : CStr}
    {size offset : Nat} (hop : c.op = .read path size offset) : c.LeavesCurrent e objects P w :=
  fun _ _ hrun path' _ hchanged => absurd (congrFun (read_objects hB hop hrun) path') hchanged

theorem current_of_empty (h : w.L2 = some fun _ => none) : Current e objects P w := by
  intro path hp size offset bytes hfile
  simp [cachedFile, h] at hfile

/-- The step: a call that leaves the files current, its reads being of the paths. -/
theorem Current.call (hB : Honest e.server objects)
    (hmd5 : Set.InjOn e.host.md5 {path | P path}) (hw : Current e objects P w) {c : TimedOp}
    (hpath : ∀ path size offset, c.op = .read path size offset → P path)
    (hleaves : c.LeavesCurrent e objects P w) {answer : Answer}
    (hrun : c.run e w = (.ok answer, w')) : Current e objects P w' := by
  by_cases hread : ∃ path size offset, c.op = .read path size offset
  · obtain ⟨path, size, offset, hop⟩ := hread
    rw [TimedOp.run_eq, hop, perform] at hrun
    obtain ⟨bytes, w₁, hbytes, hpure⟩ := Exec.bind_eq_ok hrun
    cases hpure
    exact ((hw.idle c.wait).read hB hmd5 (hpath path size offset hop) hbytes).2
  · have hL2 : w'.L2 = w.L2 := TimedOp.same_files (fun path size offset hop =>
      hread ⟨path, size, offset, hop⟩) hrun
    intro path hp size offset bytes hfile
    rw [cachedFile_congr hL2] at hfile
    by_cases hsame : objects w'.server path = objects w.server path
    · rw [storedFrom, hsame]
      exact hw path hp size offset bytes hfile
    · exact hleaves answer w' hrun path hp hsame size offset bytes hfile

/-- From an empty cache every read that succeeds returns bytes of the object stored
under its path, wherever it is made in a run, exactly when every call leaves the
files current. -/
theorem reads_current (hB : Honest e.server objects)
    (hmd5 : Set.InjOn e.host.md5 {path | P path}) (hempty : w.L2 = some fun _ => none)
    {calls : List TimedOp}
    (hpaths : ∀ c ∈ calls, ∀ path size offset, c.op = .read path size offset → P path) :
    Exec.Along (TimedOp.LeavesCurrent e objects P) (TimedOp.run e) calls w ↔
      ∀ done, done <+: calls → ∀ answers w',
        Exec.runAll (TimedOp.run e) done w = (.ok answers, w') →
        ∀ path, P path → ∀ size offset bytes,
          (siafs_read e path size offset w').1 = .ok bytes →
          bytes <+: storedFrom objects w'.server path offset := by
  constructor
  · rintro halong done ⟨rest, rfl⟩ answers w' hrun path hp size offset bytes hread
    have hdone := Exec.along_and (fun c hc => hpaths c (List.mem_append_left rest hc))
      (Exec.along_append halong)
    have hcurrent : Current e objects P w' := Exec.runAll_along_ok
      (fun c w answer w' hc hw h => hw.call hB hmd5 hc.1 hc.2 h) hdone (current_of_empty hempty)
      hrun
    exact (hcurrent.read hB hmd5 hp (Prod.ext hread rfl)).1
  · intro hreads
    rw [Exec.along_iff]
    intro done c rest hsplit answers w₁ hrun
    by_cases hread : ∃ path size offset, c.op = .read path size offset
    · obtain ⟨_, _, _, hop⟩ := hread
      exact TimedOp.leavesCurrent_read hB hop
    intro answer w₂ hcall path hp _ size offset bytes hfile
    have hfile₂ : cachedFile e w₂ path size offset = some bytes := by
      rw [cachedFile_congr (TimedOp.same_files (fun path size offset hop =>
        hread ⟨path, size, offset, hop⟩) hcall)]
      exact hfile
    have hprefix : done ++ [c] <+: calls := by
      rw [hsplit]
      exact ⟨rest, by rw [List.append_assoc]; rfl⟩
    have hrun₂ : Exec.runAll (TimedOp.run e) (done ++ [c]) w = (.ok (answers ++ [answer]), w₂) :=
      Exec.runAll_append_ok hrun (Exec.runAll_cons_ok hcall rfl)
    exact hreads _ hprefix _ w₂ hrun₂ path hp size offset _ (by rw [read_hit hfile₂])

end Runs

/-! ## On a server -/

theorem renterd_honest (refuse : Nat → Bool) : Honest (renterd refuse) Store.data where
  objects_keeps s path := congrArg Store.data (renterd_objects_state refuse s path)
  worker_get_keeps s path first last :=
    congrArg Store.data (renterd_worker_get_state refuse s path first last)
  range s path first last hok hstatus := by
    rw [renterd] at hstatus ⊢
    cases hbody : s.data path with
    | none =>
      rw [hbody] at hstatus
      exact absurd hstatus (show ¬ 404 < 400 by decide)
    | some body =>
      rw [hbody] at hstatus
      by_cases hle : (first : Int) ≤ last
      · refine ⟨body, (body.drop first).take (last - first + 1).toNat, rfl,
          List.take_prefix _ _, ?_⟩
        show Reply.Brings (if (first : Int) ≤ last then _ else _ : Reply × Store).1 _
        rw [if_pos hle]
        exact ⟨rfl, show 206 < 400 by decide, rfl, rfl⟩
      · replace hstatus : (if (first : Int) ≤ last then _ else _ : Reply × Store).1.status < 400 :=
          hstatus
        rw [if_neg hle] at hstatus
        exact absurd hstatus (show ¬ 416 < 400 by decide)

/-- A file is read, another is written and read. -/
def readWriteRead : List TimedOp :=
  [⟨0, .read (lit "/f") 2 0⟩, ⟨1, .write (lit "/d") [3] 0⟩, ⟨0, .read (lit "/d") 1 0⟩]

theorem read_write_leaves_current :
    Exec.Along (TimedOp.LeavesCurrent hashingMount Store.data (· ∈ hashedPaths))
      (TimedOp.run hashingMount) readWriteRead
      (mountedCached (Store.blank.put (lit "/f") [1, 2])) := by
  have hB := renterd_honest fun _ => false
  refine ⟨TimedOp.leavesCurrent_read hB rfl, fun _ w₁ h₁ => ⟨?_, fun _ w₂ _ =>
    ⟨TimedOp.leavesCurrent_read hB rfl, fun _ _ _ => trivial⟩⟩⟩
  have hw₁ : Current hashingMount Store.data (· ∈ hashedPaths) w₁ :=
    (current_of_empty rfl).call hB hashed_hashingMount.path
      (fun path size offset hop => by cases hop; decide)
      (TimedOp.leavesCurrent_read hB rfl) h₁
  have hobjects : w₁.server.data = (Store.blank.put (lit "/f") [1, 2]).data :=
    TimedOp.read_objects hB rfl h₁
  intro answer w₂ h₂ path hp hchanged size offset bytes hfile
  have hput : w₂.server = w₁.server.put (lit "/d") [3] := by
    cases h₂
    rfl
  by_cases hd : path = lit "/d"
  · -- nothing was stored there when the file was kept
    subst hd
    have hnone : (Store.blank.put (lit "/f") [1, 2]).data (lit "/d") = none := rfl
    have hnil := hw₁ _ hp size offset bytes hfile
    rw [storedFrom, hobjects, hnone, Option.getD_none, List.drop_nil, List.prefix_nil] at hnil
    rw [hnil]
    exact List.nil_prefix
  · rw [hput] at hchanged
    exact absurd (Function.update_of_ne hd _ _) hchanged

theorem reads_current_read_write :
    Exec.Along (TimedOp.LeavesCurrent hashingMount Store.data (· ∈ hashedPaths))
      (TimedOp.run hashingMount) readWriteRead
      (mountedCached (Store.blank.put (lit "/f") [1, 2])) ∧
    ∀ done, done <+: readWriteRead → ∀ answers w',
      Exec.runAll (TimedOp.run hashingMount) done
        (mountedCached (Store.blank.put (lit "/f") [1, 2])) = (.ok answers, w') →
      ∀ path, path ∈ hashedPaths → ∀ size offset bytes,
        (siafs_read hashingMount path size offset w').1 = .ok bytes →
        bytes <+: storedFrom Store.data w'.server path offset := by
  have hpaths : ∀ c ∈ readWriteRead, ∀ path size offset,
      c.op = .read path size offset → path ∈ hashedPaths := by
    simp +contextual [readWriteRead, hashedPaths]
  exact ⟨read_write_leaves_current,
    (reads_current (renterd_honest _) hashed_hashingMount.path rfl hpaths).mp
      read_write_leaves_current⟩

/-- The bytes that were overwritten are read again. -/
theorem overwritten_read :
    ∃ answers w', Exec.runAll (TimedOp.run hugeMount)
        [⟨0, .write (lit "/a") [1] 0⟩, ⟨0, .flush (lit "/a")⟩, ⟨0, .read (lit "/a") 1 0⟩,
          ⟨0, .write (lit "/a") [2] 0⟩, ⟨0, .flush (lit "/a")⟩]
        (mountedCached Store.blank) = (.ok answers, w') ∧
      (siafs_read hugeMount (lit "/a") 1 0 w').1 = .ok [1] ∧
      w'.server.data (lit "/a") = some [2] :=
  ⟨_, _, rfl, rfl, rfl⟩

end SiaFS
