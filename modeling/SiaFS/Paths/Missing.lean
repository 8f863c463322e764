/-
What -ENOENT says when requests may fail.

A listing that fails, that is an error page or that is cut short shows no object,
and the scans take it for a listing without the path.  So `siafs_getattr` finds
nothing although the object is there, and the `siafs_mknod` that follows puts an
empty object in its place.
-/
import SiaFS.Paths.Kinds
import SiaFS.Paths.Received

namespace SiaFS

open Json JsonText

variable {σ : Type}

/-- The reply is no listing: it has no body, or one that is no JSON document or has no
array of objects. -/
def Unlisted (body : Option Body) : Prop :=
  ∀ doc items, cJSON_Parse body = some doc →
    cJSON_GetObjectItemCaseSensitive doc (lit "objects") ≠ some (.arr items)

/-- The objects whose names begin with the prefix. -/
def Catalogue.under (b : Catalogue) (pre : CStr) : Catalogue := fun name =>
  if pre <+: name then b name else none

/-- A server whose listings fail or show the objects whose names begin with the prefix that
it received, and no others. -/
structure Flaky (server : σ → Request → Reply × σ) (catalogue : σ → Catalogue) : Prop where
  objects_list_keeps : ∀ s pre, catalogue (server s (.objects_list pre)).2 = catalogue s
  objects_list : ∀ s pre, Unlisted (server s (.objects_list pre)).1.body ∨
    (∀ item ∈ listedObjects (server s (.objects_list pre)).1.body,
      ((catalogue s).under pre).Describes item) ∧
    ∀ name, ((catalogue s).under pre name).isSome →
      ∃ item ∈ listedObjects (server s (.objects_list pre)).1.body, ListedAs name item

/-- The server receives a prefix that the path begins with, as it does when the path needs no
escape in a JSON string. -/
def Shown (bucket path : CStr) : Prop :=
  ∃ pre, listedPrefix bucket path = some pre ∧ pre <+: path

theorem shown_clean {bucket path : CStr} (hbucket : Clean bucket) (h : Clean path) :
    Shown bucket path := ⟨path, listedPrefix_clean hbucket h, List.prefix_rfl⟩

section Missing

variable (e : Env σ) (catalogue : σ → Catalogue) (path : CStr) (w : World σ)

/-- The reply to a listing in the state `s` of the server. -/
def listing (path : CStr) (s : σ) : Option Body := (e.server s (.objects_list path)).1.body

/-- The path is the root, or a listing arrives that shows what is there under the path.
The listing of the path as a directory is the second one. -/
def Arrives : Prop :=
  path = [slash] ∨
    ((catalogue w.server).isFile path = true ∧ Shown e.bucket path ∧
      ¬ Unlisted (listing e path w.server)) ∨
    ((catalogue w.server).isDir path = true ∧ Shown e.bucket (withSlash path) ∧
      ¬ Unlisted (listing e (withSlash path) (e.server w.server (.objects_list path)).2))

/-- There is no object for the path. -/
def Absent : Prop := catalogue w.server path = none ∧ catalogue w.server (withSlash path) = none

/-- A create of the path, a `siafs_getattr` that finds nothing and a `siafs_mknod`,
empties an object that was not empty. -/
def Empties : Prop :=
  ∃ w₁ w₂, siafs_getattr e path w = (.ok (.error ENOENT), w₁) ∧
    siafs_mknod e path w₁ = (.ok 0, w₂) ∧
    (∃ entry, catalogue w.server path = some entry ∧ entry.size ≠ 0) ∧
    (catalogue w₂.server).Empty path

end Missing

/-! ## The scans -/

theorem Unlisted.objects {body : Option Body} (h : Unlisted body) : listedObjects body = [] := by
  unfold listedObjects
  cases hdoc : cJSON_Parse body with
  | none => rfl
  | some doc =>
    rw [Option.bind_some]
    split
    · rename_i items hitems
      exact absurd hitems (h doc items hdoc)
    · rfl

theorem unlisted_none : Unlisted none := fun _ _ hdoc => nomatch hdoc

theorem unlisted_plain (status : Nat) : Unlisted (plainReply status []).body := by
  intro doc items hdoc
  cases hdoc

section Replies

variable {e : Env σ} {catalogue : σ → Catalogue} {path : CStr} {w : World σ}
  {server : σ → Request → Reply × σ}

/-- A lookup without the cache: the reply and the state of the server after it. -/
theorem list_uncached (hL : w.L1 = none) (path : CStr) :
    ∃ w', sia_bus_objects_list_json e path w = (.ok (listing e path w.server), w') ∧
      w'.L1 = none ∧ w'.server = (e.server w.server (.objects_list path)).2 := by
  have hmiss : mc_lookup w (listKey e path) = none := by
    unfold mc_lookup
    rw [hL]
    rfl
  refine ⟨_, cachedRequest_miss hmiss _, ?_, rfl⟩
  unfold fetched
  rw [hL]
  rfl

variable (he : e.server = receiving e.bucket server) (hF : Flaky server catalogue)

include he hF

theorem Flaky.list_keeps (s : σ) (path : CStr) :
    catalogue (e.server s (.objects_list path)).2 = catalogue s := by
  rw [he, receiving, Request.received]
  cases listedPrefix e.bucket path with
  | none => rfl
  | some pre => exact hF.objects_list_keeps s pre

/-- A scan that finds the path in a listing of the objects under a prefix finds it in one
that arrives. -/
theorem Flaky.scan (path : CStr) (test : Json → Except Fault Bool) (s : σ)
    (there : Catalogue → Bool)
    (htrue : ∀ b : Catalogue, ∀ items, (∀ item ∈ items, b.Describes item) →
      ((b path).isSome → ∃ item ∈ items, ListedAs path item) →
        scanObjects test items = .ok (there b))
    (hunder : ∀ pre, there ((catalogue s).under pre) = true ↔
      there (catalogue s) = true ∧ pre <+: path) :
    ∃ found, scanObjects test (listedObjects (listing e path s)) = .ok found ∧
      (found = true ↔ there (catalogue s) = true ∧ Shown e.bucket path ∧
        ¬ Unlisted (listing e path s)) := by
  by_cases hun : Unlisted (listing e path s)
  · refine ⟨false, ?_, by simp [hun]⟩
    rw [hun.objects]
    rfl
  · cases hpre : listedPrefix e.bucket path with
    | none =>
      refine absurd ?_ hun
      rw [listing, he, receiving, Request.received, hpre]
      exact unlisted_plain 400
    | some pre =>
      have hlisting : listing e path s = (server s (.objects_list pre)).1.body := by
        rw [listing, he, receiving, Request.received, hpre]
        rfl
      have hshown : Shown e.bucket path ↔ pre <+: path := by
        unfold Shown
        rw [hpre]
        simp
      rw [hlisting] at hun ⊢
      obtain ⟨hdesc, hp⟩ := (hF.objects_list s pre).resolve_left hun
      refine ⟨_, htrue ((catalogue s).under pre) _ hdesc (hp path), ?_⟩
      rw [hunder, hshown]
      simp [hun]

omit he hF in
theorem Catalogue.under_isFile (b : Catalogue) (pre : CStr) :
    (b.under pre).isFile path = true ↔ b.isFile path = true ∧ pre <+: path := by
  unfold Catalogue.isFile Catalogue.under
  by_cases hpre : pre <+: path
  · simp [hpre]
  · simp [hpre]

omit he hF in
theorem Catalogue.under_isDir (b : Catalogue) (pre : CStr) :
    (b.under pre).isDir path = true ↔ b.isDir path = true ∧ pre <+: withSlash path := by
  unfold Catalogue.isDir Catalogue.dirTime Catalogue.under
  by_cases hpre : pre <+: withSlash path
  · simp [hpre]
  · simp [hpre]

theorem is_file_flaky (path : CStr) (hL : w.L1 = none) :
    ∃ found w', sia_bus_objects_is_file e path w = (.ok found, w') ∧ w'.L1 = none ∧
      w'.server = (e.server w.server (.objects_list path)).2 ∧
      (found = true ↔ (catalogue w.server).isFile path = true ∧ Shown e.bucket path ∧
        ¬ Unlisted (listing e path w.server)) := by
  obtain ⟨w', hlist, hL', hserver⟩ := list_uncached (e := e) hL path
  obtain ⟨found, hscan, hfound⟩ := hF.scan he path (testFile path) w.server
    (fun b => b.isFile path) (fun _ _ => scanObjects_file) fun _ => Catalogue.under_isFile _ _
  refine ⟨found, w', ?_, hL', hserver, hfound⟩
  exact (Exec.bind_of_ok hlist).trans (congrArg (·, w') hscan)

theorem is_dir_flaky (path : CStr) (hL : w.L1 = none) :
    ∃ found w', sia_bus_objects_is_dir e path w = (.ok found, w') ∧ w'.L1 = none ∧
      w'.server = (e.server w.server (.objects_list (withSlash path))).2 ∧
      (found = true ↔ (catalogue w.server).isDir path = true ∧ Shown e.bucket (withSlash path) ∧
        ¬ Unlisted (listing e (withSlash path) w.server)) := by
  obtain ⟨w', hlist, hL', hserver⟩ := list_uncached (e := e) hL (withSlash path)
  obtain ⟨found, hscan, hfound⟩ := hF.scan he (withSlash path) (testDir (withSlash path))
    w.server (fun b => b.isDir path) (fun _ _ => scanObjects_dir)
    fun _ => Catalogue.under_isDir _ _
  refine ⟨found, w', ?_, hL', hserver, hfound⟩
  exact (Exec.bind_of_ok hlist).trans (congrArg (·, w') hscan)

end Replies

/-! ## The answer -/

/-- `siafs_getattr` returns -ENOENT after two scans that find nothing, and never else. -/
theorem getattr_enoent {e : Env σ} {path : CStr} {w w₂ : World σ} :
    siafs_getattr e path w = (.ok (.error ENOENT), w₂) ↔
      path ≠ [slash] ∧ ∃ w₁, sia_bus_objects_is_file e path w = (.ok false, w₁) ∧
        sia_bus_objects_is_dir e path w₁ = (.ok false, w₂) := by
  unfold siafs_getattr
  rw [Exec.get_bind]
  constructor
  · intro h
    by_cases hroot : path = [slash]
    · rw [if_pos hroot] at h
      cases h
    refine ⟨hroot, ?_⟩
    rw [if_neg hroot] at h
    obtain ⟨is_file, w₁, hfile, h⟩ := Exec.bind_eq_ok h
    cases is_file with
    | true =>
      obtain ⟨size, w₃, -, h⟩ := Exec.bind_eq_ok h
      obtain ⟨mtime, w₄, -, h⟩ := Exec.bind_eq_ok h
      cases h
    | false =>
      obtain ⟨is_dir, w₃, hdir, h⟩ := Exec.bind_eq_ok h
      cases is_dir with
      | true =>
        obtain ⟨mtime, w₄, -, h⟩ := Exec.bind_eq_ok h
        cases h
      | false =>
        cases h
        exact ⟨w₁, hfile, hdir⟩
  · rintro ⟨hroot, w₁, hfile, hdir⟩
    rw [if_neg hroot, Exec.bind_of_ok hfile]
    exact Exec.bind_of_ok hdir

section Answer

variable {e : Env σ} {catalogue : σ → Catalogue} {path : CStr} {w : World σ}
  {server : σ → Request → Reply × σ} (he : e.server = receiving e.bucket server)
  (hF : Flaky server catalogue)

include he hF

theorem getattr_flaky (path : CStr) (hL : w.L1 = none) :
    (siafs_getattr e path w).1 = .ok (.error ENOENT) ↔ ¬ Arrives e catalogue path w := by
  obtain ⟨is_file, w₁, hfile, hL₁, hs₁, hfound⟩ := is_file_flaky he hF path hL
  obtain ⟨is_dir, w₂, hdir, -, -, hfound'⟩ := is_dir_flaky he hF path hL₁
  rw [hs₁, hF.list_keeps he] at hfound'
  have hrun : (siafs_getattr e path w).1 = .ok (.error ENOENT) ↔
      ∃ w', siafs_getattr e path w = (.ok (.error ENOENT), w') :=
    ⟨fun h => ⟨_, Prod.ext h rfl⟩, fun ⟨w', h⟩ => by rw [h]⟩
  unfold Arrives
  rw [hrun, ← hfound, ← hfound']
  simp only [getattr_enoent, hfile]
  cases is_file with
  | true => simp
  | false =>
    cases is_dir with
    | true => simp [hdir]
    | false => simp [hdir]

omit he hF in
/-- The create sequence empties no object if the lookup finds none. -/
theorem not_empties
    (h : (siafs_getattr e path w).1 = .ok (.error ENOENT) → Absent catalogue path w) :
    ¬ Empties e catalogue path w := by
  rintro ⟨w₁, w₂, hgetattr, -, ⟨entry, hentry, -⟩, -⟩
  have habsent := (h (by rw [hgetattr])).1
  rw [hentry] at habsent
  cases habsent

end Answer

/-- With the cache off, -ENOENT says that the bucket has neither the object nor the
directory, and then a create empties no object, exactly when there is nothing for the
path or a listing arrives that shows what there is. -/
theorem missing_is_absent {e : Env σ} {catalogue : σ → Catalogue}
    {server : σ → Request → Reply × σ} (he : e.server = receiving e.bucket server)
    (hF : Flaky server catalogue) (path : CStr) {w : World σ} (hL : w.L1 = none) :
    (((siafs_getattr e path w).1 = .ok (.error ENOENT) → Absent catalogue path w) ∧
        ¬ Empties e catalogue path w) ↔
      Absent catalogue path w ∨ Arrives e catalogue path w := by
  have hanswer := getattr_flaky he hF path hL
  constructor
  · rintro ⟨h, -⟩
    by_cases harrives : Arrives e catalogue path w
    · exact Or.inr harrives
    · exact Or.inl (h (hanswer.mpr harrives))
  · intro h
    have hmissing : (siafs_getattr e path w).1 = .ok (.error ENOENT) → Absent catalogue path w :=
      fun hnone => h.resolve_right (hanswer.mp hnone)
    exact ⟨hmissing, not_empties hmissing⟩

/-! ## A server that fails -/

/-- The server of the store, on which listings fail, with a page or without, while the
counter is above zero. -/
def outage (page : Option Body) (s : Store × Nat) (r : Request) : Reply × (Store × Nat) :=
  match r, s.2 with
  | .objects_list _, n + 1 =>
    ({ ok := true, status := 500, etag := none, contentLength := none, body := page }, (s.1, n))
  | r, n => ((renterd (fun _ => false) s.1 r).1, ((renterd (fun _ => false) s.1 r).2, n))

theorem renterd_listing (s : Store) (pre : CStr) :
    ¬ Unlisted (jsonReply (s.listing pre)).body ∧
      (∀ item ∈ listedObjects (jsonReply (s.listing pre)).body,
        (s.catalogue.under pre).Describes item) ∧
      ∀ name, (s.catalogue.under pre name).isSome →
        ∃ item ∈ listedObjects (jsonReply (s.listing pre)).body, ListedAs name item := by
  have hlisted : listedObjects (jsonReply (s.listing pre)).body =
      (s.below pre).map fun x => objectJson x.1 x.2 := rfl
  refine ⟨fun h => h _ _ rfl rfl, fun item hitem => ?_, fun name hname => ?_⟩
  · rw [hlisted] at hitem
    obtain ⟨⟨name, body⟩, hmem, rfl⟩ := List.mem_map.mp hitem
    obtain ⟨hpre, hdata⟩ := (s.mem_below pre name body).mp hmem
    refine ⟨name, ⟨body.length, lit "2024-01-01T00:00:00Z"⟩, ?_, rfl, rfl, rfl⟩
    unfold Catalogue.under
    rw [if_pos (List.isPrefixOf_iff_prefix.mp hpre)]
    show (s.data name).map _ = _
    rw [hdata]
    rfl
  · unfold Catalogue.under at hname
    split at hname
    · rename_i hpre
      obtain ⟨body, hdata⟩ := (s.catalogue_isSome name).mp hname
      have hmem := (s.mem_below pre name body).mpr ⟨List.isPrefixOf_iff_prefix.mpr hpre, hdata⟩
      exact ⟨objectJson name body, List.mem_map.mpr ⟨(name, body), hmem, rfl⟩, rfl⟩
    · cases hname

theorem outage_flaky : Flaky (outage none) fun s => s.1.catalogue where
  objects_list_keeps s pre := by
    obtain ⟨s, n⟩ := s
    cases n <;> rfl
  objects_list s pre := by
    obtain ⟨s, n⟩ := s
    cases n with
    | zero => exact Or.inr (renterd_listing s pre).2
    | succ n => exact Or.inl unlisted_none

/-- A mount of that server. -/
def outageMount (page : Option Body) : Env (Store × Nat) := mountOf .fuse3 true (outage page)

/-- A mount of that server, which is sent what the program sends. -/
def receivingOutage : Env (Store × Nat) :=
  mountOf .fuse3 true (receiving (lit "default") (outage none))

theorem receivingOutage_server : receivingOutage.server =
    receiving receivingOutage.bucket (outage none) := rfl

/-- A file of one byte on a server whose next `n` listings fail. -/
def failing (n : Nat) : World (Store × Nat) := mounted (Store.blank.put (lit "/f") [1], n) none

theorem shown_f : Shown (lit "default") (lit "/f") := shown_clean clean_default clean_f

section Outage

variable {path : CStr} (s : Store) (n : Nat)

/-- A listing of a name that arrives as it is. -/
theorem outage_listing (h : Clean path) (s : Store × Nat) :
    receivingOutage.server s (.objects_list path) = outage none s (.objects_list path) := by
  rw [receivingOutage_server]
  exact receiving_read (received_list clean_default h) s

theorem listing_arrives (h : Clean path) : ¬ Unlisted (listing receivingOutage path (s, 0)) := by
  rw [listing, outage_listing h]
  exact (renterd_listing s path).1

theorem listing_fails (h : Clean path) : Unlisted (listing receivingOutage path (s, n + 1)) := by
  rw [listing, outage_listing h]
  exact unlisted_none

end Outage

theorem failing_isFile (n : Nat) : (failing n).server.1.catalogue.isFile (lit "/f") = true := rfl

theorem failing_not_dir (n : Nat) : (failing n).server.1.catalogue.isDir (lit "/f") = false := rfl

theorem failing_present (n : Nat) :
    ¬ Absent (fun s : Store × Nat => s.1.catalogue) (lit "/f") (failing n) := by
  intro h
  have hnone : (failing n).server.1.catalogue (lit "/f") = none := h.1
  have hfile := failing_isFile n
  rw [Catalogue.isFile, hnone] at hfile
  cases hfile

/-- The file is found when the next listing arrives, and only then. -/
theorem arrives_iff (n : Nat) :
    Arrives receivingOutage (fun s => s.1.catalogue) (lit "/f") (failing n) ↔ n = 0 := by
  unfold Arrives
  rw [failing_isFile, failing_not_dir]
  cases n with
  | zero => exact iff_of_true (Or.inr (Or.inl ⟨rfl, shown_f, listing_arrives _ clean_f⟩)) rfl
  | succ n =>
    have hroot : lit "/f" ≠ [slash] := by decide
    refine iff_of_false ?_ (Nat.succ_ne_zero n)
    rintro (h | ⟨-, -, h⟩ | ⟨h, -⟩)
    · exact hroot h
    · exact h (listing_fails _ n clean_f)
    · cases h

/-- Nothing is lost when the listing of the file arrives; when it fails the file is taken
to be missing. -/
theorem missing_is_absent_outage :
    ¬ Empties receivingOutage (fun s => s.1.catalogue) (lit "/f") (failing 0) ∧
      (siafs_getattr receivingOutage (lit "/f") (failing 1)).1 = .ok (.error ENOENT) ∧
      ¬ Absent (fun s : Store × Nat => s.1.catalogue) (lit "/f") (failing 1) := by
  have h := fun n => missing_is_absent (receivingOutage_server) outage_flaky (lit "/f")
    (w := failing n) rfl
  refine ⟨((h 0).mpr (Or.inr ((arrives_iff 0).mpr rfl))).2, ?_, failing_present 1⟩
  by_contra hfound
  rcases (h 1).mp ⟨fun hnone => absurd hnone hfound,
    not_empties fun hnone => absurd hnone hfound⟩ with habsent | harrives
  · exact failing_present 1 habsent
  · exact Nat.one_ne_zero ((arrives_iff 1).mp harrives)

/-- Two listings fail, and the create that follows empties the file. -/
theorem create_empties :
    Empties receivingOutage (fun s => s.1.catalogue) (lit "/f") (failing 2) := by
  have hmarker : Clean (withSlash (lit "/f")) := by
    unfold Clean
    decide +kernel
  obtain ⟨is_file, w₁, hfile, hL₁, hs₁, hfound⟩ := is_file_flaky (receivingOutage_server)
    outage_flaky (lit "/f") (w := failing 2) rfl
  obtain ⟨is_dir, w₂, hdir, -, hs₂, hfound'⟩ := is_dir_flaky (receivingOutage_server)
    outage_flaky (lit "/f") hL₁
  replace hs₁ : w₁.server = ((failing 2).server.1, 1) := by
    rw [hs₁, outage_listing clean_f]
    rfl
  rw [hs₁] at hs₂ hfound'
  obtain rfl : is_file = false :=
    Bool.eq_false_iff.mpr fun h => (hfound.mp h).2.2 (listing_fails _ 1 clean_f)
  obtain rfl : is_dir = false :=
    Bool.eq_false_iff.mpr fun h => (hfound'.mp h).2.2 (listing_fails _ 0 hmarker)
  refine ⟨w₂, _, getattr_enoent.mpr ⟨by decide, w₁, hfile, hdir⟩, rfl, ⟨_, rfl, by decide⟩, ?_⟩
  show (receivingOutage.server w₂.server (.worker_put (lit "/f") [])).2.1.catalogue.Empty _
  rw [hs₂, outage_listing hmarker, receivingOutage_server, receiving_read rfl]
  exact ⟨_, rfl, rfl⟩

end SiaFS
