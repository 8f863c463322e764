/-
The contents of the bucket, without caches.

A rename of a directory is a replacement of a prefix in the names of the objects.
With the slash that `siafs_rename` adds to both names it moves what is below the
directory and nothing beside it.  `siafs_mkdir` and `siafs_rmdir` name the same
object in two ways, escaped and as it is, and the second undoes the first.
-/
import SiaFS.Lib.KeyTree
import SiaFS.Lib.JsonText
import SiaFS.Paths.Kinds
import SiaFS.Paths.Urls

namespace SiaFS

open KeyTree JsonText Percent

variable {σ : Type}

/-- The server tells of the objects it stores. -/
structure Stored (server : σ → Request → Reply × σ) (catalogue : σ → Catalogue)
    (contents : σ → CStr → Option Bytes) : Prop extends Described server catalogue where
  sized : ∀ s name, (catalogue s name).map Entry.size =
    (contents s name).map fun body => (body.length : Int)
  objects_stored : ∀ s path, contents (server s (.objects path)).2 = contents s
  list_stored : ∀ s path, contents (server s (.objects_list path)).2 = contents s

/-- What is documented of the two modes of a rename, for names that the posted body
carries as they are and a new name at which nothing is stored. -/
structure Renames (server : σ → Request → Reply × σ) (catalogue : σ → Catalogue)
    (contents : σ → CStr → Option Bytes) : Prop extends Stored server catalogue contents where
  single : ∀ s source target body, Clean source → Clean target →
    contents s source = some body → contents s target = none →
    contents (server s (.objects_rename source target (lit "single"))).2 =
      Function.update (Function.update (contents s) source none) target (some body)
  multi : ∀ s source target, Clean source → Clean target →
    (∀ rest, contents s (target ++ rest) = none) →
    contents (server s (.objects_rename source target (lit "multi"))).2 =
      movePrefix source target (contents s)

section Stored

variable {e : Env σ} {catalogue : σ → Catalogue} {contents : σ → CStr → Option Bytes} {w : World σ}
  {path : CStr} (hS : Stored e.server catalogue contents)

include hS

theorem Stored.isSome_iff (s : σ) (name : CStr) :
    (catalogue s name).isSome = (contents s name).isSome := by
  have h := congrArg Option.isSome (hS.sized s name)
  rwa [Option.isSome_map, Option.isSome_map] at h

theorem Stored.empty_iff (s : σ) (name : CStr) :
    (catalogue s).Empty name ↔ contents s name = some [] := by
  have h := hS.sized s name
  unfold Catalogue.Empty
  cases hb : catalogue s name with
  | none =>
    rw [hb] at h
    have hnone : contents s name = none := by simpa using h.symm
    simp [hnone]
  | some entry =>
    rw [hb] at h
    obtain ⟨body, hbody, hsize⟩ := Option.map_eq_some_iff.mp h.symm
    rw [hbody]
    simp [← hsize]

/-- A lookup without a cache is truthful, and leaves the bucket as it is. -/
theorem Stored.truthful (b : CStr → Option Bytes) (l : Lookup) :
    Truthful e catalogue (fun w => w.L1 = none ∧ contents w.server = b) l := by
  intro w hw
  obtain ⟨body, w', hres, halike, hoff, hkeeps, hnow⟩ := truthful_off hS.toDescribed l w hw.1
  have hmiss : mc_lookup w (l.key e) = none := by
    rw [mc_lookup, hw.1]
    rfl
  refine ⟨body, w', hres, halike, ⟨hoff, ?_⟩, hkeeps, hnow⟩
  rw [cachedRequest_miss hmiss] at hres
  cases hres
  show contents (e.server w.server l.request).2 = b
  cases l with
  | object path => exact (hS.objects_stored w.server path).trans hw.2
  | list path => exact (hS.list_stored w.server path).trans hw.2

theorem Stored.getattr_keeps (hw : w.L1 = none) :
    (siafs_getattr e path w).2.L1 = none ∧
      contents (siafs_getattr e path w).2.server = contents w.server := by
  obtain ⟨w', h, hkept, -⟩ :
      Ends catalogue (fun w' => w'.L1 = none ∧ contents w'.server = contents w.server)
        (siafs_getattr e path) ((catalogue w.server).getattr e w path) w :=
    getattr_ends hS.toDescribed (hS.truthful _ _) (fun _ => hS.truthful _ _)
      (fun _ => hS.truthful _ _) ⟨hw, rfl⟩
  rw [h]
  exact hkept

end Stored

/-! ## Renaming -/

theorem clean_append_slash {path : CStr} (h : Clean path) : Clean (path ++ [slash]) := by
  intro b hb
  rcases List.mem_append.mp hb with hb | hb
  · exact h b hb
  · rw [List.mem_singleton.mp hb]
    decide

section Rename

variable {e : Env σ} {catalogue : σ → Catalogue} {contents : σ → CStr → Option Bytes} {w : World σ}
  {source target : CStr} (hR : Renames e.server catalogue contents)

include hR

/-- The request of `siafs_rename`, by what the source is. -/
theorem Renames.sends (hw : w.L1 = none) (hsource : endsWithSlash source = false)
    (htarget : endsWithSlash target = false) : ∃ s, contents s = contents w.server ∧
      (siafs_rename e source target w).1 = .ok 0 ∧
      (siafs_rename e source target w).2.server = (e.server s
        (if (catalogue w.server).isDir source then
          .objects_rename (source ++ [slash]) (target ++ [slash]) (lit "multi")
        else .objects_rename source target (lit "single"))).2 := by
  obtain ⟨w', hres, hkept, -⟩ :
      Ends catalogue (fun w' => w'.L1 = none ∧ contents w'.server = contents w.server)
        (sia_bus_objects_is_dir e source) (.ok ((catalogue w.server).isDir source)) w :=
    is_dir_ends hR.toDescribed (hR.truthful _ _) ⟨hw, rfl⟩
  refine ⟨w'.server, hkept.2, ?_⟩
  rw [siafs_rename, Exec.bind_of_ok hres, withSlash_of_not_slash hsource,
    withSlash_of_not_slash htarget]
  cases (catalogue w.server).isDir source with
  | true => exact ⟨rfl, rfl⟩
  | false => exact ⟨rfl, rfl⟩

end Rename

/-- A directory moves with everything below it and nothing else, to a name at which
nothing is stored; a file that is no directory moves alone. -/
theorem rename_moves {e : Env σ} {catalogue : σ → Catalogue} {contents : σ → CStr → Option Bytes}
    (hR : Renames e.server catalogue contents) {w : World σ} (hw : w.L1 = none)
    {source target : CStr} (hsource : endsWithSlash source = false)
    (htarget : endsWithSlash target = false) (hcs : Clean source) (hct : Clean target)
    (hbelow : ¬ source ++ [slash] <+: target) (hfree : contents w.server target = none)
    (hfree' : ∀ rest, contents w.server (target ++ [slash] ++ rest) = none) :
    (siafs_rename e source target w).1 = .ok 0 ∧
      (contents w.server (source ++ [slash]) = some [] →
        (∀ rest, contents (siafs_rename e source target w).2.server (target ++ [slash] ++ rest) =
            contents w.server (source ++ [slash] ++ rest) ∧
          contents (siafs_rename e source target w).2.server (source ++ [slash] ++ rest) = none) ∧
        ∀ name, ¬ source ++ [slash] <+: name → ¬ target ++ [slash] <+: name →
          contents (siafs_rename e source target w).2.server name = contents w.server name) ∧
      (contents w.server (source ++ [slash]) ≠ some [] → (contents w.server source).isSome →
        contents (siafs_rename e source target w).2.server target = contents w.server source ∧
          contents (siafs_rename e source target w).2.server source = none ∧
          ∀ name, name ≠ source → name ≠ target →
            contents (siafs_rename e source target w).2.server name = contents w.server name) := by
  obtain ⟨s, hs, hstatus, hserver⟩ := hR.sends hw hsource htarget
  have hdir : (catalogue w.server).isDir source = true ↔
      contents w.server (source ++ [slash]) = some [] :=
    (Catalogue.isDir_iff hsource).trans (hR.empty_iff w.server _)
  rw [hserver]
  refine ⟨hstatus, fun hmark => ?_, fun hmark hfile => ?_⟩
  · rw [if_pos (hdir.mpr hmark), hR.multi s _ _ (clean_append_slash hcs) (clean_append_slash hct)
      (hs ▸ hfree'), hs]
    -- neither directory is above the other
    have hnot : ∀ rest, ¬ target ++ [slash] <+: source ++ [slash] ++ rest := by
      intro rest hpre
      rcases List.prefix_or_prefix_of_prefix hpre (List.prefix_append _ rest) with h | h
      · obtain ⟨r, hr⟩ := h
        have hnone := hfree' r
        rw [hr, hmark] at hnone
        cases hnone
      · rcases List.prefix_concat_iff.mp h with heq | h
        · have hnone := hfree' []
          rw [List.append_nil, ← heq, hmark] at hnone
          cases hnone
        · exact hbelow h
    exact ⟨fun rest => ⟨movePrefix_target rest, movePrefix_source (hnot rest)⟩,
      fun name hname hname' => movePrefix_other hname' hname⟩
  · obtain ⟨body, hbody⟩ := Option.isSome_iff_exists.mp hfile
    have hne : source ≠ target := by
      rintro rfl
      rw [hfree] at hbody
      cases hbody
    rw [if_neg (mt hdir.mp hmark), hR.single s source target body hcs hct (hs ▸ hbody) (hs ▸ hfree),
      hs, hbody]
    refine ⟨Function.update_self .., ?_, fun name h h' => ?_⟩
    · rw [Function.update_of_ne hne, Function.update_self]
    · rw [Function.update_of_ne h', Function.update_of_ne h]

theorem renterd_stored (refuse : Nat → Bool) :
    Stored (renterd refuse) Store.catalogue Store.data where
  toDescribed := (renterd_catalogued refuse).toDescribed
  sized s name := by
    rw [Store.catalogue, Option.map_map]
    rfl
  objects_stored s path := congrArg Store.data (renterd_objects_state refuse s path)
  list_stored s path := rfl

theorem renterd_renames (refuse : Nat → Bool) :
    Renames (renterd refuse) Store.catalogue Store.data where
  toStored := renterd_stored refuse
  single s source target body _ _ hbody _ := by
    rw [renterd, if_neg (by decide), hbody]
    rfl
  multi s source target _ _ hfree := by
    rw [renterd, if_pos rfl]
    funext name
    show (s.moved source target name).or (if source.isPrefixOf name then none else s.data name) =
      movePrefix source target s.data name
    rw [movePrefix, Store.moved]
    by_cases htarget : target <+: name
    · obtain ⟨rest, rfl⟩ := htarget
      simp [hfree rest]
    · have hmoved : target.isPrefixOf name = false := by
        rw [Bool.eq_false_iff, Ne, List.isPrefixOf_iff_prefix]
        exact htarget
      rw [hmoved, if_neg Bool.false_ne_true, Option.none_or, if_neg htarget]
      simp only [List.isPrefixOf_iff_prefix]

/-- A directory with a file in it, and a file beside it whose name begins with the name of
the directory. -/
def siblingStore : Store :=
  ((Store.blank.put (lit "/d/") []).put (lit "/d/x") [1]).put (lit "/dx") [2]

theorem rename_moves_sibling :
    (siafs_rename hugeMount (lit "/d") (lit "/e") (mounted siblingStore none)).2.server.data
        (lit "/e" ++ [slash] ++ lit "x") = some [1] ∧
      (siafs_rename hugeMount (lit "/d") (lit "/e") (mounted siblingStore none)).2.server.data
        (lit "/dx") = some [2] := by
  have hfree : ∀ rest, siblingStore.data (lit "/e" ++ [slash] ++ rest) = none := fun rest => by
    simp [siblingStore, Store.put, Store.blank, Function.update, lit]
  obtain ⟨-, hdir, -⟩ := rename_moves (e := hugeMount) (renterd_renames _)
    (w := mounted siblingStore none) rfl (by decide) (by decide)
    (show Clean (lit "/d") by unfold Clean; decide +kernel)
    (show Clean (lit "/e") by unfold Clean; decide +kernel)
    (by decide) (by decide) hfree
  obtain ⟨hmoved, hbeside⟩ := hdir (by decide)
  exact ⟨(hmoved (lit "x")).1, hbeside (lit "/dx") (by decide) (by decide)⟩

/-! ## Making a directory and removing it -/

/-- No component is one of the two that libcurl resolves in a URL. -/
def Dotless (path : CStr) : Prop := ∀ c ∈ path.splitOn slash, c ≠ lit "." ∧ c ≠ lit ".."

/-- What is documented of the requests to put and to delete: they act on the object that
their URL names. -/
structure Addressed (unauthenticated_url bucket : CStr) (server : σ → Request → Reply × σ)
    (catalogue : σ → Catalogue) (contents : σ → CStr → Option Bytes) : Prop
    extends Stored server catalogue contents where
  put : ∀ s path body name, urlTarget unauthenticated_url (lit "api/worker/objects")
      (sia_worker_put_object_url unauthenticated_url bucket path) = some name → Dotless name →
    contents (server s (.worker_put path body)).2 =
      Function.update (contents s) name (some body)
  delete : ∀ s path name, urlTarget unauthenticated_url (lit "api/bus/objects")
      (sia_bus_del_object_url unauthenticated_url bucket path) = some name → Dotless name →
    contents (server s (.objects_delete path)).2 = Function.update (contents s) name none

/-- An absolute path whose URL is the same with and without escapes. -/
structure Portable (path : CStr) : Prop where
  absolute : path.head? = some slash
  not_slash : endsWithSlash path = false
  characters : ∀ b ∈ path, isUnreserved b = true ∨ b = slash
  dotless : Dotless path

namespace Portable

variable {path : CStr} (hp : Portable path)

include hp

theorem dotless_dir : Dotless (path ++ [slash]) := by
  intro c hc
  rw [List.splitOn_append_cons_self, List.mem_append] at hc
  rcases hc with hc | hc
  · exact hp.dotless c hc
  · rw [List.splitOn_nil, List.mem_singleton] at hc
    subst hc
    decide

theorem plain_dir : Plain (path ++ [slash]) := by
  intro b hb
  rcases List.mem_append.mp hb with hb | hb
  · rcases hp.characters b hb with h | rfl
    · obtain ⟨hpercent, hquestion, hnumber, -⟩ := isUnreserved_ne h
      exact ⟨hpercent, hquestion, hnumber⟩
    · decide
  · rw [List.mem_singleton.mp hb]
    decide

theorem not_root : path ≠ [slash] := by
  rintro rfl
  exact absurd hp.not_slash (by decide)

end Portable

theorem urlTarget_put {unauthenticated_url : CStr}
    (hbase : ∀ b ∈ unauthenticated_url, endsPath b = false) (bucket path : CStr) :
    urlTarget unauthenticated_url (lit "api/worker/objects")
      (sia_worker_put_object_url unauthenticated_url bucket path) = some path :=
  urlTarget_escape (List.forall_mem_append.mpr ⟨hbase, by decide +kernel⟩) path

theorem urlTarget_delete {unauthenticated_url path : CStr}
    (hbase : ∀ b ∈ unauthenticated_url, endsPath b = false) (bucket : CStr) (h : Plain path) :
    urlTarget unauthenticated_url (lit "api/bus/objects")
      (sia_bus_del_object_url unauthenticated_url bucket path) = some path :=
  urlTarget_plain (List.forall_mem_append.mpr ⟨hbase, by decide +kernel⟩) h

section RoundTrip

variable {e : Env σ} {catalogue : σ → Catalogue} {contents : σ → CStr → Option Bytes} {w : World σ}
  {unauthenticated_url path : CStr}
  (hA : Addressed unauthenticated_url e.bucket e.server catalogue contents)
  (hbase : ∀ b ∈ unauthenticated_url, endsPath b = false) (hp : Portable path)

include hA hbase hp

theorem mkdir_puts (hw : w.L1 = none) : ∃ w', siafs_mkdir e path w = (.ok 0, w') ∧
    w'.L1 = none ∧
    contents w'.server = Function.update (contents w.server) (path ++ [slash]) (some []) := by
  rw [siafs_mkdir, if_neg (by simp [hp.not_slash])]
  exact ⟨_, rfl, hw, hA.put w.server _ [] _ (urlTarget_put hbase _ _) hp.dotless_dir⟩

theorem rmdir_deletes (hw : w.L1 = none) : ∃ w', siafs_rmdir e path w = (.ok 0, w') ∧
    w'.L1 = none ∧
    contents w'.server = Function.update (contents w.server) (path ++ [slash]) none := by
  rw [siafs_rmdir, withSlash_of_not_slash hp.not_slash]
  exact ⟨_, rfl, hw, hA.delete w.server _ _ (urlTarget_delete hbase _ hp.plain_dir) hp.dotless_dir⟩

end RoundTrip

/-- A directory that is made is there, and the bucket is as it was once the directory is
removed, whether or not it was looked at in between. -/
theorem mkdir_rmdir {e : Env σ} {catalogue : σ → Catalogue} {contents : σ → CStr → Option Bytes}
    {unauthenticated_url : CStr}
    (hA : Addressed unauthenticated_url e.bucket e.server catalogue contents)
    (htimes : ∀ s, (catalogue s).TimesFit) (hbase : ∀ b ∈ unauthenticated_url, endsPath b = false)
    {w : World σ} (hw : w.L1 = none) {path : CStr} (hp : Portable path)
    (hfree : contents w.server path = none) (hfree' : contents w.server (path ++ [slash]) = none) :
    ∃ w₁, siafs_mkdir e path w = (.ok 0, w₁) ∧
      contents w₁.server = Function.update (contents w.server) (path ++ [slash]) (some []) ∧
      ReportsDir (siafs_getattr e path w₁).1 ∧
      ∀ w₂, w₂ = w₁ ∨ w₂ = (siafs_getattr e path w₁).2 →
        ∃ w₃, siafs_rmdir e path w₂ = (.ok 0, w₃) ∧ contents w₃.server = contents w.server ∧
          (siafs_getattr e path w₃).1 = .ok (.error ENOENT) := by
  have hne : path ≠ path ++ [slash] := fun h => by simpa using congrArg List.length h
  obtain ⟨w₁, hmk, hoff, hput⟩ := mkdir_puts hA hbase hp hw
  refine ⟨w₁, hmk, hput, ?_, fun w₂ hw₂ => ?_⟩
  · rw [(getattr_kinds hA.toDescribed (htimes _) hp.not_root hp.not_slash hoff).2.1,
      hA.empty_iff, hput, Function.update_self, ← Option.not_isSome_iff_eq_none, hA.isSome_iff,
      hput, Function.update_of_ne hne, hfree]
    exact ⟨Bool.false_ne_true, rfl⟩
  · have hkept : w₂.L1 = none ∧ contents w₂.server = contents w₁.server := by
      rcases hw₂ with rfl | rfl
      · exact ⟨hoff, rfl⟩
      · exact hA.getattr_keeps hoff
    obtain ⟨w₃, hrm, hoff', hdel⟩ := rmdir_deletes hA hbase hp hkept.1
    have hback : contents w₃.server = contents w.server := by
      rw [hdel, hkept.2, hput, Function.update_idem, ← hfree', Function.update_eq_self]
    refine ⟨w₃, hrm, hback, ?_⟩
    rw [(getattr_kinds hA.toDescribed (htimes _) hp.not_root hp.not_slash hoff').2.2,
      hA.empty_iff, hback, ← Option.not_isSome_iff_eq_none, hA.isSome_iff, hback, hfree, hfree']
    exact ⟨Bool.false_ne_true, nofun⟩

/-- The server that reads the name of the object to delete out of the URL. -/
def byUrl (unauthenticated_url bucket : CStr) (server : σ → Request → Reply × σ) (s : σ) :
    Request → Reply × σ
  | .objects_delete path =>
    match urlTarget unauthenticated_url (lit "api/bus/objects")
        (sia_bus_del_object_url unauthenticated_url bucket path) with
    | some name => server s (.objects_delete name)
    | none => (plainReply 400 [], s)
  | r => server s r

theorem byUrl_addressed {unauthenticated_url : CStr}
    (hbase : ∀ b ∈ unauthenticated_url, endsPath b = false) (bucket : CStr) (refuse : Nat → Bool) :
    Addressed unauthenticated_url bucket (byUrl unauthenticated_url bucket (renterd refuse))
      Store.catalogue Store.data where
  toStored :=
    { objects_keeps := (renterd_stored refuse).objects_keeps
      objects_list_keeps := (renterd_stored refuse).objects_list_keeps
      objects_list := (renterd_stored refuse).objects_list
      objects := (renterd_stored refuse).objects
      objects_none := (renterd_stored refuse).objects_none
      sized := (renterd_stored refuse).sized
      objects_stored := (renterd_stored refuse).objects_stored
      list_stored := (renterd_stored refuse).list_stored }
  put s path body name h _ := by
    rw [urlTarget_put hbase] at h
    cases h
    rfl
  delete s path name h _ := by
    rw [byUrl, h]
    rfl

/-- A mount of it. -/
def urlMount : Env Store :=
  mountOf .fuse3 true
    (byUrl (lit "http://127.0.0.1:9980/") (lit "default") (renterd fun _ => false))

theorem mkdir_rmdir_sibling : ∃ w₁,
    siafs_mkdir urlMount (lit "/d-1") (mounted ((Store.blank.put (lit "/d-1x") [1])) none) =
      (.ok 0, w₁) ∧ ReportsDir (siafs_getattr urlMount (lit "/d-1") w₁).1 := by
  have hp : Portable (lit "/d-1") :=
    ⟨by decide, by decide, by decide +kernel, by unfold Dotless; decide +kernel⟩
  have hbase : ∀ b ∈ lit "http://127.0.0.1:9980/", endsPath b = false := by decide +kernel
  obtain ⟨w₁, hmk, -, hdir, -⟩ := mkdir_rmdir (e := urlMount)
    (byUrl_addressed hbase (lit "default") fun _ => false) Store.timesFit hbase
    (w := mounted ((Store.blank.put (lit "/d-1x") [1])) none) rfl hp (by decide) (by decide)
  exact ⟨w₁, hmk, hdir⟩

end SiaFS
