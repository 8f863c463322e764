/-
The entries of a directory, looked up one by one.

The listing groups the objects below a directory by the next component of their
names; `siafs_getattr` wants an object of the name itself or of the name with a
slash added.  A component that comes only from names that go on after it is
listed and then not found, unless its directory was marked.  The listing has the
directory in an escaped URL and the lookup has the name in a body that is not escaped,
so a name that needs escapes in a JSON string may be listed and not found either.
-/
import Mathlib.Data.List.TakeWhile
import SiaFS.Paths.Missing

namespace SiaFS

open JsonText

variable {σ : Type}

/-- The entries of a directory are the names of the objects below it, cut after
their next slash. -/
structure Groups (server : σ → Request → Reply × σ) (catalogue : σ → Catalogue) : Prop where
  objects_keeps : ∀ s path, catalogue (server s (.objects path)).2 = catalogue s
  entries : ∀ s path, endsWithSlash path = true → ∃ names : List CStr,
    entryNames (server s (.objects path)).1.body = names.map some ∧
      ∀ x, x ∈ names ↔ (catalogue s).Shows path x

/-- The same, and every listing that is asked for arrives and shows the objects whose
names begin with the prefix that the server received. -/
structure Listed (server : σ → Request → Reply × σ) (catalogue : σ → Catalogue) : Prop
    extends Groups server catalogue where
  objects_list_keeps : ∀ s pre, catalogue (server s (.objects_list pre)).2 = catalogue s
  objects_list : ∀ s pre, ¬ Unlisted (server s (.objects_list pre)).1.body ∧
    (∀ item ∈ listedObjects (server s (.objects_list pre)).1.body,
      ((catalogue s).under pre).Describes item) ∧
    ∀ name, ((catalogue s).under pre name).isSome →
      ∃ item ∈ listedObjects (server s (.objects_list pre)).1.body, ListedAs name item

/-- The path of this request is escaped. -/
theorem Groups.received {server : σ → Request → Reply × σ} {catalogue : σ → Catalogue}
    (hG : Groups server catalogue) (bucket : CStr) :
    Groups (receiving bucket server) catalogue where
  objects_keeps s path := by
    rw [receiving_read rfl]
    exact hG.objects_keeps s path
  entries s path h := by
    rw [receiving_read rfl]
    exact hG.entries s path h

/-- The part of a name below a directory up to the next slash. -/
def component (dir name : CStr) : CStr := (name.drop dir.length).takeWhile (· != slash)

namespace Catalogue

variable (b : Catalogue)

/-- There is an object for the path that the listing asked for shows. -/
def Resolves (bucket path : CStr) : Prop :=
  path = [slash] ∨ ((b path).isSome ∧ endsWithSlash path = false ∧ Shown bucket path) ∨
    (b.Empty (withSlash path) ∧ Shown bucket (withSlash path))

/-- Below the directory, the next component of every name can be looked up itself. -/
def Marked (bucket dir : CStr) : Prop :=
  ∀ name, (b name).isSome → dir <+: name → name ≠ dir →
    component dir name ≠ lit "." → component dir name ≠ lit ".." →
    b.Resolves bucket (dir ++ component dir name)

end Catalogue

/-! ## Names -/

section Names

variable {dir name first : CStr}

theorem slash_notMem_component (dir name : CStr) : slash ∉ component dir name := by
  intro h
  have := List.mem_takeWhile_imp h
  simp at this

theorem endsWithSlash_append (hne : first ≠ []) (h : slash ∉ first) :
    endsWithSlash (dir ++ first) = false := by
  rw [endsWithSlash, List.getLast?_append_of_ne_nil _ hne]
  rw [beq_eq_false_iff_ne]
  intro hlast
  exact h (List.mem_of_getLast? hlast)

/-- The name after the last slash. -/
theorem strrchr_append (hdir : endsWithSlash dir = true) (h : slash ∉ first) :
    strrchr (dir ++ first) slash = some (slash :: first) := by
  obtain ⟨pre, rfl⟩ : ∃ pre, dir = pre ++ [slash] :=
    List.getLast?_eq_some_iff.mp (by simpa [endsWithSlash] using hdir)
  have hall : ∀ c ∈ first.reverse, (c != slash) = true := by
    intro c hc
    rw [bne_iff_ne]
    rintro rfl
    exact h (List.mem_reverse.mp hc)
  have htake : (pre ++ [slash] ++ first).reverse.takeWhile (· != slash) = first.reverse := by
    rw [List.reverse_append, List.takeWhile_append_of_pos hall, List.reverse_append]
    show first.reverse ++ List.takeWhile _ (slash :: pre.reverse) = _
    rw [List.takeWhile_cons_of_neg (by simp), List.append_nil]
  rw [strrchr, if_pos (by simp), htake, List.reverse_reverse]

theorem component_eq (h : slash ∉ name.drop dir.length) :
    component dir name = name.drop dir.length := by
  rw [component, List.takeWhile_eq_self_iff]
  intro c hc
  rw [bne_iff_ne]
  rintro rfl
  exact h hc

theorem component_length (h : slash ∈ name.drop dir.length) :
    (component dir name).length < (name.drop dir.length).length := by
  refine Nat.lt_of_le_of_ne (List.takeWhile_prefix _).length_le fun heq => ?_
  have hall : component dir name = name.drop dir.length :=
    (List.takeWhile_prefix _).eq_of_length heq
  exact slash_notMem_component dir name (hall ▸ h)

/-- What is passed to the filler for an entry. -/
theorem entryName_entryUnder (hdir : endsWithSlash dir = true) (hpre : dir <+: name)
    (hne : name ≠ dir) : entryName (entryUnder dir name) = .ok (component dir name) := by
  have hfirst := slash_notMem_component dir name
  have hcut : entryName (dir ++ component dir name ++
      if (component dir name).length < (name.drop dir.length).length then [slash] else []) =
      .ok (component dir name) := by
    obtain ⟨b, bs, hb⟩ : ∃ b bs, dir = b :: bs := by
      cases dir with
      | nil => cases hdir
      | cons b bs => exact ⟨b, bs, rfl⟩
    by_cases hmore : slash ∈ name.drop dir.length
    · rw [if_pos (component_length hmore)]
      have hends : endsWithSlash (dir ++ component dir name ++ [slash]) = true := by
        simp [endsWithSlash]
      have hlast := strrchr_append hdir hfirst
      have hdrop : (dir ++ component dir name ++ [slash]).dropLast = dir ++ component dir name :=
        List.dropLast_concat
      subst hb
      rw [show b :: bs ++ component (b :: bs) name ++ [slash] =
        b :: (bs ++ component (b :: bs) name ++ [slash]) from rfl] at hends hdrop ⊢
      rw [entryName, if_pos hends, hdrop, hlast]
      rfl
    · have hrest := component_eq hmore
      have hnonempty : component dir name ≠ [] := by
        rw [hrest]
        intro hnil
        obtain ⟨rest, rfl⟩ := hpre
        rw [List.drop_left] at hnil
        subst hnil
        exact hne (List.append_nil dir)
      have hends : endsWithSlash (dir ++ component dir name) = false :=
        endsWithSlash_append hnonempty hfirst
      have hlast := strrchr_append hdir hfirst
      rw [if_neg (by rw [hrest]; exact Nat.lt_irrefl _), List.append_nil]
      subst hb
      rw [show b :: bs ++ component (b :: bs) name = b :: (bs ++ component (b :: bs) name) from
        rfl] at hends hlast ⊢
      rw [entryName, if_neg (by simp [hends]), hlast]
      rfl
  exact hcut

end Names

/-! ## Listing and lookup -/

section Lookup

variable {e : Env σ} {catalogue : σ → Catalogue} {w : World σ}

theorem mapM_ok {α β : Type} {f : α → Except Fault β} {xs : List α} {g : α → β}
    (h : ∀ x ∈ xs, f x = .ok (g x)) : xs.mapM f = .ok (xs.map g) := by
  induction xs with
  | nil => rfl
  | cons x xs ih =>
    rw [List.mapM_cons, h x List.mem_cons_self, ih fun y hy => h y (List.mem_cons_of_mem _ hy)]
    rfl

/-- A directory is listed with the next component of every name below it. -/
theorem readdir_off (hG : Groups e.server catalogue) (hw : w.L1 = none) (path : CStr) :
    ∃ names w', siafs_readdir e path w = (.ok (lit "." :: lit ".." :: names), w') ∧
      (∀ x, x ∈ names ↔ ∃ name, (catalogue w.server name).isSome ∧ withSlash path <+: name ∧
        name ≠ withSlash path ∧ component (withSlash path) name = x) ∧
      w'.L1 = none ∧ catalogue w'.server = catalogue w.server := by
  obtain ⟨entries, hentries, hshows⟩ :=
    hG.entries w.server (withSlash path) (endsWithSlash_withSlash path)
  have hmiss : mc_lookup w (objectsKey e (withSlash path)) = none := by
    rw [mc_lookup, hw]
    rfl
  have hfill : fillEntries (listedEntries (e.server w.server (.objects (withSlash path))).1.body) =
      .ok (entries.map (entryName · |>.toOption.getD [])) := by
    have hids : ((entries.map some).filterMap id) = entries := by
      rw [List.filterMap_map]
      exact List.filterMap_some
    rw [fillEntries_eq, hentries, hids]
    refine mapM_ok fun x hx => ?_
    obtain ⟨name, -, hpre, hne, rfl⟩ := (hshows x).mp hx
    rw [entryName_entryUnder (endsWithSlash_withSlash path) hpre hne]
    rfl
  have hres : siafs_readdir e path w =
      (.ok (lit "." :: lit ".." :: entries.map (entryName · |>.toOption.getD [])),
        fetched e (objectsKey e (withSlash path)) (.objects (withSlash path)) w) := by
    rw [siafs_readdir, sia_bus_objects_json, Exec.bind_of_ok (cachedRequest_miss hmiss _), hfill]
    rfl
  refine ⟨_, _, hres, fun x => ?_, ?_, ?_⟩
  rotate_left
  · show w.L1.map _ = none
    rw [hw]
    rfl
  · show catalogue (e.server w.server (.objects (withSlash path))).2 = _
    rw [hG.objects_keeps]
  rw [List.mem_map]
  constructor
  · rintro ⟨entry, hentry, rfl⟩
    obtain ⟨name, hsome, hpre, hne, rfl⟩ := (hshows entry).mp hentry
    rw [entryName_entryUnder (endsWithSlash_withSlash path) hpre hne]
    exact ⟨name, hsome, hpre, hne, rfl⟩
  · rintro ⟨name, hsome, hpre, hne, rfl⟩
    refine ⟨entryUnder (withSlash path) name, (hshows _).mpr ⟨name, hsome, hpre, hne, rfl⟩, ?_⟩
    rw [entryName_entryUnder (endsWithSlash_withSlash path) hpre hne]
    rfl

theorem Listed.flaky {server : σ → Request → Reply × σ} (hL : Listed server catalogue) :
    Flaky server catalogue where
  objects_list_keeps := hL.objects_list_keeps
  objects_list s pre := Or.inr (hL.objects_list s pre).2

variable {server : σ → Request → Reply × σ} (he : e.server = receiving e.bucket server)
  (hL : Listed server catalogue)

include he hL

theorem Listed.arrived {path : CStr} (h : Shown e.bucket path) (s : σ) :
    ¬ Unlisted (listing e path s) := by
  obtain ⟨pre, hpre, -⟩ := h
  have hread : (Request.objects_list path).received e.bucket = some (.objects_list pre) := by
    rw [Request.received, hpre]
    rfl
  rw [listing, he, receiving_read hread]
  exact (hL.objects_list s pre).1

theorem Listed.arrives_iff (path : CStr) :
    Arrives e catalogue path w ↔ (catalogue w.server).Resolves e.bucket path := by
  have hfile : (catalogue w.server).isFile path = true ↔
      (catalogue w.server path).isSome ∧ endsWithSlash path = false := by
    rw [Catalogue.isFile, Bool.and_eq_true, Bool.not_eq_true']
  have hdir : (catalogue w.server).isDir path = true ↔
      (catalogue w.server).Empty (withSlash path) := Catalogue.dirTime_isSome
  rw [Arrives, Catalogue.Resolves, hfile, hdir, and_assoc]
  refine or_congr_right (or_congr ?_ ?_)
  · exact and_congr_right fun _ => and_congr_right fun _ =>
      and_iff_left_of_imp fun hshown => hL.arrived he hshown _
  · exact and_congr_right fun _ => and_iff_left_of_imp fun hshown => hL.arrived he hshown _

end Lookup

/-- Every name listed for a directory is found by `siafs_getattr` exactly when there is an
object for the next component of every longer name, and the lookups show it. -/
theorem entries_resolve {e : Env σ} {catalogue : σ → Catalogue}
    {server : σ → Request → Reply × σ} (he : e.server = receiving e.bucket server)
    (hL : Listed server catalogue) {w : World σ} (hw : w.L1 = none) (path : CStr) :
    ∃ names w', siafs_readdir e path w = (.ok names, w') ∧
      ((∀ x ∈ names, x ≠ lit "." → x ≠ lit ".." →
          (siafs_getattr e (withSlash path ++ x) w').1 ≠ .ok (.error ENOENT)) ↔
        (catalogue w.server).Marked e.bucket (withSlash path)) := by
  obtain ⟨names, w', hres, hnames, hoff, hkeeps⟩ :=
    readdir_off (he ▸ hL.toGroups.received e.bucket) hw path
  refine ⟨_, w', hres, ?_⟩
  have hfound : ∀ x, (siafs_getattr e (withSlash path ++ x) w').1 ≠ .ok (.error ENOENT) ↔
      (catalogue w.server).Resolves e.bucket (withSlash path ++ x) := by
    intro x
    rw [ne_eq, getattr_flaky he hL.flaky _ hoff, not_not, hL.arrives_iff he, hkeeps]
  constructor
  · intro h name hsome hpre hne hdot hdots
    have hmem := (hnames _).mpr ⟨name, hsome, hpre, hne, rfl⟩
    exact (hfound _).mp (h _ (List.mem_cons_of_mem _ (List.mem_cons_of_mem _ hmem)) hdot hdots)
  · intro h x hx hdot hdots
    rw [hfound]
    have hx : x ∈ names := by simpa [hdot, hdots] using hx
    obtain ⟨name, hsome, hpre, hne, rfl⟩ := (hnames x).mp hx
    exact h name hsome hpre hne hdot hdots

/-! ## The store -/

theorem renterd_listed (refuse : Nat → Bool) : Listed (renterd refuse) Store.catalogue where
  objects_keeps := (renterd_catalogued refuse).objects_keeps
  entries s path hslash := by
    refine ⟨s.entryNames path, ?_, s.mem_entryNames path⟩
    rw [renterd, if_pos hslash]
    exact entryNames_entries s path
  objects_list_keeps _ _ := rfl
  objects_list s pre := renterd_listing s pre

/-- A directory with a marked directory in it. -/
def markedStore : Store :=
  ((Store.blank.put (lit "/d/") []).put (lit "/d/x/") []).put (lit "/d/x/y") [7]

theorem markedStore_marked : markedStore.catalogue.Marked (lit "default") (lit "/d/") := by
  have hshown : Shown (lit "default") (lit "/d/x/") :=
    shown_clean clean_default (by unfold Clean; decide +kernel)
  have hmarker : markedStore.catalogue.Resolves (lit "default") (lit "/d/x") :=
    Or.inr (Or.inr ⟨⟨_, rfl, rfl⟩, hshown⟩)
  intro name hsome hpre hne _ _
  obtain ⟨body, hdata⟩ := (Store.catalogue_isSome _ _).mp hsome
  have hname : name ∈ [lit "/d/x/y", lit "/d/x/", lit "/d/"] :=
    markedStore.named name (by simp [hdata])
  simp only [List.mem_cons, List.not_mem_nil, or_false] at hname
  rcases hname with rfl | rfl | rfl
  · exact hmarker
  · exact hmarker
  · exact absurd rfl hne

theorem entries_resolve_marked :
    ∃ names w', siafs_readdir receivingMount (lit "/d") (mounted markedStore none) =
        (.ok names, w') ∧
      ∀ x ∈ names, x ≠ lit "." → x ≠ lit ".." →
        (siafs_getattr receivingMount (lit "/d/" ++ x) w').1 ≠ .ok (.error ENOENT) := by
  obtain ⟨names, w', hres, hiff⟩ := entries_resolve receivingMount_server (renterd_listed _)
    (w := mounted markedStore none) rfl (lit "/d")
  exact ⟨names, w', hres, hiff.mpr markedStore_marked⟩

/-- An object below a directory that was never marked is listed and not found. -/
theorem unmarked_not_found :
    ∃ names w', siafs_readdir receivingMount (lit "/d")
        (mounted ((Store.blank.put (lit "/d/") []).put (lit "/d/x/y") [7]) none) =
        (.ok names, w') ∧ lit "x" ∈ names ∧
      (siafs_getattr receivingMount (lit "/d/x") w').1 = .ok (.error ENOENT) := by
  have hw : (mounted ((Store.blank.put (lit "/d/") []).put (lit "/d/x/y") [7]) none).L1 = none :=
    rfl
  obtain ⟨names, w', hres, hnames, hoff, hkeeps⟩ :=
    readdir_off (e := receivingMount) ((renterd_listed _).toGroups.received _) hw (lit "/d")
  refine ⟨_, w', hres, ?_, ?_⟩
  · refine List.mem_cons_of_mem _ (List.mem_cons_of_mem _ ((hnames _).mpr ?_))
    exact ⟨lit "/d/x/y", rfl, by decide, by decide, by decide⟩
  · rw [getattr_flaky receivingMount_server (renterd_listed _).flaky _ hoff,
      (renterd_listed _).arrives_iff receivingMount_server, hkeeps]
    rintro (h | ⟨h, -⟩ | ⟨⟨_, h, -⟩, -⟩)
    · exact absurd h (by decide)
    · cases h
    · cases h

end SiaFS
