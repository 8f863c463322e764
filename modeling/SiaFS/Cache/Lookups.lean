/-
The lookups of the L1 cache, and what a cached reply is good for.

A reply is cached as a whole, but the program reads little out of it.  `Use`
lists what it reads, and two replies are `Alike` when it reads the same out of
both.  The cache is `Coherent` when every reply in it is like the one the server
would give now.  A lookup is `Truthful` when it is answered like that, with a
coherent cache or without one.
-/
import Mathlib.Data.Set.Function
import SiaFS.Backend.Catalogue

namespace SiaFS

/-- A metadata request, as it is cached. -/
inductive Lookup
  | object (path : CStr)
  | list (path : CStr)

variable {σ : Type} (e : Env σ)

namespace Lookup

def request : Lookup → Request
  | .object path => .objects path
  | .list path => .objects_list path

def key : Lookup → CStr
  | .object path => objectsKey e path
  | .list path => listKey e path

def path : Lookup → CStr
  | .object path | .list path => path

/-- The reply of the server in the state `s`. -/
def reply (l : Lookup) (s : σ) : Option Body := (e.server s l.request).1.body

/-- What `siafs_getattr`, `siafs_readdir` and `siafs_open` read out of the reply. -/
inductive Use : Lookup → {α : Type} → (Option Body → α) → Prop
  | found (path : CStr) (h : endsWithSlash path = false) :
    Use (.list path) fun payload => scanObjects (testExists path) (listedObjects payload)
  | file (path : CStr) :
    Use (.list path) fun payload => scanObjects (testFile path) (listedObjects payload)
  | dir (path : CStr) (h : endsWithSlash path = true) :
    Use (.list path) fun payload => scanObjects (testDir path) (listedObjects payload)
  | time (path : CStr) (h : endsWithSlash path = true) :
    Use (.list path) fun payload =>
      (objectsChildren payload).foldlM (matchDirModtime path) none
  | size (path : CStr) (h : endsWithSlash path = false) : Use (.object path) replySize
  | modTime (path : CStr) (h : endsWithSlash path = false) :
    Use (.object path) fun payload => (objectField payload (lit "modTime")).bind Json.valuestring
  | names (path : CStr) (h : endsWithSlash path = true) :
    Use (.object path) fun payload => fillEntries (listedEntries payload)

def Alike (l : Lookup) (payload payload' : Option Body) : Prop :=
  ∀ (α : Type) (f : Option Body → α), l.Use f → f payload = f payload'

theorem Alike.refl (l : Lookup) (payload : Option Body) : l.Alike payload payload :=
  fun _ _ _ => rfl

theorem Alike.trans {l : Lookup} {p p' p'' : Option Body} (h : l.Alike p p')
    (h' : l.Alike p' p'') : l.Alike p p'' := fun α f hf => (h α f hf).trans (h' α f hf)

/-- A change of the catalogue that the program can see in the reply: a file comes
or goes, a directory comes, goes or changes its time, an object changes, another
entry shows in a directory. -/
def Changed (b b' : Catalogue) : Lookup → Prop
  | .list path =>
    if endsWithSlash path then b.dirTime path ≠ b'.dirTime path
    else (b path).isSome ≠ (b' path).isSome
  | .object path =>
    if endsWithSlash path then ¬ ∀ x, b.Shows path x ↔ b'.Shows path x
    else b path ≠ b' path

theorem not_changed_self (l : Lookup) (b : Catalogue) : ¬ l.Changed b b := by
  cases l <;> simp [Changed]

/-- The string that is hashed for the key. -/
def text : Lookup → CStr
  | .object path => lit "sia_bus_objects_json" ++ lit "::" ++ lit "api/bus/objects" ++ lit "::" ++ path
  | .list path =>
    lit "sia_bus_objects_list_json" ++ lit "::" ++ lit "api/bus/objects/list" ++ lit "::" ++ path

theorem key_eq (l : Lookup) : l.key e = e.host.md5 l.text := by cases l <;> rfl

/-- The two kinds of keys differ, and so do those of one kind. -/
theorem text_injective : Function.Injective text := by
  intro l l' h
  cases l with
  | object path =>
    cases l' with
    | object path' => rw [List.append_cancel_left h]
    | list path' =>
      have := congrArg (fun s : CStr => s[16]?) h
      simp [text, lit] at this
  | list path =>
    cases l' with
    | object path' =>
      have := congrArg (fun s : CStr => s[16]?) h
      simp [text, lit] at this
    | list path' => rw [List.append_cancel_left h]

end Lookup

/-- With a path `P` has its slash-terminated form, and MD5 does not collide on the
strings hashed for the lookups of these paths. -/
structure Keyed (P : CStr → Prop) : Prop where
  withSlash : ∀ path, P path → P (withSlash path)
  md5 : Set.InjOn e.host.md5 {s | ∃ l : Lookup, P l.path ∧ l.text = s}

variable {e} in
theorem Keyed.key_inj {P : CStr → Prop} (hP : Keyed e P) {l l' : Lookup} (hl : P l.path)
    (hl' : P l'.path) (h : l.key e = l'.key e) : l = l' := by
  rw [Lookup.key_eq, Lookup.key_eq] at h
  exact Lookup.text_injective (hP.md5 ⟨l, hl, rfl⟩ ⟨l', hl', rfl⟩ h)

/-- The lookup is answered from the cache. -/
def Cached (w : World σ) (l : Lookup) : Prop := (mc_lookup w (l.key e)).isSome

/-- Every cached reply about the paths is like the one the server would give now. -/
def Coherent (P : CStr → Prop) (w : World σ) : Prop :=
  ∀ l : Lookup, P l.path → ∀ body, mc_lookup w (l.key e) = some body →
    l.Alike (some body) (l.reply e w.server)

variable {e} {catalogue : σ → Catalogue} {P : CStr → Prop}

/-- A change that the lookup does not show leaves its reply like it was. -/
theorem Catalogued.alike (hC : Catalogued e.server catalogue) {l : Lookup} {s s' : σ}
    (h : ¬ l.Changed (catalogue s) (catalogue s')) : l.Alike (l.reply e s) (l.reply e s') := by
  intro α f hf
  cases hf with
  | found path hslash =>
    rw [Lookup.Changed, if_neg (by simp [hslash]), not_not] at h
    show scanObjects _ (listedObjects (e.server s (.objects_list path)).1.body) =
      scanObjects _ (listedObjects (e.server s' (.objects_list path)).1.body)
    rw [(hC.list_seen s path).1, (hC.list_seen s' path).1, h]
  | file path =>
    show scanObjects _ (listedObjects (e.server s (.objects_list path)).1.body) =
      scanObjects _ (listedObjects (e.server s' (.objects_list path)).1.body)
    rw [(hC.list_seen s path).2.1, (hC.list_seen s' path).2.1]
    cases hslash : endsWithSlash path with
    | true => rw [Bool.not_true, Bool.and_false, Bool.and_false]
    | false =>
      rw [Lookup.Changed, if_neg (by simp [hslash]), not_not] at h
      rw [h]
  | dir path hslash =>
    rw [Lookup.Changed, if_pos hslash, not_not] at h
    show scanObjects _ (listedObjects (e.server s (.objects_list path)).1.body) =
      scanObjects _ (listedObjects (e.server s' (.objects_list path)).1.body)
    rw [(hC.list_seen s path).2.2.1, (hC.list_seen s' path).2.2.1, h]
  | time path hslash =>
    rw [Lookup.Changed, if_pos hslash, not_not] at h
    show List.foldlM _ _ (objectsChildren (e.server s (.objects_list path)).1.body) =
      List.foldlM _ _ (objectsChildren (e.server s' (.objects_list path)).1.body)
    rw [(hC.list_seen s path).2.2.2, (hC.list_seen s' path).2.2.2, h]
  | size path hslash =>
    rw [Lookup.Changed, if_neg (by simp [hslash]), not_not] at h
    exact congrArg (fun o => ((o.bind Json.number?).map u64).getD 0) (hC.objectField_congr hslash h).1
  | modTime path hslash =>
    rw [Lookup.Changed, if_neg (by simp [hslash]), not_not] at h
    exact congrArg (·.bind Json.valuestring) (hC.objectField_congr hslash h).2
  | names path hslash =>
    rw [Lookup.Changed, if_pos hslash, not_not] at h
    show fillEntries (listedEntries (e.server s (.objects path)).1.body) =
      fillEntries (listedEntries (e.server s' (.objects path)).1.body)
    rw [fillEntries_eq, fillEntries_eq, hC.entries s s' path hslash h]

/-! ## Lookups -/

/-- From `w` to `w'` only lookups with `Q` were made. -/
structure Looks (e : Env σ) (P : CStr → Prop) (catalogue : σ → Catalogue) (Q : Lookup → Prop)
    (w w' : World σ) : Prop where
  now : w'.now = w.now
  catalogue : catalogue w'.server = catalogue w.server
  coherent : ∀ {S : CStr → Prop}, (∀ path, S path → P path) → Coherent e S w → Coherent e S w'
  cached : ∀ l : Lookup, P l.path → Cached e w' l → Cached e w l ∨ Q l

variable {Q : Lookup → Prop}

instance : Std.Refl (Looks e P catalogue Q) where
  refl _ := ⟨rfl, rfl, fun _ h => h, fun _ _ => Or.inl⟩

instance : IsTrans (World σ) (Looks e P catalogue Q) where
  trans a b c hab hbc := by
    refine ⟨hbc.now.trans hab.now, hbc.catalogue.trans hab.catalogue,
      fun hS h => hbc.coherent hS (hab.coherent hS h), fun l hp hl => ?_⟩
    rcases hbc.cached l hp hl with hl | hl
    · exact hab.cached l hp hl
    · exact Or.inr hl

theorem not_cached_iff {w : World σ} {l : Lookup} :
    ¬ Cached e w l ↔ mc_lookup w (l.key e) = none := by
  rw [Cached, Option.not_isSome_iff_eq_none]

/-- A lookup returns a reply like the one the server would give. -/
theorem lookup_alike {S : CStr → Prop} {l : Lookup} (hp : S l.path) {w : World σ}
    (hw : Coherent e S w) :
    ∃ body, (cachedRequest e (l.key e) l.request w).1 = .ok body ∧
      l.Alike body (l.reply e w.server) := by
  cases hhit : mc_lookup w (l.key e) with
  | some body => exact ⟨some body, by rw [cachedRequest_hit hhit], hw l hp body hhit⟩
  | none => exact ⟨l.reply e w.server, by rw [cachedRequest_miss hhit]; rfl, Lookup.Alike.refl _ _⟩

section Lookups

/-- A request for metadata changes no catalogue. -/
theorem Described.lookup_keeps (hC : Described e.server catalogue) (l : Lookup) (s : σ) :
    catalogue (e.server s l.request).2 = catalogue s := by
  cases l with
  | object path => exact hC.objects_keeps s path
  | list path => exact hC.objects_list_keeps s path

variable (hC : Catalogued e.server catalogue)

include hC

theorem Catalogued.reply_alike {l : Lookup} {s s' : σ} (h : catalogue s = catalogue s') :
    l.Alike (l.reply e s) (l.reply e s') :=
  hC.alike (by rw [h]; exact l.not_changed_self _)

theorem keeps_lookup (hP : Keyed e P) (l : Lookup) (hp : P l.path) (hl : Q l) :
    Exec.Keeps (Looks e P catalogue Q) (cachedRequest e (l.key e) l.request) := by
  refine cachedRequest_keeps fun w _ => ?_
  have hkeeps : catalogue (fetched e (l.key e) l.request w).server = catalogue w.server :=
    hC.lookup_keeps l w.server
  refine ⟨rfl, hkeeps, fun hS hw l' hs' body hbody => ?_, fun l' hp' hl' => ?_⟩
  · have hsame := hC.reply_alike (l := l') hkeeps.symm
    rcases mc_lookup_fetched hbody with ⟨hk, hreply⟩ | hold
    · cases hP.key_inj (hS _ hs') hp hk
      rw [← hreply]
      exact hsame
    · exact (hw l' hs' body hold).trans hsame
  · obtain ⟨body, hbody⟩ := Option.isSome_iff_exists.mp hl'
    rcases mc_lookup_fetched hbody with ⟨hk, -⟩ | hold
    · cases hP.key_inj hp' hp hk
      exact Or.inr hl
    · exact Or.inl (by rw [Cached, hold]; rfl)

theorem lookups_look (hP : Keyed e P) {path : CStr} (hp : P path) :
    LookupsKeep e (Looks e P catalogue fun _ => True) path where
  object := keeps_lookup hC hP (.object path) hp trivial
  list := keeps_lookup hC hP (.list path) hp trivial
  entries := keeps_lookup hC hP (.object (withSlash path)) (hP.withSlash _ hp) trivial
  listDir := keeps_lookup hC hP (.list (withSlash path)) (hP.withSlash _ hp) trivial

end Lookups

/-! ## Lookups that tell the truth -/

/-- From every state with `I` the lookup is answered like the server would answer
now, and `I` still holds. -/
def Truthful (e : Env σ) (catalogue : σ → Catalogue) (I : World σ → Prop) (l : Lookup) : Prop :=
  ∀ w, I w → ∃ body w', cachedRequest e (l.key e) l.request w = (.ok body, w') ∧
    l.Alike body (l.reply e w.server) ∧ I w' ∧ catalogue w'.server = catalogue w.server ∧
    w'.now = w.now

/-- Over a coherent cache they do. -/
theorem truthful_coherent (hC : Catalogued e.server catalogue) (hP : Keyed e P)
    {S : CStr → Prop} (hS : ∀ path, S path → P path) {l : Lookup} (hl : S l.path) :
    Truthful e catalogue (Coherent e S) l := by
  intro w hw
  obtain ⟨body, hres, halike⟩ := lookup_alike hl hw
  have hlooks := keeps_lookup hC hP (Q := fun _ => True) l (hS _ hl) trivial w
  exact ⟨body, _, Prod.ext hres rfl, halike, hlooks.coherent hS hw, hlooks.catalogue, hlooks.now⟩

/-- Without the cache they do. -/
theorem truthful_off (hC : Described e.server catalogue) (l : Lookup) :
    Truthful e catalogue (fun w => w.L1 = none) l := by
  intro w hw
  have hmiss : mc_lookup w (l.key e) = none := by rw [mc_lookup, hw]; rfl
  refine ⟨_, _, cachedRequest_miss hmiss _, Lookup.Alike.refl _ _, ?_, ?_, rfl⟩
  · show w.L1.map _ = none
    rw [hw]
    rfl
  · exact hC.lookup_keeps l w.server

end SiaFS
