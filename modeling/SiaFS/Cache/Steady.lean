/-
When `siafs_getattr` comes to an end.

It follows a null pointer when the listing of a path shows a file and the record of
the object has no modification time.  A cache is steady when the listings in it
agree with the catalogue and every record in it of an object that is there has a
time; it may be an old one.
-/
import SiaFS.Paths.Kinds

namespace SiaFS

open Json

variable {σ : Type}

/-- The record has a time that fits into the buffer. -/
def Timed (payload : Option Body) : Prop :=
  ∃ t, (objectField payload (lit "modTime")).bind valuestring = some t ∧ t.length < 32

/-- The catalogue is `b`, the cached listings agree with it, and the cached records of
its objects have a time. -/
structure Steady (e : Env σ) (P : CStr → Prop) (catalogue : σ → Catalogue) (b : Catalogue)
    (w : World σ) : Prop where
  catalogue : catalogue w.server = b
  lists : ∀ path, P path → ∀ body, mc_lookup w (listKey e path) = some body →
    (Lookup.list path).Alike (some body) ((Lookup.list path).reply e w.server)
  records : ∀ path, P path → endsWithSlash path = false → (b path).isSome →
    ∀ body, mc_lookup w (objectsKey e path) = some body → Timed (some body)

section Steady

variable {e : Env σ} {P : CStr → Prop} {catalogue : σ → Catalogue} {b : Catalogue}
  {w w' : World σ} {path : CStr}

/-- With fewer entries and the same server the cache stays steady. -/
theorem Steady.fewer (hw : Steady e P catalogue b w) (hserver : w'.server = w.server)
    (hfewer : ∀ l : Lookup, ∀ body, mc_lookup w' (l.key e) = some body →
      mc_lookup w (l.key e) = some body) : Steady e P catalogue b w' := by
  refine ⟨by rw [hserver]; exact hw.catalogue, fun path hp body hbody => ?_,
    fun path hp hslash hb body hbody => ?_⟩
  · rw [hserver]
    exact hw.lists path hp body (hfewer (.list path) body hbody)
  · exact hw.records path hp hslash hb body (hfewer (.object path) body hbody)

theorem Steady.idle (seconds : Nat) (hw : Steady e P catalogue b w) :
    Steady e P catalogue b { w with now := w.now + seconds } :=
  hw.fewer rfl fun _ _ => mc_lookup_later

variable (hC : Catalogued e.server catalogue) (hP : Keyed e P) (hb : b.TimesFit)

include hC hb

theorem Described.timed {s : σ} (hs : catalogue s = b) (hslash : endsWithSlash path = false)
    (hpath : (b path).isSome) : Timed (e.server s (.objects path)).1.body := by
  obtain ⟨entry, hentry⟩ := Option.isSome_iff_exists.mp hpath
  have htime := (hC.objects s path entry hslash (by rw [hs, hentry])).2
  exact ⟨entry.modTime, by rw [htime]; rfl, hb path entry hentry⟩

/-- A coherent cache is steady. -/
theorem steady_of_coherent (hw : Coherent e P w) (hcat : catalogue w.server = b) :
    Steady e P catalogue b w := by
  refine ⟨hcat, fun path hp => hw (.list path) hp, fun path hp hslash hpath body hbody => ?_⟩
  have halike := hw (.object path) hp body hbody _ _ (.modTime path hslash)
  rw [Timed, halike]
  exact Described.timed hC hb hcat hslash hpath

include hP

theorem Steady.lookup (hw : Steady e P catalogue b w) (l : Lookup) (hl : P l.path) :
    Steady e P catalogue b (cachedRequest e (l.key e) l.request w).2 := by
  cases hhit : mc_lookup w (l.key e) with
  | some body =>
    rw [cachedRequest_hit hhit]
    exact hw
  | none =>
    rw [cachedRequest_miss hhit]
    have hkeeps : catalogue (fetched e (l.key e) l.request w).server = catalogue w.server :=
      hC.lookup_keeps l w.server
    refine ⟨hkeeps.trans hw.catalogue, fun path hp body hbody => ?_,
      fun path hp hslash hpath body hbody => ?_⟩
    · have hsame := hC.reply_alike (l := .list path) hkeeps.symm
      rcases mc_lookup_fetched hbody with ⟨hkey, hreply⟩ | hold
      · cases hP.key_inj (l := .list path) hp hl hkey
        rw [← hreply]
        exact hsame
      · exact (hw.lists path hp body hold).trans hsame
    · rcases mc_lookup_fetched hbody with ⟨hkey, hreply⟩ | hold
      · cases hP.key_inj (l := .object path) hp hl hkey
        rw [← hreply]
        exact Described.timed hC hb hw.catalogue hslash hpath
      · exact hw.records path hp hslash hpath body hold

theorem Steady.truthful (hpath : P path) :
    Truthful e catalogue (Steady e P catalogue b) (.list path) := by
  intro w hw
  have hlater := hw.lookup hC hP hb (.list path) hpath
  cases hhit : mc_lookup w ((Lookup.list path).key e) with
  | some body =>
    exact ⟨_, _, cachedRequest_hit hhit _, hw.lists path hpath body hhit, hw, rfl, rfl⟩
  | none =>
    rw [cachedRequest_miss hhit] at hlater
    exact ⟨_, _, cachedRequest_miss hhit _, Lookup.Alike.refl _ _, hlater,
      hlater.catalogue.trans hw.catalogue.symm, rfl⟩

theorem Steady.object (hw : Steady e P catalogue b w) (hpath : P path)
    (hslash : endsWithSlash path = false) (hfound : (b path).isSome) :
    ∃ payload w', sia_bus_objects_json e path w = (.ok payload, w') ∧ Timed payload ∧
      Steady e P catalogue b w' := by
  have hlater := hw.lookup hC hP hb (.object path) hpath
  cases hhit : mc_lookup w ((Lookup.object path).key e) with
  | some body =>
    exact ⟨_, _, cachedRequest_hit hhit _, hw.records path hpath hslash hfound body hhit, hw⟩
  | none =>
    rw [cachedRequest_miss hhit] at hlater
    exact ⟨_, _, cachedRequest_miss hhit _, Described.timed hC hb hw.catalogue hslash hfound, hlater⟩

theorem Steady.modtime (hw : Steady e P catalogue b w) (hpath : P path)
    (hfile : b.isFile path = true) :
    ∃ t w', sia_bus_objects_modtime e path w = (.ok (some t), w') ∧ t.length < 32 ∧
      Steady e P catalogue b w' := by
  obtain ⟨w₁, hres, hw₁, -⟩ := is_file_ends hC.toDescribed (Steady.truthful hC hP hb hpath) hw
  rw [hw.catalogue, hfile] at hres
  obtain ⟨⟨entry, hentry⟩, hslash⟩ := Catalogue.isFile_iff.mp hfile
  obtain ⟨payload, w₂, hjson, ⟨t, htime, hfits⟩, hw₂⟩ :=
    hw₁.object hC hP hb hpath hslash (by rw [hentry]; rfl)
  refine ⟨t, w₂, ?_, hfits, hw₂⟩
  rw [sia_bus_objects_modtime, Exec.bind_of_ok hres, if_pos rfl, Exec.bind_of_ok hjson, htime]
  rfl

theorem Steady.unixtime (hw : Steady e P catalogue b w) (hpath : P path)
    (hfile : b.isFile path = true) :
    ∃ mtime w', sia_bus_objects_unixtime e path w = (.ok mtime, w') ∧
      Steady e P catalogue b w' := by
  obtain ⟨_, w₁, hfirst, -, hw₁⟩ := hw.modtime hC hP hb hpath hfile
  obtain ⟨t, w₂, hsecond, hfits, hw₂⟩ := hw₁.modtime hC hP hb hpath hfile
  have hcopy : copyTimestamp (some t) = .ok t := if_pos hfits
  rw [sia_bus_objects_unixtime, Exec.bind_of_ok hfirst, Exec.bind_of_ok hsecond,
    Exec.lift_ok_bind hcopy]
  cases e.host.strptime t with
  | some tm => exact ⟨_, w₂, rfl, hw₂⟩
  | none => exact ⟨_, w₂, rfl, hw₂⟩

/-- Over a steady cache `siafs_getattr` comes to an end. -/
theorem Steady.getattr (hw : Steady e P catalogue b w) (hpath : P path) :
    ∃ stat w', siafs_getattr e path w = (.ok stat, w') ∧ Steady e P catalogue b w' := by
  have hlist : Truthful e catalogue (Steady e P catalogue b) (.list path) :=
    Steady.truthful hC hP hb hpath
  cases hfile : b.isFile path with
  | false =>
    obtain ⟨w', hres, hw', -⟩ := getattr_ends hC.toDescribed hlist
      (fun h => by rw [hw.catalogue, hfile] at h; cases h)
      (fun _ => Steady.truthful hC hP hb (hP.withSlash _ hpath)) hw
    rw [hw.catalogue] at hres
    by_cases hroot : path = [slash]
    · rw [Catalogue.getattr, if_pos hroot] at hres
      exact ⟨_, w', hres, hw'⟩
    · cases hdir : b.isDir path with
      | true =>
        obtain ⟨stat, hstat, -⟩ := Catalogue.getattr_dir (e := e) (w := w) hb hroot hfile hdir
        exact ⟨_, w', by rw [hres, hstat], hw'⟩
      | false => exact ⟨_, w', by rw [hres, Catalogue.getattr_absent hroot hfile hdir], hw'⟩
  | true =>
    rw [siafs_getattr, Exec.get_bind]
    by_cases hroot : path = [slash]
    · rw [if_pos hroot]
      exact ⟨_, w, rfl, hw⟩
    · obtain ⟨w₁, hres, hw₁, -⟩ := is_file_ends hC.toDescribed hlist hw
      rw [hw.catalogue, hfile] at hres
      obtain ⟨⟨entry, hentry⟩, hslash⟩ := Catalogue.isFile_iff.mp hfile
      obtain ⟨payload, w₂, hjson, -, hw₂⟩ :=
        hw₁.object hC hP hb hpath hslash (by rw [hentry]; rfl)
      have hsize := object_size_of_json hjson
      obtain ⟨mtime, w₃, htime, hw₃⟩ := hw₂.unixtime hC hP hb hpath hfile
      rw [if_neg hroot, Exec.bind_of_ok hres, if_pos rfl, Exec.bind_of_ok hsize,
        Exec.bind_of_ok htime]
      exact ⟨_, w₃, rfl, hw₃⟩

end Steady

end SiaFS
