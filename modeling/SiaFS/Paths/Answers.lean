/-
What the lookups of a path answer, by the catalogue.

Every function below asks for the listing of the path, the listing of the path
with a slash added, or the object of the path, once or several times.  As long as
these lookups are truthful its answer is a function of the catalogue.
-/
import SiaFS.Cache.Lookups

namespace SiaFS

open Json

variable {σ : Type}

/-! ## The answers -/

/-- The time of a record, as `sia_bus_objects_unixtime` reads it. -/
def statTime (e : Env σ) (modTime : CStr) : Except Fault Int := do
  let timestamp ← copyTimestamp (some modTime)
  match e.host.strptime timestamp with
  | some tm => pure (e.host.mktime tm)
  | none => pure 0

/-- A file is an object whose name has no trailing slash. -/
def Catalogue.isFile (b : Catalogue) (path : CStr) : Bool := (b path).isSome && !endsWithSlash path

def Catalogue.isDir (b : Catalogue) (path : CStr) : Bool := (b.dirTime (withSlash path)).isSome

def Catalogue.modTime (b : Catalogue) (path : CStr) : Option CStr :=
  if b.isFile path then (b path).map Entry.modTime else b.dirTime (withSlash path)

/-- The size of a record, as `sia_bus_object_size` reads it. -/
def Entry.bytes (entry : Entry) : Nat := u64 (valueint (.num entry.size))

def Catalogue.unixtime (e : Env σ) (b : Catalogue) (path : CStr) : Except Fault Int :=
  match b.modTime path with
  | some modTime => statTime e modTime
  | none => .error .nullPointer

/-- What `siafs_getattr` returns. -/
def Catalogue.getattr (e : Env σ) (w : World σ) (b : Catalogue) (path : CStr) :
    Except Fault (Except Int Stat) :=
  if path = [slash] then
    .ok (.ok { blankStat e w with
      st_ino := 1, st_mode := S_IFDIR ||| 0o755, st_nlink := 2, st_mtime := w.now })
  else if b.isFile path then
    (b.unixtime e path).map fun mtime => .ok { blankStat e w with
      st_mode := S_IFREG ||| 0o644, st_nlink := 1
      st_size := s64 (((b path).map Entry.bytes).getD 0), st_mtime := mtime }
  else if b.isDir path then
    (b.unixtime e path).map fun mtime => .ok { blankStat e w with
      st_mode := S_IFDIR ||| 0o755, st_nlink := 2, st_mtime := mtime }
  else .ok (.error ENOENT)

/-! ## Truthful lookups -/

section Answers

variable {e : Env σ} {catalogue : σ → Catalogue} {I : World σ → Prop} {w : World σ} {path : CStr}

/-- `m` ends with `r`, and what is known of the state still holds. -/
def Ends {α : Type} (catalogue : σ → Catalogue) (I : World σ → Prop) (m : Sia σ α)
    (r : Except Fault α) (w : World σ) : Prop :=
  ∃ w', m w = (r, w') ∧ I w' ∧ catalogue w'.server = catalogue w.server ∧ w'.now = w.now

theorem Ends.bind {α β : Type} {m : Sia σ α} {f : α → Sia σ β} {a : α} {r : Except Fault β}
    (hm : Ends catalogue I m (.ok a) w)
    (hf : ∀ w', I w' → catalogue w'.server = catalogue w.server → w'.now = w.now →
      Ends catalogue I (f a) r w') :
    Ends catalogue I (m >>= f) r w := by
  obtain ⟨w₁, h₁, hI₁, hc₁, hn₁⟩ := hm
  obtain ⟨w₂, h₂, hI₂, hc₂, hn₂⟩ := hf w₁ hI₁ hc₁ hn₁
  exact ⟨w₂, by rw [Exec.bind_of_ok h₁, h₂], hI₂, hc₂.trans hc₁, hn₂.trans hn₁⟩

theorem Ends.get_bind {α : Type} {f : World σ → Sia σ α} {r : Except Fault α}
    (h : Ends catalogue I (f w) r w) : Ends catalogue I (Exec.get >>= f) r w := h

theorem Ends.pure {α : Type} (hw : I w) (a : α) : Ends catalogue I (pure a) (.ok a) w :=
  ⟨w, rfl, hw, rfl, rfl⟩

/-- Wrapping up a result. -/
theorem Ends.map {α β : Type} {m : Sia σ α} {r : Except Fault α} (h : Ends catalogue I m r w)
    (f : α → β) : Ends catalogue I (m >>= fun a => Pure.pure (f a)) (r.map f) w := by
  obtain ⟨w', hm, hI⟩ := h
  cases r with
  | error x => exact ⟨w', Exec.bind_of_error hm, hI⟩
  | ok a => exact ⟨w', Exec.bind_of_ok hm, hI⟩

theorem Ends.lift {α : Type} (hw : I w) (r : Except Fault α) :
    Ends catalogue I (Exec.lift r) r w := ⟨w, rfl, hw, rfl, rfl⟩

/-- A use of the reply to a truthful lookup. -/
theorem Truthful.use {l : Lookup} (hl : Truthful e catalogue I l) {α β : Type}
    {f : Option Body → α} (hf : l.Use f) {g : α → Sia σ β} {a : α} {r : Except Fault β}
    (ha : f (l.reply e w.server) = a)
    (hg : ∀ w', I w' → catalogue w'.server = catalogue w.server → w'.now = w.now →
      Ends catalogue I (g a) r w') (hw : I w) :
    Ends catalogue I (cachedRequest e (l.key e) l.request >>= fun payload => g (f payload)) r w := by
  obtain ⟨body, w₁, hres, halike, hI, hc, hn⟩ := hl w hw
  obtain ⟨w₂, h₂, hI₂, hc₂, hn₂⟩ := hg w₁ hI hc hn
  refine ⟨w₂, ?_, hI₂, hc₂.trans hc, hn₂.trans hn⟩
  rw [Exec.bind_of_ok hres, halike α f hf, ha, h₂]

theorem Catalogue.isFile_iff {b : Catalogue} :
    b.isFile path = true ↔ (∃ entry, b path = some entry) ∧ endsWithSlash path = false := by
  rw [Catalogue.isFile, Bool.and_eq_true, Option.isSome_iff_exists, Bool.not_eq_true']

variable (hC : Described e.server catalogue)

include hC

theorem is_file_ends (hl : Truthful e catalogue I (.list path)) (hw : I w) :
    Ends catalogue I (sia_bus_objects_is_file e path)
      (.ok ((catalogue w.server).isFile path)) w :=
  hl.use (.file path) (hC.list_seen w.server path).2.1
    (fun _ hI _ _ => Ends.lift hI _) hw

theorem is_dir_ends (hl : Truthful e catalogue I (.list (withSlash path))) (hw : I w) :
    Ends catalogue I (sia_bus_objects_is_dir e path)
      (.ok ((catalogue w.server).isDir path)) w :=
  hl.use (.dir _ (endsWithSlash_withSlash path))
    (hC.list_seen w.server (withSlash path)).2.2.1
    (fun _ hI _ _ => Ends.lift hI _) hw

theorem object_size_ends (hl : Truthful e catalogue I (.object path))
    (hfile : (catalogue w.server).isFile path = true) (hw : I w) :
    Ends catalogue I (sia_bus_object_size e path)
      (.ok (((catalogue w.server path).map Entry.bytes).getD 0)) w := by
  obtain ⟨⟨entry, hentry⟩, hslash⟩ := Catalogue.isFile_iff.mp hfile
  refine hl.use (.size path hslash) ?_ (fun w' hI _ _ => ⟨w', rfl, hI, rfl, rfl⟩) hw
  have hsize := (hC.objects w.server path entry hslash hentry).1
  show (((objectField (e.server w.server (.objects path)).1.body (lit "size")).bind
    number?).map u64).getD 0 = _
  rw [hsize, hentry]
  rfl

theorem modtime_ends (hlist : Truthful e catalogue I (.list path))
    (hobject : (catalogue w.server).isFile path = true → Truthful e catalogue I (.object path))
    (hdir : (catalogue w.server).isFile path = false →
      Truthful e catalogue I (.list (withSlash path))) (hw : I w) :
    Ends catalogue I (sia_bus_objects_modtime e path) (.ok ((catalogue w.server).modTime path)) w := by
  refine (is_file_ends hC hlist hw).bind fun w₁ hw₁ hc₁ hn₁ => ?_
  rw [Catalogue.modTime]
  cases hfile : (catalogue w.server).isFile path with
  | true =>
    obtain ⟨⟨entry, hentry⟩, hslash⟩ := Catalogue.isFile_iff.mp hfile
    refine (hobject hfile).use (.modTime path hslash) ?_
      (fun w' hI _ _ => ⟨w', rfl, hI, rfl, rfl⟩) hw₁
    have htime := (hC.objects w₁.server path entry hslash (by rw [hc₁, hentry])).2
    show (objectField (e.server w₁.server (.objects path)).1.body (lit "modTime")).bind
      valuestring = _
    rw [htime, hentry]
    rfl
  | false =>
    rw [← hc₁]
    refine (is_dir_ends hC (hdir hfile) hw₁).bind fun w₂ hw₂ hc₂ hn₂ => ?_
    cases hd : (catalogue w₁.server).isDir path with
    | true =>
      refine (hdir hfile).use (.time _ (endsWithSlash_withSlash path)) ?_
        (fun w' hI _ _ => Ends.lift hI _) hw₂
      rw [← hc₂]
      exact (hC.list_seen w₂.server (withSlash path)).2.2.2
    | false =>
      have hnone : (catalogue w₁.server).dirTime (withSlash path) = none := by
        rw [← Option.not_isSome_iff_eq_none]
        exact Bool.eq_false_iff.mp hd
      rw [if_neg Bool.false_ne_true, hnone]
      exact ⟨w₂, rfl, hw₂, rfl, rfl⟩

theorem unixtime_ends (hlist : Truthful e catalogue I (.list path))
    (hobject : (catalogue w.server).isFile path = true → Truthful e catalogue I (.object path))
    (hdir : (catalogue w.server).isFile path = false →
      Truthful e catalogue I (.list (withSlash path))) (hw : I w) :
    Ends catalogue I (sia_bus_objects_unixtime e path) ((catalogue w.server).unixtime e path) w := by
  refine (modtime_ends hC hlist hobject hdir hw).bind fun w₁ hw₁ hc₁ hn₁ => ?_
  rw [← hc₁] at hobject hdir ⊢
  refine (modtime_ends hC hlist hobject hdir hw₁).bind fun w₂ hw₂ hc₂ hn₂ => ?_
  rw [Catalogue.unixtime]
  cases (catalogue w₁.server).modTime path with
  | none => exact ⟨w₂, rfl, hw₂, rfl, rfl⟩
  | some modTime =>
    show Ends catalogue I _ (copyTimestamp (some modTime) >>= _) w₂
    cases copyTimestamp (some modTime) with
    | error x => exact ⟨w₂, rfl, hw₂, rfl, rfl⟩
    | ok timestamp =>
      refine ⟨w₂, ?_, hw₂, rfl, rfl⟩
      rw [Exec.lift_ok_bind rfl]
      show _ = ((match e.host.strptime timestamp with
        | some tm => pure (e.host.mktime tm)
        | none => pure 0 : Except Fault Int), w₂)
      cases e.host.strptime timestamp <;> rfl

theorem getattr_ends (hlist : Truthful e catalogue I (.list path))
    (hobject : (catalogue w.server).isFile path = true → Truthful e catalogue I (.object path))
    (hdir : (catalogue w.server).isFile path = false →
      Truthful e catalogue I (.list (withSlash path))) (hw : I w) :
    Ends catalogue I (siafs_getattr e path) ((catalogue w.server).getattr e w path) w := by
  refine Ends.get_bind ?_
  rw [Catalogue.getattr]
  by_cases hroot : path = [slash]
  · rw [if_pos hroot, if_pos hroot]
    exact Ends.pure hw _
  rw [if_neg hroot, if_neg hroot]
  refine (is_file_ends hC hlist hw).bind fun w₁ hw₁ hc₁ hn₁ => ?_
  rw [← hc₁] at hobject hdir ⊢
  cases hfile : (catalogue w₁.server).isFile path with
  | true =>
    refine (object_size_ends hC (hobject hfile) hfile hw₁).bind fun w₂ hw₂ hc₂ hn₂ => ?_
    rw [← hc₂] at hobject hdir ⊢
    exact (unixtime_ends hC hlist hobject hdir hw₂).map _
  | false =>
    refine (is_dir_ends hC (hdir hfile) hw₁).bind fun w₂ hw₂ hc₂ hn₂ => ?_
    rw [← hc₂] at hobject hdir ⊢
    cases hd : (catalogue w₂.server).isDir path with
    | true => exact (unixtime_ends hC hlist hobject hdir hw₂).map _
    | false => exact Ends.pure hw₂ _

theorem open_ends (hlist : Truthful e catalogue I (.list path))
    (hdir : Truthful e catalogue I (.list (withSlash path)))
    (hslash : endsWithSlash path = false) (hw : I w) :
    Ends catalogue I (siafs_open e path)
      (.ok (if (catalogue w.server path).isSome then
        if (catalogue w.server).isDir path then -EISDIR else 0 else -ENOENT)) w := by
  have hexists : Ends catalogue I (sia_bus_objects_exists e path)
      (.ok (catalogue w.server path).isSome) w :=
    hlist.use (.found path hslash) (hC.list_seen w.server path).1
      (fun _ hI _ _ => Ends.lift hI _) hw
  refine hexists.bind fun w₁ hw₁ hc₁ hn₁ => ?_
  rw [← hc₁]
  cases (catalogue w₁.server path).isSome with
  | false => exact Ends.pure hw₁ _
  | true =>
    refine (is_dir_ends hC hdir hw₁).bind fun w₂ hw₂ hc₂ hn₂ => ?_
    cases (catalogue w₁.server).isDir path with
    | true => exact Ends.pure hw₂ _
    | false => exact Ends.pure hw₂ _

omit hC in
theorem readdir_ends (hentries : Truthful e catalogue I (.object (withSlash path))) (hw : I w) :
    Ends catalogue I (siafs_readdir e path)
      ((fillEntries (listedEntries ((Lookup.object (withSlash path)).reply e w.server))).map
        fun names => lit "." :: lit ".." :: names) w :=
  hentries.use (.names _ (endsWithSlash_withSlash path))
    (g := fun names => Exec.lift names >>= fun names => pure (lit "." :: lit ".." :: names))
    rfl (fun _ hI _ _ => (Ends.lift hI _).map _) hw

end Answers

end SiaFS
