/-
The list of uploads and the names of staging files.

`append_upload` keeps the former last node and the new one, and drops the rest.
`Named` is the invariant behind every argument about staging files: no two slots
of the nodes in the list share a file, and a name that `tmpnam` has yet to
return belongs to no file.
-/
import SiaFS.Common.Decimal
import SiaFS.Reads

namespace SiaFS

/-! ## Finding a node -/

/-- The first node with that name. -/
def nodeNamed (uploads : List SiaUpload) (path : CStr) : Option SiaUpload :=
  uploads.find? fun u => u.name == path

theorem nodeNamed_name {uploads : List SiaUpload} {path : CStr} {u : SiaUpload}
    (h : nodeNamed uploads path = some u) : u.name = path := by
  have := List.find?_some h
  simpa using this

theorem nodeNamed_eq_none {uploads : List SiaUpload} {path : CStr} :
    nodeNamed uploads path = none ↔ path ∉ uploads.map SiaUpload.name := by
  simp [nodeNamed]

theorem nodeNamed_of_mem {uploads : List SiaUpload} {path : CStr}
    (h : path ∈ uploads.map SiaUpload.name) :
    ∃ u, nodeNamed uploads path = some u := by
  cases hu : nodeNamed uploads path with
  | none => exact absurd h (nodeNamed_eq_none.mp hu)
  | some u => exact ⟨u, rfl⟩

theorem find_upload_by_path_ok {uploads : List SiaUpload} {path : CStr} {u : SiaUpload}
    (h : nodeNamed uploads path = some u) :
    ∃ i, find_upload_by_path uploads path = .ok (some i) ∧ uploads[i]? = some u ∧
      ∀ f : SiaUpload → SiaUpload, (∀ v, (f v).name = v.name) →
        nodeNamed (uploads.modify i f) path = some (f u) := by
  obtain ⟨i, hi, hu, hf⟩ : ∃ i, uploads.findIdx? (fun u => u.name == path) = some i ∧
      uploads[i]? = some u ∧ ∀ f : SiaUpload → SiaUpload, (∀ v, (f v).name = v.name) →
        nodeNamed (uploads.modify i f) path = some (f u) := by
    induction uploads with
    | nil => simp [nodeNamed] at h
    | cons v rest ih =>
      by_cases hv : v.name = path
      · have hvu : v = u := by simpa [nodeNamed, hv] using h
        subst hvu
        refine ⟨0, by simp [List.findIdx?_cons, hv], rfl, fun f hf => ?_⟩
        simp [nodeNamed, hf, hv]
      · obtain ⟨i, hi, hu, hmod⟩ := ih (by simpa [nodeNamed, hv] using h)
        refine ⟨i + 1, by simp [List.findIdx?_cons, hv, hi], hu, fun f hf => ?_⟩
        simpa [nodeNamed, List.modify_succ_cons, hv] using hmod f hf
  refine ⟨i, ?_, hu, hf⟩
  cases uploads with
  | nil => simp at hu
  | cons v rest => rw [find_upload_by_path, hi]

/-- Without a node of that name the search returns null from the empty list and
follows a null pointer otherwise. -/
theorem find_upload_by_path_none {uploads : List SiaUpload} {path : CStr}
    (h : nodeNamed uploads path = none) :
    find_upload_by_path uploads path =
      if uploads = [] then .ok none else .error .nullPointer := by
  cases uploads with
  | nil => rfl
  | cons v rest =>
    have hi : (v :: rest).findIdx? (fun u => u.name == path) = none :=
      List.findIdx?_eq_none_iff.mpr fun x hx => by
        have := List.find?_eq_none.mp h x hx
        simpa using this
    rw [find_upload_by_path, hi, if_neg (List.cons_ne_nil _ _)]

theorem find_upload_by_path_eq_some {uploads : List SiaUpload} {path : CStr} {i : Nat}
    (h : find_upload_by_path uploads path = .ok (some i)) :
    ∃ u, nodeNamed uploads path = some u ∧ uploads[i]? = some u := by
  rcases hn : nodeNamed uploads path with _ | u
  · rw [find_upload_by_path_none hn] at h
    split at h <;> cases h
  · obtain ⟨j, hj, hu, -⟩ := find_upload_by_path_ok hn
    rw [hj] at h
    cases h
    exact ⟨u, rfl, hu⟩

theorem nodeNamed_modify_ne {uploads : List SiaUpload} {path : CStr} {i : Nat} {u : SiaUpload}
    {f : SiaUpload → SiaUpload} (hu : uploads[i]? = some u) (hne : u.name ≠ path)
    (hf : ∀ v, (f v).name = v.name) :
    nodeNamed (uploads.modify i f) path = nodeNamed uploads path := by
  induction uploads generalizing i with
  | nil => simp at hu
  | cons v rest ih =>
    cases i with
    | zero =>
      have hvu : v = u := by simpa using hu
      subst hvu
      simp [nodeNamed, hf, hne]
    | succ i =>
      have := ih (i := i) (by simpa using hu)
      simp only [nodeNamed, List.modify_succ_cons, List.find?_cons] at this ⊢
      rw [this]

theorem mem_modify {uploads : List SiaUpload} {i : Nat} {f : SiaUpload → SiaUpload}
    {u : SiaUpload} (h : u ∈ uploads.modify i f) :
    u ∈ uploads ∨ ∃ v, uploads[i]? = some v ∧ u = f v := by
  obtain ⟨j, hj⟩ := List.mem_iff_getElem?.mp h
  rw [List.getElem?_modify] at hj
  by_cases hij : i = j
  · subst hij
    obtain ⟨v, hv, rfl⟩ := Option.map_eq_some_iff.mp hj
    exact Or.inr ⟨v, hv, by simp⟩
  · obtain ⟨v, hv, rfl⟩ := Option.map_eq_some_iff.mp hj
    exact Or.inl (by simpa [hij] using List.mem_of_getElem? hv)

theorem modify_names {uploads : List SiaUpload} {i : Nat} {f : SiaUpload → SiaUpload}
    (hf : ∀ v, (f v).name = v.name) :
    (uploads.modify i f).map SiaUpload.name = uploads.map SiaUpload.name := by
  induction uploads generalizing i with
  | nil => simp
  | cons v rest ih =>
    cases i with
    | zero => simp [hf]
    | succ i => simp [List.modify_succ_cons, ih]

theorem setTmpfn_names (uploads : List SiaUpload) (i : Nat) (s : Fin SIA_MAX_PARTS) (fn : CStr) :
    (uploads.modify i (·.setTmpfn s fn)).map SiaUpload.name = uploads.map SiaUpload.name :=
  modify_names fun _ => rfl

/-- The search looks at the names alone. -/
theorem find_upload_by_path_congr {uploads uploads' : List SiaUpload}
    (h : uploads.map SiaUpload.name = uploads'.map SiaUpload.name) (path : CStr) :
    find_upload_by_path uploads path = find_upload_by_path uploads' path := by
  have hidx : uploads.findIdx? (fun u => u.name == path) =
      uploads'.findIdx? (fun u => u.name == path) := by
    have hmap : ∀ l : List SiaUpload, l.findIdx? (fun u => u.name == path) =
        (l.map SiaUpload.name).findIdx? (· == path) := by
      intro l
      rw [List.findIdx?_map]
      rfl
    rw [hmap, hmap, h]
  cases uploads with
  | nil =>
    rw [List.map_eq_nil_iff.mp h.symm]
  | cons v rest =>
    cases uploads' with
    | nil => simp at h
    | cons v' rest' => rw [find_upload_by_path, find_upload_by_path, hidx]

/-! ## Adding a node -/

/-- The list after `opt.uploads = append_upload(&opt, upload)`. -/
theorem append_upload_eq (uploads : List SiaUpload) (upload : SiaUpload) :
    append_upload uploads upload = uploads.getLast?.toList ++ [upload] := by
  induction uploads with
  | nil => rfl
  | cons v rest ih =>
    cases rest with
    | nil => rfl
    | cons v' rest => rw [append_upload, ih, List.getLast?_cons_cons]

theorem mem_append_upload {uploads : List SiaUpload} {upload u : SiaUpload}
    (h : u ∈ append_upload uploads upload) : u ∈ uploads ∨ u = upload := by
  rw [append_upload_eq] at h
  rcases List.mem_append.mp h with h | h
  · exact Or.inl (List.mem_of_getLast? (by simpa using h))
  · exact Or.inr (List.mem_singleton.mp h)

/-- The linked node is found, unless the node before it has the same name. -/
theorem nodeNamed_linked {uploads : List SiaUpload} {path : CStr} {u : SiaUpload}
    (hlast : ∀ last, uploads.getLast? = some last → last.name ≠ path) (hu : u.name = path) :
    nodeNamed (uploads.getLast?.toList ++ [u]) path = some u := by
  have hnone : uploads.getLast?.toList.find? (fun u => u.name == path) = none := by
    refine List.find?_eq_none.mpr fun x hx => ?_
    simpa using hlast x (by simpa using hx)
  rw [nodeNamed, List.find?_append, hnone]
  simp [hu]

/-- The node that `append_upload` links is the last one. -/
theorem append_upload_last (uploads : List SiaUpload) (upload : SiaUpload) :
    (append_upload uploads upload)[(append_upload uploads upload).length - 1]? =
      some upload := by
  rw [append_upload_eq]
  simp

/-! ## Staging files -/

variable {σ : Type} (e : Env σ)

/-- The file name recorded in a slot of a node. -/
def slotName (uploads : List SiaUpload) (i : Nat) (s : Fin SIA_MAX_PARTS) : Option CStr :=
  (uploads[i]?).bind fun u => (u.part s).tmpfn

theorem slotName_setTmpfn {uploads : List SiaUpload} {i : Nat} {u : SiaUpload}
    (hu : uploads[i]? = some u) (s : Fin SIA_MAX_PARTS) (fn : CStr) (j : Nat)
    (t : Fin SIA_MAX_PARTS) :
    slotName (uploads.modify i (·.setTmpfn s fn)) j t =
      if i = j ∧ s = t then some fn else slotName uploads j t := by
  rw [slotName, slotName, List.getElem?_modify]
  by_cases hij : i = j
  · subst hij
    by_cases hst : s = t
    · subst hst
      simp [hu, SiaUpload.setTmpfn]
    · simp [hu, SiaUpload.setTmpfn, hst, Function.update_of_ne (Ne.symm hst)]
  · simp [hij]

theorem slotName_setEtag (uploads : List SiaUpload) (i : Nat) (s : Fin SIA_MAX_PARTS)
    (etag : CStr) (j : Nat) (t : Fin SIA_MAX_PARTS) :
    slotName (uploads.modify i (·.setEtag s etag)) j t = slotName uploads j t := by
  rw [slotName, slotName, List.getElem?_modify]
  by_cases hij : i = j
  · subst hij
    cases uploads[i]? with
    | none => rfl
    | some u =>
      by_cases hst : s = t
      · subst hst
        simp [SiaUpload.setEtag]
      · simp [SiaUpload.setEtag, Function.update_of_ne (Ne.symm hst)]
  · simp [hij]

theorem slotName_append {uploads : List SiaUpload} {upload : SiaUpload}
    (hnew : ∀ s, (upload.part s).tmpfn = none) {j : Nat} {t : Fin SIA_MAX_PARTS} {fn : CStr}
    (h : slotName (append_upload uploads upload) j t = some fn) :
    j = 0 ∧ slotName uploads (uploads.length - 1) t = some fn := by
  rw [append_upload_eq] at h
  rcases hl : uploads.getLast? with _ | last
  · rw [hl] at h
    rcases j with _ | j
    · simp [slotName, hnew] at h
    · simp [slotName] at h
  · rw [hl] at h
    rcases j with _ | _ | j
    · refine ⟨rfl, ?_⟩
      rw [List.getLast?_eq_getElem?] at hl
      simpa [slotName, hl] using h
    · simp [slotName, hnew] at h
    · simp [slotName] at h

/-- The C library does what the program takes for granted: `tmpnam` does not
repeat a name, and writing to a temporary file succeeds. -/
structure Host.Reliable (h : Host) : Prop where
  tmpnam_injective : Function.Injective h.tmpnam
  fopen_ok : ∀ k, h.fopen k = true
  fwrite_all : ∀ k size, h.fwrite k size = size

structure Named (w : World σ) : Prop where
  recorded : ∀ i s fn, slotName w.uploads i s = some fn →
    ∃ k, k < w.names ∧ fn = stagingName e k s
  distinct : ∀ i j s t fn, slotName w.uploads i s = some fn →
    slotName w.uploads j t = some fn → i = j ∧ s = t
  unused : ∀ k s, w.names ≤ k → w.tmp (stagingName e k s) = none

section Named

variable {e} {w w' : World σ}

/-- The names recorded in the slots are as they were. -/
theorem Named.congr (hN : Named e w)
    (hslot : ∀ i s, slotName w'.uploads i s = slotName w.uploads i s)
    (hnames : w'.names = w.names) (htmp : w'.tmp = w.tmp) : Named e w' := by
  refine ⟨fun i s fn h => ?_, fun i j s t fn h h' => ?_, fun k s hk => ?_⟩
  · rw [hnames]
    exact hN.recorded i s fn (hslot i s ▸ h)
  · exact hN.distinct i j s t fn (hslot i s ▸ h) (hslot j t ▸ h')
  · rw [htmp]
    exact hN.unused k s (hnames ▸ hk)

end Named

/-- A staging name tells which call of `tmpnam` it came from. -/
theorem stagingName_inj (hI : Function.Injective e.host.tmpnam) {k k' s s' : Nat}
    (h : stagingName e k s = stagingName e k' s') : k = k' := by
  unfold stagingName at h
  rw [show lit "." = [46] from rfl, List.append_assoc, List.append_assoc, List.singleton_append,
    List.singleton_append] at h
  exact hI (append_separator_inj (not_mem_decimal (by decide) s)
    (not_mem_decimal (by decide) s') h).1

theorem stagingName_injective (hR : e.host.Reliable) {k k' s s' : Nat}
    (h : stagingName e k s = stagingName e k' s') : k = k' :=
  stagingName_inj e hR.tmpnam_injective h

section Named

variable {e} {w w' : World σ} {i : Nat} {s : Fin SIA_MAX_PARTS}

/-- A new name is recorded in a slot. -/
theorem Named.name (hR : e.host.Reliable) (hN : Named e w) (i : Nat) (s : Fin SIA_MAX_PARTS)
    (huploads : w'.uploads = w.uploads.modify i (·.setTmpfn s (stagingName e w.names s)))
    (hnames : w'.names = w.names + 1) (htmp : w'.tmp = w.tmp) : Named e w' := by
  have hunused : ∀ k t, w'.names ≤ k → w'.tmp (stagingName e k t) = none := by
    intro k t hk
    rw [htmp]
    exact hN.unused k t (by omega)
  have hnew : ∀ j t, slotName w.uploads j t ≠ some (stagingName e w.names s) := by
    intro j t h
    obtain ⟨k, hk, he⟩ := hN.recorded j t _ h
    have := stagingName_injective e hR he
    omega
  rcases hu : w.uploads[i]? with _ | u
  · have hsame : w'.uploads = w.uploads := by
      rw [huploads]
      exact List.modify_eq_self (List.getElem?_eq_none_iff.mp hu)
    refine ⟨fun j t fn h => ?_, fun j j' t t' fn h h' => ?_, hunused⟩
    · obtain ⟨k, hk, he⟩ := hN.recorded j t fn (hsame ▸ h)
      exact ⟨k, by omega, he⟩
    · exact hN.distinct j j' t t' fn (hsame ▸ h) (hsame ▸ h')
  refine ⟨fun j t fn h => ?_, fun j j' t t' fn h h' => ?_, hunused⟩
  · rw [huploads, slotName_setTmpfn hu] at h
    split at h
    · rename_i hij
      cases h
      exact ⟨w.names, by omega, hij.2 ▸ rfl⟩
    · obtain ⟨k, hk, he⟩ := hN.recorded j t fn h
      exact ⟨k, by omega, he⟩
  · rw [huploads, slotName_setTmpfn hu] at h h'
    split at h <;> split at h'
    · rename_i hj hj'
      exact ⟨hj.1.symm.trans hj'.1, hj.2.symm.trans hj'.2⟩
    · cases h
      exact absurd h' (hnew _ _)
    · cases h'
      exact absurd h (hnew _ _)
    · exact hN.distinct j j' t t' fn h h'

/-- A file whose name is recorded is written or removed. -/
theorem Named.file (hR : e.host.Reliable) (hN : Named e w) {fn : CStr}
    (hfn : slotName w.uploads i s = some fn) {v : Option Bytes} (huploads : w'.uploads = w.uploads)
    (hnames : w'.names = w.names) (htmp : w'.tmp = Function.update w.tmp fn v) : Named e w' := by
  refine ⟨fun j t fn' h => ?_, fun j j' t t' fn' h h' => ?_, fun k t hk => ?_⟩
  · rw [hnames]
    exact hN.recorded j t fn' (huploads ▸ h)
  · exact hN.distinct j j' t t' fn' (huploads ▸ h) (huploads ▸ h')
  · obtain ⟨k', hk', he⟩ := hN.recorded i s fn hfn
    rw [htmp, Function.update_of_ne]
    · exact hN.unused k t (hnames ▸ hk)
    · intro heq
      have := stagingName_injective e hR (heq.trans he)
      omega

end Named

end SiaFS
