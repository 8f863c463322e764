/-
The names that `siafs_readdir` passes on.

The name of an entry is stripped of a slash at its end and cut after the last
slash left in it.  The cut is made one byte on, whether a slash was found or
not.
-/
import SiaFS.Paths.Entries

namespace SiaFS

variable {σ : Type}

/-- The name without a slash at its end. -/
def withoutSlash (name : CStr) : CStr := if endsWithSlash name then name.dropLast else name

/-- The last component of a name. -/
def lastComponent (name : CStr) : CStr :=
  ((name.splitOn slash).filter (· ≠ [])).getLast?.getD []

section Components

variable {name first : CStr}

theorem withoutSlash_concat (name : CStr) : withoutSlash (name ++ [slash]) = name := by
  rw [withoutSlash, if_pos (by simp [endsWithSlash]), List.dropLast_concat]

theorem withoutSlash_cases (name : CStr) :
    name = withoutSlash name ∨ name = withoutSlash name ++ [slash] := by
  by_cases h : endsWithSlash name = true
  · obtain ⟨front, rfl⟩ := List.getLast?_eq_some_iff.mp (eq_of_beq h)
    rw [withoutSlash_concat]
    exact Or.inr rfl
  · rw [withoutSlash, if_neg h]
    exact Or.inl rfl

/-- Other bytes than slashes stay. -/
theorem mem_withoutSlash {b : UInt8} (hb : b ∈ name) (hne : b ≠ slash) : b ∈ withoutSlash name := by
  rcases withoutSlash_cases name with h | h
  · exact h ▸ hb
  · rw [h] at hb
    exact (List.mem_append.mp hb).resolve_right fun hmem => hne (List.mem_singleton.mp hmem)

theorem lastComponent_slash (name : CStr) :
    lastComponent (name ++ [slash]) = lastComponent name := by
  rw [lastComponent, List.splitOn_append_cons_self, List.splitOn_nil, List.filter_append]
  show ((_ ++ [] : List CStr).getLast?).getD [] = _
  rw [List.append_nil]
  rfl

theorem lastComponent_withoutSlash (name : CStr) :
    lastComponent (withoutSlash name) = lastComponent name := by
  rcases withoutSlash_cases name with h | h
  · rw [← h]
  · rw [← lastComponent_slash, ← h]

theorem lastComponent_plain (h : slash ∉ name) (hne : name ≠ []) : lastComponent name = name := by
  rw [lastComponent, List.splitOn_eq_singleton h, List.filter_cons_of_pos (by simpa using hne)]
  rfl

theorem lastComponent_append (dir : CStr) (h : slash ∉ first) (hne : first ≠ []) :
    lastComponent (dir ++ slash :: first) = first := by
  rw [lastComponent, List.splitOn_append_cons_self, List.splitOn_eq_singleton h,
    List.filter_append, List.filter_cons_of_pos (by simpa using hne), List.filter_nil,
    List.getLast?_concat]
  rfl

/-- A name with anything but slashes has a last component. -/
theorem lastComponent_ne_nil (h : ∃ b ∈ name, b ≠ slash) : lastComponent name ≠ [] := by
  induction hlen : name.length using Nat.strong_induction_on generalizing name with
  | _ n ih =>
    obtain ⟨b, hb, hne⟩ := h
    have hmem := mem_withoutSlash hb hne
    by_cases hslash : slash ∈ name
    · obtain ⟨dir, rest, hsplit, hrest⟩ :=
        List.eq_append_cons_of_mem (List.mem_reverse.mpr hslash)
      obtain rfl : name = rest.reverse ++ slash :: dir.reverse := by
        simpa using congrArg List.reverse hsplit
      by_cases hdir : dir.reverse = []
      · rw [hdir, lastComponent_slash]
        rw [hdir, withoutSlash_concat] at hmem
        refine ih rest.reverse.length ?_ ⟨b, hmem, hne⟩ rfl
        rw [← hlen, List.length_append, List.length_cons]
        omega
      · rw [lastComponent_append _ (by simpa using hrest) hdir]
        exact hdir
    · rw [lastComponent_plain hslash (List.ne_nil_of_mem hb)]
      exact List.ne_nil_of_mem hb

/-- The name passed on, when there is anything but slashes in it. -/
theorem entryName_eq (h : ∃ b ∈ name, b ≠ slash) : entryName name =
    .ok ((strrchr (withoutSlash name) slash).getD (withoutSlash name)).tail := by
  obtain ⟨b, hb, hne⟩ := h
  have hmem := mem_withoutSlash hb hne
  have hcons : ∃ c cs, (strrchr (withoutSlash name) slash).getD (withoutSlash name) = c :: cs := by
    rw [strrchr]
    split
    · exact ⟨_, _, rfl⟩
    · exact List.exists_cons_of_ne_nil (List.ne_nil_of_mem hmem)
  obtain ⟨c, cs, hcs⟩ := hcons
  rw [hcs]
  cases name with
  | nil => cases hb
  | cons a as =>
    simp only [withoutSlash] at hcs
    simp only [entryName]
    rw [hcs]
    rfl

/-- The cut gives the last component of a name that has a slash before it. -/
theorem cut_eq_iff (h : ∃ b ∈ name, b ≠ slash) :
    ((strrchr (withoutSlash name) slash).getD (withoutSlash name)).tail = lastComponent name ↔
      slash ∈ withoutSlash name ∧ endsWithSlash (withoutSlash name) = false := by
  obtain ⟨b, hb, hne⟩ := h
  have hmem := mem_withoutSlash hb hne
  rw [← lastComponent_withoutSlash]
  generalize withoutSlash name = s at hmem ⊢
  by_cases hslash : slash ∈ s
  · obtain ⟨last, front, hsplit, hlast⟩ := List.eq_append_cons_of_mem (List.mem_reverse.mpr hslash)
    obtain rfl : s = front.reverse ++ [slash] ++ last.reverse := by
      simpa using congrArg List.reverse hsplit
    have hnot : slash ∉ last.reverse := by simpa using hlast
    rw [strrchr_append (by simp [endsWithSlash]) hnot]
    show last.reverse = _ ↔ _
    by_cases hempty : last.reverse = []
    · have hsome := lastComponent_ne_nil ⟨b, hmem, hne⟩
      rw [hempty, List.append_nil] at hsome ⊢
      simp [endsWithSlash, hsome.symm]
    · rw [List.append_assoc, List.singleton_append, lastComponent_append _ hnot hempty,
        ← List.singleton_append, ← List.append_assoc, endsWithSlash_append hempty hnot]
      simp
  · rw [strrchr, if_neg hslash, lastComponent_plain hslash (List.ne_nil_of_mem hmem)]
    simp only [Option.getD_none, hslash, false_and, iff_false]
    intro heq
    have hlength := congrArg List.length heq
    rw [List.length_tail] at hlength
    have hpos := List.length_pos_of_mem hmem
    omega

end Components

/-- For entries whose names have anything but slashes in them, the filler is called with the
two dots and the last component of each name in order exactly when every name, a slash at
its end apart, has a slash and does not end in one. -/
theorem readdir_iff (e : Env σ) {w w₁ : World σ} {path : CStr} {payload : Option Body}
    (hentries : sia_bus_objects_json e (withSlash path) w = (.ok payload, w₁)) {names : List CStr}
    (hnames : (entryNames payload).filterMap id = names)
    (hbytes : ∀ name ∈ names, ∃ b ∈ name, b ≠ slash) :
    (siafs_readdir e path w).1 = .ok (lit "." :: lit ".." :: names.map lastComponent) ↔
      ∀ name ∈ names, slash ∈ withoutSlash name ∧ endsWithSlash (withoutSlash name) = false := by
  have hfill : fillEntries (listedEntries payload) = .ok (names.map fun name =>
      ((strrchr (withoutSlash name) slash).getD (withoutSlash name)).tail) := by
    rw [fillEntries_eq, hnames]
    exact mapM_ok fun name hname => entryName_eq (hbytes name hname)
  have hrun : (siafs_readdir e path w).1 = .ok (lit "." :: lit ".." :: names.map fun name =>
      ((strrchr (withoutSlash name) slash).getD (withoutSlash name)).tail) := by
    rw [siafs_readdir, Exec.bind_of_ok hentries, Exec.lift_ok_bind hfill]
    rfl
  rw [hrun, Except.ok.injEq, List.cons.injEq, List.cons.injEq, List.map_inj_left]
  simp only [true_and]
  exact forall_congr' fun name => forall_congr' fun hname => cut_eq_iff (hbytes name hname)

/-- A mount of a server with entries of these names in every directory. -/
def entriesMount (names : List CStr) : Env Unit :=
  mountOf .fuse3 true fun u _ => (jsonReply (.obj [(lit "entries",
    .arr (names.map fun name => objectJson name []))]), u)

theorem readdir_slashes :
    (siafs_readdir (entriesMount [lit "/d/x", lit "d/y/", lit "/z/"]) (lit "/")
      (mounted () none)).1 = .ok [lit ".", lit "..", lit "x", lit "y", lit "z"] :=
  (readdir_iff _ rfl (show _ = [lit "/d/x", lit "d/y/", lit "/z/"] from rfl)
    (by decide +kernel)).mpr (by decide +kernel)

/-- A name without a slash before its last component loses its first byte. -/
theorem first_byte_lost :
    (siafs_readdir (entriesMount [lit "/a.txt", lit "b.txt", lit "dir/"]) (lit "/")
      (mounted () none)).1 = .ok [lit ".", lit "..", lit "a.txt", lit ".txt", lit "ir"] := rfl

end SiaFS
