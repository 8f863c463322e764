/-
The tree of names, without caches.

The kernel checks that the parent of a name is a directory before it passes an
operation on, and the program forwards the operation to the server.  The keys of
the bucket then stay a tree, with a marker for every parent, as long as no
directory is removed that still has something below it: `siafs_rmdir` deletes the
marker and nothing else, where `siafs_rename` moves everything below the
directory.  A name must not be that of a file and of a directory at the same time,
and it must arrive as it is: the URL of a delete is not escaped.
-/
import SiaFS.Agreeing
import SiaFS.Paths.Contents

namespace SiaFS

open JsonText KeyTree Percent

variable {σ : Type}

/-- A server that accepts every request to put, delete or rename. -/
structure Accepting (server : σ → Request → Reply × σ) (catalogue : σ → Catalogue)
    (contents : σ → CStr → Option Bytes) : Prop extends Stored server catalogue contents where
  times : ∀ s, (catalogue s).TimesFit
  put : ∀ s path body, contents (server s (.worker_put path body)).2 =
    Function.update (contents s) path (some body)
  delete : ∀ s path, contents (server s (.objects_delete path)).2 =
    Function.update (contents s) path none
  rename : ∀ s source target body, contents s source = some body →
    contents (server s (.objects_rename source target (lit "single"))).2 =
      Function.update (Function.update (contents s) source none) target (some body)
  rename_absent : ∀ s source target, contents s source = none →
    contents (server s (.objects_rename source target (lit "single"))).2 = contents s
  renameAll : ∀ s source target,
    contents (server s (.objects_rename source target (lit "multi"))).2 =
      moveOnto source target (contents s)

inductive TreeOp
  | mkdir (path : CStr)
  | mknod (path : CStr)
  | write (path : CStr) (buf : Bytes)
  | unlink (path : CStr)
  | rmdir (path : CStr)
  | rename (source target : CStr)

/-- The path is a name in a directory that `siafs_getattr` reports. -/
def Within (e : Env σ) (w : World σ) (path : CStr) : Prop :=
  ∃ dir c, path = withSlash dir ++ c ∧ c ≠ [] ∧ slash ∉ c ∧ ReportsDir (siafs_getattr e dir w).1

/-- Path lookup gets to the name: every directory above it is reported as one, and then the
name, a marker as the directory it stands for. -/
def LookedUp (e : Env σ) (w : World σ) (name : CStr) : Prop :=
  (∀ dir, dir = [slash] ∨ dir ≠ [] ∧ endsWithSlash dir = false → withSlash dir <+: name →
      withSlash dir ≠ name → ReportsDir (siafs_getattr e dir w).1) ∧
    (endsWithSlash name = false → ReportsFile (siafs_getattr e name w).1) ∧
    ∀ dir, endsWithSlash dir = false → name = dir ++ [slash] →
      ReportsDir (siafs_getattr e dir w).1

namespace TreeOp

def run (e : Env σ) : TreeOp → Sia σ Int
  | .mkdir path => siafs_mkdir e path
  | .mknod path => siafs_mknod e path
  | .write path buf => siafs_write e path buf 0
  | .unlink path => siafs_unlink e path
  | .rmdir path => siafs_rmdir e path
  | .rename source target => siafs_rename e source target

/-- What the kernel checks before it issues the operation. -/
def Issued (e : Env σ) : TreeOp → World σ → Prop
  | .mkdir path, w | .mknod path, w | .unlink path, w => Within e w path
  | .write path buf, w => Within e w path ∧ buf.length < e.small
  | .rmdir path, w => Within e w path ∧ ReportsDir (siafs_getattr e path w).1
  | .rename source target, w => Within e w source ∧ Within e w target

/-- The names arrive as they are. -/
def Named : TreeOp → Prop
  | .mkdir path | .mknod path | .write path _ => Clean path
  | .unlink path | .rmdir path => Clean path ∧ Plain path
  | .rename source target => Clean source ∧ Clean target

/-- A directory that is removed has nothing below it, one that is moved does not go below
itself or to where there is something, and no name is made that is there as the other kind. -/
def Spares (f : CStr → Option Bytes) : TreeOp → Prop
  | .mkdir path => f path = none
  | .mknod path | .write path _ => f (path ++ [slash]) = none
  | .unlink _ => True
  | .rmdir path => ∀ name, (f name).isSome → withSlash path <+: name → name = withSlash path
  | .rename source target =>
    if (f (withSlash source)).isSome then
      f target = none ∧ ¬ withSlash source <+: withSlash target ∧
        ∀ name, (f name).isSome → withSlash target <+: name → name = withSlash target
    else f (target ++ [slash]) = none

/-- The request the operation forwards. -/
def request (f : CStr → Option Bytes) : TreeOp → Request
  | .mkdir path => .worker_put (path ++ [slash]) []
  | .mknod path => .worker_put path []
  | .write path buf => .worker_put path buf
  | .unlink path => .objects_delete path
  | .rmdir path => .objects_delete (withSlash path)
  | .rename source target =>
    if (f (withSlash source)).isSome then
      .objects_rename (withSlash source) (withSlash target) (lit "multi")
    else .objects_rename source target (lit "single")

end TreeOp

/-! ## The bucket -/

/-- The keys are a tree in which every directory has its marker, markers are empty, and no
name is a file and a directory. -/
structure BucketTree (f : CStr → Option Bytes) : Prop where
  rooted : Rooted slash [slash] {name | (f name).isSome}
  markers : ∀ name body, f name = some body → endsWithSlash name = true → body = []
  single : ∀ path, (f path).isSome → f (path ++ [slash]) = none
  clean : ∀ name, (f name).isSome → Clean name

theorem getLast?_withSlash (path : CStr) : (withSlash path).getLast? = some slash :=
  eq_of_beq (endsWithSlash_withSlash path)

theorem clean_of_withSlash {path : CStr} (h : Clean (withSlash path)) : Clean path := by
  rw [withSlash] at h
  split at h
  · exact h
  · exact fun b hb => h b (List.mem_append_left _ hb)

theorem clean_append {a b : CStr} : Clean (a ++ b) ↔ Clean a ∧ Clean b :=
  List.forall_mem_append

section Bucket

variable {f : CStr → Option Bytes} {path dir : CStr}

theorem bucketTree_empty : BucketTree fun _ => none where
  rooted _ h := nomatch h
  markers _ _ h := nomatch h
  single _ h := nomatch h
  clean _ h := nomatch h

variable (hT : BucketTree f)

include hT

/-- An object put below a directory that is there. -/
theorem BucketTree.put {body : Bytes} (hdir : IsParent slash dir path)
    (hmem : dir = [slash] ∨ (f dir).isSome) (hclean : Clean path)
    (hmark : endsWithSlash path = true → body = []) (hbelow : f (path ++ [slash]) = none)
    (habove : ∀ p, path = p ++ [slash] → f p = none) :
    BucketTree (Function.update f path (some body)) where
  rooted := by
    have hnames : {name | (Function.update f path (some body) name).isSome} =
        insert path {name | (f name).isSome} := by
      ext name
      by_cases h : name = path
      · simp [h]
      · simp [h]
    rw [hnames]
    exact hT.rooted.insert hdir hmem
  markers name b hb hends := by
    by_cases h : name = path
    · subst h
      rw [Function.update_self] at hb
      exact Option.some.inj hb ▸ hmark hends
    · rw [Function.update_of_ne h] at hb
      exact hT.markers name b hb hends
  single p hp := by
    by_cases hput : p ++ [slash] = path
    · have hne : p ≠ path := fun h => by simp [h] at hput
      rw [Function.update_of_ne hne, habove p hput.symm] at hp
      cases hp
    rw [Function.update_of_ne hput]
    by_cases h : p = path
    · rw [h, hbelow]
    · rw [Function.update_of_ne h] at hp
      exact hT.single p hp
  clean name h := by
    by_cases hname : name = path
    · exact hname ▸ hclean
    · rw [Function.update_of_ne hname] at h
      exact hT.clean name h

/-- An object removed that has nothing below it. -/
theorem BucketTree.remove (hkey : ∀ k, (f k).isSome → ¬ IsParent slash path k) :
    BucketTree (Function.update f path none) := by
  have hleft : ∀ name body, Function.update f path none name = some body →
      name ≠ path ∧ f name = some body := by
    intro name body h
    by_cases hname : name = path
    · rw [hname, Function.update_self] at h
      cases h
    · rw [Function.update_of_ne hname] at h
      exact ⟨hname, h⟩
  have hkept : ∀ name, (Function.update f path none name).isSome → (f name).isSome := by
    intro name h
    obtain ⟨body, hbody⟩ := Option.isSome_iff_exists.mp h
    exact Option.isSome_of_eq_some (hleft name body hbody).2
  refine ⟨?_, fun name body h => hT.markers name body (hleft name body h).2, fun p hp => ?_,
    fun name h => hT.clean name (hkept name h)⟩
  · have hnames : {name | (Function.update f path none name).isSome} =
        {name | (f name).isSome} \ {path} := by
      ext name
      by_cases h : name = path
      · simp [h]
      · simp [h]
    rw [hnames]
    exact hT.rooted.remove hkey
  · rw [Option.eq_none_iff_forall_ne_some]
    intro body h
    have hnone := hT.single p (hkept p hp)
    rw [(hleft _ body h).2] at hnone
    cases hnone

/-- A directory moved with everything below it, to a name with nothing below it. -/
theorem BucketTree.move {source target : CStr} (hsource : source.getLast? = some slash)
    (hmarker : (f source).isSome) (hroot : ¬ source <+: [slash])
    (hdir : IsParent slash dir (target ++ [slash])) (hmem : dir = [slash] ∨ (f dir).isSome)
    (hself : ¬ source <+: target ++ [slash]) (hclean : Clean (target ++ [slash]))
    (hfile : f target = none)
    (hfree : ∀ name, (f name).isSome → target ++ [slash] <+: name → name = target ++ [slash]) :
    BucketTree (moveOnto source (target ++ [slash]) f) := by
  have hlast : (target ++ [slash]).getLast? = some slash := by simp
  refine ⟨?_, fun name body h hends => ?_, fun p hp => ?_, fun name h => ?_⟩
  · have hnames : {name | (moveOnto source (target ++ [slash]) f name).isSome} =
        moveBelow source (target ++ [slash]) {name | (f name).isSome} :=
      Set.ext fun _ => moveOnto_isSome
    rw [hnames]
    exact hT.rooted.moveBelow hsource hlast hroot hdir hmem fun h => absurd h hself
  · rcases moveOnto_eq_some h with ⟨rest, rfl, hrest⟩ | ⟨hname, -⟩
    · have hsame : (source ++ rest).getLast? = (target ++ [slash] ++ rest).getLast? := by
        rw [List.getLast?_append, List.getLast?_append, hsource, hlast]
      refine hT.markers _ body hrest ?_
      rw [endsWithSlash, hsame]
      exact hends
    · exact hT.markers name body hname hends
  · rw [Option.eq_none_iff_forall_ne_some]
    intro body h
    have hnot : ∀ q, (f q).isSome → (f (q ++ [slash])).isSome → False := by
      intro q hq hq'
      rw [hT.single q hq] at hq'
      cases hq'
    obtain ⟨body', hbody'⟩ := Option.isSome_iff_exists.mp hp
    -- the file and the directory were moved, or stood at the target
    rcases moveOnto_eq_some hbody' with ⟨r, rfl, hr⟩ | ⟨hfp, -⟩ <;>
      rcases moveOnto_eq_some h with ⟨r', heq, hr'⟩ | ⟨hfp', -⟩
    · rw [List.append_assoc, List.append_cancel_left_eq] at heq
      subst heq
      rw [← List.append_assoc] at hr'
      exact hnot _ (Option.isSome_of_eq_some hr) (Option.isSome_of_eq_some hr')
    · have hat := hfree _ (Option.isSome_of_eq_some hfp')
        ((List.prefix_append _ r).trans (List.prefix_append _ _))
      simp at hat
    · rcases List.eq_nil_or_concat r' with rfl | ⟨r'', c, rfl⟩
      · rw [List.append_nil, List.append_cancel_right_eq] at heq
        rw [heq, hfile] at hfp
        cases hfp
      · rw [List.concat_eq_append, ← List.append_assoc] at heq
        obtain ⟨rfl, hc⟩ := List.append_inj' heq rfl
        have hat := hfree _ (Option.isSome_of_eq_some hfp) (List.prefix_append _ r'')
        obtain rfl : r'' = [] := List.append_right_eq_self.mp hat
        obtain rfl : slash = c := by simpa using hc
        exact hnot source hmarker (Option.isSome_of_eq_some hr')
    · exact hnot p (Option.isSome_of_eq_some hfp) (Option.isSome_of_eq_some hfp')
  · obtain ⟨body, hbody⟩ := Option.isSome_iff_exists.mp h
    rcases moveOnto_eq_some hbody with ⟨rest, rfl, hrest⟩ | ⟨hname, -⟩
    · exact clean_append.mpr
        ⟨hclean, (clean_append.mp (hT.clean _ (Option.isSome_of_eq_some hrest))).2⟩
    · exact hT.clean name (Option.isSome_of_eq_some hname)

end Bucket

/-! ## One operation -/

section Step

variable {e : Env σ} {catalogue : σ → Catalogue} {contents : σ → CStr → Option Bytes} {w : World σ}
  {path : CStr}

theorem Catalogue.dir_of_reportsDir {b : Catalogue} (h : ReportsDir (b.getattr e w path)) :
    path = [slash] ∨ b.isDir path = true := by
  rw [Catalogue.getattr] at h
  split at h
  · rename_i hroot
    exact Or.inl hroot
  · split at h
    · obtain ⟨stat, hstat, hmode⟩ := h
      cases hu : b.unixtime e path with
      | error x =>
        rw [hu] at hstat
        cases hstat
      | ok mtime =>
        rw [hu] at hstat
        cases hstat
        exact absurd ((file_mode rfl).symm.trans hmode) reg_ne_dir
    · split at h
      · rename_i hd
        exact Or.inr hd
      · obtain ⟨stat, hstat, -⟩ := h
        cases hstat

variable (hA : Accepting e.server catalogue contents)

include hA

omit hA in
/-- What a rename does to a bucket with nothing at the new name. -/
theorem Accepting.renames {server : σ → Request → Reply × σ}
    (hA : Accepting server catalogue contents) : Renames server catalogue contents where
  toStored := hA.toStored
  single s source target body _ _ hbody _ := hA.rename s source target body hbody
  multi s source target _ _ hfree := by
    rw [hA.renameAll]
    exact moveOnto_vacant hfree

/-- The parent of a name that the kernel passes on is there. -/
theorem Within.parent (hw : w.L1 = none) (h : Within e w path) :
    endsWithSlash path = false ∧ ∃ dir, IsParent slash dir path ∧
      IsParent slash dir (path ++ [slash]) ∧
      (dir = [slash] ∨ (contents w.server dir).isSome) := by
  obtain ⟨d, c, rfl, hc, hsep, hdir⟩ := h
  have hends : endsWithSlash (withSlash d ++ c) = false := by
    rw [endsWithSlash, List.getLast?_append_of_ne_nil _ hc, beq_eq_false_iff_ne]
    exact fun hlast => hsep (List.mem_of_getLast? hlast)
  refine ⟨hends, withSlash d, ⟨getLast?_withSlash d, c, hc, hsep, Or.inl rfl⟩,
    ⟨getLast?_withSlash d, c, hc, hsep, Or.inr rfl⟩, ?_⟩
  rw [getattr_off hA.toDescribed hw] at hdir
  rcases Catalogue.dir_of_reportsDir hdir with rfl | hd
  · exact Or.inl rfl
  · rw [← hA.isSome_iff]
    exact Or.inr (Catalogue.isSome_of_dirTime hd)

/-- In a tree the scan for a directory finds its marker. -/
theorem BucketTree.isDir (hT : BucketTree (contents w.server)) (path : CStr) :
    (catalogue w.server).isDir path = (contents w.server (withSlash path)).isSome := by
  have hempty : (catalogue w.server).isDir path = true ↔
      (catalogue w.server).Empty (withSlash path) := Catalogue.dirTime_isSome
  rw [Bool.eq_iff_iff, hempty, hA.empty_iff, Option.isSome_iff_exists]
  constructor
  · exact fun h => ⟨[], h⟩
  · rintro ⟨body, hbody⟩
    rw [hbody, hT.markers _ body hbody (endsWithSlash_withSlash path)]

theorem TreeOp.sends {op : TreeOp} (hw : w.L1 = none) (hT : BucketTree (contents w.server))
    (hop : op.Issued e w) :
    ∃ s, contents s = contents w.server ∧
      (op.run e w).2.server = (e.server s (op.request (contents w.server))).2 ∧
      (op.run e w).2.L1 = none := by
  cases op with
  | mkdir path =>
    refine ⟨w.server, rfl, ?_⟩
    rw [TreeOp.run, siafs_mkdir, if_neg (by simp [(Within.parent hA hw hop).1])]
    exact ⟨rfl, hw⟩
  | mknod path =>
    refine ⟨w.server, rfl, rfl, ?_⟩
    show (w.L1.map _).map _ = none
    rw [hw]
    rfl
  | write path buf =>
    refine ⟨w.server, rfl, ?_⟩
    rw [TreeOp.run, siafs_write, if_pos ⟨rfl, hop.2⟩]
    exact ⟨rfl, hw⟩
  | unlink path => exact ⟨w.server, rfl, rfl, hw⟩
  | rmdir path => exact ⟨w.server, rfl, rfl, hw⟩
  | rename source target =>
    have htrue := hA.truthful (e := e) (contents w.server) (.list (withSlash source))
    obtain ⟨w', hres, ⟨hoff, hkeeps⟩, -⟩ := is_dir_ends hA.toDescribed htrue ⟨hw, rfl⟩
    refine ⟨w'.server, hkeeps, ?_⟩
    rw [TreeOp.run, siafs_rename, Exec.bind_of_ok hres, TreeOp.request, ← hT.isDir hA]
    cases (catalogue w.server).isDir source with
    | true => exact ⟨rfl, hoff⟩
    | false => exact ⟨rfl, hoff⟩

theorem TreeOp.keeps {op : TreeOp} (hw : w.L1 = none) (hop : op.Issued e w) (hnamed : op.Named)
    (hspares : op.Spares (contents w.server)) (hT : BucketTree (contents w.server)) :
    BucketTree (contents (op.run e w).2.server) := by
  obtain ⟨s, hs, hserver, -⟩ := TreeOp.sends hA hw hT hop
  rw [hserver]
  rw [← hs] at hT hspares ⊢
  have hleaf : ∀ {p : CStr}, endsWithSlash p = false → ∀ q, p ≠ q ++ [slash] := by
    rintro p hp q rfl
    simp [endsWithSlash] at hp
  cases op with
  | mkdir path =>
    obtain ⟨hends, dir, -, hdir, hmem⟩ := Within.parent hA hw hop
    rw [TreeOp.request, hA.put]
    refine hT.put hdir (hs ▸ hmem) (clean_append_slash hnamed) (fun _ => rfl) ?_ fun p hp => ?_
    · rw [← Option.not_isSome_iff_eq_none]
      exact hT.rooted.not_double path
    · obtain rfl : path = p := List.append_cancel_right hp
      exact hspares
  | mknod path =>
    obtain ⟨hends, dir, hdir, -, hmem⟩ := Within.parent hA hw hop
    rw [TreeOp.request, hA.put]
    exact hT.put hdir (hs ▸ hmem) hnamed (fun h => absurd (hends ▸ h) Bool.false_ne_true) hspares
      fun p hp => absurd hp (hleaf hends p)
  | write path buf =>
    obtain ⟨hends, dir, hdir, -, hmem⟩ := Within.parent hA hw hop.1
    rw [TreeOp.request, hA.put]
    exact hT.put hdir (hs ▸ hmem) hnamed (fun h => absurd (hends ▸ h) Bool.false_ne_true) hspares
      fun p hp => absurd hp (hleaf hends p)
  | unlink path =>
    have hends := (Within.parent hA hw hop).1
    rw [TreeOp.request, hA.delete]
    exact hT.remove fun k _ => not_isParent_of_leaf (beq_eq_false_iff_ne.mp hends) k
  | rmdir path =>
    rw [TreeOp.request, hA.delete]
    refine hT.remove fun k hk hp => ?_
    exact hp.ne (hspares k hk hp.begins).symm
  | rename source target =>
    obtain ⟨hsource, top, habove, -, -⟩ := Within.parent hA hw hop.1
    obtain ⟨htarget, dir, hdir, hmark, hmem⟩ := Within.parent hA hw hop.2
    rw [← hs] at hmem
    rw [TreeOp.Spares] at hspares
    rw [TreeOp.request]
    split at hspares
    · rename_i hmarker
      obtain ⟨hfile, hself, hfree⟩ := hspares
      rw [if_pos hmarker, hA.renameAll]
      rw [withSlash_of_not_slash htarget] at hself hfree ⊢
      refine hT.move (getLast?_withSlash source) hmarker ?_ hmark hmem hself
        (clean_append_slash hnamed.2) hfile hfree
      intro hpre
      rw [withSlash_of_not_slash hsource] at hpre
      have hnil : source = [] := List.length_eq_zero_iff.mp (by simpa using hpre.length_le)
      rw [hnil] at habove
      have htop := habove.1
      rw [List.prefix_nil.mp habove.begins] at htop
      cases htop
    · rename_i hmarker
      rw [if_neg hmarker]
      cases hobj : contents s source with
      | none =>
        rw [hA.rename_absent s source target hobj]
        exact hT
      | some body =>
        rw [hA.rename s source target body hobj]
        have hrest := hT.remove fun k _ =>
          not_isParent_of_leaf (beq_eq_false_iff_ne.mp hsource) k
        refine hrest.put hdir (hmem.imp_right fun h => ?_) hnamed.2
          (fun h => absurd (htarget ▸ h) Bool.false_ne_true) ?_ fun p hp => absurd hp (hleaf htarget p)
        · rw [Function.update_of_ne]
          · exact h
          · rintro rfl
            exact beq_eq_false_iff_ne.mp hsource hdir.1
        · by_cases heq : target ++ [slash] = source
          · rw [heq, Function.update_self]
          · rw [Function.update_of_ne heq]
            exact hspares

end Step

/-! ## Names that arrive as they are -/

section Sent

variable {e : Env σ} {server : σ → Request → Reply × σ} {w : World σ} {path : CStr}
  (he : e.server = receiving e.bucket server) (hbucket : Clean e.bucket)

include he hbucket

theorem within_over (h : Clean path) : Within (e.over server) w path ↔ Within e w path := by
  have hsame : ∀ dir c, path = withSlash dir ++ c →
      siafs_getattr (e.over server) dir = siafs_getattr e dir := by
    rintro dir c rfl
    exact (agreesOn_clean he hbucket (clean_of_withSlash (clean_append.mp h).1)).getattr
  constructor <;>
    · rintro ⟨dir, c, heq, hc, hsep, hdir⟩
      refine ⟨dir, c, heq, hc, hsep, ?_⟩
      have hgetattr := hsame dir c heq
      simp_all

theorem TreeOp.issued_over {op : TreeOp} (hnamed : op.Named) :
    op.Issued (e.over server) w ↔ op.Issued e w := by
  cases op with
  | mkdir path => exact within_over he hbucket hnamed
  | mknod path => exact within_over he hbucket hnamed
  | write path buf => exact and_congr_left fun _ => within_over he hbucket hnamed
  | unlink path => exact within_over he hbucket hnamed.1
  | rmdir path =>
    refine and_congr (within_over he hbucket hnamed.1) ?_
    rw [(agreesOn_clean he hbucket hnamed.1).getattr]
  | rename source target =>
    exact and_congr (within_over he hbucket hnamed.1) (within_over he hbucket hnamed.2)

theorem TreeOp.run_over {op : TreeOp} (hnamed : op.Named) (hop : op.Issued e w) :
    op.run (e.over server) w = op.run e w := by
  cases op with
  | mkdir path => exact congrFun (mkdir_over (agrees_received he rfl)) w
  | mknod path => exact congrFun (mknod_over (agrees_received he rfl)) w
  | write path buf =>
    rw [TreeOp.run, siafs_write, if_pos (show 0 = 0 ∧ buf.length < (e.over server).small from
      ⟨rfl, hop.2⟩), put_object_over (agrees_received he rfl), TreeOp.run, siafs_write,
      if_pos ⟨rfl, hop.2⟩]
  | unlink path =>
    rw [TreeOp.run, siafs_unlink, del_object_over (agrees_received he (received_delete hnamed.2)),
      TreeOp.run, siafs_unlink]
  | rmdir path =>
    rw [TreeOp.run, siafs_rmdir, del_object_over (agrees_received he
      (received_delete (plain_withSlash hnamed.2))), TreeOp.run, siafs_rmdir]
  | rename source target => exact congrFun (rename_clean he hbucket hnamed.1 hnamed.2) w

/-- A run that is issued over the server that is told the names is issued over the one that
is sent them. -/
theorem along_over {contents : σ → CStr → Option Bytes} {ops : List TreeOp}
    (h : Exec.Along (fun op w => TreeOp.Issued (e.over server) op w ∧ TreeOp.Named op ∧
      TreeOp.Spares (contents w.server) op) (TreeOp.run (e.over server)) ops w) :
    Exec.Along (fun op w => TreeOp.Issued e op w ∧ TreeOp.Named op ∧
      TreeOp.Spares (contents w.server) op) (TreeOp.run e) ops w := by
  induction ops generalizing w with
  | nil => exact h
  | cons op ops ih =>
    obtain ⟨⟨hop, hnamed, hspares⟩, hrest⟩ := h
    have hop' := (TreeOp.issued_over he hbucket hnamed).mp hop
    refine ⟨⟨hop', hnamed, hspares⟩, fun a w₁ h₁ => ih (hrest a w₁ ?_)⟩
    rwa [TreeOp.run_over he hbucket hnamed hop']

end Sent

/-! ## Path lookup -/

/-- In a tree, path lookup gets to every object. -/
theorem BucketTree.lookedUp {e : Env σ} {catalogue : σ → Catalogue}
    {contents : σ → CStr → Option Bytes} (hA : Accepting e.server catalogue contents) {w : World σ}
    (hw : w.L1 = none) (hT : BucketTree (contents w.server)) {name : CStr}
    (hname : (contents w.server name).isSome) : LookedUp e w name := by
  have hmarked : ∀ dir, endsWithSlash dir = false → dir ≠ [] →
      (contents w.server (dir ++ [slash])).isSome → ReportsDir (siafs_getattr e dir w).1 := by
    intro dir hends hne hmark
    have hroot : dir ≠ [slash] := by
      rintro rfl
      cases hends
    obtain ⟨-, hdir, -⟩ :=
      getattr_kinds hA.toDescribed (hA.times w.server) hroot hends hw
    rw [hdir, hA.empty_iff, ← Option.not_isSome_iff_eq_none, hA.isSome_iff]
    refine ⟨fun h => ?_, ?_⟩
    · rw [hT.single dir h] at hmark
      cases hmark
    · obtain ⟨body, hbody⟩ := Option.isSome_iff_exists.mp hmark
      rw [hbody, hT.markers _ body hbody (by simp [endsWithSlash])]
  have hnil : ∀ dir, dir ++ [slash] ∈ {name | (contents w.server name).isSome} → dir ≠ [] := by
    rintro dir h rfl
    obtain ⟨d, ⟨hlast, c, hc, -, heq⟩, -⟩ := hT.rooted _ h
    obtain ⟨d, rfl⟩ := List.getLast?_eq_some_iff.mp hlast
    have hlen : 0 < c.length := List.length_pos_iff.mpr hc
    rcases heq with heq | heq <;>
      · have := congrArg List.length heq
        simp at this
        omega
  refine ⟨?_, fun hends => ?_, fun dir hends hdir => ?_⟩
  · rintro dir (rfl | ⟨hne, hends⟩) hpre hproper
    · rw [siafs_getattr, Exec.get_bind, if_pos rfl]
      exact ⟨_, rfl, dir_mode rfl⟩
    · rw [withSlash_of_not_slash hends] at hpre hproper
      refine hmarked dir hends hne ?_
      refine (hT.rooted.ancestors hname (by simp) hpre hproper).resolve_left fun hroot => ?_
      have hlen := hroot.length_le
      simp at hlen
      exact hne hlen
  · have hroot : name ≠ [slash] := by
      rintro rfl
      cases hends
    obtain ⟨hfile, -⟩ := getattr_kinds hA.toDescribed (hA.times w.server) hroot hends hw
    rw [hfile, hA.isSome_iff]
    exact hname
  · subst hdir
    exact hmarked dir hends (hnil dir hname) hname

/-! ## Runs -/

/-- In every run from an empty bucket whose steps remove no directory with something
below it, move none below itself or onto something, make no name that is there as the
other kind and use names that arrive as they are, the parent of every object is the root
or has its marker, and path lookup gets to every object. -/
theorem parents_marked {e : Env σ} {catalogue : σ → Catalogue}
    {contents : σ → CStr → Option Bytes} {server : σ → Request → Reply × σ}
    (he : e.server = receiving e.bucket server) (hbucket : Clean e.bucket)
    (hA : Accepting server catalogue contents) {ops : List TreeOp} {w : World σ} (hw : w.L1 = none)
    (hempty : contents w.server = fun _ => none)
    (hrun : Exec.Along (fun op w => TreeOp.Issued e op w ∧ TreeOp.Named op ∧
      TreeOp.Spares (contents w.server) op) (TreeOp.run e) ops w) :
    Rooted slash [slash]
        {name | (contents (Exec.runAll (TreeOp.run e) ops w).2.server name).isSome} ∧
      ∀ name, (contents (Exec.runAll (TreeOp.run e) ops w).2.server name).isSome →
        LookedUp e (Exec.runAll (TreeOp.run e) ops w).2 name := by
  have hA' : Accepting (e.over server).server catalogue contents := hA
  obtain ⟨hoff, hT⟩ := Exec.runAll_along
    (I := fun w => w.L1 = none ∧ BucketTree (contents w.server))
    (fun op w ⟨hop, hnamed, hspares⟩ ⟨hw, hT⟩ => by
      have hover := (TreeOp.issued_over he hbucket hnamed).mpr hop
      rw [← TreeOp.run_over he hbucket hnamed hop]
      obtain ⟨s, -, -, hoff⟩ := TreeOp.sends hA' hw hT hover
      exact ⟨hoff, TreeOp.keeps hA' hw hover hnamed hspares hT⟩)
    ops hrun ⟨hw, hempty ▸ bucketTree_empty⟩
  refine ⟨hT.rooted, fun name hname => ?_⟩
  obtain ⟨habove, hfile, hdir⟩ := hT.lookedUp hA' hoff hname
  have hclean := hT.clean name hname
  refine ⟨fun dir hdir' hpre hne => ?_, fun hends => ?_, fun dir hends heq => ?_⟩
  · have hover := habove dir hdir' hpre hne
    obtain ⟨rest, rfl⟩ := hpre
    rwa [(agreesOn_clean he hbucket (clean_of_withSlash (clean_append.mp hclean).1)).getattr]
      at hover
  · have hover := hfile hends
    rwa [(agreesOn_clean he hbucket hclean).getattr] at hover
  · have hover := hdir dir hends heq
    subst heq
    rwa [(agreesOn_clean he hbucket (clean_append.mp hclean).1).getattr] at hover

/-! ## The server that accepts -/

theorem renterd_accepting (refuse : Nat → Bool) :
    Accepting (renterd refuse) Store.catalogue Store.data where
  toStored := renterd_stored refuse
  times := Store.timesFit
  put _ _ _ := rfl
  delete _ _ := rfl
  rename s source target body h := by
    rw [renterd, if_neg (by decide), h]
    rfl
  rename_absent s source target h := by rw [renterd, if_neg (by decide), h]
  renameAll s source target := by
    rw [renterd, if_pos rfl]
    funext name
    show (s.moved source target name).or (if source.isPrefixOf name then none else s.data name) =
      moveOnto source target s.data name
    simp only [Store.moved, moveOnto, List.isPrefixOf_iff_prefix]

theorem within_root {w : World Store} {c : CStr} (hc : c ≠ []) (h : slash ∉ c) :
    Within hugeMount w ([slash] ++ c) := by
  refine ⟨[slash], c, rfl, hc, h, ?_⟩
  rw [siafs_getattr, Exec.get_bind, if_pos rfl]
  exact ⟨_, rfl, dir_mode rfl⟩

theorem clean_names : ∀ path ∈ [lit "/d", lit "/d/x", lit "/e"], Clean path := by
  unfold Clean
  decide +kernel

theorem rename_spares :
    TreeOp.Spares ((Store.blank.put (lit "/d/") []).put (lit "/d/x") []).data
      (.rename (lit "/d") (lit "/e")) := by
  rw [TreeOp.Spares, if_pos (by decide)]
  refine ⟨by decide, by decide, fun name hname hpre => ?_⟩
  obtain ⟨body, hbody⟩ := Option.isSome_iff_exists.mp hname
  have hmem : name ∈ [lit "/d/x", lit "/d/"] := 
    ((Store.blank.put (lit "/d/") []).put (lit "/d/x") []).named name (by simp [hbody])
  simp only [List.mem_cons, List.not_mem_nil, or_false] at hmem
  rcases hmem with rfl | rfl
  · exact absurd hpre (by decide)
  · exact absurd hpre (by decide)

/-- A directory is made, a file in it, and the directory moved. -/
theorem mkdir_rename_spares :
    Exec.Along (fun op w => TreeOp.Issued hugeMount op w ∧ TreeOp.Named op ∧
        TreeOp.Spares w.server.data op)
      (TreeOp.run hugeMount) [.mkdir (lit "/d"), .mknod (lit "/d/x"), .rename (lit "/d") (lit "/e")]
      (mounted Store.blank none) := by
  refine ⟨⟨within_root (c := lit "d") (by decide) (by decide), clean_names _ (by decide), rfl⟩,
    fun a w₁ h₁ => ?_⟩
  cases h₁
  refine ⟨⟨⟨lit "/d", lit "x", by decide, by decide, by decide, _, rfl, by decide⟩,
    clean_names _ (by decide), rfl⟩, fun a w₂ h₂ => ?_⟩
  cases h₂
  refine ⟨⟨⟨within_root (c := lit "d") (by decide) (by decide),
    within_root (c := lit "e") (by decide) (by decide)⟩,
    ⟨clean_names _ (by decide), clean_names _ (by decide)⟩, ?_⟩, fun _ _ _ => trivial⟩
  exact rename_spares

theorem parents_marked_rename :
    let w' := (Exec.runAll (TreeOp.run receivingMount)
      [.mkdir (lit "/d"), .mknod (lit "/d/x"), .rename (lit "/d") (lit "/e")]
      (mounted Store.blank none)).2
    Rooted slash [slash] {name | (w'.server.data name).isSome} ∧
      ∀ name, (w'.server.data name).isSome → LookedUp receivingMount w' name :=
  parents_marked receivingMount_server clean_default (renterd_accepting _) rfl rfl
    (along_over receivingMount_server clean_default mkdir_rename_spares)

/-- A directory is removed that has a file in it; the file stays, without a marker
for its parent. -/
theorem orphan_left :
    Exec.Along (TreeOp.Issued hugeMount) (TreeOp.run hugeMount)
        [.mkdir (lit "/d"), .mknod (lit "/d/x"), .rmdir (lit "/d")] (mounted Store.blank none) ∧
      ∃ w', Exec.runAll (TreeOp.run hugeMount)
          [.mkdir (lit "/d"), .mknod (lit "/d/x"), .rmdir (lit "/d")]
          (mounted Store.blank none) = (.ok [0, 0, 0], w') ∧
        (w'.server.catalogue (lit "/d/x")).isSome ∧ w'.server.catalogue (lit "/d/") = none ∧
        IsParent slash (lit "/d/") (lit "/d/x") := by
  refine ⟨⟨within_root (c := lit "d") (by decide) (by decide), fun a w₁ h₁ => ?_⟩, _, rfl, rfl, rfl,
    rfl, lit "x", by decide, by decide, Or.inl rfl⟩
  cases h₁
  refine ⟨⟨lit "/d", lit "x", by decide, by decide, by decide, _, rfl, by decide⟩,
    fun a w₂ h₂ => ?_⟩
  cases h₂
  exact ⟨⟨within_root (c := lit "d") (by decide) (by decide), _, rfl, by decide⟩,
    fun _ _ _ => trivial⟩

end SiaFS
