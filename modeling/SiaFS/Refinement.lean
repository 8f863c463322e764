/-
The mount as a store of files.

`fileMachine` says what the operations of a mount without caches come to when they are
issued one at a time: a flat store of objects, in which an empty object with a slash at the
end of its name is a directory.  A file is made by one small write or by writing it in
order and releasing it, when its last block is short or its last part full.  The program
refines the machine over every server that does what is documented of it with the requests
as it reads them, so a run of any length with names that arrive as they are answers as the
store does.
-/
import SiaFS.Lib.FlatStore
import SiaFS.Lib.Machine
import SiaFS.Cache.Mounts
import SiaFS.Cache.Reading
import SiaFS.Paths.Entries
import SiaFS.Paths.Tree
import SiaFS.Upload.Whole

namespace SiaFS

open FlatStore JsonText Percent

variable {σ : Type}

/-! ## The machine -/

inductive FileOp
  | getattr (path : CStr)
  | readdir (path : CStr)
  | open (path : CStr)
  | read (path : CStr) (size offset : Nat)
  | mkdir (path : CStr)
  | mknod (path : CStr)
  /-- A file that fits into one small write. -/
  | write (path : CStr) (buf : Bytes)
  /-- A file written in order, block by block, and released. -/
  | upload (path : CStr) (content : Bytes)
  | unlink (path : CStr)
  | rmdir (path : CStr)
  | rename (source target : CStr)

structure Files where
  objects : Objects UInt8 UInt8
  /-- The file uploaded last, whose node stays in the list. -/
  last : Option CStr

/-- The file information of a path of that kind.  The sizes in replies are read as `int`. -/
def Reports (k : Kind) (r : Except Int Stat) : Prop :=
  match k with
  | .file length => ∃ stat, r = .ok stat ∧ stat.st_mode &&& S_IFMT = S_IFREG ∧
      stat.st_size = min (length : Int) (2 ^ 31 - 1)
  | .directory => ∃ stat, r = .ok stat ∧ stat.st_mode &&& S_IFMT = S_IFDIR
  | .missing => r = .error ENOENT

namespace FileOp

/-- The operations that the kernel issues. -/
def ops (e : Env σ) : FileOp → List Op
  | .getattr path => [.getattr path]
  | .readdir path => [.readdir path]
  | .open path => [.open path]
  | .read path size offset => [.read path size offset]
  | .mkdir path => [.mkdir path]
  | .mknod path => [.mknod path]
  | .write path buf => [.write path buf 0]
  | .upload path content => uploadRun e path content
  | .unlink path => [.unlink path]
  | .rmdir path => [.rmdir path]
  | .rename source target => [.rename source target]

def run (e : Env σ) (op : FileOp) : Sia σ (List Answer) := Exec.runAll (perform e) (op.ops e)

/-- What the operation does to the store, if it does anything. -/
def change : FileOp → Option (Change UInt8 UInt8)
  | .mkdir path => some (.store (path ++ [slash]) [])
  | .mknod path => some (.store path [])
  | .write path buf => some (.store path buf)
  | .upload path content => some (.store path content)
  | .unlink path => some (.remove path)
  | .rmdir path => some (.remove (path ++ [slash]))
  | .rename source target => some (.rename source target)
  | _ => none

/-- A file is read that is not empty and no larger than an `int`, names are portable where
they change something and arrive as they are everywhere, a rename does not replace
anything, no file is uploaded twice in a row, and no upload ends with a full block in a part
that is not full. -/
def Accepted (e : Env σ) (s : Files) : FileOp → Prop
  | .getattr path => Clean path ∧ (path = [slash] ∨ endsWithSlash path = false)
  | .readdir path => Clean path
  | .open path => Clean path ∧ endsWithSlash path = false
  | .read path size offset => endsWithSlash path = false ∧
      (∃ body, s.objects path = some body ∧ 0 < body.length ∧ body.length < 2 ^ 31) ∧
      1 ≤ size ∧ size < 2 ^ 63 ∧ offset < 2 ^ 63
  | .mkdir path | .mknod path | .unlink path | .rmdir path => Portable path
  | .write path buf => Portable path ∧ buf.length < e.small
  | .upload path content => (Clean path ∧ e.hugeFiles = true ∧ e.verbose = false) ∧
      e.small ≤ content.length ∧ content.length ≤ SIA_MAX_PARTS * e.partBytes ∧
      (¬ e.small ∣ content.length ∨ e.partBytes ∣ content.length) ∧ s.last ≠ some path
  | .rename source target => Portable source ∧ Portable target ∧
      (Change.rename source target).Fits slash s.objects

def Answered (e : Env σ) (s : Files) : FileOp → List Answer → Prop
  | .getattr path, as => ∃ r, as = [.stat r] ∧
      Reports (if path = [slash] then .directory else kind slash s.objects path) r
  | .readdir path, as => ∃ names, as = [.names (lit "." :: lit ".." :: names)] ∧
      ∀ x, x ∈ names ↔ x ∈ entries slash s.objects (withSlash path)
  | .open path, as => as = [.status (if (s.objects path).isSome then
      if isDirectory slash s.objects path then -EISDIR else 0 else -ENOENT)]
  | .read path size offset, as =>
    as = [.data ((((s.objects path).getD []).drop offset).take size)]
  | .write _ buf, as => as = [.status buf.length]
  | .upload _ content, as => as = uploadAnswers e content
  | _, as => as = [.status 0]

def next (s : Files) (op : FileOp) : Files where
  objects := op.change.elim s.objects fun c => c.apply slash s.objects
  last :=
    match op with
    | .upload path _ => some path
    | _ => s.last

theorem next_objects (s : Files) (op : FileOp) : (op.next s).objects =
    op.change.elim s.objects fun c => c.apply slash s.objects := rfl

end FileOp

def fileMachine (e : Env σ) : Machine Files FileOp (List Answer) where
  accepts := FileOp.Accepted e
  answers := FileOp.Answered e
  next := FileOp.next

/-! ## The server and the state -/

/-- A request that leaves the uploads alone. -/
def Request.Apart : Request → Prop
  | .multipart_create _ _ | .multipart_complete _ | .worker_put_multipart _ _ _ _ => False
  | _ => True

/-- An operation that is no part of an upload. -/
def Op.Apart (e : Env σ) : Op → Prop
  | .write _ buf offset => offset = 0 ∧ buf.length < e.small
  | .release _ => False
  | _ => True

/-- All that is documented of the server, about the requests as it reads them. -/
structure Serving (server : σ → Request → Reply × σ) (catalogue : σ → Catalogue)
    (view : σ → Bucket) : Prop where
  backend : Backend server view fun _ => False
  accepting : Accepting server catalogue fun s => (view s).objects
  groups : Groups server catalogue
  ranged : Ranged server (fun s => (view s).objects) fun path => endsWithSlash path = false
  pending : ∀ s r, r.Apart → (view (server s r).2).pending = (view s).pending

/-- The mount has no caches, nothing is being uploaded, and the server stores the files. -/
structure FilesOf (e : Env σ) (view : σ → Bucket) (s : Files) (w : World σ) : Prop where
  objects : (view w.server).objects = s.objects
  idle : (view w.server).pending = fun _ => none
  last : lastName w = s.last
  named : Named e w
  L1 : w.L1 = none
  L2 : w.L2 = none

theorem Portable.plain {path : CStr} (hp : Portable path) : Plain path := fun b hb =>
  hp.plain_dir b (List.mem_append_left _ hb)

theorem Portable.clean {path : CStr} (hp : Portable path) : Clean path := by
  intro b hb
  rcases hp.characters b hb with h | rfl
  · refine ⟨?_, ?_, ?_⟩
    · rintro rfl
      exact absurd h (by decide)
    · rintro rfl
      exact absurd h (by decide)
    · simp only [isUnreserved, isLetter, Percent.isDigit, Bool.or_eq_true, Bool.and_eq_true,
        decide_eq_true_eq, beq_iff_eq] at h
      grind
  · decide

section Steps

variable {e : Env σ} {catalogue : σ → Catalogue} {view : σ → Bucket}
  {s : Files} {w w' : World σ} {path : CStr}

theorem perform_caches_off (op : Op) (h1 : w.L1 = none) (h2 : w.L2 = none) :
    (perform e op w).2.L1 = none ∧ (perform e op w).2.L2 = none := by
  have h := Retains.perform (e := e) op w
  refine ⟨Option.isSome_eq_false_iff.mp ?_ |> Option.isNone_iff_eq_none.mp,
    Option.isSome_eq_false_iff.mp ?_ |> Option.isNone_iff_eq_none.mp⟩
  · rw [h.memcached, h1]
    rfl
  · rw [h.disk, h2]
    rfl

theorem Op.Apart.requests {op : Op} (hop : op.Apart e) {r : Request} (hr : op.Requests e r) :
    r.Apart := by
  have hlookup : ∀ path, Request.LooksUp path r → r.Apart := by
    intro path hpath
    simp only [Request.LooksUp, List.mem_cons, List.not_mem_nil, or_false] at hpath
    rcases hpath with rfl | rfl | rfl | rfl <;> trivial
  cases op with
  | getattr path => exact hlookup path hr
  | readdir path => exact hlookup path hr
  | «open» path => exact hlookup path hr
  | read path size offset => rcases hr with rfl | ⟨first, last, rfl⟩ <;> trivial
  | flush path => exact hr.elim
  | mkdir path => cases hr; trivial
  | mknod path => cases hr; trivial
  | unlink path => cases hr; trivial
  | rmdir path => cases hr; trivial
  | rename source target => rcases hr with rfl | rfl | rfl <;> trivial
  | write path buf offset =>
    rw [Op.Requests, if_pos (show offset = 0 ∧ buf.length < e.small from hop)] at hr
    cases hr
    trivial
  | release path => exact hop.elim

variable (hS : Serving e.server catalogue view)

include hS

theorem Serving.read_keeps {r : Request} (hr : r.IsRead) (s : σ) :
    (view (e.server s r).2).objects = (view s).objects := by
  cases r with
  | objects path => rw [hS.backend.objects_view]
  | objects_list path => rw [hS.backend.objects_list_view]
  | worker_get path first last => exact hS.ranged.worker_get_keeps s path first last
  | _ => exact hr.elim

/-- An operation that is no part of an upload changes the objects at most. -/
theorem FilesOf.apart (h : FilesOf e view s w) {op : Op} {r : Except Fault Answer}
    (hrun : perform e op w = (r, w')) (hop : op.Apart e) (hasks : Asks e Request.Plain w w') :
    FilesOf e view ⟨(view w'.server).objects, s.last⟩ w' := by
  obtain ⟨h1, h2⟩ := perform_caches_off (e := e) op h.L1 h.L2
  have hsends := perform_requests (e := e) op w
  rw [hrun] at h1 h2 hsends
  refine ⟨rfl, ?_, ?_, ?_, h1, h2⟩
  · exact hsends.server_keeps (I := fun s => (view s).pending = fun _ => none)
      (fun r hr s hs => (hS.pending s r (hop.requests hr)).trans hs) h.idle
  · rw [lastName, hasks.uploads]
    exact h.last
  · exact h.named.congr (fun i t => by rw [hasks.uploads]) hasks.names hasks.tmp

/-- An operation that reads leaves everything as it is. -/
theorem FilesOf.look (h : FilesOf e view s w) {op : Op} {r : Except Fault Answer}
    (hrun : perform e op w = (r, w')) (hop : op.Apart e) (hasks : Asks e Request.IsRead w w') :
    FilesOf e view s w' := by
  have hw' := h.apart hS hrun hop (hasks.mono fun _ => Request.IsRead.plain)
  have hkept : (view w'.server).objects = s.objects :=
    hasks.server_keeps (I := fun t => (view t).objects = s.objects)
      (fun r hr t ht => (hS.read_keeps hr t).trans ht) h.objects
  rw [hkept] at hw'
  exact hw'

/-! ## Looking -/

theorem Serving.isDir_iff (h : FilesOf e view s w) (hslash : endsWithSlash path = false) :
    (catalogue w.server).isDir path = isDirectory slash s.objects path := by
  rw [Bool.eq_iff_iff, Catalogue.isDir_iff hslash, hS.accepting.empty_iff, h.objects,
    isDirectory_iff]

theorem Serving.file_stat (h : FilesOf e view s w) (hroot : path ≠ [slash])
    (hslash : endsWithSlash path = false) {body : Bytes} (hbody : s.objects path = some body) :
    ∃ stat, (catalogue w.server).getattr e w path = .ok (.ok stat) ∧
      stat.st_mode &&& S_IFMT = S_IFREG ∧ stat.st_size = min (body.length : Int) (2 ^ 31 - 1) := by
  have hsized := hS.accepting.sized w.server path
  rw [h.objects, hbody, Option.map_some] at hsized
  obtain ⟨entry, hentry, hsize⟩ := Option.map_eq_some_iff.mp hsized
  obtain ⟨stat, hstat, hmode, hst⟩ := Catalogue.getattr_file (e := e) (w := w)
    (hS.accepting.times w.server) hroot (Catalogue.isFile_iff.mpr ⟨⟨entry, hentry⟩, hslash⟩)
  refine ⟨stat, hstat, file_mode hmode, hst.trans ?_⟩
  rw [hentry, Option.map_some, Option.getD_some, Entry.bytes, hsize]
  show s64 (u64 (max (-2 ^ 31) (min (body.length : Int) (2 ^ 31 - 1)))) = _
  unfold s64 u64
  omega

/-- The file information is that of the kind the store makes of the path. -/
theorem Serving.reports (h : FilesOf e view s w)
    (hpath : path = [slash] ∨ endsWithSlash path = false) :
    ∃ r, (catalogue w.server).getattr e w path = .ok r ∧
      Reports (if path = [slash] then .directory else kind slash s.objects path) r := by
  by_cases hroot : path = [slash]
  · rw [Catalogue.getattr, if_pos hroot, if_pos hroot]
    exact ⟨_, rfl, _, rfl, dir_mode rfl⟩
  have hslash := hpath.resolve_left hroot
  rw [if_neg hroot, kind]
  cases hbody : s.objects path with
  | some body =>
    obtain ⟨stat, hstat, hfile⟩ := hS.file_stat h hroot hslash hbody
    exact ⟨_, hstat, stat, rfl, hfile⟩
  | none =>
    have hfile : (catalogue w.server).isFile path = false := by
      rw [Catalogue.isFile_of_not_slash hslash, hS.accepting.isSome_iff, h.objects, hbody]
      rfl
    have hisdir := hS.isDir_iff h hslash
    cases hdir : isDirectory slash s.objects path with
    | true =>
      rw [hdir] at hisdir
      obtain ⟨stat, hstat, hmode⟩ := Catalogue.getattr_dir (e := e) (w := w)
        (hS.accepting.times w.server) hroot hfile hisdir
      exact ⟨_, hstat, stat, rfl, dir_mode hmode⟩
    | false =>
      rw [hdir] at hisdir
      exact ⟨_, Catalogue.getattr_absent hroot hfile hisdir, rfl⟩

theorem FilesOf.getattr (h : FilesOf e view s w)
    (hpath : path = [slash] ∨ endsWithSlash path = false) :
    ∃ r w', perform e (.getattr path) w = (.ok (.stat r), w') ∧
      Reports (if path = [slash] then .directory else kind slash s.objects path) r ∧
      FilesOf e view s w' := by
  obtain ⟨r, hr, hreports⟩ := hS.reports h hpath
  have hrun : siafs_getattr e path w = (.ok r, (siafs_getattr e path w).2) :=
    Prod.ext ((getattr_off hS.accepting.toDescribed h.L1).trans hr) rfl
  have hop : perform e (.getattr path) w = (.ok (.stat r), (siafs_getattr e path w).2) := by
    rw [perform, Exec.bind_of_ok hrun]
    rfl
  exact ⟨r, _, hop, hreports, h.look hS hop trivial (keeps_getattr path w)⟩

theorem FilesOf.readdir (h : FilesOf e view s w) (path : CStr) :
    ∃ names w', perform e (.readdir path) w = (.ok (.names (lit "." :: lit ".." :: names)), w') ∧
      (∀ x, x ∈ names ↔ x ∈ entries slash s.objects (withSlash path)) ∧ FilesOf e view s w' := by
  obtain ⟨names, w', hrun, hnames, -⟩ := readdir_off hS.groups h.L1 path
  have hop : perform e (.readdir path) w = (.ok (.names (lit "." :: lit ".." :: names)), w') := by
    rw [perform, Exec.bind_of_ok hrun]
    rfl
  have hasks := keeps_readdir (e := e) path w
  rw [hrun] at hasks
  refine ⟨names, w', hop, fun x => ?_, h.look hS hop trivial hasks⟩
  simp only [hnames, hS.accepting.isSome_iff, h.objects]
  rfl

theorem FilesOf.open_ (h : FilesOf e view s w) (hslash : endsWithSlash path = false) :
    ∃ w', perform e (.open path) w = (.ok (.status (if (s.objects path).isSome then
        if isDirectory slash s.objects path then -EISDIR else 0 else -ENOENT)), w') ∧
      FilesOf e view s w' := by
  have hrun := open_off hS.accepting.toDescribed hslash h.L1
  rw [hS.accepting.isSome_iff, h.objects, hS.isDir_iff h hslash] at hrun
  have hop : perform e (.open path) w = (.ok (.status (if (s.objects path).isSome then
      if isDirectory slash s.objects path then -EISDIR else 0 else -ENOENT)),
      (siafs_open e path w).2) := by
    rw [perform, Exec.bind_of_ok (Prod.ext hrun rfl)]
    rfl
  exact ⟨_, hop, h.look hS hop trivial (keeps_open path w)⟩

/-- Without the caches a read goes to the server. -/
theorem Serving.read_off {body : Bytes} {size offset : Nat} (h1 : w.L1 = none) (h2 : w.L2 = none)
    (hslash : endsWithSlash path = false) (hbody : (view w.server).objects path = some body)
    (hpos : 0 < body.length) (hlen : body.length < 2 ^ 31) (hsize : 1 ≤ size)
    (hsize63 : size < 2 ^ 63) (hoffset : offset < 2 ^ 63) :
    ∃ w', siafs_read e path size offset w = (.ok ((body.drop offset).take size), w') := by
  have hexact : Exact e (fun t => (view t).objects) (· = path) (fun _ => body) w := by
    refine ⟨fun p hp => ?_, fun p _ b hb => ?_, fun p _ n o bytes hf => ?_⟩
    · rw [hp, hbody]
    · rw [mc_lookup, h1] at hb
      cases hb
    · rw [cachedFile, h2] at hf
      cases hf
  have hranged : Ranged e.server (fun t => (view t).objects) (· = path) :=
    hS.ranged.mono (by rintro p rfl; exact hslash)
  obtain ⟨w', hrun, -⟩ := hexact.read hranged
    ⟨Set.injOn_singleton _ _, fun _ ha _ hb _ => by
      obtain ⟨_, rfl, rfl⟩ := ha
      obtain ⟨_, rfl, rfl⟩ := hb
      rfl⟩ (fun _ _ => ⟨hpos, hlen⟩) rfl hsize hsize63 hoffset
  exact ⟨w', hrun⟩

theorem FilesOf.read (h : FilesOf e view s w) {body : Bytes} {size offset : Nat}
    (hslash : endsWithSlash path = false) (hbody : s.objects path = some body)
    (hpos : 0 < body.length) (hlen : body.length < 2 ^ 31) (hsize : 1 ≤ size)
    (hsize63 : size < 2 ^ 63) (hoffset : offset < 2 ^ 63) :
    ∃ w', perform e (.read path size offset) w = (.ok (.data ((body.drop offset).take size)), w') ∧
      FilesOf e view s w' := by
  obtain ⟨w', hrun⟩ := hS.read_off h.L1 h.L2 hslash (by rw [h.objects, hbody]) hpos hlen hsize
    hsize63 hoffset
  have hop : perform e (.read path size offset) w =
      (.ok (.data ((body.drop offset).take size)), w') := by
    rw [perform, Exec.bind_of_ok hrun]
    rfl
  have hasks := keeps_read (e := e) path size offset w
  rw [hrun] at hasks
  exact ⟨w', hop, h.look hS hop trivial hasks⟩

/-! ## Changing -/

/-- An operation that changes the objects as the store does. -/
theorem FilesOf.changed (h : FilesOf e view s w) {op : Op} {c : Change UInt8 UInt8} {a : Answer}
    (hrun : perform e op w = (.ok a, w')) (hop : op.Apart e) (hasks : Asks e Request.Plain w w')
    (hobjects : (view w'.server).objects = c.apply slash s.objects) :
    FilesOf e view ⟨c.apply slash s.objects, s.last⟩ w' := by
  have hw' := h.apart hS hrun hop hasks
  rw [hobjects] at hw'
  exact hw'

theorem FilesOf.put (h : FilesOf e view s w) {op : Op} {a : Answer} {name : CStr} {body : Bytes}
    (hrun : perform e op w = (.ok a, w')) (hop : op.Apart e)
    (hasks : Asks e Request.Plain w w')
    (hput : w'.server = (e.server w.server (.worker_put name body)).2) :
    FilesOf e view ⟨(Change.store name body).apply slash s.objects, s.last⟩ w' := by
  refine h.changed hS hrun hop hasks ?_
  rw [hput, hS.accepting.put, h.objects]
  rfl

theorem FilesOf.delete (h : FilesOf e view s w) {op : Op} {a : Answer} {name : CStr}
    (hrun : perform e op w = (.ok a, w'))
    (hop : op.Apart e) (hasks : Asks e Request.Plain w w')
    (hdel : w'.server = (e.server w.server (.objects_delete name)).2) :
    FilesOf e view ⟨(Change.remove name).apply slash s.objects, s.last⟩ w' := by
  refine h.changed hS hrun hop hasks ?_
  rw [hdel, hS.accepting.delete, h.objects]
  rfl

/-- A rename moves a directory with what is below it, or a file alone. -/
theorem FilesOf.rename (h : FilesOf e view s w) {source target : CStr} (hsource : Portable source)
    (htarget : Portable target) (hfits : (Change.rename source target).Fits slash s.objects) :
    ∃ w', perform e (.rename source target) w = (.ok (.status 0), w') ∧
      FilesOf e view ⟨(Change.rename source target).apply slash s.objects, s.last⟩ w' := by
  obtain ⟨t, ht, hstatus, hserver⟩ :=
    hS.accepting.renames.sends h.L1 hsource.not_slash htarget.not_slash
  have hop : perform e (.rename source target) w =
      (.ok (.status 0), (siafs_rename e source target w).2) := by
    rw [perform, Exec.bind_of_ok (Prod.ext hstatus rfl)]
    rfl
  refine ⟨_, hop, h.changed hS hop trivial (keeps_rename source target w) ?_⟩
  obtain ⟨hmoves, hfree, hbelow⟩ := hfits
  replace ht : (view t).objects = s.objects := ht.trans h.objects
  rw [hserver, hS.isDir_iff h hsource.not_slash, Change.apply]
  split
  · rename_i hdir
    rw [hS.accepting.renames.multi t _ _ (clean_append_slash hsource.clean)
      (clean_append_slash htarget.clean) (by rw [ht]; exact hbelow), ht]
  · rename_i hdir
    obtain ⟨body, hbody⟩ := Option.isSome_iff_exists.mp (hmoves.resolve_left hdir)
    rw [hS.accepting.renames.single t source target body hsource.clean htarget.clean
      (by rw [ht]; exact hbody) (by rw [ht]; exact hfree), ht, hbody]

/-- A file uploaded whole. -/
theorem FilesOf.upload (hR : e.host.Reliable) (h : FilesOf e view s w) {c : Bytes}
    (hH : e.hugeFiles = true) (hc : e.small ≤ c.length)
    (hfit : c.length ≤ SIA_MAX_PARTS * e.partBytes)
    (hwhole : ¬ e.small ∣ c.length ∨ e.partBytes ∣ c.length) (hlast : s.last ≠ some path) :
    ∃ w', Exec.runAll (perform e) (uploadRun e path c) w = (.ok (uploadAnswers e c), w') ∧
      FilesOf e view ⟨(Change.store path c).apply slash s.objects, some path⟩ w' := by
  have hready : Ready e view w path := by
    refine ⟨⟨fun u hu hname => ?_, fun id hid => ?_, cacheFine_of_none h.L1⟩, h.named⟩
    · refine hlast ?_
      rw [← h.last, lastName, hu, Option.map_some, hname]
    · rw [h.idle] at hid
      cases hid
  obtain ⟨w', hrun, hleft⟩ := uploadRun_leaves hS.backend hR hH hready hc hfit
  have hoff : w'.L1 = none ∧ w'.L2 = none := by
    have hkept : (Exec.runAll (perform e) (uploadRun e path c) w).2.L1 = none ∧
        (Exec.runAll (perform e) (uploadRun e path c) w).2.L2 = none :=
      Exec.runAll_invariant (I := fun w : World σ => w.L1 = none ∧ w.L2 = none)
        (fun op _ w hw => perform_caches_off op hw.1 hw.2) ⟨h.L1, h.L2⟩
    rwa [hrun] at hkept
  refine ⟨w', hrun, ?_, hleft.pending.trans h.idle, hleft.last, hleft.named, hoff.1, hoff.2⟩
  rw [hleft.objects, h.objects, storedAs, if_pos hwhole]
  rfl

theorem FilesOf.step (hR : e.host.Reliable) (h : FilesOf e view s w) {op : FileOp}
    (hop : op.Accepted e s) : ∃ as w', op.run e w = (.ok as, w') ∧ op.Answered e s as ∧
      FilesOf e view (op.next s) w' := by
  have one : ∀ {op : Op} {a : Answer} {w' : World σ}, perform e op w = (.ok a, w') →
      Exec.runAll (perform e) [op] w = (.ok [a], w') := fun hop =>
    Exec.runAll_cons_ok hop (Exec.runAll_nil _)
  cases op with
  | getattr path =>
    obtain ⟨r, w', hrun, hr, hw'⟩ := h.getattr hS hop.2
    exact ⟨_, w', one hrun, ⟨r, rfl, hr⟩, hw'⟩
  | readdir path =>
    obtain ⟨names, w', hrun, hnames, hw'⟩ := h.readdir hS path
    exact ⟨_, w', one hrun, ⟨names, rfl, hnames⟩, hw'⟩
  | «open» path =>
    obtain ⟨w', hrun, hw'⟩ := h.open_ hS hop.2
    exact ⟨_, w', one hrun, rfl, hw'⟩
  | read path size offset =>
    obtain ⟨hslash, ⟨body, hbody, hpos, hlen⟩, hsize, hsize63, hoffset⟩ := hop
    obtain ⟨w', hrun, hw'⟩ := h.read hS hslash hbody hpos hlen hsize hsize63 hoffset
    refine ⟨_, w', one hrun, ?_, hw'⟩
    rw [FileOp.Answered, hbody]
    rfl
  | mkdir path =>
    have hrun : perform e (.mkdir path) w =
        (.ok (.status 0), (siafs_mkdir e path w).2) := by
      rw [perform, siafs_mkdir, if_neg (by simp [hop.not_slash])]
      rfl
    have hsent : (siafs_mkdir e path w).2.server =
        (e.server w.server (.worker_put (path ++ [slash]) [])).2 := by
      rw [siafs_mkdir, if_neg (by simp [hop.not_slash])]
      rfl
    exact ⟨_, _, one hrun, rfl, h.put hS hrun trivial (keeps_mkdir path w) hsent⟩
  | mknod path =>
    have hrun : perform e (.mknod path) w = (.ok (.status 0), (siafs_mknod e path w).2) := rfl
    exact ⟨_, _, one hrun, rfl, h.put hS hrun trivial (keeps_mknod path w) rfl⟩
  | write path buf =>
    have hrun : perform e (.write path buf 0) w =
        (.ok (.status buf.length), (sia_worker_put_object e path buf w).2) := by
      rw [perform, siafs_write, if_pos ⟨rfl, hop.2⟩]
      rfl
    exact ⟨_, _, one hrun, rfl, h.put hS hrun ⟨rfl, hop.2⟩
      (keeps_put_object path buf w) rfl⟩
  | upload path content =>
    obtain ⟨⟨-, hH, -⟩, hc, hfit, hwhole, hlast⟩ := hop
    obtain ⟨w', hrun, hw'⟩ := h.upload hS hR hH hc hfit hwhole hlast
    exact ⟨_, w', hrun, rfl, hw'⟩
  | unlink path =>
    have hrun : perform e (.unlink path) w =
        (.ok (.status 0), (siafs_unlink e path w).2) := rfl
    refine ⟨_, _, one hrun, rfl, h.delete hS hrun trivial ?_ rfl⟩
    exact Exec.keeps_bind (keeps_del_object path) (fun _ => Exec.keeps_pure _) w
  | rmdir path =>
    have hrun : perform e (.rmdir path) w =
        (.ok (.status 0), (siafs_rmdir e path w).2) := rfl
    refine ⟨_, _, one hrun, rfl, h.delete hS hrun trivial ?_ ?_⟩
    · exact Exec.keeps_bind (keeps_del_object _) (fun _ => Exec.keeps_pure _) w
    · rw [siafs_rmdir, withSlash_of_not_slash hop.not_slash]
      rfl
  | rename source target =>
    obtain ⟨hsource, htarget, hfits⟩ := hop
    obtain ⟨w', hrun, hw'⟩ := h.rename hS hsource htarget hfits
    exact ⟨_, w', one hrun, rfl, hw'⟩

end Steps

/-! ## Names that arrive as they are -/

section Sent

variable {e : Env σ} {server : σ → Request → Reply × σ} {view : σ → Bucket} {s : Files}
  {w : World σ}

theorem FileOp.Accepted.legible {op : FileOp} (hop : op.Accepted e s) :
    ∀ o ∈ op.ops e, o.Legible e := by
  have one : ∀ {o : Op}, o.Legible e → ∀ o' ∈ [o], o'.Legible e := fun h =>
    List.forall_mem_singleton.mpr h
  cases op with
  | getattr path => exact one hop.1
  | readdir path => exact one hop
  | «open» path => exact one hop.1
  | read path size offset => exact one trivial
  | mkdir path => exact one trivial
  | mknod path => exact one trivial
  | write path buf => exact one hop.1.clean
  | upload path content =>
    refine legible_upload hop.1.1 hop.1.2.2 fun o ho => ?_
    obtain ⟨i, -, rfl⟩ := List.mem_map.mp ho
    exact ⟨_, _, rfl⟩
  | unlink path => exact one hop.plain
  | rmdir path => exact one hop.plain
  | rename source target => exact one ⟨hop.1.clean, hop.2.1.clean⟩

theorem FilesOf.over (h : FilesOf e view s w) : FilesOf (e.over server) view s w where
  objects := h.objects
  idle := h.idle
  last := h.last
  named := ⟨h.named.recorded, h.named.distinct, h.named.unused⟩
  L1 := h.L1
  L2 := h.L2

theorem FilesOf.of_over (h : FilesOf (e.over server) view s w) : FilesOf e view s w where
  objects := h.objects
  idle := h.idle
  last := h.last
  named := ⟨h.named.recorded, h.named.distinct, h.named.unused⟩
  L1 := h.L1
  L2 := h.L2

/-- An operation of a mount whose server is sent what the program sends. -/
theorem FilesOf.sent {catalogue : σ → Catalogue} (he : e.server = receiving e.bucket server)
    (hbucket : Clean e.bucket) (hS : Serving server catalogue view) (hR : e.host.Reliable)
    (h : FilesOf e view s w) {op : FileOp} (hop : op.Accepted e s) :
    ∃ as w', op.run e w = (.ok as, w') ∧ op.Answered e s as ∧ FilesOf e view (op.next s) w' := by
  have hS' : Serving (e.over server).server catalogue view := hS
  have hop' : op.Accepted (e.over server) s := by cases op <;> exact hop
  obtain ⟨as, w', hrun, has, hw'⟩ := h.over.step hS' hR hop'
  refine ⟨as, w', ?_, by cases op <;> exact has, hw'.of_over⟩
  have hsame := runAll_over he hbucket hop.legible
  rw [FileOp.run, ← hsame]
  cases op <;> exact hrun

end Sent

/-! ## Runs -/

section Runs

variable {e : Env σ} {server : σ → Request → Reply × σ} {catalogue : σ → Catalogue}
  {view : σ → Bucket} {s : Files} {w : World σ}

/-- The key under which an object is after the operation. -/
def FileOp.carry (s : Files) (op : FileOp) (name : CStr) : Option CStr :=
  op.change.elim (some name) fun c => c.carry slash s.objects name

/-- The key under which an object is after a run. -/
def carried (s : Files) : List FileOp → CStr → Option CStr
  | [], name => some name
  | op :: ops, name => (op.carry s name).bind (carried (op.next s) ops)

theorem FileOp.Accepted.fits {op : FileOp} (hop : op.Accepted e s) {c : Change UInt8 UInt8}
    (hc : op.change = some c) : c.Fits slash s.objects := by
  cases op <;> cases hc
  case rename => exact hop.2.2
  all_goals trivial

theorem FileOp.next_carry {op : FileOp} (hop : op.Accepted e s) {name name' : CStr}
    (hname : (s.objects name).isSome) (hcarry : op.carry s name = some name') :
    (op.next s).objects name' = s.objects name := by
  rw [FileOp.carry] at hcarry
  rw [FileOp.next_objects]
  cases hc : op.change with
  | none =>
    rw [hc] at hcarry
    cases hcarry
    rfl
  | some c =>
    rw [hc] at hcarry
    exact Change.apply_carry (hop.fits hc) hname hcarry

/-- An object keeps its bytes through a run, under the key the run carries it to. -/
theorem run_carried {ops : List FileOp} (hops : (fileMachine e).Accepts s ops) {name name' : CStr}
    (hname : (s.objects name).isSome) (hcarried : carried s ops name = some name') :
    ((fileMachine e).run s ops).objects name' = s.objects name := by
  induction ops generalizing s name with
  | nil =>
    cases hcarried
    rfl
  | cons op ops ih =>
    obtain ⟨mid, hmid, hrest⟩ := Option.bind_eq_some_iff.mp hcarried
    have hkept := FileOp.next_carry hops.1 hname hmid
    have hend := ih hops.2 (by rw [show (fileMachine e).next s op = op.next s from rfl, hkept]
                               exact hname) hrest
    exact hend.trans hkept

theorem fileMachine_refined (he : e.server = receiving e.bucket server)
    (hbucket : Clean e.bucket) (hS : Serving server catalogue view) (hR : e.host.Reliable) :
    (fileMachine e).Refines (FilesOf e view) (FileOp.run e) :=
  fun _ _ _ hw hop => hw.sent he hbucket hS hR hop

/-- A file that was stored, by a small write or an upload, is read back under the name that
the renames since then carried it to, whatever else was stored, removed and looked at. -/
theorem stored_read_back (he : e.server = receiving e.bucket server) (hbucket : Clean e.bucket)
    (hS : Serving server catalogue view) (hR : e.host.Reliable)
    {before after : List FileOp} {put : FileOp} {path path' : CStr} {body : Bytes} {size offset : Nat} (hput : put.change = some (.store path body))
    (hw : FilesOf e view s w)
    (hops : (fileMachine e).Accepts s (before ++ put :: after ++ [.read path' size offset]))
    (hcarried : carried ((fileMachine e).run s (before ++ [put])) after path = some path') :
    ∃ answers w', Exec.runAll (FileOp.run e)
      (before ++ put :: after ++ [.read path' size offset]) w =
      (.ok (answers ++ [[.data ((body.drop offset).take size)]]), w') := by
  obtain ⟨hrest, hread, -⟩ := Machine.accepts_append.mp hops
  obtain ⟨answers, w₁, hrun, -, hw₁⟩ := (fileMachine_refined he hbucket hS hR).run hrest hw
  obtain ⟨as, w₂, hlast, has, -⟩ := fileMachine_refined he hbucket hS hR _ _ _ hw₁ hread
  refine ⟨answers, w₂, ?_⟩
  have hbefore : before ++ put :: after = before ++ [put] ++ after := by simp
  -- right after it was stored, the file is there
  have hstored : ((fileMachine e).run s (before ++ [put])).objects path = some body := by
    rw [Machine.run_append]
    show (put.next _).objects path = some body
    rw [FileOp.next_objects, hput]
    exact Function.update_self _ _ _
  have hkept : ((fileMachine e).run s (before ++ put :: after)).objects path' = some body := by
    rw [hbefore] at hrest ⊢
    rw [Machine.run_append]
    exact (run_carried (Machine.accepts_append.mp hrest).2 (by rw [hstored]; rfl) hcarried).trans
      hstored
  have hdata : as = [.data ((body.drop offset).take size)] := by
    have h : as = [.data (((((fileMachine e).run s (before ++ put :: after)).objects path').getD
      []).drop offset |>.take size)] := has
    rw [h, hkept]
    rfl
  rw [hdata] at hlast
  exact Exec.runAll_append_ok hrun (Exec.runAll_cons_ok hlast (Exec.runAll_nil _))

end Runs

/-! ## On a server -/

theorem renterd_pending {r : Request} (hr : r.Apart) (refuse : Nat → Bool) (s : Store) :
    (renterd refuse s r).2.pending = s.pending := by
  cases r with
  | objects path => exact congrArg Store.pending (renterd_objects_state _ s path)
  | worker_get path first last =>
    exact congrArg Store.pending (renterd_worker_get_state _ s path first last)
  | objects_rename source target mode =>
    rw [renterd]
    split
    · rfl
    · split <;> rfl
  | multipart_create path key => exact hr.elim
  | multipart_complete payload => exact hr.elim
  | worker_put_multipart path id n body => exact hr.elim
  | _ => rfl

theorem renterd_serving : Serving (renterd fun _ => false) Store.catalogue Store.view where
  backend := renterd_accepts
  accepting := renterd_accepting _
  groups := (renterd_listed _).toGroups
  ranged := renterd_ranged _
  pending s _ hr := renterd_pending hr _ s

theorem mounted_files (e : Env Store) :
    FilesOf e Store.view ⟨fun _ => none, none⟩ (mounted Store.blank none) where
  objects := rfl
  idle := by
    funext id
    rw [Option.eq_none_iff_forall_ne_some]
    intro path h
    obtain ⟨k, -, hk⟩ := Store.blank.pending_eq_some h
    cases hk
  last := rfl
  named := mounted_named e _ _
  L1 := rfl
  L2 := rfl

instance (path : CStr) : Decidable (Portable path) :=
  decidable_of_iff (path.head? = some slash ∧ endsWithSlash path = false ∧
      path.all (fun b => isUnreserved b || b == slash) = true ∧
      ∀ c ∈ path.splitOn slash, c ≠ lit "." ∧ c ≠ lit "..")
    ⟨fun ⟨h1, h2, h3, h4⟩ => ⟨h1, h2, fun b hb => by simpa using List.all_eq_true.mp h3 b hb, h4⟩,
      fun ⟨h1, h2, h3, h4⟩ =>
        ⟨h1, h2, List.all_eq_true.mpr fun b hb => by simpa using h3 b hb, h4⟩⟩

theorem portable_names : ∀ path ∈ [lit "/d", lit "/d/x", lit "/e", lit "/e/x", lit "/y"],
    Portable path := by decide +kernel

/-- A directory is made and moved with a file in it, and both are removed. -/
def movedRun : List FileOp :=
  [.mkdir (lit "/d"), .write (lit "/d/x") [1, 2, 3], .rename (lit "/d") (lit "/e"),
    .read (lit "/e/x") 2 1, .unlink (lit "/e/x"), .rmdir (lit "/e"), .getattr (lit "/e")]

theorem vacant_target (body : Bytes) (rest : CStr) :
    Function.update (Function.update (fun _ => none) (lit "/d" ++ [slash]) (some [])) (lit "/d/x")
      (some body) (lit "/e" ++ [slash] ++ rest) = none := by
  simp [Function.update, lit, slash]

/-- A file of one block and a byte is read back across the end of the first block. -/
theorem stored_read_back_uploaded : ∃ answers w', Exec.runAll (FileOp.run receivingMount)
    ([.mkdir (lit "/d")] ++ .upload (lit "/d/x") (List.replicate 131073 7) ::
      [.readdir (lit "/d"), .rename (lit "/d") (lit "/e")] ++ [.read (lit "/e/x") 3 131071])
    (mounted Store.blank none) = (.ok (answers ++ [[.data [7, 7]]]), w') := by
  have hlen : (List.replicate 131073 (7 : UInt8)).length = 131073 := List.length_replicate
  have hops : (fileMachine receivingMount).Accepts ⟨fun _ => none, none⟩
      ([.mkdir (lit "/d")] ++ .upload (lit "/d/x") (List.replicate 131073 7) ::
        [.readdir (lit "/d"), .rename (lit "/d") (lit "/e")] ++
          [.read (lit "/e/x") 3 131071]) := by
    refine ⟨portable_names _ (by decide),
      ⟨⟨(portable_names _ (by decide)).clean, rfl, rfl⟩, ?_, ?_, ?_, by decide⟩,
      (portable_names (lit "/d") (by decide)).clean,
      ⟨portable_names _ (by decide), portable_names _ (by decide), Or.inl (by decide), by decide,
        vacant_target (List.replicate 131073 7)⟩,
      ⟨by decide, ⟨List.replicate 131073 7, rfl, ?_, ?_⟩, by decide, by decide, by decide⟩, trivial⟩
    · rw [hlen]
      decide
    · rw [hlen]
      decide
    · rw [hlen]
      exact Or.inl (by decide)
    · rw [hlen]
      decide
    · rw [hlen]
      decide
  obtain ⟨answers, w', hrun⟩ :=
    stored_read_back receivingMount_server clean_default renterd_serving plainHost_reliable rfl
      (mounted_files receivingMount) hops rfl
  rw [List.drop_replicate] at hrun
  exact ⟨answers, w', hrun⟩

end SiaFS
