/-
The files behind the L2 cache, call by call.

`disk_set` and `disk_get` as they use the file system: a directory below the cache
directory for every key, and in it a file for every size and offset.  Paths are compared
as strings.  Allocations and file operations succeed, except for `mkdir` of a path that is
there and `fopen` of one that does not fit its mode.

From an empty cache directory, a call of `disk_get` finds what the last `disk_set` with
its key, size and offset wrote.
-/
import SiaFS.Cache.Files
import SiaFS.Lib.Percent

namespace SiaFS

/-- What a path leads to. -/
inductive DiskNode
  | dir
  | file (bytes : Bytes)
  deriving DecidableEq

abbrev DiskTree := CStr → Option DiskNode

abbrev Disk := Exec DiskTree Fault

namespace Disk

def stat (path : CStr) : Disk (Option DiskNode) := do
  let tree ← Exec.get
  pure (tree path)

/-- Whether the directory could be made. -/
def mkdir (path : CStr) : Disk Bool := do
  let st ← stat path
  if st.isNone then
    Exec.modify fun tree => Function.update tree path (some .dir)
    pure true
  else pure false

/-- Whether there is something at the path, or a directory could be made. -/
def makePath (full_path : CStr) : Disk Bool := do
  let st ← stat full_path
  if st.isNone then mkdir full_path else pure true

/-- `fopen` for writing, which leaves the file empty. -/
def fopen_wb (fn : CStr) : Disk Bool := do
  let st ← stat fn
  if st = some .dir then pure false
  else
    Exec.modify fun tree => Function.update tree fn (some (.file []))
    pure true

def fwrite (fn : CStr) (bytes : Bytes) : Disk Unit :=
  Exec.modify fun tree => Function.update tree fn (some (.file bytes))

/-- `fopen` for reading, with what can be read; a directory opens and reads nothing. -/
def fopen_rb (fn : CStr) : Disk (Option Bytes) := do
  let st ← stat fn
  match st with
  | none => pure none
  | some .dir => pure (some [])
  | some (.file bytes) => pure (some bytes)

/-- `%ld` -/
def printLong (n : Int) : CStr :=
  if n < 0 then lit "-" ++ decimal n.natAbs else decimal n.natAbs

/-- `sprintf(fn, "%s/%ld%s%ld%s", full_path, size, ".", offset, ".dat")` into a buffer of
`strlen(full_path) + 64 + 10` bytes -/
def sprintf_fn (full_path : CStr) (size : Nat) (offset : Int) : Except Fault CStr :=
  let fn := full_path ++ lit "/" ++ printLong (s64 size) ++ lit "." ++ printLong offset ++
    lit ".dat"
  if fn.length < full_path.length + 64 + 10 then .ok fn else .error .outOfBounds

def disk_set (cache_dir key : CStr) (payload : Option Body) (payload_len size : Nat)
    (offset : Int) : Disk Nat := do
  let full_path := cache_dir ++ key
  let made ← makePath full_path
  if made then
    let st ← stat full_path
    if st = some .dir then
      let fn ← Exec.lift (sprintf_fn full_path size offset)
      let f ← fopen_wb fn
      if f then
        let bytes ← Exec.lift (readPayload payload payload_len)
        fwrite fn bytes
        pure 1
      else pure 0
    else pure 0
  else pure 0

/-- The answer, with `*payload` and `*payload_len` afterwards; `*payload` is the bytes it
points to. -/
structure Found where
  answer : Nat
  payload : Option Bytes
  payload_len : Nat

def disk_get (cache_dir key : CStr) (payload : Option Bytes) (payload_len size : Nat)
    (offset : Int) : Disk Found := do
  let full_path := cache_dir ++ key
  let st ← stat full_path
  if st.isNone then pure ⟨0, payload, payload_len⟩
  else
    let fn ← Exec.lift (sprintf_fn full_path size offset)
    let f ← fopen_rb fn
    match f with
    | none => pure ⟨0, payload, payload_len⟩
    | some bytes => pure ⟨1, some (bytes.take size), (bytes.take size).length⟩

end Disk

/-! ## Calls -/

/-- What a file is kept for. -/
structure DiskTriple where
  key : CStr
  size : Nat
  offset : Nat
  key_length : key.length = 32
  key_digits : ∀ b ∈ key, (Percent.hexValue b).isSome
  size_lt : size < 2 ^ 63
  offset_lt : offset < 2 ^ 63
  deriving DecidableEq

/-- A payload of `payload_len` bytes, which can be read. -/
structure DiskPayload where
  payload : Option Body
  payload_len : Nat
  bytes : Bytes
  readable : readPayload payload payload_len = .ok bytes

inductive DiskCall
  | set (t : DiskTriple) (p : DiskPayload) (within : p.payload_len ≤ t.size)
  | get (t : DiskTriple) (payload : Option Bytes) (payload_len : Nat)

namespace DiskCall

def run (cache_dir : CStr) : DiskCall → Disk (Nat ⊕ Disk.Found)
  | .set t p _ => do
    let answer ← Disk.disk_set cache_dir t.key p.payload p.payload_len t.size t.offset
    pure (.inl answer)
  | .get t payload payload_len => do
    let found ← Disk.disk_get cache_dir t.key payload payload_len t.size t.offset
    pure (.inr found)

/-- What the call sets for a key, a size and an offset. -/
def written (t : DiskTriple) : DiskCall → Option DiskPayload
  | .set t' p _ => if t' = t then some p else none
  | .get _ _ _ => none

end DiskCall

def lastSet (calls : List DiskCall) (t : DiskTriple) : Option DiskPayload :=
  calls.reverse.findSome? (DiskCall.written t)

/-- The path of the file. -/
def DiskTriple.path (cache_dir : CStr) (t : DiskTriple) : CStr :=
  cache_dir ++ disk_name t.key t.size t.offset

/-- The tree has the files of `m` below the cache directory, and at the path of a key a
directory or nothing. -/
structure DiskTree.Keeps (cache_dir : CStr) (m : DiskTriple → Option Bytes) (tree : DiskTree) :
    Prop where
  files : ∀ t : DiskTriple, tree (t.path cache_dir) = (m t).map DiskNode.file
  dirs : ∀ t : DiskTriple, tree (cache_dir ++ t.key) = none ∨ tree (cache_dir ++ t.key) = some .dir
  inside : ∀ t : DiskTriple, (m t).isSome → tree (cache_dir ++ t.key) = some .dir

section Names

variable {cache_dir : CStr} {t t' : DiskTriple}

theorem DiskTriple.slash_not_mem (t : DiskTriple) : slash ∉ t.key := by
  intro hs
  have := t.key_digits slash hs
  contradiction

theorem DiskTriple.path_inj (h : t.path cache_dir = t'.path cache_dir) : t = t' := by
  have hname : disk_name t.key t.size t.offset = disk_name t'.key t'.size t'.offset :=
    List.append_cancel_left h
  obtain ⟨hkey, hsize, hoffset⟩ := disk_name_inj hname
  cases t
  cases t'
  simp_all

/-- No file is where a directory is. -/
theorem DiskTriple.path_ne : t.path cache_dir ≠ cache_dir ++ t'.key := by
  intro h
  have hname : disk_name t.key t.size t.offset = t'.key := List.append_cancel_left h
  apply t'.slash_not_mem
  rw [← hname, disk_name]
  simp [lit, slash]

theorem printLong_natCast (n : Nat) : Disk.printLong n = decimal n := by
  rw [Disk.printLong, if_neg (by omega), Int.natAbs_natCast]

theorem sprintf_fn_eq (cache_dir : CStr) (t : DiskTriple) :
    Disk.sprintf_fn (cache_dir ++ t.key) t.size t.offset = .ok (t.path cache_dir) := by
  have hsize : s64 t.size = (t.size : Int) := by
    unfold s64
    exact if_pos t.size_lt
  have hsize_len : (decimal t.size).length ≤ 19 :=
    decimal_length (by decide) (Nat.lt_trans t.size_lt (by decide))
  have hoffset_len : (decimal t.offset).length ≤ 19 :=
    decimal_length (by decide) (Nat.lt_trans t.offset_lt (by decide))
  have hslash : (lit "/").length = 1 := rfl
  have hdot : (lit ".").length = 1 := rfl
  have hdat : (lit ".dat").length = 4 := rfl
  unfold Disk.sprintf_fn
  rw [hsize, printLong_natCast, printLong_natCast, if_pos]
  · simp only [DiskTriple.path, disk_name, List.append_assoc]
  · simp only [List.length_append]
    omega

end Names

/-! ## One call -/

section Call

variable {cache_dir : CStr} {m : DiskTriple → Option Bytes} {tree : DiskTree} {t : DiskTriple}

theorem DiskTree.Keeps.mkdir (h : tree.Keeps cache_dir m) (t : DiskTriple) :
    DiskTree.Keeps cache_dir m (Function.update tree (cache_dir ++ t.key) (some .dir)) := by
  have hdir : ∀ t' : DiskTriple, tree (cache_dir ++ t'.key) = some .dir →
      Function.update tree (cache_dir ++ t.key) (some .dir) (cache_dir ++ t'.key) = some .dir := by
    intro t' ht'
    rw [Function.update_apply]
    split
    · rfl
    · exact ht'
  refine ⟨fun t' => ?_, fun t' => ?_, fun t' ht' => hdir t' (h.inside t' ht')⟩
  · rw [Function.update_of_ne DiskTriple.path_ne]
    exact h.files t'
  · rw [Function.update_apply]
    split
    · exact Or.inr rfl
    · exact h.dirs t'

theorem DiskTree.Keeps.write (h : tree.Keeps cache_dir m)
    (hdir : tree (cache_dir ++ t.key) = some .dir) (bytes : Bytes) :
    DiskTree.Keeps cache_dir (Function.update m t (some bytes))
      (Function.update tree (t.path cache_dir) (some (.file bytes))) := by
  have hkey : ∀ t' : DiskTriple,
      Function.update tree (t.path cache_dir) (some (.file bytes)) (cache_dir ++ t'.key) =
        tree (cache_dir ++ t'.key) := fun t' => Function.update_of_ne DiskTriple.path_ne.symm _ _
  refine ⟨fun t' => ?_, fun t' => ?_, fun t' ht' => ?_⟩
  · by_cases ht : t' = t
    · rw [ht, Function.update_self, Function.update_self]
      rfl
    · rw [Function.update_of_ne ht, Function.update_of_ne fun hp => ht (DiskTriple.path_inj hp)]
      exact h.files t'
  · rw [hkey]
    exact h.dirs t'
  · rw [hkey]
    by_cases ht : t' = t
    · rw [ht]
      exact hdir
    · rw [Function.update_of_ne ht] at ht'
      exact h.inside t' ht'

/-- The directory is there, or is made. -/
theorem makePath_apply (h : tree.Keeps cache_dir m) (t : DiskTriple) :
    Disk.makePath (cache_dir ++ t.key) tree =
      (.ok true, Function.update tree (cache_dir ++ t.key) (some .dir)) := by
  show (if (tree (cache_dir ++ t.key)).isNone then _ else _ : Disk Bool) tree = _
  rcases h.dirs t with hnone | hdir
  · have hmkdir : Disk.mkdir (cache_dir ++ t.key) tree =
        (.ok true, Function.update tree (cache_dir ++ t.key) (some .dir)) := by
      show (if (tree (cache_dir ++ t.key)).isNone then _ else _ : Disk Bool) tree = _
      rw [if_pos (by rw [hnone]; rfl)]
      rfl
    rw [if_pos (by rw [hnone]; rfl), hmkdir]
  · have hself : Function.update tree (cache_dir ++ t.key) (some .dir) = tree := by
      rw [← hdir, Function.update_eq_self]
    rw [if_neg (by rw [hdir]; decide), hself]
    rfl

theorem fopen_wb_apply (h : tree.Keeps cache_dir m) (t : DiskTriple) :
    Disk.fopen_wb (t.path cache_dir) tree =
      (.ok true, Function.update tree (t.path cache_dir) (some (.file []))) := by
  have hfile : ¬ tree (t.path cache_dir) = some .dir := by
    rw [h.files]
    cases m t <;> simp
  show (if tree (t.path cache_dir) = some .dir then _ else _ : Disk Bool) tree = _
  rw [if_neg hfile]
  rfl

/-- A payload that can be read is written to the file of its key, size and offset. -/
theorem disk_set_writes (h : tree.Keeps cache_dir m) (t : DiskTriple) (p : DiskPayload) :
    ∃ tree' : DiskTree, Disk.disk_set cache_dir t.key p.payload p.payload_len t.size t.offset tree =
        (.ok 1, tree') ∧
      tree'.Keeps cache_dir (Function.update m t (some p.bytes)) := by
  have hmade := h.mkdir t
  have hdir : Function.update tree (cache_dir ++ t.key) (some DiskNode.dir) (cache_dir ++ t.key) =
      some .dir := Function.update_self _ _ _
  refine ⟨_, ?_, hmade.write hdir p.bytes⟩
  unfold Disk.disk_set
  rw [Exec.bind_of_ok (makePath_apply h t), if_pos rfl]
  show (if Function.update tree (cache_dir ++ t.key) (some DiskNode.dir) (cache_dir ++ t.key) =
    some .dir then _ else _ : Disk Nat) _ = _
  rw [if_pos hdir, Exec.lift_ok_bind (sprintf_fn_eq cache_dir t),
    Exec.bind_of_ok (fopen_wb_apply hmade t), if_pos rfl, Exec.lift_ok_bind p.readable]
  show (Except.ok 1, Function.update (Function.update _ _ _) _ _) = _
  rw [Function.update_idem]

/-- What `disk_get` answers where a file has these bytes, or where there is none. -/
def DiskTriple.found (t : DiskTriple) (payload : Option Bytes) (payload_len : Nat) :
    Option Bytes → Disk.Found
  | none => ⟨0, payload, payload_len⟩
  | some bytes => ⟨1, some (bytes.take t.size), (bytes.take t.size).length⟩

theorem fopen_rb_apply (h : tree.Keeps cache_dir m) (t : DiskTriple) :
    Disk.fopen_rb (t.path cache_dir) tree = (.ok (m t), tree) := by
  have hstat : Disk.stat (t.path cache_dir) tree = (.ok (tree (t.path cache_dir)), tree) := rfl
  unfold Disk.fopen_rb
  rw [Exec.bind_of_ok hstat, h.files]
  cases m t <;> rfl

theorem disk_get_finds (h : tree.Keeps cache_dir m) (t : DiskTriple) (payload : Option Bytes)
    (payload_len : Nat) :
    Disk.disk_get cache_dir t.key payload payload_len t.size t.offset tree =
      (.ok (t.found payload payload_len (m t)), tree) := by
  unfold Disk.disk_get
  show (if (tree (cache_dir ++ t.key)).isNone then _ else _ : Disk Disk.Found) tree = _
  by_cases hnone : tree (cache_dir ++ t.key) = none
  · have hm : m t = none := by
      by_contra hm
      have hdir := h.inside t (Option.isSome_iff_ne_none.mpr hm)
      rw [hnone] at hdir
      cases hdir
    rw [if_pos (by rw [hnone]; rfl), hm]
    rfl
  · rw [if_neg (by simpa using hnone), Exec.lift_ok_bind (sprintf_fn_eq cache_dir t),
      Exec.bind_of_ok (fopen_rb_apply h t)]
    cases m t <;> rfl

end Call

/-! ## The files of the mount -/

section Mount

variable {σ : Type} {cache_dir : CStr} {w : World σ} {tree : DiskTree}

/-- The cache directory has the files of the mount. -/
def World.OnDisk (cache_dir : CStr) (w : World σ) (tree : DiskTree) : Prop :=
  ∃ files, w.L2 = some files ∧
    tree.Keeps cache_dir fun t => files (disk_name t.key t.size t.offset)

theorem disk_set_on_disk (h : w.OnDisk cache_dir tree) (t : DiskTriple) (p : DiskPayload) :
    ∃ (w' : World σ) (tree' : DiskTree),
      disk_set t.key p.payload p.payload_len t.size t.offset w = (.ok (), w') ∧
        Disk.disk_set cache_dir t.key p.payload p.payload_len t.size t.offset tree =
          (.ok 1, tree') ∧
        w'.OnDisk cache_dir tree' := by
  obtain ⟨files, hfiles, hkeeps⟩ := h
  obtain ⟨tree', hset, hkeeps'⟩ := disk_set_writes hkeeps t p
  refine ⟨_, tree', disk_set_written hfiles p.readable _ _ _, hset, _, rfl, ?_⟩
  have hnames : (fun t' : DiskTriple => Function.update files (disk_name t.key t.size t.offset)
      (some p.bytes) (disk_name t'.key t'.size t'.offset)) =
      Function.update (fun t' => files (disk_name t'.key t'.size t'.offset)) t (some p.bytes) := by
    funext t'
    by_cases ht : t' = t
    · rw [ht, Function.update_self, Function.update_self]
    · have hname : disk_name t'.key t'.size t'.offset ≠ disk_name t.key t.size t.offset :=
        fun hname => ht (DiskTriple.path_inj (congrArg (cache_dir ++ ·) hname))
      rw [Function.update_of_ne ht, Function.update_of_ne hname]
  rw [hnames]
  exact hkeeps'

theorem disk_get_on_disk (h : w.OnDisk cache_dir tree) (t : DiskTriple)
    (payload : Option Bytes) (payload_len : Nat) :
    ∃ found : Option Bytes, disk_get t.key t.size t.offset w = (.ok found, w) ∧
      Disk.disk_get cache_dir t.key payload payload_len t.size t.offset tree =
        (.ok (t.found payload payload_len found), tree) := by
  obtain ⟨files, hfiles, hkeeps⟩ := h
  refine ⟨(files (disk_name t.key t.size t.offset)).map (List.take t.size), ?_, ?_⟩
  · unfold disk_get
    rw [Exec.get_bind, hfiles]
    rfl
  · rw [disk_get_finds hkeeps]
    cases files (disk_name t.key t.size t.offset) with
    | none => rfl
    | some bytes =>
      show _ = (Except.ok (⟨1, some ((bytes.take t.size).take t.size), _⟩ : Disk.Found), tree)
      rw [List.take_take, Nat.min_self]
      rfl

end Mount

/-! ## All calls -/

/-- The bytes set last. -/
def lastBytes (calls : List DiskCall) (t : DiskTriple) : Option Bytes :=
  (lastSet calls t).map DiskPayload.bytes

/-- The answer to a lookup where this payload was the last set, or where there was none. -/
def lastFound (payload : Option Bytes) (payload_len : Nat) : Option DiskPayload → Disk.Found
  | none => ⟨0, payload, payload_len⟩
  | some p => ⟨1, some p.bytes, p.payload_len⟩

namespace DiskCall

/-- What the call answers after these calls. -/
def answer (before : List DiskCall) : DiskCall → Nat ⊕ Disk.Found
  | .set _ _ _ => .inl 1
  | .get t payload payload_len => .inr (lastFound payload payload_len (lastSet before t))

def answers (before : List DiskCall) : List DiskCall → List (Nat ⊕ Disk.Found)
  | [] => []
  | c :: calls => c.answer before :: answers (before ++ [c]) calls

end DiskCall

section Calls

variable {cache_dir : CStr} {tree : DiskTree} {before calls : List DiskCall} {t : DiskTriple}

theorem DiskPayload.length_bytes (p : DiskPayload) : p.bytes.length = p.payload_len := by
  have h := p.readable
  unfold readPayload at h
  split at h
  · split at h
    · rw [← Except.ok.inj h, List.length_take, List.length_append, List.length_singleton]
      omega
    · contradiction
  · rw [← Except.ok.inj h, List.length_nil]
    omega
  · contradiction

theorem lastSet_concat (c : DiskCall) :
    lastSet (before ++ [c]) t = (c.written t).or (lastSet before t) := by
  unfold lastSet
  rw [List.reverse_append, List.findSome?_append]
  simp

theorem lastSet_within {p : DiskPayload} (h : lastSet calls t = some p) :
    p.payload_len ≤ t.size := by
  obtain ⟨c, -, hc⟩ := List.exists_of_findSome?_eq_some h
  cases c with
  | set t' p' within =>
    rw [DiskCall.written] at hc
    by_cases ht : t' = t
    · rw [if_pos ht] at hc
      rw [← Option.some.inj hc, ← ht]
      exact within
    · rw [if_neg ht] at hc
      cases hc
  | get t' payload payload_len => cases hc

theorem lastBytes_set (p : DiskPayload) (within : p.payload_len ≤ t.size) :
    lastBytes (before ++ [.set t p within]) =
      Function.update (lastBytes before) t (some p.bytes) := by
  funext t'
  unfold lastBytes
  rw [lastSet_concat, Function.update_apply, DiskCall.written]
  by_cases ht : t = t'
  · rw [if_pos ht, if_pos ht.symm]
    rfl
  · rw [if_neg ht, if_neg (Ne.symm ht)]
    rfl

theorem lastBytes_get (payload : Option Bytes) (payload_len : Nat) :
    lastBytes (before ++ [.get t payload payload_len]) = lastBytes before := by
  funext t'
  unfold lastBytes
  rw [lastSet_concat]
  rfl

/-- Nothing that was set is cut short. -/
theorem found_lastBytes (payload : Option Bytes) (payload_len : Nat) :
    t.found payload payload_len (lastBytes calls t) =
      lastFound payload payload_len (lastSet calls t) := by
  unfold lastBytes
  cases hlast : lastSet calls t with
  | none => rfl
  | some p =>
    have hlen := p.length_bytes
    have hwithin := lastSet_within hlast
    have htake : p.bytes.take t.size = p.bytes := List.take_of_length_le (by omega)
    show (⟨1, some (p.bytes.take t.size), (p.bytes.take t.size).length⟩ : Disk.Found) = _
    rw [htake, hlen]
    rfl

theorem get_finds_last (h : tree.Keeps cache_dir (lastBytes calls)) (t : DiskTriple)
    (payload : Option Bytes) (payload_len : Nat) :
    Disk.disk_get cache_dir t.key payload payload_len t.size t.offset tree =
      (.ok (lastFound payload payload_len (lastSet calls t)), tree) := by
  rw [disk_get_finds h, found_lastBytes]

theorem DiskCall.run_keeps (h : tree.Keeps cache_dir (lastBytes before)) (c : DiskCall) :
    ∃ tree' : DiskTree, c.run cache_dir tree = (.ok (c.answer before), tree') ∧
      tree'.Keeps cache_dir (lastBytes (before ++ [c])) := by
  cases c with
  | set t p within =>
    obtain ⟨tree', hset, hkeeps⟩ := disk_set_writes h t p
    refine ⟨tree', ?_, ?_⟩
    · rw [DiskCall.run, Exec.bind_of_ok hset]
      rfl
    · rw [lastBytes_set]
      exact hkeeps
  | get t payload payload_len =>
    refine ⟨tree, ?_, ?_⟩
    · rw [DiskCall.run, Exec.bind_of_ok (get_finds_last h t payload payload_len)]
      rfl
    · rw [lastBytes_get]
      exact h

theorem runAll_keeps (calls : List DiskCall) (h : tree.Keeps cache_dir (lastBytes before)) :
    ∃ tree' : DiskTree, Exec.runAll (DiskCall.run cache_dir) calls tree =
        (.ok (DiskCall.answers before calls), tree') ∧
      tree'.Keeps cache_dir (lastBytes (before ++ calls)) := by
  induction calls generalizing before tree with
  | nil => exact ⟨tree, rfl, by rw [List.append_nil]; exact h⟩
  | cons c calls ih =>
    obtain ⟨tree', hc, hkeeps⟩ := DiskCall.run_keeps h c
    obtain ⟨tree'', hcalls, hkeeps⟩ := ih hkeeps
    refine ⟨tree'', Exec.runAll_cons_ok hc hcalls, ?_⟩
    rw [List.append_assoc] at hkeeps
    exact hkeeps

theorem keeps_of_empty (h : ∀ name, name ≠ [] → tree (cache_dir ++ name) = none) :
    tree.Keeps cache_dir (lastBytes []) := by
  have hkey : ∀ t : DiskTriple, t.key ≠ [] := fun t hnil => by
    have hlen := t.key_length
    rw [hnil] at hlen
    cases hlen
  refine ⟨fun t => h _ ?_, fun t => Or.inl (h _ (hkey t)), fun t ht => nomatch ht⟩
  unfold disk_name
  simp [hkey t]

end Calls

/-- From an empty cache directory every call answers what the last `disk_set` of its key,
size and offset says it should, and so does a lookup at the end; a `disk_set` of another
does not change it. -/
theorem disk_get_returns_last_set (cache_dir : CStr) (tree : DiskTree)
    (hempty : ∀ name, name ≠ [] → tree (cache_dir ++ name) = none) (calls : List DiskCall) :
    ∃ tree' : DiskTree, Exec.runAll (DiskCall.run cache_dir) calls tree =
        (.ok (DiskCall.answers [] calls), tree') ∧
      ∀ (t : DiskTriple) (payload : Option Bytes) (payload_len : Nat),
        Disk.disk_get cache_dir t.key payload payload_len t.size t.offset tree' =
            (.ok (lastFound payload payload_len (lastSet calls t)), tree') ∧
          ∀ (t' : DiskTriple) (p : DiskPayload), t' ≠ t → p.payload_len ≤ t'.size →
            ∃ tree'' : DiskTree,
              Disk.disk_set cache_dir t'.key p.payload p.payload_len t'.size t'.offset tree' =
                (.ok 1, tree'') ∧
              Disk.disk_get cache_dir t.key payload payload_len t.size t.offset tree'' =
                (.ok (lastFound payload payload_len (lastSet calls t)), tree'') := by
  obtain ⟨tree', hrun, hkeeps⟩ := runAll_keeps calls (keeps_of_empty hempty)
  rw [List.nil_append] at hkeeps
  refine ⟨tree', hrun, fun t payload payload_len =>
    ⟨get_finds_last hkeeps t payload payload_len, fun t' p hne within => ?_⟩⟩
  obtain ⟨tree'', hset, hkeeps''⟩ := disk_set_writes hkeeps t' p
  refine ⟨tree'', hset, ?_⟩
  rw [disk_get_finds hkeeps'', Function.update_of_ne (Ne.symm hne), found_lastBytes]

/-- A cache directory, and nothing else. -/
def newCache : DiskTree := Function.update (fun _ => none) (lit "/cache/") (some .dir)

theorem newCache_empty : ∀ name, name ≠ [] → newCache (lit "/cache/" ++ name) = none := by
  intro name hname
  apply Function.update_of_ne
  simpa using hname

def cachedBlock : DiskTriple where
  key := List.replicate 32 97
  size := 4096
  offset := 0
  key_length := rfl
  key_digits := by
    intro b hb
    rw [List.eq_of_mem_replicate hb]
    rfl
  size_lt := by decide
  offset_lt := by decide

def payloadOf (bytes : Bytes) : DiskPayload where
  payload := some ⟨bytes, none⟩
  payload_len := bytes.length
  bytes := bytes
  readable := readPayload_length rfl

/-- A shorter payload over a longer one. -/
theorem disk_get_returns_last_set_shorter :
    ∃ tree' : DiskTree, Exec.runAll (DiskCall.run (lit "/cache/"))
        [.get cachedBlock none 7, .set cachedBlock (payloadOf [1, 2, 3]) (by decide),
          .set cachedBlock (payloadOf [4]) (by decide), .get cachedBlock none 7] newCache =
      (.ok [.inr ⟨0, none, 7⟩, .inl 1, .inl 1, .inr ⟨1, some [4], 1⟩], tree') :=
  have ⟨tree', hrun, _⟩ := disk_get_returns_last_set (lit "/cache/") newCache newCache_empty _
  ⟨tree', hrun⟩

end SiaFS
