/-
The L2 cache when file operations fail.

A disk that is full or cannot be reached makes any of the file operations fail in any call,
and `fwrite` and `fread` come to less than they were asked for.  `disk_set` answers 1 as
soon as the file is open, so that a file may hold only the first bytes of what it is kept
for.  A lookup then finds these, and never anything else; and once nothing fails any more,
what is set is found again.
-/
import SiaFS.Cache.DiskMap

namespace SiaFS

/-- How the file operations of one call go: whether they succeed, and how many bytes come
through. -/
structure DiskLuck where
  stat : Bool
  stat_again : Bool
  mkdir : Bool
  fopen : Bool
  fwrite : Nat
  fread : Nat

namespace DiskLuck

variable (l : DiskLuck)

/-- A `stat` that fails finds nothing. -/
def statPath (succeeds : Bool) (path : CStr) : Disk (Option DiskNode) :=
  if succeeds then Disk.stat path else pure none

def mkdirPath (path : CStr) : Disk Bool := if l.mkdir then Disk.mkdir path else pure false

def makePath (full_path : CStr) : Disk Bool := do
  let st ← statPath l.stat full_path
  if st.isNone then l.mkdirPath full_path else pure true

def fopen_wb (fn : CStr) : Disk Bool := if l.fopen then Disk.fopen_wb fn else pure false

def fopen_rb (fn : CStr) : Disk (Option Bytes) :=
  if l.fopen then Disk.fopen_rb fn else pure none

def disk_set (cache_dir key : CStr) (payload : Option Body) (payload_len size : Nat)
    (offset : Int) : Disk Nat := do
  let full_path := cache_dir ++ key
  let made ← l.makePath full_path
  if made then
    let st ← statPath l.stat_again full_path
    if st = some .dir then
      let fn ← Exec.lift (Disk.sprintf_fn full_path size offset)
      let f ← l.fopen_wb fn
      if f then
        let bytes ← Exec.lift (readPayload payload payload_len)
        -- neither `fwrite` nor `fclose` is asked how it went
        Disk.fwrite fn (bytes.take l.fwrite)
        pure 1
      else pure 0
    else pure 0
  else pure 0

def disk_get (cache_dir key : CStr) (payload : Option Bytes) (payload_len size : Nat)
    (offset : Int) : Disk Disk.Found := do
  let full_path := cache_dir ++ key
  let st ← statPath l.stat full_path
  if st.isNone then pure ⟨0, payload, payload_len⟩
  else
    let fn ← Exec.lift (Disk.sprintf_fn full_path size offset)
    let f ← l.fopen_rb fn
    match f with
    | none => pure ⟨0, payload, payload_len⟩
    | some bytes =>
      let got := (bytes.take size).take l.fread
      pure ⟨1, some got, got.length⟩

/-- Nothing fails, and `n` bytes come through. -/
structure Good (n : Nat) : Prop where
  stat : l.stat = true
  stat_again : l.stat_again = true
  mkdir : l.mkdir = true
  fopen : l.fopen = true
  fwrite : n ≤ l.fwrite
  fread : n ≤ l.fread

end DiskLuck

/-! ## Runs -/

def DiskLuck.run (cache_dir : CStr) (x : DiskLuck × DiskCall) : Disk (Nat ⊕ Disk.Found) :=
  match x.2 with
  | .set t p _ => do
    let answer ← x.1.disk_set cache_dir t.key p.payload p.payload_len t.size t.offset
    pure (.inl answer)
  | .get t payload payload_len => do
    let found ← x.1.disk_get cache_dir t.key payload payload_len t.size t.offset
    pure (.inr found)

/-- A call, how it went, and its answer. -/
structure DiskRecord where
  luck : DiskLuck
  call : DiskCall
  answer : Nat ⊕ Disk.Found

/-- What came through of what the call set, when it answered 1. -/
def DiskRecord.stored (t : DiskTriple) (x : DiskRecord) : Option Bytes :=
  if x.answer.getLeft? = some 1 then (x.call.written t).map fun p => p.bytes.take x.luck.fwrite
  else none

/-- What came through of the last `disk_set` that answered 1. -/
def lastStored (before : List DiskRecord) (t : DiskTriple) : Option Bytes :=
  before.reverse.findSome? (DiskRecord.stored t)

/-- What a lookup answers where these bytes came through, or where none did. -/
def DiskLuck.found (l : DiskLuck) (payload : Option Bytes) (payload_len : Nat)
    (stored : Option Bytes) : Disk.Found :=
  if l.stat ∧ l.fopen then
    stored.elim ⟨0, payload, payload_len⟩ fun bytes =>
      ⟨1, some (bytes.take l.fread), (bytes.take l.fread).length⟩
  else ⟨0, payload, payload_len⟩

/-- The answer after these calls: a `disk_set` answers 0 only when something fails. -/
def DiskRecord.Follows (before : List DiskRecord) (x : DiskRecord) : Prop :=
  match x.call with
  | .set _ _ _ => x.answer = .inl 1 ∨ x.answer = .inl 0 ∧ ¬ x.luck.Good 0
  | .get t payload payload_len =>
    x.answer = .inr (x.luck.found payload payload_len (lastStored before t))

def AllFollow (before : List DiskRecord) : List DiskRecord → Prop
  | [] => True
  | x :: records => x.Follows before ∧ AllFollow (before ++ [x]) records

/-! ## When nothing fails -/

namespace DiskLuck.Good

variable {l : DiskLuck} {size : Nat}

theorem makePath (h : l.Good size) (full_path : CStr) :
    l.makePath full_path = Disk.makePath full_path := by
  unfold DiskLuck.makePath DiskLuck.statPath DiskLuck.mkdirPath
  rw [if_pos h.stat, if_pos h.mkdir]
  rfl

theorem disk_set (h : l.Good size) (p : DiskPayload) (within : p.payload_len ≤ size)
    (cache_dir key : CStr) (offset : Int) :
    l.disk_set cache_dir key p.payload p.payload_len size offset =
      Disk.disk_set cache_dir key p.payload p.payload_len size offset := by
  have hall : p.bytes.take l.fwrite = p.bytes :=
    List.take_of_length_le (p.length_bytes.trans_le (within.trans h.fwrite))
  have hread : ∀ f : Bytes → Disk Nat,
      Exec.lift (readPayload p.payload p.payload_len) >>= f = f p.bytes := fun f =>
    funext fun tree => Exec.lift_ok_bind p.readable f tree
  unfold DiskLuck.disk_set Disk.disk_set DiskLuck.statPath DiskLuck.fopen_wb
  simp only [h.makePath, h.stat_again, h.fopen, if_true, hread, hall]

theorem disk_get (h : l.Good size) (cache_dir key : CStr) (payload : Option Bytes)
    (payload_len : Nat) (offset : Int) :
    l.disk_get cache_dir key payload payload_len size offset =
      Disk.disk_get cache_dir key payload payload_len size offset := by
  have hall : ∀ bytes : Bytes, (bytes.take size).take l.fread = bytes.take size := fun bytes =>
    List.take_of_length_le ((List.length_take_le _ _).trans h.fread)
  unfold DiskLuck.disk_get Disk.disk_get DiskLuck.statPath DiskLuck.fopen_rb
  simp only [h.stat, h.fopen, if_true]
  refine congrArg (_ >>= ·) (funext fun st => ?_)
  by_cases hnone : st.isNone = true
  · rw [if_pos hnone, if_pos hnone]
  · rw [if_neg hnone, if_neg hnone]
    refine congrArg (_ >>= ·) (funext fun fn => congrArg (_ >>= ·) (funext fun f => ?_))
    cases f with
    | none => rfl
    | some bytes =>
      exact congrArg (fun got : Bytes => (pure ⟨1, some got, got.length⟩ : Disk Disk.Found))
        (hall bytes)

end DiskLuck.Good

/-! ## One call -/

section Call

variable {cache_dir : CStr} {m : DiskTriple → Option Bytes} {tree : DiskTree} {l : DiskLuck}

theorem DiskLuck.statPath_apply (succeeds : Bool) (path : CStr) (tree : DiskTree) :
    DiskLuck.statPath succeeds path tree = (.ok (if succeeds then tree path else none), tree) := by
  unfold DiskLuck.statPath
  cases succeeds <;> rfl

theorem DiskLuck.mkdirPath_keeps (h : tree.Keeps cache_dir m) (t : DiskTriple) :
    ∃ (made : Bool) (tree' : DiskTree),
      l.mkdirPath (cache_dir ++ t.key) tree = (.ok made, tree') ∧ tree'.Keeps cache_dir m ∧
        (tree (cache_dir ++ t.key) = none → l.mkdir = true →
          made = true ∧ tree' (cache_dir ++ t.key) = some .dir) := by
  unfold DiskLuck.mkdirPath Disk.mkdir
  by_cases hluck : l.mkdir = true
  · rw [if_pos hluck]
    show ∃ made tree', (if (tree (cache_dir ++ t.key)).isNone then _ else _ : Disk Bool) tree =
      (.ok made, tree') ∧ _
    by_cases hnone : (tree (cache_dir ++ t.key)).isNone
    · rw [if_pos hnone]
      exact ⟨true, _, rfl, h.mkdir t, fun _ _ => ⟨rfl, Function.update_self _ _ _⟩⟩
    · rw [if_neg hnone]
      exact ⟨false, tree, rfl, h, fun hnone' => absurd (by rw [hnone']; rfl) hnone⟩
  · rw [if_neg hluck]
    exact ⟨false, tree, rfl, h, fun _ hgood => absurd hgood hluck⟩

theorem DiskLuck.makePath_keeps (h : tree.Keeps cache_dir m) (t : DiskTriple) :
    ∃ (made : Bool) (tree' : DiskTree),
      l.makePath (cache_dir ++ t.key) tree = (.ok made, tree') ∧ tree'.Keeps cache_dir m ∧
        (l.Good 0 → made = true ∧ tree' (cache_dir ++ t.key) = some .dir) := by
  obtain ⟨made, tree', hmkdir, hkeeps, hmade⟩ := DiskLuck.mkdirPath_keeps (l := l) h t
  unfold DiskLuck.makePath
  rw [Exec.bind_of_ok (DiskLuck.statPath_apply _ _ _)]
  by_cases hnone : (if l.stat then tree (cache_dir ++ t.key) else none).isNone = true
  · rw [if_pos hnone]
    refine ⟨made, tree', hmkdir, hkeeps, fun hgood => hmade ?_ hgood.mkdir⟩
    rwa [if_pos hgood.stat, Option.isNone_iff_eq_none] at hnone
  · rw [if_neg hnone]
    refine ⟨true, tree, rfl, h, fun hgood => ⟨rfl, (h.dirs t).resolve_left fun hnone' => hnone ?_⟩⟩
    rw [if_pos hgood.stat, hnone']
    rfl

/-- A `disk_set` leaves the files as they were and answers 0, or keeps what comes through. -/
theorem DiskLuck.disk_set_keeps (h : tree.Keeps cache_dir m) (t : DiskTriple) (p : DiskPayload) :
    ∃ (answer : Nat) (tree' : DiskTree),
      l.disk_set cache_dir t.key p.payload p.payload_len t.size t.offset tree =
          (.ok answer, tree') ∧
        (answer = 1 ∧ tree'.Keeps cache_dir (Function.update m t (some (p.bytes.take l.fwrite))) ∨
          answer = 0 ∧ ¬ l.Good 0 ∧ tree'.Keeps cache_dir m) := by
  obtain ⟨made, tree', hmade, hkeeps, hgood⟩ := DiskLuck.makePath_keeps (l := l) h t
  unfold DiskLuck.disk_set
  rw [Exec.bind_of_ok hmade]
  by_cases htrue : made = true
  · rw [if_pos htrue, Exec.bind_of_ok (DiskLuck.statPath_apply _ _ _)]
    by_cases hst : (if l.stat_again then tree' (cache_dir ++ t.key) else none) = some .dir
    · -- the second `stat` has seen the directory
      have hdir : tree' (cache_dir ++ t.key) = some .dir := by
        split at hst
        · exact hst
        · cases hst
      rw [if_pos hst, Exec.lift_ok_bind (sprintf_fn_eq cache_dir t)]
      unfold DiskLuck.fopen_wb
      by_cases hfopen : l.fopen = true
      · refine ⟨1, _, ?_, Or.inl ⟨rfl, hkeeps.write hdir (p.bytes.take l.fwrite)⟩⟩
        rw [if_pos hfopen, Exec.bind_of_ok (fopen_wb_apply hkeeps t), if_pos rfl,
          Exec.lift_ok_bind p.readable]
        show (Except.ok 1, Function.update (Function.update _ _ _) _ _) = _
        rw [Function.update_idem]
      · rw [if_neg hfopen]
        exact ⟨0, tree', rfl, Or.inr ⟨rfl, fun hall => hfopen hall.fopen, hkeeps⟩⟩
    · rw [if_neg hst]
      refine ⟨0, tree', rfl, Or.inr ⟨rfl, fun hall => hst ?_, hkeeps⟩⟩
      rw [if_pos hall.stat_again]
      exact (hgood hall).2
  · rw [if_neg htrue]
    exact ⟨0, tree', rfl, Or.inr ⟨rfl, fun hall => htrue (hgood hall).1, hkeeps⟩⟩

/-- A lookup finds what comes through of the file, and changes nothing. -/
theorem DiskLuck.disk_get_found (h : tree.Keeps cache_dir m)
    (hwithin : ∀ t bytes, m t = some bytes → bytes.length ≤ t.size) (t : DiskTriple)
    (payload : Option Bytes) (payload_len : Nat) :
    l.disk_get cache_dir t.key payload payload_len t.size t.offset tree =
      (.ok (l.found payload payload_len (m t)), tree) := by
  unfold DiskLuck.disk_get DiskLuck.found
  rw [Exec.bind_of_ok (DiskLuck.statPath_apply _ _ _)]
  by_cases hstat : l.stat = true
  · rw [if_pos hstat]
    by_cases hnone : tree (cache_dir ++ t.key) = none
    · -- no directory, so no file
      have hm : m t = none := by
        by_contra hm
        have hdir := h.inside t (Option.isSome_iff_ne_none.mpr hm)
        rw [hnone] at hdir
        cases hdir
      rw [if_pos (by rw [hnone]; rfl), hm, Option.elim_none, ite_self]
      rfl
    · rw [if_neg (by simpa using hnone), Exec.lift_ok_bind (sprintf_fn_eq cache_dir t)]
      unfold DiskLuck.fopen_rb
      by_cases hfopen : l.fopen = true
      · rw [if_pos hfopen, Exec.bind_of_ok (fopen_rb_apply h t), if_pos ⟨hstat, hfopen⟩]
        cases hm : m t with
        | none => rfl
        | some bytes =>
          show (Except.ok (⟨1, some ((bytes.take t.size).take l.fread), _⟩ : Disk.Found), tree) = _
          rw [List.take_of_length_le (hwithin t bytes hm)]
          rfl
      · rw [if_neg hfopen, if_neg fun hboth => hfopen hboth.2]
        rfl
  · rw [if_neg hstat, if_pos Option.isNone_none, if_neg fun hboth => hstat hboth.1]
    rfl

end Call

/-! ## All calls -/

section Calls

variable {cache_dir : CStr} {tree : DiskTree} {before records : List DiskRecord} {t : DiskTriple}

theorem lastStored_concat (x : DiskRecord) :
    lastStored (before ++ [x]) t = (x.stored t).or (lastStored before t) := by
  unfold lastStored
  rw [List.reverse_append, List.findSome?_append]
  simp

theorem lastStored_set (l : DiskLuck) (p : DiskPayload) (within : p.payload_len ≤ t.size) :
    lastStored (before ++ [⟨l, .set t p within, .inl 1⟩]) =
      Function.update (lastStored before) t (some (p.bytes.take l.fwrite)) := by
  funext t'
  have hstored : DiskRecord.stored t' ⟨l, .set t p within, .inl 1⟩ =
      ((DiskCall.set t p within).written t').map fun p => p.bytes.take l.fwrite := if_pos rfl
  rw [lastStored_concat, hstored, Function.update_apply, DiskCall.written]
  by_cases ht : t = t'
  · rw [if_pos ht, if_pos ht.symm]
    rfl
  · rw [if_neg ht, if_neg (Ne.symm ht)]
    rfl

theorem lastStored_other {x : DiskRecord} (h : ∀ t, x.stored t = none) :
    lastStored (before ++ [x]) = lastStored before := by
  funext t'
  rw [lastStored_concat, h, Option.none_or]

theorem lastStored_within {bytes : Bytes} (h : lastStored records t = some bytes) :
    bytes.length ≤ t.size := by
  obtain ⟨x, -, hx⟩ := List.exists_of_findSome?_eq_some h
  unfold DiskRecord.stored at hx
  split at hx
  · obtain ⟨p, hp, rfl⟩ := Option.map_eq_some_iff.mp hx
    have hlen : (p.bytes.take x.luck.fwrite).length ≤ p.payload_len := by
      rw [← p.length_bytes]
      exact List.length_take_le' _ _
    have hlast : lastSet [x.call] t = some p := by
      rw [lastSet, List.reverse_singleton, List.findSome?_singleton, hp]
    exact hlen.trans (lastSet_within hlast)
  · cases hx

/-- The step lemma: whatever fails, the files are those that came through. -/
theorem DiskLuck.run_keeps (h : tree.Keeps cache_dir (lastStored before)) (l : DiskLuck)
    (c : DiskCall) :
    ∃ (answer : Nat ⊕ Disk.Found) (tree' : DiskTree),
      DiskLuck.run cache_dir (l, c) tree = (.ok answer, tree') ∧
        DiskRecord.Follows before ⟨l, c, answer⟩ ∧
        tree'.Keeps cache_dir (lastStored (before ++ [⟨l, c, answer⟩])) := by
  cases c with
  | set t p within =>
    obtain ⟨answer, tree', hset, hcases⟩ := DiskLuck.disk_set_keeps (l := l) h t p
    refine ⟨.inl answer, tree', Exec.bind_of_ok hset, ?_⟩
    rcases hcases with ⟨rfl, hkeeps⟩ | ⟨rfl, hbad, hkeeps⟩
    · rw [lastStored_set]
      exact ⟨Or.inl rfl, hkeeps⟩
    · rw [lastStored_other fun _ => rfl]
      exact ⟨Or.inr ⟨rfl, hbad⟩, hkeeps⟩
  | get t payload payload_len =>
    refine ⟨_, tree, Exec.bind_of_ok (DiskLuck.disk_get_found h (fun _ _ => lastStored_within) t
      payload payload_len), rfl, ?_⟩
    rw [lastStored_other fun _ => rfl]
    exact h

theorem DiskLuck.runAll_keeps (calls : List (DiskLuck × DiskCall))
    (h : tree.Keeps cache_dir (lastStored before)) :
    ∃ (records : List DiskRecord) (tree' : DiskTree),
      records.map (fun x => (x.luck, x.call)) = calls ∧
        Exec.runAll (DiskLuck.run cache_dir) calls tree =
          (.ok (records.map DiskRecord.answer), tree') ∧
        AllFollow before records ∧ tree'.Keeps cache_dir (lastStored (before ++ records)) := by
  induction calls generalizing before tree with
  | nil => exact ⟨[], tree, rfl, rfl, trivial, by rw [List.append_nil]; exact h⟩
  | cons c calls ih =>
    obtain ⟨answer, tree', hc, hfollows, hkeeps⟩ := DiskLuck.run_keeps h c.1 c.2
    obtain ⟨records, tree'', rfl, hcalls, hall, hkeeps'⟩ := ih hkeeps
    refine ⟨⟨c.1, c.2, answer⟩ :: records, tree'', rfl, Exec.runAll_cons_ok hc hcalls,
      ⟨hfollows, hall⟩, ?_⟩
    rw [List.append_assoc] at hkeeps'
    exact hkeeps'

/-- When nothing fails, what is set is found. -/
theorem DiskLuck.set_then_get (h : tree.Keeps cache_dir (lastStored records)) (p : DiskPayload)
    {l l' : DiskLuck} (within : p.payload_len ≤ t.size) (hset : l.Good t.size)
    (hget : l'.Good t.size) :
    ∃ tree' : DiskTree,
      l.disk_set cache_dir t.key p.payload p.payload_len t.size t.offset tree = (.ok 1, tree') ∧
        ∀ (payload : Option Bytes) (payload_len : Nat),
          l'.disk_get cache_dir t.key payload payload_len t.size t.offset tree' =
            (.ok ⟨1, some p.bytes, p.payload_len⟩, tree') := by
  have hlen := p.length_bytes
  obtain ⟨tree', hwrites, hkeeps⟩ := disk_set_writes h t p
  refine ⟨tree', ?_, fun payload payload_len => ?_⟩
  · rw [hset.disk_set p within, hwrites]
  · have htake : p.bytes.take t.size = p.bytes := List.take_of_length_le (hlen.trans_le within)
    rw [hget.disk_get, disk_get_finds hkeeps, Function.update_self, DiskTriple.found, htake, hlen]

end Calls

/-- Whatever fails from an empty cache directory on, every lookup answers with the first
bytes of what was set last, or finds nothing; and when nothing fails any more, what is set
is found. -/
theorem lookups_survive_failures (cache_dir : CStr) (tree : DiskTree)
    (hempty : ∀ name, name ≠ [] → tree (cache_dir ++ name) = none)
    (calls : List (DiskLuck × DiskCall)) :
    ∃ (records : List DiskRecord) (tree' : DiskTree),
      records.map (fun x => (x.luck, x.call)) = calls ∧
        Exec.runAll (DiskLuck.run cache_dir) calls tree =
          (.ok (records.map DiskRecord.answer), tree') ∧
        AllFollow [] records ∧
        ∀ (t : DiskTriple) (p : DiskPayload) (l l' : DiskLuck), p.payload_len ≤ t.size →
          l.Good t.size → l'.Good t.size →
          ∃ tree'' : DiskTree,
            l.disk_set cache_dir t.key p.payload p.payload_len t.size t.offset tree' =
                (.ok 1, tree'') ∧
              ∀ (payload : Option Bytes) (payload_len : Nat),
                l'.disk_get cache_dir t.key payload payload_len t.size t.offset tree'' =
                  (.ok ⟨1, some p.bytes, p.payload_len⟩, tree'') := by
  have hnone : tree.Keeps cache_dir (lastStored []) := keeps_of_empty hempty
  obtain ⟨records, tree', hcalls, hrun, hall, hkeeps⟩ := DiskLuck.runAll_keeps calls hnone
  exact ⟨records, tree', hcalls, hrun, hall, fun t p l l' within hset hget =>
    DiskLuck.set_then_get hkeeps p within hset hget⟩

/-! ## A disk that is full -/

/-- Everything succeeds, and `n` bytes come through. -/
def luckOf (n : Nat) : DiskLuck := ⟨true, true, true, true, n, n⟩

theorem luckOf_good {m n : Nat} (h : n ≤ m) : (luckOf m).Good n := ⟨rfl, rfl, rfl, rfl, h, h⟩

/-- Two bytes of three are kept, which the next lookup takes for the whole; then there is
space again. -/
theorem lookups_survive_failures_full :
    ∃ (records : List DiskRecord) (tree' tree'' : DiskTree),
      records.map DiskRecord.answer = [.inl 1, .inr ⟨1, some [1, 2], 2⟩] ∧
        AllFollow [] records ∧
        (luckOf 4096).disk_set (lit "/cache/") cachedBlock.key (payloadOf [1, 2, 3]).payload 3 4096
          0 tree' = (.ok 1, tree'') ∧
        (luckOf 4096).disk_get (lit "/cache/") cachedBlock.key none 7 4096 0 tree'' =
          (.ok ⟨1, some [1, 2, 3], 3⟩, tree'') := by
  obtain ⟨records, tree', -, hrun, hall, hlater⟩ :=
    lookups_survive_failures (lit "/cache/") newCache newCache_empty
      [(luckOf 2, .set cachedBlock (payloadOf [1, 2, 3]) (by decide)),
        (luckOf 4096, .get cachedBlock none 7)]
  have hgood : (luckOf 4096).Good cachedBlock.size := luckOf_good (Nat.le_refl _)
  obtain ⟨tree'', hset, hget⟩ :=
    hlater cachedBlock (payloadOf [1, 2, 3]) _ _ (by decide) hgood hgood
  exact ⟨records, tree', tree'', (Except.ok.inj (congrArg Prod.fst hrun)).symm, hall, hset,
    hget none 7⟩

end SiaFS
