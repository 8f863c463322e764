/-
Sizes, from the number in a reply to the range of a read and the free space of the
file system.

cJSON keeps a number twice, as a `double` and cut to the range of `int`, and the
program reads the second.  A size from `2 ^ 31` on is reported, added up and kept
too small.  `sias_statfs` subtracts the sum from a statistic that knows nothing of
it.
-/
import Mathlib.Data.Int.ModEq
import SiaFS.Cache.Files
import SiaFS.Cache.Flush
import SiaFS.Common.Metacache
import SiaFS.Lib.Folds

namespace SiaFS

open Json Folds

variable {σ : Type} (e : Env σ)

/-! ## The functions -/

/-- One turn of the loop over the entries.  `opt.verbose` prints the name. -/
def addEntry (answer : Nat) (entry : Json) : Except Fault Nat :=
  if cJSON_IsObject entry then
    match (cJSON_GetObjectItemCaseSensitive entry (lit "size")).bind number? with
    | some size =>
      if e.verbose ∧ (cJSON_GetObjectItemCaseSensitive entry (lit "name")).isNone then
        .error .nullPointer
      else .ok (u64 (answer + size))
    | none => .ok answer
  else .ok answer

/-- The loop. -/
def usedStorage (entries : List Json) : Except Fault Nat := entries.foldlM (addEntry e) 0

def sia_bus_used_storage_per_directory (path : CStr) : Sia σ Nat := do
  let json_payload ← sia_bus_objects_json e path
  Exec.lift (usedStorage e (listedEntries json_payload))

/-- What is done in floating point: `strtof`, with the rest of the text, and the product
with a unit, as an `unsigned long long`. -/
structure Floats where
  Value : Type
  strtof : CStr → Value × CStr
  scale : Nat → Value → UInt64

/-- The unit, which the text after the number has one character before. -/
def storageUnit : CStr → Except Fault Nat
  | [] => .error .outOfBounds
  | _ :: text =>
    if text = lit "PB" then .ok 1000000000000000
    else if text = lit "TB" then .ok 1000000000000
    else if text = lit "GB" then .ok 1000000000
    else if text = lit "MB" then .ok 1000000
    else if text = lit "kB" then .ok 1000
    else .ok 1

/-- `sia_stats_totalStorage`, with the reply of `https://sia.tech/api/stats`. -/
def sia_stats_totalStorage (f : Floats) (reply : Reply) : Sia σ Nat := do
  let json_payload ← sia_stats_json e reply
  match ((cJSON_Parse json_payload).bind
      (cJSON_GetObjectItemCaseSensitive · (lit "totalStorage"))).bind valuestring with
  | some totalStorage => do
    let m ← Exec.lift (storageUnit (f.strtof totalStorage).2)
    pure (f.scale m (f.strtof totalStorage).1).toNat
  | none => pure 0

structure Statvfs where
  f_bsize : Nat
  f_blocks : Nat
  f_bfree : Nat
  f_bavail : Nat
  f_files : Nat
  f_ffree : Nat
  f_namemax : Nat

/-- `sias_statfs`, which returns the same for every path. -/
def sias_statfs (f : Floats) (reply : Reply) : Sia σ Statvfs := do
  let used ← sia_bus_used_storage_per_directory e (lit "/")
  let blocks ← sia_stats_totalStorage e f reply
  pure { f_bsize := 1, f_blocks := blocks, f_bfree := u64 (blocks - used),
         f_bavail := u64 (blocks - used), f_files := 1, f_ffree := 1, f_namemax := 250 }

/-! ## The sum of the sizes -/

/-- A number cut to the range of `int`. -/
def cutInt (n : Int) : Int := max (-2 ^ 31) (min n (2 ^ 31 - 1))

/-- The size of an entry that has one. -/
def entrySize (entry : Json) : Option Int :=
  match cJSON_GetObjectItemCaseSensitive entry (lit "size") with
  | some (.num n) => some n
  | _ => none

def entrySizes (entries : List Json) : List Int := entries.filterMap entrySize

/-- Every entry that is added up has a name, when names are printed. -/
def Printable (entries : List Json) : Prop :=
  e.verbose = true → ∀ entry ∈ entries, (entrySize entry).isSome →
    (cJSON_GetObjectItemCaseSensitive entry (lit "name")).isSome

/-- One turn of the loop over an entry that can be printed. -/
def countEntry (answer : Nat) (entry : Json) : Nat :=
  match entrySize entry with
  | some n => u64 (answer + cutInt n)
  | none => answer

theorem u64_lt (n : Int) : u64 n < 2 ^ 64 := by
  unfold u64
  omega

theorem u64_add (a b : Int) : u64 (u64 a + b) = u64 (a + b) := by
  unfold u64
  omega

section Sums

variable {e} {entries : List Json} {entry : Json}

theorem addEntry_eq (answer : Nat) : addEntry e answer entry =
    match entrySize entry with
    | some n =>
      if e.verbose ∧ (cJSON_GetObjectItemCaseSensitive entry (lit "name")).isNone then
        .error .nullPointer
      else .ok (u64 (answer + cutInt n))
    | none => .ok answer := by
  have hobj : cJSON_IsObject entry = false → entrySize entry = none := by
    cases entry <;> simp [cJSON_IsObject, entrySize, cJSON_GetObjectItemCaseSensitive]
  rw [addEntry]
  cases hb : cJSON_IsObject entry with
  | false => rw [hobj hb, if_neg Bool.false_ne_true]
  | true =>
    rw [if_pos rfl, entrySize]
    cases cJSON_GetObjectItemCaseSensitive entry (lit "size") with
    | none => rfl
    | some size => cases size <;> rfl

/-- An entry is added up unless a name that is printed is missing. -/
theorem addEntry_iff (answer next : Nat) : addEntry e answer entry = .ok next ↔
    (e.verbose = true → (entrySize entry).isSome →
      (cJSON_GetObjectItemCaseSensitive entry (lit "name")).isSome) ∧
      next = countEntry answer entry := by
  rw [addEntry_eq, countEntry]
  cases entrySize entry with
  | none => simp [eq_comm (a := next)]
  | some n =>
    cases e.verbose <;> cases cJSON_GetObjectItemCaseSensitive entry (lit "name") <;>
      simp [eq_comm (a := next)]

/-- The sum of the sizes, from a value on. -/
theorem foldl_countEntry {answer : Nat} (hanswer : answer < 2 ^ 64) :
    entries.foldl countEntry answer = u64 (answer + ((entrySizes entries).map cutInt).sum) := by
  induction entries generalizing answer with
  | nil =>
    show answer = u64 (answer + 0)
    rw [Int.add_zero, u64_of_lt hanswer]
  | cons entry entries ih =>
    rw [List.foldl_cons, countEntry]
    cases hsize : entrySize entry with
    | none =>
      rw [entrySizes, List.filterMap_cons_none hsize]
      exact ih hanswer
    | some n =>
      rw [entrySizes, List.filterMap_cons_some hsize, List.map_cons, List.sum_cons,
        ← Int.add_assoc, ← u64_add (answer + cutInt n)]
      exact ih (u64_lt _)

/-- The sum, when it can be printed. -/
theorem usedStorage_eq (h : Printable e entries) :
    usedStorage e entries = .ok (u64 ((entrySizes entries).map cutInt).sum) := by
  have hstep : ∀ entry ∈ entries, ∀ answer,
      addEntry e answer entry = .ok (countEntry answer entry) := fun entry hentry answer =>
    (addEntry_iff answer _).mpr ⟨fun hverbose => h hverbose entry hentry, rfl⟩
  rw [usedStorage, foldlM_eq_ok hstep, foldl_countEntry (by decide), Int.natCast_zero,
    Int.zero_add]

theorem printable_of_usedStorage {used : Nat} (h : usedStorage e entries = .ok used) :
    Printable e entries := by
  intro hverbose
  exact forall_of_foldlM_ok
    (fun answer entry next hstep => ((addEntry_iff answer next).mp hstep).1 hverbose) h

/-- A directory is added up unless a name that is printed is missing. -/
theorem usedStorage_iff (used : Nat) : usedStorage e entries = .ok used ↔
    Printable e entries ∧ used = u64 ((entrySizes entries).map cutInt).sum := by
  constructor
  · intro h
    have hprint := printable_of_usedStorage h
    rw [usedStorage_eq hprint] at h
    cases h
    exact ⟨hprint, rfl⟩
  · rintro ⟨hprint, rfl⟩
    exact usedStorage_eq hprint

/-- Sizes from zero on are cut to less, or to as much when none reaches the end of the
range. -/
theorem sum_cutInt {sizes : List Int} (h : ∀ n ∈ sizes, 0 ≤ n) :
    0 ≤ (sizes.map cutInt).sum ∧ (sizes.map cutInt).sum ≤ sizes.sum ∧
      ((sizes.map cutInt).sum = sizes.sum ↔ ∀ n ∈ sizes, n < 2 ^ 31) := by
  induction sizes with
  | nil => simp
  | cons n sizes ih =>
    obtain ⟨hn, hrest⟩ := List.forall_mem_cons.mp h
    obtain ⟨hpos, hle, hiff⟩ := ih hrest
    have hcut : 0 ≤ cutInt n ∧ cutInt n ≤ n ∧ (cutInt n = n ↔ n < 2 ^ 31) := by
      unfold cutInt
      omega
    rw [List.map_cons, List.sum_cons, List.sum_cons, List.forall_mem_cons, ← hiff, ← hcut.2.2]
    omega

end Sums

/-! ## One size -/

/-- The reply about an object, and its entry in a listing, give the size as a number. -/
structure ReportsSize (payload : Option Body) (item : Json) (s : Nat) : Prop where
  reply : objectField payload (lit "size") = some (.num s)
  size : cJSON_GetObjectItemCaseSensitive item (lit "size") = some (.num s)
  name : ∃ name, name ≠ [] ∧
    cJSON_GetObjectItemCaseSensitive item (lit "name") = some (.str name)
  modTime : ∃ modTime,
    cJSON_GetObjectItemCaseSensitive item (lit "modTime") = some (.str modTime)

/-- The size is reported as it is, counted as it is, kept as it is, and a read asks for
the part of the range that the object has. -/
structure SizeKept (w : World σ) (path : CStr) (item : Json) (s size offset : Nat) : Prop where
  object : (sia_bus_object_size e path w).1 = .ok s
  share : ∀ before after used, usedStorage e (before ++ after) = .ok used →
    usedStorage e (before ++ item :: after) = .ok (u64 (used + s))
  node : ∃ node, build_meta_node_from_json e.host w.now item = .ok (some node) ∧ node.size = s
  range : offset < s → ∃ reply, (sia_bus_objects_json e path w).2.trace ++
      [(.worker_get path offset ((min (offset + size) s : Nat) - 1), reply)] <+:
    (sia_worker_get_object e path size offset w).2.trace

section Sizes

variable {e} {w w₁ : World σ} {path : CStr} {payload : Option Body} {item : Json}
  {s n size offset : Nat}

theorem ReportsSize.replySize (h : ReportsSize payload item s) :
    replySize payload = u64 (cutInt s) := by
  rw [SiaFS.replySize, h.reply]
  rfl

theorem usedStorage_insert (h : ReportsSize payload item s) {before after : List Json} {used : Nat}
    (hused : usedStorage e (before ++ after) = .ok used) :
    usedStorage e (before ++ item :: after) = .ok (u64 (used + cutInt s)) := by
  obtain ⟨hprint, rfl⟩ := (usedStorage_iff used).mp hused
  have hsize : entrySize item = some (s : Int) := by rw [entrySize, h.size]
  obtain ⟨name, -, hname⟩ := h.name
  have hmore : Printable e (before ++ item :: after) := by
    intro hverbose entry hentry hsome
    rcases List.mem_append.mp hentry with hentry | hentry
    · exact hprint hverbose entry (List.mem_append_left _ hentry) hsome
    · rcases List.mem_cons.mp hentry with rfl | hentry
      · rw [hname]
        rfl
      · exact hprint hverbose entry (List.mem_append_right _ hentry) hsome
  rw [usedStorage_eq hmore, u64_add]
  congr 2
  unfold entrySizes
  simp only [List.filterMap_append, List.filterMap_cons_some hsize, List.map_append, List.map_cons,
    List.sum_append, List.sum_cons]
  omega

theorem build_meta_node_size (h : ReportsSize payload item s) (host : Host) (now : Nat) :
    ∃ node, build_meta_node_from_json host now item = .ok (some node) ∧
      node.size = u64 (cutInt s) := by
  obtain ⟨name, hne, hname⟩ := h.name
  obtain ⟨modTime, htime⟩ := h.modTime
  have htype : ∃ type, metaType name (u64 (valueint (.num s))) = .ok type := by
    rw [metaType, if_neg hne]
    split
    · exact ⟨_, rfl⟩
    · split <;> exact ⟨_, rfl⟩
  obtain ⟨type, htype⟩ := htype
  rw [build_meta_node_from_json, hname, h.size, htime]
  dsimp only
  rw [htype]
  exact ⟨_, rfl, rfl⟩

/-- After the size is known, the range is asked for, and nothing but lookups follow. -/
theorem get_object_sends (hmiss : cachedFile e w path size offset = none)
    (hsize : sia_bus_object_size e path w = (.ok n, w₁)) :
    Asks e Request.IsRead (sendAll e [rangeRequest path size offset n] w₁)
      (sia_worker_get_object e path size offset w).2 := by
  rw [get_object_miss hmiss hsize, Exec.bind_of_ok (send_apply e _ w₁)]
  split
  · refine (Exec.keeps_bind (Exec.keeps_lift _) fun value => ?_) _
    refine Exec.keeps_bind (Exec.keeps_bind (keeps_objects_json path) fun _ =>
      Exec.keeps_pure _) fun etag => ?_
    cases etag with
    | some etag => exact Exec.keeps_bind (keeps_disk_set _ _ _ _ _) fun _ => Exec.keeps_pure _
    | none => exact Exec.keeps_pure _
  · exact Std.Refl.refl _

/-- The last byte asked for, in the trace. -/
theorem range_iff (hmiss : cachedFile e w path size offset = none)
    (hsize : sia_bus_object_size e path w = (.ok n, w₁)) (last : Int) :
    (∃ reply, w₁.trace ++ [(.worker_get path offset last, reply)] <+:
      (sia_worker_get_object e path size offset w).2.trace) ↔
      s64 (rangeEnd size offset n) = last := by
  obtain ⟨t, ht, -⟩ := (get_object_sends hmiss hsize).trace_eq
  have hsent : w₁.trace ++ [(rangeRequest path size offset n,
      (e.server w₁.server (rangeRequest path size offset n)).1)] <+:
      (sia_worker_get_object e path size offset w).2.trace := ⟨t, ht.symm⟩
  constructor
  · rintro ⟨reply, hpre⟩
    have heq := (List.prefix_of_prefix_length_le hpre hsent (by simp)).eq_of_length (by simp)
    have hpair := List.append_cancel_left heq
    cases hpair
    rfl
  · rintro rfl
    exact ⟨_, hsent⟩

theorem rangeEnd_exact_iff (hs : s < 2 ^ 31) (hoffset : offset < s) (hsize : 1 ≤ size)
    (hsize64 : size < 2 ^ 64) :
    s64 (rangeEnd size offset s) = (min (offset + size) s : Nat) - 1 ↔
      offset + size ≤ 2 ^ 64 := by
  unfold rangeEnd u64 s64
  dsimp only
  split <;> split <;> omega

end Sizes

/-- Sizes below `2 ^ 53` come through exactly when they are below `2 ^ 31`, and the last
byte of a read is right when its end is no more than `2 ^ 64`. -/
theorem sizes_kept_iff (e : Env σ) :
    (∀ w w₁ path payload item s size offset,
      sia_bus_objects_json e path w = (.ok payload, w₁) → ReportsSize payload item s →
      s < 2 ^ 53 → cachedFile e w path size offset = none → 1 ≤ size → size < 2 ^ 64 →
        (SizeKept e w path item s size offset ↔
          s < 2 ^ 31 ∧ (offset < s → offset + size ≤ 2 ^ 64))) ∧
      ∀ w w₁ path payload, sia_bus_objects_json e path w = (.ok payload, w₁) →
        (∀ n ∈ entrySizes (listedEntries payload), 0 ≤ n ∧ n < 2 ^ 53) →
        (entrySizes (listedEntries payload)).sum < 2 ^ 64 →
          ((sia_bus_used_storage_per_directory e path w).1 =
              .ok (entrySizes (listedEntries payload)).sum.toNat ↔
            Printable e (listedEntries payload) ∧
              ∀ n ∈ entrySizes (listedEntries payload), n < 2 ^ 31) := by
  constructor
  · intro w w₁ path payload item s size offset hjson hreport hs hmiss hsize hsize64
    have hobject := object_size_of_json hjson
    rw [hreport.replySize] at hobject
    have hcut : u64 (cutInt s) = s ↔ s < 2 ^ 31 := by
      unfold u64 cutInt
      omega
    constructor
    · intro h
      have hkept := h.object
      rw [hobject] at hkept
      have hs31 := hcut.mp (Except.ok.inj hkept)
      refine ⟨hs31, fun hoffset => ?_⟩
      have hrange := h.range hoffset
      rw [hjson, range_iff hmiss hobject, hcut.mpr hs31] at hrange
      exact (rangeEnd_exact_iff hs31 hoffset hsize hsize64).mp hrange
    · rintro ⟨hs31, hend⟩
      have hexact := hcut.mpr hs31
      have hcutInt : cutInt s = s := by
        unfold cutInt
        omega
      refine ⟨?_, fun before after used hused => ?_, ?_, fun hoffset => ?_⟩
      · rw [hobject, hexact]
      · rw [usedStorage_insert hreport hused, hcutInt]
      · obtain ⟨node, hnode, hnodesize⟩ := build_meta_node_size hreport e.host w.now
        exact ⟨node, hnode, hnodesize.trans hexact⟩
      · rw [hjson, range_iff hmiss hobject, hexact]
        exact (rangeEnd_exact_iff hs31 hoffset hsize hsize64).mpr (hend hoffset)
  · intro w w₁ path payload hjson hsizes hsum
    obtain ⟨hpos, hle, hiff⟩ := sum_cutInt fun n hn => (hsizes n hn).1
    rw [sia_bus_used_storage_per_directory, Exec.bind_of_ok hjson]
    show usedStorage e (listedEntries payload) = _ ↔ _
    rw [usedStorage_iff, ← hiff]
    refine and_congr_right fun _ => ?_
    unfold u64
    omega

/-- A listed object and a reply about it, with this size. -/
def sizedJson (s : Int) : Json :=
  .obj [(lit "name", .str (lit "/a")), (lit "size", .num s),
    (lit "modTime", .str (lit "2024-01-01T00:00:00Z"))]

def sizedReply (s : Int) : Reply :=
  jsonReply (.obj [(lit "object", sizedJson s), (lit "entries", .arr [sizedJson s])])

/-- A mount of a server that answers so to every request. -/
def sizedMount (s : Int) : Env Unit := mountOf .fuse3 true fun u _ => (sizedReply s, u)

theorem sizedReply_reports (s : Nat) : ReportsSize (sizedReply s).body (sizedJson s) s :=
  ⟨rfl, rfl, ⟨lit "/a", by decide, rfl⟩, ⟨_, rfl⟩⟩

theorem sizes_kept_small :
    SizeKept (sizedMount 7) (mounted () none) (lit "/a") (sizedJson 7) 7 4096 3 ∧
      (sia_bus_used_storage_per_directory (sizedMount 7) (lit "/") (mounted () none)).1 =
        .ok 7 := by
  obtain ⟨hone, hsum⟩ := sizes_kept_iff (sizedMount 7)
  refine ⟨(hone (mounted () none) _ (lit "/a") _ _ 7 4096 3 rfl (sizedReply_reports 7) (by decide)
    rfl (by decide) (by decide)).mpr (by decide), ?_⟩
  exact (hsum (mounted () none) _ (lit "/") _ rfl (by decide) (by decide)).mpr
    ⟨nofun, by decide⟩

/-- An object of `2 ^ 31` bytes is a byte short, and its last byte is asked for with a range
that ends before it begins. -/
theorem size_cut :
    ReportsSize (sizedReply (2 ^ 31 : Nat)).body (sizedJson (2 ^ 31 : Nat)) (2 ^ 31) ∧
      (sia_bus_object_size (sizedMount (2 ^ 31 : Nat)) (lit "/a") (mounted () none)).1 =
        .ok 2147483647 ∧
      (sia_bus_used_storage_per_directory (sizedMount (2 ^ 31 : Nat)) (lit "/")
        (mounted () none)).1 = .ok 2147483647 ∧
      (sia_worker_get_object (sizedMount (2 ^ 31 : Nat)) (lit "/a") 1 2147483647
        (mounted () none)).2.trace =
        [(.objects (lit "/a"), sizedReply (2 ^ 31 : Nat)),
          (.worker_get (lit "/a") 2147483647 2147483646, sizedReply (2 ^ 31 : Nat))] :=
  ⟨sizedReply_reports _, rfl, rfl, rfl⟩

/-! ## The free space -/

/-- What is used and what is free make up the whole. -/
def Statvfs.Balanced (st : Statvfs) (used : Int) : Prop :=
  st.f_bavail = st.f_bfree ∧ st.f_bfree ≤ st.f_blocks ∧
    (st.f_blocks : Int) - st.f_bfree = min used st.f_blocks

section Statfs

variable {e} {f : Floats} {reply : Reply} {w w₁ w₂ : World σ} {payload : Option Body}
  {total : Nat}

theorem totalStorage_lt (h : sia_stats_totalStorage e f reply w = (.ok total, w₁)) :
    total < 2 ^ 64 := by
  obtain ⟨json_payload, w', -, h⟩ := Exec.bind_eq_ok h
  cases htext : ((cJSON_Parse json_payload).bind
      (cJSON_GetObjectItemCaseSensitive · (lit "totalStorage"))).bind valuestring with
  | some totalStorage =>
    rw [htext] at h
    obtain ⟨m, w'', -, h⟩ := Exec.bind_eq_ok h
    cases h
    exact UInt64.toNat_lt _
  | none =>
    rw [htext] at h
    cases h
    decide

/-- The difference is right when nothing is subtracted that is not there. -/
theorem balanced_iff {used : Nat} (hused : used < 2 ^ 64) (htotal : total < 2 ^ 64) (U : Int) :
    (u64 (total - used) ≤ total ∧ (total : Int) - u64 (total - used) = min U total) ↔
      (used : Int) = min U total := by
  unfold u64
  omega

theorem statfs_apply (hentries : sia_bus_objects_json e (lit "/") w = (.ok payload, w₁))
    (htotal : sia_stats_totalStorage e f reply w₁ = (.ok total, w₂)) :
    (sias_statfs e f reply w).1 = (usedStorage e (listedEntries payload)).map fun used =>
      { f_bsize := 1, f_blocks := total, f_bfree := u64 (total - used),
        f_bavail := u64 (total - used), f_files := 1, f_ffree := 1, f_namemax := 250 } := by
  have hused : sia_bus_used_storage_per_directory e (lit "/") w =
      (usedStorage e (listedEntries payload), w₁) := by
    rw [sia_bus_used_storage_per_directory, Exec.bind_of_ok hentries]
    rfl
  rw [sias_statfs]
  cases hres : usedStorage e (listedEntries payload) with
  | error x =>
    rw [hres] at hused
    rw [Exec.bind_of_error hused]
    rfl
  | ok used =>
    rw [hres] at hused
    rw [Exec.bind_of_ok hused, Exec.bind_of_ok htotal]
    rfl

end Statfs

/-- The free space is right when the sizes come to no more than the total and are counted
as they are, or when the sizes as they are counted come to the total. -/
theorem statfs_balanced_iff (e : Env σ) (f : Floats) (reply : Reply) {w w₁ w₂ : World σ}
    {payload : Option Body} {total : Nat}
    (hentries : sia_bus_objects_json e (lit "/") w = (.ok payload, w₁))
    (htotal : sia_stats_totalStorage e f reply w₁ = (.ok total, w₂)) {sizes : List Int}
    (hsizes : entrySizes (listedEntries payload) = sizes) :
    ((∃ st, (sias_statfs e f reply w).1 = .ok st ∧ st.Balanced sizes.sum) ↔
      Printable e (listedEntries payload) ∧
        ((0 ≤ sizes.sum ∧ sizes.sum ≤ total ∧
            (sizes.map cutInt).sum ≡ sizes.sum [ZMOD 2 ^ 64]) ∨
          (total ≤ sizes.sum ∧ (sizes.map cutInt).sum ≡ total [ZMOD 2 ^ 64]))) ∧
    ((∀ n ∈ sizes, 0 ≤ n) →
      ((∃ st, (sias_statfs e f reply w).1 = .ok st ∧ st.Balanced sizes.sum) ↔
        Printable e (listedEntries payload) ∧
          (((∀ n ∈ sizes, n < 2 ^ 31) ∧ sizes.sum ≤ total) ∨
            (sizes.map cutInt).sum ≡ total [ZMOD 2 ^ 64]))) := by
  have hlt := totalStorage_lt htotal
  have hmain : (∃ st, (sias_statfs e f reply w).1 = .ok st ∧ st.Balanced sizes.sum) ↔
      Printable e (listedEntries payload) ∧
        ((u64 (sizes.map cutInt).sum : Nat) : Int) = min sizes.sum total := by
    rw [statfs_apply hentries htotal]
    constructor
    · rintro ⟨st, hst, -, hfree, hbalance⟩
      obtain ⟨used, hused, rfl⟩ : ∃ used, usedStorage e (listedEntries payload) = .ok used ∧ _ := by
        cases hres : usedStorage e (listedEntries payload) with
        | error x =>
          rw [hres] at hst
          cases hst
        | ok used =>
          rw [hres] at hst
          exact ⟨used, rfl, Except.ok.inj hst⟩
      obtain ⟨hprint, rfl⟩ := (usedStorage_iff used).mp hused
      rw [hsizes] at hfree hbalance
      exact ⟨hprint, (balanced_iff (u64_lt _) hlt _).mp ⟨hfree, hbalance⟩⟩
    · rintro ⟨hprint, hused⟩
      rw [usedStorage_eq hprint, hsizes]
      exact ⟨_, rfl, rfl, (balanced_iff (u64_lt _) hlt _).mpr hused⟩
  refine ⟨hmain.trans (and_congr_right fun _ => ?_), fun hpos => hmain.trans
    (and_congr_right fun _ => ?_)⟩
  · unfold Int.ModEq u64
    omega
  · obtain ⟨hpos, hle, hiff⟩ := sum_cutInt hpos
    rw [← hiff]
    unfold Int.ModEq u64
    omega

/-- Numbers without a fraction, followed by a unit. -/
def wholeFloats : Floats where
  Value := Nat
  strtof text := (leadingNumber text, text.dropWhile fun b => 48 ≤ b ∧ b ≤ 57)
  scale m value := (m * value).toUInt64

/-- The reply with the statistics. -/
def statsReply (text : CStr) : Reply := jsonReply (.obj [(lit "totalStorage", .str text)])

theorem statfs_balanced_small :
    ∃ st, (sias_statfs (sizedMount 7) wholeFloats (statsReply (lit "2 kB")) (mounted () none)).1 =
      .ok st ∧ st.Balanced 7 := by
  have htotal : sia_stats_totalStorage (sizedMount 7) wholeFloats (statsReply (lit "2 kB"))
      (sia_bus_objects_json (sizedMount 7) (lit "/") (mounted () none)).2 = (.ok 2000,
      (sia_bus_objects_json (sizedMount 7) (lit "/") (mounted () none)).2) := rfl
  exact (statfs_balanced_iff _ _ _ rfl htotal (show _ = [7] from rfl)).1.mpr
    ⟨nofun, Or.inl (by decide)⟩

/-- Without the statistics a file of five bytes leaves nearly `2 ^ 64` blocks free. -/
theorem free_wraps :
    ∃ st, (sias_statfs (sizedMount 5) wholeFloats (plainReply 503 []) (mounted () none)).1 =
      .ok st ∧ st.f_blocks = 0 ∧ st.f_bfree = 18446744073709551611 ∧ ¬ st.Balanced 5 := by
  refine ⟨_, rfl, rfl, rfl, fun h => ?_⟩
  exact absurd h.2.1 (by decide)

end SiaFS
