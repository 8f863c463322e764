/-
The keys of the caches as the program computes them.

`disk_key` and `mc_key` hash a text with `md5String` and print the digest with `%02x`.  A
key is 32 hexadecimal digits that nothing but the digest of the text decides, and the files
of the mount are those that the calls of `disk_cache.c` leave below the cache directory
under such keys.
-/
import SiaFS.Backend.Renterd
import SiaFS.Cache.DiskMap
import SiaFS.Cache.Lookups
import SiaFS.Common.Md5

namespace SiaFS

open MD5 Md5

/-! ## The keys -/

/-- A digit of `%x`. -/
def hexDigitLower (n : Nat) : UInt8 := if n < 10 then 48 + n.toUInt8 else 87 + n.toUInt8

/-- `%02x` -/
def hexByte (b : UInt8) : CStr := [hexDigitLower (b.toNat / 16), hexDigitLower (b.toNat % 16)]

/-- The digest of a text, printed; `none` when the hashing does not end. -/
def printedHash (fuel : Nat) (ctx : MD5Context) (k : CStr) : Option CStr :=
  (md5String fuel ctx k).map (List.flatMap hexByte)

namespace Keys

def disk_key (fuel : Nat) (ctx : MD5Context) (path : CStr) : Option CStr :=
  printedHash fuel ctx path

/-- `extra` is a null pointer or a string. -/
def mc_key (fuel : Nat) (ctx : MD5Context) (endpoint path : CStr) (extra : Option CStr) :
    Option CStr :=
  match extra with
  | some extra => printedHash fuel ctx (extra ++ lit "::" ++ endpoint ++ lit "::" ++ path)
  | none => printedHash fuel ctx (endpoint ++ lit "::" ++ path)

end Keys

/-- The hash of the C library is that of the program. -/
def Host.Hashes (host : Host) : Prop :=
  ∀ k ctx fuel, k.length < 2 ^ 32 → k.length < fuel → 64 < fuel →
    printedHash fuel ctx k = some (host.md5 k)

theorem hexValue_hexDigitLower : ∀ n < 16, Percent.hexValue (hexDigitLower n) = some n := by decide

theorem hexByte_injective : Function.Injective hexByte := by
  intro b c h
  have hb : b.toNat < 256 := b.toNat_lt
  have hc : c.toNat < 256 := c.toNat_lt
  simp only [hexByte, List.cons.injEq, and_true] at h
  have hdigit : ∀ {m n : Nat}, m < 16 → n < 16 → hexDigitLower m = hexDigitLower n → m = n := by
    intro m n hm hn heq
    have := congrArg Percent.hexValue heq
    rw [hexValue_hexDigitLower m hm, hexValue_hexDigitLower n hn] at this
    exact Option.some.inj this
  have hhigh := hdigit (by omega) (by omega) h.1
  have hlow := hdigit (by omega) (by omega) h.2
  exact UInt8.toNat_inj.mp (by omega)

theorem flatMap_hexByte_injective : Function.Injective (List.flatMap hexByte) := by
  intro bs cs h
  induction bs generalizing cs with
  | nil =>
    cases cs with
    | nil => rfl
    | cons c cs => cases h
  | cons b bs ih =>
    cases cs with
    | nil => cases h
    | cons c cs =>
      obtain ⟨hhead, htail⟩ := List.append_inj (show hexByte b ++ bs.flatMap hexByte =
        hexByte c ++ cs.flatMap hexByte from h) rfl
      rw [hexByte_injective hhead, ih htail]

theorem length_digest (message : Bytes) : (digest constants message).length = 16 := rfl

theorem length_flatMap_hexByte (bs : Bytes) : (bs.flatMap hexByte).length = 2 * bs.length := by
  induction bs with
  | nil => rfl
  | cons b bs ih =>
    show (hexByte b ++ bs.flatMap hexByte).length = _
    rw [List.length_append, ih, List.length_cons]
    show 2 + _ = _
    omega

theorem hexValue_flatMap_hexByte {bs : Bytes} {b : UInt8} (h : b ∈ bs.flatMap hexByte) :
    (Percent.hexValue b).isSome := by
  obtain ⟨c, -, hb⟩ := List.mem_flatMap.mp h
  have hc : c.toNat < 256 := c.toNat_lt
  simp only [hexByte, List.mem_cons, List.not_mem_nil, or_false] at hb
  rcases hb with rfl | rfl
  · rw [hexValue_hexDigitLower _ (by omega)]
    rfl
  · rw [hexValue_hexDigitLower _ (by omega)]
    rfl

theorem printedHash_eq {k : CStr} {fuel : Nat} (h32 : k.length < 2 ^ 32) (hk : k.length < fuel)
    (hfuel : 64 < fuel) (ctx : MD5Context) :
    printedHash fuel ctx k = some ((digest constants k).flatMap hexByte) := by
  rw [printedHash, md5String_eq ctx hfuel h32 hk]
  rfl

theorem Host.Hashes.md5_eq {host : Host} (h : host.Hashes) {k : CStr} (h32 : k.length < 2 ^ 32) :
    host.md5 k = (digest constants k).flatMap hexByte := by
  have ctx : MD5Context := ⟨0, #v[0, 0, 0, 0], Vector.replicate 64 0, Vector.replicate 16 0⟩
  have hkey := h k ctx (k.length + 65) h32 (by omega) (by omega)
  rw [printedHash_eq h32 (by omega) (by omega)] at hkey
  exact (Option.some.inj hkey).symm

/-- Every text that the counter of `md5Update` can measure has a key of 32 hexadecimal
digits, whatever was in the context, and two texts have the same key exactly when they have
the same digest. -/
theorem keys_printed {k : CStr} {fuel : Nat} (ctx : MD5Context) (h32 : k.length < 2 ^ 32)
    (hk : k.length < fuel) (hfuel : 64 < fuel) :
    ∃ key, printedHash fuel ctx k = some key ∧ key.length = 32 ∧
      (∀ b ∈ key, (Percent.hexValue b).isSome) ∧
      ∀ k' fuel' ctx', k'.length < 2 ^ 32 → k'.length < fuel' → 64 < fuel' →
        (printedHash fuel' ctx' k' = some key ↔ digest constants k' = digest constants k) := by
  refine ⟨_, printedHash_eq h32 hk hfuel ctx, ?_, fun b hb => hexValue_flatMap_hexByte hb,
    fun k' fuel' ctx' h32' hk' hfuel' => ?_⟩
  · rw [length_flatMap_hexByte, length_digest]
  · rw [printedHash_eq h32' hk' hfuel' ctx', Option.some.injEq]
    exact flatMap_hexByte_injective.eq_iff

theorem keys_printed_path : ∃ key, printedHash 65 staleContext (lit "/a") = some key ∧
    key.length = 32 ∧ (∀ b ∈ key, (Percent.hexValue b).isSome) ∧
    ∀ k' fuel' ctx', k'.length < 2 ^ 32 → k'.length < fuel' → 64 < fuel' →
      (printedHash fuel' ctx' k' = some key ↔
        digest constants k' = digest constants (lit "/a")) :=
  keys_printed staleContext (by decide) (by decide) (by decide)

/-! ## A mount that hashes -/

/-- A C library whose hash is that of the program. -/
def hashingHost : Host := { plainHost with md5 := fun k => (digest constants k).flatMap hexByte }

theorem hashingHost_hashes : hashingHost.Hashes :=
  fun _ ctx _ h32 hk hfuel => printedHash_eq h32 hk hfuel ctx

abbrev hashingMount : Env Store := { hugeMount with host := hashingHost }

/-- The paths of a directory and of a file, with and without the slash. -/
def hashedPaths : List CStr := [lit "/d", lit "/d/", lit "/f", lit "/f/"]

/-- The strings that are hashed for them. -/
def hashedTexts : List CStr :=
  hashedPaths.flatMap fun path => [path, (Lookup.object path).text, (Lookup.list path).text]

/-- MD5 does not collide on these. -/
theorem hashedTexts_nodup : (hashedTexts.map hashingHost.md5).Nodup := by decide +kernel

theorem hashingHost_injOn : Set.InjOn hashingHost.md5 {s | s ∈ hashedTexts} :=
  fun _ hs _ hs' h => List.inj_on_of_nodup_map hashedTexts_nodup hs hs' h

theorem mem_hashedTexts {path text : CStr} (hpath : path ∈ hashedPaths)
    (h : text = path ∨ text = (Lookup.object path).text ∨ text = (Lookup.list path).text) :
    text ∈ hashedTexts := by
  refine List.mem_flatMap.mpr ⟨path, hpath, ?_⟩
  simpa using h

theorem keyed_hashingMount : Keyed hashingMount (· ∈ hashedPaths) where
  withSlash := by decide
  md5 := hashingHost_injOn.mono (by
    rintro _ ⟨l, hl, rfl⟩
    cases l with
    | object path => exact mem_hashedTexts hl (Or.inr (Or.inl rfl))
    | list path => exact mem_hashedTexts hl (Or.inr (Or.inr rfl)))

/-! ## The files under the keys -/

/-- A call of `disk_set` or `disk_get` for a path. -/
inductive FileCall
  | set (path : CStr) (p : DiskPayload) (size offset : Nat)
  | get (path : CStr) (size offset : Nat) (payload : Option Bytes) (payload_len : Nat)

namespace FileCall

/-- The path, the size and the offset of the call. -/
def place : FileCall → CStr × Nat × Nat
  | set path _ size offset => (path, size, offset)
  | get path size offset _ _ => (path, size, offset)

/-- The call can be made: the path and the numbers fit their types. -/
def Fits (c : FileCall) : Prop :=
  c.place.1.length < 2 ^ 32 ∧ c.place.2.1 < 2 ^ 63 ∧ c.place.2.2 < 2 ^ 63

/-- The call on the files of the mount. -/
def run {σ : Type} (e : Env σ) : FileCall → Sia σ (Option Bytes)
  | set path p size offset => do
    SiaFS.disk_set (SiaFS.disk_key e path) p.payload p.payload_len size offset
    pure none
  | get path size offset _ _ => SiaFS.disk_get (SiaFS.disk_key e path) size offset

/-- The call on the file system. -/
def runDisk {σ : Type} (e : Env σ) (cache_dir : CStr) : FileCall → Disk (Nat ⊕ Disk.Found)
  | set path p size offset => do
    let answer ← Disk.disk_set cache_dir (SiaFS.disk_key e path) p.payload p.payload_len size offset
    pure (.inl answer)
  | get path size offset payload payload_len => do
    let found ← Disk.disk_get cache_dir (SiaFS.disk_key e path) payload payload_len size offset
    pure (.inr found)

/-- What the file system answers when the mount has `found` for the call: a file is written,
or read up to the size asked for, or the variables of the caller are left alone. -/
def answer (found : Option Bytes) : FileCall → Nat ⊕ Disk.Found
  | set _ _ _ _ => .inl 1
  | get _ size _ payload payload_len =>
    match found with
    | none => .inr ⟨0, payload, payload_len⟩
    | some bytes => .inr ⟨1, some (bytes.take size), (bytes.take size).length⟩

end FileCall

section Files

variable {σ : Type} {e : Env σ} {cache_dir : CStr} {w : World σ} {tree : DiskTree}

/-- The key, the size and the offset of a path. -/
def tripleOf (hH : e.host.Hashes) {path : CStr} {size offset : Nat} (h32 : path.length < 2 ^ 32)
    (hsize : size < 2 ^ 63) (hoffset : offset < 2 ^ 63) : DiskTriple where
  key := SiaFS.disk_key e path
  size := size
  offset := offset
  key_length := by
    rw [SiaFS.disk_key, hH.md5_eq h32, length_flatMap_hexByte, length_digest]
  key_digits b hb := by
    rw [SiaFS.disk_key, hH.md5_eq h32] at hb
    exact hexValue_flatMap_hexByte hb
  size_lt := hsize
  offset_lt := hoffset

/-- A call answers on the file system what it answers on the files of the mount, and leaves
the two the same. -/
theorem FileCall.run_on_disk (hH : e.host.Hashes) (h : w.OnDisk cache_dir tree) {c : FileCall}
    (hc : c.Fits) :
    ∃ (found : Option Bytes) (w' : World σ) (tree' : DiskTree), c.run e w = (.ok found, w') ∧
      c.runDisk e cache_dir tree = (.ok (c.answer found), tree') ∧ w'.OnDisk cache_dir tree' := by
  obtain ⟨h32, hsize, hoffset⟩ := hc
  cases c with
  | set path p size offset =>
    obtain ⟨w', tree', hset, hdisk, hon⟩ := disk_set_on_disk h (tripleOf hH h32 hsize hoffset) p
    exact ⟨none, w', tree', Exec.bind_of_ok hset, Exec.bind_of_ok hdisk, hon⟩
  | get path size offset payload payload_len =>
    obtain ⟨found, hget, hdisk⟩ :=
      disk_get_on_disk h (tripleOf hH h32 hsize hoffset) payload payload_len
    refine ⟨found, w, tree, hget, (Exec.bind_of_ok hdisk).trans ?_, h⟩
    cases found <;> rfl

/-- Every sequence of calls for paths answers on the file system, under the keys that the
program computes, what it answers on the files of the mount. -/
theorem files_mirrored (hH : e.host.Hashes) (h : w.OnDisk cache_dir tree) {calls : List FileCall}
    (hcalls : ∀ c ∈ calls, c.Fits) :
    ∃ (founds : List (Option Bytes)) (w' : World σ) (tree' : DiskTree),
      Exec.runAll (FileCall.run e) calls w = (.ok founds, w') ∧
      Exec.runAll (FileCall.runDisk e cache_dir) calls tree =
        (.ok (List.zipWith FileCall.answer founds calls), tree') ∧
      w'.OnDisk cache_dir tree' := by
  induction calls generalizing w tree with
  | nil => exact ⟨[], w, tree, rfl, rfl, h⟩
  | cons c calls ih =>
    obtain ⟨found, w₁, tree₁, hrun, hdisk, h₁⟩ := FileCall.run_on_disk hH h
      (hcalls c List.mem_cons_self)
    obtain ⟨founds, w₂, tree₂, hruns, hdisks, h₂⟩ := ih h₁ fun c hc =>
      hcalls c (List.mem_cons_of_mem _ hc)
    exact ⟨found :: founds, w₂, tree₂, Exec.runAll_cons_ok hrun hruns,
      Exec.runAll_cons_ok hdisk hdisks, h₂⟩

end Files

/-- A file is kept, read back in part, and missed under another path. -/
theorem files_mirrored_missed :
    ∃ (founds : List (Option Bytes)) (w' : World Store) (tree' : DiskTree),
    Exec.runAll (FileCall.run hashingMount)
      [.set (lit "/a") (payloadOf [1, 2, 3]) 3 0, .get (lit "/a") 3 0 none 0,
        .get (lit "/b") 3 0 none 0]
      { mounted Store.blank none with L2 := some fun _ => none } = (.ok founds, w') ∧
    Exec.runAll (FileCall.runDisk hashingMount (lit "/cache/"))
      [.set (lit "/a") (payloadOf [1, 2, 3]) 3 0, .get (lit "/a") 3 0 none 0,
        .get (lit "/b") 3 0 none 0] newCache =
      (.ok (List.zipWith FileCall.answer founds
        [.set (lit "/a") (payloadOf [1, 2, 3]) 3 0, .get (lit "/a") 3 0 none 0,
          .get (lit "/b") 3 0 none 0]), tree') ∧
    w'.OnDisk (lit "/cache/") tree' := by
  refine files_mirrored hashingHost_hashes ⟨_, rfl, keeps_of_empty newCache_empty⟩ fun c hc => ?_
  simp only [List.mem_cons, List.not_mem_nil, or_false] at hc
  rcases hc with rfl | rfl | rfl <;> exact ⟨by decide, by decide, by decide⟩

end SiaFS
