/-
The files of the L2 cache and what a read makes of them.

A read that finds its file returns the bytes in it.  Otherwise it asks for the
size of the object, clamps the range it then asks for, and leaves what it got in
the file.
-/
import Mathlib.Data.Set.Function
import SiaFS.Common.Decimal
import SiaFS.Reads

namespace SiaFS

variable {σ : Type}

/-! ## Names of files -/

/-- The name of a file tells the key, the size and the offset. -/
theorem disk_name_inj {key key' : CStr} {size size' offset offset' : Nat}
    (h : disk_name key size offset = disk_name key' size' offset') :
    key = key' ∧ size = size' ∧ offset = offset' := by
  have hform : ∀ (k : CStr) (s o : Nat), disk_name k s o =
      k ++ slash :: (decimal s ++ 46 :: decimal o ++ lit ".dat") := by
    intro k s o
    simp [disk_name, lit, slash]
  have hslash : ∀ s o, slash ∉ decimal s ++ 46 :: decimal o ++ lit ".dat" := by
    intro s o
    have hdigits : ∀ n, slash ∉ decimal n := not_mem_decimal (by decide)
    have hdot : slash ≠ 46 := by decide
    have hdat : slash ∉ lit ".dat" := by decide
    simp only [List.mem_append, List.mem_cons, not_or]
    exact ⟨⟨hdigits s, hdot, hdigits o⟩, hdat⟩
  rw [hform, hform] at h
  obtain ⟨hkey, hrest⟩ := append_separator_inj (hslash _ _) (hslash _ _) h
  obtain ⟨hsize, hoffset⟩ := append_separator_inj (not_mem_decimal (by decide) _)
    (not_mem_decimal (by decide) _) (List.append_cancel_right hrest)
  exact ⟨hkey, decimal_injective hsize, decimal_injective hoffset⟩

/-- The file of a read. -/
def cachedFile (e : Env σ) (w : World σ) (path : CStr) (size offset : Nat) : Option Bytes :=
  w.L2.bind fun files => files (disk_name (disk_key e path) size offset)

/-- The state with the file of a read written. -/
def World.keepFile (e : Env σ) (w : World σ) (path : CStr) (size offset : Nat) (bytes : Bytes) :
    World σ :=
  { w with
    L2 := w.L2.map fun files =>
      Function.update files (disk_name (disk_key e path) size offset) (some bytes) }

variable {e : Env σ} {P : CStr → Prop} {w w₁ w₂ : World σ} {path : CStr} {size offset n : Nat}

theorem cachedFile_congr (h : w₁.L2 = w.L2) :
    cachedFile e w₁ path size offset = cachedFile e w path size offset := by
  rw [cachedFile, cachedFile, h]

/-- A file afterwards is the one written, or was there before. -/
theorem cachedFile_keepFile (hP : Set.InjOn e.host.md5 {path | P path}) (hp : P path)
    {path' : CStr} (hp' : P path') {size' offset' : Nat} {bytes bytes' : Bytes}
    (h : cachedFile e (w.keepFile e path size offset bytes) path' size' offset' = some bytes') :
    (path' = path ∧ size' = size ∧ offset' = offset ∧ bytes' = bytes) ∨
      cachedFile e w path' size' offset' = some bytes' := by
  cases hL : w.L2 with
  | none => simp [cachedFile, World.keepFile, hL] at h
  | some files =>
    by_cases hname : disk_name (disk_key e path') size' offset' =
        disk_name (disk_key e path) size offset
    · obtain ⟨hkey, rfl, rfl⟩ := disk_name_inj hname
      obtain rfl : path' = path := hP hp' hp hkey
      refine Or.inl ⟨rfl, rfl, rfl, ?_⟩
      simpa [cachedFile, World.keepFile, hL, eq_comm] using h
    · exact Or.inr (by simpa [cachedFile, World.keepFile, hL, hname] using h)

/-! ## Answers to a range -/

/-- The reply brings these bytes, and their number in the header. -/
structure Reply.Brings (reply : Reply) (bytes : Bytes) : Prop where
  ok : reply.ok = true
  status : reply.status < 400
  contentLength : reply.contentLength = some (decimal bytes.length)
  body : (reply.body.map Body.bytes).getD [] = bytes

theorem strtol_decimal (n : Nat) : u64 (strtol (decimal n)) = min LONG_MAX n := by
  have hnumber : leadingNumber (decimal n) = n := by
    have hall : (decimal n).takeWhile (fun b => decide (48 ≤ b ∧ b ≤ 57)) = decimal n := by
      rw [List.takeWhile_eq_self_iff]
      intro b hb
      simpa using digit_of_mem_decimal hb
    rw [leadingNumber, hall]
    exact digitsValue_decimal n
  have hvalue : strtol (decimal n) = min (n : Int) LONG_MAX := by
    obtain ⟨b, bs, hb⟩ := List.exists_cons_of_ne_nil (decimal_ne_nil n)
    have hmem : b ∈ decimal n := by
      rw [hb]
      exact List.mem_cons_self
    -- a digit is neither a blank nor a sign
    have hblank : isBlank b = false := by
      obtain ⟨hlow, -⟩ := digit_of_mem_decimal hmem
      rw [isBlank, Bool.or_eq_false_iff, beq_eq_false_iff_ne, Bool.and_eq_false_iff]
      refine ⟨fun h => absurd (h ▸ hlow) (by decide), Or.inr ?_⟩
      rw [decide_eq_false_iff_not]
      exact fun h => absurd (UInt8.le_trans hlow h) (by decide)
    have hminus : b ≠ 45 := fun h => not_mem_decimal (by decide) n (h ▸ hmem)
    have hplus : b ≠ 43 := fun h => not_mem_decimal (by decide) n (h ▸ hmem)
    rw [hb] at hnumber ⊢
    rw [strtol, List.dropWhile_cons_of_neg (by simp [hblank])]
    split
    · rename_i heq
      exact absurd (List.cons.inj heq).1 hminus
    · rename_i heq
      exact absurd (List.cons.inj heq).1 hplus
    · rw [hnumber]
  rw [hvalue]
  unfold u64 LONG_MAX
  omega

theorem headerValue_decimal (n : Nat) : headerValue (some (decimal n)) = .ok (decimal n) := by
  have hquote : quote ∉ decimal n := not_mem_decimal (by decide) n
  have hstrip : stripQuotes (decimal n) = decimal n := by
    rw [stripQuotes, if_neg fun h => hquote (List.mem_of_getLast? h),
      if_neg fun h => hquote (List.mem_of_head? h)]
  obtain ⟨b, bs, hb⟩ := List.exists_cons_of_ne_nil (decimal_ne_nil n)
  rw [hb] at hstrip ⊢
  rw [headerValue, hstrip]

theorem readPayload_take {payload : Option Body} {bytes : Bytes} {k : Nat}
    (h : (payload.map Body.bytes).getD [] = bytes) (hk : k ≤ bytes.length) :
    readPayload payload k = .ok (bytes.take k) := by
  cases payload with
  | none =>
    obtain rfl : [] = bytes := h
    obtain rfl : k = 0 := Nat.le_zero.mp hk
    rfl
  | some body =>
    obtain rfl : body.bytes = bytes := h
    rw [readPayload, if_pos (Nat.le_succ_of_le hk), List.take_append_of_le_length hk]

theorem readPayload_length {payload : Option Body} {bytes : Bytes}
    (h : (payload.map Body.bytes).getD [] = bytes) :
    readPayload payload bytes.length = .ok bytes := by
  rw [readPayload_take h (Nat.le_refl _), List.take_length]

/-- The length in a header is cut to the range of `long`. -/
theorem Reply.Brings.readPayload {reply : Reply} {bytes : Bytes} (h : reply.Brings bytes) :
    readPayload reply.body (u64 (strtol (decimal bytes.length))) = .ok (bytes.take LONG_MAX) := by
  rw [strtol_decimal, readPayload_take h.body (Nat.min_le_right _ _)]
  congr 1
  rw [List.take_eq_take_iff, Nat.min_assoc, Nat.min_self]

/-! ## The range asked for -/

/-- No object has a size of `2 ^ 31` bytes or more, and no request reaches the end
of the file offsets. -/
theorem rangeEnd_eq (hn : 0 < n) (hn31 : n < 2 ^ 31) (hsize : 1 ≤ size) (hsize63 : size < 2 ^ 63)
    (hoffset : offset < 2 ^ 63) :
    s64 (rangeEnd size offset n) = (min (offset + size) n : Nat) - 1 := by
  have hend : u64 ((offset + size - 1 : Nat) : Int) = offset + size - 1 := by
    rw [u64]
    omega
  have hlast : u64 ((n : Int) - 1) = n - 1 := by
    rw [u64]
    omega
  have hcast : ((offset : Int) + size - 1) = ((offset + size - 1 : Nat) : Int) := by omega
  rw [rangeEnd, hcast, hend, hlast]
  unfold s64
  split <;> split <;> omega

/-! ## A read -/

/-- The request for the range of a read, once the size of the object is known. -/
def rangeRequest (path : CStr) (size offset n : Nat) : Request :=
  .worker_get path offset (s64 (rangeEnd size offset n))

theorem disk_get_apply (path : CStr) (size offset : Nat) (w : World σ) :
    disk_get (disk_key e path) size offset w =
      (.ok ((cachedFile e w path size offset).map (List.take size)), w) := rfl

theorem read_of_object {payload : Option Body} {bytes : Bytes} {k : Nat}
    (hobject : sia_worker_get_object e path size offset w = (.ok (payload, k), w₁))
    (hpayload : readPayload payload k = .ok bytes) (hfit : k ≤ size) :
    siafs_read e path size offset w = (.ok bytes, w₁) := by
  rw [siafs_read, Exec.bind_of_ok hobject]
  show (Exec.lift (readPayload payload k) >>= _) w₁ = _
  rw [Exec.lift_ok_bind hpayload, if_pos hfit]
  rfl

/-- A read that succeeds has read what the cache or the server brought. -/
theorem read_eq_ok {payload : Option Body} {bytes bytes' : Bytes} {k : Nat}
    (hobject : sia_worker_get_object e path size offset w = (.ok (payload, k), w₁))
    (hpayload : readPayload payload k = .ok bytes)
    (hread : siafs_read e path size offset w = (.ok bytes', w₂)) : bytes' = bytes ∧ w₂ = w₁ := by
  by_cases hfit : k ≤ size
  · rw [read_of_object hobject hpayload hfit] at hread
    cases hread
    exact ⟨rfl, rfl⟩
  · rw [siafs_read, Exec.bind_of_ok hobject] at hread
    replace hread : (Exec.lift (readPayload payload k) >>= _) w₁ = _ := hread
    rw [Exec.lift_ok_bind hpayload, if_neg hfit] at hread
    cases hread

theorem read_hit {stored : Bytes} (h : cachedFile e w path size offset = some stored) :
    siafs_read e path size offset w = (.ok (stored.take size), w) := by
  have hget : disk_get (disk_key e path) size offset w = (.ok (some (stored.take size)), w) := by
    rw [disk_get_apply, h]
    rfl
  have hobject : sia_worker_get_object e path size offset w =
      (.ok (some { bytes := stored.take size, document := none }, (stored.take size).length), w) := by
    rw [sia_worker_get_object, Exec.bind_of_ok hget]
    rfl
  exact read_of_object hobject (readPayload_length rfl) (List.length_take_le _ _)

theorem disk_set_apply {payload : Option Body} {bytes : Bytes} {k : Nat}
    (h : readPayload payload k = .ok bytes) (w : World σ) :
    disk_set (disk_key e path) payload k size offset w =
      (.ok (), w.keepFile e path size offset bytes) := by
  cases hL : w.L2 with
  | none =>
    rw [disk_set_off hL]
    cases w
    cases hL
    rfl
  | some files =>
    rw [disk_set_written hL h, World.keepFile, hL]
    rfl

section Miss

variable (hmiss : cachedFile e w path size offset = none)
  (hsize : sia_bus_object_size e path w = (.ok n, w₁))

include hmiss hsize

theorem get_object_miss : sia_worker_get_object e path size offset w =
    (do
      let reply ← send e (rangeRequest path size offset n)
      if reply.ok ∧ reply.status < 400 then
        let value ← Exec.lift (headerValue reply.contentLength)
        let etag ← sia_bus_object_etag e path
        if etag.isSome then disk_set (disk_key e path) reply.body (u64 (strtol value)) size offset
        pure (reply.body, u64 (strtol value))
      else pure (none, 0) : Sia σ (Option Body × Nat)) w₁ := by
  have hget : disk_get (disk_key e path) size offset w = (.ok none, w) := by
    rw [disk_get_apply, hmiss]
    rfl
  rw [sia_worker_get_object, Exec.bind_of_ok hget]
  exact Exec.bind_of_ok hsize

/-- A range that is refused reads nothing. -/
theorem read_refused (hreply : ¬ ((e.server w₁.server (rangeRequest path size offset n)).1.ok ∧
    (e.server w₁.server (rangeRequest path size offset n)).1.status < 400)) :
    siafs_read e path size offset w = (.ok [], sendAll e [rangeRequest path size offset n] w₁) := by
  have hobject := get_object_miss hmiss hsize
  rw [Exec.bind_of_ok (send_apply e _ w₁), if_neg hreply] at hobject
  exact read_of_object hobject rfl (Nat.zero_le _)

/-- A range that is answered stays in the file, when the object has an ETag. -/
theorem get_object_served {bytes : Bytes} {etag : Option CStr}
    (hreply : (e.server w₁.server (rangeRequest path size offset n)).1.Brings bytes)
    (hetag : sia_bus_object_etag e path (sendAll e [rangeRequest path size offset n] w₁) =
      (.ok etag, w₂)) :
    sia_worker_get_object e path size offset w =
      (.ok ((e.server w₁.server (rangeRequest path size offset n)).1.body,
          u64 (strtol (decimal bytes.length))),
        if etag.isSome then w₂.keepFile e path size offset (bytes.take LONG_MAX) else w₂) := by
  have hlength := headerValue_decimal bytes.length
  rw [← hreply.contentLength] at hlength
  rw [get_object_miss hmiss hsize, Exec.bind_of_ok (send_apply e _ w₁),
    if_pos ⟨hreply.ok, hreply.status⟩, Exec.lift_ok_bind hlength, Exec.bind_of_ok hetag]
  cases etag with
  | none => rfl
  | some tag =>
    show (disk_set _ _ _ _ _ >>= _) w₂ = _
    rw [Exec.bind_of_ok (disk_set_apply hreply.readPayload w₂)]
    rfl

theorem read_served {bytes : Bytes} {etag : Option CStr}
    (hreply : (e.server w₁.server (rangeRequest path size offset n)).1.Brings bytes)
    (hfit : bytes.length ≤ size) (hsize63 : size < 2 ^ 63)
    (hetag : sia_bus_object_etag e path (sendAll e [rangeRequest path size offset n] w₁) =
      (.ok etag, w₂)) :
    siafs_read e path size offset w =
      (.ok bytes, if etag.isSome then w₂.keepFile e path size offset bytes else w₂) := by
  have hall : bytes.take LONG_MAX = bytes :=
    List.take_of_length_le (by unfold LONG_MAX; omega)
  have hobject := get_object_served hmiss hsize hreply hetag
  have hpayload := hreply.readPayload
  rw [hall] at hobject hpayload
  refine read_of_object hobject hpayload ?_
  rw [strtol_decimal]
  exact (Nat.min_le_right _ _).trans hfit

end Miss

end SiaFS
