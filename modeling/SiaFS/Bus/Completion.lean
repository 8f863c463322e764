/-
The payload that completes an upload, read back.

The loop over the slots makes an item of each slot with an ETag, so that the items come
in the order of their part numbers and the ETag of a slot is that of the item with its
number.
-/
import SiaFS.Upload.Session

namespace SiaFS

open Json

variable {σ : Type} {e : Env σ} {uploads : List SiaUpload} {path : CStr} {u : SiaUpload}

/-- The item numbers a part. -/
def numbersPart (n : Nat) (item : Json) : Bool :=
  (cJSON_GetObjectItemCaseSensitive item (lit "partNumber")).bind number? == some (n : Int)

/-- The ETag a payload gives for a slot: that of its first item with the number of the
part. -/
def listedEtag (payload : Json) (slot : Nat) : Option CStr :=
  match cJSON_GetObjectItemCaseSensitive payload (lit "Parts") with
  | some (.arr items) =>
    ((items.find? (numbersPart (slot + 1))).bind
      (cJSON_GetObjectItemCaseSensitive · (lit "eTag"))).bind valuestring
  | _ => none

theorem partJson_number (part : Nat × CStr) :
    cJSON_GetObjectItemCaseSensitive (partJson part) (lit "partNumber") = some (.num part.1) := by
  simp [partJson, cJSON_GetObjectItemCaseSensitive]

theorem partJson_etag (part : Nat × CStr) :
    cJSON_GetObjectItemCaseSensitive (partJson part) (lit "eTag") = some (.str part.2) := by
  simp [partJson, cJSON_GetObjectItemCaseSensitive, List.lookup_cons, lit]

/-- A part number is small enough for an `int`. -/
theorem numbersPart_partJson {part : Nat × CStr} (h : part.1 ≤ SIA_MAX_PARTS) (n : Nat) :
    numbersPart n (partJson part) = (part.1 == n) := by
  have h : part.1 ≤ 10000 := h
  have hvalue : valueint (.num part.1) = part.1 := by
    show max (-2 ^ 31) (min (part.1 : Int) (2 ^ 31 - 1)) = part.1
    omega
  rw [numbersPart, partJson_number, Option.bind_some, number?, hvalue]
  rw [Bool.eq_iff_iff]
  simp

theorem recordedParts_le {part : Nat × CStr} (h : part ∈ recordedParts u) :
    part.1 ≤ SIA_MAX_PARTS := by
  obtain ⟨slot, hslot, -⟩ := mem_recordedParts.mp h
  rw [hslot]
  exact slot.isLt

/-- The part of a slot is the only one with its number. -/
theorem find_recordedParts (u : SiaUpload) (slot : Fin SIA_MAX_PARTS) :
    (recordedParts u).find? (fun part => part.1 == slot.val + 1) =
      (u.part slot).etag.map fun etag => (slot.val + 1, etag) := by
  cases hfind : (recordedParts u).find? (fun part => part.1 == slot.val + 1) with
  | none =>
    cases hetag : (u.part slot).etag with
    | none => rfl
    | some etag =>
      have hmem : (slot.val + 1, etag) ∈ recordedParts u :=
        mem_recordedParts.mpr ⟨slot, rfl, hetag⟩
      exact absurd (beq_self_eq_true (slot.val + 1)) (List.find?_eq_none.mp hfind _ hmem)
  | some part =>
    have hnumber : part.1 = slot.val + 1 := by simpa using List.find?_some hfind
    obtain ⟨slot', hslot', hetag⟩ := mem_recordedParts.mp (List.mem_of_find?_eq_some hfind)
    have hsame : slot' = slot := Fin.ext (by omega)
    rw [hsame] at hetag
    rw [hetag, Option.map_some, ← hnumber]

theorem find_partJson {parts : List (Nat × CStr)} (hparts : ∀ part ∈ parts, part.1 ≤ SIA_MAX_PARTS)
    (n : Nat) : (parts.map partJson).find? (numbersPart n) =
      (parts.find? fun part => part.1 == n).map partJson := by
  induction parts with
  | nil => rfl
  | cons part parts ih =>
    have hpart := numbersPart_partJson (hparts part List.mem_cons_self) n
    rw [List.map_cons, List.find?_cons, List.find?_cons, hpart]
    cases part.1 == n with
    | true => rfl
    | false => exact ih fun p hp => hparts p (List.mem_cons_of_mem _ hp)

/-- The payload for the upload found for the path: its strings are the arguments, its
parts are the slots with an ETag in the order of their numbers, and the ETags come
back from it. -/
theorem complete_payload_recovers (hu : nodeNamed uploads path = some u) (uploadid : CStr) :
    ∃ payload items,
      sia_bus_multipart_complete_create_json_payload e uploads path uploadid = .ok payload ∧
      cJSON_GetObjectItemCaseSensitive payload (lit "bucket") = some (.str e.bucket) ∧
      cJSON_GetObjectItemCaseSensitive payload (lit "path") = some (.str path) ∧
      cJSON_GetObjectItemCaseSensitive payload (lit "uploadID") = some (.str uploadid) ∧
      cJSON_GetObjectItemCaseSensitive payload (lit "Parts") = some (.arr items) ∧
      (items.Pairwise fun item item' => ∃ m n : Int,
        cJSON_GetObjectItemCaseSensitive item (lit "partNumber") = some (.num m) ∧
        cJSON_GetObjectItemCaseSensitive item' (lit "partNumber") = some (.num n) ∧ m < n) ∧
      (∀ item, item ∈ items ↔ ∃ (slot : Fin SIA_MAX_PARTS) (etag : CStr),
        (u.part slot).etag = some etag ∧
        item = .obj [(lit "partNumber", .num (slot.val + 1)), (lit "eTag", .str etag)]) ∧
      ∀ slot : Fin SIA_MAX_PARTS, listedEtag payload slot = (u.part slot).etag := by
  have hpayload := completePayload_completes (e := e) path uploadid (recordedParts u)
  refine ⟨_, _, complete_payload_ok hu uploadid, rfl, hpayload.path, hpayload.uploadID,
    hpayload.parts, ?_, fun item => ?_, fun slot => ?_⟩
  · refine (recordedParts_increasing u).map _ fun part part' hlt => ?_
    exact ⟨_, _, partJson_number part, partJson_number part', Int.ofNat_lt.mpr hlt⟩
  · rw [List.mem_map]
    constructor
    · rintro ⟨part, hpart, rfl⟩
      obtain ⟨slot, hslot, hetag⟩ := mem_recordedParts.mp hpart
      refine ⟨slot, part.2, hetag, ?_⟩
      rw [partJson, hslot]
      rfl
    · rintro ⟨slot, etag, hetag, rfl⟩
      exact ⟨(slot.val + 1, etag), mem_recordedParts.mpr ⟨slot, rfl, hetag⟩, rfl⟩
  · rw [listedEtag, hpayload.parts]
    show ((((recordedParts u).map partJson).find? (numbersPart (slot.val + 1))).bind _).bind _ = _
    rw [find_partJson (fun _ => recordedParts_le), find_recordedParts]
    cases (u.part slot).etag with
    | none => rfl
    | some etag =>
      show ((some (partJson (slot.val + 1, etag))).bind _).bind _ = _
      rw [Option.bind_some, partJson_etag]
      rfl

/-- An upload with one part recorded, the second. -/
def secondPart : SiaUpload :=
  (newUpload (lit "/a") (lit "id")).setEtag ⟨1, by decide⟩ (lit "tag")

theorem complete_payload_recovers_second :
    ∃ payload, sia_bus_multipart_complete_create_json_payload hugeMount [secondPart] (lit "/a")
        (lit "id") = .ok payload ∧
      listedEtag payload 0 = none ∧ listedEtag payload 1 = some (lit "tag") := by
  have hu : nodeNamed [secondPart] (lit "/a") = some secondPart := rfl
  obtain ⟨payload, items, hok, -, -, -, -, -, -, hetags⟩ :=
    complete_payload_recovers (e := hugeMount) hu (lit "id")
  refine ⟨payload, hok, (hetags ⟨0, by decide⟩).trans ?_, (hetags ⟨1, by decide⟩).trans ?_⟩
  · simp [secondPart, SiaUpload.setEtag, newUpload]
  · simp [secondPart, SiaUpload.setEtag]

end SiaFS
