/-
`capture_payload` of `sia_common.c`, which puts the chunks of a reply together.

The block is allocated with the first chunk and grows with every other one.  An
allocation may fail at any chunk; the chunk is then lost, and what there is stays.
-/
import SiaFS.Common.Upload
import SiaFS.Lib.Block

namespace SiaFS

open Memory

/-- `sia_http_payload_t`, with the block `data` points to. -/
structure HttpPayload where
  data : Option (Block UInt8)
  len : Nat

/-- The payload before the first chunk. -/
def HttpPayload.empty : HttpPayload := ⟨none, 0⟩

def orFault (block : Option (Block UInt8)) : Except Fault (Block UInt8) :=
  match block with
  | some block => .ok block
  | none => .error .outOfBounds

/-- A new block of zeros, or the one there is made longer. -/
def HttpPayload.grow (data : HttpPayload) (size : Nat) : Block UInt8 :=
  match data.data with
  | none => calloc 0 size
  | some block => realloc block size

/-- The value returned and the payload.  `allocates` tells whether the allocation
succeeds. -/
def capture_payload (allocates : Bool) (contents : Bytes) (sz nmemb : Nat)
    (data : HttpPayload) : Except Fault (Nat × HttpPayload) :=
  let realsize := u64 (sz * nmemb : Nat)
  let size := u64 (data.len + realsize + 1 : Nat)
  if allocates then do
    let ptr ← orFault (copyIn (data.grow size) data.len (contents.take realsize))
    let len := u64 (data.len + realsize : Nat)
    let ptr ← orFault (copyIn ptr len [0])
    pure (realsize, ⟨some ptr, len⟩)
  else pure (0, data)

/-- One call of the callback: `nmemb` elements of `sz` bytes, and whether there is memory
for them. -/
structure Chunk where
  contents : Bytes
  sz : Nat
  nmemb : Nat
  allocates : Bool
  whole : contents.length = sz * nmemb

/-- A reply as it comes in: what every call returns, and the payload at the end. -/
def capture : List Chunk → HttpPayload → Except Fault (List Nat × HttpPayload)
  | [], data => .ok ([], data)
  | c :: chunks, data => do
    let (n, data) ← capture_payload c.allocates c.contents c.sz c.nmemb data
    let (ns, data) ← capture chunks data
    pure (n :: ns, data)

/-- The bytes of the chunks that there is memory for. -/
def accepted (chunks : List Chunk) : Bytes :=
  (chunks.filter Chunk.allocates).flatMap Chunk.contents

/-- The payload once a chunk has been accepted: the bytes and a zero, in a block of just
that size. -/
def HttpPayload.of (bytes : Bytes) : HttpPayload := ⟨some ((bytes ++ [0]).map some), bytes.length⟩

variable {bytes : Bytes} {c : Chunk} {chunks : List Chunk} {data : HttpPayload}

/-- The payload holds these bytes, in a block unless there is none yet. -/
def Captured (bytes : Bytes) (data : HttpPayload) : Prop :=
  data = .of bytes ∨ bytes = [] ∧ data = .empty

theorem Captured.len (h : Captured bytes data) : data.len = bytes.length := by
  rcases h with rfl | ⟨rfl, rfl⟩ <;> rfl

/-- The block for `n` bytes more begins with the bytes there are. -/
theorem Captured.grow (h : Captured bytes data) (n : Nat) :
    ∃ rest, rest.length = n + 1 ∧ data.grow (bytes.length + n + 1) = bytes.map some ++ rest := by
  rcases h with rfl | ⟨rfl, rfl⟩
  · have hroom : (bytes.map some).length + 1 ≤ bytes.length + n + 1 := by
      rw [List.length_map]
      omega
    refine ⟨some 0 :: List.replicate n none, ?_, ?_⟩
    · rw [List.length_cons, List.length_replicate]
    · show realloc ((bytes ++ [0]).map some) _ = _
      rw [List.map_append]
      refine (realloc_append hroom).trans ?_
      rw [List.length_map, show bytes.length + n + 1 - (bytes.length + 1) = n by omega]
  · refine ⟨calloc 0 (n + 1), length_calloc _ _, ?_⟩
    rw [List.length_nil, Nat.zero_add]
    rfl

/-- The chunk and the zero fill a block that has just the room for them. -/
theorem fill (contents : Bytes) {rest : Block UInt8} (hrest : rest.length = contents.length + 1) :
    ∃ block, copyIn (bytes.map some ++ rest) bytes.length contents = some block ∧
      copyIn block (bytes.length + contents.length) [0] =
        some ((bytes ++ contents ++ [0]).map some) := by
  refine ⟨_, copyIn_behind (List.length_map _).symm (by omega), ?_⟩
  have hlast : (rest.drop contents.length).length = 1 := by
    rw [List.length_drop]
    omega
  have hplace : bytes.length + contents.length = ((bytes ++ contents).map some).length := by
    rw [List.length_map, List.length_append]
  have hroom : ([0] : Bytes).length ≤ (rest.drop contents.length).length :=
    Nat.le_of_eq hlast.symm
  have hend : (rest.drop contents.length).drop ([0] : Bytes).length = [] :=
    List.drop_eq_nil_of_le (Nat.le_of_eq hlast)
  rw [← List.map_append, copyIn_behind hplace hroom, hend, List.append_nil]
  exact congrArg some List.map_append.symm

/-- A chunk that there is memory for. -/
theorem capture_payload_accepts (h : Captured bytes data) (hc : c.allocates = true)
    (hsize : bytes.length + c.contents.length < 2 ^ 64 - 1) :
    capture_payload c.allocates c.contents c.sz c.nmemb data =
      .ok (c.contents.length, .of (bytes ++ c.contents)) := by
  obtain ⟨rest, hrest, hgrow⟩ := h.grow c.contents.length
  obtain ⟨block, hcontents, hzero⟩ := fill c.contents hrest
  have hreal : u64 (c.sz * c.nmemb : Nat) = c.contents.length := by
    rw [← c.whole]
    exact u64_of_lt (by omega)
  have hlen : u64 (bytes.length + c.contents.length : Nat) =
      bytes.length + c.contents.length := u64_of_lt (by omega)
  have hblock : u64 (bytes.length + c.contents.length + 1 : Nat) =
      bytes.length + c.contents.length + 1 := u64_of_lt (by omega)
  rw [capture_payload, if_pos hc, h.len, hreal, hlen, hblock, hgrow, List.take_length, hcontents]
  show (orFault (copyIn block _ [0]) >>= _) = _
  rw [hzero, HttpPayload.of, List.length_append]
  rfl

/-- A chunk that there is no memory for. -/
theorem capture_payload_fails (hc : c.allocates = false) (data : HttpPayload) :
    capture_payload c.allocates c.contents c.sz c.nmemb data = .ok (0, data) := by
  rw [capture_payload, hc, if_neg Bool.false_ne_true]
  rfl

/-- What the callback returns for a chunk. -/
def Chunk.returned (c : Chunk) : Nat := if c.allocates then c.contents.length else 0

theorem accepted_cons (c : Chunk) (chunks : List Chunk) :
    accepted (c :: chunks) = (if c.allocates then c.contents else []) ++ accepted chunks := by
  rw [accepted, List.filter_cons]
  split <;> rfl

theorem accepted_eq_nil (h : ¬ chunks.any Chunk.allocates) : accepted chunks = [] := by
  have hnone : chunks.filter Chunk.allocates = [] := by
    rw [List.filter_eq_nil_iff]
    intro c hc hallocates
    exact h (List.any_eq_true.mpr ⟨c, hc, hallocates⟩)
  rw [accepted, hnone, List.flatMap_nil]

theorem accepted_all (h : chunks.all Chunk.allocates) :
    accepted chunks = chunks.flatMap Chunk.contents := by
  rw [accepted, List.filter_eq_self.mpr (List.all_eq_true.mp h)]

theorem any_allocates (hne : chunks ≠ []) (h : chunks.all Chunk.allocates) :
    chunks.any Chunk.allocates = true := by
  obtain ⟨c, rest, rfl⟩ := List.exists_cons_of_ne_nil hne
  rw [List.all_cons, Bool.and_eq_true] at h
  rw [List.any_cons, h.1, Bool.true_or]

/-- The chunks of a reply, with the payload of those before them. -/
theorem capture_run (h : Captured bytes data)
    (hsize : bytes.length + (accepted chunks).length < 2 ^ 64 - 1) :
    capture chunks data = .ok (chunks.map Chunk.returned,
      if chunks.any Chunk.allocates then .of (bytes ++ accepted chunks) else data) := by
  induction chunks generalizing bytes data with
  | nil => rfl
  | cons c chunks ih =>
    rw [accepted_cons] at hsize ⊢
    cases hc : c.allocates with
    | true =>
      rw [hc, if_pos rfl, List.length_append] at hsize
      have hthere : Captured (bytes ++ c.contents) (.of (bytes ++ c.contents)) := .inl rfl
      have hnext := ih hthere (by rw [List.length_append]; omega)
      have hpayload : (if chunks.any Chunk.allocates then
          HttpPayload.of (bytes ++ c.contents ++ accepted chunks) else .of (bytes ++ c.contents)) =
          .of (bytes ++ (c.contents ++ accepted chunks)) := by
        split
        · rw [List.append_assoc]
        · rename_i hnone
          rw [accepted_eq_nil hnone, List.append_nil]
      rw [hpayload] at hnext
      rw [capture, capture_payload_accepts h hc (by omega)]
      show (capture chunks (.of (bytes ++ c.contents)) >>= _) = _
      rw [hnext, List.map_cons, Chunk.returned, hc, List.any_cons, hc, if_pos rfl, if_pos rfl,
        Bool.true_or, if_pos rfl]
      rfl
    | false =>
      rw [hc, if_neg Bool.false_ne_true, List.nil_append] at hsize
      rw [capture, capture_payload_fails hc]
      show (capture chunks data >>= _) = _
      rw [ih h hsize, List.map_cons, Chunk.returned, hc, List.any_cons, hc,
        if_neg Bool.false_ne_true, if_neg Bool.false_ne_true, List.nil_append, Bool.false_or]
      rfl

/-- The payload of a reply is what the accepted chunks hold together, and a zero.  It is
the null pointer it was as long as none is accepted, be they none or all lost.  Where no
allocation fails, the chunks' sizes do not show in it. -/
theorem capture_concatenates (hsize : (accepted chunks).length < 2 ^ 64 - 1) :
    ∃ payload, capture chunks .empty = .ok (chunks.map Chunk.returned, payload) ∧
      payload.len = (accepted chunks).length ∧
      (payload.data = if chunks.any Chunk.allocates then some ((accepted chunks ++ [0]).map some)
        else none) ∧
      (∀ c ∈ chunks, c.allocates = false → ∀ data : HttpPayload,
        capture_payload c.allocates c.contents c.sz c.nmemb data = .ok (0, data)) ∧
      ∀ chunks' : List Chunk, chunks ≠ [] → chunks' ≠ [] → chunks.all Chunk.allocates →
        chunks'.all Chunk.allocates →
        chunks'.flatMap Chunk.contents = chunks.flatMap Chunk.contents →
        capture chunks' .empty = .ok (chunks'.map Chunk.returned, payload) := by
  have hstart : Captured [] .empty := .inr ⟨rfl, rfl⟩
  have hrun : ∀ chunks : List Chunk, (accepted chunks).length < 2 ^ 64 - 1 →
      capture chunks .empty = .ok (chunks.map Chunk.returned,
        if chunks.any Chunk.allocates then .of ([] ++ accepted chunks) else .empty) := by
    intro chunks hsize
    apply capture_run hstart
    rwa [List.length_nil, Nat.zero_add]
  refine ⟨_, hrun chunks hsize, ?_, ?_, fun c _ hc => capture_payload_fails hc, ?_⟩
  · split
    · rfl
    · rename_i hnone
      rw [accepted_eq_nil hnone]
      rfl
  · split <;> rfl
  · intro chunks' hne hne' hall hall' hcontents
    have hsame : accepted chunks' = accepted chunks := by
      rw [accepted_all hall, accepted_all hall', hcontents]
    rw [hrun chunks' (by rwa [hsame]), hsame, any_allocates hne hall, any_allocates hne' hall']

/-- A chunk of whole bytes. -/
def bytesChunk (contents : Bytes) (allocates : Bool) : Chunk :=
  ⟨contents, 1, contents.length, allocates, (Nat.one_mul _).symm⟩

/-- No chunk leaves the null pointer, an empty one a zero. -/
theorem no_chunk_and_empty_chunk :
    ([] : List Chunk).flatMap Chunk.contents = [bytesChunk [] true].flatMap Chunk.contents ∧
      capture [] .empty = .ok ([], ⟨none, 0⟩) ∧
      capture [bytesChunk [] true] .empty = .ok ([0], ⟨some [some 0], 0⟩) := by
  refine ⟨rfl, rfl, rfl⟩

theorem capture_with_loss :
    ∃ payload, capture [bytesChunk [1, 2] true, bytesChunk [3] false, bytesChunk [4] true] .empty =
        .ok ([2, 0, 1], payload) ∧
      payload.len = 3 ∧ payload.data = some [some 1, some 2, some 4, some 0] := by
  have hsize : (accepted [bytesChunk [1, 2] true, bytesChunk [3] false,
      bytesChunk [4] true]).length < 2 ^ 64 - 1 := by decide
  obtain ⟨payload, hrun, hlen, hdata, -⟩ := capture_concatenates hsize
  exact ⟨payload, hrun, hlen, hdata⟩

end SiaFS
