/-
How many bytes a read returns.

Three numbers meet in `siafs_read`: the size of the buffer, the number of bytes
collected from the reply, and the `Content-Length` of the reply, which alone
decides how many are copied.  A file of the cache is read up to the size of the
buffer.
-/
import SiaFS.Cache.Files
import SiaFS.Backend.Renterd

namespace SiaFS

variable {σ : Type}

/-- The reply to the range of a read. -/
abbrev rangeReply (e : Env σ) (w : World σ) (path : CStr) (size offset n : Nat) : Reply :=
  (e.server w.server (rangeRequest path size offset n)).1

/-- The bytes that were collected. -/
def Reply.received (reply : Reply) : Bytes := (reply.body.map Body.bytes).getD []

/-- The read returns no more than the buffer holds, and nothing but bytes received. -/
def ReadWithin (e : Env σ) (w : World σ) (path : CStr) (size offset : Nat) (received : Bytes) :
    Prop :=
  ∃ bytes w', siafs_read e path size offset w = (.ok bytes, w') ∧ bytes.length ≤ size ∧
    bytes <+: received

/-- The reply has a `Content-Length`, for no more bytes than came and than the buffer
holds. -/
def Reply.Measured (reply : Reply) (size : Nat) : Prop :=
  ∃ value, reply.contentLength = some value ∧ value ≠ [] ∧
    u64 (strtol (stripQuotes value)) ≤ reply.received.length ∧
    u64 (strtol (stripQuotes value)) ≤ size

section Read

variable {e : Env σ} {w w₁ w₂ : World σ} {path : CStr} {size offset n k : Nat}
  {payload : Option Body} {bytes : Bytes}

theorem object_etag_ok (path : CStr) (w : World σ) :
    ∃ etag w', sia_bus_object_etag e path w = (.ok etag, w') := by
  obtain ⟨payload, w', hjson⟩ := cachedRequest_ok (objectsKey e path) (.objects path) w
  exact ⟨_, _, object_etag_of_json hjson⟩

theorem headerValue_eq_ok {header : Option CStr} {text : CStr} :
    headerValue header = .ok text ↔
      ∃ value, header = some value ∧ value ≠ [] ∧ stripQuotes value = text := by
  cases header with
  | none => simp [headerValue]
  | some value => cases value <;> simp [headerValue]

/-- What is read out of the buffer of a payload, with its terminating NUL. -/
theorem readPayload_eq_ok (h : readPayload payload k = .ok bytes) :
    k ≤ ((payload.map Body.bytes).getD []).length + 1 ∧
      bytes = (((payload.map Body.bytes).getD []) ++ [0]).take k := by
  cases payload with
  | none =>
    cases k with
    | zero =>
      cases h
      exact ⟨Nat.zero_le _, rfl⟩
    | succ k => cases h
  | some body =>
    rw [readPayload] at h
    split at h
    · rename_i hle
      cases h
      exact ⟨hle, rfl⟩
    · cases h

theorem read_eq_ok_cases (h : siafs_read e path size offset w = (.ok bytes, w₂)) :
    ∃ payload k, sia_worker_get_object e path size offset w = (.ok (payload, k), w₂) ∧
      readPayload payload k = .ok bytes ∧ k ≤ size := by
  obtain ⟨⟨payload, k⟩, w', hobject, h⟩ := Exec.bind_eq_ok h
  obtain ⟨bytes', w'', hpayload, h⟩ := Exec.bind_eq_ok h
  rw [Exec.lift_apply, Prod.mk.injEq] at hpayload
  obtain ⟨hpayload, rfl⟩ := hpayload
  split at h
  · rename_i hfit
    cases h
    exact ⟨payload, k, hobject, hpayload, hfit⟩
  · cases h

variable (hmiss : cachedFile e w path size offset = none)
  (hsize : sia_bus_object_size e path w = (.ok n, w₁))
  (haccepted : (rangeReply e w₁ path size offset n).ok ∧
    (rangeReply e w₁ path size offset n).status < 400)

include hmiss hsize haccepted

/-- An accepted reply gives the payload, and its header the size. -/
theorem get_object_accepted
    (h : sia_worker_get_object e path size offset w = (.ok (payload, k), w₂)) :
    ∃ text, headerValue (rangeReply e w₁ path size offset n).contentLength = .ok text ∧
      payload = (rangeReply e w₁ path size offset n).body ∧ k = u64 (strtol text) := by
  rw [get_object_miss hmiss hsize, Exec.bind_of_ok (send_apply e _ w₁), if_pos haccepted] at h
  obtain ⟨text, w', htext, h⟩ := Exec.bind_eq_ok h
  obtain ⟨etag, w₃, -, h⟩ := Exec.bind_eq_ok h
  have hresult : payload = (rangeReply e w₁ path size offset n).body ∧ k = u64 (strtol text) := by
    cases etag with
    | none =>
      cases h
      exact ⟨rfl, rfl⟩
    | some etag =>
      obtain ⟨u, w₄, -, h⟩ := Exec.bind_eq_ok h
      cases h
      exact ⟨rfl, rfl⟩
  exact ⟨text, congrArg Prod.fst htext, hresult⟩

theorem read_measured (h : (rangeReply e w₁ path size offset n).Measured size) :
    ReadWithin e w path size offset (rangeReply e w₁ path size offset n).received := by
  obtain ⟨value, hlength, hne, hreceived, hfit⟩ := h
  have htext := headerValue_eq_ok.mpr ⟨value, hlength, hne, rfl⟩
  have hpayload := readPayload_take
    (show ((rangeReply e w₁ path size offset n).body.map Body.bytes).getD [] = _ from rfl) hreceived
  obtain ⟨etag, w₂, hetag⟩ := object_etag_ok (e := e) path
    (sendAll e [rangeRequest path size offset n] w₁)
  have hobject : ∃ w', sia_worker_get_object e path size offset w =
      (.ok ((rangeReply e w₁ path size offset n).body, u64 (strtol (stripQuotes value))), w') := by
    rw [get_object_miss hmiss hsize, Exec.bind_of_ok (send_apply e _ w₁), if_pos haccepted]
    rw [show (e.server w₁.server (rangeRequest path size offset n)).1 =
      rangeReply e w₁ path size offset n from rfl, Exec.lift_ok_bind htext, Exec.bind_of_ok hetag]
    cases etag with
    | none => exact ⟨_, rfl⟩
    | some etag => exact ⟨_, Exec.bind_of_ok (disk_set_apply hpayload w₂)⟩
  obtain ⟨w', hobject⟩ := hobject
  refine ⟨_, w', read_of_object hobject hpayload hfit, ?_, List.take_prefix _ _⟩
  exact (List.length_take_le _ _).trans hfit

theorem measured_of_read
    (h : ReadWithin e w path size offset (rangeReply e w₁ path size offset n).received) :
    (rangeReply e w₁ path size offset n).Measured size := by
  obtain ⟨bytes, w', hread, -, hprefix⟩ := h
  obtain ⟨payload, k, hobject, hpayload, hfit⟩ := read_eq_ok_cases hread
  obtain ⟨text, htext, rfl, rfl⟩ := get_object_accepted hmiss hsize haccepted hobject
  obtain ⟨value, hlength, hne, rfl⟩ := headerValue_eq_ok.mp htext
  obtain ⟨hle, rfl⟩ := readPayload_eq_ok hpayload
  refine ⟨value, hlength, hne, ?_, hfit⟩
  -- the bytes returned are as many as the header says
  have hshort := hprefix.length_le
  rw [List.length_take, List.length_append] at hshort
  have hone : ([0] : Bytes).length = 1 := rfl
  unfold Reply.received at hshort ⊢
  omega

end Read

/-- A read from a file of the cache keeps to its buffer and to the file.  A read that an
accepted reply answers does so exactly when the `Content-Length` is there and exceeds
neither; one that is refused reads nothing. -/
theorem read_within_iff (e : Env σ) {w w₁ : World σ} {path : CStr} {size offset n : Nat}
    (hsize : sia_bus_object_size e path w = (.ok n, w₁)) :
    (∀ stored, cachedFile e w path size offset = some stored →
      ReadWithin e w path size offset stored) ∧
    (cachedFile e w path size offset = none →
      (ReadWithin e w path size offset (rangeReply e w₁ path size offset n).received ↔
        ((rangeReply e w₁ path size offset n).ok = true →
          (rangeReply e w₁ path size offset n).status < 400 →
            (rangeReply e w₁ path size offset n).Measured size))) := by
  refine ⟨fun stored hfile => ?_, fun hmiss => ⟨fun h hok hstatus => ?_, fun h => ?_⟩⟩
  · exact ⟨_, w, read_hit hfile, List.length_take_le _ _, List.take_prefix _ _⟩
  · exact measured_of_read hmiss hsize ⟨hok, hstatus⟩ h
  · by_cases haccepted : (rangeReply e w₁ path size offset n).ok ∧
        (rangeReply e w₁ path size offset n).status < 400
    · exact read_measured hmiss hsize haccepted (h haccepted.1 haccepted.2)
    · exact ⟨[], _, read_refused hmiss hsize haccepted, Nat.zero_le _, List.nil_prefix⟩

/-- A mount of a server that has an object of three bytes and answers a range with them and
this header, whatever the range is. -/
def wholeMount (contentLength : Option CStr) : Env Unit :=
  mountOf .fuse3 true fun u r => match r with
    | .worker_get _ _ _ => ({ plainReply 200 [1, 2, 3] with contentLength := contentLength }, u)
    | _ => (jsonReply (.obj [(lit "object", objectJson (lit "/a") [1, 2, 3])]), u)

theorem read_within_whole :
    ReadWithin (wholeMount (some (lit "3"))) (mounted () none) (lit "/a") 4096 0 [1, 2, 3] :=
  ((read_within_iff _ (show sia_bus_object_size (wholeMount (some (lit "3"))) (lit "/a")
    (mounted () none) = (.ok 3, _) from rfl)).2 rfl).mpr
    fun _ _ => ⟨lit "3", rfl, by decide, by decide, by decide⟩

/-- Without regard to the range, three bytes are copied to a buffer of one; with a header of
four, a byte is returned that was not received; without a header, none is found. -/
theorem whole_object_overruns :
    (siafs_read (wholeMount (some (lit "3"))) (lit "/a") 1 0 (mounted () none)).1 =
        .error .outOfBounds ∧
      (siafs_read (wholeMount (some (lit "4"))) (lit "/a") 4096 0 (mounted () none)).1 =
        .ok [1, 2, 3, 0] ∧
      (siafs_read (wholeMount none) (lit "/a") 4096 0 (mounted () none)).1 =
        .error .uninitialised :=
  ⟨rfl, rfl, rfl⟩

end SiaFS
