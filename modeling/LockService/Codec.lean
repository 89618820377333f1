import LockService.Lib.Buffer
import LockService.Types

/-!
# The Raft log's command codec

`enc_log` allocates `sizeof(op_payload)` bytes, whatever the strings of the payload are, and puts
the type, the path and the content one after the other. The layout takes twelve bytes and the two
strings, so the round trip holds exactly while the strings have at most sixty bytes together, far
below the path length the service names.
-/

namespace LockService

open Buffer

/-- `op_payload`. -/
structure OpPayload where
  type : OpType
  path : Str
  content : Str
  deriving DecidableEq

/-- `sizeof(op_payload)`: an `int` padded to eight bytes and two `std::string`s of thirty-two. -/
def sizeofOpPayload : ℕ := 72

/-- `enc_log`: none when a put throws. -/
def encLog (payload : OpPayload) : Option (List UInt8) := do
  let bs := Writer.alloc sizeofOpPayload
  let bs ← bs.put (i32Bytes payload.type.toInt)
  let bs ← bs.put (strBytes payload.path)
  let bs ← bs.put (strBytes payload.content)
  return bs.buffer

/-- `dec_log`: none when a get throws. -/
def decLog (data : List UInt8) : Option OpPayload := do
  let (type, data) ← getI32 data
  let (path, data) ← getStr data
  let (content, _) ← getStr data
  return ⟨.ofInt type, path, content⟩

/-- The bytes a payload is laid out in. -/
def OpPayload.layout (payload : OpPayload) : List UInt8 :=
  i32Bytes payload.type.toInt ++ (strBytes payload.path ++ strBytes payload.content)

/-- A payload whose strings fit the buffer `enc_log` allocates. -/
def OpPayload.Fits (payload : OpPayload) : Prop :=
  payload.path.length + payload.content.length ≤ 60

instance (payload : OpPayload) : Decidable payload.Fits :=
  inferInstanceAs (Decidable (_ ≤ _))

theorem encLog_eq (payload : OpPayload) :
    encLog payload = ((Writer.alloc sizeofOpPayload).put payload.layout).map Writer.buffer := by
  simp only [encLog, OpPayload.layout, ← Writer.put_bind_put, Option.map_eq_bind,
    Option.bind_eq_bind, Option.pure_def, Option.bind_assoc, Function.comp_def]

theorem isSome_encLog (payload : OpPayload) : (encLog payload).isSome ↔ payload.Fits := by
  rw [encLog_eq, Option.isSome_map, Writer.isSome_put]
  simp only [Writer.alloc, sizeofOpPayload, OpPayload.layout, OpPayload.Fits, List.length_nil,
    List.length_append, length_i32Bytes, length_strBytes]
  omega

theorem decLog_layout {payload : OpPayload} (h : payload.Fits) (rest : List UInt8) :
    decLog (payload.layout ++ rest) = some payload := by
  unfold OpPayload.Fits at h
  have hp : payload.path.length < 2 ^ 32 := by omega
  have hc : payload.content.length < 2 ^ 32 := by omega
  simp [decLog, OpPayload.layout, getI32_i32Bytes, getStr_strBytes hp, getStr_strBytes hc]

theorem decLog_encLog {payload : OpPayload} {data : List UInt8} (h : encLog payload = some data) :
    decLog data = some payload := by
  have hf : payload.Fits := (isSome_encLog payload).mp (by simp [h])
  rw [encLog_eq, Option.map_eq_some_iff] at h
  obtain ⟨w, hw, rfl⟩ := h
  obtain ⟨rest, hrest⟩ := Writer.buffer_eq hw
  rw [hrest, Writer.alloc, List.nil_append]
  exact decLog_layout hf rest

/-- The codec's round trip: the payload is encoded, and decoded from the buffer unchanged. -/
def RoundTrips (payload : OpPayload) : Prop :=
  ∃ data, encLog payload = some data ∧ decLog data = some payload

theorem roundTrips_iff (payload : OpPayload) :
    RoundTrips payload ↔ payload.path.length + payload.content.length ≤ 60 := by
  constructor
  · rintro ⟨data, h, -⟩
    exact (isSome_encLog payload).mp (by simp [h])
  · intro h
    obtain ⟨data, hd⟩ := Option.isSome_iff_exists.mp ((isSome_encLog payload).mpr h)
    exact ⟨data, hd, decLog_encLog hd⟩

/-- Writing fifty-five bytes to a path of six throws, though the path is of a size supported. -/
theorem not_roundTrips_supported_path :
    ¬ ∀ payload : OpPayload, payload.path.length ≤ maxPathSize → RoundTrips payload := by
  intro h
  obtain ⟨data, hd, -⟩ := h ⟨.write, ascii ['.', '/', 't', 'e', 's', 't'],
    List.replicate 55 0⟩ (by decide)
  have hf := (isSome_encLog _).mp (by rw [hd]; rfl)
  revert hf
  decide

end LockService
