import DariyaKyu.Protocol.Wire

/-!
`protocol/request_header.cpp`: what every request begins with. Neither the key
nor the version is looked at here, because an answer that refuses them needs the
correlation id behind them.
-/

namespace DariyaKyu.Protocol

set_option autoImplicit false

/-- The requests there are, under their numbers on the wire. -/
inductive ApiKey where
  | produce
  | fetch
  | listOffsets
  | metadata
  | offsetCommit
  | offsetFetch
  | findCoordinator
  | joinGroup
  | heartbeat
  | leaveGroup
  | syncGroup
  | createTopic
  deriving DecidableEq, Repr

def ApiKey.number : ApiKey → Int
  | .produce => 0
  | .fetch => 1
  | .listOffsets => 2
  | .metadata => 3
  | .offsetCommit => 8
  | .offsetFetch => 9
  | .findCoordinator => 10
  | .joinGroup => 11
  | .heartbeat => 12
  | .leaveGroup => 13
  | .syncGroup => 14
  | .createTopic => 19

/-- The key is the number that came, whether or not it is one of them. -/
structure RequestHeader where
  apiKey : Int := ApiKey.metadata.number
  apiVersion : Int := 0
  correlationId : Int := 0
  clientId : Bytes := []
  deriving DecidableEq, Repr

/-- The length of the client id is cast down to 16 bits. -/
def encodeRequestHeader (header : RequestHeader) : Bytes :=
  writeInt16 header.apiKey ++ writeInt16 header.apiVersion ++ writeInt32 header.correlationId ++
    writeInt16 header.clientId.length ++ header.clientId

def decodeRequestHeader (input : BufferReader) : Except Error (RequestHeader × BufferReader) := do
  let (apiKey, input) ← input.readInt16
  let (apiVersion, input) ← input.readInt16
  let (correlationId, input) ← input.readInt32
  let (clientIdLength, input) ← input.readInt16
  if clientIdLength < 0 then
    if clientIdLength ≠ kNullStringLength then
      .error (.corruptData s!"request header: client id length {clientIdLength}")
    else .ok (⟨apiKey, apiVersion, correlationId, []⟩, input)
  else do
    let (clientId, input) ← input.readBytes clientIdLength.toNat
    return (⟨apiKey, apiVersion, correlationId, clientId⟩, input)

def encodeResponseHeader (correlationId : Int) : Bytes := writeInt32 correlationId

def decodeResponseHeader (input : BufferReader) : Except Error (Int × BufferReader) := input.readInt32

section Header

structure RequestHeader.Encodable (header : RequestHeader) : Prop where
  apiKey : FitsSigned 16 header.apiKey
  apiVersion : FitsSigned 16 header.apiVersion
  correlationId : FitsSigned 32 header.correlationId
  clientId : header.clientId.length < 2 ^ 15

theorem decode_request_header_encode {header : RequestHeader} (encodable : header.Encodable)
    (position : Nat) (rest : Bytes) :
    ∃ after, decodeRequestHeader ⟨position, encodeRequestHeader header ++ rest⟩ =
      .ok (header, ⟨after, rest⟩) := by
  have length : FitsSigned 16 header.clientId.length := by
    have short := encodable.clientId
    unfold FitsSigned
    omega
  have notNegative : ¬ (header.clientId.length : Int) < 0 := by omega
  simp only [decodeRequestHeader, encodeRequestHeader, List.append_assoc, BufferReader.readInt16,
    BufferReader.readInt32, writeInt16, writeInt32]
  rw [BufferReader.read_int_write_int 16 _ (by decide) (by decide) _ encodable.apiKey, except_ok_bind,
    BufferReader.read_int_write_int 16 _ (by decide) (by decide) _ encodable.apiVersion, except_ok_bind,
    BufferReader.read_int_write_int 32 _ (by decide) (by decide) _ encodable.correlationId, except_ok_bind,
    BufferReader.read_int_write_int 16 _ (by decide) (by decide) _ length, except_ok_bind,
    if_neg notNegative, Int.toNat_natCast, BufferReader.read_bytes_append]
  exact ⟨_, rfl⟩

theorem decode_response_header_encode {correlationId : Int} (fits : FitsSigned 32 correlationId)
    (position : Nat) (rest : Bytes) :
    decodeResponseHeader ⟨position, encodeResponseHeader correlationId ++ rest⟩ =
      .ok (correlationId, ⟨position + 4, rest⟩) :=
  BufferReader.read_int_write_int 32 position (by decide) (by decide) correlationId fits rest

end Header

end DariyaKyu.Protocol
