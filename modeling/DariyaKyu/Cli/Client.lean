import DariyaKyu.Server.Connection

/-!
`cli/client.cpp`: a call is a frame out and the next frame in. The socket is the
bytes in each direction, so the two halves of a call are apart: between them the
client does nothing but wait.
-/

namespace DariyaKyu.Cli

set_option autoImplicit false

open Storage Protocol Server

structure Client where
  clientId : Bytes := asciiBytes "dariyakyu-cli"
  nextCorrelationId : Int := 1

namespace Client

def header (client : Client) (key : ApiKey) : RequestHeader where
  apiKey := key.number
  apiVersion := 0
  correlationId := client.nextCorrelationId
  clientId := client.clientId

def request (client : Client) (key : ApiKey) (body : Bytes) : Bytes :=
  encodeRequestHeader (client.header key) ++ body

/-- The id of a request is taken, whether or not the request goes out. -/
def advanced (client : Client) : Client :=
  { client with nextCorrelationId := client.nextCorrelationId + 1 }

def sends (client : Client) (key : ApiKey) (body : Bytes) : Except Error Bytes :=
  writeFrame (client.request key body)

/-- What `call` makes of the bytes that come back, and what it leaves of them. -/
def receives (correlationId : Int) (stream : Bytes) : Except Error (Bytes × Bytes) := do
  match ← readFrame kMaxFrameBytes stream with
  | none =>
      .error (.error "the broker closed the connection without answering — it may not support this request, or it may be shutting down")
  | some (frame, stream) =>
      let (given, input) ← decodeResponseHeader (.ofBytes frame)
      if given ≠ correlationId then
        .error (.corruptData s!"response carried correlation id {given}, expected {correlationId}")
      else do
        let (body, _) ← input.readBytes input.remaining
        return (body, stream)

/-- What becomes of a reply of so many bytes. One whose length does not fit 32 bits
is never written, and the broker closes instead; one above the limit is refused by
its length. -/
def takes (payloadBytes : Nat) : Except Error Unit :=
  let length : Int := payloadBytes
  if 2 ^ 31 - 1 < payloadBytes then
    .error (.error "the broker closed the connection without answering — it may not support this request, or it may be shutting down")
  else if kMaxFrameBytes < payloadBytes then
    .error (.corruptData s!"frame: length {length} exceeds the maximum of {kMaxFrameBytes}")
  else .ok ()

end Client

/-- The size of the reply to a fetch of one partition with so many bytes of records. -/
def fetchReplyBytes (topic : Bytes) (recordBytes : Nat) : Nat := 40 + topic.length + recordBytes

section Call

variable {client : Client} {key : ApiKey} {body : Bytes}

structure Client.Callable (client : Client) : Prop where
  correlationId : FitsSigned 32 client.nextCorrelationId
  clientId : client.clientId.length < 2 ^ 15

theorem key_number_fits (key : ApiKey) : FitsSigned 16 key.number := by
  cases key <;> decide

theorem header_encodable (callable : client.Callable) : (client.header key).Encodable where
  apiKey := key_number_fits key
  apiVersion := (by decide : FitsSigned 16 0)
  correlationId := callable.correlationId
  clientId := callable.clientId

theorem sends_framed (fits : (client.request key body).length < 2 ^ 31) :
    client.sends key body = .ok (framed (client.request key body)) := by
  have small : ¬ 2 ^ 31 - 1 < (client.request key body).length := by omega
  simp only [Client.sends, writeFrame, writeFrameLength, if_neg small, except_ok_bind, framed]
  rfl

/-- The reply to a call is taken from the stream, and nothing behind it. -/
theorem receives_framed {correlationId : Int} (fits : FitsSigned 32 correlationId) {given : Bytes}
    (small : (encodeResponseHeader correlationId ++ given).length ≤ kMaxFrameBytes) (rest : Bytes) :
    Client.receives correlationId (framed (encodeResponseHeader correlationId ++ given) ++ rest) =
      .ok (given, rest) := by
  have frameable : Frameable kMaxFrameBytes (encodeResponseHeader correlationId ++ given) :=
    ⟨small, by unfold kMaxFrameBytes at small; omega⟩
  have whole : BufferReader.readBytes ⟨0 + 4, given⟩ given.length = .ok (given, ⟨0 + 4 + given.length, []⟩) := by
    have taken := BufferReader.read_bytes_append (0 + 4) given []
    rwa [List.append_nil] at taken
  simp only [Client.receives, read_frame_framed frameable, except_ok_bind, BufferReader.ofBytes,
    decode_response_header_encode fits, BufferReader.remaining, whole]
  simp [pure, Except.pure]

/-- A reply that is too long for its length is not written, and one above the limit is
not read; any other is handed on. -/
theorem receives_written {correlationId : Int} (fits : FitsSigned 32 correlationId) (given : Bytes) :
    Client.receives correlationId ((writeFrame (encodeResponseHeader correlationId ++ given)).toOption.getD []) =
      (Client.takes (encodeResponseHeader correlationId ++ given).length).map fun _ => (given, []) := by
  unfold Client.takes
  split
  · next long =>
    simp only [writeFrame, writeFrameLength, if_pos long, except_error_bind]
    rfl
  · next fitting =>
    have written : writeFrame (encodeResponseHeader correlationId ++ given) =
        .ok (framed (encodeResponseHeader correlationId ++ given)) := by
      simp only [writeFrame, writeFrameLength, if_neg fitting, except_ok_bind, framed]
      rfl
    rw [written, Except.toOption, Option.getD_some]
    split
    · next large =>
      have refused := read_frame_large rfl (by omega) large []
      rw [List.append_nil] at refused
      simp only [Client.receives, refused, except_error_bind]
      rfl
    · next small =>
      have whole := receives_framed fits (Nat.not_lt.mp small) []
      rwa [List.append_nil] at whole

theorem takes_iff {payloadBytes : Nat} : Client.takes payloadBytes = .ok () ↔ payloadBytes ≤ kMaxFrameBytes := by
  have limit : kMaxFrameBytes ≤ 2 ^ 31 - 1 := by decide
  unfold Client.takes
  split
  · simp only [reduceCtorEq, false_iff]
    omega
  split
  · simp only [reduceCtorEq, false_iff]
    omega
  · simp only [true_iff]
    omega

end Call

theorem encode_fetched_bytes (state : Response × Bytes) (fetched : FetchedPartition) :
    (encodeFetched state fetched).1.totalBytes + (encodeFetched state fetched).2.length =
      state.1.totalBytes + state.2.length + 26 + fetched.answer.records.length := by
  have front : (fetchedFront fetched.answer).length = 26 := by
    simp [fetchedFront, writeErrorCode, writeInt16, writeInt32, writeInt64, writeInt]
  simp only [encodeFetched]
  split
  · next empty => simp [front, empty, Nat.add_assoc]
  · simp [front, Nat.add_assoc]

theorem fetch_reply_bytes {correlationId : Int} {topic : Bytes} {fetched : FetchedPartition} {response : Response}
    (encoded : encodeFetchResponse (({} : Response).append (encodeResponseHeader correlationId)) [⟨topic, [fetched]⟩] =
      .ok response) : response.totalBytes = fetchReplyBytes topic fetched.answer.records.length := by
  obtain ⟨⟨grown, buffer⟩, folded, made⟩ := except_bind_ok encoded
  obtain ⟨state, topicWritten, ended⟩ := except_bind_ok folded
  obtain ⟨name, named, partition⟩ := except_bind_ok topicWritten
  have isName : name.length = 2 + topic.length := by
    unfold writeString at named
    split at named
    · cases named
    · cases named
      simp [writeInt16, writeInt]
  have start : (({} : Response).append (encodeResponseHeader correlationId)).totalBytes = 4 := by
    rw [total_bytes_append]
    rfl
  have last := Except.ok.inj ended
  have isState := Except.ok.inj partition
  have isResponse := Except.ok.inj made
  rw [List.foldl_cons, List.foldl_nil] at isState
  have bytes := congrArg (fun state => state.1.totalBytes + state.2.length) isState
  simp only [encode_fetched_bytes, last] at bytes
  rw [← isResponse, total_bytes_append, ← bytes, start]
  simp only [fetchReplyBytes, isName, List.length_append, writeInt32, writeInt, be_bytes_length]
  omega

end DariyaKyu.Cli
