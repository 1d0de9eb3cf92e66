import DariyaKyu.Common.Buffer

/-!
`protocol/frame.cpp`: every request and every response is one frame, a signed
32-bit length and that many bytes. A stream is what the peer sends up to where
it closes: short reads are looped over and a reset counts as an end, so nothing
else of the socket is seen.
-/

namespace DariyaKyu.Protocol

set_option autoImplicit false

def kFramePrefixBytes : Nat := 4

/-- The bound a connection passes to `readFrame` unless told otherwise. -/
def kMaxFrameBytes : Nat := 100 * 2 ^ 20

/-- Fills a buffer from the stream. The end of the stream is clean only when
nothing had been read yet; an empty buffer is full at once. -/
def readExactly (stream : Bytes) (count : Nat) : Except Error (Option (Bytes × Bytes)) :=
  if count = 0 then .ok (some ([], stream))
  else if stream.length = 0 then .ok none
  else if stream.length < count then
    .error (.corruptData s!"frame: stream ended after {stream.length} of {count} byte(s)")
  else .ok (some (stream.take count, stream.drop count))

def readFrame (maxFrameBytes : Nat) (stream : Bytes) : Except Error (Option (Bytes × Bytes)) :=
  match readExactly stream kFramePrefixBytes with
  | .error failure => .error failure
  | .ok none => .ok none
  | .ok (some (front, stream)) =>
      let length := asSigned 32 (beNat front)
      if length < 0 then .error (.corruptData s!"frame: negative length {length}")
      else if maxFrameBytes < length.toNat then
        .error (.corruptData s!"frame: length {length} exceeds the maximum of {maxFrameBytes}")
      else
        match readExactly stream length.toNat with
        | .error failure => .error failure
        | .ok none =>
            .error (.corruptData s!"frame: stream ended before its {length} byte payload")
        | .ok (some taken) => .ok (some taken)

/-- The prefix of a frame; a longer payload does not fit the length. -/
def writeFrameLength (payloadBytes : Nat) : Except Error Bytes :=
  if 2 ^ 31 - 1 < payloadBytes then
    .error (.error s!"frame: payload of {payloadBytes} bytes does not fit a 32-bit length")
  else .ok (writeInt32 payloadBytes)

def writeFrame (payload : Bytes) : Except Error Bytes := do
  let front ← writeFrameLength payload.length
  return front ++ payload

def framed (payload : Bytes) : Bytes := writeInt32 payload.length ++ payload

structure Frameable (maxFrameBytes : Nat) (payload : Bytes) : Prop where
  bounded : payload.length ≤ maxFrameBytes
  fits : payload.length < 2 ^ 31

def CutFrame (maxFrameBytes : Nat) (cut : Bytes) : Prop :=
  ∃ payload, Frameable maxFrameBytes payload ∧ cut <+: framed payload ∧ cut ≠ framed payload

section Framing

variable {maxFrameBytes : Nat} {payload : Bytes}

@[simp] theorem frame_length_size (payload : Bytes) : (writeInt32 payload.length).length = 4 := by
  simp [writeInt32, writeInt]

theorem framed_length (payload : Bytes) : (framed payload).length = 4 + payload.length := by
  simp [framed]

theorem frame_length_read (fits : payload.length < 2 ^ 31) :
    asSigned 32 (beNat (writeInt32 payload.length)) = payload.length := by
  have isSigned : FitsSigned 32 payload.length := by
    unfold FitsSigned
    omega
  have bounded := as_unsigned_lt 32 payload.length
  rw [writeInt32, writeInt, be_nat_be_bytes, Nat.mod_eq_of_lt (by simpa using bounded)]
  exact as_signed_as_unsigned 32 (by decide) _ isSigned

theorem read_exactly_append (taken rest : Bytes) :
    readExactly (taken ++ rest) taken.length = .ok (some (taken, rest)) := by
  unfold readExactly
  split
  · next empty =>
    rw [List.length_eq_zero_iff.mp empty]
    rfl
  · next occupied =>
    have long : (taken ++ rest).length = taken.length + rest.length := List.length_append
    rw [if_neg (by omega), if_neg (by omega), List.take_left, List.drop_left]

theorem read_exactly_short {stream : Bytes} {count : Nat} (short : stream.length < count)
    (taken : Bytes × Bytes) : readExactly stream count ≠ .ok (some taken) := by
  have wanted : count ≠ 0 := by omega
  simp only [readExactly, wanted, short, if_false, if_true]
  split <;> simp

theorem read_frame_framed (frameable : Frameable maxFrameBytes payload) (rest : Bytes) :
    readFrame maxFrameBytes (framed payload ++ rest) = .ok (some (payload, rest)) := by
  have front := read_exactly_append (writeInt32 payload.length) (payload ++ rest)
  rw [frame_length_size] at front
  have bounded := frameable.bounded
  simp only [readFrame, framed, List.append_assoc, kFramePrefixBytes, front,
    frame_length_read frameable.fits, Int.toNat_natCast]
  rw [if_neg (by omega), if_neg (by omega), read_exactly_append payload rest]

/-- A frame above the limit is refused by its length, whatever is behind that. -/
theorem read_frame_large {length : Int} (isLength : length = payload.length) (fits : payload.length < 2 ^ 31)
    (large : maxFrameBytes < payload.length) (rest : Bytes) :
    readFrame maxFrameBytes (framed payload ++ rest) =
      .error (.corruptData s!"frame: length {length} exceeds the maximum of {maxFrameBytes}") := by
  have front := read_exactly_append (writeInt32 payload.length) (payload ++ rest)
  rw [frame_length_size] at front
  simp only [readFrame, framed, List.append_assoc, kFramePrefixBytes, front, frame_length_read fits, isLength,
    Int.toNat_natCast]
  rw [if_neg (by omega), if_pos large]

theorem read_frame_cut {cut : Bytes} (isCut : CutFrame maxFrameBytes cut) (taken : Bytes × Bytes) :
    readFrame maxFrameBytes cut ≠ .ok (some taken) := by
  obtain ⟨payload, frameable, isFront, shorter⟩ := isCut
  have size : cut.length < 4 + payload.length := by
    have most := isFront.length_le
    rw [framed_length] at most
    have different : cut.length ≠ 4 + payload.length := by
      intro same
      exact shorter (isFront.eq_of_length (same.trans (framed_length payload).symm))
    omega
  by_cases inPrefix : cut.length < kFramePrefixBytes
  · have never := read_exactly_short inPrefix
    unfold readFrame
    split
    · simp
    · simp
    · next front stream found => exact absurd found (never _)
  · -- the prefix is whole, and what is behind it too short
    have whole : 4 ≤ cut.length := not_lt.mp inPrefix
    obtain ⟨body, isBody, rfl⟩ : ∃ body, body <+: payload ∧ cut = writeInt32 payload.length ++ body := by
      obtain ⟨more, split⟩ := isFront
      rw [framed] at split
      obtain ⟨body, rest, grouped⟩ | ⟨body, rest, grouped⟩ := List.append_eq_append_iff.mp split
      · have lengths := congrArg List.length rest
        rw [frame_length_size, List.length_append] at lengths
        have nothing : body = [] := by
          rw [← List.length_eq_zero_iff]
          omega
        refine ⟨[], List.nil_prefix, ?_⟩
        rw [nothing, List.append_nil] at rest
        rw [rest, List.append_nil]
      · exact ⟨body, ⟨more, grouped.symm⟩, rest⟩
    have short : body.length < payload.length := by
      rw [List.length_append, frame_length_size] at size
      omega
    have front := read_exactly_append (writeInt32 payload.length) body
    rw [frame_length_size] at front
    have bounded := frameable.bounded
    have never := read_exactly_short short
    simp only [readFrame, kFramePrefixBytes, front, frame_length_read frameable.fits, Int.toNat_natCast]
    rw [if_neg (by omega), if_neg (by omega)]
    split
    · simp
    · simp
    · next found => exact absurd found (never _)

end Framing

end DariyaKyu.Protocol
