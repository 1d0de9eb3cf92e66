import DariyaKyu.Common.FileHandle
import DariyaKyu.Protocol.Frame

/-!
`protocol/response.cpp`: a response as the pieces that go out one after the
other, bytes that were built here and places in a file. The length in front is
known before a byte of a file is read. A place in a file comes with the open
file its descriptor names, since that is what the kernel copies from.
-/

namespace DariyaKyu.Protocol

set_option autoImplicit false

structure FileSlice where
  file : FileHandle
  position : Nat
  length : Nat

inductive ResponseSegment where
  | buffer (bytes : Bytes)
  | file (range : FileSlice)

namespace ResponseSegment

def size : ResponseSegment → Nat
  | .buffer bytes => bytes.length
  | .file range => range.length

def sent : ResponseSegment → Bytes
  | .buffer bytes => bytes
  | .file range => range.file.readAt range.position range.length

def Covered : ResponseSegment → Prop
  | .buffer _ => True
  | .file range => range.position + range.length ≤ range.file.size

end ResponseSegment

structure Response where
  segments : List ResponseSegment := []

namespace Response

/-- Adjacent buffers become one; an empty one is dropped. -/
def append (response : Response) (buffer : Bytes) : Response :=
  if buffer.isEmpty then response
  else
    match response.segments.getLast? with
    | some (.buffer previous) => ⟨response.segments.dropLast ++ [.buffer (previous ++ buffer)]⟩
    | _ => ⟨response.segments ++ [.buffer buffer]⟩

def appendRange (response : Response) (range : FileSlice) : Response :=
  if range.length = 0 then response else ⟨response.segments ++ [.file range]⟩

def totalBytes (response : Response) : Nat := (response.segments.map (·.size)).sum

def sent (response : Response) : Bytes := response.segments.flatMap (·.sent)

/-- All pieces in one buffer. A `pread` moves what it is asked for here; Linux
stops one at `0x7ffff000` bytes, and a range just below 2^31 comes back short. -/
def materialise (response : Response) : Except Error Bytes :=
  response.segments.foldlM (fun flat segment =>
    if segment.sent.length ≠ segment.size then
      .error (.corruptData s!"response: a segment promised {segment.size} byte(s) but the file had {segment.sent.length}")
    else .ok (flat ++ segment.sent)) []

def Covered (response : Response) : Prop := ∀ segment ∈ response.segments, segment.Covered

end Response

/-- The frame of a response; `sendfile` takes from a file what it has there. -/
def writeResponse (response : Response) : Except Error Bytes := do
  let front ← writeFrameLength response.totalBytes
  return front ++ response.sent

section Appending

variable {response : Response}

theorem append_cases (response : Response) (buffer : Bytes) :
    (response.append buffer).segments = response.segments ∧ buffer = [] ∨
      (response.append buffer).segments = response.segments ++ [.buffer buffer] ∨
      ∃ before previous, response.segments = before ++ [.buffer previous] ∧
        (response.append buffer).segments = before ++ [.buffer (previous ++ buffer)] := by
  unfold Response.append
  split
  · next empty => exact .inl ⟨rfl, List.isEmpty_iff.mp empty⟩
  split
  · next previous last =>
    refine .inr (.inr ⟨response.segments.dropLast, previous, ?_, rfl⟩)
    exact (List.dropLast_append_getLast? _ last).symm
  · exact .inr (.inl rfl)

@[simp] theorem sent_append (response : Response) (buffer : Bytes) :
    (response.append buffer).sent = response.sent ++ buffer := by
  rcases append_cases response buffer with ⟨same, rfl⟩ | added | ⟨before, previous, was, joined⟩
  · simp [Response.sent, same]
  · simp [Response.sent, added, ResponseSegment.sent]
  · simp [Response.sent, was, joined, ResponseSegment.sent]

@[simp] theorem total_bytes_append (response : Response) (buffer : Bytes) :
    (response.append buffer).totalBytes = response.totalBytes + buffer.length := by
  rcases append_cases response buffer with ⟨same, rfl⟩ | added | ⟨before, previous, was, joined⟩
  · simp [Response.totalBytes, same]
  · simp [Response.totalBytes, added, ResponseSegment.size]
  · simp [Response.totalBytes, was, joined, ResponseSegment.size, Nat.add_assoc]

theorem Response.Covered.append (covered : response.Covered) (buffer : Bytes) :
    (response.append buffer).Covered := by
  intro segment member
  rcases append_cases response buffer with ⟨same, _⟩ | added | ⟨before, previous, was, joined⟩
  · rw [same] at member
    exact covered segment member
  · rw [added] at member
    rcases List.mem_append.mp member with old | new
    · exact covered segment old
    · rw [List.mem_singleton.mp new]
      trivial
  · rw [joined] at member
    rcases List.mem_append.mp member with old | new
    · exact covered segment (was ▸ List.mem_append_left _ old)
    · rw [List.mem_singleton.mp new]
      trivial

@[simp] theorem sent_append_range (response : Response) (range : FileSlice) :
    (response.appendRange range).sent =
      response.sent ++ range.file.readAt range.position range.length := by
  unfold Response.appendRange
  split
  · next empty => simp [empty, FileHandle.readAt]
  · simp [Response.sent, ResponseSegment.sent]

@[simp] theorem total_bytes_append_range (response : Response) (range : FileSlice) :
    (response.appendRange range).totalBytes = response.totalBytes + range.length := by
  unfold Response.appendRange
  split
  · next empty => simp [empty]
  · simp [Response.totalBytes, ResponseSegment.size]

theorem Response.Covered.append_range (covered : response.Covered) {range : FileSlice}
    (inside : range.position + range.length ≤ range.file.size) : (response.appendRange range).Covered := by
  unfold Response.appendRange
  split
  · exact covered
  · intro segment member
    rcases List.mem_append.mp member with old | new
    · exact covered segment old
    · rw [List.mem_singleton.mp new]
      exact inside

theorem empty_covered : ({} : Response).Covered := List.forall_mem_nil _

theorem read_at_length {file : FileHandle} {position length : Nat} (inside : position + length ≤ file.size) :
    (file.readAt position length).length = length := by
  have within := file.within
  unfold FileHandle.size at inside
  simp only [FileHandle.readAt, List.length_take, List.length_drop]
  omega

theorem segment_sent_length {segment : ResponseSegment} (covered : segment.Covered) :
    segment.sent.length = segment.size := by
  cases segment with
  | buffer bytes => rfl
  | file range => exact read_at_length covered

theorem sent_length (covered : response.Covered) : response.sent.length = response.totalBytes := by
  unfold Response.sent Response.totalBytes
  rw [List.length_flatMap]
  congr 1
  apply List.map_congr_left
  intro segment member
  exact segment_sent_length (covered segment member)

theorem materialise_whole (whole : ∀ segment ∈ response.segments, segment.sent.length = segment.size) :
    response.materialise = .ok response.sent := by
  have from_flat : ∀ (segments : List ResponseSegment) (flat : Bytes),
      (∀ segment ∈ segments, segment.sent.length = segment.size) →
      segments.foldlM (fun flat segment =>
        if segment.sent.length ≠ segment.size then
          (.error (.corruptData s!"response: a segment promised {segment.size} byte(s) but the file had {segment.sent.length}") :
            Except Error Bytes)
        else .ok (flat ++ segment.sent)) flat = .ok (flat ++ segments.flatMap (·.sent)) := by
    intro segments
    induction segments with
    | nil => intro flat _; simp [pure, Except.pure]
    | cons segment rest ih =>
        intro flat all
        obtain ⟨first, others⟩ := List.forall_mem_cons.mp all
        rw [List.foldlM_cons, if_neg (not_not.mpr first), except_ok_bind, List.flatMap_cons,
          ← List.append_assoc]
        exact ih (flat ++ segment.sent) others
  exact from_flat response.segments [] whole

theorem segment_sent_le (segment : ResponseSegment) : segment.sent.length ≤ segment.size := by
  cases segment with
  | buffer bytes => exact le_rfl
  | file range =>
      simp only [ResponseSegment.sent, ResponseSegment.size, FileHandle.readAt, List.length_take]
      exact Nat.min_le_left _ _

theorem pieces_whole (segments : List ResponseSegment)
    (all : (segments.flatMap (·.sent)).length = (segments.map (·.size)).sum) :
    ∀ segment ∈ segments, segment.sent.length = segment.size := by
  induction segments with
  | nil => exact List.forall_mem_nil _
  | cons segment rest ih =>
      have atMost : ∀ segments : List ResponseSegment,
          (segments.flatMap (·.sent)).length ≤ (segments.map (·.size)).sum := by
        intro segments
        rw [List.length_flatMap]
        exact List.sum_le_sum fun segment _ => segment_sent_le segment
      have first := segment_sent_le segment
      have others := atMost rest
      simp only [List.flatMap_cons, List.length_append, List.map_cons, List.sum_cons] at all
      rw [List.forall_mem_cons]
      exact ⟨by omega, ih (by omega)⟩

theorem write_response_framed (covered : response.Covered) (small : response.totalBytes ≤ 2 ^ 31 - 1) :
    writeResponse response = .ok (framed response.sent) := by
  have fits : ¬ 2 ^ 31 - 1 < response.totalBytes := not_lt.mpr small
  simp only [writeResponse, writeFrameLength, if_neg fits, except_ok_bind, framed, sent_length covered]
  rfl

end Appending

end DariyaKyu.Protocol
