import DariyaKyu.Common.Errors

/-!
`common/file_handle.cpp`: an open file. Reads see the whole file; appends go to
the write position, which a failed append does not move. A file can therefore
be longer than its write position, by what a torn write left behind.
-/

namespace DariyaKyu

set_option autoImplicit false

/-- How a `pwrite` fails: after how many bytes, and with which error. -/
structure WriteFault where
  written : Nat
  errnoValue : Nat
  deriving DecidableEq, Repr

structure FileHandle where
  fd : Int
  path : String
  bytes : Bytes
  writePosition : Nat
  within : writePosition ≤ bytes.length
  deriving DecidableEq, Repr

/-- File contents after `data` was written over them at a position inside. -/
def overwrite (bytes : Bytes) (position : Nat) (data : Bytes) : Bytes :=
  bytes.take position ++ data ++ bytes.drop (position + data.length)

theorem overwrite_length {bytes : Bytes} {position : Nat} (data : Bytes)
    (inside : position ≤ bytes.length) : position + data.length ≤ (overwrite bytes position data).length := by
  simp only [overwrite, List.length_append, List.length_take, List.length_drop]
  omega

namespace FileHandle

def ofContents (fd : Int) (path : String) (bytes : Bytes) : FileHandle where
  fd := fd
  path := path
  bytes := bytes
  writePosition := bytes.length
  within := Nat.le_refl _

def size (handle : FileHandle) : Nat := handle.writePosition

def append (handle : FileHandle) (data : Bytes) (fault : Option WriteFault) :
    FileHandle × Except Error Nat :=
  match fault with
  | none =>
      ({ handle with
          bytes := overwrite handle.bytes handle.writePosition data
          writePosition := handle.writePosition + data.length
          within := overwrite_length data handle.within },
        .ok handle.writePosition)
  | some fault =>
      ({ handle with
          bytes := overwrite handle.bytes handle.writePosition (data.take fault.written)
          within := by
            have := overwrite_length (data.take fault.written) handle.within
            omega },
        .error (.ioError "pwrite" handle.path fault.errnoValue))

/-- `pread`: short only at the end of the file. -/
def readAt (handle : FileHandle) (position count : Nat) : Bytes :=
  (handle.bytes.drop position).take count

theorem read_at_overwrite {bytes data : Bytes} {position count ends : Nat} (inside : ends ≤ bytes.length)
    (before : position + count ≤ ends) :
    ((overwrite bytes ends data).drop position).take count = (bytes.drop position).take count := by
  have front : ∀ other : Bytes, (other.drop position).take count =
      ((other.take ends).drop position).take count := by
    intro other
    rw [List.drop_take, List.take_take, Nat.min_eq_left (by omega)]
  rw [front (overwrite bytes ends data), front bytes, overwrite, List.append_assoc,
    List.take_left' (by simp [inside])]

theorem append_keeps (handle : FileHandle) (data : Bytes) (fault : Option WriteFault) :
    (handle.append data fault).1.fd = handle.fd ∧ handle.size ≤ (handle.append data fault).1.size ∧
      ∀ position count, position + count ≤ handle.size →
        (handle.append data fault).1.readAt position count = handle.readAt position count := by
  cases fault with
  | none =>
      exact ⟨rfl, Nat.le_add_right _ _, fun _ _ before => read_at_overwrite handle.within before⟩
  | some fault =>
      exact ⟨rfl, Nat.le_refl _, fun _ _ before => read_at_overwrite handle.within before⟩

def truncate (handle : FileHandle) (newSize : Nat) : FileHandle where
  fd := handle.fd
  path := handle.path
  bytes := handle.bytes.take newSize ++ List.replicate (newSize - handle.bytes.length) 0
  writePosition := newSize
  within := by
    simp only [List.length_append, List.length_take, List.length_replicate]
    omega

/-- Cutting a freshly opened file at a position inside it, if that is not its
end already. -/
theorem cut_spec (handle : FileHandle) {good : Nat} (full : handle.size = handle.bytes.length)
    (inside : good ≤ handle.bytes.length) :
    (if good < handle.size then handle.truncate good else handle).bytes = handle.bytes.take good ∧
      (if good < handle.size then handle.truncate good else handle).size = good ∧
      (if good < handle.size then handle.truncate good else handle).fd = handle.fd := by
  split
  · refine ⟨?_, rfl, rfl⟩
    simp only [truncate, Nat.sub_eq_zero_of_le inside, List.replicate_zero, List.append_nil]
  · next whole =>
    have ends : good = handle.bytes.length := by omega
    exact ⟨by rw [ends, List.take_length], by omega, rfl⟩

theorem cut_of_contents (fd : Int) (path : String) {front bytes : Bytes} (isFront : front <+: bytes) :
    (if front.length < (ofContents fd path bytes).size then
        (ofContents fd path bytes).truncate front.length
      else ofContents fd path bytes) = ofContents fd path front := by
  have taken := List.prefix_iff_eq_take.mp isFront
  have within := isFront.length_le
  split
  · simp [truncate, ofContents, Nat.sub_eq_zero_of_le within, ← taken]
  · next whole =>
    have same : front = bytes := by
      rw [taken, List.take_of_length_le (by simpa [ofContents, size] using whole)]
    rw [same]

end FileHandle

end DariyaKyu
