import Mathlib.Logic.Basic

/-!
The error hierarchy and the small value types every layer shares. A thrown
`Error` is a value of `Except`; the text a constructor carries is the text the
source hands to `what()`. `std::string` and `span<const uint8_t>` are both byte
sequences here, because no code path ever asks whether a topic name is UTF-8.
-/

namespace DariyaKyu

set_option autoImplicit false

abbrev Bytes := List UInt8

/-- `errors.hpp`. The base class, the two subclasses without data of their own,
and `IoError`, whose three facts callers branch on. -/
inductive Error where
  | error (what : String)
  | ioError (operation path : String) (errnoValue : Nat)
  | offsetInvariantViolated (what : String)
  | corruptData (what : String)
  deriving DecidableEq, Repr

def ENOENT : Nat := 2
def EEXIST : Nat := 17

/-- Offsets wrap an int64, partition ids and epochs an int32. All three are
integers here; a range matters only where a value is written to bytes. -/
def kUnknownOffset : Int := -1
def kNoEpoch : Int := -1

/-- A location in a file: `FileRange` of `types.hpp`. The descriptor is the
identity of the open file description, so two opens never share one. -/
structure FileRange where
  fd : Int := -1
  position : Nat := 0
  length : Nat := 0
  deriving DecidableEq, Repr

/-- A partition of a topic; the name is bytes, which is all it has to be. -/
structure TopicPartition where
  topic : Bytes
  partition : Int
  deriving DecidableEq, Repr

def FileRange.empty (range : FileRange) : Bool := range.length == 0

def toStringBytes (value : Int) : Bytes := (toString value).toList.map fun digit => UInt8.ofNat digit.toNat

/-- "orders-3": the text form, which is also the name of the directory. -/
def TopicPartition.toBytes (tp : TopicPartition) : Bytes :=
  tp.topic ++ [45] ++ toStringBytes tp.partition

/-- Text of a byte string inside an error message. -/
def shownBytes (bytes : Bytes) : String :=
  String.ofList (bytes.map fun byte => Char.ofNat byte.toNat)

/-- What a successful bind says about its two halves. Every proof about a
fallible function of the source starts by peeling calls apart with it. -/
theorem except_bind_ok {ε α β : Type} {first : Except ε α} {next : α → Except ε β} {result : β}
    (succeeded : (first >>= next) = .ok result) :
    ∃ value, first = .ok value ∧ next value = .ok result := by
  cases first with
  | error failure => cases succeeded
  | ok value => exact ⟨value, rfl, succeeded⟩

theorem except_bind_error {ε α β : Type} {first : Except ε α} {next : α → Except ε β} {failure : ε}
    (failed : (first >>= next) = .error failure) :
    first = .error failure ∨ ∃ value, first = .ok value ∧ next value = .error failure := by
  cases first with
  | error other =>
      cases failed
      exact .inl rfl
  | ok value => exact .inr ⟨value, rfl, failed⟩

theorem map_ok_eq {ε α β : Type} {f : α → β} (injective : ∀ one other, f one = f other → one = other)
    {result : Except ε α} {value : α} (same : result.map f = .ok (f value)) : result = .ok value := by
  cases result with
  | error failure => cases same
  | ok other => exact congrArg Except.ok (injective _ _ (Except.ok.inj same))

theorem ok_of_to_option {ε α : Type} {result : Except ε α} {value : α}
    (found : result.toOption = some value) : result = .ok value := by
  cases result with
  | error failure => cases found
  | ok other => exact congrArg Except.ok (Option.some.inj found)

theorem error_of_to_option {ε α : Type} {result : Except ε α} (nothing : result.toOption = none) :
    ∃ failure, result = .error failure := by
  cases result with
  | error failure => exact ⟨failure, rfl⟩
  | ok value => cases nothing

@[simp] theorem except_ok_bind {ε α β : Type} (value : α) (next : α → Except ε β) :
    ((Except.ok value : Except ε α) >>= next) = next value := rfl

@[simp] theorem except_error_bind {ε α β : Type} (failure : ε) (next : α → Except ε β) :
    ((Except.error failure : Except ε α) >>= next) = .error failure := rfl

end DariyaKyu
