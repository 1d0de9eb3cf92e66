import DariyaKyu.Common.Errors
import Std.Data.String.ToNat

/-!
Numbers written out. The digits of a number are behind the last dash of a name
that ends in one, and say which number it is.
-/

namespace DariyaKyu

set_option autoImplicit false

theorem to_string_digits (number : Nat) :
    toStringBytes (number : Int) = (Nat.toDigits 10 number).map fun digit => UInt8.ofNat digit.toNat := by
  have text : (toString (number : Int)).toList = Nat.toDigits 10 number := Nat.toList_repr
  rw [toStringBytes, text]

theorem digit_range {number : Nat} {digit : Char} (member : digit ∈ Nat.toDigits 10 number) :
    48 ≤ digit.toNat ∧ digit.toNat ≤ 57 := by
  have isDigit := Nat.isDigit_of_mem_toDigits (by decide) (by decide) member
  simp only [Char.isDigit, Bool.and_eq_true, decide_eq_true_eq] at isDigit
  exact isDigit

theorem no_dash_in_digits (number : Nat) : ∀ byte ∈ toStringBytes (number : Int), byte ≠ 45 := by
  intro byte member
  rw [to_string_digits] at member
  obtain ⟨digit, inside, rfl⟩ := List.mem_map.mp member
  have range := digit_range inside
  intro dash
  have value := congrArg UInt8.toNat dash
  simp only [UInt8.toNat_ofNat', UInt8.reduceToNat] at value
  omega

theorem to_string_bytes_injective {first second : Nat}
    (same : toStringBytes (first : Int) = toStringBytes (second : Int)) : first = second := by
  have back : ∀ number : Nat,
      (toStringBytes (number : Int)).map (fun byte => Char.ofNat byte.toNat) = Nat.toDigits 10 number := by
    intro number
    rw [to_string_digits, List.map_map]
    refine Eq.trans ?_ (List.map_id (Nat.toDigits 10 number))
    apply List.map_congr_left
    intro digit member
    have range := digit_range member
    have small : digit.toNat % 2 ^ 8 = digit.toNat := by omega
    simp only [Function.comp_apply, UInt8.toNat_ofNat', small, Char.ofNat_toNat, id]
  have digits : Nat.toDigits 10 first = Nat.toDigits 10 second := by
    rw [← back first, ← back second, same]
  have numbers := congrArg (fun digits => Nat.ofDigitChars 10 digits 0) digits
  simpa using numbers

theorem take_while_number (name : Bytes) (number : Nat) :
    (name ++ [45] ++ toStringBytes (number : Nat)).reverse.takeWhile (· ≠ 45) =
      (toStringBytes (number : Int)).reverse := by
  have digits : ∀ byte ∈ (toStringBytes (number : Int)).reverse, decide (byte ≠ 45) = true := by
    intro byte member
    have different := no_dash_in_digits number byte (List.mem_reverse.mp member)
    simpa using different
  rw [List.reverse_append, List.takeWhile_append_of_pos digits]
  simp

end DariyaKyu
