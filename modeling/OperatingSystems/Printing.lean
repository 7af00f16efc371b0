import OperatingSystems.Texts

/-!
# Printing numbers

The conversions of `printf` for integers, and that what they print is a numeral
with the same value.
-/

namespace OperatingSystems.Texts

/-- `%lu`, of a value that fits. -/
def printUnsigned (n : Nat) : Text := Nat.toDigits 10 n

/-- `%d`. -/
def printInt (i : Int) : Text :=
  if i < 0 then '-' :: printUnsigned i.natAbs else printUnsigned i.natAbs

/-- `%0<width>lu`: with zeros in front up to this width. -/
def printPadded (width n : Nat) : Text := (printUnsigned n).leftpad width '0'

/-- A `long` as `%lu` takes it. -/
def asUnsigned (value : Int) : Nat := (value % 2 ^ 64).toNat

variable {n k width : Nat} {i : Int} {c : Char}

theorem asUnsigned_lt (value : Int) : asUnsigned value < 2 ^ 64 := by
  unfold asUnsigned
  omega

theorem printUnsigned_numeral (n : Nat) : IsNumeral (printUnsigned n) :=
  ⟨Nat.toDigits_ne_nil, fun _ member => Nat.isDigit_of_mem_toDigits (by decide) (by decide) member⟩

/-- What was printed is read back. -/
@[simp] theorem decimal_printUnsigned (n : Nat) : decimal (printUnsigned n) = n :=
  Nat.ofDigitChars_ten_toDigits

theorem length_printUnsigned (positive : 0 < k) (small : n < 10 ^ k) : (printUnsigned n).length ≤ k :=
  (Nat.length_toDigits_le_iff (by decide) positive).mpr small

/-- An `int` takes a sign and ten digits at most. -/
theorem length_printInt (low : -2 ^ 31 ≤ i) (high : i < 2 ^ 31) : (printInt i).length ≤ 11 := by
  have digits : (printUnsigned i.natAbs).length ≤ 10 := length_printUnsigned (by decide) (by omega)
  unfold printInt
  split
  · rw [List.length_cons]
    omega
  · omega

/-- A numeral, with a sign or with zeros in front, has no other characters. -/
theorem mem_printInt (member : c ∈ printInt i) : c = '-' ∨ c.isDigit = true := by
  unfold printInt at member
  split at member
  · rcases List.mem_cons.mp member with rfl | digit
    · exact Or.inl rfl
    · exact Or.inr ((printUnsigned_numeral _).2 c digit)
  · exact Or.inr ((printUnsigned_numeral _).2 c member)

theorem printPadded_digits (member : c ∈ printPadded width n) : c.isDigit = true := by
  unfold printPadded List.leftpad at member
  rcases List.mem_append.mp member with zeros | digit
  · rw [List.eq_of_mem_replicate zeros]
    rfl
  · exact (printUnsigned_numeral _).2 c digit

theorem length_printPadded (width n : Nat) : (printPadded width n).length = max width (printUnsigned n).length :=
  List.length_leftpad

end OperatingSystems.Texts
