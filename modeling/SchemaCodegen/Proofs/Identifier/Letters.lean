import SchemaCodegen.Identifier

/-!
# Letters in upper case

The classes of ASCII characters as ranges of codes, and what upper case does to them: a lower-case
letter becomes an upper-case one, and any other character stays as it is.
-/

namespace SchemaCodegen

variable {c : Char}

theorem isUpper_iff_toNat : isUpper c = true ↔ 65 ≤ c.toNat ∧ c.toNat ≤ 90 := by
  simp [isUpper, Char.le_def, UInt32.le_iff_toNat_le]

theorem isLower_iff_toNat : isLower c = true ↔ 97 ≤ c.toNat ∧ c.toNat ≤ 122 := by
  simp [isLower, Char.le_def, UInt32.le_iff_toNat_le]

theorem isNumeral_iff_toNat : isNumeral c = true ↔ 48 ≤ c.toNat ∧ c.toNat ≤ 57 := by
  simp [isNumeral, Char.le_def, UInt32.le_iff_toNat_le]

/-- What is no lower-case letter is in upper case as it is. -/
theorem toUpper_of_not_isLower (h : isLower c = false) : toUpper c = c :=
  if_neg (by simp [h])

theorem isUpper_toUpper_of_isLower (lower : isLower c = true) : isUpper (toUpper c) = true := by
  obtain ⟨low, high⟩ := isLower_iff_toNat.1 lower
  have valid : (c.toNat - 32).isValidChar := .inl (by omega)
  have code : (toUpper c).toNat = c.toNat - 32 := by
    rw [toUpper, if_pos lower, Char.ofNat, dif_pos valid]
    rfl
  rw [isUpper_iff_toNat, code]
  omega

theorem isLower_eq_false_of_isUpper (upper : isUpper c = true) : isLower c = false := by
  rw [Bool.eq_false_iff, Ne, isLower_iff_toNat]
  have := isUpper_iff_toNat.1 upper
  omega

theorem isLower_eq_false_of_isNumeral (numeral : isNumeral c = true) : isLower c = false := by
  rw [Bool.eq_false_iff, Ne, isLower_iff_toNat]
  have := isNumeral_iff_toNat.1 numeral
  omega

theorem isNumeral_eq_false_of_isUpper (upper : isUpper c = true) : isNumeral c = false := by
  rw [Bool.eq_false_iff, Ne, isNumeral_iff_toNat]
  have := isUpper_iff_toNat.1 upper
  omega

/-- No letter in upper case is a lower-case letter. -/
theorem isLower_toUpper (c : Char) : isLower (toUpper c) = false := by
  cases lower : isLower c with
  | true => exact isLower_eq_false_of_isUpper (isUpper_toUpper_of_isLower lower)
  | false => rw [toUpper_of_not_isLower lower, lower]

theorem toUpper_toUpper (c : Char) : toUpper (toUpper c) = toUpper c :=
  toUpper_of_not_isLower (isLower_toUpper c)

theorem toUpper_of_isUpper (upper : isUpper c = true) : toUpper c = c :=
  toUpper_of_not_isLower (isLower_eq_false_of_isUpper upper)

theorem isNumeral_toUpper (c : Char) : isNumeral (toUpper c) = isNumeral c := by
  cases lower : isLower c with
  | true =>
      rw [isNumeral_eq_false_of_isUpper (isUpper_toUpper_of_isLower lower)]
      cases numeral : isNumeral c with
      | true => exact (isLower_eq_false_of_isNumeral numeral).symm.trans lower
      | false => rfl
  | false => rw [toUpper_of_not_isLower lower]

theorem isWordChar_toUpper (word : isWordChar c = true) : isWordChar (toUpper c) = true := by
  cases lower : isLower c with
  | true => rw [isWordChar, isUpper_toUpper_of_isLower lower, Bool.true_or, Bool.true_or]
  | false => rwa [toUpper_of_not_isLower lower]

end SchemaCodegen
