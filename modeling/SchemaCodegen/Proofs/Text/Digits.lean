import SchemaCodegen.Text.Digit

/-!
# Numbers written and read

A number in decimal is read back, whatever its size (`readDigits?_toDigits`).  The other way round
a text of digits need not be a number: reading it fails exactly when one of its characters has no
place value (`readDigits?_eq_none_iff`).
-/

namespace SchemaCodegen.Text

variable {c : Char} {cs : List Char} {value : Nat}

/-- The ASCII digits have their usual values. -/
theorem decimalValue?_of_isDigit (digit : c.isDigit = true) :
    decimalValue? c = some (c.toNat - '0'.toNat) := by
  rw [Char.isDigit_iff_toNat] at digit
  have first : decimalZeros.find? (fun z => z ≤ c.toNat && c.toNat ≤ z + 9) = some '0'.toNat := by
    unfold decimalZeros
    refine List.find?_cons_of_pos ?_
    simpa using digit
  rw [decimalValue?, first, Option.map_some]

/-- The digits of a number in decimal are digits. -/
theorem isDigit_of_mem_toDigits {n : Nat} (mem : c ∈ Nat.toDigits 10 n) : isDigit c = true := by
  have ascii := Nat.isDigit_of_mem_toDigits (by decide) (by decide) mem
  rw [isDigit, decimalValue?_of_isDigit ascii]
  rfl

/-- Reading ASCII digits gives the number that they stand for. -/
theorem readDigits?_of_isDigit (digits : ∀ c ∈ cs, c.isDigit = true) :
    readDigits? value cs = some (Nat.ofDigitChars 10 cs value) := by
  induction cs generalizing value with
  | nil => rfl
  | cons c cs ih =>
      obtain ⟨here, later⟩ := List.forall_mem_cons.1 digits
      rw [readDigits?, decimalValue?_of_isDigit here, Option.bind_some, ih later,
        Nat.ofDigitChars_cons]

/-- A number in decimal is read back. -/
theorem readDigits?_toDigits (n : Nat) : readDigits? 0 (Nat.toDigits 10 n) = some n := by
  rw [readDigits?_of_isDigit fun _ => Nat.isDigit_of_mem_toDigits (by decide) (by decide),
    Nat.ofDigitChars_toDigits (by decide) (by decide)]

/-- Characters are no number exactly when one of them has no place value. -/
theorem readDigits?_eq_none_iff : readDigits? value cs = none ↔ ∃ c ∈ cs, decimalValue? c = none := by
  induction cs generalizing value with
  | nil => simp [readDigits?]
  | cons c cs ih =>
      rw [readDigits?]
      cases here : decimalValue? c with
      | none => simp [here]
      | some d => simp [here, ih]

end SchemaCodegen.Text
