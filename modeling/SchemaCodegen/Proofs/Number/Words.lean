import Mathlib.Data.Rat.Floor
import SchemaCodegen.Proofs.Data.Keys

/-!
# Fields and values of words

A word is its fields: a sign above eleven bits of exponent above fifty-two bits of fraction.
Read as a natural number, the fields are quotients and remainders by powers of two
(`exponentField_eq`, `fractionField_eq`), so a word that is put together from an exponent and a
mantissa stands for the number that they name (`value?_ofMagnitude`).

The neighbouring integers of a word are those of its value (`floor?_eq`, `ceil?_eq`,
`truncate?_eq`).
-/

namespace SchemaCodegen.Binary64

variable {x : Binary64} {s : Bool} {q : ℚ}

/-! ### Fields -/

theorem exponentField_eq (x : Binary64) : x.exponentField = x.bits.toNat / 2 ^ 52 % 2 ^ 11 := by
  unfold exponentField
  rw [UInt64.toNat_and, UInt64.toNat_shiftRight, Nat.shiftRight_eq_div_pow]
  exact Nat.and_two_pow_sub_one_eq_mod _ 11

theorem fractionField_eq (x : Binary64) : x.fractionField = x.bits.toNat % 2 ^ 52 := by
  unfold fractionField
  rw [UInt64.toNat_and]
  exact Nat.and_two_pow_sub_one_eq_mod _ 52

theorem signBit_eq (x : Binary64) : x.signBit = decide (2 ^ 63 ≤ x.bits.toNat) := by
  have top : (x.bits >>> 63).toNat = x.bits.toNat / 2 ^ 63 := by
    rw [UInt64.toNat_shiftRight, Nat.shiftRight_eq_div_pow]
    rfl
  have bounded := x.bits.toNat_lt
  unfold signBit
  rw [Bool.eq_iff_iff, beq_iff_eq, ← UInt64.toNat_inj, top, decide_eq_true_iff]
  show x.bits.toNat / 2 ^ 63 = 1 ↔ _
  omega

/-- The word with the other sign has the same magnitude. -/
theorem toNat_neg (x : Binary64) : (neg x).bits.toNat
    = if 2 ^ 63 ≤ x.bits.toNat then x.bits.toNat - 2 ^ 63 else x.bits.toNat + 2 ^ 63 := by
  have bounded := x.bits.toNat_lt
  have flipped : (neg x).bits.toNat = x.bits.toNat ^^^ 2 ^ 63 := UInt64.toNat_xor _ _
  generalize x.bits.toNat = b at bounded flipped ⊢
  have rest : (b ^^^ 2 ^ 63) % 2 ^ 63 = b % 2 ^ 63 := by
    rw [Nat.xor_mod_two_pow]
    exact Nat.xor_zero _
  have quotient : (b ^^^ 2 ^ 63) / 2 ^ 63 = b / 2 ^ 63 ^^^ 1 := Nat.xor_div_two_pow
  rw [flipped]
  split
  · next set =>
      have one : b / 2 ^ 63 = 1 := by omega
      rw [one, Nat.xor_self] at quotient
      omega
  · next clear =>
      have zero : b / 2 ^ 63 = 0 := by omega
      rw [zero, Nat.zero_xor] at quotient
      omega

theorem exponentField_neg (x : Binary64) : (neg x).exponentField = x.exponentField := by
  have bounded := x.bits.toNat_lt
  rw [exponentField_eq, exponentField_eq, toNat_neg]
  split <;> omega

theorem fractionField_neg (x : Binary64) : (neg x).fractionField = x.fractionField := by
  rw [fractionField_eq, fractionField_eq, toNat_neg]
  split <;> omega

theorem signBit_neg (x : Binary64) : (neg x).signBit = !x.signBit := by
  have bounded := x.bits.toNat_lt
  rw [signBit_eq, signBit_eq, toNat_neg, Bool.eq_iff_iff]
  split <;> simp <;> omega

/-! ### Neighbouring integers -/

theorem signed_not (s : Bool) (m : Nat) : signed (!s) m = -signed s m := by
  cases s <;> simp [signed]

/-- A word with the other sign has the other value. -/
theorem value?_neg (value : x.datum.value? = some (.inl q)) :
    (neg x).datum.value? = some (.inl (-q)) := by
  unfold datum at value ⊢
  rw [exponentField_neg, fractionField_neg, signBit_neg]
  split
  · next greatest =>
      rw [if_pos greatest] at value
      split at value
      · cases value
      · cases value
  · next finite =>
      rw [if_neg finite] at value
      split
      · next least =>
          rw [if_pos least] at value
          cases value
          simp [Datum.value?, signed_not]
      · next normal =>
          rw [if_neg normal] at value
          cases value
          simp [Datum.value?, signed_not]

/-- A word with a rational value is a signed mantissa at an exponent. -/
theorem exists_datum (value : x.datum.value? = some (.inl q)) :
    ∃ s m e, x.datum = .finite s m e ∧ (signed s m * 2 ^ e : ℚ) = q := by
  cases at_x : x.datum with
  | finite s m e =>
      rw [at_x] at value
      cases value
      exact ⟨s, m, e, rfl, rfl⟩
  | infinite s =>
      rw [at_x] at value
      cases value
  | nan =>
      rw [at_x] at value
      cases value

/-- A mantissa at an exponent below zero is a quotient. -/
theorem mul_zpow_neg (q : ℚ) (n : Nat) : q * 2 ^ (-(n : Int)) = q / ((2 ^ n : Nat) : ℚ) := by
  rw [zpow_neg, zpow_natCast, ← div_eq_mul_inv]
  push_cast
  rfl

/-- The greatest integer not above a word is that of its value. -/
theorem floor?_eq (value : x.datum.value? = some (.inl q)) : x.floor? = some ⌊q⌋ := by
  obtain ⟨s, m, e, at_x, rfl⟩ := exists_datum value
  unfold floor?
  rw [at_x]
  dsimp only
  split
  · next whole =>
      have same := signed_shiftLeft (s := s) (m := m) whole
      rw [Int.sub_zero, zpow_zero, mul_one] at same
      rw [← same, Int.floor_intCast]
  · next fraction =>
      obtain ⟨n, rfl⟩ : ∃ n : Nat, e = -n := ⟨(-e).toNat, by omega⟩
      rw [neg_neg, Int.toNat_natCast, Nat.one_shiftLeft, mul_zpow_neg,
        Rat.floor_intCast_div_natCast, Int.fdiv_eq_ediv_of_nonneg _ (Int.natCast_nonneg _)]

/-- The least integer not below a word is that of its value. -/
theorem ceil?_eq (value : x.datum.value? = some (.inl q)) : x.ceil? = some ⌈q⌉ := by
  rw [ceil?, floor?_eq (value?_neg value), Option.map_some, Int.floor_neg, neg_neg]

/-- The integer next to a number on the side of zero. -/
def towardZero (q : ℚ) : Int := if 0 ≤ q then ⌊q⌋ else ⌈q⌉

theorem towardZero_intCast (n : Int) : towardZero (n : ℚ) = n := by
  unfold towardZero
  rw [Int.floor_intCast, Int.ceil_intCast, ite_self]

theorem towardZero_neg (q : ℚ) : towardZero (-q) = -towardZero q := by
  unfold towardZero
  obtain below | rfl | above := lt_trichotomy q 0
  · rw [if_pos (neg_nonneg.2 below.le), if_neg below.not_ge, Int.floor_neg]
  · simp
  · rw [if_neg (neg_lt_zero.2 above).not_ge, if_pos above.le, Int.ceil_neg]

theorem towardZero_signed (s : Bool) (m : Nat) {r : ℚ} (r_nonneg : 0 ≤ r) :
    towardZero (signed s m * r) = signed s ⌊(m : ℚ) * r⌋.toNat := by
  have nonneg : 0 ≤ (m : ℚ) * r := mul_nonneg (Nat.cast_nonneg m) r_nonneg
  have plain : towardZero ((m : ℚ) * r) = ⌊(m : ℚ) * r⌋.toNat := by
    rw [towardZero, if_pos nonneg, Int.toNat_of_nonneg (Int.floor_nonneg.2 nonneg)]
  cases s with
  | false => simpa [signed] using plain
  | true => simpa [signed, towardZero_neg] using plain

/-- The integer part of a word is that of its value. -/
theorem truncate?_eq (value : x.datum.value? = some (.inl q)) :
    x.truncate? = some (towardZero q) := by
  obtain ⟨s, m, e, at_x, rfl⟩ := exists_datum value
  unfold truncate?
  rw [at_x]
  dsimp only
  rw [towardZero_signed s m (zpow_nonneg two_pos.le e)]
  split
  · next whole =>
      obtain ⟨n, rfl⟩ := Int.eq_ofNat_of_zero_le whole
      have scaled : (m : ℚ) * 2 ^ (n : Int) = ((m <<< n : Nat) : ℚ) := by
        rw [Nat.shiftLeft_eq, zpow_natCast]
        push_cast
        rfl
      rw [scaled, Int.floor_natCast, Int.toNat_natCast, Int.toNat_natCast]
  · next fraction =>
      obtain ⟨n, rfl⟩ : ∃ n : Nat, e = -n := ⟨(-e).toNat, by omega⟩
      rw [mul_zpow_neg, Rat.floor_natCast_div_natCast, neg_neg, Int.toNat_natCast,
        ← Int.natCast_ediv, Int.toNat_natCast, Nat.shiftRight_eq_div_pow]

/-- A finite number has a value. -/
theorem exists_value? (finite : x.isFinite = true) : ∃ q, x.datum.value? = some (.inl q) := by
  have not_greatest : ¬ (x.exponentField == 2047) = true := by simpa [isFinite] using finite
  unfold datum
  rw [if_neg not_greatest]
  split
  · exact ⟨_, rfl⟩
  · exact ⟨_, rfl⟩

/-- A finite number has an integer part. -/
theorem exists_truncate? (finite : x.isFinite = true) : ∃ n, x.truncate? = some n := by
  obtain ⟨q, value⟩ := exists_value? finite
  exact ⟨_, truncate?_eq value⟩

/-! ### Words put together -/

theorem toNat_ofMagnitude {magnitude : Nat} (small : magnitude < 2 ^ 63) :
    (ofMagnitude s magnitude).bits.toNat = (if s then 2 ^ 63 else 0) + magnitude := by
  have plain : magnitude.toUInt64.toNat = magnitude :=
    (UInt64.toNat_ofNat' (n := magnitude)).trans (Nat.mod_eq_of_lt (by omega))
  cases s with
  | false => rw [ofMagnitude, if_neg Bool.false_ne_true, if_neg Bool.false_ne_true, plain,
      Nat.zero_add]
  | true =>
      have joined := Nat.two_pow_add_eq_or_of_lt small 1
      rw [ofMagnitude, if_pos rfl, if_pos rfl, UInt64.toNat_or, plain]
      rw [Nat.mul_one] at joined
      exact joined.symm

/-- A word with an exponent field between the least and the greatest one has a hidden bit. -/
theorem datum_of_exponentField {k : Nat} (field : x.exponentField = k + 1) (small : k < 2046) :
    x.datum = .finite x.signBit (2 ^ 52 + x.fractionField) ((k : Int) - 1074) := by
  have not_greatest : ¬ (k + 1 == 2047) = true := by simp; omega
  have not_least : ¬ (k + 1 == 0) = true := by simp
  rw [datum, field, if_neg not_greatest, if_neg not_least, Nat.one_shiftLeft]
  congr 1
  omega

/-- A mantissa with its hidden bit added to an exponent field makes the word of their product; a
mantissa of the next power of two carries into the exponent. -/
theorem value?_ofMagnitude {k m : Nat} (low : 2 ^ 52 ≤ m) (high : m ≤ 2 ^ 53) (small : k < 2045) :
    (ofMagnitude s (k <<< 52 + m)).datum.value?
      = some (.inl (signed s m * 2 ^ ((k : Int) - 1074))) := by
  have magnitude : k <<< 52 = k * 2 ^ 52 := Nat.shiftLeft_eq k 52
  have in_range : k <<< 52 + m < 2 ^ 63 := by omega
  have bits := toNat_ofMagnitude (s := s) in_range
  generalize ofMagnitude s (k <<< 52 + m) = x at bits ⊢
  have sign : x.signBit = s := by
    rw [signBit_eq, bits]
    cases s with
    | false =>
        simp
        omega
    | true => simp
  have field : x.exponentField = (k * 2 ^ 52 + m) / 2 ^ 52 := by
    rw [exponentField_eq, bits]
    split <;> omega
  have fraction : x.fractionField = m % 2 ^ 52 := by
    rw [fractionField_eq, bits]
    split <;> omega
  obtain less | rfl := Nat.lt_or_eq_of_le high
  · have whole : 2 ^ 52 + x.fractionField = m := by omega
    rw [datum_of_exponentField (k := k) (by omega) (by omega), sign, whole]
    rfl
  · have carried : (signed s (2 ^ 53) : ℚ) = signed s (2 ^ 52) * 2 := by
      cases s <;> norm_num [signed]
    have next : ((k + 1 : Nat) : Int) - 1074 = ((k : Int) - 1074) + 1 := by omega
    have none_left : x.fractionField = 0 := by omega
    rw [datum_of_exponentField (k := k + 1) (by omega) (by omega), sign, none_left, Nat.add_zero,
      Datum.value?, carried, next, zpow_add_one₀ two_ne_zero]
    rw [mul_assoc, mul_comm 2]

end SchemaCodegen.Binary64
