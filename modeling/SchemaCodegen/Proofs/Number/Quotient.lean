import SchemaCodegen.Number.Numeric
import SchemaCodegen.Proofs.Number.Words

/-!
# Quotients of integers

The quotient of two integers is rounded to a word before its neighbouring integers are taken.
For integers that fit a mantissa this does no harm (`ceil_div`): a quotient that is no integer
stays between the same two integers, because its distance from them is at least one part in the
divisor, and the word is nearer than that.

A mantissa is the quotient on a grid of `2 ^ s` points in each unit, rounded to the nearest one
(`near_roundHalfEven`), where `s` is such that the mantissa has 53 bits (`floorLog2_spec`).
-/

namespace SchemaCodegen

variable {n d m s : Nat}

/-! ### Rounding on a grid -/

/-- `Near a d m`: no integer is nearer to the quotient `a / d` than `m` is. -/
structure Near (a d m : Nat) : Prop where
  below : 2 * (m * d) ≤ 2 * a + d
  above : 2 * a ≤ 2 * (m * d) + d

/-- Rounding moves a quotient by half a unit at most. -/
theorem near_roundHalfEven (a : Nat) (d_pos : 0 < d) : Near a d (roundHalfEven a d) := by
  have whole := Nat.div_add_mod' a d
  have rest := Nat.mod_lt a d_pos
  unfold roundHalfEven
  dsimp only
  split
  · next up =>
      have next : (a / d + 1) * d = a / d * d + d := Nat.succ_mul _ _
      simp only [Bool.or_eq_true, decide_eq_true_eq, Bool.and_eq_true, beq_iff_eq] at up
      constructor <;> omega
  · next down =>
      simp only [Bool.or_eq_true, decide_eq_true_eq, not_or] at down
      constructor <;> omega

/-- On a grid that is finer than the divisor, a mantissa near a quotient is above the same integers
as the quotient. -/
theorem Near.mul_le_iff (near : Near (n * 2 ^ s) d m) (d_pos : 0 < d) (fine : d < 2 ^ (s + 1))
    (j : Nat) : j * 2 ^ s ≤ m ↔ j * d ≤ n := by
  have below := near.below
  have above := near.above
  rw [Nat.pow_succ] at fine
  generalize 2 ^ s = p at *
  have swap : j * p * d = j * d * p := Nat.mul_right_comm j p d
  constructor
  · intro low
    by_contra less
    have scaled := Nat.mul_le_mul_right d low
    have missed : (n + 1) * p ≤ j * d * p := Nat.mul_le_mul_right p (by omega)
    rw [Nat.succ_mul] at missed
    omega
  · intro low
    by_contra less
    have scaled := Nat.mul_le_mul_right p low
    have missed : (m + 1) * d ≤ j * p * d := Nat.mul_le_mul_right d (by omega)
    rw [Nat.succ_mul] at missed
    omega

/-- As `Near.mul_le_iff`, for the integers that are above. -/
theorem Near.le_mul_iff (near : Near (n * 2 ^ s) d m) (d_pos : 0 < d) (fine : d < 2 ^ (s + 1))
    (j : Nat) : m ≤ j * 2 ^ s ↔ n ≤ j * d := by
  have below := near.below
  have above := near.above
  rw [Nat.pow_succ] at fine
  generalize 2 ^ s = p at *
  have swap : j * p * d = j * d * p := Nat.mul_right_comm j p d
  constructor
  · intro high
    by_contra more
    have scaled := Nat.mul_le_mul_right d high
    have missed : (j * d + 1) * p ≤ n * p := Nat.mul_le_mul_right p (by omega)
    rw [Nat.succ_mul] at missed
    omega
  · intro high
    by_contra more
    have scaled := Nat.mul_le_mul_right p high
    have missed : (j * p + 1) * d ≤ m * d := Nat.mul_le_mul_right d (by omega)
    rw [Nat.succ_mul] at missed
    omega

namespace Binary64

/-- The exponent of a quotient. -/
theorem floorLog2_spec (n_pos : 0 < n) (d_pos : 0 < d) :
    (d : ℚ) * 2 ^ floorLog2 n d ≤ n ∧ (n : ℚ) < d * 2 ^ (floorLog2 n d + 1) := by
  have n_low : ((2 : ℚ) ^ (n.log2 : Int)) ≤ n := by
    rw [zpow_natCast]
    exact_mod_cast Nat.log2_self_le n_pos.ne'
  have n_high : (n : ℚ) < 2 ^ ((n.log2 : Int) + 1) := by
    exact_mod_cast (Nat.lt_log2_self : n < 2 ^ (n.log2 + 1))
  have d_low : ((2 : ℚ) ^ (d.log2 : Int)) ≤ d := by
    rw [zpow_natCast]
    exact_mod_cast Nat.log2_self_le d_pos.ne'
  have d_high : (d : ℚ) < 2 ^ ((d.log2 : Int) + 1) := by
    exact_mod_cast (Nat.lt_log2_self : d < 2 ^ (d.log2 + 1))
  unfold floorLog2
  dsimp only
  generalize (n.log2 : Int) = a at *
  generalize (d.log2 : Int) = b at *
  -- The lengths of the numbers leave two exponents to choose from.
  have above : (n : ℚ) < d * 2 ^ (a - b + 1) := by
    calc (n : ℚ) < 2 ^ (a + 1) := n_high
      _ = 2 ^ b * 2 ^ (a - b + 1) := by rw [← zpow_add₀ two_ne_zero]; congr 1; omega
      _ ≤ d * 2 ^ (a - b + 1) := mul_le_mul_of_nonneg_right d_low (zpow_nonneg zero_le_two _)
  have below : (d : ℚ) * 2 ^ (a - b - 1) ≤ n := by
    calc (d : ℚ) * 2 ^ (a - b - 1)
      _ ≤ 2 ^ (b + 1) * 2 ^ (a - b - 1) := mul_le_mul_of_nonneg_right d_high.le (zpow_nonneg zero_le_two _)
      _ = 2 ^ a := by rw [← zpow_add₀ two_ne_zero]; congr 1; omega
      _ ≤ n := n_low
  have fits : (if 0 ≤ a - b then d <<< (a - b).toNat ≤ n else d ≤ n <<< (-(a - b)).toNat)
      ↔ (d : ℚ) * 2 ^ (a - b) ≤ n := by
    split
    · next up =>
        obtain ⟨k, at_k⟩ : ∃ k : Nat, a - b = k := ⟨(a - b).toNat, by omega⟩
        rw [at_k, Int.toNat_natCast, Nat.shiftLeft_eq, zpow_natCast]
        exact_mod_cast Iff.rfl
    · next down =>
        obtain ⟨k, at_k⟩ : ∃ k : Nat, a - b = -k := ⟨(-(a - b)).toNat, by omega⟩
        rw [at_k, neg_neg, Int.toNat_natCast, Nat.shiftLeft_eq, zpow_neg, zpow_natCast,
          ← div_eq_mul_inv, div_le_iff₀ (by positivity)]
        exact_mod_cast Iff.rfl
  by_cases down : (d : ℚ) * 2 ^ (a - b) ≤ n
  · rw [if_pos (fits.2 down)]
    exact ⟨down, above⟩
  · rw [if_neg (mt fits.1 down), sub_add_cancel]
    exact ⟨below, not_le.1 down⟩

/-- The grid on which the quotient of two numbers that fit a mantissa has a mantissa of 53 bits. -/
theorem exists_grid (n_pos : 0 < n) (d_pos : 0 < d) (n_small : n < 2 ^ 53) (d_small : d < 2 ^ 53) :
    ∃ s : Nat, s ≤ 105 ∧ floorLog2 n d = 52 - s
      ∧ d * 2 ^ 52 ≤ n * 2 ^ s ∧ n * 2 ^ s < d * 2 ^ 53 := by
  obtain ⟨below, above⟩ := floorLog2_spec n_pos d_pos
  generalize floorLog2 n d = l at below above ⊢
  have one_le_d : (1 : ℚ) ≤ d := by exact_mod_cast d_pos
  have one_le_n : (1 : ℚ) ≤ n := by exact_mod_cast n_pos
  have n_lt : (n : ℚ) < 2 ^ (53 : Int) := by exact_mod_cast n_small
  have d_lt : (d : ℚ) < 2 ^ (53 : Int) := by exact_mod_cast d_small
  have l_le : l ≤ 52 := by
    have less : (2 : ℚ) ^ l < 2 ^ (53 : Int) :=
      calc (2 : ℚ) ^ l ≤ d * 2 ^ l := le_mul_of_one_le_left (zpow_nonneg zero_le_two _) one_le_d
        _ ≤ n := below
        _ < 2 ^ (53 : Int) := n_lt
    have := (zpow_lt_zpow_iff_right₀ one_lt_two).1 less
    omega
  have le_l : -53 ≤ l := by
    have less : (2 : ℚ) ^ (0 : Int) < 2 ^ (53 + (l + 1)) :=
      calc (2 : ℚ) ^ (0 : Int) ≤ n := by simpa using one_le_n
        _ < d * 2 ^ (l + 1) := above
        _ ≤ 2 ^ (53 : Int) * 2 ^ (l + 1) :=
          mul_le_mul_of_nonneg_right d_lt.le (zpow_nonneg zero_le_two _)
        _ = 2 ^ (53 + (l + 1)) := (zpow_add₀ two_ne_zero _ _).symm
    have := (zpow_lt_zpow_iff_right₀ one_lt_two).1 less
    omega
  obtain ⟨s, rfl⟩ : ∃ s : Nat, l = 52 - s := ⟨(52 - l).toNat, by omega⟩
  have grid_pos : (0 : ℚ) < 2 ^ s := by positivity
  have low : (2 : ℚ) ^ ((52 : Int) - s) = 2 ^ 52 / 2 ^ s := by
    rw [zpow_sub₀ two_ne_zero, zpow_natCast]
    norm_cast
  have high : (2 : ℚ) ^ ((52 : Int) - s + 1) = 2 ^ 53 / 2 ^ s := by
    rw [zpow_add_one₀ two_ne_zero, low, div_mul_eq_mul_div, ← pow_succ]
  rw [low, ← mul_div_assoc, div_le_iff₀ grid_pos] at below
  rw [high, ← mul_div_assoc, lt_div_iff₀ grid_pos] at above
  exact ⟨s, by omega, rfl, by exact_mod_cast below, by exact_mod_cast above⟩

/-- A number with a rational value is finite. -/
theorem isFinite_of_value? {x : Binary64} {q : ℚ} (value : x.datum.value? = some (.inl q)) :
    x.isFinite = true := by
  unfold isFinite
  rw [bne_iff_ne]
  intro greatest
  rw [datum, greatest, if_pos (beq_self_eq_true 2047)] at value
  split at value
  · cases value
  · cases value

/-- **The quotient of two numbers that fit a mantissa** is rounded on a grid that is finer than
the divisor. -/
theorem exists_value?_ofRatio (negative : Bool) (n_pos : 0 < n) (d_pos : 0 < d)
    (n_small : n < 2 ^ 53) (d_small : d < 2 ^ 53) :
    ∃ s m : Nat, 0 < m ∧ Near (n * 2 ^ s) d m ∧ d < 2 ^ (s + 1)
      ∧ (ofRatio negative n d).datum.value? = some (.inl (signed negative m / 2 ^ s)) := by
  obtain ⟨s, s_le, exponent, low, high⟩ := exists_grid n_pos d_pos n_small d_small
  have fine : d < 2 ^ (s + 1) := by
    have scaled : n * 2 ^ s < 2 ^ 53 * 2 ^ s :=
      Nat.mul_lt_mul_of_pos_right n_small (Nat.two_pow_pos s)
    rw [Nat.pow_succ]
    omega
  have near := near_roundHalfEven (n * 2 ^ s) d_pos
  generalize at_m : roundHalfEven (n * 2 ^ s) d = m at near
  have m_low : 2 ^ 52 ≤ m := by
    by_contra less
    have scaled : (m + 1) * d ≤ 2 ^ 52 * d := Nat.mul_le_mul_right d (by omega)
    have above := near.above
    rw [Nat.succ_mul] at scaled
    omega
  have m_high : m ≤ 2 ^ 53 := by
    by_contra more
    have scaled : (2 ^ 53 + 1) * d ≤ m * d := Nat.mul_le_mul_right d (by omega)
    have below := near.below
    rw [Nat.succ_mul] at scaled
    omega
  refine ⟨s, m, by omega, near, fine, ?_⟩
  have least : max ((52 : Int) - s - 52) (-1074) = -s := by omega
  have field : (-(s : Int) + 1074).toNat = 1074 - s := by omega
  have mantissa : (if 0 ≤ -(s : Int) then roundHalfEven n (d <<< (-(s : Int)).toNat)
      else roundHalfEven (n <<< (-(-(s : Int))).toNat) d) = m := by
    rw [← at_m]
    split
    · next whole =>
        obtain rfl : s = 0 := by omega
        simp
    · rw [neg_neg, Int.toNat_natCast, Nat.shiftLeft_eq]
  have finite : ¬ 0x7ff0000000000000 ≤ (1074 - s) <<< 52 + m := by
    rw [Nat.shiftLeft_eq]
    omega
  have not_zero : ¬ (n == 0) = true := by simp; omega
  unfold ofRatio
  rw [if_neg not_zero, exponent]
  dsimp only
  rw [least, field, mantissa, if_neg finite, value?_ofMagnitude m_low m_high (by omega)]
  have shifted : ((1074 - s : Nat) : Int) - 1074 = -s := by omega
  rw [shifted, zpow_neg, zpow_natCast, div_eq_mul_inv]

end Binary64

/-! ### The integers above a quotient -/

open Binary64 in
/-- The mantissa is below the same multiples of the grid as the quotient is below integers,
whatever the sign. -/
theorem Near.signed_le_iff (near : Near (n * 2 ^ s) d m) (n_pos : 0 < n) (m_pos : 0 < m)
    (d_pos : 0 < d) (fine : d < 2 ^ (s + 1)) (negative : Bool) (k : Int) :
    signed negative m ≤ k * 2 ^ s ↔ signed negative n ≤ k * d := by
  have left (j : Nat) : (0 : Int) ≤ j * 2 ^ s := by positivity
  have right (j : Nat) : (0 : Int) ≤ j * d := by positivity
  obtain ⟨j, rfl | rfl⟩ := k.eq_nat_or_neg
  · cases negative with
    | false =>
        have same := near.le_mul_iff d_pos fine j
        rw [signed, signed, if_neg Bool.false_ne_true, if_neg Bool.false_ne_true]
        exact_mod_cast same
    | true =>
        rw [signed, signed, if_pos rfl, if_pos rfl]
        have left := left j
        have right := right j
        constructor <;> intro <;> omega
  · cases negative with
    | false =>
        rw [signed, signed, if_neg Bool.false_ne_true, if_neg Bool.false_ne_true, Int.neg_mul,
          Int.neg_mul]
        have left := left j
        have right := right j
        constructor <;> intro <;> omega
    | true =>
        have same := near.mul_le_iff d_pos fine j
        rw [signed, signed, if_pos rfl, if_pos rfl, Int.neg_mul, Int.neg_mul, neg_le_neg_iff,
          neg_le_neg_iff]
        exact_mod_cast same

theorem Binary64.signed_natAbs (n : Int) : signed (decide (n < 0)) n.natAbs = n := by
  unfold signed
  split
  · next negative =>
      have := of_decide_eq_true negative
      omega
  · next nonnegative =>
      have := of_decide_eq_false (Bool.eq_false_of_not_eq_true nonnegative)
      omega

/-- The word of a quotient has the same least integer above it as the quotient. -/
theorem Binary64.exists_value?_ceil {n d : Int} (n_small : n.natAbs < 2 ^ 53) (d_pos : 0 < d)
    (d_small : d < 2 ^ 53) :
    ∃ q, (ofRatio (decide (n < 0)) n.natAbs d.natAbs).datum.value? = some (.inl q)
      ∧ ⌈q⌉ = ⌈(n / d : ℚ)⌉ := by
  obtain ⟨d, rfl⟩ := Int.eq_ofNat_of_zero_le d_pos.le
  have divisor_pos : 0 < d := by omega
  obtain rfl | not_zero := eq_or_ne n 0
  · refine ⟨0, ?_, by simp⟩
    show (zero false).datum.value? = _
    have zero : (zero false).datum = .finite false 0 (-1074) := by decide
    rw [zero, Datum.value?]
    simp [signed]
  · have n_pos : 0 < n.natAbs := Int.natAbs_pos.2 not_zero
    obtain ⟨s, m, m_pos, near, fine, value⟩ :=
      exists_value?_ofRatio (decide (n < 0)) n_pos divisor_pos n_small (by omega)
    refine ⟨_, value, eq_of_forall_ge_iff fun k => ?_⟩
    have grid_pos : (0 : ℚ) < 2 ^ s := by positivity
    have divisor_pos' : (0 : ℚ) < (d : Int) := by exact_mod_cast divisor_pos
    have same := near.signed_le_iff n_pos m_pos divisor_pos fine (decide (n < 0)) k
    rw [signed_natAbs] at same
    rw [Int.ceil_le, Int.ceil_le, div_le_iff₀ grid_pos, div_le_iff₀ divisor_pos']
    exact_mod_cast same

/-- **Above a quotient.**  For integers that fit a mantissa the least integer not below the
quotient is the exact one, although the quotient has been rounded before. -/
theorem Numeric.ceil_div {n d : Int} (n_small : n.natAbs < 2 ^ 53) (d_pos : 0 < d)
    (d_small : d < 2 ^ 53) :
    ∃ x, (Numeric.int n).div (.int d) = .ok x
      ∧ (Numeric.float x).ceil = .ok ⌈(n / d : ℚ)⌉ := by
  obtain ⟨q, value, same⟩ := Binary64.exists_value?_ceil n_small d_pos d_small
  have sign : (decide (n < 0) != decide (d < 0)) = decide (n < 0) := by
    rw [decide_eq_false d_pos.not_gt, Bool.bne_false]
  refine ⟨Binary64.ofRatio (decide (n < 0)) n.natAbs d.natAbs, ?_, ?_⟩
  · simp only [Numeric.div, sign]
    exact if_pos (Binary64.isFinite_of_value? value)
  · rw [Numeric.ceil, Binary64.ceil?_eq value, same]
    rfl

end SchemaCodegen
