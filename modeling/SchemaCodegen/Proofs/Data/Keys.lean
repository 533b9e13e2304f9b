import Mathlib.Algebra.Field.Rat
import Mathlib.Algebra.Order.Ring.Rat
import Mathlib.Tactic.NormNum
import Mathlib.Tactic.Ring
import SchemaCodegen.Proofs.Data.Entries

/-!
# Keys that name the same entry

Numbers and truth values of equal value name the same entry, of whatever kind they are: `1`, `1.0`
and `true` are one key.  The value of a number is rational or an infinity (`keyValue?`), and
comparing two of them is comparing their values (`sameKey_iff`).  So naming the same entry is
transitive (`sameKey_trans`), and what keys an object has can be said of `Entries.put` without a
look at its order (`hasKey_put`).
-/

namespace SchemaCodegen

/-! ### Values of numbers -/

namespace Binary64

/-- The value of a number: rational, or an infinity of a sign. -/
def Datum.value? : Datum → Option (ℚ ⊕ Bool)
  | .finite negative mantissa exponent => some (.inl (signed negative mantissa * 2 ^ exponent))
  | .infinite negative => some (.inr negative)
  | .nan => none

/-- Shifting a mantissa to a lower exponent keeps the value. -/
theorem signed_shiftLeft {s : Bool} {m : Nat} {e low : Int} (lower : low ≤ e) :
    (signed s (m <<< (e - low).toNat) : ℚ) * 2 ^ low = signed s m * 2 ^ e := by
  obtain ⟨k, rfl⟩ : ∃ k : Nat, e = low + k := ⟨(e - low).toNat, by omega⟩
  have shift : (low + k - low).toNat = k := by omega
  have scaled : signed s (m <<< k) = signed s m * 2 ^ k := by
    unfold signed
    cases s <;> simp [Nat.shiftLeft_eq]
  rw [shift, scaled, zpow_add₀ (by norm_num), zpow_natCast]
  push_cast
  ring

theorem zpow_two_ne_zero (e : Int) : (2 : ℚ) ^ e ≠ 0 := zpow_ne_zero e (by norm_num)

/-- Mantissas at a common exponent are equal when the values are. -/
theorem signed_eq_iff {a b : Int} (low : Int) :
    a = b ↔ (a : ℚ) * 2 ^ low = b * 2 ^ low := by
  rw [mul_left_inj' (zpow_two_ne_zero low), Int.cast_inj]

/-- Two numbers compare as equal exactly when their values are. -/
theorem compare?_eq_iff {x y : Binary64} :
    x.compare? y = some .eq ↔ ∃ r, x.datum.value? = some r ∧ y.datum.value? = some r := by
  unfold compare?
  cases x.datum with
  | nan => simp [Datum.value?]
  | infinite s =>
      cases y.datum with
      | nan => simp [Datum.value?]
      | infinite t => cases s <;> cases t <;> simp [Datum.value?]
      | finite t n f => cases s <;> simp [Datum.value?]
  | finite s m e =>
      cases y.datum with
      | nan => simp [Datum.value?]
      | infinite t => cases t <;> simp [Datum.value?]
      | finite t n f =>
          simp only [Datum.value?, Option.some.injEq, Std.LawfulEqCmp.compare_eq_iff_eq,
            exists_eq_left', Sum.inl.injEq]
          rw [signed_eq_iff (min e f), signed_shiftLeft (min_le_left e f),
            signed_shiftLeft (min_le_right e f)]
          exact eq_comm

/-- A number and an integer compare as equal exactly when the integer is the value. -/
theorem compareInt?_eq_iff {x : Binary64} {k : Int} :
    x.compareInt? k = some .eq ↔ x.datum.value? = some (.inl (k : ℚ)) := by
  unfold compareInt?
  cases x.datum with
  | nan => simp [Datum.value?]
  | infinite s => cases s <;> simp [Datum.value?]
  | finite s m e =>
      simp only [Datum.value?, Option.some.injEq, Sum.inl.injEq]
      split
      · next whole =>
          simp only [Option.some.injEq, Std.LawfulEqCmp.compare_eq_iff_eq]
          have same := signed_shiftLeft (s := s) (m := m) whole
          rw [Int.sub_zero, zpow_zero, mul_one] at same
          rw [← same, Int.cast_inj]
      · next fraction =>
          obtain ⟨n, rfl⟩ : ∃ n : Nat, e = -n := ⟨(-e).toNat, by omega⟩
          simp only [Option.some.injEq, Std.LawfulEqCmp.compare_eq_iff_eq, neg_neg,
            Int.toNat_natCast, Nat.one_shiftLeft]
          rw [zpow_neg, zpow_natCast, mul_inv_eq_iff_eq_mul₀ (pow_ne_zero n (by norm_num))]
          exact_mod_cast Iff.rfl

end Binary64

/-! ### The same entry -/

namespace Entries

open Binary64

/-- The value of a key that is a number or a truth value. -/
def keyValue? (k : Scalar) : Option (ℚ ⊕ Bool) :=
  match sameKey.number k with
  | some (.inl n) => some (.inl n)
  | some (.inr x) => x.datum.value?
  | none => none

/-- Two keys name the same entry exactly when they are equal or numbers of equal value. -/
theorem sameKey_iff {a b : Scalar} :
    sameKey a b = true ↔ a = b ∨ ∃ r, keyValue? a = some r ∧ keyValue? b = some r := by
  unfold sameKey keyValue?
  rw [Bool.or_eq_true, beq_iff_eq]
  refine or_congr_right ?_
  cases sameKey.number a with
  | none => simp
  | some x =>
      cases sameKey.number b with
      | none => simp
      | some y =>
          cases x with
          | inl m =>
              cases y with
              | inl n =>
                  simp only [sameKey.equal, beq_iff_eq, Option.some.injEq, exists_eq_left',
                    Sum.inl.injEq, Int.cast_inj]
                  exact eq_comm
              | inr y => simp [sameKey.equal, compareInt?_eq_iff]
          | inr x =>
              cases y with
              | inl n => simp [sameKey.equal, compareInt?_eq_iff]
              | inr y => simpa [sameKey.equal] using compare?_eq_iff

theorem sameKey_trans {a b c : Scalar} (first : sameKey a b = true) (second : sameKey b c = true) :
    sameKey a c = true := by
  rw [sameKey_iff] at first second ⊢
  obtain rfl | ⟨r, at_a, at_b⟩ := first
  · exact second
  · obtain rfl | ⟨s, at_b', at_c⟩ := second
    · exact .inr ⟨r, at_a, at_b⟩
    · cases at_b.symm.trans at_b'
      exact .inr ⟨r, at_a, at_c⟩

theorem sameKey_comm {a b : Scalar} : sameKey a b = sameKey b a := by
  rw [Bool.eq_iff_iff, sameKey_iff, sameKey_iff]
  refine or_congr eq_comm (exists_congr fun r => and_comm)

/-- Keys that name the same entry are named by the same keys. -/
theorem sameKey_congr {a b c : Scalar} (same : sameKey b c = true) : sameKey a b = sameKey a c := by
  rw [Bool.eq_iff_iff]
  exact ⟨fun first => sameKey_trans first same,
    fun first => sameKey_trans first (sameKey_comm.trans same)⟩

/-! ### The keys of an object -/

variable {es more : Entries} {k key : Scalar} {v : Value} {ks : List Scalar}

/-- No two of the keys name the same entry. -/
def DistinctKeys (ks : List Scalar) : Prop := ks.Pairwise fun a b => sameKey a b = false

/-- A key behind the keys that are there, unless one of them names the same entry. -/
def addKey (ks : List Scalar) (k : Scalar) : List Scalar :=
  if ks.any (sameKey · k) then ks else ks ++ [k]

theorem keys_put : keys (put es k v) = addKey (keys es) k := by
  induction es with
  | nil => rfl
  | cons e es ih =>
      obtain ⟨k', w⟩ := e
      unfold keys addKey at ih ⊢
      rw [put, List.map_cons, List.any_cons]
      by_cases same : sameKey k' k = true
      · rw [if_pos same, same, Bool.true_or, if_pos rfl]
        rfl
      · rw [if_neg same, Bool.eq_false_iff.2 same, Bool.false_or, List.map_cons, ih]
        split
        · rfl
        · rfl

theorem distinctKeys_addKey (distinct : DistinctKeys ks) : DistinctKeys (addKey ks k) := by
  unfold addKey
  split
  · exact distinct
  · next new =>
      refine List.pairwise_append.2 ⟨distinct, List.pairwise_singleton _ _, fun a mem b last => ?_⟩
      cases List.mem_singleton.1 last
      rw [List.any_eq_true, not_exists] at new
      exact Bool.eq_false_iff.2 fun same => new a ⟨mem, same⟩

theorem DistinctKeys.nodup (distinct : DistinctKeys ks) : ks.Nodup := by
  refine distinct.imp fun other same => ?_
  rw [same, sameKey_self] at other
  cases other

/-- A key is named by what is put in or was named before. -/
theorem hasKey_put :
    hasKey (put es k v) key = true ↔ hasKey es key = true ∨ sameKey k key = true := by
  induction es with
  | nil => simp [put, hasKey]
  | cons e es ih =>
      obtain ⟨k', w⟩ := e
      unfold hasKey at ih ⊢
      rw [put]
      by_cases same : sameKey k' k = true
      · rw [if_pos same, List.any_cons, List.any_cons, Bool.or_eq_true]
        -- The key that stays names all that the new one does.
        have covered (named : sameKey k key = true) : sameKey k' key = true :=
          sameKey_trans same named
        tauto
      · rw [if_neg same, List.any_cons, List.any_cons, Bool.or_eq_true, ih, Bool.or_eq_true]
        tauto

/-- Putting in the entries of another object adds its keys. -/
theorem hasKey_putAll :
    hasKey (putAll es more) key = true ↔ hasKey es key = true ∨ hasKey more key = true := by
  unfold putAll
  induction more generalizing es with
  | nil => simp [hasKey]
  | cons e more ih =>
      rw [List.foldl_cons, ih, hasKey_put]
      unfold hasKey
      rw [List.any_cons, Bool.or_eq_true]
      tauto

/-- An object whose keys all differ keeps them so. -/
theorem nodup_keys_put (once : (keys es).Nodup) : (keys (put es k v)).Nodup := by
  rw [keys_put, addKey]
  split
  · exact once
  · next new =>
      rw [List.nodup_append]
      refine ⟨once, by simp, ?_⟩
      rintro a mem b last rfl
      exact new (List.any_eq_true.2 ⟨a, mem, List.mem_singleton.1 last ▸ sameKey_self a⟩)

theorem nodup_keys_putAll (once : (keys es).Nodup) : (keys (putAll es more)).Nodup := by
  unfold putAll
  induction more generalizing es with
  | nil => exact once
  | cons e more ih => exact ih (nodup_keys_put once)

/-- Where keys differ, an entry is what is found under its key. -/
theorem get?_of_mem {text : String} (once : (keys es).Nodup) (mem : (.string text, v) ∈ es) :
    get? es text = some v := by
  induction es with
  | nil => cases mem
  | cons e es ih =>
      obtain ⟨k', w⟩ := e
      have once' : k' ∉ keys es ∧ (keys es).Nodup := List.nodup_cons.1 once
      rw [get?_cons]
      obtain same | later := List.mem_cons.1 mem
      · cases same
        exact if_pos rfl
      · have other : k' ≠ .string text := by
          rintro rfl
          exact once'.1 (List.mem_map_of_mem later)
        rw [if_neg other]
        exact ih once'.2 later

/-- Erasing a key leaves what stands under others. -/
theorem get?_erase_of_ne {text other : String} (ne : text ≠ other) :
    get? (erase es other) text = get? es text := by
  induction es with
  | nil => rfl
  | cons e es ih =>
      obtain ⟨k, v⟩ := e
      unfold erase at ih ⊢
      rw [List.filter_cons]
      by_cases at_text : k = .string text
      · subst at_text
        simp [ne, get?_cons]
      · split
        · rw [get?_cons, get?_cons, ih]
        · rw [get?_cons, if_neg at_text, ih]

end Entries

end SchemaCodegen
