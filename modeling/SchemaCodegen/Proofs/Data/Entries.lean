import SchemaCodegen.Data.Value

/-!
# Entries put into an object

`Entries.put` replaces the value of a key or adds the key at the end.  What stands under a key
that is a text afterwards is said by `get?_put`, and where the entries come from by
`mem_put`.  A key that is a text names the same entry only as itself.
-/

namespace SchemaCodegen.Entries

variable {es more : Entries} {e : Scalar × Value} {k : Scalar} {v : Value} {key : String}

/-- A text names the same entry as itself only. -/
theorem sameKey_string : sameKey k (.string key) = true ↔ k = .string key := by
  have no_number : sameKey k (.string key) = (k == .string key) := by
    rw [← Bool.or_false (k == .string key)]
    unfold sameKey
    cases sameKey.number k <;> rfl
  rw [no_number, beq_iff_eq]

theorem string_sameKey : sameKey (.string key) k = true ↔ k = .string key := by
  have no_number : sameKey (.string key) k = (.string key == k) := Bool.or_false _
  rw [no_number, beq_iff_eq, eq_comm]

/-- The value under a text after putting in a value. -/
theorem get?_put : get? (put es k v) key = if k = .string key then some v else get? es key := by
  induction es with
  | nil => rw [put, get?_cons, get?_nil]
  | cons e es ih =>
      obtain ⟨k', w⟩ := e
      rw [put]
      by_cases same : sameKey k' k = true
      · rw [if_pos same, get?_cons, get?_cons]
        by_cases at_key : k' = .string key
        · subst at_key
          rw [if_pos rfl, if_pos (string_sameKey.1 same)]
        · have other : k ≠ .string key := by
            rintro rfl
            exact at_key (sameKey_string.1 same)
          rw [if_neg at_key, if_neg at_key, if_neg other]
      · rw [if_neg same, get?_cons, get?_cons, ih]
        by_cases at_key : k' = .string key
        · subst at_key
          have other : k ≠ .string key := fun eq => same (string_sameKey.2 eq)
          rw [if_pos rfl, if_pos rfl, if_neg other]
        · rw [if_neg at_key, if_neg at_key]

/-- What is put in without a key leaves its value as it is. -/
theorem get?_putAll_of_forall_ne (others : ∀ e ∈ more, e.1 ≠ .string key) :
    get? (putAll es more) key = get? es key := by
  unfold putAll
  induction more generalizing es with
  | nil => rfl
  | cons e more ih =>
      obtain ⟨here, later⟩ := List.forall_mem_cons.1 others
      rw [List.foldl_cons, ih later, get?_put, if_neg here]

/-- An entry is an old one or has the value that is put in. -/
theorem mem_put (mem : e ∈ put es k v) : e ∈ es ∨ (sameKey e.1 k = true ∧ e.2 = v) := by
  induction es with
  | nil =>
      rw [put, List.mem_singleton] at mem
      subst mem
      exact .inr ⟨sameKey_self k, rfl⟩
  | cons e' es ih =>
      obtain ⟨k', w⟩ := e'
      rw [put] at mem
      by_cases same : sameKey k' k = true
      · rw [if_pos same] at mem
        obtain rfl | later := List.mem_cons.1 mem
        · exact .inr ⟨same, rfl⟩
        · exact .inl (List.mem_cons_of_mem _ later)
      · rw [if_neg same] at mem
        obtain rfl | later := List.mem_cons.1 mem
        · exact .inl List.mem_cons_self
        · obtain old | new := ih later
          · exact .inl (List.mem_cons_of_mem _ old)
          · exact .inr new

/-- An entry is an old one or has the value of one that is put in. -/
theorem mem_putAll (mem : e ∈ putAll es more) :
    e ∈ es ∨ ∃ e' ∈ more, sameKey e.1 e'.1 = true ∧ e.2 = e'.2 := by
  unfold putAll at mem
  induction more generalizing es with
  | nil => exact .inl mem
  | cons e' more ih =>
      rw [List.foldl_cons] at mem
      obtain in_put | ⟨e'', later, new⟩ := ih mem
      · obtain old | new := mem_put in_put
        · exact .inl old
        · exact .inr ⟨e', List.mem_cons_self, new⟩
      · exact .inr ⟨e'', List.mem_cons_of_mem _ later, new⟩

/-- A key that is a text is present exactly when there is a value under it. -/
theorem hasKey_string : hasKey es (.string key) = (get? es key).isSome := by
  unfold hasKey
  induction es with
  | nil => rfl
  | cons e es ih =>
      obtain ⟨k', w⟩ := e
      rw [List.any_cons, get?_cons, ih]
      by_cases at_key : k' = .string key
      · rw [sameKey_string.2 at_key, if_pos at_key]
        rfl
      · have other : sameKey k' (.string key) = false := by
          rw [← Bool.not_eq_true, sameKey_string]
          exact at_key
        rw [other, if_neg at_key, Bool.false_or]

/-- Without a key there is no value under it. -/
theorem get?_erase_self : get? (erase es key) key = none := by
  cases found : get? (erase es key) key with
  | none => rfl
  | some v =>
      have mem := (List.mem_filter.1 (mem_of_get? found)).2
      simp at mem

end SchemaCodegen.Entries
