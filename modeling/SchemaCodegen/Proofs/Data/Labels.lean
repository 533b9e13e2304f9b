import SchemaCodegen.Proofs.Data.Keys

/-!
# Objects whose keys are texts

The keys of an object of JSON data are different texts (`Labelled`).  Such an object is the list of
its keys together with what stands under each text (`Labelled.ext`), so two of them are equal, the
order of entries included, when their keys and their look-ups are.

Putting the entries of one object into another one adds its keys behind those that are there
(`keys_putAll`), and the value that is put in wins (`get?_putAll`).  Both are associative, and so is
`Entries.putAll` (`putAll_assoc`); the empty object is its unit, and putting an object into itself
changes nothing (`nil_putAll`, `putAll_self`).
-/

namespace SchemaCodegen.Entries

variable {es fs more : Entries} {ks ls ms : List Scalar} {k l : Scalar} {v : Value} {key : String}

/-! ### Adding keys -/

/-- The keys of one list behind those of another, unless they name an entry that is there. -/
def addKeys (ks ls : List Scalar) : List Scalar := ls.foldl addKey ks

theorem addKeys_cons : addKeys ks (l :: ls) = addKeys (addKey ks l) ls := rfl

theorem addKey_of_any (named : ks.any (sameKey · k) = true) : addKey ks k = ks := by
  rw [addKey, if_pos named]

/-- A key names one that is added or one that was there. -/
theorem any_addKey :
    (addKey ks k).any (sameKey · l) = true ↔ ks.any (sameKey · l) = true ∨ sameKey k l = true := by
  unfold addKey
  split
  · next named =>
      -- The key that stays names all that the new one does.
      have covered (same : sameKey k l = true) : ks.any (sameKey · l) = true := by
        obtain ⟨a, mem, at_a⟩ := List.any_eq_true.1 named
        exact List.any_eq_true.2 ⟨a, mem, sameKey_trans at_a same⟩
      tauto
  · simp

theorem any_addKeys : (addKeys ks ls).any (sameKey · l) = true
    ↔ ks.any (sameKey · l) = true ∨ ls.any (sameKey · l) = true := by
  induction ls generalizing ks with
  | nil => simp [addKeys]
  | cons a ls ih => rw [addKeys_cons, ih, any_addKey, List.any_cons, Bool.or_eq_true, or_assoc]

theorem mem_of_mem_addKeys (mem : k ∈ addKeys ks ls) : k ∈ ks ∨ k ∈ ls := by
  induction ls generalizing ks with
  | nil => exact .inl mem
  | cons l ls ih =>
      rcases ih mem with added | later
      · unfold addKey at added
        split at added
        · exact .inl added
        · rcases List.mem_append.1 added with old | new
          · exact .inl old
          · exact .inr (List.mem_singleton.1 new ▸ List.mem_cons_self)
      · exact .inr (List.mem_cons_of_mem _ later)

/-- A key added to what is added is a key added at the end. -/
theorem addKeys_addKey : addKeys ks (addKey ls k) = addKey (addKeys ks ls) k := by
  by_cases named : ls.any (sameKey · k) = true
  · rw [addKey_of_any named, addKey_of_any (any_addKeys.2 (.inr named))]
  · rw [addKey, if_neg named, addKeys, List.foldl_append]
    rfl

theorem addKeys_assoc : addKeys (addKeys ks ls) ms = addKeys ks (addKeys ls ms) := by
  induction ms generalizing ls with
  | nil => rfl
  | cons m ms ih => rw [addKeys_cons, addKeys_cons, ← addKeys_addKey, ih]

/-- Keys that are there are not added again. -/
theorem addKeys_self : addKeys ks ks = ks := by
  suffices there : ∀ ls, (∀ l ∈ ls, ks.any (sameKey · l) = true) → addKeys ks ls = ks from
    there ks fun k mem => List.any_eq_true.2 ⟨k, mem, sameKey_self k⟩
  intro ls named
  induction ls with
  | nil => rfl
  | cons l ls ih =>
      obtain ⟨here, later⟩ := List.forall_mem_cons.1 named
      rw [addKeys_cons, addKey_of_any here, ih later]

/-- Keys that are all distinct are added one by one. -/
theorem nil_addKeys (distinct : DistinctKeys ks) : addKeys [] ks = ks := by
  suffices appended : ∀ ls, DistinctKeys (ls ++ ks) → addKeys ls ks = ls ++ ks from
    appended [] distinct
  clear distinct
  intro ls distinct
  induction ks generalizing ls with
  | nil => rw [List.append_nil]; rfl
  | cons k ks ih =>
      have new : ¬ ls.any (sameKey · k) = true := by
        rw [List.any_eq_true]
        rintro ⟨a, mem, same⟩
        have other := (List.pairwise_append.1 distinct).2.2 a mem k List.mem_cons_self
        rw [same] at other
        cases other
      rw [List.append_cons] at distinct ⊢
      rw [addKeys_cons, addKey, if_neg new, ih _ distinct]

/-! ### Texts for keys -/

/-- The keys of the object are texts, each once. -/
structure Labelled (es : Entries) : Prop where
  once : (keys es).Nodup
  texts : ∀ k ∈ keys es, ∃ text, k = .string text

theorem labelled_nil : Labelled [] := ⟨List.nodup_nil, fun _ mem => absurd mem List.not_mem_nil⟩

theorem Labelled.distinct (labelled : Labelled es) : DistinctKeys (keys es) := by
  refine List.Pairwise.imp_of_mem (fun {a b} _ at_b ne => ?_) labelled.once
  obtain ⟨text, rfl⟩ := labelled.texts b at_b
  rw [← Bool.not_eq_true, sameKey_string]
  exact ne

theorem get?_eq_none (absent : .string key ∉ keys es) : get? es key = none := by
  cases found : get? es key with
  | none => rfl
  | some v => exact absurd (List.mem_map_of_mem (mem_of_get? found)) absent

/-- Objects with the same keys in order are equal when they have the same under each text. -/
theorem Labelled.ext (labelled : Labelled es) (same_keys : keys es = keys fs)
    (same : ∀ text, get? es text = get? fs text) : es = fs := by
  induction es generalizing fs with
  | nil => exact (List.map_eq_nil_iff.1 same_keys.symm).symm
  | cons e es ih =>
      obtain ⟨f, fs, rfl, key, tail⟩ := List.map_eq_cons_iff.1 same_keys.symm
      have tail_keys : keys es = keys fs := tail.symm
      obtain ⟨k, v⟩ := e
      obtain ⟨k', w⟩ := f
      obtain rfl : k' = k := key
      have new : k' ∉ keys es ∧ (keys es).Nodup := List.nodup_cons.1 labelled.once
      obtain ⟨text, rfl⟩ := labelled.texts k' List.mem_cons_self
      have value : v = w := by simpa [get?_cons] using same text
      have later (other : String) : get? es other = get? fs other := by
        by_cases here : text = other
        · subst here
          rw [get?_eq_none new.1, get?_eq_none (tail_keys ▸ new.1)]
        · simpa [get?_cons, here] using same other
      have rest : Labelled es := ⟨new.2, fun k mem => labelled.texts k (List.mem_cons_of_mem _ mem)⟩
      rw [value, ih rest tail_keys later]

/-! ### Putting one object into another -/

theorem keys_putAll : keys (putAll es more) = addKeys (keys es) (keys more) := by
  unfold putAll
  induction more generalizing es with
  | nil => rfl
  | cons e more ih =>
      rw [List.foldl_cons, ih, keys_put]
      rfl

/-- What is put in under a text wins over what was there. -/
theorem get?_putAll (once : (keys more).Nodup) :
    get? (putAll es more) key = (get? more key).or (get? es key) := by
  unfold putAll
  induction more generalizing es with
  | nil => rfl
  | cons e more ih =>
      obtain ⟨k, v⟩ := e
      have new : k ∉ keys more ∧ (keys more).Nodup := List.nodup_cons.1 once
      rw [List.foldl_cons, ih new.2, get?_put, get?_cons]
      by_cases at_key : k = .string key
      · subst at_key
        rw [get?_eq_none new.1, if_pos rfl, if_pos rfl]
        rfl
      · rw [if_neg at_key, if_neg at_key]

theorem Labelled.putAll (labelled : Labelled es) (more_labelled : Labelled more) :
    Labelled (putAll es more) where
  once := nodup_keys_putAll labelled.once
  texts := by
    intro k mem
    rw [keys_putAll] at mem
    rcases mem_of_mem_addKeys mem with old | new
    · exact labelled.texts k old
    · exact more_labelled.texts k new

theorem putAll_assoc (first : Labelled es) (second : Labelled fs) (third : Labelled more) :
    putAll (putAll es fs) more = putAll es (putAll fs more) := by
  refine ((first.putAll second).putAll third).ext ?_ fun text => ?_
  · simp only [keys_putAll, addKeys_assoc]
  · have joined := (second.putAll third).once
    rw [get?_putAll third.once, get?_putAll second.once, get?_putAll joined,
      get?_putAll third.once, Option.or_assoc]

theorem nil_putAll (labelled : Labelled es) : putAll [] es = es := by
  refine (labelled_nil.putAll labelled).ext ?_ fun text => ?_
  · rw [keys_putAll]
    exact nil_addKeys labelled.distinct
  · rw [get?_putAll labelled.once, get?_nil, Option.or_none]

theorem putAll_self (labelled : Labelled es) : putAll es es = es := by
  refine (labelled.putAll labelled).ext ?_ fun text => ?_
  · rw [keys_putAll, addKeys_self]
  · rw [get?_putAll labelled.once, Option.or_self]

end SchemaCodegen.Entries
