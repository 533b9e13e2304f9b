import SchemaCodegen.Proofs.Compose.Collapsed
import SchemaCodegen.Proofs.Cycle.Graph
import SchemaCodegen.Proofs.Data.Keys

/-!
# What merging unites

Merging schemas loses no property and no required name, and makes none.  Both statements have one
form: a merged schema *says* something exactly when one of the merged schemas says it.  `Unites g Q`
is that form for what `Q` says, and it passes from the merging of two schemas to everything that
collapsing does with them (`Unites.foldl`, `Unites.joinOwn`).

* `unites_hasProperty` — there is a property of a given name.
* `unites_requires` — a given name is required.

The entries of a merged schema have different keys, as those of the schemas had; otherwise an entry
behind another one of the same key would be merged in although it is never looked at.
-/

namespace SchemaCodegen

variable {g : Anchors} {es fs members own : Entries} {key : String} {k : Scalar} {v : Value}
  {name : String} {names : List String} {e : Scalar × Value} {Q : Entries → Prop}

/-! ### Required names -/

/-- The required names are the texts of the list under `required`. -/
theorem mem_requiredNames :
    name ∈ requiredNames g es ↔ ∃ xs, g.listAt? es "required" = some xs ∧ .string name ∈ xs := by
  have is_text (v : Value) : v.string? = some name ↔ v = .string name := by
    unfold Value.string?
    split
    · simp
    · next other =>
        simp only [reduceCtorEq, false_iff]
        exact other name
  unfold requiredNames
  cases g.listAt? es "required" with
  | none => simp
  | some xs =>
      show name ∈ keepFirst (xs.filterMap Value.string?) ↔ _
      simp [mem_keepFirst, List.mem_filterMap, is_text]

/-- The required names depend on what stands under `required` only. -/
theorem requiredNames_congr
    (same : Entries.get? es "required" = Entries.get? fs "required") :
    requiredNames g es = requiredNames g fs := by
  unfold requiredNames Anchors.listAt?
  rw [same]

/-- Names that are put under `required` are required. -/
theorem mem_requiredNames_put :
    name ∈ requiredNames g (Entries.put es (.string "required") (.strings names))
      ↔ name ∈ names := by
  rw [mem_requiredNames]
  unfold Anchors.listAt?
  rw [Entries.get?_put, if_pos rfl]
  simp [Value.strings]

theorem mem_unite {more : List String} : name ∈ unite names more ↔ name ∈ names ∨ name ∈ more := by
  unfold unite
  simp only [List.mem_append, List.mem_filter, decide_not, Bool.not_eq_eq_eq_not, Bool.not_true,
    decide_eq_false_iff_not]
  tauto

theorem mem_requiredNames_normalized :
    name ∈ requiredNames g (normalized g es) ↔ name ∈ requiredNames g es := by
  unfold normalized
  split
  · exact mem_requiredNames_put
  · rfl

/-- Merging in an entry adds the required names if the entry is that of `required`. -/
theorem mem_requiredNames_mergeEntry :
    name ∈ requiredNames g (mergeEntry g names es e)
      ↔ name ∈ requiredNames g es ∨ e.1 = .string "required" ∧ name ∈ names := by
  obtain ⟨k, v⟩ := e
  by_cases at_required : k = .string "required"
  · subst at_required
    have merged : mergeEntry g names es (.string "required", v)
        = Entries.put es (.string "required") (.strings (unite (requiredNames g es) names)) := rfl
    rw [merged, mem_requiredNames_put, mem_unite]
    simp
  · have kept : Entries.get? (mergeEntry g names es (k, v)) "required"
        = Entries.get? es "required" := by
      unfold mergeEntry
      split
      · rw [Entries.get?_put, if_neg at_required]
      · rw [if_neg at_required]
        split
        · rfl
        · rw [Entries.get?_put, if_neg at_required]
    rw [requiredNames_congr kept]
    simp [at_required]

/-! ### Properties -/

/-- The properties of a schema; none, if what stands there is no object. -/
def propertiesIn (g : Anchors) (es : Entries) : Entries := (g.objectAt? es "properties").getD []

/-- The properties depend on what stands under `properties` only. -/
theorem propertiesIn_congr
    (same : Entries.get? es "properties" = Entries.get? fs "properties") :
    propertiesIn g es = propertiesIn g fs := by
  unfold propertiesIn Anchors.objectAt?
  rw [same]

theorem propertiesIn_put :
    propertiesIn g (Entries.put es (.string "properties") v) = (g.entries? v).getD [] := by
  unfold propertiesIn Anchors.objectAt?
  rw [Entries.get?_put, if_pos rfl]
  rfl

theorem propertiesIn_normalized : propertiesIn g (normalized g es) = propertiesIn g es := by
  unfold normalized
  split
  · refine propertiesIn_congr ?_
    rw [Entries.get?_put, if_neg (by simp)]
  · rfl

/-- Merging in an entry adds the names of the properties if the entry is that of `properties`. -/
theorem hasKey_propertiesIn_mergeEntry :
    Entries.hasKey (propertiesIn g (mergeEntry g names es e)) k = true
      ↔ Entries.hasKey (propertiesIn g es) k = true
        ∨ e.1 = .string "properties" ∧ Entries.hasKey ((g.entries? e.2).getD []) k = true := by
  obtain ⟨key, v⟩ := e
  by_cases at_properties : key = .string "properties"
  · subst at_properties
    cases entries : g.entries? v with
    | some ps =>
        have merged : mergeEntry g names es (.string "properties", v)
            = Entries.put es (.string "properties")
              (.object (Entries.putAll (propertiesIn g es) ps)) := by
          unfold mergeEntry propertiesIn
          rw [if_pos rfl, entries]
        rw [merged, propertiesIn_put]
        simp [Entries.hasKey_putAll]
    | none =>
        -- What is no object has no properties, whether it is kept or not.
        have unchanged : propertiesIn g (mergeEntry g names es (.string "properties", v))
            = propertiesIn g es := by
          unfold mergeEntry
          rw [if_pos rfl, entries]
          dsimp only
          rw [if_neg (by simp), Entries.hasKey_string]
          cases found : Entries.get? es "properties" with
          | some w => simp
          | none =>
              rw [Option.isSome_none, if_neg (by simp), propertiesIn_put, entries]
              simp [propertiesIn, Anchors.objectAt?, found]
        rw [unchanged]
        simp [Entries.hasKey]
  · have kept : Entries.get? (mergeEntry g names es (key, v)) "properties"
        = Entries.get? es "properties" := by
      unfold mergeEntry
      rw [if_neg at_properties]
      dsimp only
      split
      · rw [Entries.get?_put, if_neg at_properties]
      · split
        · rfl
        · rw [Entries.get?_put, if_neg at_properties]
    rw [propertiesIn_congr kept]
    simp [at_properties]

/-! ### Different keys -/

theorem nodup_keys_mergeEntry (once : (Entries.keys es).Nodup) :
    (Entries.keys (mergeEntry g names es e)).Nodup := by
  unfold mergeEntry
  split
  · exact Entries.nodup_keys_put once
  · split
    · exact Entries.nodup_keys_put once
    · split
      · exact once
      · exact Entries.nodup_keys_put once

/-- The keys of merged schemas differ if those of the first one do. -/
theorem nodup_keys_mergeSchemas (once : (Entries.keys es).Nodup) :
    (Entries.keys (mergeSchemas g es fs)).Nodup := by
  have start : (Entries.keys (normalized g es)).Nodup := by
    unfold normalized
    split
    · exact Entries.nodup_keys_put once
    · exact once
  unfold mergeSchemas
  generalize requiredNames g fs = names
  generalize normalized g es = merged at start
  induction fs generalizing merged with
  | nil => exact start
  | cons e fs ih => exact ih _ (nodup_keys_mergeEntry start)

theorem nodup_keys_erase (once : (Entries.keys es).Nodup) :
    (Entries.keys (Entries.erase es key)).Nodup :=
  once.sublist (List.filter_sublist.map _)

theorem nodup_keys_foldl {parts : List Entries} (once : (Entries.keys es).Nodup) :
    (Entries.keys (parts.foldl (mergeSchemas g) es)).Nodup := by
  induction parts generalizing es with
  | nil => exact once
  | cons part parts ih => exact ih (nodup_keys_mergeSchemas once)

theorem nodup_keys_joinOwn (once : (Entries.keys members).Nodup) :
    (Entries.keys (joinOwn g members own)).Nodup := by
  have joined := @nodup_keys_mergeSchemas g _ (Entries.erase own "allOf") once
  unfold joinOwn
  dsimp only
  split
  · exact Entries.nodup_keys_put (Entries.nodup_keys_putAll joined)
  · exact Entries.nodup_keys_putAll joined

/-! ### What is said by one of several schemas -/

/-- What each step adds to is added to by one of the steps. -/
theorem foldl_iff {α β : Type} {f : β → α → β} {S : β → Prop} {T : α → Prop} {xs : List α} {b : β}
    (step : ∀ b, ∀ a ∈ xs, (S (f b a) ↔ S b ∨ T a)) :
    S (xs.foldl f b) ↔ S b ∨ ∃ a ∈ xs, T a := by
  induction xs generalizing b with
  | nil => simp
  | cons a xs ih =>
      have later := ih (b := f b a) fun b x mem => step b x (List.mem_cons_of_mem a mem)
      rw [List.foldl_cons, later, step b a List.mem_cons_self]
      simp only [List.mem_cons, exists_eq_or_imp]
      tauto

/-- `Unites g Q`: merged schemas say what `Q` says exactly when one of them does.  Whether a schema
says it depends on its properties and required names only. -/
structure Unites (g : Anchors) (Q : Entries → Prop) : Prop where
  nil : ¬ Q []
  congr : ∀ es fs, Entries.get? es "properties" = Entries.get? fs "properties" →
    Entries.get? es "required" = Entries.get? fs "required" → (Q es ↔ Q fs)
  merge : ∀ es fs, (Entries.keys fs).Nodup → (Q (mergeSchemas g es fs) ↔ Q es ∨ Q fs)

/-- Schemas merged one after the other say what one of them says. -/
theorem Unites.foldl {parts : List Entries} (unites : Unites g Q)
    (once : ∀ part ∈ parts, (Entries.keys part).Nodup) :
    Q (parts.foldl (mergeSchemas g) es) ↔ Q es ∨ ∃ part ∈ parts, Q part :=
  foldl_iff fun es part mem => unites.merge es part (once part mem)

/-- A schema joined to its members says what it says itself or what they say. -/
theorem Unites.joinOwn (unites : Unites g Q) (once : (Entries.keys own).Nodup) :
    Q (joinOwn g members own) ↔ Q members ∨ Q own := by
  have rest : Q (Entries.erase own "allOf") ↔ Q own :=
    unites.congr _ _ (Entries.get?_erase_of_ne (by simp)) (Entries.get?_erase_of_ne (by simp))
  rw [← rest, ← unites.merge _ _ (nodup_keys_erase once)]
  have others (text : String) (mem : text = "properties" ∨ text = "required") :
      ∀ e ∈ (Entries.erase own "allOf").filter
        fun e => e.1 != .string "properties" && e.1 != .string "required",
        e.1 ≠ .string text := by
    intro e at_e same
    have kept := (List.mem_filter.1 at_e).2
    obtain rfl | rfl := mem
    all_goals simp [same] at kept
  unfold SchemaCodegen.joinOwn
  dsimp only
  split
  · refine unites.congr _ _ ?_ ?_
    · rw [Entries.get?_put, if_neg (by simp),
        Entries.get?_putAll_of_forall_ne (others _ (.inl rfl))]
    · rw [Entries.get?_put, if_neg (by simp),
        Entries.get?_putAll_of_forall_ne (others _ (.inr rfl))]
  · exact unites.congr _ _ (Entries.get?_putAll_of_forall_ne (others _ (.inl rfl)))
      (Entries.get?_putAll_of_forall_ne (others _ (.inr rfl)))

/-- Merged schemas have the properties of both. -/
theorem unites_hasProperty (k : Scalar) :
    Unites g fun es => Entries.hasKey (propertiesIn g es) k = true where
  nil := by simp [propertiesIn, Anchors.objectAt?, Entries.hasKey]
  congr := by
    intro es fs same _
    rw [propertiesIn_congr same]
  merge := by
    intro es fs once
    have own : Entries.hasKey (propertiesIn g fs) k = true
        ↔ ∃ e ∈ fs, e.1 = .string "properties"
          ∧ Entries.hasKey ((g.entries? e.2).getD []) k = true := by
      constructor
      · intro has
        unfold propertiesIn Anchors.objectAt? at has
        cases found : Entries.get? fs "properties" with
        | none => simp [found, Entries.hasKey] at has
        | some v =>
            rw [found] at has
            exact ⟨_, Entries.mem_of_get? found, rfl, has⟩
      · rintro ⟨⟨key, v⟩, mem, rfl, has⟩
        unfold propertiesIn Anchors.objectAt?
        rw [Entries.get?_of_mem once mem]
        exact has
    rw [own, ← @propertiesIn_normalized g es]
    exact foldl_iff (S := fun es => Entries.hasKey (propertiesIn g es) k = true)
      fun _ _ _ => hasKey_propertiesIn_mergeEntry

/-- Merged schemas require what one of them requires. -/
theorem unites_requires (name : String) : Unites g fun es => name ∈ requiredNames g es where
  nil := by simp [mem_requiredNames, Anchors.listAt?]
  congr := by
    intro es fs _ same
    rw [requiredNames_congr same]
  merge := by
    intro es fs _
    have own : name ∈ requiredNames g fs
        ↔ ∃ e ∈ fs, e.1 = .string "required" ∧ name ∈ requiredNames g fs := by
      constructor
      · intro mem
        obtain ⟨xs, at_key, -⟩ := mem_requiredNames.1 mem
        obtain ⟨v, found, -⟩ := Option.bind_eq_some_iff.1 at_key
        exact ⟨_, Entries.mem_of_get? found, rfl, mem⟩
      · rintro ⟨_, -, -, mem⟩
        exact mem
    rw [own, ← @mem_requiredNames_normalized g es]
    exact foldl_iff (S := fun es => name ∈ requiredNames g es)
      fun _ _ _ => mem_requiredNames_mergeEntry

end SchemaCodegen
