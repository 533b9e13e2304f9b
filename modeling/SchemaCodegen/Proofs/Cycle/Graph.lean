import Mathlib.Data.List.Find
import Mathlib.Data.List.Nodup
import SchemaCodegen.Cycle.Dictionary
import SchemaCodegen.Proofs.Cycle.Walk

/-!
# The graph of a dictionary

The named schemas of a dictionary are the vertices of a graph, and `RefersTo` is its edge
relation: one name refers to another when the other one is among the dependencies of its
schema.  The relation is stated on the dictionary alone; the searches of the dictionary use
tables of edges, and this module shows that each table presents it.

* `edge_edgesFrom` — the table of dependencies.
* `edge_inOrder` — the table in which the edges of a schema stand in document order.
* `refersTo_perm` — the graph does not depend on the order of the dictionary.
-/

namespace SchemaCodegen

/-! ### Dependencies -/

/-- Keeping first occurrences keeps the members. -/
theorem mem_keepFirst {α : Type} [DecidableEq α] {a : α} {xs : List α} :
    a ∈ keepFirst xs ↔ a ∈ xs := by
  suffices grown : ∀ kept : List α,
      a ∈ xs.foldl (fun kept x => if x ∈ kept then kept else kept ++ [x]) kept
        ↔ a ∈ kept ∨ a ∈ xs by
    simpa [keepFirst] using grown []
  induction xs with
  | nil => simp
  | cons x xs ih =>
      intro kept
      rw [List.foldl_cons, ih]
      by_cases h : x ∈ kept
      · simp only [h, if_true, List.mem_cons]
        constructor
        · rintro (old | new)
          · exact .inl old
          · exact .inr (.inr new)
        · rintro (old | rfl | new)
          · exact .inl old
          · exact .inl h
          · exact .inr new
      · simp [h, or_assoc]

/-- A text is a key exactly when a value is found under it. -/
theorem Entries.has_iff {es : Entries} {key : String} :
    Entries.has es key = true ↔ .string key ∈ Entries.keys es := by
  unfold Entries.has Entries.keys
  induction es with
  | nil => simp
  | cons e es ih =>
      obtain ⟨k, v⟩ := e
      rw [Entries.get?_cons]
      by_cases h : k = .string key
      · simp [h]
      · simpa [h, Ne.symm h] using ih

/-- A schema depends on the names of the dictionary that its references give. -/
theorem mem_dependencies {g : Anchors} {schema : Value} {d : Entries} {name : String} :
    name ∈ dependencies g schema d
      ↔ .string name ∈ Entries.keys d ∧ ∃ ref ∈ g.references schema, schemaName? ref = some name := by
  simp only [dependencies, mem_keepFirst, List.mem_filterMap, Option.filter_eq_some_iff,
    Entries.has_iff]
  constructor
  · rintro ⟨ref, mem, found, known⟩
    exact ⟨known, ref, mem, found⟩
  · rintro ⟨known, ref, mem, found⟩
    exact ⟨ref, mem, found, known⟩

/-! ### The edge relation -/

/-- The schema that a dictionary has under a name. -/
def schemaAt? (d : Entries) (name : Scalar) : Option Value := (d.find? (·.1 = name)).map (·.2)

/-- The name of a schema is among the keys. -/
theorem mem_keys_of_schemaAt? {d : Entries} {key : Scalar} {schema : Value}
    (found : schemaAt? d key = some schema) : key ∈ Entries.keys d := by
  obtain ⟨entry, at_key, -⟩ := Option.map_eq_some_iff.1 found
  have same : entry.1 = key := by simpa using List.find?_some at_key
  exact List.mem_map.2 ⟨entry, List.mem_of_find?_eq_some at_key, same⟩

/-- A key has a schema. -/
theorem exists_schemaAt? {d : Entries} {key : Scalar} (mem : key ∈ Entries.keys d) :
    ∃ schema, schemaAt? d key = some schema := by
  obtain ⟨entry, at_entry, rfl⟩ := List.mem_map.1 mem
  cases found : d.find? (·.1 = entry.1) with
  | none => exact absurd (decide_eq_true rfl) (List.find?_eq_none.1 found entry at_entry)
  | some other => exact ⟨other.2, by rw [schemaAt?, found]; rfl⟩

/-- A name refers to another one: its schema depends on that. -/
def RefersTo (g : Anchors) (d : Entries) (a b : Scalar) : Prop :=
  ∃ schema, schemaAt? d a = some schema ∧ ∃ name ∈ dependencies g schema d, b = .string name

/-- What is referred to is a name of the dictionary. -/
theorem RefersTo.mem_keys {g : Anchors} {d : Entries} {a b : Scalar} (h : RefersTo g d a b) :
    b ∈ Entries.keys d := by
  obtain ⟨schema, -, name, mem, rfl⟩ := h
  exact (mem_dependencies.1 mem).1

/-- What refers to something is a name of the dictionary. -/
theorem RefersTo.source_mem_keys {g : Anchors} {d : Entries} {a b : Scalar}
    (h : RefersTo g d a b) : a ∈ Entries.keys d := by
  obtain ⟨schema, found, -⟩ := h
  exact mem_keys_of_schemaAt? found

/-- The table of dependencies at a name. -/
theorem edgesFrom_dependencyTable (g : Anchors) (d : Entries) (name : Scalar) :
    edgesFrom (dependencyTable g d) name
      = ((schemaAt? d name).map fun schema =>
          (dependencies g schema d).map Scalar.string).getD [] := by
  unfold edgesFrom dependencyTable schemaAt?
  rw [List.find?_map]
  have same_key : ((fun entry : Scalar × List Scalar => decide (entry.1 = name)) ∘
      fun e : Scalar × Value => (e.1, (dependencies g e.2 d).map Scalar.string))
        = fun e => decide (e.1 = name) := rfl
  rw [same_key]
  cases d.find? fun e => decide (e.1 = name) with
  | none => rfl
  | some e => rfl

/-- The table of dependencies presents the graph. -/
theorem edge_edgesFrom (g : Anchors) (d : Entries) :
    Edge (edgesFrom (dependencyTable g d)) = RefersTo g d := by
  funext a b
  refine propext ?_
  rw [Edge, edgesFrom_dependencyTable, RefersTo]
  cases schemaAt? d a with
  | none => simp
  | some schema => simp [eq_comm]

/-- The table with the edges of each schema in document order presents it too. -/
theorem edge_inOrder (g : Anchors) (d : Entries) :
    Edge (fun name => (Entries.keys d).filter
      (· ∈ edgesFrom (dependencyTable g d) name)) = RefersTo g d := by
  rw [← edge_edgesFrom]
  funext a b
  refine propext ?_
  simp only [Edge, List.mem_filter, decide_eq_true_eq, and_iff_right_iff_imp]
  intro h
  have edge : RefersTo g d a b := by
    rw [← edge_edgesFrom]
    exact h
  exact edge.mem_keys

/-- A dictionary in another order has the same schemas under its names. -/
theorem schemaAt?_perm {d d' : Entries} (perm : d.Perm d') (nodup : (Entries.keys d).Nodup)
    (name : Scalar) : schemaAt? d name = schemaAt? d' name := by
  unfold schemaAt?
  rw [List.find?_eq_find?_of_perm perm]
  rintro e ⟨he, same⟩ e' ⟨he', same'⟩
  have keys_eq : e.1 = e'.1 := by
    rw [of_decide_eq_true same, of_decide_eq_true same']
  exact List.inj_on_of_nodup_map nodup he he' keys_eq

/-- A dictionary in another order has the same keys. -/
theorem keys_perm {d d' : Entries} (perm : d.Perm d') :
    (Entries.keys d).Perm (Entries.keys d') := perm.map _

/-- A dictionary in another order has the same graph. -/
theorem refersTo_perm {g : Anchors} {d d' : Entries} (perm : d.Perm d')
    (nodup : (Entries.keys d).Nodup) : RefersTo g d = RefersTo g d' := by
  funext a b
  refine propext ?_
  have same (schema : Value) (name : String) :
      name ∈ dependencies g schema d ↔ name ∈ dependencies g schema d' := by
    simp only [mem_dependencies, (keys_perm perm).mem_iff]
  simp only [RefersTo, schemaAt?_perm perm nodup, same]

end SchemaCodegen
