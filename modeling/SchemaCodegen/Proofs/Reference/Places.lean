import SchemaCodegen.Proofs.Data.Tree
import SchemaCodegen.Reference.Resolve

/-!
# Places in trees

A place outside the store is a root with the steps that lead down from it.  `Stands own document
l` says that a located value is what its steps lead to.  So in trees two located values with
the same place are the same value (`eq_of_place_eq`), and the place of a part is never that of
something above it (`place_ne_of_above`).
-/

namespace SchemaCodegen

variable {g : Anchors} {own u v : Value} {document : Option Value} {l l' : Located}

/-! ### Steps -/

/-- The part of a value with a number: an item of a list or a value of an object. -/
def Anchors.partAt? (g : Anchors) (v : Value) (i : Nat) : Option Value :=
  match g.items? v with
  | some xs => xs[i]?
  | none => (g.entries? v).bind fun es => es[i]?.map (·.2)

/-- What the steps lead to, the last one first. -/
def Anchors.valueAt? (g : Anchors) (v : Value) : List Nat → Option Value
  | [] => some v
  | i :: steps => (g.valueAt? v steps).bind fun u => g.partAt? u i

/-- `Stands g own document l`: the value is what its steps lead to, from a schema given on its
own or from the document. -/
def Stands (g : Anchors) (own : Value) (document : Option Value) (l : Located) : Prop :=
  match l.root with
  | .schema => g.valueAt? own l.steps = some l.value
  | .document => ∃ d ∈ document, g.valueAt? d l.steps = some l.value

theorem partAt?_of_items? {xs : List Value} {i : Nat} (items : g.items? v = some xs)
    (here : xs[i]? = some u) : g.partAt? v i = some u := by
  unfold Anchors.partAt?
  rw [items]
  exact here

/-- An object is no list. -/
theorem items?_of_entries? {es : Entries} (entries : g.entries? v = some es) :
    g.items? v = none := by
  unfold Anchors.entries? at entries
  unfold Anchors.items?
  cases seen : g.look v with
  | list xs =>
      rw [seen] at entries
      cases entries
  | _ => rfl

theorem partAt?_of_entries? {es : Entries} {i : Nat} {key : Scalar}
    (entries : g.entries? v = some es) (here : es[i]? = some (key, u)) :
    g.partAt? v i = some u := by
  unfold Anchors.partAt?
  rw [items?_of_entries? entries, entries, Option.bind_some, here]
  rfl

/-- A part with a number is a part. -/
theorem partOf_of_partAt? {i : Nat} (here : g.partAt? v i = some u) : PartOf g v u := by
  unfold Anchors.partAt? at here
  split at here
  · next xs items => exact .inl ⟨xs, items, List.mem_of_getElem? here⟩
  · obtain ⟨es, entries, here⟩ := Option.bind_eq_some_iff.1 here
    obtain ⟨e, at_index, rfl⟩ := Option.map_eq_some_iff.1 here
    exact .inr ⟨es, e.1, entries, List.mem_of_getElem? at_index⟩

/-- A part of what stands stands. -/
theorem Stands.part {i : Nat} (stands : Stands g own document l)
    (here : g.partAt? l.value i = some u) : Stands g own document (l.part i u) := by
  unfold Stands at stands ⊢
  cases root : l.root with
  | schema =>
      simp only [root, Located.part] at stands ⊢
      rw [Anchors.valueAt?, stands]
      exact here
  | document =>
      simp only [root, Located.part] at stands ⊢
      obtain ⟨d, mem, stands⟩ := stands
      refine ⟨d, mem, ?_⟩
      rw [Anchors.valueAt?, stands]
      exact here

/-! ### The same place -/

/-- `Above l l'`: the steps to the second value go on from those to the first. -/
def Above (l l' : Located) : Prop := l'.root = l.root ∧ ∃ more ≠ [], l'.steps = more ++ l.steps

theorem above_part (l : Located) (i : Nat) (u : Value) : Above l (l.part i u) :=
  ⟨rfl, [i], List.cons_ne_nil _ _, rfl⟩

theorem Above.trans {l₁ l₂ l₃ : Located} (upper : Above l₁ l₂) (lower : Above l₂ l₃) :
    Above l₁ l₃ := by
  obtain ⟨root, more, ne, steps⟩ := upper
  obtain ⟨root', more', ne', steps'⟩ := lower
  refine ⟨root'.trans root, more' ++ more, ?_, ?_⟩
  · simp [ne]
  · rw [steps', steps, List.append_assoc]

/-- The place of a tree is its root with its steps. -/
theorem place_of_isTree (tree : l.value.isTree = true) : l.place = .below l.root l.steps := by
  unfold Located.place
  split
  · next n is_alias =>
      rw [is_alias] at tree
      cases tree
  · rfl

/-- What stands above a tree has another place. -/
theorem place_ne_of_above (above : Above l l') (tree : l.value.isTree = true)
    (tree' : l'.value.isTree = true) : l'.place ≠ l.place := by
  rw [place_of_isTree tree, place_of_isTree tree']
  rintro same
  obtain ⟨-, more, ne, steps⟩ := above
  obtain ⟨-, same_steps⟩ := Place.below.inj same
  rw [steps] at same_steps
  exact ne (List.append_left_eq_self.1 same_steps)

/-- Trees that stand at the same place are the same. -/
theorem eq_of_place_eq (stands : Stands g own document l) (stands' : Stands g own document l')
    (tree : l.value.isTree = true) (tree' : l'.value.isTree = true)
    (same : l'.place = l.place) : l'.value = l.value := by
  rw [place_of_isTree tree, place_of_isTree tree'] at same
  obtain ⟨same_root, same_steps⟩ := Place.below.inj same
  unfold Stands at stands stands'
  rw [same_root, same_steps] at stands'
  cases root : l.root with
  | schema =>
      rw [root] at stands stands'
      exact Option.some.inj (stands'.symm.trans stands)
  | document =>
      rw [root] at stands stands'
      obtain ⟨d, mem, stands⟩ := stands
      obtain ⟨d', mem', stands'⟩ := stands'
      cases Option.mem_unique mem mem'
      exact Option.some.inj (stands'.symm.trans stands)

end SchemaCodegen
