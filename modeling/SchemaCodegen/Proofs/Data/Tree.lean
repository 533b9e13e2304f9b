import Mathlib.Data.Set.Finite.Basic
import SchemaCodegen.Proofs.Reference.Occurrences

/-!
# Trees

Data in which nothing is shared is a tree.  In a tree every way down ends: what is inside it
is on the finite list of its `Value.parts`, and what holds of a value whenever it holds of
its items or entries holds of every tree (`Value.isTree_induct`).

Some statements are on several trees at once, a schema and the document that its references
lead into.  `Within g roots u` says that `u` is inside one of them.
-/

namespace SchemaCodegen

open Relation

variable {g : Anchors} {u v w : Value} {roots : List Value}

/-! ### Parts of trees -/

theorem areTrees_iff {xs : List Value} : Value.areTrees xs = true ↔ ∀ x ∈ xs, x.isTree = true := by
  induction xs with
  | nil => simp [Value.areTrees]
  | cons x xs ih => simp [Value.areTrees, ih]

theorem haveTrees_iff {es : Entries} :
    Value.haveTrees es = true ↔ ∀ e ∈ es, e.2.isTree = true := by
  induction es with
  | nil => simp [Value.haveTrees]
  | cons e es ih => simp [Value.haveTrees, ih]

/-- A tree is seen as it is. -/
theorem look_of_isTree (tree : v.isTree = true) : g.look v = v := by
  cases v with
  | aliasTo n => cases tree
  | _ => rfl

/-- A tree can always be entered. -/
theorem enter?_of_isTree (tree : v.isTree = true) (active : List Nat) :
    g.enter? active v = some active := by
  cases v with
  | aliasTo n => cases tree
  | _ => rfl

theorem eq_list_of_items? {xs : List Value} (tree : v.isTree = true) (h : g.items? v = some xs) :
    v = .list xs := by
  rw [Anchors.items?, look_of_isTree tree] at h
  cases v with
  | list ys =>
      cases h
      rfl
  | _ => cases h

theorem eq_object_of_entries? {es : Entries} (tree : v.isTree = true)
    (h : g.entries? v = some es) : v = .object es := by
  rw [Anchors.entries?, look_of_isTree tree] at h
  cases v with
  | object fs =>
      cases h
      rfl
  | _ => cases h

/-- The parts of a tree are trees. -/
theorem PartOf.isTree (part : PartOf g v u) (tree : v.isTree = true) : u.isTree = true := by
  obtain ⟨xs, items, mem⟩ | ⟨es, key, entries, mem⟩ := part
  · rw [eq_list_of_items? tree items, Value.isTree, areTrees_iff] at tree
    exact tree u mem
  · rw [eq_object_of_entries? tree entries, Value.isTree, haveTrees_iff] at tree
    exact tree _ mem

/-- What is inside a tree is a tree. -/
theorem Inside.isTree (inside : Inside g v u) (tree : v.isTree = true) : u.isTree = true := by
  induction inside with
  | refl => exact tree
  | tail _ part ih => exact part.isTree ih

/-- The parts of a tree weigh less. -/
theorem PartOf.weight_lt (part : PartOf g v u) (tree : v.isTree = true) : u.weight < v.weight := by
  obtain ⟨xs, items, mem⟩ | ⟨es, key, entries, mem⟩ := part
  · rw [eq_list_of_items? tree items, Value.weight]
    exact Nat.lt_succ_of_le (Value.weight_le_weights mem)
  · rw [eq_object_of_entries? tree entries, Value.weight]
    exact Nat.lt_succ_of_le (Value.weight_le_entryWeights mem)

/-- The value is neither a list nor an object. -/
def Value.IsLeaf (g : Anchors) (v : Value) : Prop := g.items? v = none ∧ g.entries? v = none

/-- Induction over trees: from the items of a list to the list, and from the values of an
object to the object. -/
theorem Value.isTree_induct {motive : (v : Value) → v.isTree = true → Prop}
    (leaf : ∀ v tree, v.IsLeaf g → motive v tree)
    (list : ∀ xs tree, (∀ x ∈ xs, ∀ tree, motive x tree) → motive (.list xs) tree)
    (object : ∀ es tree, (∀ e ∈ es, ∀ tree, motive e.2 tree) → motive (.object es) tree)
    (v : Value) (tree : v.isTree = true) : motive v tree := by
  induction weight : v.weight using Nat.strongRecOn generalizing v with
  | _ weight lighter =>
      subst weight
      have below {u : Value} (part : PartOf g v u) (u_tree : u.isTree = true) : motive u u_tree :=
        lighter _ (part.weight_lt tree) u u_tree rfl
      cases v with
      | list xs => exact list xs tree fun x mem => below (.inl ⟨xs, rfl, mem⟩)
      | object es => exact object es tree fun e mem => below (.inr ⟨es, e.1, rfl, mem⟩)
      | aliasTo n => cases tree
      | _ => exact leaf _ tree ⟨rfl, rfl⟩

/-! ### The copy of a tree -/

mutual

/-- The copy of a tree is the tree. -/
theorem expand_of_isTree (g : Anchors) (seen : List Nat) :
    (v : Value) → v.isTree = true → g.expand seen v = v
  | .scalar _, _ | .set _, _ => by rw [Anchors.expand]
  | .pair a b, tree => by
      rw [Value.isTree, Bool.and_eq_true] at tree
      rw [Anchors.expand, expand_of_isTree g seen a tree.1, expand_of_isTree g seen b tree.2]
  | .list xs, tree => by
      rw [Anchors.expand, expandItems_of_areTrees g seen xs tree]
  | .object es, tree => by
      rw [Anchors.expand, expandEntries_of_haveTrees g seen es tree]

theorem expandItems_of_areTrees (g : Anchors) (seen : List Nat) :
    (xs : List Value) → Value.areTrees xs = true → g.expandItems seen xs = xs
  | [], _ => by rw [Anchors.expandItems]
  | x :: xs, trees => by
      rw [Value.areTrees, Bool.and_eq_true] at trees
      rw [Anchors.expandItems, expand_of_isTree g seen x trees.1,
        expandItems_of_areTrees g seen xs trees.2]

theorem expandEntries_of_haveTrees (g : Anchors) (seen : List Nat) :
    (es : List (Scalar × Value)) → Value.haveTrees es = true → g.expandEntries seen es = es
  | [], _ => by rw [Anchors.expandEntries]
  | (k, v) :: es, trees => by
      rw [Value.haveTrees, Bool.and_eq_true] at trees
      rw [Anchors.expandEntries, expand_of_isTree g seen v trees.1,
        expandEntries_of_haveTrees g seen es trees.2]

end

theorem unshare_of_isTree (tree : v.isTree = true) : g.unshare v = v :=
  expand_of_isTree g [] v tree

/-! ### All that is inside -/

mutual

/-- A tree with all that is inside it. -/
def Value.parts : Value → List Value
  | .list xs => .list xs :: Value.itemParts xs
  | .object es => .object es :: Value.entryParts es
  | v => [v]

/-- The items of a list with all that is inside them. -/
def Value.itemParts : List Value → List Value
  | [] => []
  | v :: rest => v.parts ++ itemParts rest

/-- The values of an object with all that is inside them. -/
def Value.entryParts : List (Scalar × Value) → List Value
  | [] => []
  | (_, v) :: rest => v.parts ++ entryParts rest

end

theorem mem_itemParts {xs : List Value} : u ∈ Value.itemParts xs ↔ ∃ x ∈ xs, u ∈ x.parts := by
  induction xs with
  | nil => simp [Value.itemParts]
  | cons x xs ih => simp [Value.itemParts, ih]

theorem mem_entryParts {es : Entries} : u ∈ Value.entryParts es ↔ ∃ e ∈ es, u ∈ e.2.parts := by
  induction es with
  | nil => simp [Value.entryParts]
  | cons e es ih => simp [Value.entryParts, ih]

theorem mem_parts_self (v : Value) : v ∈ v.parts := by
  cases v <;> simp [Value.parts]

/-- What is inside a part of a tree is on the list of the tree. -/
theorem mem_parts_of_partOf (part : PartOf g v w) (tree : v.isTree = true) (mem : u ∈ w.parts) :
    u ∈ v.parts := by
  obtain ⟨xs, items, at_item⟩ | ⟨es, key, entries, at_key⟩ := part
  · rw [eq_list_of_items? tree items, Value.parts]
    exact List.mem_cons_of_mem _ (mem_itemParts.2 ⟨w, at_item, mem⟩)
  · rw [eq_object_of_entries? tree entries, Value.parts]
    exact List.mem_cons_of_mem _ (mem_entryParts.2 ⟨_, at_key, mem⟩)

/-- All that is inside a tree is on its list. -/
theorem Inside.mem_parts (inside : Inside g v u) (tree : v.isTree = true) : u ∈ v.parts := by
  induction inside using ReflTransGen.head_induction_on with
  | refl => exact mem_parts_self u
  | head part _ ih => exact mem_parts_of_partOf part tree (ih (part.isTree tree))

/-! ### Inside one of several -/

/-- `Within g roots u`: the value `u` is inside one of the roots. -/
def Within (g : Anchors) (roots : List Value) (u : Value) : Prop := ∃ root ∈ roots, Inside g root u

theorem Within.of_mem (mem : v ∈ roots) : Within g roots v := ⟨v, mem, .refl⟩

theorem Within.inside (within : Within g roots v) (inside : Inside g v u) : Within g roots u := by
  obtain ⟨root, mem, above⟩ := within
  exact ⟨root, mem, above.trans inside⟩

theorem Within.part (within : Within g roots v) (part : PartOf g v u) : Within g roots u :=
  within.inside (.single part)

theorem Within.isTree (within : Within g roots u) (trees : ∀ root ∈ roots, root.isTree = true) :
    u.isTree = true := by
  obtain ⟨root, mem, inside⟩ := within
  exact inside.isTree (trees root mem)

/-- What holds of all parts of trees holds of all that is within them. -/
theorem forall_within {P : Value → Prop} (trees : ∀ root ∈ roots, root.isTree = true)
    (all : ∀ u ∈ roots.flatMap Value.parts, P u) : ∀ u, Within g roots u → P u := by
  rintro u ⟨root, mem, inside⟩
  exact all u (List.mem_flatMap.2 ⟨root, mem, inside.mem_parts (trees root mem)⟩)

/-- What is within trees is finite. -/
theorem finite_within (trees : ∀ root ∈ roots, root.isTree = true) :
    {u | Within g roots u}.Finite :=
  (List.finite_toSet (roots.flatMap Value.parts)).subset
    (forall_within trees fun _ mem => mem)

end SchemaCodegen
