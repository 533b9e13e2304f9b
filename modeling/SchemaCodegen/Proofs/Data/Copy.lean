import SchemaCodegen.Data.Shown
import SchemaCodegen.Proofs.Data.Tree

/-!
# Copies in which nothing is shared

`Anchors.expand` copies data below the containers that were entered on the way.  Where it is a
tree the copy does not depend on these (`expand_eq_of_subset`), so `Anchors.unshare` copies part
by part: what is looked up in the copy is the copy of what is looked up in the data.

The copy is a tree exactly when no container is inside itself (`isTree_unshare_iff`).
-/

namespace SchemaCodegen

open Relation

variable {g h : Anchors} {seen fewer : List Nat} {u v : Value} {es : Entries} {key : String}

/-! ### Along the copy -/

theorem isTree_expand_list {xs : List Value} :
    (g.expand seen (.list xs)).isTree = true ↔ ∀ x ∈ xs, (g.expand seen x).isTree = true := by
  rw [Anchors.expand, Value.isTree, expandItems_eq_map, areTrees_iff, List.forall_mem_map]

theorem isTree_expand_object :
    (g.expand seen (.object es)).isTree = true ↔ ∀ e ∈ es, (g.expand seen e.2).isTree = true := by
  rw [Anchors.expand, Value.isTree, expandEntries_eq_map, haveTrees_iff, List.forall_mem_map]

theorem isTree_expand_pair {a b : Value} : (g.expand seen (.pair a b)).isTree = true
    ↔ (g.expand seen a).isTree = true ∧ (g.expand seen b).isTree = true := by
  rw [Anchors.expand, Value.isTree, Bool.and_eq_true]

/-- A copy without aliases has entered each container for the first time. -/
theorem entered_of_isTree {n : Nat} (tree : (g.expand seen (.aliasTo n)).isTree = true) :
    n ∉ seen ∧ ∃ c, g.container? n = some c
      ∧ g.expand seen (.aliasTo n) = g.expand (n :: seen) c.value := by
  by_cases kept : g.container? n = none ∨ n ∈ seen
  · rw [expand_alias_of_kept kept] at tree
    cases tree
  · obtain ⟨present, new⟩ := not_or.1 kept
    obtain ⟨c, found⟩ := Option.ne_none_iff_exists'.1 present
    exact ⟨new, c, found, expand_alias found new⟩

/-- **A copy that is a tree** does not depend on the containers entered on the way. -/
theorem expand_eq_of_subset (subset : fewer ⊆ seen) (tree : (g.expand seen v).isTree = true) :
    g.expand fewer v = g.expand seen v := by
  induction seen, v using expand_induct (g := g) generalizing fewer with
  | scalar seen s => rw [Anchors.expand, Anchors.expand]
  | set seen xs => rw [Anchors.expand, Anchors.expand]
  | kept seen n stays =>
      rw [expand_alias_of_kept stays] at tree
      cases tree
  | entered seen n c found new ih =>
      rw [expand_alias found new] at tree ⊢
      rw [expand_alias found fun mem => new (subset mem)]
      exact ih (List.cons_subset_cons n subset) tree
  | pair seen a b ih_a ih_b =>
      obtain ⟨tree_a, tree_b⟩ := isTree_expand_pair.1 tree
      rw [Anchors.expand, Anchors.expand, ih_a subset tree_a, ih_b subset tree_b]
  | list seen xs ih =>
      rw [Anchors.expand, Anchors.expand, expandItems_eq_map, expandItems_eq_map]
      rw [List.map_congr_left fun x mem => ih x mem subset (isTree_expand_list.1 tree x mem)]
  | object seen es ih =>
      rw [Anchors.expand, Anchors.expand, expandEntries_eq_map, expandEntries_eq_map]
      rw [List.map_congr_left fun e mem => by
        rw [ih e mem subset (isTree_expand_object.1 tree e mem)]]

theorem unshare_eq_expand (tree : (g.expand seen v).isTree = true) :
    g.unshare v = g.expand seen v := expand_eq_of_subset (List.nil_subset seen) tree

theorem isTree_unshare_of_expand (tree : (g.expand seen v).isTree = true) :
    (g.unshare v).isTree = true := by
  rw [unshare_eq_expand tree]
  exact tree

/-! ### Copies of parts -/

/-- The copy of data is that of what is seen of it, with one more container entered at most. -/
theorem exists_expand_look (tree : (g.expand seen v).isTree = true) :
    ∃ inner, seen ⊆ inner ∧ g.expand inner (g.look v) = g.expand seen v := by
  cases v with
  | aliasTo n =>
      obtain ⟨-, c, found, same⟩ := entered_of_isTree tree
      refine ⟨n :: seen, List.subset_cons_self n seen, ?_⟩
      rw [same, Anchors.look, found]
      rfl
  | _ => exact ⟨seen, List.Subset.refl seen, rfl⟩

/-- The copy of a container is that of its alias. -/
theorem unshare_look (tree : (g.unshare v).isTree = true) : g.unshare (g.look v) = g.unshare v := by
  obtain ⟨inner, -, same⟩ := exists_expand_look tree
  have inner_tree : (g.expand inner (g.look v)).isTree = true := by
    rw [same]
    exact tree
  exact (unshare_eq_expand inner_tree).trans same

/-- `Component g v u`: the value `u` is a part of the list or object `v`, or one of the two in the
pair `v`. -/
def Component (g : Anchors) (v u : Value) : Prop :=
  PartOf g v u ∨ ∃ a b, g.look v = .pair a b ∧ (u = a ∨ u = b)

/-- The components of data whose copy is a tree have trees for copies. -/
theorem Component.isTree_expand (component : Component g v u)
    (tree : (g.expand seen v).isTree = true) : (g.expand seen u).isTree = true := by
  obtain ⟨inner, subset, same⟩ := exists_expand_look tree
  rw [← same] at tree
  have inner_tree : (g.expand inner u).isTree = true := by
    obtain (⟨xs, items, mem⟩ | ⟨es, k, entries, mem⟩) | ⟨a, b, pair, which⟩ := component
    · rw [items?_eq_some.1 items] at tree
      exact isTree_expand_list.1 tree u mem
    · rw [entries?_eq_some.1 entries] at tree
      exact isTree_expand_object.1 tree _ mem
    · rw [pair] at tree
      obtain ⟨tree_a, tree_b⟩ := isTree_expand_pair.1 tree
      obtain rfl | rfl := which
      · exact tree_a
      · exact tree_b
  rw [expand_eq_of_subset subset inner_tree]
  exact inner_tree

theorem PartOf.isTree_unshare (part : PartOf g v u) (tree : (g.unshare v).isTree = true) :
    (g.unshare u).isTree = true := Component.isTree_expand (.inl part) tree

theorem unshare_list {xs : List Value} :
    g.unshare (.list xs) = .list (xs.map g.unshare) := by
  rw [Anchors.unshare, Anchors.expand, expandItems_eq_map]
  rfl

theorem unshare_object : g.unshare (.object es) = .object (g.expandEntries [] es) := by
  rw [Anchors.unshare, Anchors.expand]

/-! ### What is looked up in a copy -/

/-- The items of a copy are copies. -/
theorem items?_unshare (tree : (g.unshare v).isTree = true) :
    h.items? (g.unshare v) = (g.items? v).map (List.map g.unshare) := by
  rw [Anchors.items?, look_of_isTree tree, ← unshare_look tree, Anchors.items?]
  cases seen : g.look v with
  | aliasTo n => exact absurd seen (g.look_ne_alias v n)
  | list xs => rw [unshare_list]; rfl
  | object es => rw [unshare_object]; rfl
  | _ => rw [Anchors.unshare, Anchors.expand]; rfl

/-- The entries of a copy are copies. -/
theorem entries?_unshare (tree : (g.unshare v).isTree = true) :
    h.entries? (g.unshare v) = (g.entries? v).map (g.expandEntries []) := by
  rw [Anchors.entries?, look_of_isTree tree, ← unshare_look tree, Anchors.entries?]
  cases seen : g.look v with
  | aliasTo n => exact absurd seen (g.look_ne_alias v n)
  | list xs => rw [unshare_list]; rfl
  | object es => rw [unshare_object]; rfl
  | _ => rw [Anchors.unshare, Anchors.expand]; rfl

theorem isObject_unshare (tree : (g.unshare v).isTree = true) :
    h.isObject (g.unshare v) = g.isObject v := by
  rw [Anchors.isObject, entries?_unshare tree, Option.isSome_map, Anchors.isObject]

theorem bool?_unshare : (g.unshare v).bool? = v.bool? :=
  apply_expand fun
    | .scalar s => .inl ⟨s, rfl⟩
    | .set _ | .pair _ _ | .list _ | .object _ | .aliasTo _ => .inr rfl

theorem isNull_unshare : (g.unshare v).isNull = v.isNull :=
  apply_expand fun
    | .scalar s => .inl ⟨s, rfl⟩
    | .set _ | .pair _ _ | .list _ | .object _ | .aliasTo _ => .inr rfl

theorem isTrue_unshare : (g.unshare v).isTrue = v.isTrue :=
  apply_expand fun
    | .scalar s => .inl ⟨s, rfl⟩
    | .set _ | .pair _ _ | .list _ | .object _ | .aliasTo _ => .inr rfl

mutual

/-- A tree is written without its anchors. -/
theorem written_of_isTree (g h : Anchors) :
    (v : Value) → v.isTree = true → v.written g = v.written h
  | .scalar _, _ | .set [], _ | .set (_ :: _), _ => rfl
  | .pair a b, tree => by
      rw [Value.isTree, Bool.and_eq_true] at tree
      rw [Value.written, Value.written, written_of_isTree g h a tree.1,
        written_of_isTree g h b tree.2]
  | .list xs, tree => by
      rw [Value.written, Value.written, allWritten_of_areTrees g h xs tree]
  | .object es, tree => by
      rw [Value.written, Value.written, entriesWritten_of_haveTrees g h es tree]

theorem allWritten_of_areTrees (g h : Anchors) :
    (xs : List Value) → Value.areTrees xs = true → Value.allWritten g xs = Value.allWritten h xs
  | [], _ => rfl
  | x :: xs, trees => by
      rw [Value.areTrees, Bool.and_eq_true] at trees
      rw [Value.allWritten, Value.allWritten, written_of_isTree g h x trees.1,
        allWritten_of_areTrees g h xs trees.2]

theorem entriesWritten_of_haveTrees (g h : Anchors) : (es : List (Scalar × Value)) →
    Value.haveTrees es = true → Value.entriesWritten g es = Value.entriesWritten h es
  | [], _ => rfl
  | (k, v) :: es, trees => by
      rw [Value.haveTrees, Bool.and_eq_true] at trees
      rw [Value.entriesWritten, Value.entriesWritten, written_of_isTree g h v trees.1,
        entriesWritten_of_haveTrees g h es trees.2]

end

/-- A copy is shown as the data. -/
theorem shown_unshare (tree : (g.unshare v).isTree = true) :
    (g.unshare v).shown h = v.shown g := by
  unfold Value.shown
  rw [unshare_of_isTree tree]
  split
  · rfl
  · exact written_of_isTree h g _ tree

/-! ### Containers inside themselves -/

/-- Every alias inside the value stands for a container, and none of them is inside itself. -/
def Loopless (g : Anchors) (v : Value) : Prop :=
  ∀ n, ReflTransGen (Component g) v (.aliasTo n) →
    (∃ c, g.container? n = some c) ∧ ¬ TransGen (Component g) (.aliasTo n) (.aliasTo n)

theorem Loopless.component (loopless : Loopless g v) (component : Component g v u) :
    Loopless g u := fun n inside => loopless n (.head component inside)

/-- A stored container has the components of its alias. -/
theorem component_look : Component g (g.look v) u ↔ Component g v u := by
  unfold Component
  rw [partOf_look, g.look_look]

/-- Below containers that are not inside it, data without loops is copied to a tree. -/
theorem isTree_expand_of_loopless (loopless : Loopless g v)
    (clear : ∀ n ∈ seen, ¬ ReflTransGen (Component g) v (.aliasTo n)) :
    (g.expand seen v).isTree = true := by
  induction seen, v using expand_induct (g := g) with
  | scalar seen s => rw [Anchors.expand]; rfl
  | set seen xs => rw [Anchors.expand]; rfl
  | kept seen n stays =>
      obtain missing | mem := stays
      · obtain ⟨⟨c, found⟩, -⟩ := loopless n .refl
        cases missing.symm.trans found
      · exact absurd .refl (clear n mem)
  | entered seen n c found new ih =>
      have looked : g.look (.aliasTo n) = c.value := look_of_container? found
      -- A way from the container to an alias is one from its own alias, and has at least one step.
      have through {m : Nat} (way : ReflTransGen (Component g) c.value (.aliasTo m)) :
          TransGen (Component g) (.aliasTo n) (.aliasTo m) := by
        obtain same | ⟨u, first, rest⟩ := way.cases_head
        · exact absurd same (c.value_ne_alias m)
        · rw [← looked, component_look] at first
          exact .head' first rest
      rw [expand_alias found new]
      refine ih (fun m inside => loopless m (through inside).to_reflTransGen) fun m mem way => ?_
      obtain rfl | mem := List.mem_cons.1 mem
      · exact (loopless m .refl).2 (through way)
      · exact clear m mem (through way).to_reflTransGen
  | pair seen a b ih_a ih_b =>
      have left : Component g (.pair a b) a := .inr ⟨a, b, rfl, .inl rfl⟩
      have right : Component g (.pair a b) b := .inr ⟨a, b, rfl, .inr rfl⟩
      refine isTree_expand_pair.2 ⟨ih_a (loopless.component left) ?_,
        ih_b (loopless.component right) ?_⟩
      · exact fun n mem way => clear n mem (.head left way)
      · exact fun n mem way => clear n mem (.head right way)
  | list seen xs ih =>
      refine isTree_expand_list.2 fun x mem => ?_
      have part : Component g (.list xs) x := .inl (.inl ⟨xs, rfl, mem⟩)
      exact ih x mem (loopless.component part) fun n at_n way => clear n at_n (.head part way)
  | object seen es ih =>
      refine isTree_expand_object.2 fun e mem => ?_
      have part : Component g (.object es) e.2 := .inl (.inr ⟨es, e.1, rfl, mem⟩)
      exact ih e mem (loopless.component part) fun n at_n way => clear n at_n (.head part way)

/-- **The copy of data is a tree** exactly when no container in the data is inside itself. -/
theorem isTree_unshare_iff : (g.unshare v).isTree = true ↔ Loopless g v := by
  constructor
  · intro tree n inside
    have within {seen : List Nat} {v u : Value} (way : ReflTransGen (Component g) v u)
        (tree : (g.expand seen v).isTree = true) : (g.expand seen u).isTree = true := by
      induction way with
      | refl => exact tree
      | tail _ step ih => exact step.isTree_expand ih
    obtain ⟨-, c, found, same⟩ := entered_of_isTree (within inside tree)
    refine ⟨⟨c, found⟩, fun loop => ?_⟩
    -- The copy of the container keeps its own alias, which the loop leads back to.
    obtain ⟨u, first, rest⟩ := TransGen.head'_iff.1 loop
    have looked : g.look (.aliasTo n) = c.value := look_of_container? found
    rw [← component_look, looked] at first
    have inner : (g.expand [n] c.value).isTree = true := by
      rw [← same]
      exact within inside tree
    exact (entered_of_isTree (within rest (first.isTree_expand inner))).1 List.mem_cons_self
  · exact fun loopless => isTree_expand_of_loopless loopless (by simp)

end SchemaCodegen
