import Mathlib
import SchemaCodegen.Proofs.Cycle.Graph
import SchemaCodegen.Proofs.Cycle.Order

/-!
# The order of emission

`emissionOrder` puts the names of a dictionary into the order in which a depth-first search
leaves them, with the edges of each schema taken in document order.  What the order
promises is what the order of leaving promises, read on the graph of the dictionary
(`RefersTo`): each name once, each behind the names it refers to unless those lead back to
it, and no change where there is nothing to change.

The graph may have cycles anywhere; the promise about two names depends only on whether
*they* lie on a common one.
-/

namespace SchemaCodegen

open Relation

variable {g : Anchors} {d : Entries}

/-- The edges that the order of emission is searched with. -/
def orderedEdges (g : Anchors) (d : Entries) (name : Scalar) : List Scalar :=
  (Entries.keys d).filter (· ∈ edgesFrom (dependencyTable g d) name)

theorem emissionOrder_eq (g : Anchors) (d : Entries) :
    emissionOrder g d
      = leftOrder (search (orderedEdges g d) (Entries.keys d) (Entries.keys d) []) := rfl

theorem edge_orderedEdges (g : Anchors) (d : Entries) :
    Edge (orderedEdges g d) = RefersTo g d := edge_inOrder g d

/-- The edges lead to names of the dictionary. -/
theorem mem_keys_of_mem_orderedEdges {a b : Scalar} (h : b ∈ orderedEdges g d a) :
    b ∈ Entries.keys d := (List.mem_filter.1 h).1

/-- Every name is emitted exactly once. -/
theorem emissionOrder_perm (nodup : (Entries.keys d).Nodup) :
    (emissionOrder g d).Perm (Entries.keys d) := by
  rw [emissionOrder_eq]
  exact leftOrder_perm nodup fun _ _ => mem_keys_of_mem_orderedEdges

/-- A name is emitted behind the names it refers to, unless they lead back to it. -/
theorem emissionOrder_before (nodup : (Entries.keys d).Nodup) {a b : Scalar}
    (refers : RefersTo g d a b) (one_way : ¬ ReflTransGen (RefersTo g d) b a) :
    [b, a].Sublist (emissionOrder g d) := by
  rw [← edge_orderedEdges] at one_way
  have edge : Edge (orderedEdges g d) a b := by
    rw [edge_orderedEdges]
    exact refers
  rw [emissionOrder_eq]
  exact leftOrder_before nodup (fun _ _ => mem_keys_of_mem_orderedEdges)
    refers.source_mem_keys edge one_way

/-- Names that are declared behind all others they refer to are emitted as declared. -/
theorem emissionOrder_of_declared (nodup : (Entries.keys d).Nodup)
    (declared : ∀ a b, RefersTo g d a b → b ≠ a → [b, a].Sublist (Entries.keys d)) :
    emissionOrder g d = Entries.keys d := by
  rw [emissionOrder_eq]
  refine leftOrder_of_pairwise nodup (List.pairwise_iff_forall_sublist.2 ?_)
  intro a later before mem
  have refers : RefersTo g d a later := by
    rw [← edge_orderedEdges]
    exact mem
  have ne : later ≠ a := by
    rintro rfl
    exact not_before_of_before nodup before before
  exact not_before_of_before nodup before (declared a later refers ne)

/-- **The order of emission.**  It is a permutation of the names; a name comes behind each
name it refers to that does not lead back to it; and a dictionary in which every name is
declared behind the others it refers to keeps its order. -/
theorem emissionOrder_spec (g : Anchors) (d : Entries) (nodup : (Entries.keys d).Nodup) :
    (emissionOrder g d).Perm (Entries.keys d)
      ∧ (∀ a b, RefersTo g d a b → ¬ ReflTransGen (RefersTo g d) b a →
          [b, a].Sublist (emissionOrder g d))
      ∧ ((∀ a b, RefersTo g d a b → b ≠ a → [b, a].Sublist (Entries.keys d)) →
          emissionOrder g d = Entries.keys d) :=
  ⟨emissionOrder_perm nodup, fun _ _ => emissionOrder_before nodup,
    emissionOrder_of_declared nodup⟩

/-- A schema that refers to the named ones, each by a property of that name. -/
def schemaReferringTo (names : List String) : Value :=
  .record [("properties", .record (names.map fun name =>
    (name, .record [("$ref", .string (SchemaRoot.components.reference name))])))]

/-- Orders and items refer to each other, and orders also to customers. -/
def shopSchemas : Entries :=
  [(.string "Order", schemaReferringTo ["Item", "Customer"]),
   (.string "Item", schemaReferringTo ["Order"]),
   (.string "Customer", schemaReferringTo [])]

/-- Within the cycle the first name in document order comes last. -/
theorem emissionOrder_shopSchemas :
    (Entries.keys shopSchemas).Nodup
      ∧ emissionOrder {} shopSchemas = [.string "Item", .string "Customer", .string "Order"]
      ∧ (emissionOrder {} shopSchemas).Perm (Entries.keys shopSchemas)
      ∧ (∀ a b, RefersTo {} shopSchemas a b → ¬ ReflTransGen (RefersTo {} shopSchemas) b a →
          [b, a].Sublist (emissionOrder {} shopSchemas))
      ∧ ((∀ a b, RefersTo {} shopSchemas a b → b ≠ a →
          [b, a].Sublist (Entries.keys shopSchemas)) →
          emissionOrder {} shopSchemas = Entries.keys shopSchemas) := by
  have nodup : (Entries.keys shopSchemas).Nodup := by decide
  exact ⟨nodup, by cbv, emissionOrder_spec {} shopSchemas nodup⟩

end SchemaCodegen
