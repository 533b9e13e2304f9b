import SchemaCodegen.Reference.Occurrences

/-!
# Depth-first search

The search goes through a finite graph from a list of roots and tells what happens: a
vertex is **entered** once, when it is met for the first time; from then on it is on the
path, until all its edges have been seen and it is **left**.  An edge to a vertex that was
entered before is **met**.  The last two events hold the path at that moment: the vertex
whose edges are being seen, and the vertices below it.

The analyses of a dictionary are readings of this one list of events.

### Why it ends

The vertices not yet entered are carried along; entering leaves fewer, and otherwise the
edges and roots still to be seen get fewer.
-/

namespace SchemaCodegen

/-- What happens in a depth-first search.  A path lists the vertices that are entered and
not yet left, the latest first. -/
inductive SearchEvent (α : Type) where
  | entered (vertex : α)
  | met (vertex : α) (below : List α) (target : α)
  | left (vertex : α) (below : List α)
deriving Repr

variable {α : Type} [DecidableEq α]

/-- The vertices other than one. -/
def others (a : α) (fresh : List α) : List α := fresh.filter (· ≠ a)

theorem mem_others {a b : α} {fresh : List α} : b ∈ others a fresh ↔ b ∈ fresh ∧ b ≠ a := by
  simp [others]

theorem length_others_lt {a : α} {fresh : List α} (h : a ∈ fresh) :
    (others a fresh).length < fresh.length := by
  unfold others
  exact List.length_filter_lt_length_iff_exists.2 ⟨a, h, by simp⟩

/-- The edges and roots that are still to be seen. -/
def pending (roots : List α) (stack : List (α × List α)) : Nat :=
  roots.length + (stack.map fun frame => frame.2.length + 1).foldr (· + ·) 0

/-- The events of a search.  The stack holds the path, each vertex with its edges that are
still to be seen. -/
def search (edges : α → List α) (fresh roots : List α) (stack : List (α × List α)) :
    List (SearchEvent α) :=
  match stack with
  | [] =>
    match roots with
    | [] => []
    | a :: roots =>
      if _new : a ∈ fresh then
        .entered a :: search edges (others a fresh) roots [(a, edges a)]
      else search edges fresh roots []
  | (a, []) :: below => .left a (below.map (·.1)) :: search edges fresh roots below
  | (a, b :: rest) :: below =>
    if _new : b ∈ fresh then
      .entered b :: search edges (others b fresh) roots ((b, edges b) :: (a, rest) :: below)
    else .met a (below.map (·.1)) b :: search edges fresh roots ((a, rest) :: below)
termination_by (fresh.length, pending roots stack)
decreasing_by
  · exact Prod.Lex.left _ _ (length_others_lt _new)
  · apply Prod.Lex.right
    simp [pending]
  · apply Prod.Lex.right
    simp [pending]
  · exact Prod.Lex.left _ _ (length_others_lt _new)
  · apply Prod.Lex.right
    simp [pending]

/-- The vertices that a search leaves, in the order in which it leaves them. -/
def leftOrder (events : List (SearchEvent α)) : List α :=
  events.filterMap fun
    | .left a _ => some a
    | _ => none

end SchemaCodegen
