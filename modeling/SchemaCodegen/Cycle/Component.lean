import SchemaCodegen.Cycle.DepthFirst

/-!
# Components

A second reading of a depth-first search: which vertices take part in a cycle.  Two rules
mark them.

* An edge that leads back to the path marks the whole path.
* The search keeps the **open** vertices, those whose strongly connected component is not
  known yet, with two numbers each: the `index` in the order of entering, and `low`, the
  least index of an open vertex found so far by way of the vertices entered since.  A
  vertex that is left with both numbers equal closes its component, which is all that is
  open from it on; a component of several vertices is marked.

The first rule alone would miss a vertex whose only way into a cycle leads through a vertex
that has been left already.
-/

namespace SchemaCodegen

variable {α : Type} [DecidableEq α]

/-- A numbering with the number of one vertex changed. -/
def renumber (number : α → Nat) (a : α) (n : Nat) : α → Nat :=
  fun b => if b = a then n else number b

@[simp] theorem renumber_self (number : α → Nat) (a : α) (n : Nat) :
    renumber number a n a = n := by
  simp [renumber]

theorem renumber_of_ne {number : α → Nat} {a b : α} {n : Nat} (h : b ≠ a) :
    renumber number a n b = number b := by
  simp [renumber, h]

/-- A list cut behind a vertex: the part up to it, and the rest. -/
def cutBehind (a : α) : List α → List α × List α
  | [] => ([], [])
  | b :: rest =>
    if b = a then ([b], rest) else (b :: (cutBehind a rest).1, (cutBehind a rest).2)

/-- What is known of the components of a graph in the middle of a search.  The latest of
the open vertices comes first. -/
structure Components (α : Type) where
  entered : Nat := 0
  index : α → Nat := fun _ => 0
  low : α → Nat := fun _ => 0
  opened : List α := []
  marked : List α := []

namespace Components

/-- A vertex that is entered is open, and its own low. -/
def enter (c : Components α) (a : α) : Components α where
  entered := c.entered + 1
  index := renumber c.index a c.entered
  low := renumber c.low a c.entered
  opened := a :: c.opened
  marked := c.marked

/-- What is known with the low of a vertex not above a number. -/
def lower (c : Components α) (a : α) (n : Nat) : Components α :=
  { c with low := renumber c.low a (min (c.low a) n) }

/-- What is known with more vertices marked. -/
def mark (c : Components α) (vertices : List α) : Components α :=
  { c with marked := vertices ++ c.marked }

/-- An edge from the top of a path that leads back to it marks the path. -/
def markPath (c : Components α) (a : α) (below : List α) (b : α) : Components α :=
  if b ∈ a :: below then c.mark (a :: below) else c

/-- An edge to an open vertex may lower the vertex it comes from. -/
def lowerTo (c : Components α) (a b : α) : Components α :=
  if b ∈ c.opened then c.lower a (c.index b) else c

/-- An edge to an entered vertex may lead back to the path, and to an open vertex. -/
def meet (c : Components α) (a : α) (below : List α) (b : α) : Components α :=
  (c.markPath a below b).lowerTo a b

/-- The component of a vertex closed, and marked if it has several vertices. -/
def close (c : Components α) (a : α) : Components α :=
  let cut := cutBehind a c.opened
  let c := { c with opened := cut.2 }
  if 1 < cut.1.length then c.mark cut.1 else c

/-- The vertex below one on the path takes over its low. -/
def inherit (c : Components α) (a : α) : (below : List α) → Components α
  | [] => c
  | parent :: _ => c.lower parent (c.low a)

/-- A vertex that is left passes its low on, and closes its component if no open vertex was
found with an index below its own. -/
def leave (c : Components α) (a : α) (below : List α) : Components α :=
  let c := c.inherit a below
  if c.low a = c.index a then c.close a else c

/-- What is known after an event. -/
def after (c : Components α) : SearchEvent α → Components α
  | .entered a => c.enter a
  | .met a below b => c.meet a below b
  | .left a below => c.leave a below

end Components

/-- The vertices that a search marks as taking part in a cycle. -/
def markedVertices (events : List (SearchEvent α)) : List α :=
  (events.foldl Components.after {}).marked

end SchemaCodegen
