import Mathlib.Logic.Relation
import SchemaCodegen.Cycle.DepthFirst

/-!
# Invariants of a depth-first search

`search` reports what happens while a graph is searched, and an analysis of the graph is a
fold over that report.  This module has what every such fold shares: the invariant of the
search itself, and the induction that carries an invariant of the fold through a whole
search.

* `Walk` — of the search: the vertices on the path are entered, each vertex on the path
  leads to those above it, and an edge that is not pending any more leads to a vertex that
  has been entered.
* `Preserves` — an invariant of the fold is kept by each of the four steps of a search.
* `Preserves.run` — such an invariant holds at the end, when the path is empty and no
  vertex is fresh any more.

### Why the path is ordered by reachability

The links of the path are single edges, but no analysis uses them one at a time: an edge
from the top back to the path closes a cycle through everything between.  `Walk.linked`
therefore relates *any* two vertices of the path, which also makes it stable when the top
leaves.
-/

namespace SchemaCodegen

open Relation

variable {α σ : Type} {edges : α → List α}

/-- An edge of a graph that is given by the targets of each vertex. -/
def Edge (edges : α → List α) (a b : α) : Prop := b ∈ edges a

/-- A vertex leads to another one by any number of edges, none included. -/
abbrev Reaches (edges : α → List α) : α → α → Prop := ReflTransGen (Edge edges)

/-- A vertex leads back to itself by one or more edges. -/
def OnCycle (edges : α → List α) (a : α) : Prop := TransGen (Edge edges) a a

/-- A vertex that reaches another one and is reached by it lies on a cycle with it. -/
theorem onCycle_of_reaches {a b : α} (there : Reaches edges a b) (back : Reaches edges b a)
    (ne : a ≠ b) : OnCycle edges a := by
  rcases reflTransGen_iff_eq_or_transGen.1 there with same | there
  · exact absurd same.symm ne
  · exact there.trans_left back

/-- The vertices on the path of a search, the latest first. -/
def pathOf (stack : List (α × List α)) : List α := stack.map Prod.fst

@[simp] theorem pathOf_nil : pathOf ([] : List (α × List α)) = [] := rfl

@[simp] theorem pathOf_cons (frame : α × List α) (below : List (α × List α)) :
    pathOf (frame :: below) = frame.1 :: pathOf below := rfl

/-- A vertex on the path has a frame on the stack. -/
theorem mem_pathOf {a : α} {stack : List (α × List α)} :
    a ∈ pathOf stack ↔ ∃ frame ∈ stack, frame.1 = a := by
  simp [pathOf]

/-- **The invariant of a search**: what its stack says about the graph while the vertices
in `fresh` are not yet entered. -/
structure Walk (edges : α → List α) (fresh : List α) (stack : List (α × List α)) : Prop where
  /-- The vertices on the path are entered. -/
  entered : ∀ frame ∈ stack, frame.1 ∉ fresh
  /-- A vertex on the path leads to every vertex above it. -/
  linked : stack.Pairwise fun above below => TransGen (Edge edges) below.1 above.1
  /-- What is pending for a vertex are edges of it. -/
  pending : ∀ frame ∈ stack, ∀ b ∈ frame.2, b ∈ edges frame.1
  /-- What is not pending any more leads to an entered vertex. -/
  scanned : ∀ frame ∈ stack, ∀ b ∈ edges frame.1, b ∈ frame.2 ∨ b ∉ fresh

namespace Walk

variable {fresh : List α} {a b : α} {rest : List α} {below stack : List (α × List α)}

/-- Before the first root, and between two roots, nothing is on the path. -/
theorem start (edges : α → List α) (fresh : List α) : Walk edges fresh [] :=
  ⟨by simp, by simp, by simp, by simp⟩

/-- A vertex on the path below the top leads to the top. -/
theorem reaches_top (w : Walk edges fresh ((a, rest) :: below)) (h : b ∈ a :: pathOf below) :
    Reaches edges b a := by
  rcases List.mem_cons.1 h with rfl | h
  · exact .refl
  · obtain ⟨frame, mem, rfl⟩ := mem_pathOf.1 h
    exact ((List.pairwise_cons.1 w.linked).1 frame mem).to_reflTransGen

/-- A fresh vertex is entered that every vertex on the path leads to. -/
theorem enter (w : Walk edges fresh stack) (new : a ∉ fresh)
    (leads : ∀ frame ∈ stack, TransGen (Edge edges) frame.1 a) :
    Walk edges fresh ((a, edges a) :: stack) where
  entered := List.forall_mem_cons.2 ⟨new, w.entered⟩
  linked := List.pairwise_cons.2 ⟨leads, w.linked⟩
  pending := List.forall_mem_cons.2 ⟨fun _ h => h, w.pending⟩
  scanned := List.forall_mem_cons.2 ⟨fun _ h => .inl h, w.scanned⟩

/-- The first pending edge of the top is done with once its target is entered. -/
theorem pass {later : List α} (w : Walk edges fresh ((a, b :: rest) :: below))
    (fewer : ∀ c ∈ later, c ∈ fresh) (done : b ∉ later) :
    Walk edges later ((a, rest) :: below) where
  entered frame mem isFresh := by
    rcases List.mem_cons.1 mem with rfl | mem
    · exact w.entered (a, b :: rest) List.mem_cons_self (fewer _ isFresh)
    · exact w.entered frame (List.mem_cons_of_mem _ mem) (fewer _ isFresh)
  linked := List.pairwise_cons.2 (List.pairwise_cons.1 w.linked)
  pending frame mem c hc := by
    rcases List.mem_cons.1 mem with rfl | mem
    · exact w.pending (a, b :: rest) List.mem_cons_self c (List.mem_cons_of_mem _ hc)
    · exact w.pending frame (List.mem_cons_of_mem _ mem) c hc
  scanned frame mem c hc := by
    rcases List.mem_cons.1 mem with rfl | mem
    · rcases w.scanned (a, b :: rest) List.mem_cons_self c hc with isPending | old
      · rcases List.mem_cons.1 isPending with rfl | isPending
        · exact .inr done
        · exact .inl isPending
      · exact .inr fun isFresh => old (fewer _ isFresh)
    · exact (w.scanned frame (List.mem_cons_of_mem _ mem) c hc).imp_right
        fun old isFresh => old (fewer _ isFresh)

/-- The top is left. -/
theorem leave (w : Walk edges fresh ((a, rest) :: below)) : Walk edges fresh below where
  entered frame mem := w.entered frame (List.mem_cons_of_mem _ mem)
  linked := (List.pairwise_cons.1 w.linked).2
  pending frame mem := w.pending frame (List.mem_cons_of_mem _ mem)
  scanned frame mem := w.scanned frame (List.mem_cons_of_mem _ mem)

/-- All edges of a vertex that is being left lead to entered vertices. -/
theorem not_fresh_of_edge (w : Walk edges fresh ((a, []) :: below)) (h : b ∈ edges a) :
    b ∉ fresh :=
  (w.scanned (a, []) List.mem_cons_self b h).resolve_left List.not_mem_nil

/-- The first pending edge is an edge. -/
theorem edge (w : Walk edges fresh ((a, b :: rest) :: below)) : Edge edges a b :=
  w.pending (a, b :: rest) List.mem_cons_self b List.mem_cons_self

/-- Every vertex on the path leads to the target of a pending edge of the top. -/
theorem leads (w : Walk edges fresh ((a, b :: rest) :: below)) :
    ∀ frame ∈ (a, rest) :: below, TransGen (Edge edges) frame.1 b := by
  intro frame mem
  rcases List.mem_cons.1 mem with rfl | mem
  · exact .single w.edge
  · exact ((List.pairwise_cons.1 w.linked).1 frame mem).tail w.edge

end Walk

/-! ### Folds over a search -/

variable [DecidableEq α]

/-- **An invariant of a fold over the events of a search** is kept by each step: a root is
entered, the target of an edge is entered, an edge to an entered vertex is met, and a
vertex is left. -/
structure Preserves (edges : α → List α) (after : σ → SearchEvent α → σ)
    (holds : List α → List (α × List α) → σ → Prop) : Prop where
  root : ∀ {fresh a s}, a ∈ fresh → holds fresh [] s →
    holds (others a fresh) [(a, edges a)] (after s (.entered a))
  child : ∀ {fresh a b rest below s}, b ∈ fresh →
    Walk edges fresh ((a, b :: rest) :: below) → holds fresh ((a, b :: rest) :: below) s →
    holds (others b fresh) ((b, edges b) :: (a, rest) :: below) (after s (.entered b))
  met : ∀ {fresh a b rest below s}, b ∉ fresh →
    Walk edges fresh ((a, b :: rest) :: below) → holds fresh ((a, b :: rest) :: below) s →
    holds fresh ((a, rest) :: below) (after s (.met a (pathOf below) b))
  left : ∀ {fresh a below s}, Walk edges fresh ((a, []) :: below) →
    holds fresh ((a, []) :: below) s →
    holds fresh below (after s (.left a (pathOf below)))

/-- A vertex is not among the others. -/
theorem not_mem_others (a : α) (fresh : List α) : a ∉ others a fresh := by
  simp [mem_others]

/-- **An invariant of a fold holds after the search**, provided that every vertex that is
still fresh comes up as a root.  The induction is the recursion of `search` itself. -/
theorem Preserves.run {after : σ → SearchEvent α → σ}
    {holds : List α → List (α × List α) → σ → Prop} (p : Preserves edges after holds)
    {fresh roots : List α} {stack : List (α × List α)} {s : σ}
    (covered : ∀ a ∈ fresh, a ∈ roots) (w : Walk edges fresh stack) (h : holds fresh stack s) :
    holds [] [] ((search edges fresh roots stack).foldl after s) := by
  fun_induction search edges fresh roots stack generalizing s with
  | case1 fresh =>
      -- No root is left, so no vertex is fresh any more.
      have none_fresh : fresh = [] :=
        List.eq_nil_iff_forall_not_mem.2 fun a ha => List.not_mem_nil (covered a ha)
      simpa [none_fresh] using h
  | case2 fresh a roots new ih =>
      refine ih (fun b hb => ?_) ?_ (p.root new h)
      · obtain ⟨hb, ne⟩ := mem_others.1 hb
        exact (List.mem_cons.1 (covered b hb)).resolve_left ne
      · exact (Walk.start edges _).enter (not_mem_others a fresh) (by simp)
  | case3 fresh a roots old ih =>
      refine ih (fun b hb => ?_) w h
      rcases List.mem_cons.1 (covered b hb) with rfl | hb
      · exact absurd hb old
      · exact hb
  | case4 fresh roots a below ih =>
      exact ih covered w.leave (p.left w h)
  | case5 fresh roots a b rest below new ih =>
      -- The edge is done with and its target entered in one step.
      refine ih (fun c hc => covered c (mem_others.1 hc).1) ?_ (p.child new w h)
      exact (w.pass (fun c hc => (mem_others.1 hc).1) (not_mem_others b fresh)).enter
        (not_mem_others b fresh) w.leads
  | case6 fresh roots a b rest below old ih =>
      exact ih covered (w.pass (fun _ hc => hc) old) (p.met old w h)

end SchemaCodegen
