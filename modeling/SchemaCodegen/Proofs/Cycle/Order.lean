import Mathlib.Data.List.Nodup
import Mathlib.Data.List.Perm.Basic
import SchemaCodegen.Proofs.Cycle.Walk

/-!
# The order in which a search leaves its vertices

A search leaves a vertex when all its edges have been seen, so the order of leaving puts a
vertex behind the targets of its edges as far as that is possible.  For a search that
starts from all vertices of a graph:

* `leftOrder_perm` — every vertex is left exactly once;
* `leftOrder_before` — the target of an edge is left before its source, unless it leads
  back to the source;
* `leftOrder_of_pairwise` — when no edge leads to a later vertex, the order is the order of
  the vertices themselves.

### What is load-bearing

When a vertex `a` is left and `b` is the target of one of its edges, `b` has been entered:
either it has been left, hence before `a`, or it is still on the path.  In the second case
it leads to `a`, because the path is linked (`Walk.reaches_top`).  No fact about components
is needed, although the graph may have cycles.
-/

namespace SchemaCodegen

open Relation

variable {α : Type} {edges : α → List α} {vertices : List α}

/-- In a list without repetition, of two members only one comes before the other. -/
theorem not_before_of_before {a b : α} {xs : List α} (nodup : xs.Nodup)
    (forth : [a, b].Sublist xs) : ¬ [b, a].Sublist xs := by
  intro back
  induction xs with
  | nil => simp at forth
  | cons x xs ih =>
      obtain ⟨notMem, nodup⟩ := List.nodup_cons.1 nodup
      rcases List.cons_sublist_cons'.1 forth with ab | ⟨rfl, onlyB⟩
      · rcases List.cons_sublist_cons'.1 back with ba | ⟨rfl, -⟩
        · exact ih nodup ab ba
        · exact notMem (List.singleton_sublist.1 ((List.sublist_cons_self a _).trans ab))
      · rcases List.cons_sublist_cons'.1 back with ba | ⟨rfl, -⟩
        · exact notMem (List.singleton_sublist.1 ((List.sublist_cons_self b _).trans ba))
        · exact notMem (List.singleton_sublist.1 onlyB)

/-- In a list without repetition, what comes before a member stands in front of it. -/
theorem pair_sublist_iff {a b : α} {front back : List α} (nodup : (front ++ a :: back).Nodup) :
    [b, a].Sublist (front ++ a :: back) ↔ b ∈ front := by
  constructor
  · intro before
    obtain ⟨left, right, same, in_front, in_rest⟩ := List.sublist_append_iff.1 before
    cases left with
    | nil =>
        -- The pair would stand in `a :: back`, and `a` twice.
        exfalso
        have before' : [b, a].Sublist (a :: back) := by
          rw [same]
          exact in_rest
        refine (List.nodup_cons.1 nodup.of_append_right).1 ?_
        obtain later | ⟨-, later⟩ := List.cons_sublist_cons'.1 before'
        · exact later.subset (List.mem_cons_of_mem _ List.mem_cons_self)
        · exact List.singleton_sublist.1 later
    | cons first left =>
        obtain ⟨rfl, -⟩ := List.cons_eq_cons.1 same
        exact in_front.subset List.mem_cons_self
  · intro mem
    exact (List.singleton_sublist.2 mem).append (List.singleton_sublist.2 List.mem_cons_self)

/-- What the order of leaving gains by an event. -/
def recordLeft (order : List α) : SearchEvent α → List α
  | .left a _ => order ++ [a]
  | _ => order

/-- The order of leaving is a fold over the events. -/
theorem foldl_recordLeft (events : List (SearchEvent α)) (order : List α) :
    events.foldl recordLeft order = order ++ leftOrder events := by
  induction events generalizing order with
  | nil => simp [leftOrder]
  | cons event events ih =>
      rw [List.foldl_cons, ih]
      cases event with
      | left a below => simp [recordLeft, leftOrder]
      | _ => rfl

/-- **The invariant of the order of leaving**: each vertex is left, on the path or fresh,
and a vertex that is left comes behind the targets of its edges that do not lead back. -/
structure LeavesInOrder (edges : α → List α) (vertices fresh : List α)
    (stack : List (α × List α)) (order : List α) : Prop where
  perm : (order ++ (pathOf stack ++ fresh)).Perm vertices
  before : ∀ a ∈ order, ∀ b ∈ edges a, [b, a].Sublist order ∨ Reaches edges b a

/-- A fresh vertex and the others are the fresh vertices. -/
theorem cons_others_perm [DecidableEq α] {a : α} {fresh : List α} (nodup : fresh.Nodup) (mem : a ∈ fresh) :
    (a :: others a fresh).Perm fresh := by
  have same : others a fresh = fresh.erase a := by
    rw [nodup.erase_eq_filter]
    unfold others
    refine List.filter_congr fun b _ => ?_
    by_cases h : b = a <;> simp [h]
  rw [same]
  exact (List.perm_cons_erase mem).symm

section

variable {fresh : List α} {a b : α} {rest : List α} {below stack : List (α × List α)}
  {order : List α}

/-- A fresh vertex occurs once among the fresh ones. -/
theorem LeavesInOrder.nodup_fresh (nodup : vertices.Nodup)
    (h : LeavesInOrder edges vertices fresh stack order) : fresh.Nodup := by
  have all := h.perm.nodup_iff.2 nodup
  exact (List.nodup_append.1 (List.nodup_append.1 all).2.1).2.1

/-- Entering a vertex moves it from the fresh vertices to the path. -/
theorem LeavesInOrder.enter [DecidableEq α] (nodup : vertices.Nodup) (new : a ∈ fresh)
    {later : List (α × List α)} (path : pathOf later = a :: pathOf stack)
    (h : LeavesInOrder edges vertices fresh stack order) :
    LeavesInOrder edges vertices (others a fresh) later order where
  perm := by
    have moved : (pathOf later ++ others a fresh).Perm (pathOf stack ++ fresh) := by
      rw [path]
      exact List.perm_middle.symm.trans
        (List.Perm.append_left _ (cons_others_perm (h.nodup_fresh nodup) new))
    exact (moved.append_left order).trans h.perm
  before := h.before

/-- Leaving a vertex puts it behind all targets of its edges that do not lead back. -/
theorem LeavesInOrder.leave (closed : ∀ a, ∀ b ∈ edges a, b ∈ vertices)
    (w : Walk edges fresh ((a, []) :: below))
    (h : LeavesInOrder edges vertices fresh ((a, []) :: below) order) :
    LeavesInOrder edges vertices fresh below (order ++ [a]) where
  perm := by simpa using h.perm
  before := by
    intro c hc b hb
    rcases List.mem_append.1 hc with hc | hc
    · exact (h.before c hc b hb).imp_left fun before => before.trans (List.sublist_append_left _ _)
    · obtain rfl := List.mem_singleton.1 hc
      -- The target is left, on the path or fresh: the path leads back, and fresh it is not.
      have known := h.perm.mem_iff.2 (closed c b hb)
      rcases List.mem_append.1 known with left | onPath
      · exact .inl (List.Sublist.append (List.singleton_sublist.2 left) (List.Sublist.refl [c]))
      · rcases List.mem_append.1 onPath with onPath | isFresh
        · exact .inr (w.reaches_top onPath)
        · exact absurd isFresh (w.not_fresh_of_edge hb)

end

variable [DecidableEq α]

/-- The four steps of a search keep the order of leaving. -/
theorem preserves_leavesInOrder (nodup : vertices.Nodup)
    (closed : ∀ a, ∀ b ∈ edges a, b ∈ vertices) :
    Preserves edges recordLeft (LeavesInOrder edges vertices) where
  root new h := h.enter nodup new rfl
  child new _ h := LeavesInOrder.enter nodup new rfl ⟨h.perm, h.before⟩
  met _ _ h := ⟨h.perm, h.before⟩
  left w h := h.leave closed w

/-- What a search from all vertices leaves, in order. -/
theorem leavesInOrder_leftOrder (nodup : vertices.Nodup)
    (closed : ∀ a, ∀ b ∈ edges a, b ∈ vertices) :
    LeavesInOrder edges vertices [] [] (leftOrder (search edges vertices vertices [])) := by
  have start : LeavesInOrder edges vertices vertices [] [] := ⟨by simp, by simp⟩
  have finish := (preserves_leavesInOrder nodup closed).run (fun _ h => h)
    (Walk.start edges vertices) start
  rwa [foldl_recordLeft, List.nil_append] at finish

/-- Every vertex is left exactly once. -/
theorem leftOrder_perm (nodup : vertices.Nodup)
    (closed : ∀ a, ∀ b ∈ edges a, b ∈ vertices) :
    (leftOrder (search edges vertices vertices [])).Perm vertices := by
  simpa using (leavesInOrder_leftOrder nodup closed).perm

/-- The target of an edge is left before its source, unless it leads back to it. -/
theorem leftOrder_before (nodup : vertices.Nodup)
    (closed : ∀ a, ∀ b ∈ edges a, b ∈ vertices) {a b : α} (mem : a ∈ vertices)
    (edge : Edge edges a b) (one_way : ¬ Reaches edges b a) :
    [b, a].Sublist (leftOrder (search edges vertices vertices [])) := by
  have left := (leftOrder_perm nodup closed).mem_iff.2 mem
  exact ((leavesInOrder_leftOrder nodup closed).before a left b edge).resolve_right one_way

/-! ### Vertices that stand in order already -/

/-- A vertex whose edges all lead to entered vertices is left next. -/
theorem leftOrder_search_top {fresh roots : List α} {a : α} {rest : List α}
    {below : List (α × List α)} (old : ∀ b ∈ rest, b ∉ fresh) :
    leftOrder (search edges fresh roots ((a, rest) :: below))
      = a :: leftOrder (search edges fresh roots below) := by
  induction rest with
  | nil =>
      rw [search]
      rfl
  | cons b rest ih =>
      rw [search, dif_neg (old b List.mem_cons_self)]
      exact ih fun c hc => old c (List.mem_cons_of_mem _ hc)

/-- When no edge leads to a later vertex, the vertices are left as they stand. -/
theorem leftOrder_of_pairwise (nodup : vertices.Nodup)
    (backward : vertices.Pairwise fun a later => later ∉ edges a) :
    leftOrder (search edges vertices vertices []) = vertices := by
  induction vertices with
  | nil =>
      rw [search]
      rfl
  | cons a later ih =>
      obtain ⟨notMem, nodup⟩ := List.nodup_cons.1 nodup
      obtain ⟨none_later, backward⟩ := List.pairwise_cons.1 backward
      have others_eq : others a (a :: later) = later := by
        unfold others
        rw [List.filter_cons_of_neg (by simp)]
        exact List.filter_eq_self.2 fun b hb => by
          simpa using fun same : b = a => notMem (same ▸ hb)
      rw [search, dif_pos List.mem_cons_self, others_eq]
      calc leftOrder (.entered a :: search edges later later [(a, edges a)])
          = leftOrder (search edges later later [(a, edges a)]) := rfl
        _ = a :: leftOrder (search edges later later []) :=
          leftOrder_search_top fun b hb isLater => none_later b isLater hb
        _ = a :: later := by rw [ih nodup backward]

end SchemaCodegen
