import SchemaCodegen.Proofs.Cycle.Opened

/-!
# The vertices that a search marks

`Components` marks vertices of a graph while a depth-first search goes through it.  What the
marks mean at the end, for a graph with its vertices and edges in any order:

* `mem_markedVertices_of_onCycle` — every vertex on a cycle is marked;
* `exists_onCycle_of_mem_markedVertices` — every marked vertex leads to one on a cycle.

Two searches of one graph may mark different vertices, but only among those that are on no
cycle themselves.

### How a cycle is caught

`Marked` carries both directions through the search.  A vertex on a cycle is marked at the
latest when its component is closed: the closed vertices have no edge to any other
(`Opened.closed`), so a cycle through the component stays inside it; a component of several
vertices is marked as such, and in a component of one vertex the cycle is an edge to itself,
which led back to the path when it was seen.  Conversely a marked path leads to its top,
which lies on the cycle just found, and the vertices of a component of several lead to each
other (`Opened.onCycle_of_closing`).
-/

namespace SchemaCodegen

open Relation

variable {α : Type} {edges : α → List α} {vertices fresh : List α} {c : Components α} {a b : α}
  {rest : List α} {below stack : List (α × List α)}

/-- **The invariant of the marks** of a search. -/
structure Marked (edges : α → List α) (vertices fresh : List α) (stack : List (α × List α))
    (c : Components α) : Prop where
  /-- A vertex with an edge to itself is marked as soon as that edge has been seen. -/
  loop : ∀ a ∈ vertices, a ∉ fresh → a ∈ edges a →
    a ∈ c.marked ∨ ∃ frame ∈ stack, frame.1 = a ∧ a ∈ frame.2
  /-- A closed vertex on a cycle is marked. -/
  cycle : ∀ a ∈ vertices, a ∉ fresh → a ∉ c.opened → OnCycle edges a → a ∈ c.marked
  /-- A marked vertex leads to one on a cycle. -/
  leads : ∀ a ∈ c.marked, ∃ b, Reaches edges a b ∧ OnCycle edges b

/-! ### Closed vertices and components -/

namespace Opened

/-- What a closed vertex leads to is closed. -/
theorem closed_of_reaches (h : Opened edges vertices fresh stack c)
    (inside : ∀ a, ∀ b ∈ edges a, b ∈ vertices) (memA : a ∈ vertices) (old : a ∉ fresh)
    (notOpen : a ∉ c.opened) (reaches : Reaches edges a b) :
    b ∈ vertices ∧ b ∉ fresh ∧ b ∉ c.opened := by
  induction reaches with
  | refl => exact ⟨memA, old, notOpen⟩
  | tail _ edge ih =>
      obtain ⟨memB, oldB, notOpenB⟩ := ih
      exact ⟨inside _ _ edge, h.closed _ memB oldB notOpenB _ edge⟩

/-- An open vertex from the top on leads to the top. -/
theorem reaches_top (h : Opened edges vertices fresh ((a, rest) :: below) c)
    (w : Walk edges fresh ((a, rest) :: below)) (hb : b ∈ c.opened) : Reaches edges b a := by
  obtain ⟨u, hu, -, toU⟩ := h.up b hb
  exact toU.trans (w.reaches_top hu)

variable [DecidableEq α]

/-- A component of one vertex is that vertex. -/
theorem eq_of_alone {opened : List α} (at_a : a ∈ opened)
    (alone : ¬ 1 < (cutBehind a opened).1.length) (mem : b ∈ (cutBehind a opened).1) : b = a := by
  obtain ⟨above, fst_eq, -⟩ := cutBehind_fst at_a
  have none_above : above = [] := by
    rw [fst_eq, List.length_append, List.length_singleton] at alone
    exact List.length_eq_zero_iff.1 (by omega)
  rw [fst_eq, none_above] at mem
  exact List.mem_singleton.1 mem

/-- Among several open vertices from the top on, each lies on a cycle. -/
theorem onCycle_of_closing (h : Opened edges vertices fresh ((a, rest) :: below) c)
    (w : Walk edges fresh ((a, rest) :: below)) (several : 1 < (cutBehind a c.opened).1.length)
    (hb : b ∈ (cutBehind a c.opened).1) : OnCycle edges b := by
  have onTop : a ∈ pathOf ((a, rest) :: below) := List.mem_cons_self
  have opened_a : a ∈ c.opened := h.path_opened a onTop
  have members {x : α} : x ∈ (cutBehind a c.opened).1 ↔ x ∈ c.opened ∧ c.index a ≤ c.index x :=
    h.descending.mem_cutBehind_fst opened_a
  have there {x : α} (hx : x ∈ (cutBehind a c.opened).1) : Reaches edges a x :=
    h.down a onTop x (members.1 hx).1 (members.1 hx).2
  have back {x : α} (hx : x ∈ (cutBehind a c.opened).1) : Reaches edges x a :=
    h.reaches_top w (members.1 hx).1
  obtain ⟨above, fst_eq, notMem⟩ := cutBehind_fst opened_a
  -- A second vertex of the component, to go round by: the way from `a` to `a` itself is empty.
  obtain ⟨e, he⟩ : ∃ e, e ∈ above := by
    refine List.exists_mem_of_ne_nil above fun none_above => ?_
    rw [fst_eq, none_above] at several
    exact Nat.lt_irrefl _ several
  have memE : e ∈ (cutBehind a c.opened).1 := fst_eq ▸ List.mem_append_left _ he
  have ne : e ≠ a := fun same => notMem (same ▸ he)
  by_cases same : b = a
  · subst same
    exact onCycle_of_reaches (there memE) (back memE) ne.symm
  · exact onCycle_of_reaches (back hb) (there hb) same

/-- A vertex that closes a component of one vertex and lies on a cycle has an edge to
itself. -/
theorem loop_of_closing (h : Opened edges vertices fresh ((a, []) :: below) c)
    (w : Walk edges fresh ((a, []) :: below)) (inside : ∀ a, ∀ b ∈ edges a, b ∈ vertices)
    (least : c.low a = c.index a) (alone : ¬ 1 < (cutBehind a c.opened).1.length)
    (onCycle : OnCycle edges a) : a ∈ edges a := by
  have opened_a : a ∈ c.opened := h.path_opened a List.mem_cons_self
  -- The next vertex on the cycle is open, since nothing closed leads back to `a`.
  obtain ⟨y, edge, back⟩ := TransGen.head'_iff.1 onCycle
  have isOpen : y ∈ c.opened := by
    by_contra notOpen
    exact (h.closed_of_reaches inside (inside a y edge) (w.not_fresh_of_edge edge) notOpen
      back).2.2 opened_a
  have bounded : c.index a ≤ c.index y := least ▸ h.low_le_of_edge opened_a (Nat.le_refl _) edge isOpen
  have member : y ∈ (cutBehind a c.opened).1 :=
    (h.descending.mem_cutBehind_fst opened_a).2 ⟨isOpen, bounded⟩
  exact eq_of_alone opened_a alone member ▸ edge

end Opened

/-! ### Steps -/

namespace Marked

/-- Before the first root nothing is marked. -/
theorem start (edges : α → List α) (vertices : List α) :
    Marked edges vertices vertices [] ({} : Components α) :=
  ⟨fun _ mem old => absurd mem old, fun _ mem old => absurd mem old, by simp⟩

/-- A pending edge is done with, and if it leads to its own source, that is marked. -/
theorem pass (h : Marked edges vertices fresh ((a, b :: rest) :: below) c)
    (caught : b = a → a ∈ c.marked) :
    Marked edges vertices fresh ((a, rest) :: below) c where
  loop := by
    intro v hv old isLoop
    rcases h.loop v hv old isLoop with marked | ⟨frame, mem, same, isPending⟩
    · exact .inl marked
    · rcases List.mem_cons.1 mem with rfl | mem
      · rcases List.mem_cons.1 isPending with first | isPending
        · have same : a = v := same
          exact .inl (same ▸ caught (first ▸ same.symm))
        · exact .inr ⟨(a, rest), List.mem_cons_self, same, isPending⟩
      · exact .inr ⟨frame, List.mem_cons_of_mem _ mem, same, isPending⟩
  cycle := h.cycle
  leads := h.leads

/-- More vertices are marked that lead to a cycle. -/
theorem mark (h : Marked edges vertices fresh stack c) {more : List α}
    (sound : ∀ a ∈ more, ∃ b, Reaches edges a b ∧ OnCycle edges b) :
    Marked edges vertices fresh stack (c.mark more) where
  loop v hv old isLoop := (h.loop v hv old isLoop).imp_left (List.mem_append_right _)
  cycle v hv old closed onCycle := List.mem_append_right _ (h.cycle v hv old closed onCycle)
  leads v hv := (List.mem_append.1 hv).elim (sound v) (h.leads v)

/-- A vertex that has no edge pending is left and stays open. -/
theorem keep (h : Marked edges vertices fresh ((a, []) :: below) c) :
    Marked edges vertices fresh below c where
  loop := by
    intro v hv old isLoop
    refine (h.loop v hv old isLoop).imp_right ?_
    rintro ⟨frame, mem, same, isPending⟩
    rcases List.mem_cons.1 mem with rfl | mem
    · exact absurd isPending List.not_mem_nil
    · exact ⟨frame, mem, same, isPending⟩
  cycle := h.cycle
  leads := h.leads

variable [DecidableEq α]

/-- **A fresh vertex is entered.** -/
theorem enter (h : Marked edges vertices fresh stack c) :
    Marked edges vertices (others a fresh) ((a, edges a) :: stack) (c.enter a) where
  loop := by
    intro v hv old isLoop
    by_cases same : v = a
    · subst same
      exact .inr ⟨(v, edges v), List.mem_cons_self, rfl, isLoop⟩
    · have old : v ∉ fresh := fun isFresh => old (mem_others.2 ⟨isFresh, same⟩)
      refine (h.loop v hv old isLoop).imp_right ?_
      rintro ⟨frame, mem, at_v, isPending⟩
      exact ⟨frame, List.mem_cons_of_mem _ mem, at_v, isPending⟩
  cycle := by
    intro v hv old notOpen
    obtain ⟨ne, notOpen⟩ := List.ne_and_not_mem_of_not_mem_cons notOpen
    exact h.cycle v hv (fun isFresh => old (mem_others.2 ⟨isFresh, ne⟩)) notOpen
  leads := h.leads

/-- Lowering a vertex marks none. -/
theorem lower (h : Marked edges vertices fresh stack c) (a : α) (n : Nat) :
    Marked edges vertices fresh stack (c.lower a n) :=
  ⟨h.loop, h.cycle, h.leads⟩

/-- **An edge to an entered vertex is met.** -/
theorem meet (h : Marked edges vertices fresh ((a, b :: rest) :: below) c)
    (w : Walk edges fresh ((a, b :: rest) :: below)) :
    Marked edges vertices fresh ((a, rest) :: below) (c.meet a (pathOf below) b) := by
  have caught : Marked edges vertices fresh ((a, rest) :: below)
      (c.markPath a (pathOf below) b) := by
    unfold Components.markPath
    split
    · next onPath =>
        -- The edge to the path and the path back to the top make a cycle through the top.
        have onCycle : OnCycle edges a := (TransGen.single w.edge).trans_left (w.reaches_top onPath)
        refine (h.mark fun v hv => ⟨a, w.reaches_top hv, onCycle⟩).pass fun _ => ?_
        exact List.mem_append_left _ List.mem_cons_self
    · next offPath => exact h.pass fun same => absurd (same ▸ List.mem_cons_self) offPath
  rw [Components.meet, Components.lowerTo]
  split
  · exact caught.lower _ _
  · exact caught

/-- A vertex is left and closes its component. -/
theorem close (h : Marked edges vertices fresh ((a, []) :: below) c)
    (o : Opened edges vertices fresh ((a, []) :: below) c)
    (w : Walk edges fresh ((a, []) :: below)) (inside : ∀ a, ∀ b ∈ edges a, b ∈ vertices)
    (least : c.low a = c.index a) : Marked edges vertices fresh below (c.close a) := by
  have kept : Marked edges vertices fresh below c := h.keep
  have opened_a : a ∈ c.opened := o.path_opened a List.mem_cons_self
  have closing {v : α} (isOpen : v ∈ c.opened) (gone : v ∉ (cutBehind a c.opened).2) :
      v ∈ (cutBehind a c.opened).1 := by
    rw [← cutBehind_append a c.opened] at isOpen
    exact (List.mem_append.1 isOpen).resolve_right gone
  simp only [Components.close]
  split
  · next several =>
      refine ⟨fun v hv old isLoop => ?_, fun v hv old gone onCycle => ?_, fun v hv => ?_⟩
      · exact (kept.loop v hv old isLoop).imp_left (List.mem_append_right _)
      · by_cases isOpen : v ∈ c.opened
        · exact List.mem_append_left _ (closing isOpen gone)
        · exact List.mem_append_right _ (kept.cycle v hv old isOpen onCycle)
      · rcases List.mem_append.1 hv with hv | hv
        · exact ⟨v, .refl, o.onCycle_of_closing w several hv⟩
        · exact kept.leads v hv
  · next alone =>
      refine ⟨kept.loop, fun v hv old gone onCycle => ?_, kept.leads⟩
      by_cases isOpen : v ∈ c.opened
      · have same : v = a := Opened.eq_of_alone opened_a alone (closing isOpen gone)
        have isLoop := o.loop_of_closing w inside least alone (same ▸ onCycle)
        -- No frame below is of `a`, so the edge of `a` to itself was seen before.
        rcases kept.loop a (o.entered a opened_a).1 (o.entered a opened_a).2 isLoop with
          marked | ⟨frame, mem, at_a, -⟩
        · exact same ▸ marked
        · have less := o.index_lt_top (mem_pathOf.2 ⟨frame, mem, at_a⟩)
          exact absurd less (Nat.lt_irrefl _)
      · exact kept.cycle v hv old isOpen onCycle

/-- **A vertex is left.** -/
theorem leave (h : Marked edges vertices fresh ((a, []) :: below) c)
    (o : Opened edges vertices fresh ((a, []) :: below) c)
    (w : Walk edges fresh ((a, []) :: below)) (inside : ∀ a, ∀ b ∈ edges a, b ∈ vertices) :
    Marked edges vertices fresh below (c.leave a (pathOf below)) := by
  have inherited : Marked edges vertices fresh ((a, []) :: below)
      (c.inherit a (pathOf below)) := by
    cases below with
    | nil => exact h
    | cons frame below => exact h.lower _ _
  simp only [Components.leave]
  split
  · next least => exact inherited.close (o.inherit w) w inside least
  · exact inherited.keep

end Marked

/-! ### A whole search -/

/-- What holds of a search for components between its steps. -/
structure Analysed (edges : α → List α) (vertices fresh : List α) (stack : List (α × List α))
    (c : Components α) : Prop where
  remaining : ∀ a ∈ fresh, a ∈ vertices
  opened : Opened edges vertices fresh stack c
  marked : Marked edges vertices fresh stack c

variable [DecidableEq α]

/-- The four steps of a search keep what is open and what is marked. -/
theorem preserves_analysed (inside : ∀ a, ∀ b ∈ edges a, b ∈ vertices) :
    Preserves edges Components.after (Analysed edges vertices) where
  root new h :=
    ⟨fun b hb => h.remaining b (mem_others.1 hb).1,
      h.opened.enter new (h.remaining _ new) (by simp), h.marked.enter⟩
  child {fresh a b rest below c} new w h := by
    have notOpen : b ∉ c.opened := fun isOpen => (h.opened.entered b isOpen).2 new
    have entered : a ∉ fresh := w.entered (a, b :: rest) List.mem_cons_self
    have reached : ∀ u ∈ pathOf ((a, rest) :: below), Reaches edges u b := by
      intro u hu
      obtain ⟨frame, mem, rfl⟩ := mem_pathOf.1 hu
      exact (w.leads frame mem).to_reflTransGen
    refine ⟨fun e he => h.remaining e (mem_others.1 he).1, ?_, ?_⟩
    · exact (h.opened.pass fun isOpen => absurd isOpen notOpen).enter new (h.remaining b new) reached
    · exact (h.marked.pass fun same => absurd new (same ▸ entered)).enter
  met _ w h := ⟨h.remaining, h.opened.meet w, h.marked.meet w⟩
  left w h := ⟨h.remaining, h.opened.leave w, h.marked.leave h.opened w inside⟩

/-- What holds after a search from all vertices. -/
theorem analysed_search (inside : ∀ a, ∀ b ∈ edges a, b ∈ vertices) :
    Analysed edges vertices [] []
      ((search edges vertices vertices []).foldl Components.after {}) :=
  (preserves_analysed inside).run (fun _ h => h) (Walk.start edges vertices)
    ⟨fun _ h => h, .start edges vertices, .start edges vertices⟩

/-- **Every vertex on a cycle is marked.** -/
theorem mem_markedVertices_of_onCycle (inside : ∀ a, ∀ b ∈ edges a, b ∈ vertices)
    (mem : a ∈ vertices) (onCycle : OnCycle edges a) :
    a ∈ markedVertices (search edges vertices vertices []) := by
  have finish := analysed_search inside
  refine finish.marked.cycle a mem List.not_mem_nil ?_ onCycle
  rw [finish.opened.opened_eq_nil]
  exact List.not_mem_nil

/-- **Every marked vertex leads to one on a cycle.** -/
theorem exists_onCycle_of_mem_markedVertices (inside : ∀ a, ∀ b ∈ edges a, b ∈ vertices)
    (marked : a ∈ markedVertices (search edges vertices vertices [])) :
    ∃ b, Reaches edges a b ∧ OnCycle edges b :=
  (analysed_search inside).marked.leads a marked

end SchemaCodegen
