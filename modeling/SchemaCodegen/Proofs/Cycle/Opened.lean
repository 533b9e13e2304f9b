import Mathlib.Data.List.Nodup
import SchemaCodegen.Cycle.Component
import SchemaCodegen.Proofs.Cycle.Walk

/-!
# What is open in a search for components

`Components` follows a depth-first search and keeps the vertices whose strongly connected
component is not known yet, the open ones.  This module has the invariant of what is open,
`Opened`, and shows that each step of the search keeps it.

An open vertex is an entered one, and the open vertices are numbered in the order of
entering.  A vertex on the path leads to all open vertices entered since (`down`), and every
open vertex leads back to one on the path that is not above it (`up`).  The low of a vertex
on the path is the index of an open vertex that it leads to (`low_reached`), and it bounds
what the edges of the vertices entered since lead to, as long as no later vertex of the path
stands between (`low_le_pending`, `low_le_left`).

### What is load-bearing

When a vertex is left whose low is its index, its component is all that is open from it on.
By `low_le_left` no edge of these vertices leads to an earlier open vertex, so with them the
closed vertices still have no edge out (`Opened.closed`).  When its low is another open
vertex, that one has a lower index, and `up` goes on through it (`Opened.keep`).

The bound on the edges of a vertex that has been left belongs to the nearest vertex of the
path below it.  `low_le_left` says so without naming that one: for any vertex of the path
below, either a later one stands between, or the bound holds.
-/

namespace SchemaCodegen

open Relation

variable {α : Type}

/-! ### Cutting the open vertices -/

section

variable [DecidableEq α]

/-- The part up to a member ends with it and does not have it before. -/
theorem cutBehind_fst {a : α} {xs : List α} (mem : a ∈ xs) :
    ∃ above, (cutBehind a xs).1 = above ++ [a] ∧ a ∉ above := by
  induction xs with
  | nil => simp at mem
  | cons b xs ih =>
      by_cases h : b = a
      · subst h
        exact ⟨[], by simp [cutBehind], by simp⟩
      · obtain ⟨above, parts, notMem⟩ := ih ((List.mem_cons.1 mem).resolve_left (Ne.symm h))
        exact ⟨b :: above, by simp [cutBehind, h, parts], by simp [Ne.symm h, notMem]⟩

/-- Cutting loses nothing. -/
theorem cutBehind_append (a : α) (xs : List α) :
    (cutBehind a xs).1 ++ (cutBehind a xs).2 = xs := by
  induction xs with
  | nil => rfl
  | cons b xs ih =>
      by_cases h : b = a <;> simp [cutBehind, h, ih]

end

/-! ### What is open -/

/-- The path with indices: each vertex above another one has the greater index. -/
def Descending (index : α → Nat) (xs : List α) : Prop :=
  xs.Pairwise fun above below => index below < index above

section

variable [DecidableEq α] {index : α → Nat} {a b : α} {xs : List α}

/-- The part behind a member has the members with lower indices. -/
theorem Descending.mem_cutBehind_snd (h : Descending index xs) (mem : a ∈ xs) :
    b ∈ (cutBehind a xs).2 ↔ b ∈ xs ∧ index b < index a := by
  obtain ⟨above, fst_eq, -⟩ := cutBehind_fst mem
  have parts := cutBehind_append a xs
  rw [fst_eq] at parts
  rw [Descending, ← parts] at h
  obtain ⟨head, -, across⟩ := List.pairwise_append.1 h
  obtain ⟨-, -, to_a⟩ := List.pairwise_append.1 head
  constructor
  · intro hb
    exact ⟨parts ▸ List.mem_append_right _ hb,
      across a (List.mem_append_right _ List.mem_cons_self) b hb⟩
  · rintro ⟨hb, less⟩
    rw [← parts] at hb
    rcases List.mem_append.1 hb with hb | hb
    · rcases List.mem_append.1 hb with hb | hb
      · exact absurd (to_a b hb a List.mem_cons_self) (Nat.lt_asymm less)
      · obtain rfl := List.mem_singleton.1 hb
        exact absurd less (Nat.lt_irrefl _)
    · exact hb

/-- The part up to a member has the members with indices from its own on. -/
theorem Descending.mem_cutBehind_fst (h : Descending index xs) (mem : a ∈ xs) :
    b ∈ (cutBehind a xs).1 ↔ b ∈ xs ∧ index a ≤ index b := by
  obtain ⟨above, fst_eq, -⟩ := cutBehind_fst mem
  have parts := cutBehind_append a xs
  constructor
  · intro hb
    rw [Descending, ← parts, fst_eq] at h
    obtain ⟨head, -, -⟩ := List.pairwise_append.1 h
    obtain ⟨-, -, to_a⟩ := List.pairwise_append.1 head
    refine ⟨parts ▸ List.mem_append_left _ hb, ?_⟩
    rw [fst_eq] at hb
    rcases List.mem_append.1 hb with hb | hb
    · exact Nat.le_of_lt (to_a b hb a List.mem_cons_self)
    · obtain rfl := List.mem_singleton.1 hb
      exact Nat.le_refl _
  · rintro ⟨hb, le⟩
    rw [← parts] at hb
    refine (List.mem_append.1 hb).resolve_right fun hb => ?_
    exact Nat.not_lt.2 le ((h.mem_cutBehind_snd mem).1 hb).2

/-- The part behind a member is in order too. -/
theorem Descending.cutBehind_snd (h : Descending index xs) :
    Descending index (cutBehind a xs).2 := by
  rw [Descending, ← cutBehind_append a xs] at h
  exact (List.pairwise_append.1 h).2.1

end

/-- **The invariant of the open vertices** of a search through the given vertices. -/
structure Opened (edges : α → List α) (vertices fresh : List α) (stack : List (α × List α))
    (c : Components α) : Prop where
  /-- Open vertices are entered vertices of the graph. -/
  entered : ∀ a ∈ c.opened, a ∈ vertices ∧ a ∉ fresh
  /-- The indices of open vertices have been given. -/
  index_lt : ∀ a ∈ c.opened, c.index a < c.entered
  /-- The open vertices stand in the order of entering, the latest first. -/
  descending : Descending c.index c.opened
  /-- So do the vertices on the path. -/
  path_descending : Descending c.index (pathOf stack)
  /-- The vertices on the path are open. -/
  path_opened : ∀ a ∈ pathOf stack, a ∈ c.opened
  /-- A vertex on the path leads to the open vertices entered since. -/
  down : ∀ a ∈ pathOf stack, ∀ b ∈ c.opened, c.index a ≤ c.index b → Reaches edges a b
  /-- An open vertex leads to one on the path that was not entered later. -/
  up : ∀ a ∈ c.opened, ∃ b ∈ pathOf stack, c.index b ≤ c.index a ∧ Reaches edges a b
  /-- The low of a vertex on the path is found at an open vertex that it leads to. -/
  low_reached : ∀ a ∈ pathOf stack, ∃ b ∈ c.opened, c.index b = c.low a
    ∧ c.index b ≤ c.index a ∧ Reaches edges a b
  /-- The low of a vertex on the path bounds what its edges lead to that have been seen. -/
  low_le_pending : ∀ frame ∈ stack, ∀ b ∈ edges frame.1,
    b ∈ frame.2 ∨ (b ∈ c.opened → c.low frame.1 ≤ c.index b)
  /-- It bounds what the edges lead to of an open vertex that has been left, unless a later
  vertex of the path was entered before that one. -/
  low_le_left : ∀ a ∈ c.opened, a ∉ pathOf stack → ∀ b ∈ pathOf stack, c.index b < c.index a →
    (∃ e ∈ pathOf stack, c.index b < c.index e ∧ c.index e < c.index a)
      ∨ ∀ x ∈ edges a, x ∈ c.opened → c.low b ≤ c.index x
  /-- All edges of a vertex that has been left lead to entered vertices. -/
  left_scanned : ∀ a ∈ vertices, a ∉ fresh → a ∉ pathOf stack → ∀ b ∈ edges a, b ∉ fresh
  /-- All edges of a closed vertex lead to closed vertices. -/
  closed : ∀ a ∈ vertices, a ∉ fresh → a ∉ c.opened → ∀ b ∈ edges a, b ∉ fresh ∧ b ∉ c.opened

namespace Opened

variable {edges : α → List α} {vertices fresh : List α} {c : Components α} {a b : α}
  {rest : List α} {below stack : List (α × List α)}

/-- Open vertices with one index are one vertex. -/
theorem eq_of_index_eq (h : Opened edges vertices fresh stack c) (ha : a ∈ c.opened)
    (hb : b ∈ c.opened) (same : c.index a = c.index b) : a = b := by
  have distinct : (c.opened.map c.index).Nodup :=
    List.pairwise_map.2 (h.descending.imp fun less => (Nat.ne_of_lt less).symm)
  exact List.inj_on_of_nodup_map distinct ha hb same

/-- The vertices on the path below the top have lower indices. -/
theorem index_lt_top (h : Opened edges vertices fresh ((a, rest) :: below) c)
    (hb : b ∈ pathOf below) : c.index b < c.index a :=
  (List.pairwise_cons.1 h.path_descending).1 b hb

/-- No vertex on the path has a greater index than the top. -/
theorem index_le_top (h : Opened edges vertices fresh ((a, rest) :: below) c)
    (hb : b ∈ a :: pathOf below) : c.index b ≤ c.index a := by
  rcases List.mem_cons.1 hb with rfl | hb
  · exact Nat.le_refl _
  · exact Nat.le_of_lt (h.index_lt_top hb)

/-- Before the first root nothing is open. -/
theorem start (edges : α → List α) (vertices : List α) :
    Opened edges vertices vertices [] ({} : Components α) where
  entered := by simp
  index_lt := by simp
  descending := List.Pairwise.nil
  path_descending := List.Pairwise.nil
  path_opened := by simp
  down := by simp
  up := by simp
  low_reached := by simp
  low_le_pending := by simp
  low_le_left := by simp
  left_scanned _ mem old := absurd mem old
  closed _ mem old := absurd mem old

/-- When the path is empty nothing is open. -/
theorem opened_eq_nil (h : Opened edges vertices fresh [] c) : c.opened = [] := by
  refine List.eq_nil_iff_forall_not_mem.2 fun a ha => ?_
  obtain ⟨b, hb, -⟩ := h.up a ha
  exact List.not_mem_nil hb

/-- Marking changes nothing of what is open. -/
theorem mark (h : Opened edges vertices fresh stack c) (more : List α) :
    Opened edges vertices fresh stack (c.mark more) := by
  cases h
  constructor <;> assumption

/-- A pending edge is done with when its target is bounded by the low. -/
theorem pass (h : Opened edges vertices fresh ((a, b :: rest) :: below) c)
    (bounded : b ∈ c.opened → c.low a ≤ c.index b) :
    Opened edges vertices fresh ((a, rest) :: below) c where
  entered := h.entered
  index_lt := h.index_lt
  descending := h.descending
  path_descending := h.path_descending
  path_opened := h.path_opened
  down := h.down
  up := h.up
  low_reached := h.low_reached
  low_le_pending := by
    intro frame mem x hx
    rcases List.mem_cons.1 mem with rfl | mem
    · rcases h.low_le_pending (a, b :: rest) List.mem_cons_self x hx with isPending | seen
      · rcases List.mem_cons.1 isPending with rfl | isPending
        · exact .inr bounded
        · exact .inl isPending
      · exact .inr seen
    · exact h.low_le_pending frame (List.mem_cons_of_mem _ mem) x hx
  low_le_left := h.low_le_left
  left_scanned := h.left_scanned
  closed := h.closed

variable [DecidableEq α]

/-- Entering a vertex keeps the indices of the open ones. -/
theorem index_enter (new : a ∉ c.opened) (hb : b ∈ c.opened) :
    (c.enter a).index b = c.index b :=
  renumber_of_ne fun same => new (same ▸ hb)

/-- Entering a vertex keeps the lows of the open ones. -/
theorem low_enter (new : a ∉ c.opened) (hb : b ∈ c.opened) :
    (c.enter a).low b = c.low b :=
  renumber_of_ne fun same => new (same ▸ hb)

/-- A vertex that is entered has the next index. -/
theorem index_enter_self (c : Components α) (a : α) : (c.enter a).index a = c.entered :=
  renumber_self ..

/-- A vertex that is entered is its own low. -/
theorem low_enter_self (c : Components α) (a : α) : (c.enter a).low a = c.entered :=
  renumber_self ..

/-- An order of open vertices stays when another one is entered. -/
theorem descending_enter {xs : List α} (new : a ∉ c.opened) (mem : ∀ x ∈ xs, x ∈ c.opened)
    (h : Descending c.index xs) : Descending (c.enter a).index xs := by
  refine h.imp_of_mem fun hx hy less => ?_
  rwa [index_enter new (mem _ hx), index_enter new (mem _ hy)]

/-- **A fresh vertex is entered** that every vertex on the path leads to. -/
theorem enter (h : Opened edges vertices fresh stack c) (isFresh : a ∈ fresh)
    (mem : a ∈ vertices) (leads : ∀ b ∈ pathOf stack, Reaches edges b a) :
    Opened edges vertices (others a fresh) ((a, edges a) :: stack) (c.enter a) := by
  have new : a ∉ c.opened := fun ha => (h.entered a ha).2 isFresh
  have still {x : α} (old : x ∉ fresh) : x ∉ others a fresh := fun hx => old (mem_others.1 hx).1
  have old_of_ne {x : α} (hx : x ∉ others a fresh) (ne : x ≠ a) : x ∉ fresh :=
    fun isFresh => hx (mem_others.2 ⟨isFresh, ne⟩)
  have index_old {x : α} (hx : x ∈ c.opened) : (c.enter a).index x = c.index x :=
    index_enter new hx
  have low_old {x : α} (hx : x ∈ pathOf stack) : (c.enter a).low x = c.low x :=
    low_enter new (h.path_opened x hx)
  have index_self : (c.enter a).index a = c.entered := index_enter_self c a
  constructor
  case entered =>
    refine List.forall_mem_cons.2 ⟨⟨mem, not_mem_others a fresh⟩, fun x hx => ?_⟩
    exact ⟨(h.entered x hx).1, still (h.entered x hx).2⟩
  case index_lt =>
    refine List.forall_mem_cons.2 ⟨by rw [index_self]; exact Nat.lt_succ_self _, fun x hx => ?_⟩
    rw [index_old hx]
    exact Nat.lt_succ_of_lt (h.index_lt x hx)
  case descending =>
    refine List.pairwise_cons.2 ⟨fun x hx => ?_, descending_enter new (fun _ hx => hx) h.descending⟩
    rw [index_old hx, index_self]
    exact h.index_lt x hx
  case path_descending =>
    refine List.pairwise_cons.2
      ⟨fun x hx => ?_, descending_enter new h.path_opened h.path_descending⟩
    rw [index_old (h.path_opened x hx)]
    exact index_self ▸ h.index_lt x (h.path_opened x hx)
  case path_opened =>
    exact List.forall_mem_cons.2
      ⟨List.mem_cons_self, fun x hx => List.mem_cons_of_mem _ (h.path_opened x hx)⟩
  case down =>
    intro u hu v hv le
    rcases List.mem_cons.1 hu with rfl | hu
    · rcases List.mem_cons.1 hv with rfl | hv
      · exact .refl
      · rw [index_old hv] at le
        exact absurd (h.index_lt v hv) (Nat.not_lt.2 (index_self ▸ le))
    · rcases List.mem_cons.1 hv with same | hv
      · exact same ▸ leads u hu
      · rw [index_old hv, index_old (h.path_opened u hu)] at le
        exact h.down u hu v hv le
  case up =>
    refine List.forall_mem_cons.2 ⟨⟨a, List.mem_cons_self, Nat.le_refl _, .refl⟩, fun v hv => ?_⟩
    obtain ⟨u, hu, le, reaches⟩ := h.up v hv
    refine ⟨u, List.mem_cons_of_mem _ hu, ?_, reaches⟩
    rwa [index_old hv, index_old (h.path_opened u hu)]
  case low_reached =>
    refine List.forall_mem_cons.2 ⟨⟨a, List.mem_cons_self, ?_, Nat.le_refl _, .refl⟩, fun u hu => ?_⟩
    · rw [index_self, low_enter_self]
    · obtain ⟨x, hx, same, le, reaches⟩ := h.low_reached u hu
      refine ⟨x, List.mem_cons_of_mem _ hx, ?_, ?_, reaches⟩
      · rw [index_old hx, low_old hu, same]
      · rwa [index_old hx, index_old (h.path_opened u hu)]
  case low_le_pending =>
    refine List.forall_mem_cons.2 ⟨fun x hx => .inl hx, fun frame mem x hx => ?_⟩
    refine (h.low_le_pending frame mem x hx).imp_right fun bounded isOpen => ?_
    have onPath : frame.1 ∈ pathOf stack := mem_pathOf.2 ⟨frame, mem, rfl⟩
    rw [low_old onPath]
    rcases List.mem_cons.1 isOpen with rfl | isOpen
    · obtain ⟨y, hy, same, -, -⟩ := h.low_reached _ onPath
      rw [index_self, ← same]
      exact Nat.le_of_lt (h.index_lt y hy)
    · rw [index_old isOpen]
      exact bounded isOpen
  case low_le_left =>
    intro v hv notPath u hu less
    obtain ⟨ne, notPath⟩ := List.ne_and_not_mem_of_not_mem_cons notPath
    replace hv : v ∈ c.opened := (List.mem_cons.1 hv).resolve_left ne
    rw [index_old hv] at less
    rcases List.mem_cons.1 hu with same | hu
    · rw [same, index_self] at less
      exact absurd (h.index_lt v hv) (Nat.lt_asymm less)
    · rw [index_old (h.path_opened u hu)] at less
      refine (h.low_le_left v hv notPath u hu less).imp ?_ fun bounded x hx isOpen => ?_
      · rintro ⟨e, he, lower, upper⟩
        refine ⟨e, List.mem_cons_of_mem _ he, ?_, ?_⟩
        · rwa [index_old (h.path_opened u hu), index_old (h.path_opened e he)]
        · rwa [index_old hv, index_old (h.path_opened e he)]
      · rcases List.mem_cons.1 isOpen with same | isOpen
        -- All edges of a vertex that was left are scanned, so none leads to the fresh one.
        · obtain ⟨memV, old⟩ := h.entered v hv
          exact absurd (same ▸ isFresh) (h.left_scanned v memV old notPath x hx)
        · rw [low_old hu, index_old isOpen]
          exact bounded x hx isOpen
  case left_scanned =>
    intro v hv old notPath b hb
    obtain ⟨ne, notPath⟩ := List.ne_and_not_mem_of_not_mem_cons notPath
    exact still (h.left_scanned v hv (old_of_ne old ne) notPath b hb)
  case closed =>
    intro v hv old notOpen b hb
    obtain ⟨ne, notOpen⟩ := List.ne_and_not_mem_of_not_mem_cons notOpen
    obtain ⟨oldB, notOpenB⟩ := h.closed v hv (old_of_ne old ne) notOpen b hb
    refine ⟨still oldB, fun isOpen => ?_⟩
    rcases List.mem_cons.1 isOpen with rfl | isOpen
    · exact oldB isFresh
    · exact notOpenB isOpen

/-- Lowering lowers. -/
theorem low_lower_le (c : Components α) (a b : α) (n : Nat) :
    (c.lower a n).low b ≤ c.low b := by
  by_cases same : b = a
  · subst same
    exact Nat.le_trans (Nat.le_of_eq (renumber_self ..)) (Nat.min_le_left _ n)
  · exact Nat.le_of_eq (renumber_of_ne same)

/-- The low that is lowered is not above the number. -/
theorem low_lower_self_le (c : Components α) (a : α) (n : Nat) : (c.lower a n).low a ≤ n :=
  Nat.le_trans (Nat.le_of_eq (renumber_self ..)) (Nat.min_le_right (c.low a) n)

/-- **The low of a vertex on the path is lowered** to the index of an open vertex that it
leads to. -/
theorem lower (h : Opened edges vertices fresh stack c) (onPath : a ∈ pathOf stack)
    (hb : b ∈ c.opened) (reaches : Reaches edges a b) :
    Opened edges vertices fresh stack (c.lower a (c.index b)) where
  entered := h.entered
  index_lt := h.index_lt
  descending := h.descending
  path_descending := h.path_descending
  path_opened := h.path_opened
  down := h.down
  up := h.up
  low_reached := by
    intro u hu
    obtain ⟨x, hx, same, le, toX⟩ := h.low_reached u hu
    by_cases top : u = a
    · subst top
      have low_eq : (c.lower u (c.index b)).low u = min (c.low u) (c.index b) :=
        renumber_self ..
      rcases Nat.le_total (c.low u) (c.index b) with less | less
      · exact ⟨x, hx, by rw [low_eq, Nat.min_eq_left less]; exact same, le, toX⟩
      · refine ⟨b, hb, by rw [low_eq, Nat.min_eq_right less]; rfl, ?_, reaches⟩
        calc c.index b ≤ c.low u := less
          _ = c.index x := same.symm
          _ ≤ c.index u := le
    · exact ⟨x, hx, same.trans (renumber_of_ne top).symm, le, toX⟩
  low_le_pending frame mem x hx :=
    (h.low_le_pending frame mem x hx).imp_right fun bounded isOpen =>
      Nat.le_trans (low_lower_le c a frame.1 _) (bounded isOpen)
  low_le_left v hv notPath u hu less :=
    (h.low_le_left v hv notPath u hu less).imp_right fun bounded x hx isOpen =>
      Nat.le_trans (low_lower_le c a u _) (bounded x hx isOpen)
  left_scanned := h.left_scanned
  closed := h.closed

omit [DecidableEq α]

/-- What the low of a vertex that is being left bounds: the edges of all open vertices from
it on. -/
theorem low_le_of_edge (h : Opened edges vertices fresh ((a, []) :: below) c) {v x : α}
    (hv : v ∈ c.opened) (le : c.index a ≤ c.index v) (hx : x ∈ edges v) (isOpen : x ∈ c.opened) :
    c.low a ≤ c.index x := by
  have onTop : a ∈ pathOf ((a, []) :: below) := List.mem_cons_self
  by_cases same : v = a
  · subst same
    exact ((h.low_le_pending (v, []) List.mem_cons_self x hx).resolve_left
      List.not_mem_nil) isOpen
  · have less : c.index a < c.index v :=
      Nat.lt_of_le_of_ne le fun eq => same (h.eq_of_index_eq hv (h.path_opened a onTop) eq.symm)
    have notPath : v ∉ pathOf ((a, []) :: below) := fun hv =>
      Nat.not_lt.2 (h.index_le_top hv) less
    rcases h.low_le_left v hv notPath a onTop less with ⟨e, he, later, -⟩ | bounded
    · exact absurd later (Nat.not_lt.2 (h.index_le_top he))
    · exact bounded x hx isOpen

/-- The edges of the open vertices from the top on lead to entered vertices, when the top
has none pending. -/
theorem not_fresh_of_edge (h : Opened edges vertices fresh ((a, []) :: below) c)
    (w : Walk edges fresh ((a, []) :: below)) {v x : α} (hv : v ∈ c.opened)
    (le : c.index a ≤ c.index v) (hx : x ∈ edges v) : x ∉ fresh := by
  have onTop : a ∈ pathOf ((a, []) :: below) := List.mem_cons_self
  by_cases same : v = a
  · exact w.not_fresh_of_edge (same ▸ hx)
  · have notPath : v ∉ pathOf ((a, []) :: below) := fun hv' => same
      (h.eq_of_index_eq hv (h.path_opened a onTop) (Nat.le_antisymm (h.index_le_top hv') le))
    obtain ⟨memV, old⟩ := h.entered v hv
    exact h.left_scanned v memV old notPath x hx

/-- When the top has no edge pending, it is scanned like the vertices left before. -/
theorem left_scanned_of_top (h : Opened edges vertices fresh ((a, []) :: below) c)
    (w : Walk edges fresh ((a, []) :: below)) :
    ∀ v ∈ vertices, v ∉ fresh → v ∉ pathOf below → ∀ x ∈ edges v, x ∉ fresh := by
  intro v hv old notPath x hx
  by_cases same : v = a
  · exact w.not_fresh_of_edge (same ▸ hx)
  · exact h.left_scanned v hv old (fun hv => (List.mem_cons.1 hv).elim same notPath) x hx

/-- **A vertex is left and stays open**: its low is found below it, and the vertex below it
on the path has taken over that low. -/
theorem keep (h : Opened edges vertices fresh ((a, []) :: below) c)
    (w : Walk edges fresh ((a, []) :: below)) (lower : c.low a ≠ c.index a)
    (inherited : ∀ parent ∈ below.head?, c.low parent.1 ≤ c.low a) :
    Opened edges vertices fresh below c where
  entered := h.entered
  index_lt := h.index_lt
  descending := h.descending
  path_descending := (List.pairwise_cons.1 h.path_descending).2
  path_opened u hu := h.path_opened u (List.mem_cons_of_mem _ hu)
  down u hu := h.down u (List.mem_cons_of_mem _ hu)
  up := by
    intro v hv
    obtain ⟨u, hu, le, toU⟩ := h.up v hv
    rcases List.mem_cons.1 hu with same | hu
    -- What led up to `a` goes on to its low, and from there to an earlier vertex of the path.
    · obtain ⟨x, hx, low_eq, le_a, toX⟩ := h.low_reached a List.mem_cons_self
      have less : c.index x < c.index a :=
        Nat.lt_of_le_of_ne le_a (low_eq ▸ lower)
      obtain ⟨y, hy, le_x, toY⟩ := h.up x hx
      have ne : y ≠ a := by
        rintro rfl
        exact Nat.not_lt.2 le_x less
      refine ⟨y, (List.mem_cons.1 hy).resolve_left ne, ?_, ?_⟩
      · calc c.index y ≤ c.index x := le_x
          _ ≤ c.index a := le_a
          _ = c.index u := by rw [same]
          _ ≤ c.index v := le
      · exact (toU.trans (same ▸ toX)).trans toY
    · exact ⟨u, hu, le, toU⟩
  low_reached u hu := h.low_reached u (List.mem_cons_of_mem _ hu)
  low_le_pending frame mem := h.low_le_pending frame (List.mem_cons_of_mem _ mem)
  low_le_left := by
    intro v hv notPath u hu less
    -- The nearest vertex of the path below `a` takes over the bound of `a`; any other one
    -- has that one between.
    obtain ⟨⟨parent, rest⟩, later, rfl⟩ : ∃ frame later, below = frame :: later := by
      cases below with
      | nil => exact absurd hu List.not_mem_nil
      | cons frame later => exact ⟨frame, later, rfl⟩
    have parent_lt : c.index parent < c.index a := h.index_lt_top List.mem_cons_self
    by_cases from_top : c.index a ≤ c.index v
    · rcases List.mem_cons.1 hu with same | hu
      · refine .inr fun x hx isOpen => ?_
        calc c.low u = c.low parent := by rw [same]
          _ ≤ c.low a := inherited (parent, rest) rfl
          _ ≤ c.index x := h.low_le_of_edge hv from_top hx isOpen
      · have u_lt : c.index u < c.index parent :=
          (List.pairwise_cons.1 (List.pairwise_cons.1 h.path_descending).2).1 u hu
        exact .inl ⟨parent, List.mem_cons_self, u_lt, Nat.lt_of_lt_of_le parent_lt from_top⟩
    · have notTop : v ≠ a := by
        rintro rfl
        exact from_top (Nat.le_refl _)
      have outside : v ∉ pathOf ((a, []) :: (parent, rest) :: later) := fun hv =>
        (List.mem_cons.1 hv).elim notTop notPath
      refine (h.low_le_left v hv outside u (List.mem_cons_of_mem _ hu) less).imp_left ?_
      rintro ⟨e, he, lower, upper⟩
      have ne : e ≠ a := by
        rintro rfl
        exact from_top (Nat.le_of_lt upper)
      exact ⟨e, (List.mem_cons.1 he).resolve_left ne, lower, upper⟩
  left_scanned := h.left_scanned_of_top w
  closed := h.closed

/-- **A vertex is left and closes its component**, because no edge from it on leads to an
earlier open vertex. -/
theorem close [DecidableEq α] (h : Opened edges vertices fresh ((a, []) :: below) c)
    (w : Walk edges fresh ((a, []) :: below)) (least : c.low a = c.index a) :
    Opened edges vertices fresh below (c.close a) := by
  have opened_a : a ∈ c.opened := h.path_opened a List.mem_cons_self
  have remaining {x : α} : x ∈ (cutBehind a c.opened).2 ↔ x ∈ c.opened ∧ c.index x < c.index a :=
    h.descending.mem_cutBehind_snd opened_a
  have below_remains {u : α} (hu : u ∈ pathOf below) : u ∈ (cutBehind a c.opened).2 :=
    remaining.2 ⟨h.path_opened u (List.mem_cons_of_mem _ hu), h.index_lt_top hu⟩
  have base : Opened edges vertices fresh below { c with opened := (cutBehind a c.opened).2 } := by
    constructor
    case entered => exact fun x hx => h.entered x (remaining.1 hx).1
    case index_lt => exact fun x hx => h.index_lt x (remaining.1 hx).1
    case descending => exact h.descending.cutBehind_snd
    case path_descending => exact (List.pairwise_cons.1 h.path_descending).2
    case path_opened => exact fun u hu => below_remains hu
    case down =>
      intro u hu v hv
      exact h.down u (List.mem_cons_of_mem _ hu) v (remaining.1 hv).1
    case up =>
      intro v hv
      obtain ⟨isOpen, less⟩ := remaining.1 hv
      obtain ⟨u, hu, le, toU⟩ := h.up v isOpen
      have ne : u ≠ a := by
        rintro rfl
        exact Nat.not_lt.2 le less
      exact ⟨u, (List.mem_cons.1 hu).resolve_left ne, le, toU⟩
    case low_reached =>
      intro u hu
      obtain ⟨x, hx, low_eq, le, toX⟩ := h.low_reached u (List.mem_cons_of_mem _ hu)
      exact ⟨x, remaining.2 ⟨hx, Nat.lt_of_le_of_lt le (h.index_lt_top hu)⟩, low_eq, le, toX⟩
    case low_le_pending =>
      intro frame mem x hx
      exact (h.low_le_pending frame (List.mem_cons_of_mem _ mem) x hx).imp_right
        fun bounded isOpen => bounded (remaining.1 isOpen).1
    case low_le_left =>
      intro v hv notPath u hu less
      obtain ⟨isOpen, v_lt⟩ := remaining.1 hv
      have notTop : v ≠ a := by
        rintro rfl
        exact Nat.lt_irrefl _ v_lt
      have outside : v ∉ pathOf ((a, []) :: below) := fun hv =>
        (List.mem_cons.1 hv).elim notTop notPath
      refine (h.low_le_left v isOpen outside u (List.mem_cons_of_mem _ hu) less).imp ?_ ?_
      · rintro ⟨e, he, lower, upper⟩
        have ne : e ≠ a := by
          rintro rfl
          exact Nat.lt_asymm upper v_lt
        exact ⟨e, (List.mem_cons.1 he).resolve_left ne, lower, upper⟩
      · exact fun bounded x hx isOpen => bounded x hx (remaining.1 isOpen).1
    case left_scanned => exact h.left_scanned_of_top w
    case closed =>
      intro v hv old gone x hx
      by_cases isOpen : v ∈ c.opened
      -- A vertex of the component: an edge to an open vertex left of `a` would lower the low.
      · have le : c.index a ≤ c.index v := Nat.not_lt.1 fun less => gone (remaining.2 ⟨isOpen, less⟩)
        refine ⟨h.not_fresh_of_edge w isOpen le hx, fun remains => ?_⟩
        obtain ⟨openX, less⟩ := remaining.1 remains
        have bounded := h.low_le_of_edge isOpen le hx openX
        rw [least] at bounded
        exact Nat.not_lt.2 bounded less
      · obtain ⟨oldX, notOpen⟩ := h.closed v hv old isOpen x hx
        exact ⟨oldX, fun remains => notOpen (remaining.1 remains).1⟩
  simp only [Components.close]
  split
  · exact base.mark _
  · exact base

/-- **An edge to an entered vertex is met.** -/
theorem meet [DecidableEq α] (h : Opened edges vertices fresh ((a, b :: rest) :: below) c)
    (w : Walk edges fresh ((a, b :: rest) :: below)) :
    Opened edges vertices fresh ((a, rest) :: below) (c.meet a (pathOf below) b) := by
  have marked : Opened edges vertices fresh ((a, b :: rest) :: below)
      (c.markPath a (pathOf below) b) := by
    unfold Components.markPath
    split
    · exact h.mark _
    · exact h
  rw [Components.meet, Components.lowerTo]
  split
  · next isOpen =>
      exact (marked.lower List.mem_cons_self isOpen (.single w.edge)).pass
        fun _ => low_lower_self_le ..
  · next notOpen => exact marked.pass fun isOpen => absurd isOpen notOpen

/-- The low of the top stays when the vertex below it takes that over. -/
theorem low_inherit [DecidableEq α] (h : Opened edges vertices fresh ((a, rest) :: below) c) :
    (c.inherit a (pathOf below)).low a = c.low a := by
  cases below with
  | nil => rfl
  | cons frame below =>
      refine renumber_of_ne fun same => ?_
      have less : c.index frame.1 < c.index a := h.index_lt_top List.mem_cons_self
      exact Nat.lt_irrefl _ (same ▸ less)

/-- The vertex below the top takes over its low. -/
theorem inherit [DecidableEq α] (h : Opened edges vertices fresh ((a, rest) :: below) c)
    (w : Walk edges fresh ((a, rest) :: below)) :
    Opened edges vertices fresh ((a, rest) :: below) (c.inherit a (pathOf below)) := by
  cases below with
  | nil => exact h
  | cons frame below =>
      obtain ⟨x, hx, low_eq, -, reaches⟩ := h.low_reached a List.mem_cons_self
      have parent : frame.1 ∈ pathOf (frame :: below) := List.mem_cons_self
      have toX : Reaches edges frame.1 x :=
        (w.reaches_top (List.mem_cons_of_mem _ parent)).trans reaches
      have lowered := h.lower (List.mem_cons_of_mem _ parent) hx toX
      rwa [low_eq] at lowered

/-- **A vertex is left.** -/
theorem leave [DecidableEq α] (h : Opened edges vertices fresh ((a, []) :: below) c)
    (w : Walk edges fresh ((a, []) :: below)) :
    Opened edges vertices fresh below (c.leave a (pathOf below)) := by
  have inherited := h.inherit w
  simp only [Components.leave]
  split
  · next least => exact inherited.close w least
  · next lower =>
      refine inherited.keep w lower fun parent isHead => ?_
      obtain ⟨later, rfl⟩ := List.head?_eq_some_iff.1 isHead
      rw [h.low_inherit]
      exact low_lower_self_le ..

end Opened

end SchemaCodegen
