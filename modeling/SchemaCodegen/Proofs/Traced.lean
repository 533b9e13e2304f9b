import Mathlib.Data.List.Forall2
import Mathlib.Data.List.ReduceOption
import SchemaCodegen.Traced

/-!
# Opening traced computations

A statement on the result of a computation takes the computation apart from the outside:
`result_bind_eq_ok` opens one step, and `result_mapM_eq_ok` a whole list of them, where each
result stands beside what it was computed from.  Notices do not appear.  `Gives` says of a
computation that it has a result, `FailsOnly` which failures it can have.
-/

namespace SchemaCodegen

variable {α β : Type} {R : α → β → Prop}

/-! ### Side by side -/

/-- Values side by side are both there or both not. -/
theorem cases_of_rel {x : Option α} {y : Option β} (rel : Option.Rel R x y) :
    (x = none ∧ y = none) ∨ ∃ a b, x = some a ∧ y = some b ∧ R a b := by
  cases rel with
  | none => exact .inl ⟨rfl, rfl⟩
  | some here => exact .inr ⟨_, _, rfl, rfl, here⟩

/-- What relates two values that are there relates them in other ways too. -/
theorem rel_imp {S : α → β → Prop} {x : Option α} {y : Option β} (rel : Option.Rel R x y)
    (weaker : ∀ a b, x = some a → y = some b → R a b → S a b) : Option.Rel S x y := by
  cases rel with
  | none => exact .none
  | some here => exact .some (weaker _ _ rfl rfl here)

theorem isSome_eq_of_rel {x : Option α} {y : Option β} (rel : Option.Rel R x y) :
    y.isSome = x.isSome := by
  cases rel <;> rfl

/-- Where the right list is cut, the left one can be cut. -/
theorem exists_cut_left {xs : List α} {earlier later : List β} {y : β}
    (aligned : List.Forall₂ R xs (earlier ++ y :: later)) :
    ∃ pre x post, xs = pre ++ x :: post ∧ List.Forall₂ R pre earlier ∧ R x y := by
  induction earlier generalizing xs with
  | nil =>
      obtain ⟨x, post, here, -, rfl⟩ := List.forall₂_cons_right_iff.1 aligned
      exact ⟨[], x, post, rfl, .nil, here⟩
  | cons z earlier ih =>
      obtain ⟨x, rest, here, inner, rfl⟩ := List.forall₂_cons_right_iff.1 aligned
      obtain ⟨pre, a, post, rfl, before, at_cut⟩ := ih inner
      exact ⟨x :: pre, a, post, rfl, .cons here before, at_cut⟩

theorem exists_cut_right {pre post : List α} {x : α} {ys : List β}
    (aligned : List.Forall₂ R (pre ++ x :: post) ys) :
    ∃ earlier y later, ys = earlier ++ y :: later ∧ List.Forall₂ R pre earlier ∧ R x y := by
  obtain ⟨earlier, y, later, same, before, at_cut⟩ := exists_cut_left aligned.flip
  exact ⟨earlier, y, later, same, before.flip, at_cut⟩

/-- Each entry has its counterpart. -/
theorem exists_of_mem_left {xs : List α} {ys : List β} {x : α}
    (aligned : List.Forall₂ R xs ys) (mem : x ∈ xs) : ∃ y ∈ ys, R x y := by
  obtain ⟨pre, post, rfl⟩ := List.append_of_mem mem
  obtain ⟨earlier, y, later, rfl, -, here⟩ := exists_cut_right aligned
  exact ⟨y, List.mem_append_right _ List.mem_cons_self, here⟩

/-- Where each entry has a counterpart, there is a list of them. -/
theorem exists_forall₂ {xs : List α} (each : ∀ x ∈ xs, ∃ y, R x y) :
    ∃ ys, List.Forall₂ R xs ys := by
  induction xs with
  | nil => exact ⟨[], .nil⟩
  | cons x xs ih =>
      obtain ⟨⟨y, here⟩, later⟩ := List.forall_mem_cons.1 each
      obtain ⟨ys, aligned⟩ := ih later
      exact ⟨y :: ys, .cons here aligned⟩

/-- What each entry of the right list comes from is the left list. -/
theorem map_eq_of_forall₂ {f : β → α} {xs : List α} {ys : List β}
    (aligned : List.Forall₂ (fun x y => f y = x) xs ys) : ys.map f = xs := by
  induction aligned with
  | nil => rfl
  | cons here _ ih => rw [List.map_cons, here, ih]

/-- At each place there are entries in both lists, or in none. -/
theorem rel_getElem? {xs : List α} {ys : List β} (aligned : List.Forall₂ R xs ys) (i : Nat) :
    Option.Rel R xs[i]? ys[i]? := by
  induction aligned generalizing i with
  | nil => exact .none
  | cons here _ ih =>
      cases i with
      | zero => exact .some here
      | succ i => exact ih i

/-! ### Results -/

/-- A sequence that may fail has a result when both of its parts have one. -/
theorem bind_eq_ok {ε : Type} {x : Except ε α} {f : α → Except ε β} {b : β} :
    x >>= f = .ok b ↔ ∃ a, x = .ok a ∧ f a = .ok b := by
  cases x with
  | error e =>
      constructor
      · intro h
        cases h
      · rintro ⟨_, h, -⟩
        cases h
  | ok a =>
      constructor
      · intro h
        exact ⟨a, rfl, h⟩
      · rintro ⟨_, same, h⟩
        cases same
        exact h

/-- Each result of a list of steps is the result of one of them. -/
theorem exists_of_mem_mapM {ε : Type} {f : α → Except ε β} {xs : List α} {ys : List β} {y : β}
    (h : xs.mapM f = .ok ys) (mem : y ∈ ys) : ∃ x ∈ xs, f x = .ok y := by
  induction xs generalizing ys with
  | nil =>
      cases h
      cases mem
  | cons x xs ih =>
      rw [List.mapM_cons] at h
      obtain ⟨first, here, h⟩ := bind_eq_ok.1 h
      obtain ⟨rest, later, h⟩ := bind_eq_ok.1 h
      cases h
      obtain rfl | in_rest := List.mem_cons.1 mem
      · exact ⟨x, List.mem_cons_self, here⟩
      · obtain ⟨z, at_z, found⟩ := ih later in_rest
        exact ⟨z, List.mem_cons_of_mem _ at_z, found⟩

namespace Traced

/-- A sequence has a result when both of its parts have one. -/
theorem result_bind_eq_ok {x : Traced α} {f : α → Traced β} {b : β} :
    (x >>= f).result = .ok b ↔ ∃ a, x.result = .ok a ∧ (f a).result = .ok b := by
  rw [result_bind, bind_eq_ok]

/-- What is mapped has a result when there is one to map. -/
theorem result_map_eq_ok {x : Traced α} {f : α → β} {b : β} :
    (f <$> x).result = .ok b ↔ ∃ a, x.result = .ok a ∧ f a = b := by
  rw [result_map]
  cases x.result with
  | error e => simp
  | ok a => simp

/-- Mapping gives no notice. -/
theorem notices_map (f : α → β) (x : Traced α) : (f <$> x).notices = x.notices := by
  obtain ⟨result, notices⟩ := x
  cases result with
  | error e => rfl
  | ok a => exact List.append_nil notices

/-- Computations that do not look at where their values come from. -/
theorem mapM_attach (xs : List α) (f : α → Traced β) : xs.attach.mapM (fun x => f x.1) = xs.mapM f := by
  rw [List.mapM_subtype fun _ _ => rfl, List.unattach_attach]

/-- A list of computations has the results of its computations, in order. -/
theorem result_mapM_eq_ok {f : α → Traced β} {xs : List α} {ys : List β} :
    (xs.mapM f).result = .ok ys ↔ List.Forall₂ (fun x y => (f x).result = .ok y) xs ys := by
  induction xs generalizing ys with
  | nil =>
      rw [List.mapM_nil, result_pure, List.forall₂_nil_left_iff]
      constructor
      · intro h
        cases h
        rfl
      · rintro rfl
        rfl
  | cons x xs ih =>
      rw [List.mapM_cons, result_bind_eq_ok, List.forall₂_cons_left_iff]
      simp only [result_bind_eq_ok, ih, result_pure, Except.ok.injEq]
      constructor
      · rintro ⟨y, first, ys, rest, rfl⟩
        exact ⟨y, ys, first, rest, rfl⟩
      · rintro ⟨y, ys, first, rest, rfl⟩
        exact ⟨y, first, ys, rest, rfl⟩

/-- Each result of a list of computations is the result of one of them. -/
theorem exists_of_mem_mapM {f : α → Traced β} {xs : List α} {ys : List β} {y : β}
    (h : (xs.mapM f).result = .ok ys) (mem : y ∈ ys) : ∃ x ∈ xs, (f x).result = .ok y := by
  exact exists_of_mem_left (result_mapM_eq_ok.1 h).flip mem

/-- Keeping what computations find is keeping what is there among their results. -/
theorem filterMapM_eq_mapM (f : α → Traced (Option β)) (xs : List α) :
    xs.filterMapM f = List.reduceOption <$> xs.mapM f := by
  induction xs with
  | nil => rfl
  | cons x xs ih =>
      rw [List.filterMapM_cons, List.mapM_cons, map_bind]
      refine bind_congr fun found => ?_
      cases found with
      | none => simp [ih]
      | some y => simp [ih]

/-- What is kept is what one of the computations finds. -/
theorem mem_of_result_filterMapM {f : α → Traced (Option β)} {xs : List α} {ys : List β} {y : β}
    (h : (xs.filterMapM f).result = .ok ys) :
    y ∈ ys ↔ ∃ x ∈ xs, (f x).result = .ok (some y) := by
  rw [filterMapM_eq_mapM, map_eq_pure_bind] at h
  obtain ⟨found, each, same⟩ := result_bind_eq_ok.1 h
  cases same
  rw [List.reduceOption_mem_iff]
  constructor
  · exact exists_of_mem_mapM each
  · rintro ⟨x, mem, here⟩
    obtain ⟨o, at_o, there⟩ := exists_of_mem_left (result_mapM_eq_ok.1 each) mem
    cases here.symm.trans there
    exact at_o

/-! ### Computations that give a result -/

variable {P : α → Prop} {Q : β → Prop}

/-- The computation has a result, and one with a property. -/
def Gives (x : Traced α) (P : α → Prop) : Prop := ∃ a, x.result = .ok a ∧ P a

theorem gives_pure {a : α} (has : P a) : (pure a : Traced α).Gives P := ⟨a, rfl, has⟩

theorem Gives.imp {x : Traced α} {P' : α → Prop} (gives : x.Gives P) (weaker : ∀ a, P a → P' a) :
    x.Gives P' := by
  obtain ⟨a, found, has⟩ := gives
  exact ⟨a, found, weaker a has⟩

/-- A sequence gives what its second part gives after any result of the first one. -/
theorem Gives.bind {x : Traced α} {f : α → Traced β} (first : x.Gives P)
    (next : ∀ a, P a → (f a).Gives Q) : (x >>= f).Gives Q := by
  obtain ⟨a, found, has⟩ := first
  obtain ⟨b, then_found, then_has⟩ := next a has
  exact ⟨b, result_bind_eq_ok.2 ⟨a, found, then_found⟩, then_has⟩

/-- What is mapped gives what is mapped to. -/
theorem Gives.map {x : Traced α} {f : α → β} (given : x.Gives P) (keeps : ∀ a, P a → Q (f a)) :
    (f <$> x).Gives Q := by
  obtain ⟨a, found, has⟩ := given
  exact ⟨f a, result_map_eq_ok.2 ⟨a, found, rfl⟩, keeps a has⟩

theorem gives_ofExcept {r : Except Failure α} {a : α} (found : r = .ok a) :
    (ofExcept r).Gives (· = a) := ⟨a, found, rfl⟩

/-- A list of computations gives what each of them gives, one beside the other. -/
theorem gives_forall₂ {f : α → Traced β} {xs : List α} (each : ∀ x ∈ xs, (f x).Gives (R x)) :
    (xs.mapM f).Gives (List.Forall₂ R xs) := by
  obtain ⟨ys, aligned⟩ := exists_forall₂ each
  exact ⟨ys, result_mapM_eq_ok.2 (aligned.imp fun _ _ here => here.1),
    aligned.imp fun _ _ here => here.2⟩

/-- A list of computations gives what each of them gives. -/
theorem gives_mapM {f : α → Traced β} {xs : List α} (each : ∀ x ∈ xs, (f x).Gives Q) :
    (xs.mapM f).Gives fun ys => ∀ y ∈ ys, Q y := by
  refine (gives_forall₂ each).imp fun ys aligned y mem => ?_
  obtain ⟨x, -, has⟩ := exists_of_mem_left aligned.flip mem
  exact has

/-! ### Computations with few failures -/

variable {f : Failure} {F : Failure → Prop}

/-- One step after another fails where the one or the other does. -/
theorem result_bind_eq_error {x : Traced α} {next : α → Traced β} :
    (x >>= next).result = .error f ↔
      x.result = .error f ∨ ∃ a, x.result = .ok a ∧ (next a).result = .error f := by
  rw [result_bind]
  cases x.result with
  | error e => simp [bind, Except.bind]
  | ok a => simp [bind, Except.bind]

/-- The computation has a result, or a failure of some kind. -/
def FailsOnly (x : Traced α) (F : Failure → Prop) : Prop := ∀ f, x.result = .error f → F f

theorem failsOnly_of_ok {x : Traced α} {a : α} (ok : x.result = .ok a) : x.FailsOnly F := by
  intro f fails
  cases ok.symm.trans fails

theorem failsOnly_pure (a : α) : (pure a : Traced α).FailsOnly F := failsOnly_of_ok rfl

/-- A sequence fails in no other ways than its parts. -/
theorem FailsOnly.bind {x : Traced α} {next : α → Traced β} (first : x.FailsOnly F)
    (after : ∀ a, x.result = .ok a → (next a).FailsOnly F) : (x >>= next).FailsOnly F := by
  intro f fails
  rcases result_bind_eq_error.1 fails with at_first | ⟨a, found, at_next⟩
  · exact first f at_first
  · exact after a found f at_next

theorem failsOnly_mapM {run : α → Traced β} {xs : List α} (each : ∀ x ∈ xs, (run x).FailsOnly F) :
    (xs.mapM run).FailsOnly F := by
  induction xs with
  | nil => exact failsOnly_pure []
  | cons x xs ih =>
      obtain ⟨here, later⟩ := List.forall_mem_cons.1 each
      rw [List.mapM_cons]
      exact here.bind fun _ _ => (ih later).bind fun _ _ => failsOnly_pure _

end Traced

end SchemaCodegen
