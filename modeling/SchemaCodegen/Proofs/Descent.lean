import Mathlib.Data.Fintype.Card
import Mathlib.Data.Set.Finite.Basic
import Mathlib.Logic.Relation
import SchemaCodegen.Proofs.Traced

/-!
# Descents

Some computations descend from one state to others, with a limit on how deep.  Without the
limit such a descent ends exactly when the limit stops to matter: from some limit on, the
computation is the same and does not fail for want of depth (`Traced.Settles`).

* `Traced.Ends`, `Traced.Settles` are kept by sequencing, so a computation settles when the ones
  it is made of do.
* Where each step lowers a number, no state comes back to itself (`not_transGen_self`), nor does
  any on the way (`not_transGen_of_way`).
* A descent in which every chain of states ends is accessible.  Where the states carry what was
  taken on the way, and this can only grow, and the rest of the state is one of finitely many
  values, it suffices that no state comes back to itself (`acc_of_acyclic`).
-/

namespace SchemaCodegen

open Relation

namespace Traced

variable {α β : Type} {x : Traced α} {f : α → Traced β} {run : Nat → Traced α}

/-! ### Computations that end -/

/-- The computation does not fail for want of depth. -/
def Ends (x : Traced α) : Prop := x.result ≠ .error .tooDeep

theorem ends_of_ok {a : α} (h : x.result = .ok a) : x.Ends := by
  unfold Ends
  rw [h]
  nofun

theorem ends_pure (a : α) : (pure a : Traced α).Ends := ends_of_ok rfl

theorem ends_fail {e : Failure} (other : e ≠ .tooDeep) : (fail e : Traced α).Ends := by
  intro same
  exact other (Except.error.inj same)

theorem ends_bind (first : x.Ends) (then_ends : ∀ a, x.result = .ok a → (f a).Ends) :
    (x >>= f).Ends := by
  unfold Ends at first ⊢
  rw [result_bind]
  cases found : x.result with
  | error e =>
      rintro ⟨⟩
      exact first found
  | ok a => exact then_ends a found

theorem ends_mapM {xs : List α} (each : ∀ a ∈ xs, (f a).Ends) : (xs.mapM f).Ends := by
  induction xs with
  | nil => exact ends_pure []
  | cons a xs ih =>
      obtain ⟨here, later⟩ := List.forall_mem_cons.1 each
      rw [List.mapM_cons]
      refine ends_bind here fun _ _ => ends_bind (ih later) fun _ _ => ends_pure _

/-- The computation does not fail for want of depth, and a result has a property. -/
def EndsIn (x : Traced α) (P : α → Prop) : Prop := x.Ends ∧ ∀ a, x.result = .ok a → P a

section EndsIn

variable {P : α → Prop} {Q : β → Prop}

theorem Ends.endsIn (ends : x.Ends) : x.EndsIn fun a => x.result = .ok a := ⟨ends, fun _ ok => ok⟩

theorem endsIn_pure {a : α} (has : P a) : (pure a : Traced α).EndsIn P := by
  refine ⟨ends_pure a, ?_⟩
  rintro _ ⟨⟩
  exact has

theorem endsIn_fail {e : Failure} (other : e ≠ .tooDeep) : (fail e : Traced α).EndsIn P := by
  refine ⟨ends_fail other, fun a ok => ?_⟩
  cases ok

theorem EndsIn.bind (first : x.EndsIn P) (then_ends : ∀ a, P a → (f a).EndsIn Q) :
    (x >>= f).EndsIn Q := by
  refine ⟨ends_bind first.1 fun a ok => (then_ends a (first.2 a ok)).1, fun b ok => ?_⟩
  obtain ⟨a, found, rest⟩ := result_bind_eq_ok.1 ok
  exact (then_ends a (first.2 a found)).2 b rest

theorem endsIn_mapM {xs : List α} (each : ∀ a ∈ xs, (f a).EndsIn Q) :
    (xs.mapM f).EndsIn fun bs => ∀ b ∈ bs, Q b := by
  refine ⟨ends_mapM fun a mem => (each a mem).1, fun bs ok b mem => ?_⟩
  obtain ⟨a, at_a, found⟩ := exists_of_mem_mapM ok mem
  exact (each a at_a).2 b found

end EndsIn

/-! ### Computations that settle -/

/-- From some limit on, the computation is the same and does not fail for want of depth. -/
def Settles (run : Nat → Traced α) : Prop :=
  ∃ limit, (run limit).Ends ∧ ∀ n, limit ≤ n → run n = run limit

theorem settles_const (ends : x.Ends) : Settles fun _ => x := ⟨0, ends, fun _ _ => rfl⟩

/-- The first limit is one too few for any step. -/
theorem settles_of_succ (settles : Settles fun n => run (n + 1)) : Settles run := by
  obtain ⟨limit, ends, same⟩ := settles
  refine ⟨limit + 1, ends, fun n later => ?_⟩
  obtain ⟨m, rfl⟩ : ∃ m, n = m + 1 := ⟨n - 1, by omega⟩
  exact same m (by omega)

/-- After a failure nothing follows. -/
theorem bind_of_error {e : Failure} (h : x.result = .error e) (f f' : α → Traced β) :
    x >>= f = x >>= f' := by
  obtain ⟨result, notices⟩ := x
  cases h
  rfl

/-- After a result the rest follows from it. -/
theorem bind_congr_of_ok {a : α} (h : x.result = .ok a) {f f' : α → Traced β} (same : f a = f' a) :
    x >>= f = x >>= f' := by
  obtain ⟨result, notices⟩ := x
  cases h
  show Traced.mk (f a).result (notices ++ (f a).notices) = ⟨(f' a).result, notices ++ (f' a).notices⟩
  rw [same]

/-- A sequence settles when its parts do. -/
theorem Settles.bind {next : Nat → α → Traced β} (first : Settles run)
    (then_settles : ∀ a n, (run n).result = .ok a → Settles fun m => next m a) :
    Settles fun n => run n >>= next n := by
  obtain ⟨limit, ends, same⟩ := first
  cases found : (run limit).result with
  | error e =>
      refine ⟨limit, ?_, fun n later => ?_⟩
      · exact ends_bind ends fun a ok => absurd (found.symm.trans ok) nofun
      · dsimp only
        rw [same n later]
        exact bind_of_error found _ _
  | ok a =>
      obtain ⟨limit', ends', same'⟩ := then_settles a limit found
      refine ⟨max limit limit', ?_, fun n later => ?_⟩
      · refine ends_bind ?_ fun b ok => ?_
        · rw [same _ (Nat.le_max_left _ _)]
          exact ends
        · rw [same _ (Nat.le_max_left _ _), found] at ok
          cases ok
          have later : next (max limit limit') a = next limit' a :=
            same' _ (Nat.le_max_right limit limit')
          rw [later]
          exact ends'
      · dsimp only
        rw [same n (by omega), same _ (Nat.le_max_left _ _)]
        refine bind_congr_of_ok found ?_
        exact (same' n (by omega)).trans (same' _ (Nat.le_max_right _ _)).symm

/-- What follows a computation without a limit settles by itself. -/
theorem settles_bind {next : Nat → α → Traced β} (ends : x.Ends)
    (then_settles : ∀ a, x.result = .ok a → Settles fun m => next m a) :
    Settles fun n => x >>= next n :=
  (settles_const ends).bind fun a _ ok => then_settles a ok

/-- A list of computations settles when each of them does. -/
theorem settles_mapM {next : Nat → α → Traced β} {xs : List α}
    (each : ∀ a ∈ xs, Settles fun n => next n a) : Settles fun n => xs.mapM (next n) := by
  induction xs with
  | nil => exact settles_const (ends_pure [])
  | cons a xs ih =>
      obtain ⟨here, later⟩ := List.forall_mem_cons.1 each
      simp only [List.mapM_cons]
      refine here.bind fun _ _ _ => (ih later).bind fun _ _ _ => settles_const (ends_pure _)

end Traced

/-! ### Descents of a number -/

section Falling

variable {σ : Type} {R : σ → σ → Prop} {P : Nat → σ → Prop} {s t : σ} {n : Nat}

/-- What holds with a lower number after each step does so after several. -/
theorem exists_lt_of_transGen (falls : ∀ n s t, P n s → R s t → ∃ m < n, P m t) (has : P n s)
    (way : TransGen R s t) : ∃ m < n, P m t := by
  induction way with
  | single step => exact falls n _ _ has step
  | tail _ step ih =>
      obtain ⟨m, less, here⟩ := ih
      obtain ⟨k, least, there⟩ := falls m _ _ here step
      exact ⟨k, least.trans less, there⟩

/-- What holds with a lower number after each step does not hold where steps lead back. -/
theorem not_transGen_self (falls : ∀ n s t, P n s → R s t → ∃ m < n, P m t) (has : P n s) :
    ¬ TransGen R s s := by
  intro loop
  induction n using Nat.strongRecOn with
  | _ n lower_fails =>
      obtain ⟨m, less, again⟩ := exists_lt_of_transGen falls has loop
      exact lower_fails m less again

/-- Nor is there a state on the way that steps lead back to. -/
theorem not_transGen_of_way (falls : ∀ n s t, P n s → R s t → ∃ m < n, P m t) (has : P n s)
    (way : ReflTransGen R s t) : ¬ TransGen R t t := by
  obtain rfl | way := reflTransGen_iff_eq_or_transGen.1 way
  · exact not_transGen_self falls has
  · obtain ⟨m, -, later⟩ := exists_lt_of_transGen falls has way
    exact not_transGen_self falls later

end Falling

/-! ### Descents without cycles -/

section Acyclic

variable {κ β : Type} {R : κ × β → κ × β → Prop}

/-- Several steps reduce what is left, or keep it and are steps of the rest of the state alone. -/
theorem lt_or_transGen {Q : β → β → Prop} (left : κ → Nat) {s t : κ × β}
    (step : ∀ t u, ReflTransGen R s t → R t u → left u.1 < left t.1 ∨ u.1 = t.1 ∧ Q t.2 u.2)
    (way : TransGen R s t) : left t.1 < left s.1 ∨ t.1 = s.1 ∧ TransGen Q s.2 t.2 := by
  induction way with
  | single last => exact (step _ _ .refl last).imp_right fun ⟨same, rest⟩ => ⟨same, .single rest⟩
  | tail way last ih =>
      obtain fewer | ⟨same, rest⟩ := step _ _ way.to_reflTransGen last
      · refine .inl ?_
        obtain before | ⟨kept, -⟩ := ih
        · exact fewer.trans before
        · exact kept ▸ fewer
      · refine ih.imp (fun before => ?_) fun ⟨kept, before⟩ => ?_
        · exact same ▸ before
        · exact ⟨same.trans kept, before.tail rest⟩

/-- Where a state comes back to itself, the steps are steps of the rest of the state alone. -/
theorem transGen_of_loop {Q : β → β → Prop} (left : κ → Nat) {s : κ × β}
    (step : ∀ t u, ReflTransGen R s t → R t u → left u.1 < left t.1 ∨ u.1 = t.1 ∧ Q t.2 u.2)
    (loop : TransGen R s s) : TransGen Q s.2 s.2 := by
  obtain fewer | ⟨-, rest⟩ := lt_or_transGen left step loop
  · exact absurd fewer (Nat.lt_irrefl _)
  · exact rest

/-- On a finite set that a relation does not leave, a relation without cycles has no endless
chains. -/
theorem acc_of_finite {σ : Type} {R : σ → σ → Prop} {S : Set σ} (finite : S.Finite)
    (acyclic : ∀ s ∈ S, ¬ TransGen R s s) {s : σ} (mem : s ∈ S) :
    Acc (fun t u => t ∈ S ∧ R u t) s := by
  have : Finite S := finite
  let below : S → S → Prop := fun t u => TransGen R u t
  have : IsTrans S below := ⟨fun _ _ _ first second => second.trans first⟩
  have : Std.Irrefl below := ⟨fun t loop => acyclic t t.2 loop⟩
  have ends : Acc below ⟨s, mem⟩ := (Finite.wellFounded_of_trans_of_irrefl below).apply _
  generalize same : (⟨s, mem⟩ : S) = t at ends
  induction ends generalizing s with
  | intro t _ ih =>
      subst same
      exact ⟨_, fun u step => ih ⟨u, step.1⟩ (.single step.2) step.1 rfl⟩

/-- A descent has no endless chains when each step keeps or reduces what is left, the rest of the
state is one of finitely many values, and no state comes back to itself. -/
theorem acc_of_acyclic (left : κ → Nat) {values : Set β} (finite : values.Finite) {s : κ × β}
    (inside : ∀ t, ReflTransGen R s t → t.2 ∈ values)
    (step : ∀ t u, ReflTransGen R s t → R t u → u.1 = t.1 ∨ left u.1 < left t.1)
    (acyclic : ∀ t, ReflTransGen R s t → ¬ TransGen R t t) : Acc (fun t u => R u t) s := by
  -- Steps that reduce what is left are for the outer induction; those that keep it stay in a
  -- finite set.
  induction count : left s.1 using Nat.strongRecOn generalizing s with
  | _ count fewer =>
      subst count
      let level : Set (κ × β) := {t | ReflTransGen R s t ∧ t.1 = s.1}
      have finite_level : level.Finite := by
        refine (finite.image fun v => (s.1, v)).subset ?_
        rintro ⟨k, v⟩ ⟨reach, same⟩
        exact ⟨v, inside _ reach, Prod.ext same.symm rfl⟩
      have in_level := acc_of_finite finite_level (fun t mem => acyclic t mem.1)
        (show s ∈ level from ⟨.refl, rfl⟩)
      have all (t : κ × β) (ends : Acc (fun t u => t ∈ level ∧ R u t) t) (mem : t ∈ level) :
          Acc (fun t u => R u t) t := by
        induction ends with
        | intro t _ ih =>
            refine ⟨t, fun u edge => ?_⟩
            have reach : ReflTransGen R s u := mem.1.tail edge
            obtain kept | reduced := step t u mem.1 edge
            · have u_mem : u ∈ level := ⟨reach, kept.trans mem.2⟩
              exact ih u ⟨u_mem, edge⟩ u_mem
            · rw [mem.2] at reduced
              exact fewer _ reduced (fun t later => inside t (reach.trans later))
                (fun t u later => step t u (reach.trans later))
                (fun t later => acyclic t (reach.trans later)) rfl
      exact all s in_level ⟨.refl, rfl⟩

end Acyclic

end SchemaCodegen
