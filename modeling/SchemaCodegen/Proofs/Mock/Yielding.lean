import SchemaCodegen.Proofs.Mock.Settling

/-!
# What samplings yield

A sampling yields a property when all its results have it, whatever the random source
(`Sampling.Yields`).  It may have no result: what `Yields` says is kept by sequencing and by lists of
samplings, and is as good as nothing for a failure.  That a list of samplings fails only where one of
them does is said apart (`Sampling.exists_error_of_mapM`).
-/

namespace SchemaCodegen.Mock.Sampling

open Traced

variable {α β : Type} {x : Sampling α} {f : α → Sampling β} {P : α → Prop} {Q : β → Prop}

/-- All results of the sampling have the property, whatever the random source. -/
def Yields (x : Sampling α) (P : α → Prop) : Prop :=
  ∀ source a rest, (x.run source).result = .ok (a, rest) → P a

theorem yields_pure {a : α} (has : P a) : (pure a : Sampling α).Yields P := by
  rintro source _ rest ⟨⟩
  exact has

theorem yields_fail (e : Failure) : (fail e : Sampling α).Yields P := by
  intro source a rest found
  cases found

theorem Yields.imp {P' : α → Prop} (yields : x.Yields P) (weaker : ∀ a, P a → P' a) :
    x.Yields P' :=
  fun source a rest found => weaker a (yields source a rest found)

/-- A sequence yields what its second part yields after any result of the first one. -/
theorem Yields.bind (first : x.Yields P) (next : ∀ a, P a → (f a).Yields Q) :
    (x >>= f).Yields Q := by
  intro source b rest found
  rw [StateT.run_bind] at found
  obtain ⟨⟨a, between⟩, at_first, found⟩ := result_bind_eq_ok.1 found
  exact next a (first source a between at_first) between b rest found

/-- Of the first part nothing need be known. -/
theorem yields_bind (next : ∀ a, (f a).Yields Q) : (x >>= f).Yields Q := by
  have anything : x.Yields fun _ => True := fun _ _ _ _ => trivial
  exact anything.bind fun a _ => next a

/-- What draws nothing yields its own result. -/
theorem yields_lift (t : Traced α) : (lift t).Yields fun a => t.result = .ok a := by
  intro source a rest found
  obtain ⟨b, at_b, same⟩ := result_bind_eq_ok.1 found
  cases same
  exact at_b

/-- A list of samplings yields a list, with what each of them yields beside what it samples. -/
theorem yields_mapM {R : α → β → Prop} {xs : List α} (each : ∀ a ∈ xs, (f a).Yields (R a)) :
    (xs.mapM f).Yields (List.Forall₂ R xs) := by
  induction xs with
  | nil => exact yields_pure .nil
  | cons a xs ih =>
      obtain ⟨here, later⟩ := List.forall_mem_cons.1 each
      rw [List.mapM_cons]
      exact here.bind fun b has => (ih later).bind fun bs aligned =>
        yields_pure (.cons has aligned)

/-- What all of them yield, each of the results has. -/
theorem yields_forall {xs : List α} (each : ∀ a ∈ xs, (f a).Yields Q) :
    (xs.mapM f).Yields fun ys => ∀ b ∈ ys, Q b := by
  refine (yields_mapM (R := fun _ => Q) each).imp fun ys aligned b mem => ?_
  obtain ⟨_, -, has⟩ := exists_of_mem_left aligned.flip mem
  exact has

/-- As many results as there are samplings. -/
theorem yields_length (xs : List α) (f : α → Sampling β) :
    (xs.mapM f).Yields fun ys => ys.length = xs.length := by
  have anything (a : α) : (f a).Yields fun _ => True := fun _ _ _ _ => trivial
  exact (yields_mapM fun a _ => anything a).imp fun _ aligned => aligned.length_eq.symm

/-- A sequence fails where its first part does, or its second part after a result of it. -/
theorem result_bind_eq_error {e : Failure} {source : Option Twister}
    (failed : ((x >>= f).run source).result = .error e) :
    (x.run source).result = .error e
      ∨ ∃ a rest, (x.run source).result = .ok (a, rest) ∧ ((f a).run rest).result = .error e := by
  rw [StateT.run_bind] at failed
  obtain at_first | ⟨⟨a, rest⟩, found, at_next⟩ := Traced.result_bind_eq_error.1 failed
  · exact .inl at_first
  · exact .inr ⟨a, rest, found, at_next⟩

/-- A list of samplings fails only where one of them does. -/
theorem exists_error_of_mapM {e : Failure} {xs : List α} {source : Option Twister}
    (failed : ((xs.mapM f).run source).result = .error e) :
    ∃ a ∈ xs, ∃ rest, ((f a).run rest).result = .error e := by
  induction xs generalizing source with
  | nil => cases failed
  | cons a xs ih =>
      rw [List.mapM_cons] at failed
      obtain here | ⟨_, rest, -, failed⟩ := result_bind_eq_error failed
      · exact ⟨a, List.mem_cons_self, source, here⟩
      · obtain later | ⟨_, rest', -, failed⟩ := result_bind_eq_error failed
        · obtain ⟨a', mem, found⟩ := ih later
          exact ⟨a', List.mem_cons_of_mem _ mem, found⟩
        · cases failed

end SchemaCodegen.Mock.Sampling
