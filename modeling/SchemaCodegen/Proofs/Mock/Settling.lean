import SchemaCodegen.Mock.Sample
import SchemaCodegen.Proofs.Descent

/-!
# Sampling that settles

A sampling settles when it does from every state of the random source (`Sampling.Settles`).
The laws are those of traced computations, with the source passed on.

Samples of primitive schemas never fail for want of depth: bounds and lengths may be too great
for the arithmetic, and a number may have no neighbouring integer, but nothing there descends.
-/

namespace SchemaCodegen.Mock

open Traced

variable {α β : Type} {es : Entries}

namespace Sampling

variable {x : Sampling α} {f : α → Sampling β} {run : Nat → Sampling α}

/-- The sampling does not fail for want of depth, whatever the random source. -/
def Ends (x : Sampling α) : Prop := ∀ source, Traced.Ends (x.run source)

theorem ends_pure (a : α) : (pure a : Sampling α).Ends := fun _ => Traced.ends_pure _

theorem ends_bind (first : x.Ends) (then_ends : ∀ a, (f a).Ends) : (x >>= f).Ends :=
  fun source => Traced.ends_bind (first source) fun (a, rest) _ => then_ends a rest

theorem ends_lift {t : Traced α} (ends : t.Ends) : (lift t).Ends :=
  fun _ => Traced.ends_bind ends fun _ _ => Traced.ends_pure _

/-- A computation that draws nothing leaves the source as it is. -/
theorem result_lift {t : Traced α} {a : α} (found : t.result = .ok a) (source : Option Twister) :
    ((lift t).run source).result = .ok (a, source) :=
  result_bind_eq_ok.2 ⟨a, found, rfl⟩

theorem result_ofExcept {r : Except Failure α} {a : α} (found : r = .ok a)
    (source : Option Twister) : ((ofExcept r).run source).result = .ok (a, source) :=
  result_bind_eq_ok.2 ⟨a, found, rfl⟩

/-- What follows a result goes on from it, with the source that is left. -/
theorem result_bind_of_ok {a : α} {source rest : Option Twister}
    (found : (x.run source).result = .ok (a, rest)) :
    ((x >>= f).run source).result = ((f a).run rest).result := by
  rw [StateT.run_bind, Traced.result_bind, found]
  rfl

/-- A notice and a result. -/
theorem ends_note (n : Notice) (a : α) :
    Ends (do lift (Traced.note n); pure a : Sampling α) :=
  ends_bind (ends_lift (ends_of_ok (result_note n))) fun _ => ends_pure a

theorem ends_ofExcept {r : Except Failure α} (h : r ≠ .error .tooDeep) : (ofExcept r).Ends :=
  fun _ => Traced.ends_bind h fun _ _ => Traced.ends_pure _

theorem ends_drawOr (canonical : α) (draw : Draw α) : (drawOr canonical draw).Ends := by
  intro source
  cases source with
  | none => exact Traced.ends_pure _
  | some t => exact Traced.ends_pure _

theorem ends_isSeeded : isSeeded.Ends := fun _ => Traced.ends_pure _

/-- The sampling settles, whatever the random source. -/
def Settles (run : Nat → Sampling α) : Prop :=
  ∀ source, Traced.Settles fun n => (run n).run source

theorem settles_const (ends : x.Ends) : Settles fun _ => x :=
  fun source => Traced.settles_const (ends source)

/-- The first limit is one too few for any step. -/
theorem settles_of_succ (settles : Settles fun n => run (n + 1)) : Settles run :=
  fun source => Traced.settles_of_succ (settles source)

/-- A sequence settles when its parts do. -/
theorem Settles.bind {next : Nat → α → Sampling β} (first : Settles run)
    (then_settles : ∀ a, Settles fun n => next n a) : Settles fun n => run n >>= next n :=
  fun source => (first source).bind fun (a, rest) _ _ => then_settles a rest

/-- What follows a computation that draws nothing settles by itself. -/
theorem settles_lift_bind {t : Traced α} {next : Nat → α → Sampling β} (ends : t.Ends)
    (then_settles : ∀ a, t.result = .ok a → Settles fun n => next n a) :
    Settles fun n => lift t >>= next n := by
  intro source
  refine settles_bind (ends_lift ends source) fun (a, rest) ok => ?_
  obtain ⟨a', found, same⟩ := result_bind_eq_ok.1 ok
  cases same
  exact then_settles a found source

/-- A list of samplings settles when each of them does. -/
theorem settles_mapM {next : Nat → α → Sampling β} {xs : List α}
    (each : ∀ a ∈ xs, Settles fun n => next n a) : Settles fun n => xs.mapM (next n) := by
  induction xs with
  | nil => exact settles_const (ends_pure [])
  | cons a xs ih =>
      obtain ⟨here, later⟩ := List.forall_mem_cons.1 each
      simp only [List.mapM_cons]
      exact here.bind fun _ => (ih later).bind fun _ => settles_const (ends_pure _)

end Sampling

/-! ### Arithmetic -/

theorem bind_ne_tooDeep {r : Except Failure α} {f : α → Except Failure β}
    (first : r ≠ .error .tooDeep) (then_not : ∀ a, f a ≠ .error .tooDeep) :
    r >>= f ≠ .error .tooDeep := by
  cases r with
  | error e => exact first ∘ fun h => congrArg Except.error (Except.error.inj h)
  | ok a => exact then_not a

theorem map_ne_tooDeep {r : Except Failure α} {f : α → β} (h : r ≠ .error .tooDeep) :
    f <$> r ≠ .error .tooDeep := by
  rw [map_eq_pure_bind]
  exact bind_ne_tooDeep h nofun

theorem toBinary64_ne_tooDeep (n : Numeric) : n.toBinary64 ≠ .error .tooDeep := by
  unfold Numeric.toBinary64
  split
  · split <;> nofun
  · nofun

theorem combine_ne_tooDeep (exact_op : Int → Int → Int) (rounded : Binary64 → Binary64 → Binary64)
    (a b : Numeric) : Numeric.combine exact_op rounded a b ≠ .error .tooDeep := by
  unfold Numeric.combine
  split
  · nofun
  · exact bind_ne_tooDeep (toBinary64_ne_tooDeep _) fun _ =>
      bind_ne_tooDeep (toBinary64_ne_tooDeep _) nofun

theorem div_ne_tooDeep (a b : Numeric) : a.div b ≠ .error .tooDeep := by
  unfold Numeric.div
  split
  · dsimp only
    split <;> nofun
  · exact bind_ne_tooDeep (toBinary64_ne_tooDeep _) fun _ =>
      bind_ne_tooDeep (toBinary64_ne_tooDeep _) nofun

theorem neighbour_ne_tooDeep (x : Binary64) (n : Option Int) :
    Numeric.neighbour x n ≠ .error .tooDeep := by
  unfold Numeric.neighbour
  split
  · nofun
  · split <;> nofun

theorem floor_ne_tooDeep (n : Numeric) : n.floor ≠ .error .tooDeep := by
  cases n with
  | int n => nofun
  | float x => exact neighbour_ne_tooDeep x _

theorem ceil_ne_tooDeep (n : Numeric) : n.ceil ≠ .error .tooDeep := by
  cases n with
  | int n => nofun
  | float x => exact neighbour_ne_tooDeep x _

theorem truncate_ne_tooDeep (n : Numeric) : n.truncate ≠ .error .tooDeep := by
  cases n with
  | int n => nofun
  | float x => exact neighbour_ne_tooDeep x _

/-! ### Primitives -/

open Sampling

theorem boundOf_ne_tooDeep {move : Numeric → Numeric → Except Failure Numeric} (step : Numeric)
    (es : Entries) (bound exclusiveBound : String)
    (moved : ∀ a b, move a b ≠ .error .tooDeep) :
    boundOf move step es bound exclusiveBound ≠ .error .tooDeep := by
  unfold boundOf
  split
  · split
    · exact map_ne_tooDeep (moved _ _)
    · split
      · exact map_ne_tooDeep (moved _ _)
      · nofun
  · exact map_ne_tooDeep (moved _ _)
  · nofun

theorem snapped_ne_tooDeep (step high : Option Numeric) (n : Numeric) :
    snapped step high n ≠ .error .tooDeep := by
  unfold snapped
  split
  · nofun
  · refine bind_ne_tooDeep (div_ne_tooDeep _ _) fun _ => ?_
    refine bind_ne_tooDeep (ceil_ne_tooDeep _) fun _ => ?_
    refine bind_ne_tooDeep (combine_ne_tooDeep _ _ _ _) fun _ => ?_
    split
    · split
      · exact combine_ne_tooDeep _ _ _ _
      · nofun
    · nofun

theorem drawingRange_ne_tooDeep (low high : Option Numeric) :
    drawingRange low high ≠ .error .tooDeep := by
  cases high with
  | none => exact bind_ne_tooDeep (combine_ne_tooDeep _ _ _ _) nofun
  | some high => nofun

theorem integerRange_ne_tooDeep (lo hi : Numeric) : integerRange lo hi ≠ .error .tooDeep :=
  bind_ne_tooDeep (ceil_ne_tooDeep lo) fun _ => bind_ne_tooDeep (floor_ne_tooDeep hi) nofun

theorem betweenAt_ne_tooDeep (lo hi : Numeric) (fraction : Binary64) :
    betweenAt lo hi fraction ≠ .error .tooDeep :=
  bind_ne_tooDeep (combine_ne_tooDeep _ _ _ _) fun _ =>
    bind_ne_tooDeep (combine_ne_tooDeep _ _ _ _) fun _ => combine_ne_tooDeep _ _ _ _

theorem ends_startingNumber (integer : Bool) (low high : Option Numeric) :
    (startingNumber integer low high).Ends := by
  refine ends_bind ends_isSeeded fun seeded => ?_
  split
  · refine ends_bind (ends_ofExcept (drawingRange_ne_tooDeep low high)) fun (lo, hi) => ?_
    dsimp only
    split
    · exact ends_bind (ends_ofExcept (integerRange_ne_tooDeep lo hi)) fun _ =>
        ends_bind (ends_drawOr _ _) fun _ => ends_pure _
    · exact ends_bind (ends_drawOr _ _) fun fraction =>
        ends_bind (ends_ofExcept (betweenAt_ne_tooDeep lo hi fraction)) fun _ => ends_pure _
  · exact ends_pure _

theorem ends_sampleNumber (es : Entries) (integer : Bool) : (sampleNumber es integer).Ends := by
  unfold sampleNumber
  refine ends_bind (ends_ofExcept (boundOf_ne_tooDeep _ _ _ _ (combine_ne_tooDeep _ _))) fun _ => ?_
  refine ends_bind (ends_ofExcept (boundOf_ne_tooDeep _ _ _ _ (combine_ne_tooDeep _ _))) fun _ => ?_
  refine ends_bind (ends_startingNumber _ _ _) fun _ => ?_
  refine ends_bind (ends_ofExcept (snapped_ne_tooDeep _ _ _)) fun n => ?_
  split
  · exact ends_bind (ends_ofExcept (truncate_ne_tooDeep n)) fun _ => ends_pure _
  · exact ends_pure _

theorem ends_sampleText (es : Entries) : (sampleText es).Ends := by
  unfold sampleText
  split
  · exact ends_pure _
  · refine ends_bind ends_isSeeded fun seeded => ?_
    split
    · exact fun _ => Traced.ends_fail (by simp)
    · exact ends_bind (ends_drawOr _ _) fun _ => ends_pure _

theorem ends_samplePrimitive (es : Entries) (facts : Facts) : (samplePrimitive es facts).Ends := by
  unfold samplePrimitive
  split
  · exact ends_sampleText es
  · exact ends_sampleNumber es true
  · exact ends_sampleNumber es false
  · exact ends_bind (ends_drawOr _ _) fun _ => ends_pure _
  · exact ends_pure _
  · split
    · exact ends_sampleText es
    · exact ends_pure _

theorem ends_sampleLength (es : Entries) : (sampleLength es).Ends :=
  ends_bind (ends_drawOr _ _) fun _ => ends_pure _

end SchemaCodegen.Mock
