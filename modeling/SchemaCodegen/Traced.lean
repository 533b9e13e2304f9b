import SchemaCodegen.Failure

/-!
# Traced computations

The engine degrades gracefully: where a schema is broken it goes on with less and leaves a
**notice**.  A `Traced` computation is its result, or the failure that ended it, together
with the notices given on the way, in order.

`Traced` is a lawful monad, and taking the result is a homomorphism into `Except Failure`
(`result_pure`, `result_bind`).  A statement on results can therefore forget the notices
altogether, and one on notices starts from `notices_bind`.
-/

namespace SchemaCodegen

/-- How much a notice matters. -/
inductive Level where
  | debug
  | warning
deriving DecidableEq, Repr

/-- The part of the engine that gives a notice. -/
inductive Topic where
  | nodes
  | references
  | cycles
  | composition
  | types
  | validators
  | mocks
  | forms
  | statistics
  | documents
  | configuration
deriving DecidableEq, Repr

/-- What a computation reports without failing. -/
inductive Notice where
  | containsItself
  | malformedReference (ref : String)
  | externalReference (ref : String)
  | unresolvable (ref : String)
  | chainLoops (ref : String)
  | chainBroken (ref : String)
  | leftInPlace (ref : String)
  | circularSchemas (names : List String)
  | circularMember (ref : String)
  | unresolvedMember (ref : String)
  | typeFallsBack (ref : String)
  | validatorFallsBack (ref : String)
  | mockDepth (depth : Nat)
  | noMockFor (ref : String)
  | noFormFor (ref : String)
  | unresolvedCount (n : Nat)
  | noNamedSchemas
  | projectApplied (path : String)
deriving DecidableEq, Repr

namespace Notice

/-- The part of the engine that a notice comes from. -/
def topic : Notice → Topic
  | .containsItself => .nodes
  | .malformedReference _ | .externalReference _ | .unresolvable _ | .chainLoops _
  | .chainBroken _ | .leftInPlace _ => .references
  | .circularSchemas _ => .cycles
  | .circularMember _ | .unresolvedMember _ => .composition
  | .typeFallsBack _ => .types
  | .validatorFallsBack _ => .validators
  | .mockDepth _ | .noMockFor _ => .mocks
  | .noFormFor _ => .forms
  | .unresolvedCount _ => .statistics
  | .noNamedSchemas => .documents
  | .projectApplied _ => .configuration

/-- How much a notice matters. -/
def level : Notice → Level
  | .containsItself | .unresolvable _ | .circularSchemas _ | .mockDepth _
  | .unresolvedCount _ | .noNamedSchemas | .projectApplied _ => .debug
  | _ => .warning

/-- A notice in words. -/
def message : Notice → String
  | .containsItself => "Schema object contains itself; cutting the cycle"
  | .malformedReference ref => "Malformed reference (expected '#/...'): " ++ ref
  | .externalReference ref => "External reference not supported: " ++ ref
  | .unresolvable ref => "Could not resolve reference " ++ ref
  | .chainLoops ref => "Reference chain loops back to " ++ ref
  | .chainBroken ref => "Broken reference chain at " ++ ref
  | .leftInPlace ref => "Leaving unresolved reference in place: " ++ ref
  | .circularSchemas names => "Circular schemas: " ++ ", ".intercalate names
  | .circularMember ref => "Skipping circular allOf member " ++ ref
  | .unresolvedMember ref => "Skipping unresolved allOf member " ++ ref
  | .typeFallsBack ref => "Unresolved reference " ++ ref ++ "; falling back to any"
  | .validatorFallsBack ref =>
    "Unresolved reference " ++ ref ++ "; falling back to z.unknown()"
  | .mockDepth depth => s!"Mock generation stopped at depth {depth}"
  | .noMockFor ref => "Cannot generate mock data for unresolved reference " ++ ref
  | .noFormFor ref => "Cannot build form for unresolved reference " ++ ref
  | .unresolvedCount n => s!"{n} unresolved reference(s)"
  | .noNamedSchemas => "Document declares no named schemas"
  | .projectApplied path => "Applying project config from " ++ path

end Notice

/-- A result, or the failure that ended the computation, and the notices given. -/
structure Traced (α : Type) where
  result : Except Failure α
  notices : List Notice

namespace Traced

variable {α β γ : Type}

/-- A result without notices. -/
@[inline] protected def pure (a : α) : Traced α := ⟨.ok a, []⟩

/-- A failure. -/
def fail (e : Failure) : Traced α := ⟨.error e, []⟩

/-- A notice. -/
def note (n : Notice) : Traced Unit := ⟨.ok (), [n]⟩

/-- The result of a computation that gives no notices. -/
def ofExcept (r : Except Failure α) : Traced α := ⟨r, []⟩

/-- One computation after the other; a failure ends the first one. -/
protected def bind (x : Traced α) (f : α → Traced β) : Traced β :=
  match x with
  | ⟨.ok a, before⟩ => ⟨(f a).result, before ++ (f a).notices⟩
  | ⟨.error e, before⟩ => ⟨.error e, before⟩

instance : Monad Traced where
  pure := Traced.pure
  bind := Traced.bind

@[simp] theorem result_pure (a : α) : (pure a : Traced α).result = .ok a := rfl
@[simp] theorem notices_pure (a : α) : (pure a : Traced α).notices = [] := rfl
@[simp] theorem result_fail (e : Failure) : (fail e : Traced α).result = .error e := rfl
@[simp] theorem notices_fail (e : Failure) : (fail e : Traced α).notices = [] := rfl
@[simp] theorem result_note (n : Notice) : (note n).result = .ok () := rfl
@[simp] theorem notices_note (n : Notice) : (note n).notices = [n] := rfl
@[simp] theorem result_ofExcept (r : Except Failure α) : (ofExcept r).result = r := rfl
@[simp] theorem notices_ofExcept (r : Except Failure α) : (ofExcept r).notices = [] := rfl

/-- Taking the result turns sequencing into the sequencing of results. -/
@[simp] theorem result_bind (x : Traced α) (f : α → Traced β) :
    (x >>= f).result = x.result >>= fun a => (f a).result := by
  obtain ⟨r, before⟩ := x
  cases r <;> rfl

/-- The notices of a sequence are those of its parts in order, as far as it gets. -/
theorem notices_bind (x : Traced α) (f : α → Traced β) :
    (x >>= f).notices = x.notices ++ (match x.result with
      | .ok a => (f a).notices
      | .error _ => []) := by
  obtain ⟨r, before⟩ := x
  cases r
  · exact (List.append_nil _).symm
  · rfl

@[ext] theorem ext {x y : Traced α} (hr : x.result = y.result) (hn : x.notices = y.notices) :
    x = y := by
  cases x; cases y; simp_all

instance : LawfulMonad Traced := LawfulMonad.mk' Traced
  (by intro α x; obtain ⟨r, before⟩ := x; cases r <;>
        simp [Functor.map, Traced.bind, Traced.pure])
  (by intro α β a f; rfl)
  (by
    intro α β γ x f g
    obtain ⟨r, before⟩ := x
    cases r with
    | error e => rfl
    | ok a =>
      show Traced.bind (Traced.bind _ _) _ = Traced.bind _ _
      simp only [Traced.bind]
      generalize f a = y
      obtain ⟨s, between⟩ := y
      cases s <;> simp [Bind.bind, Traced.bind])

/-- Taking the result turns mapping into mapping. -/
@[simp] theorem result_map (f : α → β) (x : Traced α) : (f <$> x).result = f <$> x.result := by
  obtain ⟨r, before⟩ := x
  cases r <;> rfl

end Traced

end SchemaCodegen
