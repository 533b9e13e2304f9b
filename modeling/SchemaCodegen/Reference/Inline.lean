import SchemaCodegen.Reference.Occurrences

/-!
# Inlining references

A value is copied with its references replaced by what they refer to, and so on inside
the replacements.  A reference that comes back on the way from the root, through the
replacements, is a **repeat** and is not replaced again.

What becomes of a repeat and of a reference that does not resolve differs between the two
uses, and an `Inlining` says it:

* `dereference` leaves both as they are, the second with a notice;
* `breakCycles` replaces a repeat by a marker, and works on inside a reference that does
  not resolve.  Without a document no reference resolves.

### Why it ends

A reference is entered only while it is fresh.  Between two references a container is
entered only once on the way; where one is met inside itself without a reference between,
the result would have no end, and the failure is `tooDeep`.
-/

namespace SchemaCodegen

/-- What inlining makes of references. -/
structure Inlining where
  /-- What a reference refers to. -/
  target : String → Traced (Option Value)
  /-- What stands for a repeat of a reference, which is given too. -/
  repeated : String → Value → Value
  /-- The entries of a reference that does not resolve are worked on. -/
  descends : Bool

namespace Inlining

mutual

/-- A value with its references inlined.  Below it `fresh` references are not taken yet,
and `active` anchors are entered since the last one was. -/
def value (p : Inlining) (g : Anchors) (fresh : List String) (active : List Nat) (v : Value) :
    Traced Value :=
  match _h : g.entries? v with
  | some es =>
    match Entries.string? es "$ref" with
    | some ref =>
      if _new : ref ∈ fresh then do
        match ← p.target ref with
        | some t => p.value g (taking ref fresh) [] t
        | none =>
          if p.descends then do
            pure (.object (← p.entries g (taking ref fresh) [] es))
          else pure v
      else pure (p.repeated ref v)
    | none =>
      match _in : g.enter? active v with
      | some inner => do pure (.object (← p.entries g fresh inner es))
      | none => Traced.fail .tooDeep
  | none =>
    match _h : g.items? v with
    | some xs =>
      match _in : g.enter? active v with
      | some inner => do pure (.list (← p.items g fresh inner xs))
      | none => Traced.fail .tooDeep
    | none => pure v
termination_by (fresh.length, g.unseen active, 2 * v.weight)
decreasing_by
  · exact Prod.Lex.left _ _ (length_taking_lt _new)
  · exact Prod.Lex.left _ _ (length_taking_lt _new)
  · apply Prod.Lex.right
    exact Anchors.lex_of_enter? _in fun hv => by
      have := Anchors.entryWeights_lt_of_entries? _h hv
      omega
  · apply Prod.Lex.right
    exact Anchors.lex_of_enter? _in fun hv => by
      have := Anchors.weights_lt_of_items? _h hv
      omega

/-- The items of a list with their references inlined. -/
def items (p : Inlining) (g : Anchors) (fresh : List String) (active : List Nat) :
    List Value → Traced (List Value)
  | [] => pure []
  | v :: rest => do
    let w ← p.value g fresh active v
    let ws ← p.items g fresh active rest
    pure (w :: ws)
termination_by xs => (fresh.length, g.unseen active, 2 * Value.weights xs + 1)
decreasing_by
  all_goals
    have := v.weight_pos
    refine Prod.Lex.right _ (Prod.Lex.right _ ?_)
    simp only [Value.weights]
    omega

/-- The entries of an object with their references inlined. -/
def entries (p : Inlining) (g : Anchors) (fresh : List String) (active : List Nat) :
    List (Scalar × Value) → Traced Entries
  | [] => pure []
  | (k, v) :: rest => do
    let w ← p.value g fresh active v
    let ws ← p.entries g fresh active rest
    pure ((k, w) :: ws)
termination_by es => (fresh.length, g.unseen active, 2 * Value.entryWeights es + 1)
decreasing_by
  all_goals
    have := v.weight_pos
    refine Prod.Lex.right _ (Prod.Lex.right _ ?_)
    simp only [Value.entryWeights]
    omega

end

end Inlining

/-! ### The two uses -/

/-- Leaving repeats and what does not resolve as it is. -/
def Inlining.plain (g : Anchors) (document : Value) : Inlining where
  target ref := do
    let found ← resolve g ref document
    if found.isNone then Traced.note (.leftInPlace ref)
    pure found
  repeated _ v := v
  descends := false

/-- A copy of a value with every reference that resolves inlined, except repeats. -/
def dereference (g : Anchors) (v document : Value) : Traced Value :=
  (Inlining.plain g document).value g (g.references v ++ g.references document) [] v

/-- The type that a marker for a repeat has. -/
def circularType : String := "circular"

/-- The marker for a repeat of a reference. -/
def circularMarker (ref : String) : Value :=
  .record [("type", .string circularType), ("ref", .string ref)]

/-- The reference that a schema marks as a repeat, if it is a marker. -/
def markedReference? (g : Anchors) (schema : Value) : Option String := do
  let es ← g.entries? schema
  if Entries.string? es "type" = some circularType then Entries.string? es "ref" else none

/-- Marking repeats, and working on inside what does not resolve. -/
def Inlining.marking (g : Anchors) (document : Option Value) : Inlining where
  target ref := match document with
    | some document => resolve g ref document
    | none => pure none
  repeated ref _ := circularMarker ref
  descends := true

/-- A copy of a schema with repeats replaced by markers. -/
def breakCycles (g : Anchors) (schema : Value) (document : Option Value) : Traced Value :=
  (Inlining.marking g document).value g
    (g.references schema ++ (document.map g.references).getD []) [] schema

end SchemaCodegen
