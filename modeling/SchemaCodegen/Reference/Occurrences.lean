import SchemaCodegen.Reference.Resolve

/-!
# References in data

The references that occur anywhere in a value, in the order of the document, are the
texts under `$ref` in the objects that can be reached through objects and lists.  A
container is not entered again inside itself, so the walk runs over the copy in which
nothing is shared (`Anchors.unshare`).

### Taking references

Walks that go from a reference to its target must not go round in circles.  They carry
the references that they have not taken yet, at first all those that occur at all; taking
one leaves fewer (`length_taking_lt`), which is why they end.

* `Anchors.references` — the references in a value.
* `dependencies` — the names of a dictionary that a schema refers to.
* `unresolvedReferences` — the references of a dictionary that do not resolve.
* `followReference` — the schema at the end of a chain of references.
-/

namespace SchemaCodegen

mutual

/-- The references in unshared data. -/
def Value.references : Value → List String
  | .object es => (Entries.string? es "$ref").toList ++ Value.entryReferences es
  | .list xs => Value.itemReferences xs
  | _ => []

/-- The references in the items of a list. -/
def Value.itemReferences : List Value → List String
  | [] => []
  | v :: rest => v.references ++ itemReferences rest

/-- The references in the values of an object. -/
def Value.entryReferences : List (Scalar × Value) → List String
  | [] => []
  | (_, v) :: rest => v.references ++ entryReferences rest

end

/-- The references in a value, each as often as it occurs. -/
def Anchors.references (g : Anchors) (v : Value) : List String := (g.unshare v).references

/-! ### Taking references -/

/-- The references that are left when one is taken. -/
def taking (ref : String) (fresh : List String) : List String := fresh.filter (· ≠ ref)

theorem mem_taking {ref other : String} {fresh : List String} :
    other ∈ taking ref fresh ↔ other ∈ fresh ∧ other ≠ ref := by
  simp [taking]

/-- Taking a reference leaves fewer. -/
theorem length_taking_lt {ref : String} {fresh : List String} (h : ref ∈ fresh) :
    (taking ref fresh).length < fresh.length := by
  unfold taking
  refine List.length_filter_lt_length_iff_exists.2 ⟨ref, h, by simp⟩

/-- The schema at the end of a chain of references, of which `fresh` are not taken yet.
A chain that comes back to a reference leads nowhere, and neither does one that ends in
data that is no object. -/
def followFresh (g : Anchors) (document : Value) (fresh : List String) (schema : Value) :
    Traced (Option Value) :=
  match reference? g schema with
  | none => pure (if g.isObject schema then some schema else none)
  | some ref =>
    if _new : ref ∈ fresh then do
      match ← resolve g ref document with
      | some target => followFresh g document (taking ref fresh) target
      | none =>
        Traced.note (.chainBroken ref)
        pure none
    else do
      Traced.note (.chainLoops ref)
      pure none
termination_by fresh.length
decreasing_by exact length_taking_lt _new

/-- The schema at the end of a chain of references. -/
def followReference (g : Anchors) (schema document : Value) : Traced (Option Value) :=
  followFresh g document ((reference? g schema).toList ++ g.references document) schema

/-! ### Dictionaries -/

/-- A list with each entry only where it occurs first. -/
def keepFirst {α : Type} [DecidableEq α] (xs : List α) : List α :=
  xs.foldl (fun kept x => if x ∈ kept then kept else kept ++ [x]) []

/-- The names of a dictionary that a schema refers to, each once, in order of first
occurrence. -/
def dependencies (g : Anchors) (schema : Value) (dictionary : Entries) : List String :=
  keepFirst ((g.references schema).filterMap fun ref =>
    (schemaName? ref).filter (Entries.has dictionary))

/-- The references of a dictionary that do not resolve, each with the name of the schema
it occurs in. -/
def unresolvedReferences (g : Anchors) (dictionary : Entries) (document : Value) :
    Traced (List (Scalar × String)) := do
  let found ← dictionary.mapM fun e =>
    (g.references e.2).filterMapM fun ref => do
      match ← resolve g ref document with
      | some _ => pure none
      | none => pure (some (e.1, ref))
  pure found.flatten

end SchemaCodegen
