import SchemaCodegen.Data.Anchors
import SchemaCodegen.Reference.Pointer

/-!
# Places

Two containers with the same contents are not the same container.  A `Place` says which
one is meant: a stored container by its anchor, any other by the root it is found under
and the steps that lead to it.  Since each container that can be reached in two ways is
stored, two places differ exactly when the containers do.

`Located` is a value together with the way to it, and `Located.follow?` walks a pointer.
-/

namespace SchemaCodegen

/-- What a place is counted from: a schema given on its own, or a document. -/
inductive Root where
  | schema
  | document
deriving DecidableEq, Repr

/-- Where a container is.  The steps are numbers of entries or items, the last one
first. -/
inductive Place where
  | anchor (n : Nat)
  | below (root : Root) (steps : List Nat)
deriving DecidableEq, Repr

/-- The anchor, if the place is a stored container's. -/
def Place.anchor? : Place → Option Nat
  | .anchor n => some n
  | .below _ _ => none

/-- A value and the way to it. -/
structure Located where
  root : Root
  steps : List Nat := []
  value : Value

namespace Located

/-- Where a value is: at its anchor, or at the end of the way to it. -/
def place (l : Located) : Place :=
  match l.value with
  | .aliasTo n => .anchor n
  | _ => .below l.root l.steps

/-- The part with a number of a located value. -/
def part (l : Located) (i : Nat) (v : Value) : Located := ⟨l.root, i :: l.steps, v⟩

@[simp] theorem value_part (l : Located) (i : Nat) (v : Value) : (l.part i v).value = v := rfl

/-- The part of a value under a key. -/
def under? (l : Located) : (number : Nat) → Entries → (key : String) → Option Located
  | _, [], _ => none
  | i, (k, v) :: rest, key =>
    if k = .string key then some (l.part i v) else l.under? (i + 1) rest key

/-- Looking up a key finds the same value with and without places. -/
theorem map_value_under? (l : Located) (i : Nat) (es : Entries) (key : String) :
    (l.under? i es key).map Located.value = Entries.get? es key := by
  induction es generalizing i with
  | nil => rfl
  | cons e rest ih =>
    obtain ⟨k, v⟩ := e
    rw [under?, Entries.get?_cons]
    split
    · rfl
    · exact ih (i + 1)

/-- One step of a pointer: into an object by a key, into a list by an index. -/
def step? (g : Anchors) (l : Located) (segment : String) : Except Failure (Option Located) :=
  match g.look l.value with
  | .object es => .ok (l.under? 0 es segment)
  | .list xs => (segmentIndex? segment).map fun index =>
      index.bind fun i => xs[i]?.map (l.part i)
  | _ => .ok none

/-- The value that the segments of a pointer lead to. -/
def follow? (g : Anchors) : Located → (segments : List String) → Except Failure (Option Located)
  | l, [] => .ok (some l)
  | l, segment :: rest => do
    match ← l.step? g segment with
    | some next => next.follow? g rest
    | none => .ok none

end Located

end SchemaCodegen
