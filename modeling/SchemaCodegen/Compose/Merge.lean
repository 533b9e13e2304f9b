import SchemaCodegen.Schema.Classify

/-!
# Merging schemas

Two schemas are merged into one that has the keywords of both.  Properties are combined,
the second schema's winning where both have one of a name; required names are united in
order; of every other keyword the first schema's value stays.

The required names of the result are always a list of names, each once (`normalized`).
-/

namespace SchemaCodegen

/-- A schema whose required names, if it has any entry for them, are a list of names. -/
def normalized (g : Anchors) (es : Entries) : Entries :=
  if Entries.has es "required" then
    Entries.put es (.string "required") (.strings (requiredNames g es))
  else es

/-- The names of a list and then those of another that are new. -/
def unite (names more : List String) : List String := names ++ more.filter (· ∉ names)

/-- A schema with one keyword of a second schema merged in, which requires `names`. -/
def mergeEntry (g : Anchors) (names : List String) (merged : Entries) (e : Scalar × Value) :
    Entries :=
  match (if e.1 = .string "properties" then g.entries? e.2 else none) with
  | some properties =>
    let own := (g.objectAt? merged "properties").getD []
    Entries.put merged e.1 (.object (Entries.putAll own properties))
  | none =>
    if e.1 = .string "required" then
      Entries.put merged e.1 (.strings (unite (requiredNames g merged) names))
    else if Entries.hasKey merged e.1 then merged
    else Entries.put merged e.1 e.2

/-- Two schemas merged. -/
def mergeSchemas (g : Anchors) (first second : Entries) : Entries :=
  second.foldl (mergeEntry g (requiredNames g second)) (normalized g first)

/-- The results of merging schemas one after the other, beginning with an empty one. -/
def mergeSequence (g : Anchors) (first : Entries) : List Entries → List Entries
  | [] => []
  | es :: rest =>
    let merged := mergeSchemas g first es
    merged :: mergeSequence g merged rest

/-- The parts of data that is a sequence: the items of a list, the characters of a text, the
keys of an object. -/
def partsOf? (g : Anchors) (v : Value) : Option (List Value) :=
  match g.look v with
  | .list xs => some xs
  | .pair a b => some [a, b]
  | .object es => some ((Entries.keys es).map Value.scalar)
  | .string s => some (s.toList.map fun c => .string (String.singleton c))
  | _ => none

/-- An entry given as a sequence of a key and a value. -/
def entryOfPair (g : Anchors) (pair : Value) : Except Failure (Scalar × Value) :=
  match partsOf? g pair with
  | some [.scalar k, v] => .ok (k, v)
  | some [_, _] => .error .wrongKind
  | some _ => .error .unreadable
  | none => .error .wrongKind

/-- The entries of a schema that may also be given as a list of pairs. -/
def entriesGiven (g : Anchors) (v : Value) : Except Failure Entries :=
  match g.look v with
  | .object es => .ok es
  | .list xs => (xs.mapM (entryOfPair g)).map Entries.ofPairs
  | .string s => if s.isEmpty then .ok [] else .error .unreadable
  | _ => .error .wrongKind

end SchemaCodegen
