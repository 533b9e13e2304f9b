import SchemaCodegen.Data.Value

/-!
# Layers of settings

Settings come in layers, each a tree of entries, and a later layer has precedence over an
earlier one.  `mergeLayer` lays one over another: where both have an object, the objects
are merged, and anywhere else the later layer's value stands.  Keys keep the place at which
they came first.

Main statements: what stands under a key after merging (`valueAt?_mergeLayer_single`), and
that merging with an empty layer changes nothing.
-/

namespace SchemaCodegen

/-- The value under a key of any kind. -/
def Entries.valueAt? : Entries → Scalar → Option Value
  | [], _ => none
  | (k, v) :: rest, key => if sameKey k key then some v else valueAt? rest key

mutual

/-- A value laid over what stands in its place. -/
def mergeValue (below : Option Value) : Value → Value
  | .object layer =>
    match below with
    | some (.object base) => .object (mergeLayer base layer)
    | _ => .object layer
  | .scalar s => .scalar s
  | .set xs => .set xs
  | .pair a b => .pair a b
  | .list xs => .list xs
  | .aliasTo n => .aliasTo n

/-- A layer laid over entries. -/
def mergeLayer (base : Entries) : List (Scalar × Value) → Entries
  | [] => base
  | (k, v) :: rest =>
    mergeLayer (Entries.put base k (mergeValue (Entries.valueAt? base k) v)) rest

end

/-- Layers laid one over the other, the first at the bottom. -/
def mergeLayers (layers : List Entries) : Entries := layers.foldl mergeLayer []

@[simp] theorem mergeLayer_nil (base : Entries) : mergeLayer base [] = base := by
  simp [mergeLayer]

theorem mergeLayer_cons (base : Entries) (k : Scalar) (v : Value) (rest : Entries) :
    mergeLayer base ((k, v) :: rest)
      = mergeLayer (Entries.put base k (mergeValue (Entries.valueAt? base k) v)) rest := by
  simp [mergeLayer]

@[simp] theorem mergeLayers_nil : mergeLayers [] = [] := rfl

/-- A layer more comes on top of the others. -/
theorem mergeLayers_concat (layers : List Entries) (layer : Entries) :
    mergeLayers (layers ++ [layer]) = mergeLayer (mergeLayers layers) layer := by
  simp [mergeLayers]

/-- What is put under a key is found there. -/
theorem Entries.valueAt?_put_self (es : Entries) (k : Scalar) (v : Value) :
    Entries.valueAt? (Entries.put es k v) k = some v := by
  induction es with
  | nil => simp [Entries.put, Entries.valueAt?]
  | cons e rest ih =>
    obtain ⟨j, w⟩ := e
    unfold Entries.put
    split
    · next h => simp [Entries.valueAt?, h]
    · next h => simpa [Entries.valueAt?, h] using ih

/-- A layer with one entry leaves under its key the merged value. -/
theorem valueAt?_mergeLayer_single (base : Entries) (k : Scalar) (v : Value) :
    Entries.valueAt? (mergeLayer base [(k, v)]) k
      = some (mergeValue (Entries.valueAt? base k) v) := by
  rw [mergeLayer_cons, mergeLayer_nil, Entries.valueAt?_put_self]

/-- The entries in which a value stands at the end of a path of keys. -/
def nestedAt : (path : List String) → Value → Entries
  | [], _ => []
  | [key], v => [(.string key, v)]
  | key :: rest, v => [(.string key, .object (nestedAt rest v))]

end SchemaCodegen
