import SchemaCodegen.Number.Shortest

/-!
# Document data

A document is read into one type of data, `Value`, whatever text it came from.
What JSON and YAML can say is kept as it was said: the order of the keys, whether
a number was written as an integer, keys that are not strings, dates, byte strings
and sets.

### Design decisions

**Sharing.**  A YAML document may name a container and use it again, also inside
itself, so its data is a graph.  A `Value` presents the graph the way the text
does: as a tree with leaves `aliasTo n`, which stand for the `n`-th container of the
document's `Anchors` (see `SchemaCodegen.Data.Anchors`).  Data in which nothing is
shared has no such leaf, and is an ordinary tree.

**Keys.**  An object is the list of its entries in order.  That no key occurs
twice is a property of the list and not part of the type: every reader
establishes it, `Entries.put` keeps it, and what needs it says so.
-/

namespace SchemaCodegen

/-- A day of the calendar. -/
structure Date where
  year : Nat
  month : Nat
  day : Nat
deriving DecidableEq, Inhabited, Repr

/-- A time on a day, with its distance from universal time in minutes if that is
known. -/
structure Timestamp where
  day : Date
  hour : Nat
  minute : Nat
  second : Nat
  microsecond : Nat
  offset : Option Int
deriving DecidableEq, Inhabited, Repr

/-- Data without parts, which is also what can be a key. -/
inductive Scalar where
  | null
  | bool (b : Bool)
  | int (n : Int)
  | float (x : Binary64)
  | string (s : String)
  | date (d : Date)
  | timestamp (t : Timestamp)
  | bytes (octets : List UInt8)
deriving DecidableEq, Inhabited, Repr

/-- Data of a document.  A `pair` is an entry of an ordered mapping that is kept as a
list, and an `aliasTo` stands for an anchored container. -/
inductive Value where
  | scalar (s : Scalar)
  | set (members : List Scalar)
  | pair (first second : Value)
  | list (items : List Value)
  | object (entries : List (Scalar × Value))
  | aliasTo (anchor : Nat)
deriving Inhabited, Repr

namespace Value

@[match_pattern, inline] abbrev null : Value := .scalar .null
@[match_pattern, inline] abbrev bool (b : Bool) : Value := .scalar (.bool b)
@[match_pattern, inline] abbrev int (n : Int) : Value := .scalar (.int n)
@[match_pattern, inline] abbrev float (x : Binary64) : Value := .scalar (.float x)
@[match_pattern, inline] abbrev string (s : String) : Value := .scalar (.string s)

/-- The string, if the value is one. -/
def string? : Value → Option String
  | .string s => some s
  | _ => none

/-- The truth value, if the value is one. -/
def bool? : Value → Option Bool
  | .bool b => some b
  | _ => none

/-- The value is `null`. -/
def isNull : Value → Bool
  | .null => true
  | _ => false

/-- The value is `true` itself, not merely something that counts as true. -/
def isTrue : Value → Bool
  | .bool b => b
  | _ => false

/-- The whole number a bound or a limit gives: an integer, or a truth value
counted as `0` or `1`.  Numbers with a fraction, even a zero one, give none. -/
def count? : Value → Option Int
  | .int n => some n
  | .bool b => some (if b then 1 else 0)
  | _ => none

end Value

/-- The entries of an object, in order. -/
abbrev Entries := List (Scalar × Value)

namespace Entries

/-- The value under a key that is a string. -/
def get? : Entries → String → Option Value
  | [], _ => none
  | (k, v) :: rest, key => if k = .string key then some v else get? rest key

@[simp] theorem get?_nil (key : String) : get? [] key = none := rfl

theorem get?_cons (k : Scalar) (v : Value) (rest : Entries) (key : String) :
    get? ((k, v) :: rest) key = if k = .string key then some v else get? rest key := rfl

/-- A key that is a string is present. -/
def has (es : Entries) (key : String) : Bool := (get? es key).isSome

/-- A value that is found is one of the entries' values. -/
theorem mem_of_get? {es : Entries} {key : String} {v : Value} (h : get? es key = some v) :
    (.string key, v) ∈ es := by
  induction es with
  | nil => simp at h
  | cons e rest ih =>
    obtain ⟨k, w⟩ := e
    rw [get?_cons] at h
    split at h
    · next hk => cases h; simp [hk]
    · exact List.mem_cons_of_mem _ (ih h)

/-- Two keys name the same entry: equal keys, and numbers and truth values of equal
value. -/
def sameKey (a b : Scalar) : Bool :=
  a == b || (match number a, number b with
    | some x, some y => equal x y
    | _, _ => false)
where
  /-- The number that a key stands for. -/
  number : Scalar → Option (Int ⊕ Binary64)
    | .bool b => some (.inl (if b then 1 else 0))
    | .int n => some (.inl n)
    | .float x => some (.inr x)
    | _ => none
  /-- Equality of numbers of both kinds. -/
  equal : Int ⊕ Binary64 → Int ⊕ Binary64 → Bool
    | .inl m, .inl n => m == n
    | .inl m, .inr x => x.compareInt? m == some .eq
    | .inr x, .inl m => x.compareInt? m == some .eq
    | .inr x, .inr y => x.compare? y == some .eq

/-- Every key names the same entry as itself, also one that is not a number. -/
@[simp] theorem sameKey_self (k : Scalar) : sameKey k k = true := by
  simp [sameKey]

/-- The entries with a value under a key: in place of the old one, or at the end. -/
def put : Entries → Scalar → Value → Entries
  | [], key, v => [(key, v)]
  | (k, w) :: rest, key, v =>
    if sameKey k key then (k, v) :: rest else (k, w) :: put rest key v

/-- A key is present, possibly as an equal number. -/
def hasKey (es : Entries) (key : Scalar) : Bool := es.any fun e => sameKey e.1 key

/-- The entries with those of another object put in, one after the other. -/
def putAll (es more : Entries) : Entries := more.foldl (fun es e => put es e.1 e.2) es

/-- The entries of a list of pairs in which later pairs win, each key standing
where it came first. -/
def ofPairs (pairs : List (Scalar × Value)) : Entries :=
  putAll [] pairs

/-- The entries without a key that is a string. -/
def erase (es : Entries) (key : String) : Entries := es.filter fun e => e.1 != .string key

/-- The keys, in order. -/
def keys (es : Entries) : List Scalar := es.map (·.1)

end Entries

/-- An object from keys that are strings. -/
def Value.record (fields : List (String × Value)) : Value :=
  .object (fields.map fun e => (.string e.1, e.2))

/-- A list of strings as data. -/
def Value.strings (xs : List String) : Value := .list (xs.map .string)

end SchemaCodegen
