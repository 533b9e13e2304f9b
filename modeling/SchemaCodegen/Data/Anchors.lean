import SchemaCodegen.Data.Value

/-!
# Anchored containers

`Anchors` holds the containers that a document uses more than once, and everything below
them; the leaf `aliasTo n` of its data stands for the `n`-th of them.  Together they present
a finite graph of objects and lists, in which a container may be shared and may contain
itself.

### Design decisions

**Stored containers are flat.**  The parts of a stored container are scalars and anchors,
so each container that can be reached from a stored one has an anchor of its own.  A
container can be met inside itself only when it is stored; hence its anchor *is* its
identity, and data outside the store is an ordinary tree.

**One step.**  `look` gives the data behind an alias, with its parts; any other data is
itself.  Every reader of the graph sees through sharing by this step alone.

### Contents

* `unseen` — how many anchors are not in a list of anchors seen on the way: what
  decreases when a walk enters a stored container for the first time.
* `Value.weight` — the size of data in which an alias counts as one: what decreases when
  a walk goes on to a part.  The parts of a stored container weigh one each.
* `unshare` — a copy in which nothing is shared.  Where a container is met inside itself
  the copy keeps the alias, and only there; so the copy of a graph without a cycle is an
  alias-free tree (`Value.isTree`).
-/

namespace SchemaCodegen

/-- A part of a stored container. -/
inductive Part where
  | scalar (s : Scalar)
  | set (members : List Scalar)
  | anchor (n : Nat)
deriving Inhabited, Repr, DecidableEq

/-- A stored container. -/
inductive Container where
  | list (items : List Part)
  | pair (first second : Part)
  | object (entries : List (Scalar × Part))
deriving Inhabited, Repr, DecidableEq

/-- A part as data. -/
def Part.value : Part → Value
  | .scalar s => .scalar s
  | .set xs => .set xs
  | .anchor n => .aliasTo n

/-- A stored container as data. -/
def Container.value : Container → Value
  | .list xs => .list (xs.map Part.value)
  | .pair a b => .pair a.value b.value
  | .object es => .object (es.map fun e => (e.1, e.2.value))

/-- A stored container is no alias. -/
theorem Container.value_ne_alias (c : Container) (n : Nat) : c.value ≠ .aliasTo n := by
  cases c <;> simp [Container.value]

/-- The stored containers of a document. -/
structure Anchors where
  containers : List Container := []
deriving Inhabited, Repr

namespace Anchors

/-- The number of anchors. -/
def size (g : Anchors) : Nat := g.containers.length

/-- The container of an anchor. -/
def container? (g : Anchors) (n : Nat) : Option Container := g.containers[n]?

/-- The data that an alias stands for; other data is itself.  An alias without a
container stands for nothing. -/
def look (g : Anchors) : Value → Value
  | .aliasTo n => ((g.container? n).map Container.value).getD .null
  | v => v

@[simp] theorem look_scalar (g : Anchors) (s : Scalar) : g.look (.scalar s) = .scalar s := rfl
@[simp] theorem look_list (g : Anchors) (xs : List Value) : g.look (.list xs) = .list xs := rfl
@[simp] theorem look_object (g : Anchors) (es : Entries) : g.look (.object es) = .object es := rfl
@[simp] theorem look_set (g : Anchors) (xs : List Scalar) : g.look (.set xs) = .set xs := rfl
@[simp] theorem look_pair (g : Anchors) (a b : Value) : g.look (.pair a b) = .pair a b := rfl

/-- What is seen is never an alias. -/
theorem look_ne_alias (g : Anchors) (v : Value) (n : Nat) : g.look v ≠ .aliasTo n := by
  cases v with
  | aliasTo m =>
    simp only [look]
    cases g.container? m with
    | none => simp
    | some c => simpa using c.value_ne_alias n
  | _ => simp [look]

/-- The entries, if the value is an object. -/
def entries? (g : Anchors) (v : Value) : Option Entries :=
  match g.look v with
  | .object es => some es
  | _ => none

/-- The items, if the value is a list. -/
def items? (g : Anchors) (v : Value) : Option (List Value) :=
  match g.look v with
  | .list xs => some xs
  | _ => none

@[simp] theorem entries?_object (g : Anchors) (es : Entries) :
    g.entries? (.object es) = some es := rfl
@[simp] theorem items?_list (g : Anchors) (xs : List Value) :
    g.items? (.list xs) = some xs := rfl

/-- The value is an object. -/
def isObject (g : Anchors) (v : Value) : Bool := (g.entries? v).isSome

/-- The value is a list. -/
def isList (g : Anchors) (v : Value) : Bool := (g.items? v).isSome

/-- The value counts as nothing: null, false, zero, or an empty text or container. -/
def isNothing (g : Anchors) (v : Value) : Bool :=
  match g.look v with
  | .null => true
  | .bool b => !b
  | .int n => n == 0
  | .float x => x.compareInt? 0 == some .eq
  | .string s => s.isEmpty
  | .scalar (.bytes octets) => octets.isEmpty
  | .set xs => xs.isEmpty
  | .list xs => xs.isEmpty
  | .object es => es.isEmpty
  | _ => false

/-- The value under a key, if it counts as something. -/
def something? (g : Anchors) (es : Entries) (key : String) : Option Value :=
  (Entries.get? es key).filter fun v => !g.isNothing v

/-- The list under a key. -/
def listAt? (g : Anchors) (es : Entries) (key : String) : Option (List Value) :=
  (Entries.get? es key).bind g.items?

/-- The object under a key. -/
def objectAt? (g : Anchors) (es : Entries) (key : String) : Option Entries :=
  (Entries.get? es key).bind g.entries?

/-! ### Anchors not yet seen -/

/-- How many anchors are not among `seen`. -/
def unseen (g : Anchors) (seen : List Nat) : Nat :=
  ((List.range g.size).filter (· ∉ seen)).length

/-- Entering an anchor for the first time leaves fewer unseen. -/
theorem unseen_cons_lt {g : Anchors} {n : Nat} {seen : List Nat} (hn : n < g.size)
    (h : n ∉ seen) : g.unseen (n :: seen) < g.unseen seen := by
  unfold unseen
  generalize hr : List.range g.size = r
  have hmem : n ∈ r := by simpa [← hr] using hn
  have hnodup : r.Nodup := hr ▸ List.nodup_range
  clear hr
  induction r with
  | nil => simp at hmem
  | cons k rest ih =>
    have hk := List.nodup_cons.1 hnodup
    rcases List.mem_cons.1 hmem with rfl | hmem
    · have hsame : rest.filter (fun x => decide (x ∉ n :: seen))
          = rest.filter (fun x => decide (x ∉ seen)) := by
        apply List.filter_congr
        intro x hx
        have : x ≠ n := fun hxn => hk.1 (hxn ▸ hx)
        simp [this]
      have hkeep : decide (n ∉ seen) = true := by simpa using h
      rw [List.filter_cons_of_neg (by simp),
        List.filter_cons_of_pos (by simpa using hkeep), hsame]
      simp
    · have ih := ih hmem hk.2
      by_cases hks : k ∈ seen
      · rw [List.filter_cons_of_neg (by simp [hks]), List.filter_cons_of_neg (by simp [hks])]
        exact ih
      · have hkn : k ≠ n := fun hkn => hk.1 (hkn ▸ hmem)
        rw [List.filter_cons_of_pos (by simp [hks, hkn]),
          List.filter_cons_of_pos (by simp [hks])]
        simp only [List.length_cons]
        omega

/-- An anchor that is found is one of the anchors. -/
theorem lt_size_of_container? {g : Anchors} {n : Nat} {c : Container}
    (h : g.container? n = some c) : n < g.size := by
  unfold container? at h
  exact (List.getElem?_eq_some_iff.1 h).1

/-! ### The copy in which nothing is shared -/

mutual

/-- The copy of a value in which each alias is replaced by what it stands for,
except inside itself; `seen` holds the anchors entered on the way. -/
def expand (g : Anchors) (seen : List Nat) : Value → Value
  | .aliasTo n =>
    match _h : g.container? n with
    | none => .aliasTo n
    | some c => if n ∈ seen then .aliasTo n else expand g (n :: seen) c.value
  | .pair a b => .pair (expand g seen a) (expand g seen b)
  | .list xs => .list (expandItems g seen xs)
  | .object es => .object (expandEntries g seen es)
  | .scalar s => .scalar s
  | .set xs => .set xs
termination_by v => (g.unseen seen, sizeOf v)
decreasing_by
  all_goals simp_wf
  all_goals first
    | exact Prod.Lex.left _ _ (unseen_cons_lt (lt_size_of_container? _h) ‹_›)
    | (apply Prod.Lex.right; omega)

/-- The copies of the items of a list. -/
def expandItems (g : Anchors) (seen : List Nat) : List Value → List Value
  | [] => []
  | v :: rest => expand g seen v :: expandItems g seen rest
termination_by vs => (g.unseen seen, sizeOf vs)
decreasing_by
  all_goals simp_wf
  all_goals (apply Prod.Lex.right; omega)

/-- The copies of the entries of an object. -/
def expandEntries (g : Anchors) (seen : List Nat) : Entries → Entries
  | [] => []
  | (k, v) :: rest => (k, expand g seen v) :: expandEntries g seen rest
termination_by es => (g.unseen seen, sizeOf es)
decreasing_by
  all_goals simp_wf
  all_goals (apply Prod.Lex.right; omega)

end

/-- The copy of a value in which nothing is shared. -/
def unshare (g : Anchors) (v : Value) : Value := g.expand [] v

end Anchors

/-! ### Weight -/

mutual

/-- The size of data, in which a scalar, a set and an alias count as one. -/
def Value.weight : Value → Nat
  | .scalar _ => 1
  | .set _ => 1
  | .aliasTo _ => 1
  | .pair a b => a.weight + b.weight + 1
  | .list xs => Value.weights xs + 1
  | .object es => Value.entryWeights es + 1

/-- The size of a list's items together. -/
def Value.weights : List Value → Nat
  | [] => 0
  | v :: rest => v.weight + weights rest

/-- The size of an object's values together. -/
def Value.entryWeights : List (Scalar × Value) → Nat
  | [] => 0
  | (_, v) :: rest => v.weight + entryWeights rest

end

theorem Value.weight_pos (v : Value) : 0 < v.weight := by
  cases v <;> simp [Value.weight]

theorem Value.weight_le_weights {v : Value} {xs : List Value} (h : v ∈ xs) :
    v.weight ≤ Value.weights xs := by
  induction xs with
  | nil => simp at h
  | cons x rest ih =>
    rcases List.mem_cons.1 h with rfl | h
    · simp [Value.weights]
    · have := ih h
      simp only [Value.weights]
      omega

theorem Value.weight_le_entryWeights {k : Scalar} {v : Value} {es : Entries}
    (h : (k, v) ∈ es) : v.weight ≤ Value.entryWeights es := by
  induction es with
  | nil => simp at h
  | cons e rest ih =>
    rcases List.mem_cons.1 h with rfl | h
    · simp [Value.entryWeights]
    · have := ih h
      simp only [Value.entryWeights]
      omega

/-- A part weighs one. -/
theorem Part.weight_value (p : Part) : p.value.weight = 1 := by
  cases p <;> rfl

/-- What is found under a key weighs no more than the entries. -/
theorem Entries.weight_le_of_get? {es : Entries} {key : String} {v : Value}
    (h : Entries.get? es key = some v) : v.weight ≤ Value.entryWeights es :=
  Value.weight_le_entryWeights (Entries.mem_of_get? h)

/-- The value under a key, with what recursion through keywords rests on: it weighs no more
than the entries. -/
def Entries.weighed? : (es : Entries) → String → Option {v : Value // v.weight ≤ Value.entryWeights es}
  | [], _ => none
  | (k, v) :: rest, key =>
    if k = .string key then some ⟨v, by simp [Value.entryWeights]⟩
    else (weighed? rest key).map fun u => ⟨u.1, by
      have := u.2
      simp only [Value.entryWeights]
      omega⟩

/-- What is found with its weight is what is found. -/
theorem Entries.map_val_weighed? (es : Entries) (key : String) :
    (Entries.weighed? es key).map (·.1) = Entries.get? es key := by
  induction es with
  | nil => rfl
  | cons e rest ih =>
    obtain ⟨k, v⟩ := e
    rw [weighed?, Entries.get?_cons]
    split
    · rfl
    · rw [Option.map_map, ← ih]
      rfl

namespace Anchors

/-- An item of a list weighs no more than the list, seen through an alias or not. -/
theorem weight_le_of_items? {g : Anchors} {v u : Value} {xs : List Value}
    (h : g.items? v = some xs) (hu : u ∈ xs) : u.weight ≤ v.weight := by
  cases v with
  | list ys =>
    simp only [items?_list, Option.some.injEq] at h
    subst h
    have := Value.weight_le_weights hu
    simp only [Value.weight]
    omega
  | aliasTo n =>
    simp only [items?, look] at h
    cases hc : g.container? n with
    | none => simp [hc] at h
    | some c =>
      cases c with
      | list ps =>
        simp only [hc, Option.map_some, Option.getD_some, Container.value,
          Option.some.injEq] at h
        subst h
        obtain ⟨p, -, rfl⟩ := List.mem_map.1 hu
        simp [Part.weight_value, Value.weight]
      | _ => simp [hc, Container.value] at h
  | _ => simp [items?, look] at h

/-- A value of an object weighs no more than the object, seen through an alias or not. -/
theorem weight_le_of_entries? {g : Anchors} {v u : Value} {k : Scalar} {es : Entries}
    (h : g.entries? v = some es) (hu : (k, u) ∈ es) : u.weight ≤ v.weight := by
  cases v with
  | object fs =>
    simp only [entries?_object, Option.some.injEq] at h
    subst h
    have := Value.weight_le_entryWeights hu
    simp only [Value.weight]
    omega
  | aliasTo n =>
    simp only [entries?, look] at h
    cases hc : g.container? n with
    | none => simp [hc] at h
    | some c =>
      cases c with
      | object ps =>
        simp only [hc, Option.map_some, Option.getD_some, Container.value,
          Option.some.injEq] at h
        subst h
        obtain ⟨p, -, hp⟩ := List.mem_map.1 hu
        simp only [Prod.mk.injEq] at hp
        obtain ⟨-, rfl⟩ := hp
        simp [Part.weight_value, Value.weight]
      | _ => simp [hc, Container.value] at h
  | _ => simp [entries?, look] at h

/-- An item of the list under a key weighs no more than the entries. -/
theorem weight_le_of_listAt? {g : Anchors} {es : Entries} {key : String} {u : Value}
    {xs : List Value} (h : g.listAt? es key = some xs) (hu : u ∈ xs) :
    u.weight ≤ Value.entryWeights es := by
  obtain ⟨v, hv, h⟩ := Option.bind_eq_some_iff.1 h
  exact Nat.le_trans (weight_le_of_items? h hu) (Entries.weight_le_of_get? hv)

/-- A value of the object under a key weighs no more than the entries. -/
theorem weight_le_of_objectAt? {g : Anchors} {es fs : Entries} {key : String} {k : Scalar}
    {u : Value} (h : g.objectAt? es key = some fs) (hu : (k, u) ∈ fs) :
    u.weight ≤ Value.entryWeights es := by
  obtain ⟨v, hv, h⟩ := Option.bind_eq_some_iff.1 h
  exact Nat.le_trans (weight_le_of_entries? h hu) (Entries.weight_le_of_get? hv)

end Anchors

/-! ### Entering containers -/

namespace Anchors

/-- The anchors that are active inside a value: its own joins them.  Nothing, when its
own is active already, that is, when the value is met inside itself. -/
def enter? (g : Anchors) (active : List Nat) (v : Value) : Option (List Nat) :=
  match v with
  | .aliasTo n => if n < g.size ∧ n ∉ active then some (n :: active) else none
  | _ => some active

/-- Entering a value and going on to something lighter decreases: either there are fewer
anchors left to enter, or it is lighter than the value. -/
theorem lex_of_enter? {g : Anchors} {active inner : List Nat} {v : Value} {w w' : Nat}
    (h : g.enter? active v = some inner) (hw : (∀ n, v ≠ .aliasTo n) → w < w') :
    Prod.Lex (· < ·) (· < ·) (g.unseen inner, w) (g.unseen active, w') := by
  unfold enter? at h
  split at h
  · next n =>
    split at h
    · next hn =>
      cases h
      exact Prod.Lex.left _ _ (unseen_cons_lt hn.1 hn.2)
    · cases h
  · next hv =>
    cases h
    exact Prod.Lex.right _ (hw hv)

/-- The values of an object that is entered. -/
theorem entryWeights_lt_of_entries? {g : Anchors} {v : Value} {es : Entries}
    (h : g.entries? v = some es) (hv : ∀ n, v ≠ .aliasTo n) :
    Value.entryWeights es < v.weight := by
  cases v <;> simp_all [entries?, look, Value.weight]

/-- The items of a list that is entered. -/
theorem weights_lt_of_items? {g : Anchors} {v : Value} {xs : List Value}
    (h : g.items? v = some xs) (hv : ∀ n, v ≠ .aliasTo n) :
    Value.weights xs < v.weight := by
  cases v <;> simp_all [items?, look, Value.weight]

end Anchors

/-! ### Trees -/

mutual

/-- The value has no alias: nothing in it is shared. -/
def Value.isTree : Value → Bool
  | .aliasTo _ => false
  | .pair a b => a.isTree && b.isTree
  | .list xs => Value.areTrees xs
  | .object es => Value.haveTrees es
  | .scalar _ => true
  | .set _ => true

/-- All items are trees. -/
def Value.areTrees : List Value → Bool
  | [] => true
  | v :: rest => v.isTree && areTrees rest

/-- All values of the entries are trees. -/
def Value.haveTrees : List (Scalar × Value) → Bool
  | [] => true
  | (_, v) :: rest => v.isTree && haveTrees rest

end

end SchemaCodegen
