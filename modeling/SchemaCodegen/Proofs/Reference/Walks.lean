import Mathlib.Algebra.Group.Nat.Defs
import SchemaCodegen.Proofs.Reference.Names
import SchemaCodegen.Proofs.Text.Digits

/-!
# Walking a pointer

A pointer goes from a value to its parts, one segment at a time: into an object by the key that the
segment is, and into a list by the number that it writes.  `Walks g v segments w` says where it
leads, and `follow?` finds exactly that (`follow?_eq_some_iff`), with the place besides.

Where a pointer leads nowhere, there is one way only for the walk to fail instead of finding
nothing: it stands at a list, and the next segment is made of digits but is no number
(`DigitsWithoutNumber`, `follow?_eq_error_iff`).
-/

namespace SchemaCodegen

variable {g : Anchors} {v u w : Value} {l : Located} {es : Entries} {xs : List Value}
  {segment : String} {segments rest : List String} {f : Failure} {i : Nat}

/-! ### Segments as numbers -/

/-- The text is made of digits, at least one, and yet no number: one of the digits has no place
value, or there are more of them than are read. -/
def DigitsWithoutNumber (segment : String) : Prop :=
  segment.toList ≠ [] ∧ (∀ c ∈ segment.toList, Text.isDigit c = true)
    ∧ (Text.longestInteger < segment.toList.length
      ∨ ∃ c ∈ segment.toList, Text.decimalValue? c = none)

/-- Looking for an index fails on digits without a number, and on nothing else. -/
theorem segmentIndex?_eq_error_iff :
    segmentIndex? segment = .error f ↔ f = .unreadable ∧ DigitsWithoutNumber segment := by
  unfold segmentIndex? DigitsWithoutNumber
  generalize segment.toList = cs
  dsimp only
  split
  · next other =>
      -- Without digits there is no index to look for.
      constructor
      · intro h
        cases h
      · rintro ⟨-, nonempty, digits, -⟩
        rw [Bool.or_eq_true, List.isEmpty_iff, Bool.not_eq_true'] at other
        rcases other with empty | not_all
        · exact absurd empty nonempty
        · exact absurd (List.all_eq_true.2 digits) (by rw [not_all]; decide)
  · next digits =>
      rw [Bool.or_eq_true, not_or, List.isEmpty_iff, Bool.not_eq_true', Bool.not_eq_false,
        List.all_eq_true] at digits
      simp only [digits.1, ne_eq, not_false_eq_true, true_and]
      split
      · next long =>
          constructor
          · rintro ⟨⟩
            exact ⟨rfl, digits.2, .inl long⟩
          · rintro ⟨rfl, -⟩
            rfl
      · next short =>
          cases read : Text.readDigits? 0 cs with
          | some n =>
              have numbered : ¬ ∃ c ∈ cs, Text.decimalValue? c = none := by
                rw [← @Text.readDigits?_eq_none_iff cs 0, read]
                exact Option.some_ne_none n
              simp [short, numbered]
          | none =>
              constructor
              · rintro ⟨⟩
                exact ⟨rfl, digits.2, .inr (Text.readDigits?_eq_none_iff.1 read)⟩
              · rintro ⟨rfl, -⟩
                rfl

/-- The text of a number is the index, unless it has too many digits. -/
theorem segmentIndex?_repr (short : i < 10 ^ Text.longestInteger) :
    segmentIndex? (toString i) = .ok (some i) := by
  have digits : (Nat.toDigits 10 i).all Text.isDigit = true :=
    List.all_eq_true.2 fun _ mem => Text.isDigit_of_mem_toDigits mem
  have length : (Nat.toDigits 10 i).length ≤ Text.longestInteger :=
    (Nat.length_toDigits_le_iff (by decide) (by decide)).2 short
  unfold segmentIndex?
  simp [Nat.toString_eq_repr, Nat.toList_repr, digits, Nat.toDigits_ne_nil,
    Nat.not_lt.2 length, Text.readDigits?_toDigits]

/-! ### One step -/

/-- In a list, a step of a pointer looks up an index. -/
theorem step?_of_items? (items : g.items? l.value = some xs) (segment : String) :
    l.step? g segment = (segmentIndex? segment).map fun index =>
      index.bind fun i => xs[i]?.map (l.part i) := by
  unfold Located.step?
  rw [items?_eq_some.1 items]

/-- There is no step into a value without parts. -/
theorem step?_of_isLeaf (leaf : l.value.IsLeaf g) (segment : String) :
    l.step? g segment = .ok none := by
  have no_list := leaf.1
  have no_object := leaf.2
  unfold Anchors.items? at no_list
  unfold Anchors.entries? at no_object
  unfold Located.step?
  cases seen : g.look l.value with
  | list => simp [seen] at no_list
  | object => simp [seen] at no_object
  | _ => rfl

/-- A value is an object, a list, or without parts. -/
theorem parts_or_isLeaf (g : Anchors) (v : Value) :
    (∃ es, g.entries? v = some es) ∨ (∃ xs, g.items? v = some xs) ∨ v.IsLeaf g := by
  cases entries : g.entries? v with
  | some es => exact .inl ⟨es, rfl⟩
  | none =>
      cases items : g.items? v with
      | some xs => exact .inr (.inl ⟨xs, rfl⟩)
      | none => exact .inr (.inr ⟨items, entries⟩)

/-- A list is no object. -/
theorem entries?_of_items? (items : g.items? v = some xs) : g.entries? v = none := by
  unfold Anchors.entries?
  rw [items?_eq_some.1 items]

/-- A step fails where a list is asked for digits without a number. -/
theorem step?_eq_error_iff : l.step? g segment = .error f ↔
    f = .unreadable ∧ (∃ xs, g.items? l.value = some xs) ∧ DigitsWithoutNumber segment := by
  rcases parts_or_isLeaf g l.value with ⟨es, entries⟩ | ⟨xs, items⟩ | leaf
  · have no_list : ¬ ∃ xs, g.items? l.value = some xs := by
      rintro ⟨xs, items⟩
      cases entries.symm.trans (entries?_of_items? items)
    simp [step?_of_entries? entries, no_list]
  · have fails : l.step? g segment = .error f ↔ segmentIndex? segment = .error f := by
      rw [step?_of_items? items]
      cases segmentIndex? segment <;> simp [Except.map]
    rw [fails, segmentIndex?_eq_error_iff]
    exact and_congr_right fun _ => (and_iff_right ⟨xs, items⟩).symm
  · simp [step?_of_isLeaf leaf, leaf.1]

/-! ### Walks -/

/-- `Walks g v segments w`: the segments of a pointer lead from `v` to `w`. -/
inductive Walks (g : Anchors) : (v : Value) → (segments : List String) → (w : Value) → Prop
  | here (v : Value) : Walks g v [] v
  | key {v u w : Value} {es : Entries} {segment : String} {rest : List String}
      (entries : g.entries? v = some es) (at_key : Entries.get? es segment = some u)
      (on : Walks g u rest w) : Walks g v (segment :: rest) w
  | item {v u w : Value} {xs : List Value} {segment : String} {rest : List String} {i : Nat}
      (items : g.items? v = some xs) (index : segmentIndex? segment = .ok (some i))
      (at_index : xs[i]? = some u) (on : Walks g u rest w) : Walks g v (segment :: rest) w

/-- One step of a pointer finds a part exactly where a walk goes on. -/
theorem step?_eq_some_iff : (∃ next, l.step? g segment = .ok (some next) ∧ next.value = u) ↔
    Walks g l.value [segment] u := by
  constructor
  · rintro ⟨next, step, rfl⟩
    rcases parts_or_isLeaf g l.value with ⟨es, entries⟩ | ⟨xs, items⟩ | leaf
    · rw [step?_of_entries? entries, Except.ok.injEq] at step
      have found := Located.map_value_under? l 0 es segment
      rw [step, Option.map_some] at found
      exact .key entries found.symm (.here _)
    · rw [step?_of_items? items] at step
      cases index : segmentIndex? segment with
      | error e => simp [index, Except.map] at step
      | ok found =>
          simp only [index, Except.map, Except.ok.injEq] at step
          obtain ⟨i, rfl, found⟩ := Option.bind_eq_some_iff.1 step
          obtain ⟨x, at_index, rfl⟩ := Option.map_eq_some_iff.1 found
          exact .item items index at_index (.here _)
    · simp [step?_of_isLeaf leaf] at step
  · intro walk
    cases walk with
    | key entries at_key on =>
        cases on
        rw [← Located.map_value_under? l 0] at at_key
        obtain ⟨next, under, value⟩ := Option.map_eq_some_iff.1 at_key
        exact ⟨next, by rw [step?_of_entries? entries, under], value⟩
    | @item _ _ _ _ _ _ i items index at_index on =>
        cases on
        refine ⟨l.part i u, ?_, rfl⟩
        rw [step?_of_items? items, index]
        simp [Except.map, at_index]

theorem walks_cons_iff : Walks g v (segment :: rest) w ↔
    ∃ u, Walks g v [segment] u ∧ Walks g u rest w := by
  constructor
  · intro walk
    cases walk with
    | key entries at_key on => exact ⟨_, .key entries at_key (.here _), on⟩
    | item items index at_index on => exact ⟨_, .item items index at_index (.here _), on⟩
  · rintro ⟨u, first, on⟩
    cases first with
    | key entries at_key here =>
        cases here
        exact .key entries at_key on
    | item items index at_index here =>
        cases here
        exact .item items index at_index on

/-- Following a pointer finds the value that it leads to. -/
theorem follow?_eq_some_iff :
    (∃ found, l.follow? g segments = .ok (some found) ∧ found.value = w)
      ↔ Walks g l.value segments w := by
  induction segments generalizing l with
  | nil =>
      constructor
      · rintro ⟨found, here, rfl⟩
        cases here
        exact .here _
      · intro walk
        cases walk
        exact ⟨l, rfl, rfl⟩
  | cons segment rest ih =>
      rw [walks_cons_iff, Located.follow?]
      constructor
      · rintro ⟨found, follows, rfl⟩
        obtain ⟨next, step, follows⟩ := bind_eq_ok.1 follows
        cases next with
        | none => cases follows
        | some next => exact ⟨_, step?_eq_some_iff.1 ⟨next, step, rfl⟩, ih.1 ⟨found, follows, rfl⟩⟩
      · rintro ⟨u, first, on⟩
        obtain ⟨next, step, rfl⟩ := step?_eq_some_iff.2 first
        obtain ⟨found, follows, value⟩ := ih.2 on
        exact ⟨found, bind_eq_ok.2 ⟨some next, step, follows⟩, value⟩

/-- Following a pointer fails exactly where it leads to a list and goes on with digits that are no
number. -/
theorem follow?_eq_error_iff : l.follow? g segments = .error f ↔
    f = .unreadable ∧ ∃ before segment after v xs, segments = before ++ segment :: after
      ∧ Walks g l.value before v ∧ g.items? v = some xs ∧ DigitsWithoutNumber segment := by
  induction segments generalizing l with
  | nil => simp [Located.follow?]
  | cons first rest ih =>
      rw [Located.follow?]
      constructor
      · intro fails
        cases step : l.step? g first with
        | error e =>
            rw [step] at fails
            cases fails
            obtain ⟨unreadable, ⟨xs, items⟩, digits⟩ := step?_eq_error_iff.1 step
            exact ⟨unreadable, [], first, rest, _, xs, rfl, .here _, items, digits⟩
        | ok next =>
            rw [step] at fails
            cases next with
            | none => cases fails
            | some next =>
                obtain ⟨unreadable, before, segment, after, v, xs, rfl, walk, stands⟩ :=
                  ih.1 fails
                have here := step?_eq_some_iff.1 ⟨next, step, rfl⟩
                exact ⟨unreadable, first :: before, segment, after, v, xs, rfl,
                  walks_cons_iff.2 ⟨_, here, walk⟩, stands⟩
      · rintro ⟨unreadable, before, segment, after, v, xs, same, walk, items, digits⟩
        cases before with
        | nil =>
            obtain ⟨rfl, rfl⟩ := List.cons.inj same
            cases walk
            rw [step?_eq_error_iff.2 ⟨unreadable, ⟨xs, items⟩, digits⟩]
            rfl
        | cons other before =>
            obtain ⟨rfl, rfl⟩ := List.cons.inj same
            obtain ⟨u, here, walk⟩ := walks_cons_iff.1 walk
            obtain ⟨next, step, rfl⟩ := step?_eq_some_iff.2 here
            rw [step]
            exact ih.2 ⟨unreadable, before, segment, after, v, xs, rfl, walk, items, digits⟩

end SchemaCodegen
