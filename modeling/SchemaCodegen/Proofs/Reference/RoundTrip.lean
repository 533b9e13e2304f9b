import SchemaCodegen.Proofs.Reference.Walks

/-!
# References that are written and resolved

Keys and numbers of items that lead from a document to a value are written down as a pointer
(`pointerTo`), each key with `~0` for every tilde and then `~1` for every slash, each number in
decimal.  The pointer resolves to that value, whatever the keys are (`references_lead_back`); in the
same way the canonical reference to a name gives the name back.

Reading undoes writing for two reasons: an escaped key has no slash, so the pointer is cut where it
was joined (`parse_pointerTo`), and each segment is decoded to the key that it was
(`decode_encode`).  Encoding and decoding in one go over the characters are the replacements one
after the other that their rules speak of (`substitute_substitute`, `decodeSegment_eq`).
-/

namespace SchemaCodegen

variable {g : Anchors} {document u v w : Value}

/-! ### Escapes -/

/-- The characters with each one that is `c` replaced by others. -/
def substitute (c : Char) (others cs : List Char) : List Char :=
  cs.flatMap fun x => if x = c then others else [x]

/-- A key as it stands in a pointer: each tilde is replaced by `~0`, and after that each slash by
`~1`. -/
def escaped (key : String) : String :=
  String.ofList (substitute '/' ['~', '1'] (substitute '~' ['~', '0'] key.toList))

/-- Escaping in two rounds is encoding in one. -/
theorem substitute_substitute (cs : List Char) :
    substitute '/' ['~', '1'] (substitute '~' ['~', '0'] cs) = encodeSegment cs := by
  unfold substitute
  induction cs with
  | nil => rfl
  | cons c cs ih =>
      rw [List.flatMap_cons, List.flatMap_append, ih, encodeSegment]
      by_cases tilde : c = '~'
      · simp [tilde]
      · by_cases slash : c = '/'
        · simp [slash]
        · simp [tilde, slash]

theorem toList_escaped (key : String) : (escaped key).toList = encodeSegment key.toList := by
  rw [escaped, String.toList_ofList, substitute_substitute]

/-- The characters with each tilde before `c` replaced, together with it, by another one. -/
def unescape (c other : Char) : List Char → List Char
  | '~' :: x :: rest => if x = c then other :: unescape c other rest
    else '~' :: unescape c other (x :: rest)
  | x :: rest => x :: unescape c other rest
  | [] => []

theorem unescape_cons {c other x : Char} (plain : x ≠ '~') (cs : List Char) :
    unescape c other (x :: cs) = x :: unescape c other cs := by
  rw [unescape]
  rintro _ _ rfl
  exact absurd rfl plain

theorem unescape_tilde {c other : Char} {cs : List Char} (free : cs.head? ≠ some c) :
    unescape c other ('~' :: cs) = '~' :: unescape c other cs := by
  cases cs with
  | nil => rfl
  | cons x cs =>
      rw [unescape, if_neg]
      rintro rfl
      exact free rfl

/-- The first round puts no zero behind a tilde. -/
theorem head?_unescape {cs : List Char} (free : cs.head? ≠ some '0') :
    (unescape '1' '/' cs).head? ≠ some '0' := by
  fun_cases unescape '1' '/' cs with
  | case1 => simp
  | case2 => simp
  | case3 x cs => simpa using free
  | case4 => simp

/-- Decoding in one go is decoding in two rounds, first the slashes and then the tildes. -/
theorem decodeSegment_eq (cs : List Char) :
    decodeSegment cs = unescape '0' '~' (unescape '1' '/' cs) := by
  fun_induction decodeSegment cs with
  | case1 rest ih => rw [unescape, if_pos rfl, unescape_cons (by decide), ih]
  | case2 rest ih =>
      have zero : '0' ≠ '~' := by decide
      rw [unescape_tilde (by simp), unescape_cons zero, unescape, if_pos rfl, ih]
  | case3 c rest no_slash no_tilde ih =>
      by_cases tilde : c = '~'
      · subst tilde
        have no_one : rest.head? ≠ some '1' := by
          intro head
          obtain ⟨tail, rfl⟩ := List.head?_eq_some_iff.1 head
          exact no_slash tail rfl rfl
        have no_zero : rest.head? ≠ some '0' := by
          intro head
          obtain ⟨tail, rfl⟩ := List.head?_eq_some_iff.1 head
          exact no_tilde tail rfl rfl
        rw [unescape_tilde no_one, unescape_tilde (head?_unescape no_zero), ih]
      · rw [unescape_cons tilde, unescape_cons tilde, ih]
  | case4 => rfl

/-- A text without a tilde stands for itself. -/
theorem decodeSegment_of_not_mem {cs : List Char} (plain : '~' ∉ cs) : decodeSegment cs = cs := by
  induction cs with
  | nil => rfl
  | cons c cs ih =>
      rw [List.mem_cons, not_or] at plain
      rw [decodeSegment, ih plain.2]
      all_goals
        rintro _ rfl
        exact absurd rfl plain.1

/-! ### Steps to parts -/

/-- A step to a part: under a key of an object, or to an item of a list. -/
inductive PartStep where
  | key (name : String)
  | item (number : Nat)

/-- The part that a step leads to. -/
def Anchors.stepped? (g : Anchors) (v : Value) : PartStep → Option Value
  | .key name => (g.entries? v).bind fun es => Entries.get? es name
  | .item number => (g.items? v).bind fun xs => xs[number]?

/-- The value that steps lead to, one look-up after the other. -/
def Anchors.along? (g : Anchors) : Value → List PartStep → Option Value
  | v, [] => some v
  | v, step :: rest => (g.stepped? v step).bind fun u => g.along? u rest

/-- A step as it stands in a pointer. -/
def PartStep.text : PartStep → String
  | .key name => escaped name
  | .item number => toString number

/-- The pointer of steps: their texts behind `#/`, with slashes between them. -/
def pointerTo (steps : List PartStep) : String :=
  "#/" ++ "/".intercalate (steps.map PartStep.text)

/-- A step as the segment that its text is read as. -/
def PartStep.segment : PartStep → String
  | .key name => name
  | .item number => toString number

/-! ### Reading a pointer -/

/-- Texts without a mark are the parts of what they are joined to by it. -/
theorem partsAt_intercalate {mark : Char} {parts : List (List Char)} (some_part : parts ≠ [])
    (unmarked : ∀ part ∈ parts, mark ∉ part) : Text.partsAt mark ([mark].intercalate parts) = parts := by
  induction parts with
  | nil => exact absurd rfl some_part
  | cons part parts ih =>
      obtain ⟨here, later⟩ := List.forall_mem_cons.1 unmarked
      cases parts with
      | nil => rw [List.intercalate_singleton, Text.partsAt_of_not_mem here]
      | cons next rest =>
          rw [List.intercalate_cons_cons, List.append_assoc, List.singleton_append,
            Text.partsAt_append here, ih (List.cons_ne_nil _ _) later]

theorem not_mem_toString {c : Char} (other : c.isDigit = false) (number : Nat) :
    c ∉ (toString number).toList := by
  rw [Nat.toString_eq_repr, Nat.toList_repr]
  intro mem
  rw [Nat.isDigit_of_mem_toDigits (by decide) (by decide) mem] at other
  cases other

theorem slash_not_mem_text (step : PartStep) : '/' ∉ step.text.toList := by
  cases step with
  | key name =>
      rw [PartStep.text, toList_escaped]
      exact slash_not_mem_encodeSegment _
  | item number => exact not_mem_toString (by decide) number

theorem decodeSegment_text (step : PartStep) :
    String.ofList (decodeSegment step.text.toList) = step.segment := by
  cases step with
  | key name => rw [PartStep.text, toList_escaped, decode_encode, PartStep.segment, String.ofList_toList]
  | item number =>
      rw [PartStep.text, decodeSegment_of_not_mem (not_mem_toString (by decide) number),
        PartStep.segment, String.ofList_toList]

/-- The pointer of steps is read as their segments. -/
theorem parse_pointerTo {steps : List PartStep} (some_step : steps ≠ []) :
    Reference.parse (pointerTo steps) = .pointer (steps.map PartStep.segment) := by
  have text : (pointerTo steps).toList
      = '#' :: '/' :: ['/'].intercalate (steps.map fun step => step.text.toList) := by
    rw [pointerTo, String.toList_append, String.toList_intercalate, List.map_map]
    rfl
  have cut : Text.partsAt '/' (['/'].intercalate (steps.map fun step => step.text.toList))
      = steps.map fun step => step.text.toList := by
    refine partsAt_intercalate (by simpa using some_step) fun part mem => ?_
    obtain ⟨step, -, rfl⟩ := List.mem_map.1 mem
    exact slash_not_mem_text step
  have segments : pointerSegments (['/'].intercalate (steps.map fun step => step.text.toList))
      = steps.map PartStep.segment := by
    rw [pointerSegments, cut, List.map_map]
    exact List.map_congr_left fun step _ => decodeSegment_text step
  rw [Reference.parse, text, ← segments]
  rfl

/-! ### Resolving a pointer -/

/-- Steps that lead to a value are a walk along their segments. -/
theorem walks_of_along? {steps : List PartStep} (leads : g.along? v steps = some w)
    (readable : ∀ number, .item number ∈ steps → number < 10 ^ Text.longestInteger) :
    Walks g v (steps.map PartStep.segment) w := by
  induction steps generalizing v with
  | nil =>
      cases leads
      exact .here w
  | cons step steps ih =>
      obtain ⟨u, here, leads⟩ := Option.bind_eq_some_iff.1 leads
      have on := ih leads fun number mem => readable number (List.mem_cons_of_mem _ mem)
      cases step with
      | key name =>
          obtain ⟨es, entries, at_key⟩ := Option.bind_eq_some_iff.1 here
          exact .key entries at_key on
      | item number =>
          obtain ⟨xs, items, at_index⟩ := Option.bind_eq_some_iff.1 here
          exact .item items (segmentIndex?_repr (readable number List.mem_cons_self)) at_index on

/-- A pointer that leads to a value resolves to it, unless it is `null`. -/
theorem resolve_of_walks {ref : String} {segments : List String}
    (parsed : Reference.parse ref = .pointer segments) (walk : Walks g document segments v)
    (present : v.isNull = false) : (resolve g ref document).result = .ok (some v) := by
  obtain ⟨found, follows, rfl⟩ :=
    (follow?_eq_some_iff (l := ⟨.document, [], document⟩)).2 walk
  refine Traced.result_bind_eq_ok.2 ⟨some found, ?_, rfl⟩
  rw [locate, parsed]
  refine Traced.result_bind_eq_ok.2 ⟨some found, follows, ?_⟩
  simp [Located.present, present]

/-! ### Names -/

/-- The canonical reference to a name gives the name. -/
theorem schemaName?_escaped {name : String} (nonempty : name ≠ "") (root : SchemaRoot) :
    schemaName? (root.lead ++ escaped name) = some name := by
  have behind : root.after? (root.lead ++ escaped name) = some (encodeSegment name.toList) := by
    rw [after?_eq_some, String.toList_append, toList_escaped]
  have not_empty : encodeSegment name.toList ≠ [] := by
    intro empty
    have decoded := decode_encode name.toList
    rw [empty] at decoded
    exact nonempty (String.toList_eq_nil_iff.1 decoded.symm)
  have read : (if (encodeSegment name.toList).isEmpty || (encodeSegment name.toList).contains '/'
      then none else some (String.ofList (decodeSegment (encodeSegment name.toList))))
      = some name := by
    rw [decode_encode, String.ofList_toList, if_neg]
    simp [not_empty, slash_not_mem_encodeSegment]
  unfold schemaName? SchemaRoot.all
  cases root with
  | components => simp only [List.findSome?_cons, behind, read]
  | definitions =>
      have other : SchemaRoot.components.after? (SchemaRoot.definitions.lead ++ escaped name)
          = none := by
        cases found : SchemaRoot.components.after? _ with
        | none => rfl
        | some _ => cases eq_of_after? (Option.isSome_of_eq_some found) (Option.isSome_of_eq_some behind)
      simp only [List.findSome?_cons, other, behind, read]

/-- **References lead back.**  Steps to parts, at least one, that lead to a value other than `null`
are written as a pointer that resolves to this value; and a name, unless it is empty, is written
behind a root as a canonical reference that gives this name.  The number of an item must not have
more digits than are read, which it has in no list that fits into memory. -/
theorem references_lead_back (g : Anchors) :
    (∀ document steps v, steps ≠ [] → g.along? document steps = some v → v.isNull = false →
        (∀ number, .item number ∈ steps → number < 10 ^ Text.longestInteger) →
        (resolve g (pointerTo steps) document).result = .ok (some v))
      ∧ ∀ (root : SchemaRoot) (name : String), name ≠ "" →
        schemaName? (root.lead ++ escaped name) = some name := by
  constructor
  · intro document steps v some_step leads present readable
    exact resolve_of_walks (parse_pointerTo some_step) (walks_of_along? leads readable) present
  · intro root name nonempty
    exact schemaName?_escaped nonempty root

/-- A document with a path for its key, and with an empty key and one that looks like an escape. -/
def routesDocument : Value := .object
  [(.string "paths", .object [(.string "/users/~me", .object [(.string "",
    .list [.string "GET", .object [(.string "~1", .bool true)]])])])]

/-- The steps to a value deep in the document. -/
def routeSteps : List PartStep := [.key "paths", .key "/users/~me", .key "", .item 1, .key "~1"]

/-- The premises hold of steps through a list and through keys that have to be escaped. -/
theorem references_lead_back_routes :
    routeSteps ≠ [] ∧ Anchors.along? {} routesDocument routeSteps = some (.bool true)
      ∧ (Value.bool true).isNull = false
      ∧ (∀ number, .item number ∈ routeSteps → number < 10 ^ Text.longestInteger)
      ∧ pointerTo routeSteps = "#/paths/~1users~1~0me//1/~01"
      ∧ (resolve {} (pointerTo routeSteps) routesDocument).result = .ok (some (.bool true))
      ∧ "a/~1" ≠ ""
      ∧ schemaName? (SchemaRoot.definitions.lead ++ escaped "a/~1") = some "a/~1" := by
  have readable : ∀ number, .item number ∈ routeSteps → number < 10 ^ Text.longestInteger := by
    intro number mem
    obtain rfl : number = 1 := by simpa [routeSteps] using mem
    exact Nat.one_lt_pow (by decide) (by decide)
  obtain ⟨resolves, names⟩ := references_lead_back {}
  exact ⟨by decide, rfl, rfl, readable, by decide +kernel,
    resolves routesDocument routeSteps _ (by decide) rfl rfl readable, by decide,
    names .definitions "a/~1" (by decide)⟩

end SchemaCodegen
