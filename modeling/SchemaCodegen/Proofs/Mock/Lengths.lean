import SchemaCodegen.Proofs.Mock.Numbers
import SchemaCodegen.Proofs.Mock.Seed
import SchemaCodegen.Proofs.Mock.Yielding
import SchemaCodegen.Proofs.Schema.Positions

/-!
# Lengths of samples

Texts and lists have a least and a greatest length, either of which may be absent (`LimitsLength`).
The sample of a text always keeps to them, whatever is drawn: the lengths to draw from are never none,
and those of the padded and cut canonical text lie between the limits too
(`sample_text_length`).

The sample of a list keeps to them but for one case.  Where only a greatest length is given, the least
one is taken to be one; drawing then orders the two, so that of a list which must be empty one item may
be drawn (`Oversteps`).  In all other cases the limits are kept (`sample_list_length_iff`).
-/

namespace SchemaCodegen.Mock

variable {c : Context} {schema : Value} {es : Entries} {f : Facts} {node : Node}
  {low high : Option Int} {n : Int} {refs : List String} {depth limit : Nat}

/-! ### Limits -/

/-- The limits of a length, if they are given: the greatest one is not negative, and they are in order.
A negative least length is no limit. -/
structure LimitsLength (low high : Option Int) : Prop where
  high_nonneg : ∀ h ∈ high, 0 ≤ h
  ordered : ∀ l ∈ low, ∀ h ∈ high, l ≤ h

/-- The length is between the limits. -/
structure AdmitsLength (low high : Option Int) (n : Nat) : Prop where
  low_le : ∀ l ∈ low, l ≤ n
  le_high : ∀ h ∈ high, n ≤ h

/-! ### Texts -/

/-- The lengths to draw from are never none. -/
theorem lengthRange_ordered (low : Int) (high : Option Int) :
    (lengthRange low high).1 ≤ (lengthRange low high).2 := by
  unfold lengthRange
  dsimp only
  omega

/-- The limits admit the lengths to draw from. -/
theorem LimitsLength.admits_of_lengthRange (limits : LimitsLength low high)
    (least_le : (lengthRange (low.getD 0) high).1 ≤ n)
    (le_greatest : n ≤ (lengthRange (low.getD 0) high).2) : AdmitsLength low high n.toNat := by
  unfold lengthRange at least_le le_greatest
  dsimp only at least_le le_greatest
  constructor
  · rintro l ⟨⟩
    rw [Option.getD_some] at least_le
    omega
  · rintro h ⟨⟩
    have h_nonneg := limits.high_nonneg h rfl
    rw [Option.getD_some] at le_greatest
    cases low with
    | none =>
        rw [Option.getD_none] at le_greatest
        omega
    | some l =>
        have l_le := limits.ordered l rfl h rfl
        rw [Option.getD_some] at le_greatest
        omega

theorem length_firstChars {count : Int} (nonneg : 0 ≤ count) (cs : List Char) :
    (firstChars count cs).length = min count.toNat cs.length := by
  rw [firstChars, if_pos nonneg, List.length_take]

/-- The canonical text is padded to the least length and then cut to the greatest one. -/
theorem LimitsLength.admits_canonicalText (limits : LimitsLength low high) :
    AdmitsLength low high (canonicalText (low.getD 0) high).length := by
  have padded : ("string".toList ++ List.replicate
      (low.getD 0 - "string".toList.length).toNat 'x').length
      = 6 + (low.getD 0 - 6).toNat := by
    rw [List.length_append, List.length_replicate]
    rfl
  unfold canonicalText
  dsimp only
  rw [String.length_ofList]
  cases high with
  | none =>
      dsimp only
      rw [padded]
      refine ⟨?_, nofun⟩
      rintro l ⟨⟩
      rw [Option.getD_some]
      omega
  | some h =>
      dsimp only
      rw [length_firstChars (limits.high_nonneg h rfl), padded]
      constructor
      · rintro l ⟨⟩
        have l_le := limits.ordered l rfl h rfl
        rw [Option.getD_some]
        omega
      · rintro _ ⟨⟩
        have h_nonneg := limits.high_nonneg h rfl
        omega

/-- As many letters are drawn as there are places. -/
theorem length_mapM_draw {α β : Type} (xs : List α) (draw : α → Draw β) (t : Twister) :
    ((xs.mapM draw).run t).1.length = xs.length := by
  induction xs generalizing t with
  | nil => rfl
  | cons x xs ih =>
      rw [List.mapM_cons]
      exact congrArg (· + 1) (ih _)

/-- A drawn text has the length that is drawn. -/
theorem length_drawnText (low : Int) (high : Option Int) (t : Twister) :
    ((drawnText low high).run t).1.length
      = ((Draw.between (lengthRange low high).1 (lengthRange low high).2).run t).1.toNat := by
  have letters (count : Nat) (t : Twister) : (String.ofList
      (((List.replicate count ()).mapM fun _ => letter).run t).1).length = count := by
    rw [String.length_ofList, length_mapM_draw, List.length_replicate]
  exact letters _ _

theorem LimitsLength.admits_drawnText (limits : LimitsLength low high) (t : Twister) :
    AdmitsLength low high ((drawnText (low.getD 0) high).run t).1.length := by
  have drawn := between_mem (lengthRange_ordered (low.getD 0) high) t
  rw [length_drawnText]
  exact limits.admits_of_lengthRange drawn.1 drawn.2

/-- Nothing is drawn, and the text would need more padding than there can be. -/
def Overflows (es : Entries) (source : Option Twister) : Prop :=
  source = none ∧ greatestPadding < (countAt? es "minLength").getD 0 - "string".length

/-- The sample of a text whose format has no sample of its own: one that the limits admit, unless it
overflows. -/
theorem result_sampleText (unformatted : (Entries.string? es "format").bind formatSample? = none)
    (limits : LimitsLength (countAt? es "minLength") (countAt? es "maxLength"))
    (source : Option Twister) :
    (Overflows es source → ((sampleText es).run source).result = .error .overflow)
      ∧ (¬ Overflows es source → ∃ text rest,
        ((sampleText es).run source).result = .ok (.string text, rest)
          ∧ AdmitsLength (countAt? es "minLength") (countAt? es "maxLength") text.length) := by
  have is_seeded : (Sampling.isSeeded.run source).result = .ok (source.isSome, source) := rfl
  rw [sampleText, unformatted]
  dsimp only
  rw [Sampling.result_bind_of_ok is_seeded]
  cases source with
  | none =>
      constructor
      · rintro ⟨-, long⟩
        rw [if_pos (by simpa using long)]
        rfl
      · intro fits
        rw [if_neg (by simpa [Overflows] using fits)]
        exact ⟨_, _, rfl, limits.admits_canonicalText⟩
  | some t =>
      refine ⟨fun ⟨unseeded, _⟩ => (nomatch unseeded), fun _ => ?_⟩
      rw [if_neg (by simp)]
      exact ⟨_, _, rfl, limits.admits_drawnText t⟩

/-- **Samples of texts.**  Let the limits of a primitive schema of texts be in order, and its format
have no sample of its own.  The lengths to draw from are never none; and the sample is a text whose
length the limits admit, without a seed and for each seed, unless the canonical text would need more
padding than there can be. -/
theorem sample_text_length (shallow : 0 < c.options.maxDepth)
    (entries : c.anchors.entries? schema = some es)
    (primitive : (Node.ofSchema c.anchors schema).result = .ok (.primitive f))
    (text : f.type = some "string")
    (unformatted : (Entries.string? es "format").bind formatSample? = none)
    (no_example : (if c.options.useExamples then exampleOf? c.anchors es else none) = none)
    (limits : LimitsLength (countAt? es "minLength") (countAt? es "maxLength")) :
    (lengthRange ((countAt? es "minLength").getD 0) (countAt? es "maxLength")).1
        ≤ (lengthRange ((countAt? es "minLength").getD 0) (countAt? es "maxLength")).2
      ∧ (Overflows es (c.options.seed.map Twister.ofSeed) →
        (sample c schema).result = .error .overflow)
      ∧ (¬ Overflows es (c.options.seed.map Twister.ofSeed) →
        ∃ text, (sample c schema).result = .ok (.string text)
          ∧ AdmitsLength (countAt? es "minLength") (countAt? es "maxLength") text.length) := by
  obtain ⟨overflows, admits⟩ :=
    result_sampleText unformatted limits (c.options.seed.map Twister.ofSeed)
  have sampled : (sample c schema).result
      = Prod.fst <$> ((sampleText es).run (c.options.seed.map Twister.ofSeed)).result := by
    rw [result_sample, descentLimit, result_of_primitive (by simpa using shallow) entries primitive
      no_example, samplePrimitive, text]
    rfl
  rw [sampled]
  refine ⟨lengthRange_ordered _ _, fun long => ?_, fun fits => ?_⟩
  · rw [overflows long]
    rfl
  · obtain ⟨text, rest, found, admitted⟩ := admits fits
    rw [found]
    exact ⟨text, rfl, admitted⟩

/-- A code of three to eight letters. -/
def codeSchema : Entries :=
  [(.string "type", .string "string"), (.string "format", .string "code"),
    (.string "minLength", .int 3), (.string "maxLength", .int 8)]

/-- The premises hold of codes. -/
theorem sample_text_length_code :
    (Node.ofSchema seeded.anchors (.object codeSchema)).result
        = .ok (.primitive (factsOf seeded.anchors codeSchema))
      ∧ LimitsLength (some 3) (some 8)
      ∧ ∃ text, (sample seeded (.object codeSchema)).result = .ok (.string text)
        ∧ AdmitsLength (some 3) (some 8) text.length := by
  have primitive : (Node.ofSchema seeded.anchors (.object codeSchema)).result
      = .ok (.primitive (factsOf seeded.anchors codeSchema)) := by cbv
  have limits : LimitsLength (countAt? codeSchema "minLength") (countAt? codeSchema "maxLength") :=
    ⟨by decide, by decide⟩
  have fits : ¬ Overflows codeSchema (seeded.options.seed.map Twister.ofSeed) := by
    rintro ⟨⟨⟩, -⟩
  exact ⟨primitive, limits, (sample_text_length (by decide) rfl primitive (by cbv) (by decide) rfl
    limits).2.2 fits⟩

/-! ### Lists -/

/-- No least length is given, the greatest one is zero, and one is drawn. -/
def Oversteps (low high : Option Int) (source : Option Twister) : Prop :=
  low = none ∧ high = some 0 ∧ ∃ t ∈ source, ((Draw.below 2).run t).1 = 1

/-- The canonical length of a list: the least one, or the greatest one where that is less than the
one item that is taken to be the least. -/
theorem LimitsLength.admits_canonicalLength (limits : LimitsLength low high) :
    AdmitsLength low high
      (match high with
        | some high => min (low.getD 1) high
        | none => low.getD 1).toNat := by
  cases high with
  | none =>
      refine ⟨?_, nofun⟩
      rintro l ⟨⟩
      exact Int.self_le_toNat l
  | some h =>
      dsimp only
      constructor
      · rintro l ⟨⟩
        have l_le := limits.ordered l rfl h rfl
        rw [Option.getD_some]
        omega
      · rintro _ ⟨⟩
        have h_nonneg := limits.high_nonneg h rfl
        omega

/-- The limits admit the lengths to draw from, unless a list must be empty and the least length is not
given. -/
theorem LimitsLength.admits_of_between (limits : LimitsLength low high)
    (roomy : low = none → high ≠ some 0)
    (least_le : min (low.getD 1) (high.getD (low.getD 1 + 3)) ≤ n)
    (le_greatest : n ≤ max (low.getD 1) (high.getD (low.getD 1 + 3))) :
    AdmitsLength low high n.toNat := by
  constructor
  · rintro l ⟨⟩
    rw [Option.getD_some] at least_le
    cases high with
    | none =>
        rw [Option.getD_none] at least_le
        omega
    | some h =>
        have l_le := limits.ordered l rfl h rfl
        rw [Option.getD_some] at least_le
        omega
  · rintro h ⟨⟩
    have h_nonneg := limits.high_nonneg h rfl
    rw [Option.getD_some] at le_greatest
    cases low with
    | none =>
        have h_ne : h ≠ 0 := fun zero => roomy rfl (congrArg some zero)
        rw [Option.getD_none] at le_greatest
        omega
    | some l =>
        have l_le := limits.ordered l rfl h rfl
        rw [Option.getD_some] at le_greatest
        omega

/-- Where one item is taken to be the least and there may be none, either is drawn. -/
theorem admits_drawn_iff (t : Twister) :
    AdmitsLength none (some 0) ((Draw.between 0 1).run t).1.toNat
      ↔ ¬ Oversteps none (some 0) (some t) := by
  have drawn : ((Draw.between 0 1).run t).1.toNat = ((Draw.below 2).run t).1 := by
    show (0 + (((Draw.below 2).run t).1 : Int)).toNat = _
    omega
  have less := Draw.below_lt (n := 2) (by decide) t
  rw [drawn]
  constructor
  · rintro ⟨-, le⟩ ⟨-, -, _, ⟨⟩, one⟩
    have none_drawn := le 0 rfl
    omega
  · intro within
    refine ⟨nofun, ?_⟩
    rintro _ ⟨⟩
    have not_one : ((Draw.below 2).run t).1 ≠ 1 := fun one => within ⟨rfl, rfl, t, rfl, one⟩
    omega

/-- The number of items of a list: one that the limits admit, unless one item is drawn where there
may be none. -/
theorem exists_sampleLength
    (limits : LimitsLength (countAt? es "minItems") (countAt? es "maxItems"))
    (source : Option Twister) :
    ∃ count rest, ((sampleLength es).run source).result = .ok (count, rest)
      ∧ (AdmitsLength (countAt? es "minItems") (countAt? es "maxItems") count
        ↔ ¬ Oversteps (countAt? es "minItems") (countAt? es "maxItems") source) := by
  cases source with
  | none =>
      exact ⟨_, none, rfl, iff_of_true limits.admits_canonicalLength
        fun ⟨_, _, _, drawn, _⟩ => (nomatch drawn)⟩
  | some t =>
      refine ⟨_, _, rfl, ?_⟩
      by_cases roomy : countAt? es "minItems" = none → countAt? es "maxItems" ≠ some 0
      · have drawn := between_mem (min_le_max (a := (countAt? es "minItems").getD 1)
          (b := (countAt? es "maxItems").getD ((countAt? es "minItems").getD 1 + 3))) t
        exact iff_of_true (limits.admits_of_between roomy drawn.1 drawn.2)
          fun ⟨open_below, empty, _⟩ => roomy open_below empty
      · obtain ⟨open_below, empty⟩ := Classical.not_imp.1 roomy
        rw [open_below, not_not.1 empty]
        exact admits_drawn_iff t

/-- What is read as an array is no reference. -/
theorem plain_of_array (entries : c.anchors.entries? schema = some es)
    (found : (Node.ofSchema c.anchors schema).result = .ok node) (array : node.kind = .array) :
    Entries.string? es "$ref" = none := by
  have none_active : ∀ n ∈ ([] : List Nat), schema ≠ .aliasTo n :=
    fun n mem => absurd mem List.not_mem_nil
  obtain ⟨inner, same, -⟩ := exists_classify_eq entries none_active
  rw [Node.ofSchema, same] at found
  by_contra refers
  obtain ⟨ref, refers⟩ := Option.ne_none_iff_exists'.1 refers
  have kind := (keywords_and_kind_of_ofEntries found).2
  rw [formOf_of_reference refers, array] at kind
  cases kind

/-- The sample of an array that gives no example and no values and joins no schemas. -/
theorem result_of_array (shallow : (depth : Int) < c.options.maxDepth)
    (entries : c.anchors.entries? schema = some es)
    (found : (Node.ofSchema c.anchors schema).result = .ok node) (array : node.kind = .array)
    (no_example : (if c.options.useExamples then exampleOf? c.anchors es else none) = none)
    (no_values : (c.anchors.listAt? es "enum").getD [] = [])
    (unjoined : ∀ combinator ∈ Combinator.all, c.anchors.listAt? es combinator.keyword = none)
    (source : Option Twister) :
    ((sampleWithin c (limit + 1) refs depth schema).run source).result
      = ((sampleItems c refs depth es limit).run source).result := by
  have bare : Bare c es := ⟨plain_of_array entries found array, no_example, no_values⟩
  rw [sampleWithin_of_unjoined entries shallow bare unjoined, sampleShape,
    Sampling.result_bind_of_ok (Sampling.result_lift found _), array]

/-- The sample of an array is a list of as many items as are counted; it fails only where an item
does. -/
theorem result_sampleItems (c : Context) (refs : List String) (depth limit : Nat) {count : Nat}
    {source rest : Option Twister}
    (counted : ((sampleLength es).run source).result = .ok (count, rest)) :
    (∃ xs left, ((sampleItems c refs depth es limit).run source).result = .ok (.list xs, left)
        ∧ xs.length = count)
      ∨ ∃ e left, ((sampleItems c refs depth es limit).run source).result = .error e
        ∧ ((sampleWithin c limit refs (depth + 1) ((Entries.get? es "items").getD .null)).run
          left).result = .error e := by
  unfold sampleItems
  dsimp only
  rw [Sampling.result_bind_of_ok counted]
  generalize (Entries.get? es "items").getD .null = items
  cases drawn : (((List.replicate count items).mapM fun items =>
      sampleWithin c limit refs (depth + 1) items).run rest).result with
  | ok ends =>
      obtain ⟨xs, left⟩ := ends
      have as_many := Sampling.yields_length _ _ rest xs left drawn
      rw [Sampling.result_bind_of_ok drawn]
      exact .inl ⟨xs, left, rfl, as_many.trans List.length_replicate⟩
  | error e =>
      obtain ⟨item, mem, left, failed⟩ := Sampling.exists_error_of_mapM drawn
      rw [List.eq_of_mem_replicate mem] at failed
      refine .inr ⟨e, left, ?_, failed⟩
      rw [StateT.run_bind, Traced.result_bind, drawn]
      rfl

/-- **Samples of lists.**  Let the limits of an array be in order, and let it give no values and join
no schemas.  Its sample is a list whose length the limits admit if and only if it does not overstep:
the least length is given, or the greatest one is not zero, or nothing is drawn, or zero is.  There is
no sample only where its items have none. -/
theorem sample_list_length_iff (shallow : 0 < c.options.maxDepth)
    (entries : c.anchors.entries? schema = some es)
    (found : (Node.ofSchema c.anchors schema).result = .ok node) (array : node.kind = .array)
    (no_example : (if c.options.useExamples then exampleOf? c.anchors es else none) = none)
    (no_values : (c.anchors.listAt? es "enum").getD [] = [])
    (unjoined : ∀ combinator ∈ Combinator.all, c.anchors.listAt? es combinator.keyword = none)
    (limits : LimitsLength (countAt? es "minItems") (countAt? es "maxItems")) :
    (∀ v, (sample c schema).result = .ok v → ∃ xs, v = .list xs
        ∧ (AdmitsLength (countAt? es "minItems") (countAt? es "maxItems") xs.length
          ↔ ¬ Oversteps (countAt? es "minItems") (countAt? es "maxItems")
            (c.options.seed.map Twister.ofSeed)))
      ∧ ∀ e, (sample c schema).result = .error e → ∃ limit source,
        ((sampleWithin c limit [] 1 ((Entries.get? es "items").getD .null)).run source).result
          = .error e := by
  obtain ⟨count, rest, counted, admitted⟩ :=
    exists_sampleLength limits (c.options.seed.map Twister.ofSeed)
  rw [result_sample, descentLimit, result_of_array (by simpa using shallow) entries found array
    no_example no_values unjoined]
  obtain ⟨xs, left, sampled, as_many⟩ | ⟨e, left, failed, at_item⟩ :=
    result_sampleItems c [] 0 899 counted
  · rw [sampled]
    constructor
    · rintro _ ⟨⟩
      exact ⟨xs, rfl, as_many ▸ admitted⟩
    · rintro _ ⟨⟩
  · rw [failed]
    constructor
    · rintro _ ⟨⟩
    · rintro _ ⟨⟩
      exact ⟨_, left, at_item⟩

/-- Two or three names. -/
def namesSchema : Entries :=
  [(.string "type", .string "array"), (.string "items", .object [(.string "type", .string "string")]),
    (.string "minItems", .int 2), (.string "maxItems", .int 3)]

/-- The premises hold of lists of names. -/
theorem sample_list_length_names :
    (Node.ofSchema seeded.anchors (.object namesSchema)).result
        = .ok (.array (factsOf seeded.anchors namesSchema)
          (some (.primitive (factsOf seeded.anchors [(.string "type", .string "string")]))))
      ∧ LimitsLength (some 2) (some 3)
      ∧ ∀ v, (sample seeded (.object namesSchema)).result = .ok v → ∃ xs, v = .list xs
        ∧ (AdmitsLength (some 2) (some 3) xs.length
          ↔ ¬ Oversteps (some 2) (some 3) (seeded.options.seed.map Twister.ofSeed)) := by
  have found : (Node.ofSchema seeded.anchors (.object namesSchema)).result
      = .ok (.array (factsOf seeded.anchors namesSchema)
        (some (.primitive (factsOf seeded.anchors [(.string "type", .string "string")])))) := by
    cbv
  have limits : LimitsLength (countAt? namesSchema "minItems") (countAt? namesSchema "maxItems") :=
    ⟨by decide, by decide⟩
  exact ⟨found, limits, (sample_list_length_iff (by decide) rfl found rfl rfl rfl
    (by decide) limits).1⟩

/-- A list that must be empty. -/
def emptySchema : Entries := [(.string "type", .string "array"), (.string "maxItems", .int 0)]

/-- Where one is drawn, the sample of the list that must be empty has an item. -/
theorem result_sampleItems_empty {t : Twister} (one : ((Draw.below 2).run t).1 = 1) :
    ((sampleItems c [] 0 emptySchema 899).run (some t)).result
      = .ok (.list [.null], some ((Draw.between 0 1).run t).2) := by
  have drawn : ((Draw.between 0 1).run t).1 = 1 := by
    show 0 + (((Draw.below 2).run t).1 : Int) = 1
    rw [one]
    rfl
  have counted : ((sampleLength emptySchema).run (some t)).result
      = .ok (1, some ((Draw.between 0 1).run t).2) := by
    show Except.ok (((Draw.between 0 1).run t).1.toNat, _) = _
    rw [drawn]
    rfl
  rw [sampleItems, Sampling.result_bind_of_ok counted]
  rfl

/-- The list that must be empty is sampled with an item for the seed zero. -/
theorem sample_empty_not_admitted :
    (Node.ofSchema {} (.object emptySchema)).result
        = .ok (.array (factsOf {} emptySchema) none)
      ∧ LimitsLength (countAt? emptySchema "minItems") (countAt? emptySchema "maxItems")
      ∧ Oversteps (countAt? emptySchema "minItems") (countAt? emptySchema "maxItems")
        (some (Twister.ofSeed 0))
      ∧ (sample ⟨{}, none, { seed := some 0 }⟩ (.object emptySchema)).result
        = .ok (.list [.null])
      ∧ ¬ AdmitsLength (countAt? emptySchema "minItems") (countAt? emptySchema "maxItems")
        [Value.null].length := by
  have found : (Node.ofSchema {} (.object emptySchema)).result
      = .ok (.array (factsOf {} emptySchema) none) := by cbv
  have sampled := result_sampleItems_empty
    (c := ⟨{}, none, { seed := some 0 }⟩) Twister.below_two_ofSeed_zero
  refine ⟨found, ⟨by decide, by decide⟩, ⟨rfl, rfl, _, rfl, Twister.below_two_ofSeed_zero⟩, ?_,
    fun admitted => absurd (admitted.le_high 0 rfl) (by decide)⟩
  rw [result_sample, descentLimit, result_of_array (by decide) rfl found rfl rfl rfl (by decide)]
  exact congrArg (Prod.fst <$> ·) sampled

end SchemaCodegen.Mock
