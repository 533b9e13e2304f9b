import SchemaCodegen.Proofs.Number.Limits
import SchemaCodegen.Proofs.Zod.Complete

/-!
# Bounds of big integers

An integer of the format `int64` may be validated as a big integer.  Its bounds are then literals of
big integers, and a bound with a fraction is cut to its whole part.

A schema declares limits of numbers (`Node.limits`), and its validator has conditions, whose literals
are read back as integers (`bigInteger?`).  The conditions of a big integer are those of the limits
after cutting (`boundCondition_eq`).  So an integer that the schema allows need not be one that the
validator admits, nor the other way round: they are the same integers exactly when each limit keeps
its integers when it is cut, or when there are none of either (`admits_iff_allows_iff`).
-/

namespace SchemaCodegen

/-- The rational value of a number. -/
def Value.rational? : Value → Option ℚ
  | .int n => some n
  | .float x => x.datum.value?.bind Sum.getLeft?
  | _ => none

/-- The value is no infinity and no NaN. -/
def Value.isFinite : Value → Bool
  | .float x => x.isFinite
  | _ => true

namespace Node

/-- The rational number under a keyword. -/
def rationalAt? (node : Node) (key : String) : Option ℚ := (node.get? key).bind Value.rational?

/-- The limit under a keyword, which a flag may make exclusive, and the exclusive one under a keyword
of its own. -/
def limits (node : Node) (bound exclusiveBound : String) : List Limit :=
  (node.rationalAt? bound).toList.map (⟨·, node.isSet exclusiveBound⟩)
    ++ (node.rationalAt? exclusiveBound).toList.map (⟨·, true⟩)

/-- The lower limits that a schema declares. -/
def lowerLimits (node : Node) : List Limit := node.limits "minimum" "exclusiveMinimum"

/-- The upper limits that a schema declares. -/
def upperLimits (node : Node) : List Limit := node.limits "maximum" "exclusiveMaximum"

/-- The integer is within the limits that a schema declares. -/
def Allows (node : Node) (x : Int) : Prop :=
  (∀ limit ∈ node.lowerLimits, limit.Below x) ∧ ∀ limit ∈ node.upperLimits, limit.Above x

/-- The numbers under keywords are finite. -/
def FiniteAt (node : Node) (keys : List String) : Prop :=
  ∀ key ∈ keys, ∀ v ∈ node.get? key, v.isFinite = true

instance (node : Node) (keys : List String) : Decidable (node.FiniteAt keys) :=
  inferInstanceAs (Decidable (∀ key ∈ keys, ∀ v ∈ node.get? key, v.isFinite = true))

theorem FiniteAt.mono {node : Node} {keys more : List String} (finite : node.FiniteAt more)
    (subset : keys ⊆ more) : node.FiniteAt keys := fun key mem => finite key (subset mem)

end Node

namespace Zod

open Binary64

variable {c : Context} {f : Facts} {node : Node} {v : Value} {key : String} {x : Int}

/-! ### Literals -/

/-- The literal of a big integer. -/
def bigLiteral (n : Int) : String := toString n ++ "n"

/-- The big integer that a literal stands for. -/
def bigInteger? (literal : String) : Option Int :=
  if literal.toList.getLast? = some 'n' then (String.ofList literal.toList.dropLast).toInt?
  else none

theorem bigInteger?_bigLiteral (n : Int) : bigInteger? (bigLiteral n) = some n := by
  have ends : (bigLiteral n).toList = (toString n).toList ++ ['n'] := String.toList_append
  rw [bigInteger?, ends, List.getLast?_concat, if_pos rfl, List.dropLast_concat, String.ofList_toList]
  exact Int.toInt?_repr n

/-- A number that is finite has a rational value, and its literal as a big integer is that of the
value cut toward zero. -/
theorem numberLiteral_eq (number : isNumber v = true) (finite : v.isFinite = true) :
    ∃ q, v.rational? = some q ∧ numberLiteral true v = .ok (bigLiteral (towardZero q)) := by
  obtain ⟨n, rfl⟩ | ⟨x, rfl⟩ := isNumber_cases number
  · refine ⟨n, rfl, ?_⟩
    rw [towardZero_intCast]
    rfl
  · obtain ⟨q, value⟩ := exists_value? (x := x) finite
    refine ⟨q, ?_, ?_⟩
    · show x.datum.value?.bind Sum.getLeft? = some q
      rw [value]
      rfl
    · rw [numberLiteral, if_pos rfl, wholePart, truncate?_eq value]
      rfl

theorem rational?_eq_none (number : ¬ isNumber v = true) : v.rational? = none := by
  unfold isNumber at number
  unfold Value.rational?
  split
  · exact absurd rfl number
  · exact absurd rfl number
  · rfl

/-- What stands under a keyword is no number, or a number with a rational value and the literal of
that value cut toward zero. -/
theorem numberAt?_cases (finite : ∀ v ∈ node.get? key, v.isFinite = true) :
    (numberAt? node key = none ∧ node.rationalAt? key = none)
      ∨ ∃ v q, numberAt? node key = some v ∧ node.rationalAt? key = some q
        ∧ numberLiteral true v = .ok (bigLiteral (towardZero q)) := by
  unfold numberAt? Node.rationalAt?
  cases at_key : node.get? key with
  | none => exact .inl ⟨rfl, rfl⟩
  | some v =>
      by_cases number : isNumber v = true
      · obtain ⟨q, value, literal⟩ := numberLiteral_eq number (finite v at_key)
        exact .inr ⟨v, q, Option.filter_some_pos number, value, literal⟩
      · exact .inl ⟨Option.filter_some_neg (Bool.eq_false_iff.2 number), rational?_eq_none number⟩

/-! ### Conditions of limits -/

/-- The condition of a limit after cutting. -/
def cutCondition (inclusive exclusive : String) (limit : Limit) : String × String :=
  (if limit.exclusive then exclusive else inclusive, bigLiteral (towardZero limit.number))

/-- The condition that a bound is given as is that of the limit which is declared, after cutting. -/
theorem boundCondition_eq {bound exclusiveBound : String} (inclusive exclusive : String)
    (finite : node.FiniteAt [bound, exclusiveBound])
    (single : (node.limits bound exclusiveBound).length ≤ 1) :
    boundCondition node true bound exclusiveBound inclusive exclusive
      = .ok ((node.limits bound exclusiveBound).map (cutCondition inclusive exclusive)) := by
  have finite_bound := finite bound List.mem_cons_self
  have finite_exclusive := finite exclusiveBound (List.mem_cons_of_mem _ List.mem_cons_self)
  unfold boundCondition
  unfold Node.limits at single ⊢
  obtain ⟨none_at, none_value⟩ | ⟨v, q, at_bound, value, literal⟩ := numberAt?_cases finite_bound
  · obtain ⟨none_at', none_value'⟩ | ⟨w, r, at_exclusive, value', literal'⟩ :=
      numberAt?_cases finite_exclusive
    · rw [none_at, none_at', none_value, none_value']
      rfl
    · rw [none_at, at_exclusive, none_value, value']
      dsimp only
      rw [literal']
      rfl
  · obtain ⟨none_at', none_value'⟩ | ⟨w, r, at_exclusive, value', literal'⟩ :=
      numberAt?_cases finite_exclusive
    · rw [at_bound, value, none_value']
      dsimp only
      rw [literal]
      rfl
    · rw [value, value'] at single
      exact absurd single (by simp)

/-- The condition of a step, if there is one, is no bound. -/
theorem exists_step (finite : node.FiniteAt ["multipleOf"]) :
    ∃ step : List (String × String), (∀ condition ∈ step, condition.1 = "multipleOf")
      ∧ stepCondition node true = .ok step := by
  unfold stepCondition
  obtain ⟨none_at, -⟩ | ⟨v, q, at_step, -, literal⟩ :=
    numberAt?_cases (finite "multipleOf" List.mem_cons_self)
  · rw [none_at]
    exact ⟨[], List.forall_mem_nil _, rfl⟩
  · rw [at_step]
    dsimp only
    rw [literal]
    exact ⟨_, List.forall_mem_singleton.2 rfl, rfl⟩

/-- A number validated as a big integer has the conditions of its limits after cutting, and maybe one
of its step. -/
theorem numberValidator_eq (node : Node) (lead : String) (integer : Bool)
    (int64 : node.facts.format = some "int64") (as_bigint : c.options.int64AsBigint = true)
    (finite : node.FiniteAt
      ["minimum", "exclusiveMinimum", "maximum", "exclusiveMaximum", "multipleOf"])
    (single_lower : node.lowerLimits.length ≤ 1) (single_upper : node.upperLimits.length ≤ 1) :
    ∃ step : List (String × String), (∀ condition ∈ step, condition.1 = "multipleOf")
      ∧ numberValidator c node lead integer = .ok ((Validator.base "z.coerce.bigint()").calls
        (node.lowerLimits.map (cutCondition "min" "gt")
          ++ node.upperLimits.map (cutCondition "max" "lt") ++ step)) := by
  have bigint : (node.facts.format == some "int64" && c.options.int64AsBigint) = true := by
    rw [int64, as_bigint]
    rfl
  have lower := boundCondition_eq "min" "gt" (finite.mono (by simp)) single_lower
  have upper := boundCondition_eq "max" "lt" (finite.mono (by simp)) single_upper
  obtain ⟨step, is_step, at_step⟩ := exists_step (finite.mono (by simp))
  refine ⟨step, is_step, ?_⟩
  unfold numberValidator
  dsimp only
  rw [bigint, lower, upper, at_step]
  rfl

/-! ### Conditions of a validator -/

/-- The conditions of a validator, in order. -/
def Validator.conditions : Validator → List (String × String)
  | .call inner method argument => inner.conditions ++ [(method, argument)]
  | .nullable inner => inner.conditions
  | _ => []

/-- The call of a condition. -/
def callText (condition : String × String) : String :=
  "." ++ condition.1 ++ "(" ++ condition.2 ++ ")"

/-- An integer meets a condition.  A condition that is no bound is met by all. -/
def meets (x : Int) : String × String → Bool
  | ("min", literal) => (bigInteger? literal).any fun n => n ≤ x
  | ("gt", literal) => (bigInteger? literal).any fun n => n < x
  | ("max", literal) => (bigInteger? literal).any fun n => x ≤ n
  | ("lt", literal) => (bigInteger? literal).any fun n => x < n
  | _ => true

/-- An integer meets the bounds of a validator. -/
def Validator.admits (v : Validator) (x : Int) : Bool := v.conditions.all (meets x)

theorem calls_cons (v : Validator) (condition : String × String)
    (conditions : List (String × String)) :
    v.calls (condition :: conditions) = (Validator.call v condition.1 condition.2).calls conditions :=
  rfl

theorem calls_concat (v : Validator) (condition : String × String)
    (conditions : List (String × String)) :
    v.calls (conditions ++ [condition])
      = .call (v.calls conditions) condition.1 condition.2 := by
  rw [Validator.calls, List.foldl_append]
  rfl

theorem conditions_calls (v : Validator) (conditions : List (String × String)) :
    (v.calls conditions).conditions = v.conditions ++ conditions := by
  induction conditions generalizing v with
  | nil => exact (List.append_nil _).symm
  | cons condition rest ih => rw [calls_cons, ih, Validator.conditions, List.append_assoc,
      List.singleton_append]

theorem text_calls (v : Validator) (conditions : List (String × String)) (depth : Nat) :
    (v.calls conditions).text depth = v.text depth ++ String.join (conditions.map callText) := by
  induction conditions generalizing v with
  | nil =>
      rw [List.map_nil, String.join_nil, String.append_empty]
      rfl
  | cons condition rest ih =>
      rw [calls_cons, ih, text_call, List.map_cons, String.join_cons]
      simp only [callText, String.append_assoc]

theorem meets_lower (limit : Limit) :
    meets x (cutCondition "min" "gt" limit) = true ↔ limit.cut.Below x := by
  unfold cutCondition Limit.Below
  rw [Limit.exclusive_cut]
  split
  · rw [meets, bigInteger?_bigLiteral, Option.any_some, decide_eq_true_iff]
    exact Int.cast_lt.symm
  · rw [meets, bigInteger?_bigLiteral, Option.any_some, decide_eq_true_iff]
    exact Int.cast_le.symm

theorem meets_upper (limit : Limit) :
    meets x (cutCondition "max" "lt" limit) = true ↔ limit.cut.Above x := by
  unfold cutCondition Limit.Above
  rw [Limit.exclusive_cut]
  split
  · rw [meets, bigInteger?_bigLiteral, Option.any_some, decide_eq_true_iff]
    exact Int.cast_lt.symm
  · rw [meets, bigInteger?_bigLiteral, Option.any_some, decide_eq_true_iff]
    exact Int.cast_le.symm

/-- A description adds one call to a chain of calls. -/
theorem described_calls (c : Context) (node : Node) (v : Validator)
    (conditions : List (String × String)) :
    ∃ description : List (String × String), (∀ condition ∈ description, condition.1 = "describe")
      ∧ described c node (v.calls conditions) = v.calls (conditions ++ description) := by
  unfold described
  split
  · next text _ =>
      split
      · exact ⟨[], List.forall_mem_nil _, by rw [List.append_nil]⟩
      · exact ⟨[("describe", Json.stringText true text)], List.forall_mem_singleton.2 rfl,
          (calls_concat _ ("describe", _) _).symm⟩
  · exact ⟨[], List.forall_mem_nil _, by rw [List.append_nil]⟩

/-- A chain of calls that is finished stays one: at most a description is added, and at most `null`
is admitted. -/
theorem finished_calls (c : Context) (node : Node) (lead : String)
    (conditions : List (String × String)) :
    ∃ description : List (String × String), (∀ condition ∈ description, condition.1 = "describe")
      ∧ (finished c node ((Validator.base lead).calls conditions)).conditions
        = conditions ++ description
      ∧ ∃ ending ∈ ["", nullableCall],
        (finished c node ((Validator.base lead).calls conditions)).text 0
          = lead ++ String.join ((conditions ++ description).map callText) ++ ending := by
  obtain ⟨description, is_description, chain⟩ := described_calls c node (.base lead) conditions
  refine ⟨description, is_description, ?_⟩
  have at_conditions := conditions_calls (.base lead) (conditions ++ description)
  have at_text := text_calls (.base lead) (conditions ++ description) 0
  rw [finished, chain, admitNull]
  generalize (Validator.base lead).calls (conditions ++ description) = v at at_conditions at_text ⊢
  split
  · refine ⟨at_conditions, ?_⟩
    change ∃ ending ∈ _, withNullable (v.text 0) = _
    rw [withNullable, at_text]
    split
    · exact ⟨"", List.mem_cons_self, String.append_empty.symm⟩
    · exact ⟨nullableCall, List.mem_cons_of_mem _ List.mem_cons_self, rfl⟩
  · exact ⟨at_conditions, "", List.mem_cons_self, by rw [at_text, String.append_empty]; rfl⟩

/-- An integer meets the conditions of limits, whatever is said besides. -/
theorem all_meets_iff {lowers uppers : List Limit} {step description : List (String × String)}
    (is_step : ∀ condition ∈ step, condition.1 = "multipleOf")
    (is_description : ∀ condition ∈ description, condition.1 = "describe") :
    (lowers.map (cutCondition "min" "gt") ++ uppers.map (cutCondition "max" "lt") ++ step
        ++ description).all (meets x) = true
      ↔ (∀ limit ∈ lowers, limit.cut.Below x) ∧ ∀ limit ∈ uppers, limit.cut.Above x := by
  have step_met : step.all (meets x) = true := List.all_eq_true.2 fun ⟨method, argument⟩ mem => by
    cases is_step _ mem
    rfl
  have description_met : description.all (meets x) = true :=
    List.all_eq_true.2 fun ⟨method, argument⟩ mem => by
      cases is_description _ mem
      rfl
  simp only [List.all_append, step_met, description_met, Bool.and_true, Bool.and_eq_true,
    List.all_map, List.all_eq_true, Function.comp_apply, meets_lower, meets_upper]

/-! ### The same integers -/

/-- The validator of a primitive schema is that of its type, finished. -/
theorem result_validatorOf {schema : Value} {v : Validator}
    (classified : (Node.ofSchema c.anchors schema).result = .ok (.primitive f))
    (found : primitiveValidator c (.primitive f) = .ok v) :
    (validatorOf c schema).result = .ok (finished c (.primitive f) v) := by
  refine Traced.result_bind_eq_ok.2 ⟨_, classified, ?_⟩
  rw [Validator.ofNode, found]
  rfl

/-- **A validator of big integers** admits the integers that the schema allows exactly when each limit
keeps its integers when it is cut toward zero, or when there is no integer of either kind. -/
theorem admits_iff_allows_iff {schema : Value}
    (classified : (Node.ofSchema c.anchors schema).result = .ok (.primitive f))
    (integer : validatedType? c f = some "integer") (int64 : f.format = some "int64")
    (as_bigint : c.options.int64AsBigint = true)
    (finite : (Node.primitive f).FiniteAt
      ["minimum", "exclusiveMinimum", "maximum", "exclusiveMaximum", "multipleOf"])
    (single_lower : (Node.primitive f).lowerLimits.length ≤ 1)
    (single_upper : (Node.primitive f).upperLimits.length ≤ 1) :
    ∃ v, (validatorOf c schema).result = .ok v
      ∧ (∃ ending ∈ ["", nullableCall], v.text 0
        = "z.coerce.bigint()" ++ String.join (v.conditions.map callText) ++ ending)
      ∧ ((∀ x, v.admits x = true ↔ (Node.primitive f).Allows x) ↔
        ((∀ limit ∈ (Node.primitive f).lowerLimits,
            limit.IsWhole ∨ (limit.exclusive = true ↔ 0 < limit.number))
          ∧ ∀ limit ∈ (Node.primitive f).upperLimits,
            limit.IsWhole ∨ (limit.exclusive = true ↔ limit.number < 0))
        ∨ ∀ x, ¬ v.admits x = true ∧ ¬ (Node.primitive f).Allows x) := by
  obtain ⟨step, is_step, chain⟩ := numberValidator_eq (.primitive f)
    (if c.options.coerce then "z.coerce." else "z.") true int64 as_bigint finite single_lower
    single_upper
  generalize at_conditions : List.map (cutCondition "min" "gt") (Node.primitive f).lowerLimits
      ++ List.map (cutCondition "max" "lt") (Node.primitive f).upperLimits ++ step
    = conditions at chain
  obtain ⟨description, is_description, finished_conditions, finished_text⟩ :=
    finished_calls c (.primitive f) "z.coerce.bigint()" conditions
  have validated := result_validatorOf classified (v := (Validator.base _).calls conditions) (by
    rw [primitiveValidator, Node.facts, integer]
    exact chain)
  generalize finished c (.primitive f) ((Validator.base "z.coerce.bigint()").calls conditions) = v
    at finished_conditions finished_text validated
  refine ⟨v, validated, by rw [finished_conditions]; exact finished_text, ?_⟩
  have admits x : v.admits x = true
      ↔ (∀ limit ∈ (Node.primitive f).lowerLimits, limit.cut.Below x)
        ∧ ∀ limit ∈ (Node.primitive f).upperLimits, limit.cut.Above x := by
    rw [Validator.admits, finished_conditions, ← at_conditions]
    exact all_meets_iff is_step is_description
  simp only [admits, Node.Allows]
  exact cut_limits_iff single_lower single_upper

/-- A share of big integers, above `2.5` and not above `99.5`. -/
def shareFacts : Facts where
  keywords := [(.string "type", .string "integer"), (.string "format", .string "int64"),
    (.string "exclusiveMinimum", .float ⟨0x4004000000000000⟩),
    (.string "maximum", .float ⟨0x4058E00000000000⟩)]
  type := some "integer"
  format := some "int64"

/-- Where big integers are asked for. -/
def bigContext : Context := ⟨{}, none, { int64AsBigint := true }, false⟩

theorem share_admits_iff_allows_iff :
    ∃ v, (validatorOf bigContext (.object shareFacts.keywords)).result = .ok v
      ∧ (∃ ending ∈ ["", nullableCall], v.text 0
        = "z.coerce.bigint()" ++ String.join (v.conditions.map callText) ++ ending)
      ∧ ((∀ x, v.admits x = true ↔ (Node.primitive shareFacts).Allows x) ↔
        ((∀ limit ∈ (Node.primitive shareFacts).lowerLimits,
            limit.IsWhole ∨ (limit.exclusive = true ↔ 0 < limit.number))
          ∧ ∀ limit ∈ (Node.primitive shareFacts).upperLimits,
            limit.IsWhole ∨ (limit.exclusive = true ↔ limit.number < 0))
        ∨ ∀ x, ¬ v.admits x = true ∧ ¬ (Node.primitive shareFacts).Allows x) := by
  exact admits_iff_allows_iff (c := bigContext) (f := shareFacts) (by cbv) rfl rfl rfl
    (by decide +kernel) (by decide +kernel) (by decide +kernel)

/-- At least `0.5`. -/
def halfFacts : Facts where
  keywords := [(.string "type", .string "integer"), (.string "format", .string "int64"),
    (.string "minimum", .float ⟨0x3FE0000000000000⟩)]
  type := some "integer"
  format := some "int64"

/-- A lower bound of `0.5` is cut to `0`, which lets in `0` itself. -/
theorem half_not_kept :
    ∃ v, (validatorOf bigContext (.object halfFacts.keywords)).result = .ok v
      ∧ v.text 0 = "z.coerce.bigint().min(0n)"
      ∧ v.admits 0 = true ∧ ¬ (Node.primitive halfFacts).Allows 0 := by
  have classified : (Node.ofSchema bigContext.anchors (.object halfFacts.keywords)).result
      = .ok (.primitive halfFacts) := by cbv
  refine ⟨.call (.base "z.coerce.bigint()") "min" (bigLiteral 0), result_validatorOf classified rfl,
    rfl, ?_, ?_⟩
  · show ((bigInteger? (bigLiteral 0)).any fun n => n ≤ 0) && true
    rw [bigInteger?_bigLiteral]
    rfl
  · rintro ⟨lower, -⟩
    have word : (⟨0x3FE0000000000000⟩ : Binary64).datum = .finite false (2 ^ 52) (-53) := by
      decide +kernel
    have value : (Node.primitive halfFacts).rationalAt? "minimum"
        = some (((2 ^ 52 : Int) : ℚ) * 2 ^ (-53 : Int)) := by
      show (Datum.value? (Binary64.datum ⟨0x3FE0000000000000⟩)).bind Sum.getLeft? = _
      rw [word]
      rfl
    have half := lower ⟨_, false⟩
      (List.mem_append_left _ (List.mem_map_of_mem (Option.mem_toList.2 value)))
    rw [Limit.Below, if_neg Bool.false_ne_true] at half
    norm_num at half

end Zod

end SchemaCodegen
