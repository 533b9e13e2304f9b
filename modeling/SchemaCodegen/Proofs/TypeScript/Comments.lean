import Mathlib
import SchemaCodegen.Proofs.Schema.Classify
import SchemaCodegen.Proofs.TypeScript.Misreading

/-!
# Which descriptions keep the meaning of types

A description becomes a comment in the written type.  Types keep their meaning for exactly
those descriptions whose comments are neutral (`keepsMeaning_iff`): no other text of a schema
matters, and for every comment that is not neutral there is a schema whose type is misread.

The schema is a list whose items are a choice between a text and an object with the
description, in as many dictionaries as the comment has characters (`boxedKeywords`).
-/

namespace SchemaCodegen.TypeScript

variable {es fs : Entries} {e e' : TypeExpr} {description : String}

/-! ### Schemas by their keywords -/

/-- No anchors, no dictionary and default options. -/
def Context.bare : Context := ⟨{}, none, {}, false⟩

/-- The keywords are a schema of the type. -/
def Types (es : Entries) (e : TypeExpr) : Prop :=
  ∃ node, Node.classify {} [] (.object es) = pure node ∧ node.kind ≠ .empty
    ∧ (TypeExpr.ofNode .bare node).result = .ok e

/-- A date with a description. -/
def dateKeywords (description : String) : Entries :=
  [(.string "format", .string "date"), (.string "description", .string description)]

/-- An object with a property. -/
def objectKeywords (property : Entries) : Entries :=
  [(.string "properties", .record [("a", .object property)])]

/-- A dictionary of values. -/
def dictionaryKeywords (values : Entries) : Entries :=
  [(.string "additionalProperties", .object values)]

/-- A choice between two schemas. -/
def choiceKeywords (first second : Entries) : Entries :=
  [(.string "oneOf", .list [.object first, .object second])]

/-- A list of items. -/
def listKeywords (items : Entries) : Entries := [(.string "items", .object items)]

theorem result_typesOf_cons {c : Context} {node : Node} {nodes : List Node} {types : List TypeExpr}
    (first : (TypeExpr.ofNode c node).result = .ok e)
    (rest : (typesOf c nodes).result = .ok types) :
    (typesOf c (node :: nodes)).result = .ok (e :: types) := by
  rw [typesOf]
  exact Traced.result_bind_eq_ok.2 ⟨e, first, Traced.result_bind_eq_ok.2 ⟨types, rest, rfl⟩⟩

theorem classify_date (description : String) :
    Node.classify {} [] (.object (dateKeywords description))
      = pure (.primitive (factsOf {} (dateKeywords description))) := by
  have shape : formOf {} (dateKeywords description) = .primitive := rfl
  rw [Node.classify, Node.ofEntries]
  simp only [shape]

theorem types_date (description : String) :
    Types (dateKeywords description) (.builtin "string") :=
  ⟨.primitive (factsOf {} (dateKeywords description)), classify_date description, nofun, rfl⟩

theorem types_object (spoken : Text.isBlankText description = false) :
    Types (objectKeywords (dateKeywords description))
      (.structure [.mk (some description) false "a" true (.builtin "string")] none) := by
  let keywords := objectKeywords (dateKeywords description)
  let date : Node := .primitive (factsOf {} (dateKeywords description))
  have shape : formOf {} keywords = .object := rfl
  have properties : Anchors.objectAt? {} keywords "properties"
      = some [(.string "a", .object (dateKeywords description))] := rfl
  refine ⟨.object { keywords := keywords, type := some "object" } [("a", date)] [] .unstated,
    ?_, nofun, ?_⟩
  · rw [Node.classify, Node.ofEntries]
    simp only [shape, keywords]
    rw [Node.ofFields, propertiesOf_of_objectAt? properties, additionalOf_of_none rfl,
      List.mapM_cons, classify_date]
    rfl
  · have said : spokenDescription? date = some description := by
      show (some description).filter _ = _
      rw [Option.filter_some, spoken]
      rfl
    rw [TypeExpr.ofNode, fieldsOf, fieldsOf, said]
    rfl

theorem types_dictionary (h : Types es e) : Types (dictionaryKeywords es) (.record e) := by
  obtain ⟨node, classified, not_empty, typed⟩ := h
  have shape : formOf {} (dictionaryKeywords es) = .object := rfl
  refine ⟨.object { keywords := dictionaryKeywords es, type := some "object" } [] [] (.schema node),
    ?_, nofun, ?_⟩
  · rw [Node.classify, Node.ofEntries]
    simp only [shape]
    rw [Node.ofFields, propertiesOf_of_none rfl, additionalOf_of_get? rfl rfl rfl, classified]
    rfl
  · rw [TypeExpr.ofNode]
    refine Traced.result_bind_eq_ok.2 ⟨e, typed, ?_⟩
    rw [if_neg (by simpa using not_empty)]
    rfl

theorem types_choice (h : Types es e) (h' : Types fs e') :
    Types (choiceKeywords es fs) (.union [e, e']) := by
  obtain ⟨node, classified, -, typed⟩ := h
  obtain ⟨node', classified', -, typed'⟩ := h'
  have shape : formOf {} (choiceKeywords es fs) = .composition .oneOf := rfl
  refine ⟨.composition { keywords := choiceKeywords es fs } .oneOf [node, node'], ?_, nofun, ?_⟩
  · rw [Node.classify, Node.ofEntries]
    simp only [shape]
    rw [membersOf_of_listAt? rfl, List.mapM_cons, List.mapM_cons, classified, classified']
    rfl
  · have each : (typesOf .bare [node, node']).result = .ok [e, e'] :=
      result_typesOf_cons typed (result_typesOf_cons typed' rfl)
    rw [TypeExpr.ofNode]
    · exact Traced.result_bind_eq_ok.2 ⟨[e, e'], each, rfl⟩
    · exact Combinator.noConfusion

theorem types_list (h : Types es e) : Types (listKeywords es) (.array e) := by
  obtain ⟨node, classified, -, typed⟩ := h
  have shape : formOf {} (listKeywords es) = .array := rfl
  refine ⟨.array { keywords := listKeywords es } (some node), ?_, nofun, ?_⟩
  · rw [Node.classify, Node.ofEntries]
    simp only [shape]
    rw [itemsOf_of_get? rfl rfl, classified]
    rfl
  · rw [TypeExpr.ofNode]
    exact Traced.result_bind_eq_ok.2 ⟨e, typed, rfl⟩

theorem typeOf_of_types (h : Types es e) : (typeOf .bare (.object es)).result = .ok e := by
  obtain ⟨node, classified, -, typed⟩ := h
  refine Traced.result_bind_eq_ok.2 ⟨node, ?_, typed⟩
  rw [Context.bare, Node.ofSchema, classified]
  rfl

/-! ### A type that is misread -/

/-- A described object in some dictionaries. -/
def boxed (description : String) : Nat → TypeExpr
  | 0 => .structure [.mk (some description) false "a" true (.builtin "string")] none
  | n + 1 => .record (boxed description n)

/-- The keywords of a described object in some dictionaries. -/
def boxedKeywords (description : String) : Nat → Entries
  | 0 => objectKeywords (dateKeywords description)
  | n + 1 => dictionaryKeywords (boxedKeywords description n)

theorem types_boxed (spoken : Text.isBlankText description = false) (n : Nat) :
    Types (boxedKeywords description n) (boxed description n) := by
  induction n with
  | zero => exact types_object spoken
  | succ n ih => exact types_dictionary ih

/-- The object with the comment, as text. -/
theorem text_boxed_zero (description : String) :
    ((boxed description 0).text 0).toList
      = "\x7b\n  /** ".toList ++ (commentText description).toList
        ++ " */\n  a?: string;\n\x7d".toList := by
  have opening : indentation 1 ++ "/** " = "  /** " := by decide
  have property : indentation 1 ++ "" ++ propertyName "a" ++ "?" ++ ": " ++ "string" ++ ";"
      = "  a?: string;" := by decide
  have last : indentation 0 ++ "\x7d" = "\x7d" := by decide
  have lines : fieldTexts 1 [.mk (some description) false "a" true (.builtin "string")]
      = ["  /** " ++ commentText description ++ " */", "  a?: string;"] := by
    rw [← opening, ← property]
    rfl
  rw [boxed, text_structure, lines, last]
  simp [indexLines]

/-- The comment in the described object stands one bracket deeper than the dictionaries. -/
theorem exists_text_boxed (description : String) (n : Nat) :
    ∃ before after, Surrounds before after (n + 1)
      ∧ ((boxed description n).text 0).toList
          = before ++ (commentText description).toList ++ after := by
  induction n with
  | zero =>
      refine ⟨_, _, ?_, text_boxed_zero description⟩
      constructor <;> decide
  | succ n ih =>
      obtain ⟨before, after, around, same⟩ := ih
      have dictionary : Surrounds "Record<string, ".toList ">".toList 1 := by
        constructor <;> decide
      refine ⟨_, _, around.append dictionary, ?_⟩
      rw [boxed, text_record, String.toList_append, String.toList_append, same]
      simp only [List.append_assoc]

/-- The items of a list: a text, or an object with the comment, so deep that the comment
cannot close the brackets around it. -/
def misreadItem (description : String) : TypeExpr :=
  .union [boxed description (commentText description).length, .builtin "string"]

theorem text_misreadItem (description : String) :
    (misreadItem description).text 0
      = (boxed description (commentText description).length).text 0 ++ " | " ++ "string" := by
  rw [misreadItem, text_union, memberTexts_eq_map, List.map_cons, List.map_singleton,
    parenthesize_nil, parenthesize_nil, joined, if_neg (by simp), String.intercalate_cons_cons,
    String.intercalate_singleton]
  rfl

/-- The reader does not see that the items are a union. -/
theorem hasTopLevel_misreadItem (misread : ¬ Neutral (commentText description)) :
    hasTopLevel ['|', '&'] (.code 0) ((misreadItem description).text 0).toList = false := by
  obtain ⟨before, after, around, same⟩ :=
    exists_text_boxed description (commentText description).length
  have space : Surrounds [] [' '] 0 := by constructor <;> decide
  have silent : Silent " string".toList := by decide
  have deep : ((commentText description).toList.length : Int)
      ≤ ((commentText description).length : Int) + 1 + 0 := by
    rw [String.length_toList]
    omega
  have hidden := hasTopLevel_of_misread (around.append space) deep misread silent
  rw [text_misreadItem, String.toList_append, String.toList_append, same]
  simpa using hidden

/-- **A misread comment costs a type its meaning.** -/
theorem not_keepsMeaning_of_misread (misread : ¬ Neutral (commentText description)) :
    ¬ (TypeExpr.array (misreadItem description)).KeepsMeaning := by
  intro keeps
  have grouped := keeps _ .refl (.inl rfl)
  rw [text_array, parenthesize, hasTopLevel_misreadItem misread] at grouped
  have opening : "(".length = 1 := rfl
  have closing : ")".length = 1 := rfl
  have lengths := congrArg String.length grouped
  simp only [Bool.false_eq_true, if_false, enclosed, String.length_append] at lengths
  omega

/-! ### What a type mentions -/

/-- What a type without comments of its own mentions, a type that it is made of mentions. -/
theorem exists_mentions_of_children (inner : List TypeExpr) {said : String}
    (own : e.ownComments = []) (made : Placed.children ⟨0, e⟩ = inner.map (Placed.mk 0))
    (mentions : e.Mentions said) : ∃ type ∈ inner, type.Mentions said := by
  obtain ⟨p, within, mem⟩ := mentions
  obtain rfl | ⟨child, at_child, rest⟩ := Relation.ReflTransGen.cases_head within
  · rw [own] at mem
    cases mem
  · rw [made] at at_child
    obtain ⟨type, at_type, rfl⟩ := List.mem_map.1 at_child
    exact ⟨type, at_type, p, rest, mem⟩

/-- The described object mentions its description only. -/
theorem eq_of_mentions_boxed {said : String} {n : Nat}
    (mentions : (boxed description n).Mentions said) : said = description := by
  induction n with
  | zero =>
      obtain ⟨p, within, mem⟩ := mentions
      obtain rfl | ⟨child, at_child, rest⟩ := Relation.ReflTransGen.cases_head within
      · exact List.mem_singleton.1 mem
      · cases List.mem_singleton.1 at_child
        obtain rfl | ⟨child, nothing, -⟩ := Relation.ReflTransGen.cases_head rest
        · cases mem
        · cases nothing
  | succ n ih =>
      obtain ⟨values, at_values, mentions⟩ :=
        exists_mentions_of_children [boxed description n] rfl rfl mentions
      rw [List.mem_singleton.1 at_values] at mentions
      exact ih mentions

/-- The list mentions the description only. -/
theorem eq_of_mentions_list {said : String} {n : Nat}
    (mentions : (TypeExpr.array (.union [boxed description n, .builtin "string"])).Mentions said) :
    said = description := by
  obtain ⟨item, at_item, mentions⟩ :=
    exists_mentions_of_children [.union [boxed description n, .builtin "string"]] rfl rfl mentions
  rw [List.mem_singleton.1 at_item] at mentions
  obtain ⟨member, at_member, mentions⟩ :=
    exists_mentions_of_children [boxed description n, .builtin "string"] rfl rfl mentions
  obtain object | text := List.mem_cons.1 at_member
  · rw [object] at mentions
    exact eq_of_mentions_boxed mentions
  · rw [List.mem_singleton.1 text] at mentions
    obtain ⟨nothing, none, -⟩ := exists_mentions_of_children [] rfl rfl mentions
    cases none

/-! ### Descriptions -/

/-- A description of blanks gives an empty comment. -/
theorem neutral_commentText_of_blank (blank : Text.isBlankText description = true) :
    Neutral (commentText description) := by
  -- Each blank ends a word that has not begun.
  have no_words : Text.splitRuns Text.isBlank [] description.toList = [] := by
    have each := List.all_eq_true.1 blank
    generalize description.toList = cs at each
    induction cs with
    | nil => rfl
    | cons c cs ih =>
        obtain ⟨first, rest⟩ := List.forall_mem_cons.1 each
        rw [Text.splitRuns, if_pos first]
        exact ih rest
  rw [commentText, Text.oneLine, Text.words, no_words]
  decide

/-- **Types keep their meaning for descriptions whose comments are neutral**, and for no
others: whatever else a schema holds, under default options its type keeps its meaning as
long as its comments come from such descriptions, and each other description costs some
schema the meaning of its type. -/
theorem keepsMeaning_iff (allowed : String → Prop) :
    (∀ (c : Context) (schema : Value) (e : TypeExpr), c.options = {} →
        (typeOf c schema).result = .ok e →
        (∀ description, e.Mentions description → allowed description) → e.KeepsMeaning)
      ↔ ∀ description, allowed description → Neutral (commentText description) := by
  constructor
  · intro keeps description allows
    cases blank : Text.isBlankText description with
    | true => exact neutral_commentText_of_blank blank
    | false =>
        -- Were the comment misread, the list built for it would have to keep its meaning.
        refine Decidable.byContradiction fun misread => not_keepsMeaning_of_misread misread ?_
        have types := types_list (types_choice
          (types_boxed blank (commentText description).length) (types_date ""))
        refine keeps .bare _ _ rfl (typeOf_of_types types) fun said mentions => ?_
        rw [eq_of_mentions_list mentions]
        exact allows
  · intro neutral c schema e default typed only
    exact keepsMeaning_of_mentions default typed fun said mentions => neutral said (only said mentions)

/-- A list of users, each of which may be missing. -/
def usersSchema : Value :=
  .record [("type", .string "array"),
    ("items", .record [("type", .string "object"), ("nullable", .bool true),
      ("properties", .record [("a", .record [("type", .string "string"),
        ("description", .string "user's id")])])])]

/-- The type of a user, or none. -/
def userType : TypeExpr :=
  .nullable (.structure [.mk (some "user's id") false "a" true (.nullable (.builtin "string"))] none)

/-- The apostrophe of a description opens a literal for the reader, so `[]` binds to `null`
alone. -/
theorem usersSchema_not_keepsMeaning :
    (typeOf .bare usersSchema).result = .ok (.array userType)
      ∧ (TypeExpr.array userType).text 0
          = "\x7b\n  /** user's id */\n  a?: string | null;\n\x7d | null[]"
      ∧ ¬ (TypeExpr.array userType).KeepsMeaning := by
  refine ⟨by cbv, by decide +kernel, fun keeps => ?_⟩
  -- The items are a union, for `null` was added to them; yet they stand without parentheses.
  have union : userType.isUnion 0 = true := by decide +kernel
  have grouped := keeps _ .refl (.inl union)
  revert grouped
  decide +kernel

end SchemaCodegen.TypeScript
