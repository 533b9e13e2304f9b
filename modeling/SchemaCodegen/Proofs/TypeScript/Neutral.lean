import SchemaCodegen.Proofs.TypeScript.Parts

/-!
# Types are neutral

The text of a type is neutral when the literals and the comments in it are
(`Placed.neutral_text`): a type closes the brackets that it opens and separates its parts by
characters that mean nothing to the reader.

The literals of a schema are neutral under default options (`neutralAtoms_ofNode`), whatever
they say.  Only the comments remain.
-/

namespace SchemaCodegen.TypeScript

variable {s : String} {depth : Nat} {e : TypeExpr} {p q : Placed}

/-! ### Lines and members -/

theorem neutral_withNull (h : Neutral s) : Neutral (withNull s) := by
  have null : Neutral " | null" := by decide
  obtain same | added := withNull_eq s
  · rwa [same]
  · rw [added]
    exact h.append null

theorem neutral_joined {operator : String} {texts : List String} (between : Neutral operator)
    (each : ∀ text ∈ texts, Neutral text) : Neutral (joined operator texts) := by
  unfold joined
  split
  · decide
  · exact between.intercalate each

/-- The members of an intersection or a union are neutral where their types are. -/
theorem neutral_memberTexts {operators : List Char} {members : List TypeExpr}
    (each : ∀ member ∈ members, Neutral (member.text depth)) :
    ∀ text ∈ memberTexts operators depth members, Neutral text := by
  intro text mem
  rw [memberTexts_eq_map] at mem
  obtain ⟨member, at_member, rfl⟩ := List.mem_map.1 mem
  exact neutral_parenthesize (each member at_member)

/-- The lines of a property are neutral where its type and its comment are. -/
theorem Field.neutral_lines {field : Field} (type : Neutral (field.type.text depth))
    (comment : ∀ said ∈ field.comment?, Neutral (commentText said)) :
    ∀ line ∈ field.lines depth, Neutral line := by
  obtain ⟨comment?, readOnly, name, isOptional, e⟩ := field
  have pad := neutral_indentation depth
  have opening : Neutral "/** " := by decide
  have closing : Neutral " */" := by decide
  have flag (b : Bool) : Neutral (if b then "readonly " else "") := by cases b <;> decide
  have mark (b : Bool) : Neutral (if b then "?" else "") := by cases b <;> decide
  have colon : Neutral ": " := by decide
  have semicolon : Neutral ";" := by decide
  intro line mem
  obtain in_comment | rest := List.mem_append.1 mem
  · cases comment? with
    | none => cases in_comment
    | some said =>
        rw [List.mem_singleton.1 in_comment]
        exact ((pad.append opening).append (comment said rfl)).append closing
  · rw [List.mem_singleton.1 rest]
    exact (((((pad.append (flag readOnly)).append (neutral_propertyName name)).append
      (mark isOptional)).append colon).append type).append semicolon

/-- Behind an opening brace, neutral lines lead to the closing brace. -/
theorem read_block {lines : List String} (each : ∀ line ∈ lines, Neutral line) :
    read (.code 1) ("\n".intercalate (lines ++ [indentation depth ++ "\x7d"])).toList = .code 0 := by
  induction lines with
  | nil =>
      rw [List.nil_append, String.intercalate_singleton, String.toList_append, read_append,
        (neutral_indentation depth).read]
      rfl
  | cons line lines ih =>
      obtain ⟨first, rest⟩ := List.forall_mem_cons.1 each
      have newline : Neutral "\n" := by decide
      have more : lines ++ [indentation depth ++ "\x7d"] ≠ [] := by simp
      rw [List.cons_append, String.intercalate_cons_of_ne_nil more, String.toList_append,
        read_append, (first.append newline).read]
      exact ih rest

/-- Neutral lines between braces are neutral. -/
theorem neutral_block {lines : List String} (each : ∀ line ∈ lines, Neutral line) :
    Neutral ("\n".intercalate ("\x7b" :: lines ++ [indentation depth ++ "\x7d"])) := by
  have more : lines ++ [indentation depth ++ "\x7d"] ≠ [] := by simp
  unfold Neutral
  rw [List.cons_append, String.intercalate_cons_of_ne_nil more, String.toList_append, read_append]
  have opens : read (.code 0) ("\x7b" ++ "\n").toList = .code 1 := rfl
  rw [opens]
  exact read_block each

/-! ### Types -/

/-- What the type takes from outside is neutral. -/
structure TypeExpr.Plain (e : TypeExpr) : Prop where
  atoms : ∀ text ∈ e.atoms, Neutral text
  comments : ∀ said ∈ e.ownComments, Neutral (commentText said)

/-- A type is neutral when what it takes from outside and what it is made of are. -/
theorem Placed.neutral_text_of_children (plain : p.type.Plain)
    (inner : ∀ child ∈ p.children, Neutral child.text) : Neutral p.text := by
  obtain ⟨depth, e⟩ := p
  have each {types : List TypeExpr} {deeper : Nat}
      (inner : ∀ child ∈ types.map (Placed.mk deeper), Neutral child.text) :
      ∀ type ∈ types, Neutral (type.text deeper) := by
    intro type at_type
    have neutral := inner _ (List.mem_map_of_mem at_type)
    exact neutral
  cases e with
  | any =>
      have anything : Neutral anyText := by decide
      exact anything
  | openRecord =>
      have open_record : Neutral openRecordText := by decide
      exact open_record
  | builtin text => exact plain.atoms text List.mem_cons_self
  | named schema => exact neutral_typeName schema
  | array item =>
      have brackets : Neutral "[]" := by decide
      have neutral := inner _ (mem_children_array depth item)
      exact (neutral_parenthesize neutral).append brackets
  | record values =>
      have opens : read (.code 0) "Record<string, ".toList = .code 1 := by decide
      have neutral := inner _ (mem_children_record depth values)
      exact neutral.between opens rfl
  | «structure» fields index =>
      -- The lines between the braces: two for each property at most, and one for the index.
      rw [Placed.text, text_structure]
      refine neutral_block fun line mem => ?_
      have typed := each inner
      obtain in_fields | in_index := List.mem_append.1 mem
      · rw [fieldTexts_eq_flatMap] at in_fields
        obtain ⟨field, at_field, at_line⟩ := List.mem_flatMap.1 in_fields
        refine Field.neutral_lines ?_ ?_ line at_line
        · exact typed _ (List.mem_append_left _ (List.mem_map_of_mem at_field))
        · intro said is_said
          exact plain.comments said (List.mem_filterMap.2 ⟨field, at_field, is_said⟩)
      · cases index with
        | none => cases in_index
        | some type =>
            have key : Neutral "[key: string]: " := by decide
            have semicolon : Neutral ";" := by decide
            rw [List.mem_singleton.1 in_index]
            exact (((neutral_indentation _).append key).append
              (typed type (List.mem_append_right _ List.mem_cons_self))).append semicolon
  | literals texts => exact neutral_joined (by decide) plain.atoms
  | intersection members =>
      exact neutral_joined (by decide) (neutral_memberTexts (each inner))
  | union members => exact neutral_joined (by decide) (neutral_memberTexts (each inner))
  | nullable inner_type =>
      have neutral := inner _ (mem_children_nullable depth inner_type)
      exact neutral_withNull neutral

/-- **Types are neutral** where the literals and the comments in them are. -/
theorem Placed.neutral_text (plain : ∀ q, p.Within q → q.type.Plain) : Neutral p.text := by
  induction p using Placed.induct_children with
  | step p ih =>
      refine neutral_text_of_children (plain p .refl) fun child mem => ?_
      exact ih child mem fun q within => plain q (.head mem within)

/-! ### Literals of a schema -/

/-- The literals in the type are neutral. -/
def TypeExpr.NeutralAtoms (e : TypeExpr) : Prop :=
  ∀ depth q, Placed.Within ⟨depth, e⟩ q → ∀ text ∈ q.type.atoms, Neutral text

/-- The literals in a type are its own and those in the types that it is made of. -/
theorem neutralAtoms_of_children (es : List TypeExpr) (own : ∀ text ∈ e.atoms, Neutral text)
    (made : ∀ depth, ∃ deeper, Placed.children ⟨depth, e⟩ = es.map (Placed.mk deeper))
    (each : ∀ inner ∈ es, inner.NeutralAtoms) : e.NeutralAtoms := by
  intro depth q within
  obtain rfl | ⟨child, mem, rest⟩ := Relation.ReflTransGen.cases_head within
  · exact own
  · obtain ⟨deeper, same⟩ := made depth
    rw [same] at mem
    obtain ⟨inner, at_inner, rfl⟩ := List.mem_map.1 mem
    exact each inner at_inner deeper q rest

theorem neutralAtoms_admitNull {facts : Facts} (h : e.NeutralAtoms) :
    (admitNull facts e).NeutralAtoms := by
  unfold admitNull
  split
  · exact neutralAtoms_of_children [e] nofun (fun _ => ⟨_, rfl⟩) (List.forall_mem_singleton.2 h)
  · exact h

/-- A type that is made of nothing has its own literals only. -/
theorem neutralAtoms_of_leaf (leaf : ∀ depth, Placed.children ⟨depth, e⟩ = [])
    (own : ∀ text ∈ e.atoms, Neutral text) : e.NeutralAtoms :=
  neutralAtoms_of_children [] own (fun depth => ⟨depth, leaf depth⟩) nofun

theorem neutralAtoms_any : TypeExpr.any.NeutralAtoms :=
  neutralAtoms_of_leaf (fun _ => rfl) nofun

theorem neutralAtoms_openRecord : TypeExpr.openRecord.NeutralAtoms :=
  neutralAtoms_of_leaf (fun _ => rfl) nofun

theorem neutralAtoms_named (schema : String) : (TypeExpr.named schema).NeutralAtoms :=
  neutralAtoms_of_leaf (fun _ => rfl) nofun

theorem neutralAtoms_builtin {text : String} (h : Neutral text) :
    (TypeExpr.builtin text).NeutralAtoms :=
  neutralAtoms_of_leaf (fun _ => rfl) (List.forall_mem_singleton.2 h)

theorem neutralAtoms_bareType (type : String) : (bareType type).NeutralAtoms := by
  unfold bareType
  split
  · exact neutralAtoms_builtin (by decide)
  · exact neutralAtoms_builtin (by decide)
  · exact neutralAtoms_builtin (by decide)
  · exact neutralAtoms_builtin (by decide)
  · exact neutralAtoms_builtin (by decide)
  · exact neutralAtoms_builtin (by decide)
  · exact neutralAtoms_openRecord
  · exact neutralAtoms_any

/-- The types that stand for formats are neutral by default. -/
theorem neutralAtoms_formatType {type : Option String} {format : String}
    (h : formatType? {} type format = some e) : e.NeutralAtoms := by
  unfold formatType? at h
  dsimp only at h
  repeat' split at h
  all_goals cases h
  all_goals exact neutralAtoms_builtin (by decide)

theorem neutralAtoms_primitiveType (type format : Option String) :
    (primitiveType {} type format).NeutralAtoms := by
  unfold primitiveType
  dsimp only
  cases found : format.bind fun f => if f.isEmpty then none else formatType? {} type f with
  | none =>
      cases type with
      | none => exact neutralAtoms_any
      | some type => exact neutralAtoms_bareType type
  | some e =>
      obtain ⟨f, -, at_f⟩ := Option.bind_eq_some_iff.1 found
      split at at_f
      · cases at_f
      · exact neutralAtoms_formatType at_f

theorem neutralAtoms_enumeration {g : Anchors} {values : List Value}
    (h : enumeration g values = .ok e) : e.NeutralAtoms := by
  unfold enumeration at h
  cases written : values.mapM (literalText g) with
  | error failure =>
      rw [written] at h
      cases h
  | ok texts =>
      rw [written] at h
      cases h
      refine neutralAtoms_of_leaf (fun _ => rfl) fun text mem => ?_
      obtain ⟨value, -, found⟩ := exists_of_mem_mapM written mem
      exact neutral_literalText found

theorem neutralAtoms_reference {c : Context} {ref : String}
    (h : (c.reference ref).result = .ok e) : e.NeutralAtoms := by
  unfold Context.reference at h
  split at h
  · cases h
    exact neutralAtoms_named _
  · split at h
    · cases h
    · cases h
      exact neutralAtoms_any

/-- A choice of schemas is the union of their types. -/
theorem exists_typesOf_of_choice {c : Context} {facts : Facts} {combinator : Combinator}
    {members : List Node} (choice : combinator ≠ .allOf)
    (h : (TypeExpr.ofNode c (.composition facts combinator members)).result = .ok e) :
    ∃ es, (typesOf c members).result = .ok es ∧ e = admitNull facts (.union es) := by
  rw [TypeExpr.ofNode] at h
  · obtain ⟨es, inner, h⟩ := Traced.result_bind_eq_ok.1 h
    cases h
    exact ⟨es, inner, rfl⟩
  · exact choice

mutual

/-- **The literals of a schema are neutral**, under default options. -/
theorem neutralAtoms_ofNode {c : Context} (default : c.options = {}) :
    (node : Node) → {e : TypeExpr} → (TypeExpr.ofNode c node).result = .ok e → e.NeutralAtoms
  | .absent, e, h => by
      cases h
      exact neutralAtoms_any
  | .unknown f, e, h => by
      cases h
      exact neutralAtoms_admitNull neutralAtoms_any
  | .empty f, e, h => by
      cases h
      exact neutralAtoms_admitNull neutralAtoms_openRecord
  | .reference f ref, e, h => by
      rw [TypeExpr.ofNode] at h
      obtain ⟨target, named, h⟩ := Traced.result_bind_eq_ok.1 h
      cases h
      exact neutralAtoms_admitNull (neutralAtoms_reference named)
  | .array f none, e, h => by
      cases h
      exact neutralAtoms_admitNull (neutralAtoms_of_children [.any] nofun (fun _ => ⟨_, rfl⟩)
        (List.forall_mem_singleton.2 neutralAtoms_any))
  | .array f (some items), e, h => by
      rw [TypeExpr.ofNode] at h
      obtain ⟨item, inner, h⟩ := Traced.result_bind_eq_ok.1 h
      cases h
      exact neutralAtoms_admitNull (neutralAtoms_of_children [item] nofun (fun _ => ⟨_, rfl⟩)
        (List.forall_mem_singleton.2 (neutralAtoms_ofNode default items inner)))
  | .object f [] required (.schema node), e, h => by
      rw [TypeExpr.ofNode] at h
      obtain ⟨values, inner, h⟩ := Traced.result_bind_eq_ok.1 h
      cases h
      refine neutralAtoms_admitNull ?_
      split
      · exact neutralAtoms_openRecord
      · exact neutralAtoms_of_children [values] nofun (fun _ => ⟨_, rfl⟩)
          (List.forall_mem_singleton.2 (neutralAtoms_ofNode default node inner))
  | .object f [] required .unstated, e, h => by
      cases h
      exact neutralAtoms_admitNull neutralAtoms_openRecord
  | .object f [] required (.flag allowed), e, h => by
      cases h
      exact neutralAtoms_admitNull neutralAtoms_openRecord
  | .object f (p :: ps) required additional, e, h => by
      rw [TypeExpr.ofNode] at h
      obtain ⟨fields, from_fields, h⟩ := Traced.result_bind_eq_ok.1 h
      obtain ⟨index, from_index, h⟩ := Traced.result_bind_eq_ok.1 h
      cases h
      refine neutralAtoms_admitNull (neutralAtoms_of_children (fields.map Field.type ++ index.toList)
        nofun (fun _ => ⟨_, rfl⟩) fun type mem => ?_)
      obtain in_field | in_index := List.mem_append.1 mem
      · exact neutralAtoms_fieldsOf default (p :: ps) from_fields type in_field
      · exact neutralAtoms_indexOf default additional from_index type (Option.mem_toList.1 in_index)
  | .enumeration f values, e, h => by
      rw [TypeExpr.ofNode] at h
      obtain ⟨inner, found, h⟩ := Traced.result_bind_eq_ok.1 h
      cases h
      exact neutralAtoms_admitNull (neutralAtoms_enumeration found)
  | .composition f .allOf members, e, h => by
      rw [TypeExpr.ofNode] at h
      obtain ⟨es, inner, h⟩ := Traced.result_bind_eq_ok.1 h
      cases h
      exact neutralAtoms_admitNull (neutralAtoms_of_children es nofun (fun _ => ⟨_, rfl⟩)
        (neutralAtoms_typesOf default members inner))
  | .composition f .oneOf members, e, h => by
      obtain ⟨es, inner, rfl⟩ := exists_typesOf_of_choice (by decide) h
      exact neutralAtoms_admitNull (neutralAtoms_of_children es nofun (fun _ => ⟨_, rfl⟩)
        (neutralAtoms_typesOf default members inner))
  | .composition f .anyOf members, e, h => by
      obtain ⟨es, inner, rfl⟩ := exists_typesOf_of_choice (by decide) h
      exact neutralAtoms_admitNull (neutralAtoms_of_children es nofun (fun _ => ⟨_, rfl⟩)
        (neutralAtoms_typesOf default members inner))
  | .primitive f, e, h => by
      cases h
      rw [default]
      exact neutralAtoms_admitNull (neutralAtoms_primitiveType f.type f.format)

theorem neutralAtoms_typesOf {c : Context} (default : c.options = {}) :
    (members : List Node) → {es : List TypeExpr} → (typesOf c members).result = .ok es →
    ∀ e ∈ es, e.NeutralAtoms
  | [], es, h => by
      cases h
      exact nofun
  | node :: rest, es, h => by
      rw [typesOf] at h
      obtain ⟨e, first, h⟩ := Traced.result_bind_eq_ok.1 h
      obtain ⟨others, later, h⟩ := Traced.result_bind_eq_ok.1 h
      cases h
      exact List.forall_mem_cons.2
        ⟨neutralAtoms_ofNode default node first, neutralAtoms_typesOf default rest later⟩

theorem neutralAtoms_fieldsOf {c : Context} (default : c.options = {}) {facts : Facts}
    {required : List String} : (properties : List (String × Node)) → {fields : List Field} →
    (fieldsOf c facts required properties).result = .ok fields →
    ∀ e ∈ fields.map Field.type, e.NeutralAtoms
  | [], fields, h => by
      cases h
      exact nofun
  | (name, node) :: rest, fields, h => by
      rw [fieldsOf] at h
      obtain ⟨e, first, h⟩ := Traced.result_bind_eq_ok.1 h
      obtain ⟨others, later, h⟩ := Traced.result_bind_eq_ok.1 h
      cases h
      exact List.forall_mem_cons.2
        ⟨neutralAtoms_admitNull (neutralAtoms_ofNode default node first),
          neutralAtoms_fieldsOf default rest later⟩

theorem neutralAtoms_indexOf {c : Context} (default : c.options = {}) :
    (additional : Additional) → {index : Option TypeExpr} →
    (indexOf c additional).result = .ok index → ∀ e ∈ index, e.NeutralAtoms
  | .unstated, index, h => by
      cases h
      exact nofun
  | .flag true, index, h => by
      cases h
      rintro e ⟨⟩
      exact neutralAtoms_any
  | .flag false, index, h => by
      cases h
      exact nofun
  | .schema node, index, h => by
      rw [indexOf] at h
      obtain ⟨values, inner, h⟩ := Traced.result_bind_eq_ok.1 h
      cases h
      rintro e ⟨⟩
      split
      · exact neutralAtoms_any
      · exact neutralAtoms_ofNode default node inner

end

end SchemaCodegen.TypeScript
