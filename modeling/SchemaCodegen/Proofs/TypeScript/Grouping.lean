import Mathlib.Data.List.Forall2
import SchemaCodegen.Proofs.TypeScript.Neutral

/-!
# Unions and intersections keep together

`|` and `&` bind weaker than `[]`, and `|` weaker than `&`.  A written type keeps its meaning
when each union or intersection that is the item of an array, and each union that is a member
of an intersection, stands in parentheses (`TypeExpr.KeepsMeaning`).

The parentheses are set by reading the written text.  Where everything in a type is neutral,
its operators are at the top level for the reader too, so all parentheses are there
(`keepsMeaning_of_plain`); under default options only comments can prevent it
(`keepsMeaning_of_mentions`).

### What is load-bearing

Whether a type is a union is asked of the type, not of its text: `isUnion` and
`isIntersection` do not mention the reader.  Only for `null` the text counts, which is added
unless it is there.
-/

namespace SchemaCodegen.TypeScript

variable {operators : List Char} {s : String} {depth : Nat} {e : TypeExpr} {p q : Placed}

/-! ### Unions and intersections -/

mutual

/-- The type is written as alternatives: two or more literals, two or more members, or a
type with `null` added to it. -/
def TypeExpr.isUnion (depth : Nat) : TypeExpr → Bool
  | .literals texts => 2 ≤ texts.length
  | .union members => alternatives depth members
  | .nullable inner => inner.isUnion depth || withNull (inner.text depth) != inner.text depth
  | _ => false

/-- Members that are written as alternatives. -/
def alternatives (depth : Nat) : List TypeExpr → Bool
  | [] => false
  | [member] => member.isUnion depth
  | _ :: _ :: _ => true

end

mutual

/-- The type is written as an intersection of two or more members. -/
def TypeExpr.isIntersection (depth : Nat) : TypeExpr → Bool
  | .intersection members => requirements depth members
  | .union members => onlyIntersection depth members
  | .nullable inner => inner.isIntersection depth
  | _ => false

/-- Members of an intersection, two or more, or one that stands as it is. -/
def requirements (depth : Nat) : List TypeExpr → Bool
  | [] => false
  | [member] => member.isIntersection depth && parenthesize ['|'] (member.text depth) == member.text depth
  | _ :: _ :: _ => true

/-- The only member of a union. -/
def onlyIntersection (depth : Nat) : List TypeExpr → Bool
  | [member] => member.isIntersection depth
  | _ => false

end

/-- A text stands in parentheses. -/
def enclosed (s : String) : String := "(" ++ s ++ ")"

/-- What is written as one stays one: an item that is a union or an intersection, and a
member of an intersection that is a union. -/
def Placed.Grouped : Placed → Prop
  | ⟨depth, .array item⟩ =>
    item.isUnion depth = true ∨ item.isIntersection depth = true →
      (TypeExpr.array item).text depth = enclosed (item.text depth) ++ "[]"
  | ⟨depth, .intersection members⟩ =>
    ∃ texts, (TypeExpr.intersection members).text depth = joined " & " texts
      ∧ List.Forall₂ (fun member text =>
          text = enclosed (member.text depth)
            ∨ text = member.text depth ∧ member.isUnion depth = false) members texts
  | _ => True

/-- **The written type keeps its meaning**: every part of it is grouped. -/
def TypeExpr.KeepsMeaning (e : TypeExpr) : Prop := ∀ p, Placed.Within ⟨0, e⟩ p → p.Grouped

/-! ### What the reader sees -/

/-- The operator between the first two texts is at the top level when the first is neutral. -/
theorem hasTopLevel_joined {operator : Char} {separator first second : String}
    {rest : List String} (spaced : separator.toList = [' ', operator, ' '])
    (mem : operator ∈ operators) (neutral : Neutral first) :
    hasTopLevel operators (.code 0) (joined separator (first :: second :: rest)).toList = true := by
  rw [joined, if_neg (by simp), String.intercalate_cons_cons, String.toList_append,
    String.toList_append, spaced, List.append_assoc]
  exact hasTopLevel_operator neutral mem _

/-- What is at the top level stays there when `null` is added. -/
theorem hasTopLevel_withNull (seen : hasTopLevel operators (.code 0) s.toList = true) :
    hasTopLevel operators (.code 0) (withNull s).toList = true := by
  obtain ⟨rest, added⟩ := prefix_withNull s
  rw [← added, hasTopLevel_append, seen, Bool.true_or]

theorem joined_singleton (separator text : String) : joined separator [text] = text := by
  rw [joined, if_neg (by simp), String.intercalate_singleton]

/-- The only member of a union is written as it is. -/
theorem text_union_singleton (depth : Nat) (member : TypeExpr) :
    (TypeExpr.union [member]).text depth = member.text depth := by
  rw [text_union, memberTexts_eq_map, List.map_singleton, joined_singleton, parenthesize_nil]

theorem text_intersection_singleton (depth : Nat) (member : TypeExpr) :
    (TypeExpr.intersection [member]).text depth = parenthesize ['|'] (member.text depth) := by
  rw [text_intersection, memberTexts_eq_map, List.map_singleton, joined_singleton]

/-- The reader sees that a union is one. -/
theorem Placed.hasTopLevel_of_isUnion (plain : ∀ q, p.Within q → q.type.Plain)
    (union : p.type.isUnion p.depth = true) :
    hasTopLevel ['|'] (.code 0) p.text.toList = true := by
  induction p using Placed.induct_children with
  | step p ih =>
      have inner : ∀ child ∈ p.children, Neutral child.text := fun child mem =>
        neutral_text fun q within => plain q (.head mem within)
      have below {child : Placed} (mem : child ∈ p.children) :=
        ih child mem fun q within => plain q (.head mem within)
      have own := (plain p .refl).atoms
      obtain ⟨depth, e⟩ := p
      cases e with
      | literals texts =>
          obtain - | ⟨first, - | ⟨second, rest⟩⟩ := texts
          · cases union
          · cases union
          -- Two literals or more: the first one is neutral, so the operator behind it is seen.
          · exact hasTopLevel_joined rfl List.mem_cons_self (own first List.mem_cons_self)
      | union members =>
          obtain - | ⟨first, - | ⟨second, rest⟩⟩ := members
          · cases union
          · have mem := mem_children_union depth (List.mem_singleton.2 (Eq.refl first))
            have seen := below mem union
            rwa [Placed.text, text_union_singleton]
          · have neutral := inner _ (mem_children_union depth (List.mem_cons_self (a := first)))
            exact hasTopLevel_joined rfl List.mem_cons_self (neutral_parenthesize neutral)
      | nullable inner_type =>
          have mem := mem_children_nullable depth inner_type
          rw [TypeExpr.isUnion, Bool.or_eq_true, bne_iff_ne] at union
          obtain union | changed := union
          · have seen := below mem union
            exact hasTopLevel_withNull seen
          · have neutral := inner _ mem
            have added := (withNull_eq (inner_type.text depth)).resolve_left changed
            rw [Placed.text, text_nullable, added, String.toList_append]
            exact hasTopLevel_operator neutral List.mem_cons_self _
      | _ => cases union

/-- The reader sees that an intersection is one. -/
theorem Placed.hasTopLevel_of_isIntersection (plain : ∀ q, p.Within q → q.type.Plain)
    (intersection : p.type.isIntersection p.depth = true) :
    hasTopLevel ['|', '&'] (.code 0) p.text.toList = true := by
  induction p using Placed.induct_children with
  | step p ih =>
      have inner : ∀ child ∈ p.children, Neutral child.text := fun child mem =>
        neutral_text fun q within => plain q (.head mem within)
      have below {child : Placed} (mem : child ∈ p.children) :=
        ih child mem fun q within => plain q (.head mem within)
      obtain ⟨depth, e⟩ := p
      cases e with
      | intersection members =>
          obtain - | ⟨first, - | ⟨second, rest⟩⟩ := members
          · cases intersection
          · have mem := mem_children_intersection depth (List.mem_singleton.2 (Eq.refl first))
            rw [TypeExpr.isIntersection, requirements, Bool.and_eq_true, beq_iff_eq] at intersection
            obtain ⟨intersection, as_it_is⟩ := intersection
            have seen := below mem intersection
            rwa [Placed.text, text_intersection_singleton, as_it_is]
          · have neutral := inner _ (mem_children_intersection depth (List.mem_cons_self (a := first)))
            refine hasTopLevel_joined rfl (List.mem_cons_of_mem _ List.mem_cons_self) ?_
            exact neutral_parenthesize neutral
      | union members =>
          obtain - | ⟨only, - | ⟨second, rest⟩⟩ := members
          · cases intersection
          · have mem := mem_children_union depth (List.mem_singleton.2 (Eq.refl only))
            have seen := below mem intersection
            rwa [Placed.text, text_union_singleton]
          · cases intersection
      | nullable inner_type =>
          have seen := below (mem_children_nullable depth inner_type) intersection
          exact hasTopLevel_withNull seen
      | _ => cases intersection

/-! ### Types that keep their meaning -/

/-- Where everything in a type is neutral, the type is grouped. -/
theorem Placed.grouped_of_plain (plain : ∀ q, p.Within q → q.type.Plain) : p.Grouped := by
  have below {child : Placed} (mem : child ∈ p.children) : ∀ q, child.Within q → q.type.Plain :=
    fun q within => plain q (.head mem within)
  obtain ⟨depth, e⟩ := p
  cases e with
  | array item =>
      intro compound
      have inner := below (mem_children_array depth item)
      have seen : hasTopLevel ['|', '&'] (.code 0) (item.text depth).toList = true := by
        obtain union | intersection := compound
        · have seen := hasTopLevel_of_isUnion inner union
          exact hasTopLevel_mono (by simp) seen
        · have seen := hasTopLevel_of_isIntersection inner intersection
          exact seen
      rw [text_array, parenthesize_of_hasTopLevel seen, enclosed]
  | intersection members =>
      refine ⟨memberTexts ['|'] depth members, rfl, ?_⟩
      rw [memberTexts_eq_map, List.forall₂_map_right_iff, List.forall₂_same]
      intro member mem
      -- A member that is no union may stand in parentheses as well; it does no harm.
      cases union : member.isUnion depth with
      | false =>
          unfold parenthesize enclosed
          split
          · exact .inl rfl
          · exact .inr ⟨rfl, rfl⟩
      | true =>
          have seen := hasTopLevel_of_isUnion (below (mem_children_intersection depth mem)) union
          exact .inl (parenthesize_of_hasTopLevel seen)
  | _ => trivial

/-- Where everything in a type is neutral, the written type keeps its meaning. -/
theorem keepsMeaning_of_plain (plain : ∀ q, Placed.Within ⟨0, e⟩ q → q.type.Plain) :
    e.KeepsMeaning := by
  intro p within
  exact Placed.grouped_of_plain fun q further => plain q (within.trans further)

/-- **Only comments mislead the reader.**  Under default options the type of a schema keeps
its meaning if the comments in it are neutral. -/
theorem keepsMeaning_of_mentions {c : Context} {schema : Value} (default : c.options = {})
    (h : (typeOf c schema).result = .ok e)
    (comments : ∀ said, e.Mentions said → Neutral (commentText said)) : e.KeepsMeaning := by
  obtain ⟨node, -, h⟩ := Traced.result_bind_eq_ok.1 h
  refine keepsMeaning_of_plain fun q within => ⟨?_, ?_⟩
  · exact neutralAtoms_ofNode default node h 0 q within
  · exact fun said mem => comments said ⟨q, within, mem⟩

end SchemaCodegen.TypeScript
