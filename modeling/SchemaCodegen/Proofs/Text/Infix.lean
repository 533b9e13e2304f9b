/-!
# Texts inside texts

A text stands in another when its characters are an infix of the other's.  Putting texts
together keeps what stands in them.  A text has a line when that stands in it between line feeds.
-/

namespace SchemaCodegen.Text

variable {s t text before after first last line : String} {texts lines : List String}

theorem infix_append : s.toList <:+: (before ++ s ++ after).toList := by
  rw [String.toList_append, String.toList_append]
  exact List.infix_append _ _ _

theorem infix_append_left : s.toList <:+: (s ++ after).toList := by
  rw [String.toList_append]
  exact (List.prefix_append _ _).isInfix

theorem infix_append_right : s.toList <:+: (before ++ s).toList := by
  rw [String.toList_append]
  exact (List.suffix_append _ _).isInfix

/-- Each of the texts stands in what they are joined to. -/
theorem infix_intercalate {separator : String} (mem : text ∈ texts) :
    text.toList <:+: (separator.intercalate texts).toList := by
  induction texts with
  | nil => cases mem
  | cons first rest ih =>
      cases rest with
      | nil =>
          cases List.mem_singleton.1 mem
          have only : separator.intercalate [text] = text := String.intercalate_singleton
          exact only.symm ▸ List.infix_refl _
      | cons next rest =>
          rw [String.intercalate_cons_cons]
          obtain rfl | later := List.mem_cons.1 mem
          · exact infix_append_left.trans infix_append_left
          · exact (ih later).trans infix_append_right

theorem infix_join (mem : text ∈ texts) : text.toList <:+: (String.join texts).toList := by
  obtain ⟨earlier, later, rfl⟩ := List.append_of_mem mem
  rw [String.join_append, String.join_cons]
  exact infix_append_left.trans infix_append_right

/-! ### Lines -/

/-- `HasLine text line`: the line stands in the text between line feeds. -/
def HasLine (text line : String) : Prop := ("\n" ++ line ++ "\n").toList <:+: text.toList

theorem HasLine.trans (has : HasLine s line) (inside : s.toList <:+: t.toList) : HasLine t line :=
  List.IsInfix.trans has inside

/-- Lines between others stand between line feeds. -/
theorem hasLine_intercalate (mem : line ∈ lines) :
    HasLine ("\n".intercalate (first :: lines ++ [last])) line := by
  induction lines generalizing first with
  | nil => cases mem
  | cons next rest ih =>
      rw [List.cons_append, List.cons_append, String.intercalate_cons_cons]
      obtain rfl | later := List.mem_cons.1 mem
      · obtain ⟨second, others, same⟩ := List.exists_cons_of_ne_nil (l := rest ++ [last]) (by simp)
        rw [same, String.intercalate_cons_cons]
        have here : first ++ "\n" ++ (line ++ "\n" ++ "\n".intercalate (second :: others))
            = first ++ ("\n" ++ line ++ "\n") ++ "\n".intercalate (second :: others) := by
          simp only [String.append_assoc]
        rw [here]
        exact infix_append
      · exact (ih later).trans infix_append_right

end SchemaCodegen.Text
