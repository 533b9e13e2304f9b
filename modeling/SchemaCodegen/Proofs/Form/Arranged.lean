import Mathlib
import SchemaCodegen.Form.Fields
import SchemaCodegen.Proofs.Traced

/-!
# The fields of a form and their order

A form has a field for each property that is offered: one that is not hidden, and not read-only
unless read-only ones are asked for.  The fields stand in the order of the properties, except where
properties have an order of their own (`formFields_arranged`).

### What is load-bearing

* A field is judged by the schema that its property leads to, not by the property
  (`presentation`), and the schema itself is followed and collapsed before its properties are
  looked at.
* Orders and places share one scale: a property without an order counts as if its order were its
  place behind the number of properties (`Slot.rank`).  An order from that number on, or a negative
  one, is no special case.
* The sort is stable, so on this scale ties stand as the properties do
  (`pairwise_mergeSort_of_increasing`).  This is the only fact about sorting that is used.
-/

namespace SchemaCodegen

variable {g : Anchors} {d : Option Entries} {options : FormOptions} {required : List String}
  {schema : Value} {ps : Entries} {fields : List FormField}

/-! ### Stable sorting -/

/-- A list whose places increase is sorted by rank, and where ranks are equal by place. -/
theorem pairwise_mergeSort_of_increasing {α : Type} (rank : α → Int) (place : α → Nat)
    {xs : List α} (increasing : xs.Pairwise fun a b => place a < place b) :
    (xs.mergeSort fun a b => rank a ≤ rank b).Pairwise fun a b =>
      rank a < rank b ∨ rank a = rank b ∧ place a < place b := by
  have trans : ∀ a b c : α, decide (rank a ≤ rank b) = true → decide (rank b ≤ rank c) = true →
      decide (rank a ≤ rank c) = true := by
    intro a b c
    simp only [decide_eq_true_eq]
    exact Int.le_trans
  have total : ∀ a b : α, (decide (rank a ≤ rank b) || decide (rank b ≤ rank a)) = true := by
    intro a b
    simp only [Bool.or_eq_true, decide_eq_true_eq]
    exact Int.le_total _ _
  induction xs with
  | nil =>
      rw [List.mergeSort_nil]
      exact List.Pairwise.nil
  | cons x xs ih =>
      obtain ⟨behind, increasing⟩ := List.pairwise_cons.1 increasing
      -- The first entry goes in front of all those that it ties with.
      obtain ⟨before, after, sorted, rest, passed⟩ := List.mergeSort_cons trans total x xs
      have ordered := ih increasing
      rw [rest] at ordered
      obtain ⟨front, back, across⟩ := List.pairwise_append.1 ordered
      have by_rank := List.pairwise_mergeSort trans total (x :: xs)
      rw [sorted] at by_rank ⊢
      refine List.pairwise_append.2 ⟨front, List.pairwise_cons.2 ⟨?_, back⟩, ?_⟩
      · intro b mem
        have at_most := (List.pairwise_cons.1 (List.pairwise_append.1 by_rank).2.1).1 b mem
        have later : b ∈ xs := by
          rw [← List.mem_mergeSort, rest]
          exact List.mem_append_right _ mem
        rcases (of_decide_eq_true at_most).lt_or_eq with less | same
        · exact .inl less
        · exact .inr ⟨same, behind b later⟩
      · intro a at_a b at_b
        rcases List.mem_cons.1 at_b with rfl | at_b
        · have less := passed a at_a
          simp only [Bool.not_eq_true', decide_eq_false_iff_not, not_le] at less
          exact .inl less
        · exact across a at_a b at_b

/-- Lists side by side are still so when both are sorted by what they agree in. -/
theorem forall₂_mergeSort {α β : Type} {R : α → β → Prop} {rank : α → Int} {key : β → Int}
    {xs : List α} {ys : List β} (aligned : List.Forall₂ R xs ys)
    (agree : ∀ x y, R x y → key y = rank x) :
    List.Forall₂ R (xs.mergeSort fun a b => rank a ≤ rank b)
      (ys.mergeSort fun a b => key a ≤ key b) := by
  have paired : ∃ zs : List (α × β), zs.map (·.1) = xs ∧ zs.map (·.2) = ys ∧
      ∀ z ∈ zs, R z.1 z.2 := by
    obtain ⟨same_length, each⟩ := List.forall₂_iff_zip.1 aligned
    exact ⟨xs.zip ys, List.map_fst_zip same_length.le, List.map_snd_zip same_length.ge,
      fun z mem => each mem⟩
  obtain ⟨zs, rfl, rfl, each⟩ := paired
  rw [← List.map_mergeSort (r := fun a b => decide (rank a.1 ≤ rank b.1)) fun _ _ _ _ => rfl,
    ← List.map_mergeSort (r := fun a b => decide (rank a.1 ≤ rank b.1)) fun a at_a b at_b => by
      rw [agree _ _ (each a at_a), agree _ _ (each b at_b)]]
  refine List.forall₂_map_left_iff.2 (List.forall₂_map_right_iff.2 (List.forall₂_same.2 ?_))
  intro z mem
  exact each z (List.mem_mergeSort.1 mem)

/-! ### Properties at their places -/

/-- The keywords by which a property is presented: those of the schema that it leads to, and none
where that is no object. -/
def presentation (g : Anchors) (d : Option Entries) (given : Value) : Entries :=
  match (followed g d given).result with
  | .ok (some target) => (g.entries? target).getD []
  | _ => []

/-- A property at its place, with the keywords it is presented by. -/
structure Slot where
  name : Scalar
  keywords : Entries
  place : Nat

namespace Slot

/-- The order that a property has of its own. -/
def order (slot : Slot) : Option Int := orderOf? slot.keywords

/-- A property that gets a field. -/
def isOffered (options : FormOptions) (slot : Slot) : Bool :=
  !Entries.isSet slot.keywords "x-ui-hidden"
    && (!Entries.isSet slot.keywords "readOnly" || options.includeReadOnly)

/-- Where a property stands among `count` properties. -/
def rank (count : Nat) (slot : Slot) : Int := slot.order.getD (count + slot.place)

/-- One property may stand before another in a form for `count` properties. -/
structure Precedes (count : Nat) (a b : Slot) : Prop where
  ordered_first : ∀ k, b.order = some k → k < count → a.order ≠ none
  as_declared : a.order = none → b.order = none → a.place < b.place
  by_order : ∀ j k, a.order = some j → b.order = some k → j < k ∨ j = k ∧ a.place < b.place

/-- What has the smaller rank, or with the same rank the smaller place, may stand before. -/
theorem precedes_of_rank {count : Nat} {a b : Slot}
    (before : a.rank count < b.rank count
      ∨ a.rank count = b.rank count ∧ a.place < b.place) : Precedes count a b := by
  unfold rank at before
  refine ⟨?_, ?_, ?_⟩
  · intro k at_b small at_a
    rw [at_a, at_b, Option.getD_none, Option.getD_some] at before
    omega
  · intro at_a at_b
    rw [at_a, at_b, Option.getD_none, Option.getD_none] at before
    omega
  · intro j k at_a at_b
    rw [at_a, at_b, Option.getD_some, Option.getD_some] at before
    exact before

end Slot

/-- The properties of a schema at their places. -/
def slotsOf (g : Anchors) (d : Option Entries) (ps : Entries) : List Slot :=
  ps.zipIdx.map fun p => ⟨p.1.1, presentation g d p.1.2, p.2⟩

theorem increasing_slotsOf (g : Anchors) (d : Option Entries) (ps : Entries) :
    (slotsOf g d ps).Pairwise fun a b => a.place < b.place := by
  have places : (slotsOf g d ps).map Slot.place = List.range' 0 ps.length := by
    rw [slotsOf, List.map_map]
    exact List.zipIdx_map_snd 0 ps
  have ordered := List.pairwise_lt_range' (s := 0) (n := ps.length)
  rw [← places, List.pairwise_map] at ordered
  exact ordered

/-! ### Single fields -/

/-- The hints for a property take its place and whether it is hidden from its keywords. -/
theorem order_hidden_of_hintsOf {name : Scalar} {hints : Hints}
    (found : (hintsOf g options schema name).result = .ok hints) :
    hints.order = orderOf? ((g.entries? schema).getD [])
      ∧ hints.hidden = Entries.isSet ((g.entries? schema).getD []) "x-ui-hidden" := by
  unfold hintsOf at found
  obtain ⟨label, -, found⟩ := Traced.result_bind_eq_ok.1 found
  obtain ⟨kind, -, found⟩ := Traced.result_bind_eq_ok.1 found
  obtain ⟨extensions, -, found⟩ := Traced.result_bind_eq_ok.1 found
  obtain ⟨_, help, texts, -, rfl⟩ := Checked.seq_eq_valid.1 (Checked.toExcept_eq_ok.1 found)
  obtain ⟨_, placeholder, label_text, -, rfl⟩ := Checked.seq_eq_valid.1 texts
  obtain ⟨text, -, rfl⟩ := Checked.map_eq_valid.1 label_text
  exact ⟨rfl, rfl⟩

/-- `Fills options count slot o`: what a property contributes to a form for `count` properties, a
field with the rank of the property, or nothing when it is not offered. -/
def Fills (options : FormOptions) (count : Nat) (slot : Slot) (o : Option (Int × FormField)) :
    Prop :=
  if slot.isOffered options then
    ∃ field, o = some (slot.rank count, field) ∧ slot.name = .string field.name
  else o = none

/-- The contribution of a property, which leads somewhere. -/
theorem fills_of_fieldOf? {count : Nat} {p : (Scalar × Value) × Nat}
    {o : Option (Int × FormField)}
    (found : (fieldOf? g d options required count p).result = .ok o) :
    (∃ target, (followed g d p.1.2).result = .ok target)
      ∧ Fills options count ⟨p.1.1, presentation g d p.1.2, p.2⟩ o := by
  obtain ⟨⟨name, given⟩, index⟩ := p
  rw [fieldOf?] at found
  obtain ⟨target, leads, found⟩ := Traced.result_bind_eq_ok.1 found
  refine ⟨⟨target, leads⟩, ?_⟩
  have keywords : presentation g d given = (g.entries? (target.getD (.object []))).getD [] := by
    unfold presentation
    rw [leads]
    cases target with
    | none => rfl
    | some v => rfl
  unfold Fills Slot.isOffered Slot.rank Slot.order
  rw [keywords]
  dsimp only at found ⊢
  generalize target.getD (.object []) = schema at found ⊢
  split at found
  · next left_out =>
      obtain ⟨readOnly, not_asked⟩ := Bool.and_eq_true_iff.1 left_out
      rw [Bool.not_eq_true'] at not_asked
      cases found
      rw [readOnly, not_asked]
      simp
  · next kept =>
      obtain ⟨hints, hinted, found⟩ := Traced.result_bind_eq_ok.1 found
      obtain ⟨same_order, same_hidden⟩ := order_hidden_of_hintsOf hinted
      rw [same_hidden] at found
      split at found
      · next hidden =>
          cases found
          rw [hidden]
          simp
      · next shown =>
          obtain ⟨node, -, found⟩ := Traced.result_bind_eq_ok.1 found
          split at found
          · cases found
            have offered : (!Entries.isSet ((g.entries? schema).getD []) "readOnly"
                || options.includeReadOnly) = true := by
              have not_left_out := Bool.eq_false_of_not_eq_true kept
              rw [Bool.and_eq_false_iff, Bool.not_eq_false'] at not_left_out
              rw [Bool.or_eq_true, Bool.not_eq_true']
              exact not_left_out
            rw [Bool.eq_false_of_not_eq_true shown, offered, same_order]
            simp
          · cases found

/-! ### All fields -/

/-- What properties contribute, without those that contribute nothing. -/
theorem forall₂_filterMap_of_fills {count : Nat} {slots : List Slot}
    {found : List (Option (Int × FormField))}
    (aligned : List.Forall₂ (Fills options count) slots found) :
    List.Forall₂ (fun slot e => e.1 = slot.rank count ∧ slot.name = .string e.2.name)
      (slots.filter (Slot.isOffered options)) (found.filterMap id) := by
  induction aligned with
  | nil => exact .nil
  | @cons slot o slots found here _ ih =>
      unfold Fills at here
      split at here
      · next offered =>
          obtain ⟨field, rfl, named⟩ := here
          rw [List.filter_cons_of_pos offered, List.filterMap_cons]
          exact .cons ⟨rfl, named⟩ ih
      · next left_out =>
          subst here
          rw [List.filter_cons_of_neg left_out, List.filterMap_cons]
          exact ih

/-- `Arranged g d options ps fields`: the fields are those of the properties that are offered, one
each, in an order that they may have. -/
def Arranged (g : Anchors) (d : Option Entries) (options : FormOptions) (ps : Entries)
    (fields : List FormField) : Prop :=
  ∃ slots : List Slot, slots.Perm ((slotsOf g d ps).filter (Slot.isOffered options))
    ∧ List.Forall₂ (fun slot field => slot.name = .string field.name) slots fields
    ∧ slots.Pairwise (Slot.Precedes ps.length)

/-- The fields of properties are arranged, and each property leads somewhere. -/
theorem arranged_of_fieldsOfProperties
    (found : (fieldsOfProperties g d options required ps).result = .ok fields) :
    (∀ p ∈ ps, ∃ target, (followed g d p.2).result = .ok target)
      ∧ Arranged g d options ps fields := by
  obtain ⟨parts, each, same⟩ := Traced.result_bind_eq_ok.1 found
  cases same
  have aligned := (Traced.result_mapM_eq_ok.1 each).imp fun p o => fills_of_fieldOf? (p := p)
  refine ⟨?_, ((slotsOf g d ps).filter (Slot.isOffered options)).mergeSort
    (fun a b => a.rank ps.length ≤ b.rank ps.length), List.mergeSort_perm _ _, ?_, ?_⟩
  · intro p mem
    rw [← List.zipIdx_map_fst 0 ps] at mem
    obtain ⟨placed, at_place, rfl⟩ := List.mem_map.1 mem
    obtain ⟨o, -, leads, -⟩ := exists_of_mem_left aligned at_place
    exact leads
  · have filled : List.Forall₂ (Fills options ps.length) (slotsOf g d ps) parts :=
      List.forall₂_map_left_iff.2 (aligned.imp fun _ _ both => both.2)
    have sorted := forall₂_mergeSort (forall₂_filterMap_of_fills filled) fun _ _ both => both.1
    exact List.forall₂_map_right_iff.2 (sorted.imp fun _ _ both => both.2)
  · have increasing := (increasing_slotsOf g d ps).filter (Slot.isOffered options)
    exact (pairwise_mergeSort_of_increasing (Slot.rank ps.length) Slot.place increasing).imp
      Slot.precedes_of_rank

/-- **The fields of a form are arranged.**  A form with fields is one for the properties of the
schema that is followed and collapsed.  Each of these leads somewhere, and is judged by the keywords
it finds there: there is one field for each property that is neither hidden nor, unless asked for,
read-only; a field with an order below the number of properties stands before all fields without
one; fields without one stand as their properties do, and fields with one by that, ties as their
properties do. -/
theorem formFields_arranged (found : (formFields g schema d options).result = .ok fields)
    (some_field : fields ≠ []) :
    ∃ target es ps, (followed g d schema).result = .ok (some target)
      ∧ (mergeAllOf g target d).result = .ok es ∧ g.objectAt? es "properties" = some ps
      ∧ (∀ p ∈ ps, ∃ target, (followed g d p.2).result = .ok target)
      ∧ Arranged g d options ps fields := by
  rw [formFields] at found
  obtain ⟨followed_to, leads, found⟩ := Traced.result_bind_eq_ok.1 found
  cases followed_to with
  | none =>
      -- A schema that leads nowhere has no field.
      exfalso
      dsimp only at found
      split at found
      · obtain ⟨-, -, found⟩ := Traced.result_bind_eq_ok.1 found
        cases found
        exact some_field rfl
      · cases found
        exact some_field rfl
  | some target =>
      obtain ⟨es, merged, found⟩ := Traced.result_bind_eq_ok.1 found
      split at found
      · next ps properties =>
          exact ⟨target, es, ps, leads, merged, properties, arranged_of_fieldsOfProperties found⟩
      · cases found
        exact absurd rfl some_field

/-- A property with an input of its own and further keywords. -/
def inputProperty (more : Entries) : Value :=
  .object ((.string "title", .string "Input") :: (.string "x-ui-component", .string "text") :: more)

/-- A delivery has properties with orders below and above their number, one of them negative and
two of them equal, and properties that are left out. -/
def deliverySchema : Value :=
  .object [(.string "properties", .object
    [(.string "note", inputProperty []),
     (.string "id", inputProperty [(.string "readOnly", .bool true)]),
     (.string "street", inputProperty [(.string "x-ui-order", .int 1)]),
     (.string "token", inputProperty [(.string "x-ui-hidden", .bool true)]),
     (.string "name", inputProperty [(.string "x-ui-order", .int (-2))]),
     (.string "code", inputProperty [(.string "x-ui-order", .int 9)]),
     (.string "city", inputProperty [(.string "x-ui-order", .int 1)])])]

/-- The note, which has no order, stands behind all those with a small order, and before the code
with its great one. -/
theorem formFields_arranged_delivery :
    ∃ fields, (formFields {} deliverySchema none {}).result = .ok fields
      ∧ fields.map FormField.name = ["name", "street", "city", "note", "code"]
      ∧ ∃ target es ps, (followed {} none deliverySchema).result = .ok (some target)
        ∧ (mergeAllOf {} target none).result = .ok es
        ∧ Anchors.objectAt? {} es "properties" = some ps
        ∧ (∀ p ∈ ps, ∃ target, (followed {} none p.2).result = .ok target)
        ∧ Arranged {} none {} ps fields := by
  have computed : (formFields {} deliverySchema none {}).result.map (List.map FormField.name)
      = .ok ["name", "street", "city", "note", "code"] := by
    cbv
  cases found : (formFields {} deliverySchema none {}).result with
  | error failure =>
      rw [found] at computed
      cases computed
  | ok fields =>
      rw [found] at computed
      have names : fields.map FormField.name = ["name", "street", "city", "note", "code"] :=
        Except.ok.inj computed
      have some_field : fields ≠ [] := by
        rintro rfl
        cases names
      exact ⟨fields, rfl, names, formFields_arranged found some_field⟩

end SchemaCodegen
