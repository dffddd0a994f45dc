import PacketLayout.Proofs.Policies

/-!
# Warnings as a part of the plan

The warnings of a plan can be told from its fields. Those about alternates are in their plans
already, and the others compare an explicit position with the offset and the size of the field
before. So `Plan.impliedWarnings` looks neither at the schema nor at the policy.

* `warningsFrom` finds the warnings of a list from the offset that is implied for its first field.
* `Schema.warnings_of_outcome` says that no plan has other warnings.
-/

namespace PacketLayout

/-! ## What the fields of a plan imply -/

/-- The warning about a field, if the fields before imply the offset `next`. -/
def PlannedField.warning? (next : Expr) (field : PlannedField) : Option Diagnostic :=
  match field.layout.position, next.static? with
  | .literal actual, some expected =>
    if expected = actual then none
    else some (.ofLayout field.name (.positionMismatch expected actual))
  | _, _ => none

/-- The warnings about fields in order, if the fields before imply the offset `next`. A field
implies an offset by its own offset and size; for a bit-field that is the end of its unit. -/
def warningsFrom (next : Expr) : List PlannedField → List Diagnostic
  | [] => []
  | field :: fields =>
    (field.warning? next).toList ++ warningsFrom (field.offset.plus field.sizeExpr) fields

/-- The warnings of a plan, given those of the plans below it. -/
def Plan.impliedWarnings (plan : Plan) : List Diagnostic :=
  plan.fields.flatMap (·.nestedWarnings) ++ warningsFrom .zero plan.fields

theorem PlannedField.warning?_of_sequential {field : PlannedField}
    (h : field.layout.position = .sequential) (next : Expr) : field.warning? next = none := by
  rw [warning?, h]

/-- What is reported about an entry can be told from its field and the implied offset. -/
theorem Entry.mismatchDiagnostic?_eq {entry : Entry} {next : Expr}
    (h : entry.predicted = some next) :
    entry.mismatchDiagnostic? = entry.field.warning? next := by
  rw [mismatchDiagnostic?, mismatch?, PlannedField.warning?, h, Option.bind_some]
  cases entry.field.layout.position with
  | sequential | computed => rfl
  | literal actual =>
    cases next.static? with
    | none => rfl
    | some expected =>
      by_cases hagree : expected = actual
      · simp only [if_pos hagree]
        rfl
      · simp only [if_neg hagree]
        rfl

/-! ## From the places of fields to what they imply -/

/-- What an entry keeps of the place of its field. -/
structure Entry.Keeps (entry : Entry) (widths : Nat → Nat) (positioned : Positioned) : Prop where
  predicted : entry.predicted = positioned.placement.predicted
  position : entry.field.layout.position = positioned.position
  offset : entry.field.offset = positioned.placement.offset
  size : positioned.field.sized.size = some entry.field.size
  sizeExpr : entry.field.sizeExpr = entry.field.size.expr positioned.field.decl.name
    positioned.placement.offset (positioned.slot widths)

/-- The entries of placed fields. -/
def Positioned.entries (readOnly : Bool) (widths : Nat → Nat) (list : List Positioned) :
    List Entry :=
  list.filterMap fun positioned => (positioned.settle readOnly widths).entry

section

variable {policy : MismatchPolicy} {readOnly : Bool} {widths : Nat → Nat}

theorem Settles.exists_entry {positioned : Positioned}
    (h : Settles policy readOnly widths positioned) :
    ∃ entry, (positioned.settle readOnly widths).entry = some entry ∧
      entry.Keeps widths positioned := by
  obtain ⟨size, shape, hsize, -, hentry⟩ :=
    Positioned.settle_accepted h.unreported h.explains
  refine ⟨_, hentry, rfl, rfl, rfl, ?_, rfl⟩
  exact congrArg Except.toOption hsize

theorem Positioned.entries_cons {positioned : Positioned} {entry : Entry}
    (h : (positioned.settle readOnly widths).entry = some entry) (rest : List Positioned) :
    Positioned.entries readOnly widths (positioned :: rest) =
      entry :: Positioned.entries readOnly widths rest :=
  List.filterMap_cons_some h

theorem filterMap_cons_eq_append {α β : Type} (f : α → Option β) (a : α) (list : List α) :
    (a :: list).filterMap f = (f a).toList ++ list.filterMap f := by
  rw [List.filterMap_cons]
  cases f a <;> rfl

/-- A member of a unit spans the whole unit. -/
theorem Entry.Keeps.sizeExpr_of_member {entry : Entry} {positioned : Positioned}
    {predicted : Option Expr} {offset : Expr} {member : UnitMember} {width : Nat}
    (h : entry.Keeps widths positioned) (hbits : positioned.bitWidth? = some width)
    (place : positioned.placement = ⟨predicted, offset, some member⟩) :
    entry.field.sizeExpr = .literal (widths member.group) := by
  have hwidth : entry.field.size.bitWidth? = some width := by
    rwa [Positioned.bitWidth?, Sized.bitWidth?, h.size] at hbits
  rw [h.sizeExpr, Positioned.slot, place]
  exact Size.expr_of_bitWidth?_eq_some hwidth _ _ _

/-- The bit-fields behind the first of a unit are sequential and reach as far as the first. -/
theorem Joined.warningsFrom_append {group used widest used' widest' : Nat}
    {predicted : Option Expr} {offset : Expr} {members : List Positioned}
    (h : Joined group predicted offset used widest members used' widest')
    (hsettles : ∀ member ∈ members, Settles policy readOnly widths member)
    (rest : List PlannedField) :
    (Positioned.entries readOnly widths members).filterMap (·.mismatchDiagnostic?) = [] ∧
      warningsFrom (offset.plus (.literal (widths group)))
          ((Positioned.entries readOnly widths members).map (·.field) ++ rest) =
        warningsFrom (offset.plus (.literal (widths group))) rest := by
  induction h with
  | nil => exact ⟨rfl, rfl⟩
  | @cons used widest width used' widest' member others width_eq sequential _ place _ ih =>
    obtain ⟨hnone, hwarnings⟩ := ih fun other hother =>
      hsettles other (List.mem_cons_of_mem _ hother)
    obtain ⟨entry, hentry, hkeeps⟩ := (hsettles member List.mem_cons_self).exists_entry
    have hposition : entry.field.layout.position = .sequential := hkeeps.position.trans sequential
    have hsilent : entry.mismatchDiagnostic? = none := by
      rw [Entry.mismatchDiagnostic?, Entry.mismatch?, hposition]
      rfl
    have hoffset : entry.field.offset = offset := by
      rw [hkeeps.offset, place]
    rw [Positioned.entries_cons hentry]
    refine ⟨(List.filterMap_cons_none hsilent).trans hnone, ?_⟩
    rw [List.map_cons, List.cons_append, warningsFrom,
      PlannedField.warning?_of_sequential hposition, hoffset,
      hkeeps.sizeExpr_of_member width_eq place]
    exact hwarnings

/-- In a list where every field has a place and a size, the mismatches are what the fields
imply. -/
theorem Spread.mismatches_eq {next : Expr} {units : Nat} {list : List Positioned}
    (h : Spread widths next units list)
    (hsettles : ∀ positioned ∈ list, Settles policy readOnly widths positioned) :
    (Positioned.entries readOnly widths list).filterMap (·.mismatchDiagnostic?) =
      warningsFrom next ((Positioned.entries readOnly widths list).map (·.field)) := by
  induction h with
  | nil => rfl
  | @single next units positioned rest size sized bytes place _ _ ih =>
    obtain ⟨entry, hentry, hkeeps⟩ := (hsettles positioned List.mem_cons_self).exists_entry
    obtain rfl := Option.some.inj (sized.symm.trans hkeeps.size)
    have hpredicted : entry.predicted = some next := by
      rw [hkeeps.predicted, place]
    have hoffset : entry.field.offset = positioned.position.offset next := by
      rw [hkeeps.offset, place]
    have hsizeExpr : entry.field.sizeExpr = entry.field.size.expr positioned.field.decl.name
        (positioned.position.offset next) none := by
      rw [hkeeps.sizeExpr, Size.expr_of_bitWidth?_eq_none bytes, place]
    rw [Positioned.entries_cons hentry, filterMap_cons_eq_append, List.map_cons, warningsFrom,
      Entry.mismatchDiagnostic?_eq hpredicted, hoffset, hsizeExpr,
      ih fun other hother => hsettles other (List.mem_cons_of_mem _ hother)]
  | @unit next units width used first members rest width_eq place joined _ _ ih =>
    obtain ⟨entry, hentry, hkeeps⟩ := (hsettles first List.mem_cons_self).exists_entry
    have hpredicted : entry.predicted = some next := by
      rw [hkeeps.predicted, place]
    have hoffset : entry.field.offset = first.position.offset next := by
      rw [hkeeps.offset, place]
    -- behind its first bit-field a unit warns of nothing, and what follows starts at its end
    obtain ⟨hnone, hwarnings⟩ := joined.warningsFrom_append
      (fun member hmem => hsettles member (List.mem_cons_of_mem _ (List.mem_append_left _ hmem)))
      ((Positioned.entries readOnly widths rest).map (·.field))
    have hsizeExpr : entry.field.sizeExpr = .literal (widths units) :=
      hkeeps.sizeExpr_of_member width_eq place
    have hrest := ih fun other hother => hsettles other (List.mem_append_right _ hother)
    rw [← Expr.plus_literal] at hrest
    have hsplit : Positioned.entries readOnly widths (first :: members ++ rest) =
        entry :: (Positioned.entries readOnly widths members ++
          Positioned.entries readOnly widths rest) := by
      rw [List.cons_append, Positioned.entries_cons hentry]
      exact congrArg (entry :: ·) List.filterMap_append
    rw [hsplit, filterMap_cons_eq_append, List.filterMap_append, hnone, List.nil_append, hrest,
      List.map_cons, List.map_append, warningsFrom, Entry.mismatchDiagnostic?_eq hpredicted,
      hoffset, hsizeExpr, hwarnings]

end

/-! ## Plans -/

/-- The mismatches of an accepted list can be told from its planned fields. -/
theorem Accepted.mismatches_eq {policy : MismatchPolicy} {readOnly : Bool}
    {fields : List Prepared} (h : Accepted policy readOnly fields)
    (hexplains : ∀ field ∈ fields, field.Explains) :
    Prepared.mismatches readOnly fields =
      warningsFrom .zero (Prepared.planned readOnly fields) := by
  have hsettles : ∀ positioned ∈ Prepared.positioned fields,
      Settles policy readOnly (unitWidth (Prepared.placements fields)) positioned :=
    fun _ hmem => h.settles hexplains hmem
  have hspread : Spread (unitWidth (Prepared.placements fields)) .zero 0
      (Prepared.positioned fields) := by
    refine Prepared.spread_positioned fun positioned hmem => ?_
    obtain ⟨entry, -, hkeeps⟩ := (hsettles positioned hmem).exists_entry
    exact ⟨entry.field.size, hkeeps.size⟩
  have hentries : Prepared.entries readOnly fields = Positioned.entries readOnly
      (unitWidth (Prepared.placements fields)) (Prepared.positioned fields) :=
    List.filterMap_map
  rw [Prepared.mismatches, Prepared.planned, hentries]
  exact hspread.mismatches_eq hsettles

/-- A plan has just the warnings that its fields imply. The strict policy has none to give, and
there are none. -/
theorem Schema.warnings_of_outcome {policy : MismatchPolicy} {schema : Schema} {plan : Plan}
    (h : (schema.resolution policy).outcome = .ok plan) :
    plan.warnings = plan.impliedWarnings := by
  obtain ⟨haccepted, hfields, hwarnings⟩ := Schema.accepted_of_outcome h
  rw [hwarnings, Prepared.tolerated_eq, Plan.impliedWarnings, hfields,
    ← haccepted.mismatches_eq fun _ => Schema.explains_prepared]
  cases policy with
  | error => rw [haccepted.mismatches_eq_nil nofun, ite_self]
  | warn => rw [if_pos rfl]

end PacketLayout
