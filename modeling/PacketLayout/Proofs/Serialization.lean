import PacketLayout.Plan.Same
import PacketLayout.Proofs.RoundTrip
import PacketLayout.Proofs.Warnings

/-!
# Plans lose nothing when they are written

Two plans are the same exactly when they are written alike. Each part of a plan has this property by
itself, capabilities being compared by the name under which they are written. The warnings of a plan
are not written; where resolution returned it, they can be told from its fields.

* `Lossless` is the property of a part.
* `Schema.comparedAsWritten` puts the parts together by induction over nested schemas.
-/

namespace PacketLayout

/-- Two values are the same exactly when they are written alike. -/
def Lossless {α : Type} (same : α → α → Bool) (write : α → Json) : Prop :=
  ∀ a b : α, same a b = true ↔ write a = write b

theorem Json.ofNat_inj {m n : Nat} : Json.ofNat m = .ofNat n ↔ m = n := by
  rw [Json.ofNat, Json.ofNat, Json.integer.injEq, Int.natCast_inj]

/-! ## Words, enumerations and slots -/

/-- What can be read back is written in a form of its own. -/
theorem injective_of_read {α β : Type} {write : α → β} {read : β → Option α}
    (h : ∀ a, read (write a) = some a) : Function.Injective write := by
  intro a b hwrite
  have hread := h a
  rw [hwrite, h b] at hread
  exact (Option.some.inj hread).symm

theorem IntKind.toJson_injective : Function.Injective IntKind.toJson :=
  injective_of_read ofJson?_toJson

theorem Accessibility.name_injective : Function.Injective Accessibility.name :=
  injective_of_read ofName?_name

theorem Enumeration.toJson_injective : Function.Injective Enumeration.toJson :=
  injective_of_read ofJson?_toJson

theorem BitSlot.toJson_injective : Function.Injective BitSlot.toJson := by
  rintro ⟨unit, shift, width, group⟩ ⟨unit', shift', width', group'⟩ h
  simp only [toJson, Json.object.injEq, List.cons.injEq, Prod.mk.injEq, Json.ofNat_inj, and_true,
    true_and] at h
  obtain ⟨rfl, rfl, rfl, rfl⟩ := h
  rfl

theorem Enumeration.ofOption_injective :
    Function.Injective fun type : Option Enumeration => Json.ofOption (type.map (·.toJson)) := by
  intro type type' h
  cases type with
  | none =>
    cases type' with
    | none => rfl
    | some _ => cases h
  | some own =>
    cases type' with
    | none => cases h
    | some own' => exact congrArg some (toJson_injective h)

/-! ## Expressions -/

mutual

theorem Expr.same_iff : ∀ a b : Expr, a.same b = true ↔ a.toJson = b.toJson
  | .sum constant terms, .sum constant' terms' => by
    simp [Expr.same, Expr.toJson, Json.ofNat_inj, Term.sameAll_iff terms terms']

theorem Term.same_iff : ∀ a b : Term, a.same b = true ↔ a.toJson = b.toJson
  | .sizeOf field function, .sizeOf field' function' => by
    simp [Term.same, Term.toJson, Json.tagged]
  | .position function default, .position function' default' => by
    simp [Term.same, Term.toJson, Json.tagged, Expr.same_iff default default']
  | .remaining start, .remaining start' => by
    simp [Term.same, Term.toJson, Json.tagged, Expr.same_iff start start']
  | .sizeOf .., .position .. | .sizeOf .., .remaining _ | .position .., .sizeOf ..
  | .position .., .remaining _ | .remaining _, .sizeOf .. | .remaining _, .position .. => by
    simp [Term.same, Term.toJson, Json.tagged]

theorem Term.sameAll_iff :
    ∀ a b : List Term, Term.sameAll a b = true ↔ Term.listToJson a = Term.listToJson b
  | [], [] => by simp [Term.sameAll]
  | term :: terms, term' :: terms' => by
    simp [Term.sameAll, Term.listToJson, Term.same_iff term term', Term.sameAll_iff terms terms']
  | [], _ :: _ | _ :: _, [] => by simp [Term.sameAll, Term.listToJson]

end

theorem Expr.lossless : Lossless Expr.same Expr.toJson := Expr.same_iff

theorem Term.lossless : Lossless Term.same Term.toJson := Term.same_iff

/-! ## Positions, sizes and leaves -/

theorem Position.lossless : Lossless Position.same Position.toJson := by
  intro a b
  cases a <;> cases b <;> simp [same, toJson, Json.tagged, Json.ofNat_inj]

theorem Size.lossless : Lossless Size.same Size.toJson := by
  intro a b
  cases a <;> cases b <;> simp [same, toJson, Json.tagged, Json.ofNat_inj]

theorem Provider.lossless : Lossless Provider.same Provider.toJson := by
  intro a b
  cases a <;> cases b <;>
    simp [same, toJson, Json.tagged, IntKind.toJson_injective.eq_iff,
      Enumeration.toJson_injective.eq_iff, BitSlot.toJson_injective.eq_iff,
      Enumeration.ofOption_injective.eq_iff]

theorem Leaf.lossless : Lossless Leaf.same Leaf.toJson := by
  intro a b
  simp [same, toJson, Provider.lossless a.provider b.provider,
    Accessibility.name_injective.eq_iff, and_assoc]

/-! ## Plans -/

theorem forall₂_congr_of_mem {α β : Type} {R S : α → β → Prop} {as : List α} {bs : List β}
    (h : ∀ a ∈ as, ∀ b ∈ bs, (R a b ↔ S a b)) : List.Forall₂ R as bs ↔ List.Forall₂ S as bs := by
  rw [List.forall₂_iff_zip, List.forall₂_iff_zip]
  refine and_congr_right fun _ => forall_congr' fun a => forall_congr' fun b => ?_
  exact imp_congr_right fun hmem => h a (List.of_mem_zip hmem).1 b (List.of_mem_zip hmem).2

theorem PlannedField.same_iff {field field' : PlannedField}
    (h : field.shape.same field'.shape = true ↔ field.shape.toJson = field'.shape.toJson) :
    field.same field' = true ↔ field.toJson = field'.toJson := by
  obtain ⟨layout, shape⟩ := field
  obtain ⟨layout', shape'⟩ := field'
  change shape.same shape' = true ↔ shape.toJson = shape'.toJson at h
  have hdocs : Function.Injective fun lines : List String => lines.map Json.string :=
    Function.Injective.list_map fun _ _ => Json.string.inj
  simp [PlannedField.same, PlannedField.toJson, FieldLayout.same, h,
    Position.lossless layout.position layout'.position,
    Expr.lossless layout.offset layout'.offset, Size.lossless layout.size layout'.size,
    Expr.lossless layout.sizeExpr layout'.sizeExpr, hdocs.eq_iff, and_assoc]

theorem PlannedField.sameAll_iff {fields fields' : List PlannedField} :
    PlannedField.sameAll fields fields' = true ↔
      List.Forall₂ (fun field field' => field.same field' = true) fields fields' := by
  induction fields generalizing fields' with
  | nil => cases fields' <;> simp [PlannedField.sameAll]
  | cons field fields ih => cases fields' <;> simp [PlannedField.sameAll, ih]

theorem AlternatePlan.sameAll_iff {plans plans' : List AlternatePlan} :
    AlternatePlan.sameAll plans plans' = true ↔
      List.Forall₂ (fun plan plan' => plan.same plan' = true) plans plans' := by
  induction plans generalizing plans' with
  | nil => cases plans' <;> simp [AlternatePlan.sameAll]
  | cons plan plans ih => cases plans' <;> simp [AlternatePlan.sameAll, ih]

theorem PlannedField.listToJson_eq_iff {fields fields' : List PlannedField} :
    PlannedField.listToJson fields = PlannedField.listToJson fields' ↔
      List.Forall₂ (fun field field' => field.toJson = field'.toJson) fields fields' := by
  induction fields generalizing fields' with
  | nil => cases fields' <;> simp [PlannedField.listToJson]
  | cons field fields ih => cases fields' <;> simp [PlannedField.listToJson, ih]

theorem AlternatePlan.listToJson_eq_iff {plans plans' : List AlternatePlan} :
    AlternatePlan.listToJson plans = AlternatePlan.listToJson plans' ↔
      List.Forall₂ (fun plan plan' => plan.toJson = plan'.toJson) plans plans' := by
  induction plans generalizing plans' with
  | nil => cases plans' <;> simp [AlternatePlan.listToJson]
  | cons plan plans ih => cases plans' <;> simp [AlternatePlan.listToJson, ih]

theorem AlternatePlan.same_iff {alternate alternate' : AlternatePlan}
    (h : alternate.plan.same alternate'.plan = true ↔
      alternate.plan.toJson = alternate'.plan.toJson) :
    alternate.same alternate' = true ↔ alternate.toJson = alternate'.toJson := by
  obtain ⟨name, plan⟩ := alternate
  obtain ⟨name', plan'⟩ := alternate'
  change plan.same plan' = true ↔ plan.toJson = plan'.toJson at h
  simp [AlternatePlan.same, AlternatePlan.toJson, h]

theorem Shape.same_iff {shape shape' : Shape}
    (h : ∀ alternates alternates', shape = .union alternates → shape' = .union alternates' →
      ∀ alternate ∈ alternates, ∀ alternate' ∈ alternates',
        (alternate.same alternate' = true ↔ alternate.toJson = alternate'.toJson)) :
    shape.same shape' = true ↔ shape.toJson = shape'.toJson := by
  cases shape with
  | leaf it =>
    cases shape' with
    | leaf it' => simp [Shape.same, Shape.toJson, Json.tagged, Leaf.lossless it it']
    | union alternates' => simp [Shape.same, Shape.toJson, Json.tagged]
  | union alternates =>
    cases shape' with
    | leaf it' => simp [Shape.same, Shape.toJson, Json.tagged]
    | union alternates' =>
      simp [Shape.same, Shape.toJson, Json.tagged, AlternatePlan.sameAll_iff,
        AlternatePlan.listToJson_eq_iff, forall₂_congr_of_mem (h _ _ rfl rfl)]

/-- Everything but the warnings of a plan is written. -/
theorem Plan.same_iff {plan plan' : Plan}
    (hfields : ∀ field ∈ plan.fields, ∀ field' ∈ plan'.fields,
      (field.same field' = true ↔ field.toJson = field'.toJson))
    (hwarnings : List.Forall₂ (fun field field' => field.same field' = true) plan.fields
      plan'.fields → plan.warnings = plan'.warnings) :
    plan.same plan' = true ↔ plan.toJson = plan'.toJson := by
  obtain ⟨name, readOnly, fields, minimumSize, totalSize, warnings⟩ := plan
  obtain ⟨name', readOnly', fields', minimumSize', totalSize', warnings'⟩ := plan'
  have hsame := forall₂_congr_of_mem hfields
  change List.Forall₂ _ fields fields' ↔ List.Forall₂ _ fields fields' at hsame
  change List.Forall₂ _ fields fields' → warnings = warnings' at hwarnings
  simp only [Plan.same, Plan.toJson, Bool.and_eq_true, decide_eq_true_eq, Json.object.injEq,
    List.cons.injEq, Prod.mk.injEq, Json.string.injEq, Json.bool.injEq, Json.array.injEq,
    Json.ofNat_inj, PlannedField.sameAll_iff, PlannedField.listToJson_eq_iff, ← hsame,
    Expr.lossless totalSize totalSize', true_and, and_true]
  constructor
  · rintro ⟨⟨⟨⟨⟨hname, hreadOnly⟩, hall⟩, hminimum⟩, htotal⟩, -⟩
    exact ⟨hname, hreadOnly, hall, hminimum, htotal⟩
  · rintro ⟨hname, hreadOnly, hall, hminimum, htotal⟩
    exact ⟨⟨⟨⟨⟨hname, hreadOnly⟩, hall⟩, hminimum⟩, htotal⟩, hwarnings hall⟩

/-! ## Warnings -/

theorem Expr.static?_plus (a b : Expr) :
    (a.plus b).static? = a.static?.bind fun start => b.static?.map (start + ·) := by
  cases a with
  | sum constant terms =>
    cases b with
    | sum constant' terms' => cases terms <;> cases terms' <;> rfl

theorem Expr.static?_of_same {a b : Expr} (h : a.same b = true) : a.static? = b.static? := by
  cases a with
  | sum constant terms =>
    cases b with
    | sum constant' terms' =>
      simp only [Expr.same, Bool.and_eq_true, decide_eq_true_eq] at h
      obtain ⟨rfl, hterms⟩ := h
      cases terms <;> cases terms' <;> first | rfl | cases hterms

theorem FieldLayout.same_iff {layout layout' : FieldLayout} :
    layout.same layout' = true ↔
      layout.name = layout'.name ∧ layout.position.same layout'.position = true ∧
        layout.offset.same layout'.offset = true ∧ layout.size.same layout'.size = true ∧
        layout.sizeExpr.same layout'.sizeExpr = true ∧ layout.docLines = layout'.docLines := by
  simp [FieldLayout.same, and_assoc]

theorem PlannedField.layout_same {field field' : PlannedField} (h : field.same field' = true) :
    field.layout.same field'.layout = true := by
  cases field
  cases field'
  rw [PlannedField.same, Bool.and_eq_true] at h
  exact h.1

/-- Whether a position is explicit, and which one it is, does not depend on functions. -/
theorem PlannedField.warning?_of_same {field field' : PlannedField} {next next' : Expr}
    (h : field.same field' = true) (hnext : next.static? = next'.static?) :
    field.warning? next = field'.warning? next' := by
  obtain ⟨hname, hposition, -⟩ := FieldLayout.same_iff.1 (layout_same h)
  rw [warning?, warning?, name, name, hname, hnext]
  cases hleft : field.layout.position with
  | literal offset =>
    cases hright : field'.layout.position with
    | literal offset' =>
      rw [hleft, hright] at hposition
      obtain rfl : offset = offset' := of_decide_eq_true hposition
      rfl
    | sequential | computed =>
      rw [hleft, hright] at hposition
      cases hposition
  | sequential | computed =>
    cases hright : field'.layout.position with
    | literal offset' =>
      rw [hleft, hright] at hposition
      cases hposition
    | sequential | computed => rfl

theorem warningsFrom_of_same {fields fields' : List PlannedField} {next next' : Expr}
    (h : List.Forall₂ (fun field field' => field.same field' = true) fields fields')
    (hnext : next.static? = next'.static?) :
    warningsFrom next fields = warningsFrom next' fields' := by
  induction h generalizing next next' with
  | nil => rfl
  | @cons field field' fields fields' hfield _ ih =>
    obtain ⟨-, -, hoffset, -, hsizeExpr, -⟩ :=
      FieldLayout.same_iff.1 (PlannedField.layout_same hfield)
    rw [warningsFrom, warningsFrom, PlannedField.warning?_of_same hfield hnext, ih]
    rw [Expr.static?_plus, Expr.static?_plus, PlannedField.offset, PlannedField.sizeExpr,
      Expr.static?_of_same hoffset, Expr.static?_of_same hsizeExpr]
    rfl

theorem AlternatePlan.warnings_of_same {plan plan' : AlternatePlan} (h : plan.same plan' = true) :
    plan.name = plan'.name ∧ plan.plan.warnings = plan'.plan.warnings := by
  obtain ⟨name, plan⟩ := plan
  obtain ⟨name', plan'⟩ := plan'
  cases plan
  cases plan'
  simp only [AlternatePlan.same, Plan.same, Bool.and_eq_true, decide_eq_true_eq] at h
  exact ⟨h.1, h.2.2⟩

theorem PlannedField.nestedWarnings_of_same {field field' : PlannedField}
    (h : field.same field' = true) : field.nestedWarnings = field'.nestedWarnings := by
  obtain ⟨layout, shape⟩ := field
  obtain ⟨layout', shape'⟩ := field'
  have hname : layout.name = layout'.name := (FieldLayout.same_iff.1 (layout_same h)).1
  rw [PlannedField.same, Bool.and_eq_true] at h
  cases shape with
  | leaf it =>
    cases shape' with
    | leaf it' => rfl
    | union plans' => simp [Shape.same] at h
  | union plans =>
    cases shape' with
    | leaf it' => simp [Shape.same] at h
    | union plans' =>
      rw [Shape.same] at h
      have hplans := AlternatePlan.sameAll_iff.1 h.2
      change alternateWarnings layout.name plans = alternateWarnings layout'.name plans'
      rw [hname, alternateWarnings, alternateWarnings]
      clear h
      induction hplans with
      | nil => rfl
      | cons hplan _ ih =>
        obtain ⟨hname, hwarnings⟩ := AlternatePlan.warnings_of_same hplan
        rw [List.flatMap_cons, List.flatMap_cons, hname, hwarnings, ih]

/-- Plans with the same fields imply the same warnings. -/
theorem Plan.impliedWarnings_of_same {plan plan' : Plan}
    (h : List.Forall₂ (fun field field' => field.same field' = true) plan.fields plan'.fields) :
    plan.impliedWarnings = plan'.impliedWarnings := by
  have hnested : plan.fields.flatMap (·.nestedWarnings) =
      plan'.fields.flatMap (·.nestedWarnings) := by
    rw [List.flatMap_def, List.flatMap_def]
    exact congrArg List.flatten
      (map_eq_of_forall₂ h fun _ _ hsame => (PlannedField.nestedWarnings_of_same hsame).symm).symm
  rw [Plan.impliedWarnings, Plan.impliedWarnings, hnested, warningsFrom_of_same h rfl]

/-! ## Resolved plans -/

theorem Below.exists_of_mem {policy : MismatchPolicy} {schema : Schema} {field : Field}
    {planned : PlannedField} (h : Below policy schema field planned) {plans : List AlternatePlan}
    (hplans : planned.alternates? = some plans) {plan : AlternatePlan} (hmem : plan ∈ plans) :
    ∃ alternates, field.alternates? = some alternates ∧ ∃ alternate ∈ alternates,
      ((schema.below field alternate).resolution policy).outcome = .ok plan.plan := by
  cases h with
  | leaf _ leaf => cases leaf.symm.trans hplans
  | @union alternates own declared planned _ each =>
    obtain rfl := Option.some.inj (planned.symm.trans hplans)
    obtain ⟨alternate, halternate, -, houtcome⟩ := exists_left_of_forall₂ each hmem
    exact ⟨alternates, declared, alternate, halternate, houtcome⟩

/-- Two plans are the same exactly when they are written alike, and so are the shapes and the
alternates in them. -/
structure Plan.ComparedAsWritten (plan plan' : Plan) : Prop where
  plans : plan.same plan' = true ↔ plan.toJson = plan'.toJson
  shapes : ∀ field ∈ plan.fields, ∀ field' ∈ plan'.fields,
    (field.shape.same field'.shape = true ↔ field.shape.toJson = field'.shape.toJson)
  alternates : ∀ field ∈ plan.fields, ∀ field' ∈ plan'.fields,
    ∀ own, field.alternates? = some own → ∀ own', field'.alternates? = some own' →
      ∀ alternate ∈ own, ∀ alternate' ∈ own',
        (alternate.same alternate' = true ↔ alternate.toJson = alternate'.toJson)

/-- Resolved plans can be compared as they are written. -/
theorem Schema.comparedAsWritten {schema schema' : Schema} {policy policy' : MismatchPolicy}
    {plan plan' : Plan} (h : (schema.resolution policy).outcome = .ok plan)
    (h' : (schema'.resolution policy').outcome = .ok plan') : plan.ComparedAsWritten plan' := by
  -- along the first schema; all that is asked of the second plan is that it was resolved
  induction schema using Schema.nested_induction generalizing plan schema' plan' with
  | step schema ih =>
    have halternates : ∀ field ∈ plan.fields, ∀ field' ∈ plan'.fields,
        ∀ own, field.alternates? = some own → ∀ own', field'.alternates? = some own' →
          ∀ alternate ∈ own, ∀ alternate' ∈ own',
            (alternate.same alternate' = true ↔ alternate.toJson = alternate'.toJson) := by
      intro field hfield field' hfield' own hown own' hown' sub hsub sub' hsub'
      obtain ⟨origin, horigin, hbelow⟩ :=
        exists_left_of_forall₂ (Schema.below_of_outcome h) hfield
      obtain ⟨_, -, hbelow'⟩ := exists_left_of_forall₂ (Schema.below_of_outcome h') hfield'
      obtain ⟨all, hall, alternate, halternate, hresolved⟩ := hbelow.exists_of_mem hown hsub
      obtain ⟨_, _, _, _, hresolved'⟩ := hbelow'.exists_of_mem hown' hsub'
      exact AlternatePlan.same_iff
        (ih origin horigin all hall alternate halternate hresolved hresolved').plans
    have hshapes : ∀ field ∈ plan.fields, ∀ field' ∈ plan'.fields,
        (field.shape.same field'.shape = true ↔ field.shape.toJson = field'.shape.toJson) :=
      fun field hfield field' hfield' => Shape.same_iff fun own own' hown hown' =>
        halternates field hfield field' hfield' own (by rw [PlannedField.alternates?, hown])
          own' (by rw [PlannedField.alternates?, hown'])
    refine ⟨Plan.same_iff (fun field hfield field' hfield' => ?_) fun hsame => ?_, hshapes,
      halternates⟩
    · exact PlannedField.same_iff (hshapes field hfield field' hfield')
    · rw [Schema.warnings_of_outcome h, Schema.warnings_of_outcome h']
      exact Plan.impliedWarnings_of_same hsame

/-- Resolved plans lose nothing when they are written, and neither does any part of a plan. The
warnings are not written, but at every level they are those that the fields imply. -/
theorem Plan.serialization_lossless :
    (∀ (schema schema' : Schema) (policy policy' : MismatchPolicy) (plan plan' : Plan),
      schema.resolve policy = .ok plan → schema'.resolve policy' = .ok plan' →
        plan.ComparedAsWritten plan') ∧
      (∀ (schema : Schema) (policy : MismatchPolicy) (plan : Plan),
        schema.resolve policy = .ok plan → ∀ path sub, plan.at? path = some sub →
          sub.warnings = sub.impliedWarnings) ∧
      Lossless Expr.same Expr.toJson ∧ Lossless Term.same Term.toJson ∧
      Lossless Position.same Position.toJson ∧ Lossless Size.same Size.toJson ∧
      Lossless Provider.same Provider.toJson ∧ Lossless Leaf.same Leaf.toJson ∧
      Function.Injective Enumeration.toJson ∧ Function.Injective BitSlot.toJson := by
  refine ⟨fun schema schema' policy policy' plan plan' h h' => ?_,
    fun schema policy plan h path sub hsub => ?_, Expr.lossless, Term.lossless, Position.lossless,
    Size.lossless, Provider.lossless, Leaf.lossless, Enumeration.toJson_injective,
    BitSlot.toJson_injective⟩
  · exact Schema.comparedAsWritten (Schema.resolve_eq_ok_iff.1 h).2
      (Schema.resolve_eq_ok_iff.1 h').2
  · obtain ⟨part, -, hpart⟩ := Schema.resolve_at? h hsub
    exact Schema.warnings_of_outcome (Schema.resolve_eq_ok_iff.1 hpart).2

/-- A text whose length is computed, behind an anchor with a number that skips two bytes. -/
def textSchema (length : Bytes → Nat) : Schema where
  name := "Text"
  fields :=
    [.anchor { name := "head", type := .byteArray 4 }
      [.mk "inner" [.plain { name := "code", type := .integer .u16, position := .literal 2 }]],
     .plain { name := "text", type := .bytes, sizeFunction := some ⟨"text_length", length⟩ }]

/-- Functions are written by name, so plans with different behaviours may be the same. -/
theorem textSchema_written :
    ∃ plan plan', (textSchema fun _ => 1).resolve .warn = .ok plan ∧
      (textSchema List.length).resolve .warn = .ok plan' ∧ plan.toJson = plan'.toJson ∧
      plan.same plan' = true ∧
      plan.warnings = [.ofLayout "head.inner.code" (.positionMismatch 0 2)] ∧
      plan.warnings = plan.impliedWarnings := by
  obtain ⟨plan, plan', hplan, hplan', hwritten, hwarnings⟩ :
      ∃ plan plan', (textSchema fun _ => 1).resolve .warn = .ok plan ∧
        (textSchema List.length).resolve .warn = .ok plan' ∧ plan.toJson = plan'.toJson ∧
        plan.warnings = [.ofLayout "head.inner.code" (.positionMismatch 0 2)] :=
    ⟨_, _, rfl, rfl, rfl, by decide⟩
  obtain ⟨hsame, himplied, -⟩ := Plan.serialization_lossless
  exact ⟨plan, plan', hplan, hplan', hwritten,
    (hsame _ _ _ _ _ _ hplan hplan').plans.2 hwritten, hwarnings, himplied _ _ _ hplan [] plan rfl⟩

end PacketLayout
