import PacketLayout.Proofs.Resolved

/-!
# Nested schemas

A union anchor holds field lists of its own, so whatever is said about a schema with everything
below it is proved from the alternates of its anchors to the schema around them.

* `Schema.nested_induction` is this induction, packaged once.
* `Below` is what lies below a planned field, and `Schema.below_of_outcome` says that it is found
  below every field of a plan.
-/

namespace PacketLayout

/-! ## Induction -/

theorem Field.sizeOf_fields_lt {field : Field} {alternates : List Alternate} {alternate : Alternate}
    (halternates : field.alternates? = some alternates) (hmem : alternate ∈ alternates) :
    sizeOf alternate.fields < sizeOf field := by
  cases field with
  | plain decl => cases halternates
  | anchor decl own =>
    obtain rfl := Option.some.inj halternates
    have hlt := List.sizeOf_lt_of_mem hmem
    cases alternate with
    | mk name fields =>
      simp only [Alternate.fields, Alternate.mk.sizeOf_spec, Field.anchor.sizeOf_spec] at hlt ⊢
      omega

/-- A statement holds of every schema if each one inherits it from the alternates of its fields. -/
@[elab_as_elim]
theorem Schema.nested_induction {motive : Schema → Prop}
    (step : ∀ schema : Schema, (∀ field ∈ schema.fields, ∀ alternates,
      field.alternates? = some alternates → ∀ alternate ∈ alternates,
        motive (schema.below field alternate)) → motive schema)
    (schema : Schema) : motive schema :=
  step schema fun field hfield _ halternates alternate hmem =>
    have : sizeOf (schema.below field alternate).fields < sizeOf schema.fields :=
      Nat.lt_trans (Field.sizeOf_fields_lt halternates hmem) (List.sizeOf_lt_of_mem hfield)
    Schema.nested_induction step (schema.below field alternate)
termination_by sizeOf schema.fields

/-! ## Alternates and their plans -/

/-- What lies below a planned field: nothing if the field it stands for is plain, and otherwise the
plan of each alternate. -/
inductive Below (policy : MismatchPolicy) (schema : Schema) (field : Field)
    (planned : PlannedField) : Prop
  | leaf (plain : field.alternates? = none) (leaf : planned.alternates? = none)
  | union {alternates : List Alternate} {plans : List AlternatePlan}
      (declared : field.alternates? = some alternates)
      (planned : planned.alternates? = some plans)
      (distinct : (plans.map (·.name)).Nodup)
      (each : List.Forall₂ (fun alternate plan => plan.name = alternate.name ∧
        ((schema.below field alternate).resolution policy).outcome = .ok plan.plan)
        alternates plans)

variable {policy : MismatchPolicy} {schema : Schema} {field : Field} {planned : PlannedField}

theorem Realizes.below
    (h : Realizes schema.readOnly (field.prepare policy schema.readOnly) planned) :
    Below policy schema field planned := by
  obtain ⟨slot, -, hshapes⟩ := h.shape
  have hprepared := field.alternates_prepare policy schema.readOnly
  cases planned with
  | mk layout shape =>
    cases hshapes with
    | leaf plain =>
      rw [plain] at hprepared
      exact .leaf (Option.map_eq_none_iff.1 hprepared.symm) rfl
    | @union resolutions plans anchor _ _ _ _ distinct accepted =>
      have hnames : plans.map (·.name) = resolutions.map (·.1) :=
        map_eq_of_forall₂ accepted fun _ _ haccepted => haccepted.name
      rw [anchor] at hprepared
      obtain ⟨alternates, halternates, rfl⟩ := Option.map_eq_some_iff.1 hprepared.symm
      refine .union halternates rfl (hnames ▸ distinct) ?_
      rw [List.forall₂_map_left_iff] at accepted
      refine accepted.imp fun alternate plan haccepted => ?_
      rw [Alternate.resolve_eq] at haccepted
      exact ⟨haccepted.name, haccepted.outcome⟩

/-- A plan is made only of an accepted schema. -/
theorem Schema.accepted_of_outcome {plan : Plan}
    (h : (schema.resolution policy).outcome = .ok plan) :
    Accepted policy schema.readOnly (schema.prepared policy) ∧
      plan.fields = Prepared.planned schema.readOnly (schema.prepared policy) ∧
      plan.warnings = Prepared.tolerated policy schema.readOnly (schema.prepared policy) := by
  obtain ⟨haccepted, rfl⟩ := Resolution.ofFields_accepted h
  exact ⟨haccepted, rfl, rfl⟩

/-- The fields of a plan stand for those of its schema, and so do their alternates. -/
theorem Schema.below_of_outcome {plan : Plan}
    (h : (schema.resolution policy).outcome = .ok plan) :
    List.Forall₂ (Below policy schema) schema.fields plan.fields := by
  obtain ⟨haccepted, hfields, -⟩ := Schema.accepted_of_outcome h
  have hrealizes := haccepted.realizes fun _ => Schema.explains_prepared
  rw [hfields]
  exact (List.forall₂_map_left_iff.1 hrealizes).imp fun _ _ => Realizes.below

end PacketLayout
