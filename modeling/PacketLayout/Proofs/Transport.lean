import Mathlib.Data.List.Forall2
import PacketLayout.Layout.Resolution

/-!
# What the checks do not see

The checks of a layout read a few things of a planned field and of the plans below an anchor. A
change of plans that leaves these alone passes through them: the result is the one for the plans
before, changed in the same way.

* `KeepsSlots` are the changes of fields that the checks of units do not see.
* `AlternatePlan.change` is a change of the plans below an anchor; `shapeAlternates_change` carries
  it through the shaping of alternates.
-/

namespace PacketLayout

/-! ## Fields -/

/-- A change of planned fields that leaves names and slots alone. -/
structure KeepsSlots (f : PlannedField → PlannedField) : Prop where
  name : ∀ field, (f field).name = field.name
  slot? : ∀ field, (f field).slot? = field.slot?

namespace KeepsSlots

variable {f : PlannedField → PlannedField}

theorem unitMembers_map (h : KeepsSlots f) (fields : List PlannedField) (group : Nat) :
    unitMembers (fields.map f) group = (unitMembers fields group).map (Prod.map f id) := by
  rw [unitMembers, List.filterMap_map, unitMembers, List.map_filterMap]
  refine List.filterMap_congr fun field _ => ?_
  simp only [Function.comp_apply, h.slot?]
  cases field.slot? with
  | none => rfl
  | some slot => by_cases hgroup : slot.group = group <;> simp [hgroup]

theorem overflowDiagnostic?_map (h : KeepsSlots f) (members : List (PlannedField × BitSlot)) :
    overflowDiagnostic? (members.map (Prod.map f id)) = overflowDiagnostic? members := by
  simp only [overflowDiagnostic?, List.head?_map, List.getLast?_map, List.foldl_map, List.map_map]
  cases members.head? with
  | none => rfl
  | some first =>
    cases members.getLast? with
    | none => rfl
    | some last => simp [Function.comp_def, h.name]

theorem unitDiagnostics_map (h : KeepsSlots f) (fields : List PlannedField) (units : Nat) :
    unitDiagnostics (fields.map f) units = unitDiagnostics fields units := by
  simp only [unitDiagnostics, h.unitMembers_map, h.overflowDiagnostic?_map]

theorem countedFrom_map (h : KeepsSlots f) (seen : List Nat) (fields : List PlannedField) :
    countedFrom seen (fields.map f) = (countedFrom seen fields).map f := by
  induction fields generalizing seen with
  | nil => rfl
  | cons field fields ih =>
    rw [List.map_cons, countedFrom, h.slot?, countedFrom]
    cases field.slot? with
    | none => rw [List.map_cons, ih]
    | some slot =>
      by_cases hseen : slot.group ∈ seen
      · simp only [if_pos hseen, ih]
      · simp only [if_neg hseen, List.map_cons, ih]

/-- A change of sizes that keeps sums is a change of the size of a packet. -/
theorem totalSize_map (h : KeepsSlots f) {g : Expr → Expr}
    (hsize : ∀ field, (f field).sizeExpr = g field.sizeExpr) (hzero : g .zero = .zero)
    (hplus : ∀ a b, g (a.plus b) = (g a).plus (g b)) (fields : List PlannedField) :
    totalSize (fields.map f) = g (totalSize fields) := by
  have hsum (fields : List PlannedField) (total : Expr) :
      (fields.map f).foldl (fun total field => total.plus field.sizeExpr) (g total) =
        g (fields.foldl (fun total field => total.plus field.sizeExpr) total) := by
    induction fields generalizing total with
    | nil => rfl
    | cons field fields ih =>
      rw [List.map_cons, List.foldl_cons, List.foldl_cons, hsize, ← hplus, ih]
  rw [totalSize, counted, h.countedFrom_map]
  conv => lhs; rw [← hzero]
  exact hsum _ .zero

theorem knownSum_map (h : KeepsSlots f) (hextent : ∀ field, (f field).extent? = field.extent?)
    (fields : List PlannedField) : knownSum (fields.map f) = knownSum fields := by
  simp only [knownSum, counted, h.countedFrom_map, List.foldl_map, hextent]

end KeepsSlots

theorem furthestEnd_map {f : PlannedField → PlannedField}
    (h : ∀ field, (f field).staticEnd? = field.staticEnd?) (fields : List PlannedField) :
    furthestEnd (fields.map f) = furthestEnd fields := by
  have hends : (fields.map f).filterMap (·.staticEnd?) = fields.filterMap (·.staticEnd?) := by
    rw [List.filterMap_map]
    exact List.filterMap_congr fun field _ => h field
  rw [furthestEnd, hends, furthestEnd]

/-! ## Alternates -/

/-- The resolution with another plan. -/
def Resolution.change (f : Plan → Plan) (resolution : Resolution) : Resolution :=
  { resolution with outcome := resolution.outcome.map f }

/-- The alternate with another plan, which may depend on its name. -/
def AlternatePlan.change (f : String → Plan → Plan) (alternate : AlternatePlan) : AlternatePlan :=
  .mk alternate.name (f alternate.name alternate.plan)

/-- What the alternate contributes, with another plan. -/
def AlternateShaping.change (f : String → Plan → Plan) (shaping : AlternateShaping) :
    AlternateShaping :=
  { shaping with plan := shaping.plan.map (·.change f) }

section

variable {f : String → Plan → Plan}

theorem shapeAlternate_change (hminimum : ∀ name plan, (f name plan).minimumSize = plan.minimumSize)
    (anchor : String) (available : Option Nat) (name : String) (resolution : Resolution) :
    shapeAlternate anchor available name (resolution.change (f name)) =
      (shapeAlternate anchor available name resolution).change f := by
  cases resolution with
  | mk inRange events outcome =>
    cases outcome with
    | error diagnostics => rfl
    | ok plan =>
      simp only [shapeAlternate, Resolution.change, Except.map, hminimum]
      cases available.filter (· < plan.minimumSize) <;> rfl

/-- Alternates are shaped without a look at their plans, apart from the length that these need. -/
theorem shapeAlternates_change
    (hminimum : ∀ name plan, (f name plan).minimumSize = plan.minimumSize) (anchor : String)
    (available : Option Nat) (seen : List String) (alternates : List (String × Resolution)) :
    shapeAlternates anchor available seen
        (alternates.map fun alternate => (alternate.1, alternate.2.change (f alternate.1))) =
      (shapeAlternates anchor available seen alternates).map (·.change f) := by
  induction alternates generalizing seen with
  | nil => rfl
  | cons alternate rest ih =>
    obtain ⟨name, resolution⟩ := alternate
    rw [List.map_cons, shapeAlternates, shapeAlternates, ih, ih, shapeAlternate_change hminimum]
    by_cases hrefused : name = "" ∨ name ∈ seen
    · rw [if_pos hrefused, if_pos hrefused]
      rfl
    · rw [if_neg hrefused, if_neg hrefused]
      rfl

theorem filterMap_plan_change (shaped : List AlternateShaping) :
    (shaped.map (·.change f)).filterMap (·.plan) =
      (shaped.filterMap (·.plan)).map (·.change f) := by
  rw [List.filterMap_map, List.map_filterMap]
  rfl

theorem alternateWarnings_change (hwarnings : ∀ name plan, (f name plan).warnings = plan.warnings)
    (anchor : String) (alternates : List AlternatePlan) :
    alternateWarnings anchor (alternates.map (·.change f)) =
      alternateWarnings anchor alternates := by
  simp only [alternateWarnings, List.flatMap_map, AlternatePlan.change, AlternatePlan.plan,
    AlternatePlan.name, hwarnings]

end

end PacketLayout
