import Mathlib.Data.List.Forall2
import PacketLayout.Layout.Resolution

/-!
# What an accepted field list consists of

A field list has a plan exactly when nothing is reported about it. The statements here turn the
empty list of diagnostics into facts about each field: it has a size, a shape, and an entry that
takes part in the checks of the whole layout.

* `Shapes` says what the shape of an accepted field is made of.
* `Positioned.settle_accepted` is the fact about one field.
* `Resolution.ofFields_accepted` is the fact about a list.
-/

namespace PacketLayout

/-! ## Names -/

theorem invalidNames_eq_nil_iff {seen names : List String} :
    invalidNames seen names = [] ↔
      names.Nodup ∧ ∀ name ∈ names, name ≠ "" ∧ name ∉ seen := by
  -- what is seen grows from name to name, so the induction is for every list of seen names
  induction names generalizing seen with
  | nil => simp [invalidNames]
  | cons name names ih =>
    rw [invalidNames]
    split
    · rename_i hbad
      refine ⟨fun h => absurd h (List.cons_ne_nil _ _), fun ⟨_, hall⟩ => ?_⟩
      obtain ⟨hempty, hseen⟩ := hall name List.mem_cons_self
      exact absurd hbad (not_or.2 ⟨hempty, hseen⟩)
    · rename_i hgood
      rw [not_or] at hgood
      rw [ih, List.nodup_cons]
      constructor
      · rintro ⟨hnodup, hrest⟩
        refine ⟨⟨fun hmem => (hrest name hmem).2 List.mem_cons_self, hnodup⟩, ?_⟩
        intro other hother
        rcases List.mem_cons.1 hother with rfl | hother
        · exact hgood
        · exact ⟨(hrest other hother).1, fun hseen =>
            (hrest other hother).2 (List.mem_cons_of_mem _ hseen)⟩
      · rintro ⟨⟨hnew, hnodup⟩, hall⟩
        refine ⟨hnodup, fun other hother => ?_⟩
        obtain ⟨hempty, hseen⟩ := hall other (List.mem_cons_of_mem _ hother)
        refine ⟨hempty, fun hmem => ?_⟩
        rcases List.mem_cons.1 hmem with rfl | hmem
        · exact hnew hother
        · exact hseen hmem

/-! ## Alternates -/

/-- An alternate and the plan it has below an anchor. -/
structure AlternateAccepted (available : Option Nat) (alternate : String × Resolution)
    (plan : AlternatePlan) : Prop where
  name : plan.name = alternate.1
  outcome : alternate.2.outcome = .ok plan.plan
  fits : ∀ size, available = some size → plan.plan.minimumSize ≤ size

theorem shapeAlternate_accepted {anchor name : String} {available : Option Nat}
    {resolution : Resolution}
    (h : (shapeAlternate anchor available name resolution).diagnostics = [])
    (hout : ∀ diagnostics, resolution.outcome = .error diagnostics → diagnostics ≠ []) :
    ∃ plan, (shapeAlternate anchor available name resolution).plan = some plan ∧
      AlternateAccepted available (name, resolution) plan := by
  unfold shapeAlternate at h ⊢
  cases hres : resolution.outcome with
  | error diagnostics =>
    -- the reasons of the refusal would have been reported, and there is at least one
    simp only [hres, List.map_eq_nil_iff] at h
    exact absurd h (hout diagnostics hres)
  | ok plan =>
    cases hfit : available.filter (· < plan.minimumSize) with
    | some size => simp [hres, hfit] at h
    | none =>
      refine ⟨.mk name plan, by simp [hfit], rfl, hres, ?_⟩
      intro size hsize
      -- only a size that is too small for the alternate passes the filter
      rw [hsize, Option.filter_eq_none_iff] at hfit
      exact Nat.le_of_not_lt fun hlt => hfit size rfl (decide_eq_true hlt)

/-- What becomes of an alternate that is accepted. -/
theorem AlternateAccepted.shapeAlternate_eq {anchor : String} {available : Option Nat}
    {alternate : String × Resolution} {plan : AlternatePlan}
    (h : AlternateAccepted available alternate plan) :
    shapeAlternate anchor available alternate.1 alternate.2 =
      { inRange := alternate.2.inRange
        events := alternate.2.events ++
          [.alternateResolved anchor plan.name plan.plan.minimumSize]
        plan := some plan } := by
  have hfits : available.filter (· < plan.plan.minimumSize) = none := by
    rw [Option.filter_eq_none_iff]
    intro size hsize
    rw [decide_eq_true_eq, Nat.not_lt]
    exact h.fits size hsize
  cases plan with
  | mk name plan =>
    simp only [shapeAlternate, h.outcome, hfits, ← h.name]
    rfl

/-- Alternates with good names are shaped one by one. -/
theorem shapeAlternates_eq_map {anchor : String} {available : Option Nat} {seen : List String}
    {alternates : List (String × Resolution)}
    (hnames : ∀ alternate ∈ alternates, alternate.1 ≠ "" ∧ alternate.1 ∉ seen)
    (hdistinct : (alternates.map (·.1)).Nodup) :
    shapeAlternates anchor available seen alternates =
      alternates.map fun alternate =>
        shapeAlternate anchor available alternate.1 alternate.2 := by
  induction alternates generalizing seen with
  | nil => rfl
  | cons alternate rest ih =>
    rw [List.map_cons, List.nodup_cons] at hdistinct
    rw [List.forall_mem_cons] at hnames
    rw [shapeAlternates, if_neg (not_or.2 hnames.1), List.map_cons, ih ?_ hdistinct.2]
    intro other hother
    refine ⟨(hnames.2 other hother).1, fun hmem => ?_⟩
    rcases List.mem_cons.1 hmem with heq | hmem
    · exact hdistinct.1 (List.mem_map.2 ⟨other, hother, heq⟩)
    · exact (hnames.2 other hother).2 hmem

/-- Alternates about which nothing is reported have distinct names, and each has its plan. -/
theorem shapeAlternates_accepted {anchor : String} {available : Option Nat} {seen : List String}
    {alternates : List (String × Resolution)}
    (h : (shapeAlternates anchor available seen alternates).flatMap (·.diagnostics) = [])
    (hout : ∀ alternate ∈ alternates, ∀ diagnostics,
      alternate.2.outcome = .error diagnostics → diagnostics ≠ []) :
    ((alternates.map (·.1)).Nodup ∧ ∀ alternate ∈ alternates,
        alternate.1 ≠ "" ∧ alternate.1 ∉ seen) ∧
      List.Forall₂ (AlternateAccepted available) alternates
        ((shapeAlternates anchor available seen alternates).filterMap (·.plan)) := by
  induction alternates generalizing seen with
  | nil => exact ⟨⟨List.nodup_nil, fun _ h => absurd h List.not_mem_nil⟩, .nil⟩
  | cons alternate rest ih =>
    obtain ⟨name, resolution⟩ := alternate
    rw [shapeAlternates] at h ⊢
    split at h
    · simp at h
    · rename_i hname
      rw [if_neg hname]
      rw [not_or] at hname
      rw [List.flatMap_cons, List.append_eq_nil_iff] at h
      obtain ⟨plan, hplan, hok⟩ :=
        shapeAlternate_accepted h.1 (hout (name, resolution) List.mem_cons_self)
      obtain ⟨⟨hnodup, hnames⟩, hplans⟩ :=
        ih h.2 fun other hother => hout other (List.mem_cons_of_mem _ hother)
      refine ⟨⟨?_, ?_⟩, ?_⟩
      · refine List.nodup_cons.2 ⟨fun hmem => ?_, hnodup⟩
        obtain ⟨other, hother, heq⟩ := List.mem_map.1 hmem
        exact (hnames other hother).2 (heq ▸ List.mem_cons_self)
      · intro other hother
        rcases List.mem_cons.1 hother with rfl | hother
        · exact hname
        · exact ⟨(hnames other hother).1, fun hseen =>
            (hnames other hother).2 (List.mem_cons_of_mem _ hseen)⟩
      · rw [List.filterMap_cons, hplan]
        exact .cons hok hplans

/-! ## Shapes -/

/-- What the shape of an accepted field is made of, given its size and the slot of a bit-field. -/
inductive Shapes (readOnly : Bool) (field : Prepared) (size : Size) (slot : Option BitSlot) :
    Shape → Prop
  | leaf {provider : Provider} (plain : field.alternates = none)
      (provided : Provider.resolve field.decl size slot = .ok provider) :
      Shapes readOnly field size slot (.leaf ⟨provider, field.decl.accessibility.getD .everyone,
        !readOnly && !field.decl.readOnly && provider.isWritable⟩)
  | union {alternates : List (String × Resolution)} {plans : List AlternatePlan}
      (anchor : field.alternates = some alternates)
      (accessibility : field.decl.accessibility = none)
      (backing : field.decl.enumBacking = none)
      (nonempty : alternates ≠ [])
      (named : ∀ alternate ∈ alternates, alternate.1 ≠ "")
      (distinct : (alternates.map (·.1)).Nodup)
      (accepted : List.Forall₂ (AlternateAccepted size.fixed) alternates plans) :
      Shapes readOnly field size slot (.union plans)

theorem shapeLeaf_accepted {readOnly : Bool} {decl : Declaration} {size : Size}
    {slot : Option BitSlot} (h : (shapeLeaf readOnly decl size slot).diagnostics = []) :
    ∃ shape, (shapeLeaf readOnly decl size slot).shape = some shape ∧
      Shapes readOnly ⟨decl, none⟩ size slot shape := by
  unfold shapeLeaf at h ⊢
  cases hprovider : Provider.resolve decl size slot with
  | error defect => simp [hprovider] at h
  | ok provider => exact ⟨_, rfl, .leaf rfl hprovider⟩

theorem shapeUnion_accepted {readOnly : Bool} {decl : Declaration} {size : Size}
    {slot : Option BitSlot} {alternates : List (String × Resolution)}
    (h : (shapeUnion decl size alternates).diagnostics = [])
    (hout : ∀ alternate ∈ alternates, ∀ diagnostics,
      alternate.2.outcome = .error diagnostics → diagnostics ≠ []) :
    ∃ shape, (shapeUnion decl size alternates).shape = some shape ∧
      Shapes readOnly ⟨decl, some alternates⟩ size slot shape := by
  simp only [shapeUnion, List.append_eq_nil_iff] at h
  obtain ⟨⟨hacc, hback⟩, hdefects⟩ := h
  have hacc : decl.accessibility = none := by
    rw [← Option.not_isSome_iff_eq_none]
    intro hsome
    simp [hsome] at hacc
  have hback : decl.enumBacking = none := by
    rw [← Option.not_isSome_iff_eq_none]
    intro hsome
    simp [hsome] at hback
  have hne : alternates ≠ [] := by
    rintro rfl
    simp at hdefects
  -- an anchor without alternates has just been excluded, so only its alternates could be wrong
  have hempty : alternates.isEmpty = false := by
    simpa using hne
  rw [hempty, if_neg (by decide)] at hdefects
  obtain ⟨⟨hnodup, hnames⟩, hplans⟩ := shapeAlternates_accepted hdefects hout
  refine ⟨.union _, ?_, .union rfl hacc hback hne (fun a ha => (hnames a ha).1) hnodup hplans⟩
  simp only [shapeUnion, hempty, hdefects]
  rfl

/-! ## Fields -/

/-- Every refusal of an alternate below the field says why. -/
def Prepared.Explains (field : Prepared) : Prop :=
  ∀ alternates, field.alternates = some alternates → ∀ alternate ∈ alternates,
    ∀ diagnostics, alternate.2.outcome = .error diagnostics → diagnostics ≠ []

/-- The slot of a placed bit-field once the width of its unit is known. -/
def Positioned.slot (unitWidth : Nat → Nat) (field : Positioned) : Option BitSlot :=
  field.placement.member.map fun member => member.slot (unitWidth member.group)

/-- What a placed field of a known size hands on to its plan. -/
def Positioned.layout (unitWidth : Nat → Nat) (field : Positioned) (size : Size) : FieldLayout where
  name := field.field.decl.name
  position := field.field.decl.position
  offset := field.placement.offset
  size := size
  sizeExpr := size.expr field.field.decl.name field.placement.offset (field.slot unitWidth)
  docLines := field.field.decl.docLines

/-- What a field with this layout contributes to its list. -/
def Shaping.settled (shaping : Shaping) (layout : FieldLayout) (predicted : Option Expr)
    (isLast : Bool) : Settled where
  inRange := shaping.inRange &&
    decide (layout.offset.constant + layout.sizeExpr.constant < wordLimit)
  events :=
    if shaping.shape.isSome then
      shaping.events ++ [.fieldResolved layout.name layout.offset.text layout.sizeExpr.text]
    else shaping.events
  diagnostics := shaping.diagnostics
  warnings := shaping.warnings
  entry := shaping.shape.map fun shape => ⟨.mk layout shape, predicted, isLast⟩

namespace Positioned

variable {readOnly : Bool} {unitWidth : Nat → Nat} {field : Positioned} {size : Size}

theorem settle_of_plain (hsize : field.field.size = .ok size)
    (hplain : field.field.alternates = none) :
    field.settle readOnly unitWidth =
      (shapeLeaf readOnly field.field.decl size (field.slot unitWidth)).settled
        (field.layout unitWidth size) field.placement.predicted field.isLast := by
  rw [settle, hsize]
  simp only [hplain]
  rfl

theorem settle_of_anchor {alternates : List (String × Resolution)}
    (hsize : field.field.size = .ok size) (hanchor : field.field.alternates = some alternates) :
    field.settle readOnly unitWidth =
      (shapeUnion field.field.decl size alternates).settled
        (field.layout unitWidth size) field.placement.predicted field.isLast := by
  rw [settle, hsize]
  simp only [hanchor]
  rfl

end Positioned

/-- A field about which nothing is reported has a size and a shape, and takes part in the checks of
the whole layout. -/
theorem Positioned.settle_accepted {readOnly : Bool} {unitWidth : Nat → Nat} {field : Positioned}
    (h : (field.settle readOnly unitWidth).diagnostics = []) (hexplains : field.field.Explains) :
    ∃ size shape, field.field.size = .ok size ∧
      Shapes readOnly field.field size (field.slot unitWidth) shape ∧
      (field.settle readOnly unitWidth).entry =
        some ⟨.mk (field.layout unitWidth size) shape, field.placement.predicted,
          field.isLast⟩ := by
  obtain ⟨⟨decl, alternates⟩, placement, isLast⟩ := field
  unfold Positioned.settle at h ⊢
  cases hsize : Prepared.size ⟨decl, alternates⟩ with
  | error defect => simp [hsize] at h
  | ok size =>
    simp only [hsize] at h ⊢
    cases alternates with
    | none =>
      obtain ⟨shape, hshape, hshapes⟩ := shapeLeaf_accepted h
      refine ⟨size, shape, rfl, hshapes, ?_⟩
      simp only [hshape]
      rfl
    | some alternates =>
      obtain ⟨shape, hshape, hshapes⟩ := shapeUnion_accepted h (hexplains alternates rfl)
      refine ⟨size, shape, rfl, hshapes, ?_⟩
      simp only [hshape]
      rfl

/-- The entry of a field, whether the field is accepted or not. -/
theorem Positioned.entry_eq {readOnly : Bool} {unitWidth : Nat → Nat} {field : Positioned}
    {entry : Entry} (h : (field.settle readOnly unitWidth).entry = some entry) :
    ∃ size shape, field.field.size = .ok size ∧
      entry = ⟨.mk (field.layout unitWidth size) shape, field.placement.predicted,
        field.isLast⟩ := by
  unfold Positioned.settle at h
  cases hsize : field.field.size with
  | error defect => simp [hsize] at h
  | ok size =>
    simp only [hsize, Option.map_eq_some_iff] at h
    obtain ⟨shape, -, rfl⟩ := h
    exact ⟨size, shape, rfl, rfl⟩

/-! ## Field lists -/

/-- A planned field and the field that it stands for. -/
structure Realizes (readOnly : Bool) (field : Prepared) (planned : PlannedField) : Prop where
  name : planned.name = field.decl.name
  position : planned.layout.position = field.decl.position
  docLines : planned.layout.docLines = field.decl.docLines
  size : field.size = .ok planned.size
  shape : ∃ slot, planned.sizeExpr = planned.size.expr planned.name planned.offset slot ∧
    Shapes readOnly field planned.size slot planned.shape

/-- Where the fields of a list are placed. -/
def Prepared.placements (fields : List Prepared) : List Placement :=
  Frontier.initial.placeAll (fields.map (·.sized))

/-- The fields of a list in their places. -/
def Prepared.positioned (fields : List Prepared) : List Positioned :=
  Positioned.zip fields (Prepared.placements fields)

/-- What giving each field of a list its shape has to report. -/
def Prepared.settled (readOnly : Bool) (fields : List Prepared) : List Settled :=
  (Prepared.positioned fields).map (·.settle readOnly (unitWidth (Prepared.placements fields)))

/-- The fields that take part in the checks of the whole layout. -/
def Prepared.entries (readOnly : Bool) (fields : List Prepared) : List Entry :=
  (Prepared.settled readOnly fields).filterMap (·.entry)

/-- The fields of a plan. -/
def Prepared.planned (readOnly : Bool) (fields : List Prepared) : List PlannedField :=
  (Prepared.entries readOnly fields).map (·.field)

/-- The explicit positions in a list that differ from the implied ones. -/
def Prepared.mismatches (readOnly : Bool) (fields : List Prepared) : List Diagnostic :=
  (Prepared.entries readOnly fields).filterMap (·.mismatchDiagnostic?)

/-- Everything that is reported about a list. -/
def Prepared.reported (policy : MismatchPolicy) (readOnly : Bool) (fields : List Prepared) :
    List Diagnostic :=
  (invalidNames [] (fields.map (·.decl.name))).map (.ofField · .invalidFieldName) ++
  (Prepared.settled readOnly fields).flatMap (·.diagnostics) ++
  (match policy with
    | .error => Prepared.mismatches readOnly fields
    | .warn => []) ++
  (Prepared.entries readOnly fields).filterMap (·.remainderDiagnostic?) ++
  unitDiagnostics (Prepared.planned readOnly fields) fields.length

/-- Everything about a list that is accepted although the schema says otherwise. -/
def Prepared.tolerated (policy : MismatchPolicy) (readOnly : Bool) (fields : List Prepared) :
    List Diagnostic :=
  (Prepared.settled readOnly fields).flatMap (·.warnings) ++
  (match policy with
    | .error => []
    | .warn => Prepared.mismatches readOnly fields)

/-- A list has a plan when nothing is reported about it. -/
theorem Resolution.outcome_ofFields (policy : MismatchPolicy) (readOnly : Bool) (name : String)
    (fields : List Prepared) :
    (Resolution.ofFields policy readOnly name fields).outcome =
      if (Prepared.reported policy readOnly fields).isEmpty then
        .ok (.mk name readOnly (Prepared.planned readOnly fields)
          (minimumSize (Prepared.planned readOnly fields))
          (totalSize (Prepared.planned readOnly fields))
          (Prepared.tolerated policy readOnly fields))
      else .error (Prepared.reported policy readOnly fields) :=
  rfl

theorem Resolution.inRange_ofFields (policy : MismatchPolicy) (readOnly : Bool) (name : String)
    (fields : List Prepared) :
    (Resolution.ofFields policy readOnly name fields).inRange =
      ((Prepared.settled readOnly fields).all (·.inRange) &&
        decide ((totalSize (Prepared.planned readOnly fields)).constant < wordLimit)) :=
  rfl

/-- Every refusal of a list says why. -/
theorem Resolution.explains_ofFields {policy : MismatchPolicy} {readOnly : Bool} {name : String}
    {fields : List Prepared} {diagnostics : List Diagnostic}
    (h : (Resolution.ofFields policy readOnly name fields).outcome = .error diagnostics) :
    diagnostics ≠ [] := by
  rw [Resolution.outcome_ofFields] at h
  split at h
  · cases h
  · rename_i hreported
    obtain rfl := Except.error.inj h
    simpa using hreported

theorem Frontier.length_placeAll (frontier : Frontier) (fields : List Sized) :
    (frontier.placeAll fields).length = fields.length := by
  induction fields generalizing frontier with
  | nil => rfl
  | cons field fields ih => rw [placeAll, List.length_cons, List.length_cons, ih]

theorem Positioned.map_field_zip {fields : List Prepared} {placements : List Placement}
    (h : placements.length = fields.length) :
    (Positioned.zip fields placements).map (·.field) = fields := by
  induction fields generalizing placements with
  | nil => cases placements <;> rfl
  | cons field fields ih =>
    cases placements with
    | nil => cases h
    | cons placement placements =>
      rw [Positioned.zip, List.map_cons, ih (Nat.succ.inj h)]

theorem Positioned.map_placement_zip {fields : List Prepared} {placements : List Placement}
    (h : placements.length = fields.length) :
    (Positioned.zip fields placements).map (·.placement) = placements := by
  induction fields generalizing placements with
  | nil =>
    obtain rfl := List.eq_nil_of_length_eq_zero h
    rfl
  | cons field fields ih =>
    cases placements with
    | nil => cases h
    | cons placement placements =>
      rw [Positioned.zip, List.map_cons, ih (Nat.succ.inj h)]

theorem Prepared.map_field_positioned (fields : List Prepared) :
    (Prepared.positioned fields).map (·.field) = fields :=
  Positioned.map_field_zip (by rw [Prepared.placements, Frontier.length_placeAll, List.length_map])

theorem Prepared.map_placement_positioned (fields : List Prepared) :
    (Prepared.positioned fields).map (·.placement) = Prepared.placements fields :=
  Positioned.map_placement_zip
    (by rw [Prepared.placements, Frontier.length_placeAll, List.length_map])

theorem Prepared.map_sized_positioned (fields : List Prepared) :
    (Prepared.positioned fields).map (·.field.sized) = fields.map (·.sized) := by
  have hfields := congrArg (List.map Prepared.sized) (Prepared.map_field_positioned fields)
  rwa [List.map_map] at hfields

theorem Prepared.length_positioned (fields : List Prepared) :
    (Prepared.positioned fields).length = fields.length := by
  conv =>
    rhs
    rw [← Prepared.map_field_positioned fields, List.length_map]

/-- A list of fields about which nothing is reported. -/
structure Accepted (policy : MismatchPolicy) (readOnly : Bool) (fields : List Prepared) :
    Prop where
  distinct : (fields.map (·.decl.name)).Nodup
  named : ∀ field ∈ fields, field.decl.name ≠ ""
  settled : ∀ field ∈ Prepared.positioned fields,
    (field.settle readOnly (unitWidth (Prepared.placements fields))).diagnostics = []
  agreeing : policy = .error → ∀ entry ∈ Prepared.entries readOnly fields, entry.mismatch? = none
  remainders : ∀ entry ∈ Prepared.entries readOnly fields, entry.remainderDiagnostic? = none
  units : unitDiagnostics (Prepared.planned readOnly fields) fields.length = []

theorem Prepared.reported_eq_nil_iff {policy : MismatchPolicy} {readOnly : Bool}
    {fields : List Prepared} :
    Prepared.reported policy readOnly fields = [] ↔ Accepted policy readOnly fields := by
  have hagreeing : (match policy with
      | .error => Prepared.mismatches readOnly fields
      | .warn => []) = [] ↔
      (policy = .error → ∀ entry ∈ Prepared.entries readOnly fields, entry.mismatch? = none) := by
    cases policy with
    | error => simp [Prepared.mismatches, Entry.mismatchDiagnostic?]
    | warn => exact ⟨fun _ => nofun, fun _ => rfl⟩
  simp only [Prepared.reported, List.append_eq_nil_iff, List.map_eq_nil_iff, hagreeing,
    invalidNames_eq_nil_iff, List.flatMap_eq_nil_iff, List.filterMap_eq_nil_iff,
    Prepared.settled, List.forall_mem_map]
  constructor
  · rintro ⟨⟨⟨⟨⟨hdistinct, hnamed⟩, hsettled⟩, hagreeing⟩, hremainders⟩, hunits⟩
    exact ⟨hdistinct, fun field hmem => (hnamed field hmem).1, hsettled, hagreeing, hremainders,
      hunits⟩
  · intro h
    exact ⟨⟨⟨⟨⟨h.distinct, fun field hmem => ⟨h.named field hmem, List.not_mem_nil⟩⟩, h.settled⟩,
      h.agreeing⟩, h.remainders⟩, h.units⟩

/-- A plan is made only of an accepted list. -/
theorem Resolution.ofFields_accepted {policy : MismatchPolicy} {readOnly : Bool} {name : String}
    {fields : List Prepared} {plan : Plan}
    (h : (Resolution.ofFields policy readOnly name fields).outcome = .ok plan) :
    Accepted policy readOnly fields ∧
      plan = .mk name readOnly (Prepared.planned readOnly fields)
        (minimumSize (Prepared.planned readOnly fields))
        (totalSize (Prepared.planned readOnly fields))
        (Prepared.tolerated policy readOnly fields) := by
  rw [Resolution.outcome_ofFields] at h
  split at h
  · rename_i hempty
    exact ⟨Prepared.reported_eq_nil_iff.1 (List.isEmpty_iff.1 hempty),
      (Except.ok.inj h).symm⟩
  · cases h

/-- A list has a plan exactly when it is accepted. -/
theorem Resolution.exists_outcome_iff {policy : MismatchPolicy} {readOnly : Bool} {name : String}
    {fields : List Prepared} :
    (∃ plan, (Resolution.ofFields policy readOnly name fields).outcome = .ok plan) ↔
      Accepted policy readOnly fields := by
  refine ⟨fun ⟨_, h⟩ => (Resolution.ofFields_accepted h).1, fun h => ?_⟩
  rw [Resolution.outcome_ofFields, if_pos (List.isEmpty_iff.2 (Prepared.reported_eq_nil_iff.2 h))]
  exact ⟨_, rfl⟩

theorem forall₂_filterMap {α β : Type} {R : α → β → Prop} {f : α → Option β} {l : List α}
    (h : ∀ a ∈ l, ∃ b, f a = some b ∧ R a b) : List.Forall₂ R l (l.filterMap f) := by
  induction l with
  | nil => exact .nil
  | cons a l ih =>
    obtain ⟨b, hb, hR⟩ := h a List.mem_cons_self
    rw [List.filterMap_cons, hb]
    exact .cons hR (ih fun c hc => h c (List.mem_cons_of_mem _ hc))

/-- The fields of an accepted list and those of its plan stand for each other in order. -/
theorem Accepted.realizes {policy : MismatchPolicy} {readOnly : Bool} {fields : List Prepared}
    (h : Accepted policy readOnly fields) (hexplains : ∀ field ∈ fields, field.Explains) :
    List.Forall₂ (Realizes readOnly) fields (Prepared.planned readOnly fields) := by
  -- both lists are images of the placed fields, so they are compared place by place
  rw [Prepared.planned, Prepared.entries, Prepared.settled, List.filterMap_map,
    List.forall₂_map_right_iff]
  conv =>
    arg 2
    rw [← Prepared.map_field_positioned fields]
  rw [List.forall₂_map_left_iff]
  refine forall₂_filterMap fun positioned hmem => ?_
  have hfield : positioned.field ∈ fields := by
    rw [← Prepared.map_field_positioned fields]
    exact List.mem_map_of_mem hmem
  obtain ⟨size, shape, hsize, hshapes, hentry⟩ :=
    Positioned.settle_accepted (h.settled positioned hmem) (hexplains _ hfield)
  exact ⟨_, hentry, rfl, rfl, rfl, hsize, _, rfl, hshapes⟩

end PacketLayout
