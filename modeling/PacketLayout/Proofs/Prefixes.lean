import PacketLayout.Proofs.Acceptability

/-!
# Fields and their successors

What stands behind a field has no say in it, with one exception: a unit that is still open may be
joined, and a wider integer among those that join makes it wider.

* `Frontier.Expects` are the units that later fields may be members of. Placing a field never adds
  to them, so the width of every other unit is settled.
* `SameUpTo` compares two fields up to the width of one unit.
* `Schema.sameUpTo_of_isPrefix` says that two plans agree in this sense on the fields that their
  schemas share at the front.
-/

namespace PacketLayout

/-! ## Units that are not settled -/

namespace Frontier

variable {frontier : Frontier}

/-- Where a list of fields leads. -/
def after (frontier : Frontier) (fields : List Sized) : Frontier :=
  fields.foldl (fun frontier field => (frontier.place field).2) frontier

theorem placeAll_append (frontier : Frontier) (fields rest : List Sized) :
    frontier.placeAll (fields ++ rest) =
      frontier.placeAll fields ++ (frontier.after fields).placeAll rest := by
  induction fields generalizing frontier with
  | nil => rfl
  | cons field fields ih =>
    simp only [List.cons_append, placeAll, ih]
    rfl

/-- The unit that is open. -/
def openUnit? (frontier : Frontier) : Option Nat := frontier.unit.map (·.group)

/-- Later fields may be members of the unit: it is open, or not opened yet. -/
def Expects (frontier : Frontier) (group : Nat) : Prop :=
  frontier.openUnit? = some group ∨ frontier.units ≤ group

/-- The open unit is one of those that have been counted. -/
def Counted (frontier : Frontier) : Prop :=
  ∀ group, frontier.openUnit? = some group → group < frontier.units

theorem counted_initial : initial.Counted := nofun

/-- What placing a field does to the units. -/
structure Advances (frontier : Frontier) (placement : Placement) (next : Frontier) : Prop where
  counted : next.Counted
  units_le : frontier.units ≤ next.units
  expects : ∀ group, next.Expects group → frontier.Expects group
  expected : ∀ member, placement.member = some member → frontier.Expects member.group
  opened : ∀ member, placement.member = some member → member.group < next.units

theorem units_close (frontier : Frontier) : frontier.close.units = frontier.units := by
  rw [close]
  split <;> rfl

theorem openUnit?_close (frontier : Frontier) : frontier.close.openUnit? = none := by
  rw [openUnit?, unit_close, Option.map_none]

theorem closeIfFull_eq_or (frontier : Frontier) :
    frontier.closeIfFull = frontier ∨ frontier.closeIfFull = frontier.close := by
  cases h : frontier.unit with
  | none =>
    rw [closeIfFull, h]
    exact .inl rfl
  | some unit =>
    cases hfull : unit.isFull with
    | true => exact .inr (closeIfFull_of_isFull h hfull)
    | false => exact .inl (closeIfFull_of_not_isFull h hfull)

theorem expects_of_close {group : Nat} (h : frontier.close.Expects group) :
    frontier.Expects group := by
  rw [Expects, openUnit?_close, units_close] at h
  exact .inr (h.resolve_left nofun)

/-- Whether a unit is closed because it is full makes it less expected, if anything. -/
theorem Advances.closeIfFull {placement : Placement} {next : Frontier}
    (h : frontier.Advances placement next) : frontier.Advances placement next.closeIfFull := by
  rcases next.closeIfFull_eq_or with heq | heq
  · rwa [heq]
  · rw [heq]
    refine ⟨fun group hopen => ?_, ?_, fun group hexpects => ?_, h.expected, ?_⟩
    · rw [openUnit?_close] at hopen
      cases hopen
    · rw [units_close]
      exact h.units_le
    · exact h.expects group (expects_of_close hexpects)
    · rw [units_close]
      exact h.opened

theorem advances_join {unit : OpenUnit} (h : frontier.Counted) (hunit : frontier.unit = some unit)
    (typeWidth width : Nat) :
    frontier.Advances (frontier.join unit typeWidth width).1
      (frontier.join unit typeWidth width).2 := by
  have hopen : frontier.openUnit? = some unit.group := by
    rw [openUnit?, hunit, Option.map_some]
  have hstep (joined : OpenUnit) (hgroup : joined.group = unit.group) :
      frontier.Advances (frontier.join unit typeWidth width).1
        { frontier with unit := some joined } := by
    have hjoined : some joined.group = frontier.openUnit? := hgroup ▸ hopen.symm
    refine ⟨fun group heq => ?_, Nat.le_refl _, fun group hexpects => ?_, ?_, ?_⟩
    · exact h group (hjoined.symm.trans heq)
    · exact hexpects.imp_left hjoined.symm.trans
    · rintro member ⟨⟩
      exact .inl hopen
    · rintro member ⟨⟩
      exact h _ hopen
  exact (hstep { unit with
    used := unit.used + width
    width := max unit.width typeWidth } rfl).closeIfFull

theorem advances_start (h : frontier.unit = none) (field : Sized) :
    frontier.Advances (frontier.start field).1 (frontier.start field).2 := by
  cases hwidth : field.bitWidth? with
  | none =>
    simp only [start, hwidth]
    refine ⟨fun group heq => ?_, Nat.le_refl _, fun _ hexpects => hexpects,
      fun _ hmember => ?_, fun _ hmember => ?_⟩
    · simp [openUnit?, h] at heq
    · cases hmember
    · cases hmember
  | some width =>
    rw [start_of_bitWidth hwidth]
    have hstep : frontier.Advances
        ⟨frontier.next, field.decl.position.offset (frontier.next.getD .zero),
          some ⟨frontier.units, 0, width, field.typeWidth⟩⟩
        ⟨none, some (frontier.opened field width), frontier.units + 1⟩ := by
      refine ⟨?_, Nat.le_succ _, fun group hexpects => .inr ?_, ?_, ?_⟩
      · rintro group ⟨⟩
        exact Nat.lt_succ_self _
      · rcases hexpects with ⟨⟨⟩⟩ | hunits
        · exact Nat.le_refl _
        · exact Nat.le_of_succ_le hunits
      · rintro member ⟨⟩
        exact .inr (Nat.le_refl _)
      · rintro member ⟨⟩
        exact Nat.lt_succ_self _
    exact hstep.closeIfFull

/-- A field becomes a member of a unit that is expected, if of any, and afterwards no other units
are expected than before. -/
theorem advances_place (h : frontier.Counted) (field : Sized) :
    frontier.Advances (frontier.place field).1 (frontier.place field).2 := by
  have hstart : frontier.Advances (frontier.close.start field).1
      (frontier.close.start field).2 := by
    have hclosed := advances_start frontier.unit_close field
    exact ⟨hclosed.counted, frontier.units_close ▸ hclosed.units_le,
      fun group hexpects => expects_of_close (hclosed.expects group hexpects),
      fun member hmember => expects_of_close (hclosed.expected member hmember), hclosed.opened⟩
  rw [place]
  split
  · rename_i hunit _ _
    exact advances_join h hunit _ _
  · exact hstart

/-- Fields become members of expected units only. -/
theorem expects_of_mem_placeAll (h : frontier.Counted) {fields : List Sized}
    {placement : Placement} (hmem : placement ∈ frontier.placeAll fields) {member : UnitMember}
    (hmember : placement.member = some member) : frontier.Expects member.group := by
  induction fields generalizing frontier with
  | nil => cases hmem
  | cons field fields ih =>
    have hstep := advances_place h field
    rcases List.mem_cons.1 hmem with rfl | hmem
    · exact hstep.expected member hmember
    · exact hstep.expects _ (ih hstep.counted hmem)

/-- Every unit of placed fields has been counted at the end. -/
theorem counted_after (h : frontier.Counted) (fields : List Sized) :
    (frontier.after fields).Counted ∧ frontier.units ≤ (frontier.after fields).units ∧
      ∀ placement ∈ frontier.placeAll fields, ∀ member, placement.member = some member →
        member.group < (frontier.after fields).units := by
  induction fields generalizing frontier with
  | nil => exact ⟨h, Nat.le_refl _, nofun⟩
  | cons field fields ih =>
    have hstep := advances_place h field
    obtain ⟨hcounted, hunits, hopened⟩ := ih hstep.counted
    refine ⟨hcounted, Nat.le_trans hstep.units_le hunits, fun placement hmem member hmember => ?_⟩
    rcases List.mem_cons.1 hmem with rfl | hmem
    · exact Nat.lt_of_lt_of_le (hstep.opened member hmember) hunits
    · exact hopened placement hmem member hmember

/-- What follows leaves the width of a unit alone, unless the unit is open. -/
theorem unitWidth_placeAll_append (h : frontier.Counted) (fields rest : List Sized)
    {placement : Placement} (hmem : placement ∈ frontier.placeAll fields) {member : UnitMember}
    (hmember : placement.member = some member)
    (hclosed : (frontier.after fields).openUnit? ≠ some member.group) :
    unitWidth (frontier.placeAll (fields ++ rest)) member.group =
      unitWidth (frontier.placeAll fields) member.group := by
  obtain ⟨hcounted, -, hopened⟩ := counted_after h fields
  have hnone : membersOf ((frontier.after fields).placeAll rest) member.group = [] := by
    refine membersOf_eq_nil fun place hplace later hsome hgroup => ?_
    have hexpects := expects_of_mem_placeAll hcounted hplace hsome
    rw [hgroup] at hexpects
    exact hexpects.elim hclosed (Nat.not_le_of_lt (hopened placement hmem member hmember))
  rw [unitWidth, unitWidth, placeAll_append, membersOf_append, hnone, List.append_nil]

theorem predicted_start (frontier : Frontier) (field : Sized) :
    (frontier.start field).1.predicted = frontier.next := by
  unfold start
  cases field.bitWidth? <;> rfl

/-- A field that does not join the open unit closes it. -/
theorem place_of_apart {field : Sized}
    (h : ∀ member, (frontier.place field).1.member = some member →
      frontier.openUnit? ≠ some member.group) :
    frontier.place field = frontier.close.start field := by
  rcases frontier.place_cases field with ⟨unit, width, hunit, -, -, hplace⟩ | ⟨-, hplace⟩
  · have hmember : (frontier.place field).1.member =
        some ⟨unit.group, unit.used, width, field.typeWidth⟩ := by
      rw [hplace]
      rfl
    exact absurd (by rw [openUnit?, hunit]; rfl) (h _ hmember)
  · exact hplace

end Frontier

/-- Where a placed list is cut, the fields in front lead to where the next one is placed. -/
theorem Prepared.placements_of_split {fields : List Prepared} {before after : List Positioned}
    {field : Positioned} (h : Prepared.positioned fields = before ++ field :: after) :
    before.map (·.placement) = Frontier.initial.placeAll (before.map (·.field.sized)) ∧
      field.placement =
        ((Frontier.initial.after (before.map (·.field.sized))).place field.field.sized).1 := by
  have hmap := Prepared.map_placement_positioned fields
  rw [Prepared.placements, ← Prepared.map_sized_positioned, h, List.map_append, List.map_append,
    Frontier.placeAll_append] at hmap
  obtain ⟨hbefore, hrest⟩ := List.append_inj hmap (by
    rw [Frontier.length_placeAll, List.length_map, List.length_map])
  exact ⟨hbefore, (List.cons.inj hrest).1⟩

/-! ## What the width of a unit is good for -/

/-- Bytes are read the same way in every unit. -/
theorem Provider.resolve_of_bytes {size : Size} (h : size.bitWidth? = none) (decl : Declaration)
    (slot slot' : Option BitSlot) : resolve decl size slot = resolve decl size slot' := by
  simp only [resolve, h]

/-- A bit-field is read by its slot, and what its values mean does not depend on that. -/
theorem Provider.resolve_of_bits {decl : Declaration} {size : Size} {width : Nat} {slot : BitSlot}
    {provider : Provider} (h : size.bitWidth? = some width)
    (hprovider : resolve decl size (some slot) = .ok provider) :
    ∃ type, ∀ slot', resolve decl size (some slot') = .ok (bitField slot' type) := by
  simp only [resolve, h] at hprovider ⊢
  cases hbacking : checkBacking decl with
  | error defect =>
    rw [hbacking] at hprovider
    cases hprovider
  | ok _ =>
    cases decl.type with
    | enumeration type => exact ⟨some type, fun _ => rfl⟩
    | integer | composite | bytes | byteArray => exact ⟨none, fun _ => rfl⟩

namespace Positioned

variable {readOnly : Bool} {positioned : Positioned}

/-- What becomes of a placed field depends on its declaration and its place alone. -/
theorem planned?_congr {other : Positioned} (hfield : positioned.field = other.field)
    (hplace : positioned.placement = other.placement) {widths widths' : Nat → Nat}
    (hslot : positioned.slot widths = positioned.slot widths') :
    positioned.planned? readOnly widths = other.planned? readOnly widths' := by
  obtain ⟨field, placement, isLast⟩ := positioned
  obtain ⟨_, _, isLast'⟩ := other
  cases hfield
  cases hplace
  rw [Positioned.slot, Positioned.slot] at hslot
  rw [planned?, planned?, settle, settle, hslot]
  cases field.size with
  | error defect => rfl
  | ok size => simp only [Option.map_map]; rfl

/-- The widths of units are of no interest to a field that is not a bit-field. -/
theorem planned?_of_bytes (h : positioned.bitWidth? = none) (widths widths' : Nat → Nat) :
    positioned.planned? readOnly widths = positioned.planned? readOnly widths' := by
  cases hsize : positioned.field.size with
  | error defect => simp only [planned?, settle, hsize]
  | ok size =>
    have hbytes : size.bitWidth? = none := by
      rwa [Positioned.bitWidth?, Sized.bitWidth?, Prepared.sized, hsize] at h
    have hlayout : positioned.layout widths size = positioned.layout widths' size := by
      rw [Positioned.layout, Size.expr_of_bitWidth?_eq_none hbytes,
        ← Size.expr_of_bitWidth?_eq_none hbytes _ _ (positioned.slot widths')]
      rfl
    cases halternates : positioned.field.alternates with
    | none =>
      rw [planned?, planned?, settle_of_plain hsize halternates, settle_of_plain hsize halternates,
        hlayout, shapeLeaf, Provider.resolve_of_bytes hbytes _ _ (positioned.slot widths')]
      rfl
    | some alternates =>
      rw [planned?, planned?, settle_of_anchor hsize halternates,
        settle_of_anchor hsize halternates, hlayout]

/-- The width of its unit decides where a bit-field has its bits and how many bytes it spans, and
nothing else about it. -/
theorem planned?_of_bits {width : Nat} {member : UnitMember} {widths : Nat → Nat}
    {field : PlannedField} (h : positioned.bitWidth? = some width)
    (hmember : positioned.placement.member = some member)
    (hfield : positioned.planned? readOnly widths = some field) :
    ∃ (layout : FieldLayout) (type : Option Enumeration) (accessibility : Accessibility)
      (writable : Bool), ∀ widths' : Nat → Nat,
      positioned.planned? readOnly widths' = some
        (.mk { layout with sizeExpr := .literal (widths' member.group) }
          (.leaf ⟨.bitField (member.slot (widths' member.group)) type, accessibility,
            writable⟩)) := by
  obtain ⟨size, hsize, hbits, hplain⟩ := exists_size_of_bitWidth? h
  have hslot (widths : Nat → Nat) :
      positioned.slot widths = some (member.slot (widths member.group)) := by
    rw [Positioned.slot, hmember, Option.map_some]
  obtain ⟨provider, hprovider⟩ : ∃ provider,
      Provider.resolve positioned.field.decl size (positioned.slot widths) = .ok provider := by
    obtain ⟨entry, hentry, -⟩ := Option.map_eq_some_iff.1 hfield
    exact (exists_entry_plain_iff hsize hplain).1 ⟨entry, hentry⟩
  rw [hslot] at hprovider
  obtain ⟨type, htype⟩ := Provider.resolve_of_bits hbits hprovider
  refine ⟨positioned.layout widths size, type,
    positioned.field.decl.accessibility.getD .everyone,
    !readOnly && !positioned.field.decl.readOnly && true, fun widths' => ?_⟩
  rw [planned?, settle_of_plain hsize hplain, hslot, shapeLeaf, htype]
  simp only [Shaping.settled, Option.map_some, Positioned.layout, hslot,
    Size.expr_of_bitWidth?_eq_some hbits]
  rfl

end Positioned

/-! ## Two schemas that begin alike -/

/-- Two planned fields are the same, except that a bit-field of the unit `pending` may stand in a
wider unit in one of them. -/
inductive SameUpTo (pending : Option Nat) : PlannedField → PlannedField → Prop
  | same (field : PlannedField) : SameUpTo pending field field
  | bits {layout : FieldLayout} {member : UnitMember} {type : Option Enumeration}
      {accessibility : Accessibility} {writable : Bool} (unit unit' : Nat)
      (open_eq : pending = some member.group) :
      SameUpTo pending
        (.mk { layout with sizeExpr := .literal unit }
          (.leaf ⟨.bitField (member.slot unit) type, accessibility, writable⟩))
        (.mk { layout with sizeExpr := .literal unit' }
          (.leaf ⟨.bitField (member.slot unit') type, accessibility, writable⟩))

/-- A placed field becomes the same under two choices of widths that differ in one unit only. -/
theorem Positioned.sameUpTo_of_planned? {readOnly : Bool} {positioned : Positioned}
    {widths widths' : Nat → Nat} {pending : Option Nat} {field field' : PlannedField}
    (h : positioned.planned? readOnly widths = some field)
    (h' : positioned.planned? readOnly widths' = some field')
    (hclosed : ∀ member, positioned.placement.member = some member →
      pending ≠ some member.group → widths member.group = widths' member.group) :
    SameUpTo pending field field' := by
  have hequal (hsame : positioned.planned? readOnly widths = positioned.planned? readOnly widths') :
      SameUpTo pending field field' := by
    rw [hsame, h'] at h
    obtain rfl := Option.some.inj h
    exact .same _
  cases hmember : positioned.placement.member with
  | none =>
    refine hequal (Positioned.planned?_congr rfl rfl ?_)
    rw [Positioned.slot, Positioned.slot, hmember]
    rfl
  | some member =>
    by_cases hopen : pending = some member.group
    · cases hbits : positioned.bitWidth? with
      | none => exact hequal (Positioned.planned?_of_bytes hbits _ _)
      | some width =>
        obtain ⟨layout, type, accessibility, writable, hwidths⟩ :=
          Positioned.planned?_of_bits hbits hmember h
        obtain rfl := Option.some.inj (h.symm.trans (hwidths _))
        obtain rfl := Option.some.inj (h'.symm.trans (hwidths _))
        exact .bits _ _ hopen
    · refine hequal (Positioned.planned?_congr rfl rfl ?_)
      rw [Positioned.slot, Positioned.slot, hmember, Option.map_some, Option.map_some,
        hclosed member hmember hopen]

/-- The unit that is still open behind fields at the front of a list. -/
def pendingUnit? (fields : List Field) : Option Nat :=
  (Frontier.initial.after (fields.map (·.sized))).openUnit?

namespace Schema

variable {schema : Schema} {policy : MismatchPolicy} {plan : Plan}

/-- The places of the fields at the front of a schema. -/
theorem placements_of_isPrefix (policy : MismatchPolicy) {shared : List Field}
    (hfront : shared <+: schema.fields) :
    ∃ rest : List Sized, Prepared.placements (schema.prepared policy) =
      Frontier.initial.placeAll (shared.map (·.sized) ++ rest) := by
  obtain ⟨rest, hrest⟩ := hfront
  refine ⟨rest.map (·.sized), ?_⟩
  rw [Prepared.placements, schema.map_sized_prepared policy, ← hrest, List.map_append]

/-- Only the unit that is open behind the front of a schema may become wider. -/
theorem widths_of_isPrefix {shared : List Field} (hfront : shared <+: schema.fields)
    {placement : Placement}
    (hmem : placement ∈ Frontier.initial.placeAll (shared.map (·.sized))) {member : UnitMember}
    (hmember : placement.member = some member) (hclosed : pendingUnit? shared ≠ some member.group) :
    schema.widths policy member.group =
      unitWidth (Frontier.initial.placeAll (shared.map (·.sized))) member.group := by
  obtain ⟨rest, hrest⟩ := placements_of_isPrefix policy hfront
  rw [Schema.widths, hrest]
  exact Frontier.unitWidth_placeAll_append Frontier.counted_initial _ rest hmem hmember hclosed

/-- A field of the plan with its declaration and its place. -/
theorem exists_planned?_of_isPrefix (h : schema.resolve policy = .ok plan) {shared : List Field}
    (hfront : shared <+: schema.fields) {index : Nat} {field : Field}
    (hfield : shared[index]? = some field) :
    ∃ (positioned : Positioned) (planned : PlannedField), plan.fields[index]? = some planned ∧
      positioned.field = field.prepare policy schema.readOnly ∧
      (Frontier.initial.placeAll (shared.map (·.sized)))[index]? = some positioned.placement ∧
      positioned.planned? schema.readOnly (schema.widths policy) = some planned := by
  obtain ⟨hbound, rfl⟩ := List.getElem?_eq_some_iff.1 hfield
  have houtcome := (Schema.resolve_eq_ok_iff.1 h).2
  obtain ⟨hlength, hplanned⟩ := List.forall₂_iff_get.1 (forall₂_becomes houtcome)
  have hdecl := congrArg (·[index]?) (schema.map_field_placed policy)
  rw [List.getElem?_map, List.getElem?_map, List.prefix_iff_getElem?.1 hfront index hbound]
    at hdecl
  obtain ⟨positioned, hget, hpositioned⟩ := Option.map_eq_some_iff.1 hdecl
  obtain ⟨hindex, rfl⟩ := List.getElem?_eq_some_iff.1 hget
  refine ⟨_, _, List.getElem?_eq_getElem (hlength ▸ hindex), hpositioned, ?_,
    (hplanned index hindex (hlength ▸ hindex)).planned?_eq⟩
  obtain ⟨rest, hrest⟩ := placements_of_isPrefix policy hfront
  have hplace := congrArg (·[index]?) (Prepared.map_placement_positioned (schema.prepared policy))
  rw [hrest, Frontier.placeAll_append, List.getElem?_append_left, List.getElem?_map] at hplace
  · exact hplace.symm.trans (congrArg _ hget)
  · rwa [Frontier.length_placeAll, List.length_map]

/-- The plans of two schemas that begin with the same fields begin alike: whatever follows, it may
only widen the unit that is still open behind those fields. -/
theorem sameUpTo_of_isPrefix {schema schema' : Schema} {policy : MismatchPolicy}
    {plan plan' : Plan} {shared : List Field} (hreadOnly : schema.readOnly = schema'.readOnly)
    (hfront : shared <+: schema.fields) (hfront' : shared <+: schema'.fields)
    (h : schema.resolve policy = .ok plan) (h' : schema'.resolve policy = .ok plan') :
    ∀ index < shared.length, ∃ field field', plan.fields[index]? = some field ∧
      plan'.fields[index]? = some field' ∧ SameUpTo (pendingUnit? shared) field field' := by
  intro index hindex
  have hshared := List.getElem?_eq_getElem hindex
  obtain ⟨positioned, field, hfield, hdecl, hplace, hplanned⟩ :=
    exists_planned?_of_isPrefix h hfront hshared
  obtain ⟨positioned', field', hfield', hdecl', hplace', hplanned'⟩ :=
    exists_planned?_of_isPrefix h' hfront' hshared
  refine ⟨field, field', hfield, hfield', ?_⟩
  -- both fields stand in the same place, so only the widths of units can tell them apart
  have hsame : positioned.planned? schema.readOnly (schema'.widths policy) = some field' := by
    rw [← hplanned', hreadOnly]
    refine Positioned.planned?_congr ?_ (Option.some.inj (hplace.symm.trans hplace')) rfl
    rw [hdecl, hdecl', hreadOnly]
  refine Positioned.sameUpTo_of_planned? hplanned hsame fun member hmember hclosed => ?_
  have hmem := List.mem_of_getElem? hplace
  rw [widths_of_isPrefix hfront hmem hmember hclosed,
    widths_of_isPrefix hfront' hmem hmember hclosed]

end Schema

/-- A version and a flag, with more to come. -/
def flaggedSchema (rest : List Field) : Schema where
  name := "Flagged"
  fields :=
    .plain { name := "version", type := .integer .u8 } ::
    .plain { name := "flag", type := .integer .u8, bits := some 3 } :: rest

/-- A count that joins the unit of the flag. -/
def countField : Field := .plain { name := "count", type := .integer .u16, bits := some 9 }

/-- The count moves the flag inside its unit, and leaves the version alone. -/
theorem flaggedSchema_sameUpTo :
    ∃ plan plan', (flaggedSchema []).resolve .error = .ok plan ∧
      (flaggedSchema [countField]).resolve .error = .ok plan' ∧
      (flaggedSchema []).readOnly = (flaggedSchema [countField]).readOnly ∧
      (flaggedSchema []).fields <+: (flaggedSchema [countField]).fields ∧
      plan.fields.map (·.slot?) = [none, some ⟨1, 5, 3, 0⟩] ∧
      (plan'.fields.take 2).map (·.slot?) = [none, some ⟨2, 13, 3, 0⟩] ∧
      pendingUnit? (flaggedSchema []).fields = some 0 ∧
      ∀ index < (flaggedSchema []).fields.length, ∃ field field',
        plan.fields[index]? = some field ∧ plan'.fields[index]? = some field' ∧
          SameUpTo (pendingUnit? (flaggedSchema []).fields) field field' := by
  obtain ⟨plan, hplan, hslots⟩ : ∃ plan, (flaggedSchema []).resolve .error = .ok plan ∧
      plan.fields.map (·.slot?) = [none, some ⟨1, 5, 3, 0⟩] := ⟨_, rfl, rfl⟩
  obtain ⟨plan', hplan', hslots'⟩ : ∃ plan',
      (flaggedSchema [countField]).resolve .error = .ok plan' ∧
        (plan'.fields.take 2).map (·.slot?) = [none, some ⟨2, 13, 3, 0⟩] := ⟨_, rfl, rfl⟩
  have hreadOnly : (flaggedSchema []).readOnly = (flaggedSchema [countField]).readOnly := rfl
  have hfront : (flaggedSchema []).fields <+: (flaggedSchema [countField]).fields :=
    ⟨[countField], rfl⟩
  exact ⟨plan, plan', hplan, hplan', hreadOnly, hfront, hslots, hslots', rfl,
    Schema.sameUpTo_of_isPrefix hreadOnly List.prefix_rfl hfront hplan hplan'⟩

end PacketLayout
