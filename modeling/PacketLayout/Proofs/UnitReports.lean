import PacketLayout.Proofs.Rules
import PacketLayout.Proofs.Stretches

/-!
# What is reported about units

A unit is checked once its bit-fields have their slots, and only those of them that can be read take
part: one that asks for another integer in vain has been reported already and is not counted. So a
unit is reported exactly when the bits of the others are more than it has.

* `Stretch.overflow?` is the report about one unit, read off the declarations.
* `Laid.exists_overflow_iff` compares it with what is found in a placed list, and
  `Prepared.mem_unitDiagnostics_iff` with what is reported about a field list.
-/

namespace PacketLayout

/-! ## The report about a unit -/

/-- Whether a bit-field can be read: it asks for no other integer in vain. -/
def Sized.isReadable (field : Sized) : Bool := (Provider.checkBacking field.decl).isOk

theorem Sized.isReadable_iff {field : Sized} :
    field.isReadable = true ↔ Provider.checkBacking field.decl = .ok () := by
  rw [isReadable]
  cases Provider.checkBacking field.decl <;> simp [Except.isOk, Except.toBool]

/-- A field with a shape can be read. -/
theorem Shapes.isReadable {readOnly : Bool} {field : Prepared} {size : Size}
    {slot : Option BitSlot} {shape : Shape} (h : Shapes readOnly field size slot shape) :
    field.sized.isReadable = true := by
  refine Sized.isReadable_iff.2 ?_
  change Provider.checkBacking field.decl = .ok ()
  cases h with
  | leaf _ provided =>
    simp only [Provider.resolve, bind_eq_ok_iff] at provided
    obtain ⟨_, hbacking, -⟩ := provided
    exact hbacking
  | union _ _ backing =>
    rw [Provider.checkBacking, backing]

namespace Stretch

variable (stretch : Stretch)

/-- The fields of the stretch that can be read. -/
def readable : List Sized := (stretch.first :: stretch.members).filter (·.isReadable)

/-- The bits of the bit-fields that can be read. -/
def readableBits : Nat := (stretch.readable.map (·.bitWidth?.getD 0)).sum

/-- The report about a unit. The last of its bit-fields is to blame. -/
def overflow? : Option Diagnostic :=
  match stretch.readable.getLast? with
  | some last =>
    if stretch.readableBits ≤ 8 * stretch.width then none
    else
      some (.ofLayout last.decl.name
        (.bitOverflow (stretch.readable.map (·.decl.name)) stretch.readableBits
          (8 * stretch.width)))
  | none => none

theorem overflow?_eq_some_iff {diagnostic : Diagnostic} :
    stretch.overflow? = some diagnostic ↔
      ∃ last, stretch.readable.getLast? = some last ∧ 8 * stretch.width < stretch.readableBits ∧
        diagnostic = .ofLayout last.decl.name
          (.bitOverflow (stretch.readable.map (·.decl.name)) stretch.readableBits
            (8 * stretch.width)) := by
  rw [overflow?]
  cases stretch.readable.getLast? with
  | none => simp
  | some last =>
    by_cases hfits : stretch.readableBits ≤ 8 * stretch.width
    · simp only [if_pos hfits, Option.some.injEq, exists_eq_left']
      exact ⟨nofun, fun h => absurd hfits (Nat.not_le.2 h.1)⟩
    · simp only [if_neg hfits, Option.some.injEq, exists_eq_left']
      exact ⟨fun h => ⟨Nat.not_le.1 hfits, h.symm⟩, fun h => h.2.symm⟩

/-- If all bit-fields can be read, the unit is reported unless it holds them. -/
theorem overflow?_eq_none_iff
    (h : ∀ field ∈ stretch.first :: stretch.members, field.isReadable = true) :
    stretch.overflow? = none ↔ stretch.bits ≤ 8 * stretch.width := by
  have hreadable : stretch.readable = stretch.first :: stretch.members :=
    List.filter_eq_self.2 h
  have hbits : stretch.readableBits = stretch.bits := by
    rw [readableBits, hreadable, List.sum_eq_foldl, List.foldl_map, List.foldl_cons, Nat.zero_add,
      bits]
  rw [overflow?, hbits, hreadable, List.getLast?_cons]
  simp

theorem overflow?_of_bytes {field : Sized} (h : field.bitWidth? = none) :
    (⟨field, []⟩ : Stretch).overflow? = none := by
  have hbits : (⟨field, []⟩ : Stretch).readableBits = 0 := by
    rw [readableBits, readable, List.filter_singleton]
    cases field.isReadable <;> simp [h]
  rw [overflow?, hbits]
  cases (⟨field, []⟩ : Stretch).readable.getLast? with
  | none => rfl
  | some last => exact if_pos (Nat.zero_le _)

end Stretch

/-! ## Bit-fields with and without a shape -/

namespace Positioned

variable {readOnly : Bool} {widths : Nat → Nat} {positioned : Positioned} {size : Size}

/-- A plain field of a known size has an entry exactly when it has a provider. -/
theorem exists_entry_plain_iff (hsize : positioned.field.size = .ok size)
    (hplain : positioned.field.alternates = none) :
    (∃ entry, (positioned.settle readOnly widths).entry = some entry) ↔
      ∃ provider, Provider.resolve positioned.field.decl size (positioned.slot widths) =
        .ok provider := by
  rw [settle_of_plain hsize hplain, shapeLeaf]
  cases Provider.resolve positioned.field.decl size (positioned.slot widths) with
  | error defect => simp [Shaping.settled]
  | ok provider => simp [Shaping.settled]

/-- A bit-field has a size and is no anchor. -/
theorem exists_size_of_bitWidth? {width : Nat} (h : positioned.bitWidth? = some width) :
    ∃ size, positioned.field.size = .ok size ∧ size.bitWidth? = some width ∧
      positioned.field.alternates = none := by
  rw [Positioned.bitWidth?, Sized.bitWidth?, Prepared.sized] at h
  cases hsize : positioned.field.size with
  | error defect =>
    rw [hsize] at h
    cases h
  | ok size =>
    rw [hsize] at h
    have hsource := Size.source_of_resolve hsize
    obtain ⟨hplain, -⟩ := hsource.of_bits (hsource.bitWidth?.symm.trans h)
    exact ⟨size, rfl, h, Option.not_isSome_iff_eq_none.1 (by rw [hplain]; decide)⟩

theorem exists_entry_iff_isReadable {width : Nat} {member : UnitMember}
    (hbits : positioned.bitWidth? = some width)
    (hmember : positioned.placement.member = some member) :
    (∃ entry, (positioned.settle readOnly widths).entry = some entry) ↔
      positioned.field.sized.isReadable = true := by
  obtain ⟨size, hsize, hwidth, hplain⟩ := exists_size_of_bitWidth? hbits
  have hslot : (positioned.slot widths).isSome = true := by
    rw [Positioned.slot, hmember]
    rfl
  rw [exists_entry_plain_iff hsize hplain, Provider.exists_resolve_iff fun _ => hslot]
  rw [Sized.isReadable_iff]
  change _ ↔ Provider.checkBacking positioned.field.decl = .ok ()
  rw [Provider.checkBacking_eq_ok_iff]
  refine ⟨LeafRules.backing, fun h => ⟨h, fun hbytes => ?_⟩⟩
  rw [hwidth] at hbytes
  cases hbytes

/-- An entry has a slot if it is that of a bit-field. -/
theorem slot?_of_entry {entry : Entry}
    (h : (positioned.settle readOnly widths).entry = some entry) :
    entry.field.slot? =
      if positioned.bitWidth?.isSome then positioned.slot widths else none := by
  cases hsize : positioned.field.size with
  | error defect =>
    rw [settle, hsize] at h
    cases h
  | ok size =>
    have hbits : positioned.bitWidth? = size.bitWidth? := by
      rw [Positioned.bitWidth?, Sized.bitWidth?, Prepared.sized, hsize]
      rfl
    cases halternates : positioned.field.alternates with
    | none =>
      rw [settle_of_plain hsize halternates, shapeLeaf] at h
      cases hprovider :
          Provider.resolve positioned.field.decl size (positioned.slot widths) with
      | error defect =>
        rw [hprovider] at h
        cases h
      | ok provider =>
        rw [hprovider] at h
        obtain rfl := Option.some.inj h
        rw [hbits]
        exact Provider.slot?_of_resolve hprovider
    | some alternates =>
      rw [settle_of_anchor hsize halternates] at h
      obtain ⟨shape, hshape, rfl⟩ := Option.map_eq_some_iff.1 h
      have hunion : ∃ plans, shape = .union plans := by
        simp only [shapeUnion] at hshape
        exact ⟨_, (Option.some.inj (Option.ite_none_right_eq_some.1 hshape).2).symm⟩
      obtain ⟨plans, rfl⟩ := hunion
      cases hwidth : positioned.bitWidth? with
      | none => rfl
      | some width =>
        obtain ⟨_, _, _, hplain⟩ := exists_size_of_bitWidth? hwidth
        rw [halternates] at hplain
        cases hplain

theorem name_of_entry {entry : Entry}
    (h : (positioned.settle readOnly widths).entry = some entry) :
    entry.field.name = positioned.field.decl.name := by
  obtain ⟨size, shape, -, rfl⟩ := Positioned.entry_eq h
  rfl

/-- The planned field of a placed one, if it has a shape. -/
def planned? (readOnly : Bool) (widths : Nat → Nat) (positioned : Positioned) :
    Option PlannedField :=
  (positioned.settle readOnly widths).entry.map (·.field)

end Positioned

/-! ## The members of a unit -/

variable {readOnly : Bool} {widths : Nat → Nat}

/-- A bit-field of a unit as it was placed. -/
def Positioned.InUnit (group : Nat) (positioned : Positioned) : Prop :=
  ∃ member : UnitMember, positioned.placement.member = some member ∧ member.group = group ∧
    positioned.bitWidth? = some member.width

theorem Joined.inUnit {group used widest used' widest' : Nat} {predicted : Option Expr}
    {offset : Expr} {members : List Positioned}
    (h : Joined group predicted offset used widest members used' widest') {positioned : Positioned}
    (hmem : positioned ∈ members) : positioned.InUnit group := by
  induction h with
  | nil => cases hmem
  | cons width_eq _ _ place _ ih =>
    rcases List.mem_cons.1 hmem with rfl | hmem
    · exact ⟨_, by rw [place], rfl, width_eq⟩
    · exact ih hmem

/-- In a plan stand the bit-fields of a unit that can be read, with their bits. -/
theorem unitMembers_of_inUnit {group : Nat} {members : List Positioned}
    (h : ∀ positioned ∈ members, positioned.InUnit group) :
    (unitMembers (members.filterMap (·.planned? readOnly widths)) group).map
        (fun member => (member.1.name, member.2.unit, member.2.width)) =
      ((members.map (·.field.sized)).filter (·.isReadable)).map fun field =>
        (field.decl.name, widths group, field.bitWidth?.getD 0) := by
  induction members with
  | nil => rfl
  | cons positioned members ih =>
    rw [List.forall_mem_cons] at h
    obtain ⟨⟨member, hmember, rfl, hbits⟩, hrest⟩ := h
    have hreadable :
        (∃ entry, (positioned.settle readOnly widths).entry = some entry) ↔
          positioned.field.sized.isReadable = true :=
      Positioned.exists_entry_iff_isReadable hbits hmember
    rw [List.map_cons, List.filterMap_cons, Positioned.planned?]
    cases hentry : (positioned.settle readOnly widths).entry with
    | none =>
      have hskipped : ¬ positioned.field.sized.isReadable = true := by
        rw [← hreadable, hentry]
        simp
      rw [List.filter_cons_of_neg hskipped]
      exact ih hrest
    | some entry =>
      have hslot : entry.field.slot? = some (member.slot (widths member.group)) := by
        rw [Positioned.slot?_of_entry hentry, hbits, Positioned.slot, hmember]
        rfl
      rw [List.filter_cons_of_pos (hreadable.1 ⟨entry, hentry⟩), List.map_cons, ← ih hrest]
      refine (congrArg (List.map _) (unitMembers_cons _ hslot)).trans ?_
      have hwidth : positioned.field.sized.bitWidth? = some member.width := hbits
      rw [List.map_cons, Positioned.name_of_entry hentry, hwidth]
      rfl

/-- What is reported about a unit follows from the names and the bits of its members. -/
theorem overflowDiagnostic?_of_inUnit {group : Nat} {first : Positioned}
    {members : List Positioned} (h : ∀ positioned ∈ first :: members, positioned.InUnit group)
    (hwidth : (Stretch.ofUnit first members).width = widths group) :
    overflowDiagnostic?
        (unitMembers ((first :: members).filterMap (·.planned? readOnly widths)) group) =
      (Stretch.ofUnit first members).overflow? := by
  have hmembers :
      (unitMembers ((first :: members).filterMap (·.planned? readOnly widths)) group).map
          (fun member => (member.1.name, member.2.unit, member.2.width)) =
        (Stretch.ofUnit first members).readable.map fun field =>
          (field.decl.name, widths group, field.bitWidth?.getD 0) :=
    unitMembers_of_inUnit h
  generalize unitMembers ((first :: members).filterMap (·.planned? readOnly widths)) group = found
    at hmembers
  have hnames : found.map (·.1.name) =
      (Stretch.ofUnit first members).readable.map (·.decl.name) := by
    simpa [Function.comp_def] using congrArg (List.map (·.1)) hmembers
  have hbits : found.foldl (fun bits member => bits + member.2.width) 0 =
      (Stretch.ofUnit first members).readableBits := by
    have hwidths : found.map (·.2.width) =
        (Stretch.ofUnit first members).readable.map (·.bitWidth?.getD 0) := by
      simpa [Function.comp_def] using congrArg (List.map (·.2.2)) hmembers
    rw [Stretch.readableBits, ← hwidths, List.sum_eq_foldl, List.foldl_map]
  have hlast : found.getLast?.map (·.1.name) =
      (Stretch.ofUnit first members).readable.getLast?.map (·.decl.name) := by
    rw [← List.getLast?_map, hnames, List.getLast?_map]
  rw [Stretch.overflow?, overflowDiagnostic?]
  cases found with
  | nil =>
    rw [List.map_nil, List.nil_eq, List.map_eq_nil_iff] at hnames
    rw [hnames]
    rfl
  | cons head tail =>
    obtain ⟨_, _, -, hhead, -⟩ := List.map_eq_cons_iff.1 hmembers.symm
    have hunit : head.2.unit = (Stretch.ofUnit first members).width := by
      rw [hwidth, (Prod.mk.inj (Prod.mk.inj hhead).2).1]
    rw [List.getLast?_cons, Option.map_some] at hlast
    obtain ⟨last, hlast, hname⟩ := Option.map_eq_some_iff.1 hlast.symm
    rw [List.head?_cons, List.getLast?_cons, hlast]
    simp only [hbits, hunit, hnames, hname]

/-! ## Field lists -/

/-- A field that is not a bit-field is in no unit. -/
theorem unitMembers_planned?_cons {positioned : Positioned} (hbits : positioned.bitWidth? = none)
    (rest : List Positioned) (group : Nat) :
    unitMembers ((positioned :: rest).filterMap (·.planned? readOnly widths)) group =
      unitMembers (rest.filterMap (·.planned? readOnly widths)) group := by
  rw [List.filterMap_cons, Positioned.planned?]
  cases hentry : (positioned.settle readOnly widths).entry with
  | none => rfl
  | some entry =>
    have hslot : entry.field.slot? = none := by
      rw [Positioned.slot?_of_entry hentry, hbits]
      rfl
    rw [Option.map_some, unitMembers, List.filterMap_cons, hslot]
    rfl

/-- The units of placed fields are where their places say. -/
theorem Positioned.group_of_planned? {positioned : Positioned} {field : PlannedField}
    {slot : BitSlot} (h : positioned.planned? readOnly widths = some field)
    (hslot : field.slot? = some slot) :
    ∃ member, positioned.placement.member = some member ∧ slot.group = member.group := by
  obtain ⟨entry, hentry, rfl⟩ := Option.map_eq_some_iff.1 h
  rw [Positioned.slot?_of_entry hentry] at hslot
  split at hslot
  · obtain ⟨member, hmember, rfl⟩ := Option.map_eq_some_iff.1 hslot
    exact ⟨member, hmember, rfl⟩
  · cases hslot

/-- What is known in advance of the bytes of a planned field is the constant of its size. -/
theorem Positioned.getD_extent?_of_planned? {positioned : Positioned} {field : PlannedField}
    (h : positioned.planned? readOnly widths = some field) :
    field.extent?.getD 0 = field.sizeExpr.constant := by
  obtain ⟨entry, hentry, rfl⟩ := Option.map_eq_some_iff.1 h
  have hslot := Positioned.slot?_of_entry hentry
  obtain ⟨size, shape, hsize, rfl⟩ := Positioned.entry_eq hentry
  have hbits : positioned.bitWidth? = size.bitWidth? := by
    rw [Positioned.bitWidth?, Sized.bitWidth?, Prepared.sized, hsize]
    rfl
  rw [PlannedField.extent?, hslot, hbits]
  cases size with
  | bitWidth => rfl
  | constant | intrinsic | external | computed | remainder => rfl

/-- What is found about the units of a placed list is what its stretches say. -/
theorem Laid.exists_overflow_iff {next : Option Expr} {units : Nat} {list : List Positioned}
    (h : Laid next units list)
    (hwidths : ∀ group, units ≤ group →
      widths group = unitWidth (list.map (·.placement)) group) (diagnostic : Diagnostic) :
    (∃ group, units ≤ group ∧ overflowDiagnostic?
        (unitMembers (list.filterMap (·.planned? readOnly widths)) group) = some diagnostic) ↔
      ∃ stretch ∈ stretches (list.map (·.field.sized)), stretch.overflow? = some diagnostic := by
  induction h with
  | nil => simp [stretches, unitMembers, overflowDiagnostic?]
  | @single next units positioned rest width_eq place last more ih =>
    have hrest : ∀ group, units ≤ group →
        widths group = unitWidth (rest.map (·.placement)) group := by
      intro group hgroup
      rw [hwidths group hgroup, List.map_cons, unitWidth_cons (by rw [place])]
    simp only [unitMembers_planned?_cons width_eq, ih hrest]
    rw [List.map_cons, stretches_cons width_eq, List.exists_mem_cons_iff,
      Stretch.overflow?_of_bytes width_eq]
    exact (or_iff_right (Option.some_ne_none diagnostic).symm).symm
  | @unit next units width used widest first members rest width_eq place joined closed more ih =>
    have hgroups : ∀ positioned ∈ rest, ∀ member, positioned.placement.member = some member →
        units + 1 ≤ member.group := fun positioned hmem member => more.units_le_group hmem
    obtain ⟨hwidth, hrest⟩ := more.widths_behind_unit place joined hwidths
    have hunit : ∀ positioned ∈ first :: members, positioned.InUnit units := by
      rintro positioned (_ | ⟨_, hmem⟩)
      · exact ⟨_, by rw [place], rfl, width_eq⟩
      · exact joined.inUnit hmem
    obtain ⟨-, hwidest, hcut⟩ := joined.stretches_unit width_eq closed
    -- the members stand in this unit and all others in later ones
    have hbehind : ∀ field ∈ rest.filterMap (·.planned? readOnly widths), ∀ slot,
        field.slot? = some slot → slot.group ≠ units := by
      intro field hfield slot hslot
      obtain ⟨positioned, hmem, hplanned⟩ := List.mem_filterMap.1 hfield
      obtain ⟨member, hmember, hgroup⟩ := Positioned.group_of_planned? hplanned hslot
      have := hgroups positioned hmem member hmember
      omega
    have hbefore : ∀ field ∈ (first :: members).filterMap (·.planned? readOnly widths), ∀ slot,
        field.slot? = some slot → slot.group = units := by
      intro field hfield slot hslot
      obtain ⟨positioned, hmem, hplanned⟩ := List.mem_filterMap.1 hfield
      obtain ⟨member, hmember, hgroup⟩ := Positioned.group_of_planned? hplanned hslot
      obtain ⟨other, hother, hunits, -⟩ := hunit positioned hmem
      obtain rfl := Option.some.inj (hmember.symm.trans hother)
      exact hgroup.trans hunits
    have hfound : overflowDiagnostic? (unitMembers
        ((first :: members ++ rest).filterMap (·.planned? readOnly widths)) units) =
          (Stretch.ofUnit first members).overflow? := by
      rw [List.filterMap_append, unitMembers_append, unitMembers_eq_nil hbehind, List.append_nil]
      exact overflowDiagnostic?_of_inUnit hunit (hwidest.trans hwidth.symm)
    have hlater : ∀ group, units + 1 ≤ group → unitMembers
        ((first :: members ++ rest).filterMap (·.planned? readOnly widths)) group =
          unitMembers (rest.filterMap (·.planned? readOnly widths)) group := by
      intro group hgroup
      rw [List.filterMap_append, unitMembers_append, unitMembers_eq_nil, List.nil_append]
      intro field hfield slot hslot
      have := hbefore field hfield slot hslot
      omega
    rw [hcut, List.exists_mem_cons_iff, ← ih hrest, ← hfound]
    constructor
    · rintro ⟨group, hgroup, hsome⟩
      rcases Nat.eq_or_lt_of_le hgroup with rfl | hgroup
      · exact .inl hsome
      · exact .inr ⟨group, hgroup, hlater group hgroup ▸ hsome⟩
    · rintro (hsome | ⟨group, hgroup, hsome⟩)
      · exact ⟨units, Nat.le_refl _, hsome⟩
      · exact ⟨group, Nat.le_of_succ_le hgroup, (hlater group hgroup).symm ▸ hsome⟩

/-- There are no more units than fields. -/
theorem Laid.group_lt {next : Option Expr} {units : Nat} {list : List Positioned}
    (h : Laid next units list) {positioned : Positioned} (hmem : positioned ∈ list)
    {member : UnitMember} (hmember : positioned.placement.member = some member) :
    member.group < units + list.length := by
  induction h with
  | nil => cases hmem
  | single _ place _ _ ih =>
    rw [List.length_cons]
    rcases List.mem_cons.1 hmem with rfl | hmem
    · rw [place] at hmember
      cases hmember
    · have := ih hmem
      omega
  | unit _ place joined _ _ ih =>
    rw [List.length_append, List.length_cons]
    rcases List.mem_append.1 hmem with hmem | hmem
    · rcases List.mem_cons.1 hmem with rfl | hmem
      · rw [place] at hmember
        obtain rfl := Option.some.inj hmember
        exact Nat.lt_add_of_pos_right (by omega)
      · have := joined.group_eq hmem hmember
        omega
    · have := ih hmem
      omega

namespace Prepared

variable (readOnly : Bool) (fields : List Prepared)

theorem planned_eq_filterMap :
    planned readOnly fields =
      (positioned fields).filterMap (·.planned? readOnly (unitWidth (placements fields))) := by
  rw [planned, entries, settled, List.filterMap_map, List.map_filterMap]
  rfl

/-- A minimum size counts what the size of a packet counts, also where not all fields are
planned. -/
theorem knownSum_planned :
    knownSum (planned readOnly fields) = (totalSize (planned readOnly fields)).constant := by
  refine knownSum_eq_constant fun field hmem => ?_
  rw [planned_eq_filterMap] at hmem
  obtain ⟨positioned, -, hplanned⟩ := List.mem_filterMap.1 hmem
  exact Positioned.getD_extent?_of_planned? hplanned

/-- The reports about the units of a field list are those of its stretches. -/
theorem mem_unitDiagnostics_iff (diagnostic : Diagnostic) :
    diagnostic ∈ unitDiagnostics (planned readOnly fields) fields.length ↔
      ∃ stretch ∈ stretches (fields.map (·.sized)), stretch.overflow? = some diagnostic := by
  have hlaid := laid_positioned fields
  rw [← map_sized_positioned fields,
    ← hlaid.exists_overflow_iff fun group _ => by rw [map_placement_positioned],
    ← planned_eq_filterMap readOnly, unitDiagnostics, List.mem_filterMap]
  constructor
  · rintro ⟨group, -, hsome⟩
    exact ⟨group, Nat.zero_le _, hsome⟩
  · rintro ⟨group, -, hsome⟩
    refine ⟨group, List.mem_range.2 ?_, hsome⟩
    by_contra hge
    -- a unit beyond the last field has no members, and nothing is reported about it
    rw [unitMembers_eq_nil] at hsome
    · cases hsome
    · intro field hfield slot hslot
      rw [planned_eq_filterMap] at hfield
      obtain ⟨place, hmem, hplanned⟩ := List.mem_filterMap.1 hfield
      obtain ⟨member, hmember, hgroup⟩ := Positioned.group_of_planned? hplanned hslot
      have hlt := hlaid.group_lt hmem hmember
      rw [length_positioned] at hlt
      omega

/-- Nothing is reported about units exactly when each holds its bit-fields, if all fields can be
read. -/
theorem unitDiagnostics_eq_nil_iff
    (hreadable : ∀ field ∈ fields, field.sized.isReadable = true) :
    unitDiagnostics (planned readOnly fields) fields.length = [] ↔
      ∀ stretch ∈ stretches (fields.map (·.sized)), stretch.bits ≤ 8 * stretch.width := by
  have hone : ∀ stretch ∈ stretches (fields.map (·.sized)),
      (stretch.overflow? = none ↔ stretch.bits ≤ 8 * stretch.width) := by
    intro stretch hmem
    refine stretch.overflow?_eq_none_iff fun field hfield => ?_
    obtain ⟨origin, horigin, rfl⟩ := List.mem_map.1 (mem_of_mem_stretches hmem hfield)
    exact hreadable origin horigin
  simp only [List.eq_nil_iff_forall_not_mem, mem_unitDiagnostics_iff, not_exists, not_and]
  constructor
  · intro h stretch hmem
    refine (hone stretch hmem).1 (Option.eq_none_iff_forall_ne_some.2 fun diagnostic => ?_)
    exact h diagnostic stretch hmem
  · intro h diagnostic stretch hmem hsome
    rw [(hone stretch hmem).2 (h stretch hmem)] at hsome
    cases hsome

end Prepared

end PacketLayout
