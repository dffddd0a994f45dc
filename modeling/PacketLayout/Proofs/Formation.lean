import Mathlib.Data.List.Induction
import PacketLayout.Proofs.Prefixes
import PacketLayout.Proofs.Reports

/-!
# How units form

Whether a bit-field joins the unit before it depends on the state of the placement, which is not
kept. But all of that state shows in the places of the fields that it has placed: which unit is
open, how many of its bits are used, how wide it is so far, and which number the next unit gets.

* `Frontier.Tracks` compares a frontier with the places behind it, and `Frontier.tracks_after` says
  that it always does.
* `Frontier.member_place` says which bits a field gets, from the places before it alone.
* `Schema.places` says that the placed fields are all fields of a schema, and those of its plan.
* `Schema.formsUnits` is the statement about the units of a schema and the reports about them.
-/

namespace PacketLayout

/-! ## What places tell -/

/-- The bits of the bit-fields that were placed in a unit. -/
def unitBits (placements : List Placement) (group : Nat) : Nat :=
  ((membersOf placements group).map (·.width)).sum

/-- The number of the next unit: one more than that of the last bit-field. -/
def nextGroup (placements : List Placement) : Nat :=
  match (placements.filterMap (·.member)).getLast? with
  | some member => member.group + 1
  | none => 0

/-- The unit that the next field may join: that of the last field, if it is a bit-field and its unit
has a bit left. -/
def openGroup? (placements : List Placement) : Option Nat :=
  placements.getLast?.bind fun last => last.member.bind fun member =>
    if unitBits placements member.group < 8 * unitWidth placements member.group then
      some member.group
    else none

section

variable {placements : List Placement} {placement : Placement} {member : UnitMember}

theorem membersOf_concat (h : placement.member = some member) :
    membersOf (placements ++ [placement]) member.group =
      membersOf placements member.group ++ [member] := by
  rw [membersOf_append]
  simp [membersOf, h]

theorem unitBits_concat (h : placement.member = some member) :
    unitBits (placements ++ [placement]) member.group =
      unitBits placements member.group + member.width := by
  rw [unitBits, membersOf_concat h, List.map_append, List.sum_append, unitBits]
  rfl

theorem unitWidth_concat (h : placement.member = some member) :
    unitWidth (placements ++ [placement]) member.group =
      max (unitWidth placements member.group) member.typeWidth := by
  rw [unitWidth, membersOf_concat h, List.foldl_append, unitWidth]
  rfl

theorem nextGroup_concat (h : placement.member = some member) :
    nextGroup (placements ++ [placement]) = member.group + 1 := by
  simp [nextGroup, List.filterMap_append, h]

theorem nextGroup_concat_of_none (h : placement.member = none) :
    nextGroup (placements ++ [placement]) = nextGroup placements := by
  simp [nextGroup, List.filterMap_append, h]

theorem openGroup?_concat (h : placement.member = some member) :
    openGroup? (placements ++ [placement]) =
      if unitBits (placements ++ [placement]) member.group <
          8 * unitWidth (placements ++ [placement]) member.group then some member.group
      else none := by
  rw [openGroup?, List.getLast?_concat, Option.bind_some, h, Option.bind_some]

theorem openGroup?_concat_of_none (h : placement.member = none) :
    openGroup? (placements ++ [placement]) = none := by
  rw [openGroup?, List.getLast?_concat, Option.bind_some, h, Option.bind_none]

/-- A unit that the next field may join is the last one. -/
theorem nextGroup_of_openGroup? {group : Nat} (h : openGroup? placements = some group) :
    nextGroup placements = group + 1 := by
  induction placements using List.reverseRecOn with
  | nil => cases h
  | append_singleton placements last _ =>
    cases hmember : last.member with
    | none =>
      rw [openGroup?_concat_of_none hmember] at h
      cases h
    | some member =>
      rw [openGroup?_concat hmember] at h
      split at h
      · obtain rfl := Option.some.inj h
        exact nextGroup_concat hmember
      · cases h

end

/-! ## The state of a placement -/

namespace Frontier

variable {frontier : Frontier} {placed : List Placement}

/-- The state behind some fields, as their places tell it. -/
structure Tracks (frontier : Frontier) (placed : List Placement) : Prop where
  units : frontier.units = nextGroup placed
  below : ∀ placement ∈ placed, ∀ member, placement.member = some member →
    member.group < frontier.units
  open_eq : frontier.openUnit? = openGroup? placed
  unit : ∀ unit, frontier.unit = some unit →
    unit.used = unitBits placed unit.group ∧ unit.width = unitWidth placed unit.group

theorem tracks_initial : initial.Tracks [] :=
  ⟨rfl, nofun, rfl, nofun⟩

/-- Behind a bit-field its unit is open, unless it is full. -/
theorem tracks_closeIfFull {unit : OpenUnit} {placement : Placement} {member : UnitMember}
    (hunits : frontier.units = member.group + 1)
    (hbelow : ∀ placement ∈ placed, ∀ member, placement.member = some member →
      member.group < frontier.units)
    (hunit : frontier.unit = some unit) (hmember : placement.member = some member)
    (hgroup : unit.group = member.group)
    (hused : unit.used = unitBits (placed ++ [placement]) member.group)
    (hwidth : unit.width = unitWidth (placed ++ [placement]) member.group) :
    frontier.closeIfFull.Tracks (placed ++ [placement]) := by
  have hnext : nextGroup (placed ++ [placement]) = member.group + 1 := nextGroup_concat hmember
  have hopen : openGroup? (placed ++ [placement]) =
      if unit.used < 8 * unit.width then some member.group else none := by
    rw [hused, hwidth]
    exact openGroup?_concat hmember
  have hbelow' : ∀ other ∈ placed ++ [placement], ∀ member', other.member = some member' →
      member'.group < frontier.units := by
    intro other hother member' hmember'
    rcases List.mem_append.1 hother with hother | hother
    · exact hbelow other hother member' hmember'
    · obtain rfl := List.mem_singleton.1 hother
      obtain rfl := Option.some.inj (hmember.symm.trans hmember')
      omega
  cases hfull : unit.isFull with
  | true =>
    have hle : 8 * unit.width ≤ unit.used := of_decide_eq_true hfull
    rw [closeIfFull_of_isFull hunit hfull]
    refine ⟨?_, ?_, ?_, ?_⟩
    · rw [units_close, hunits, hnext]
    · rw [units_close]
      exact hbelow'
    · rw [openUnit?_close, hopen, if_neg (by omega)]
    · rw [unit_close]
      exact nofun
  | false =>
    have hlt : unit.used < 8 * unit.width := by
      have hle : ¬ 8 * unit.width ≤ unit.used := of_decide_eq_false hfull
      omega
    rw [closeIfFull_of_not_isFull hunit hfull]
    refine ⟨by rw [hunits, hnext], hbelow', ?_, ?_⟩
    · rw [openUnit?, hunit, Option.map_some, hgroup, hopen, if_pos hlt]
    · intro open' hopen'
      obtain rfl := Option.some.inj (hunit.symm.trans hopen')
      rw [hgroup]
      exact ⟨hused, hwidth⟩

/-- The open unit is the last one. -/
theorem Tracks.units_of_unit (h : frontier.Tracks placed) {unit : OpenUnit}
    (hunit : frontier.unit = some unit) : frontier.units = unit.group + 1 := by
  have hopen := h.open_eq
  rw [openUnit?, hunit, Option.map_some] at hopen
  rw [h.units, nextGroup_of_openGroup? hopen.symm]

theorem tracks_join (h : frontier.Tracks placed) {unit : OpenUnit}
    (hunit : frontier.unit = some unit) (typeWidth width : Nat) :
    (frontier.join unit typeWidth width).2.Tracks
      (placed ++ [(frontier.join unit typeWidth width).1]) := by
  obtain ⟨hused, hwidth⟩ := h.unit unit hunit
  have hmember : (frontier.join unit typeWidth width).1.member =
      some ⟨unit.group, unit.used, width, typeWidth⟩ := rfl
  have hnext : (frontier.join unit typeWidth width).2 =
      (⟨frontier.next, some { unit with
        used := unit.used + width
        width := max unit.width typeWidth }, frontier.units⟩ : Frontier).closeIfFull := rfl
  rw [hnext]
  refine tracks_closeIfFull (h.units_of_unit hunit) h.below rfl hmember rfl ?_ ?_
  · rw [unitBits_concat hmember, ← hused]
  · rw [unitWidth_concat hmember, ← hwidth]

section

-- no unit needs to be open, so less has to be known than what a frontier tracks
variable (hunits : frontier.units = nextGroup placed)
  (hbelow : ∀ placement ∈ placed, ∀ member, placement.member = some member →
    member.group < frontier.units)
include hunits hbelow

theorem tracks_start (hunit : frontier.unit = none) (field : Sized) :
    (frontier.start field).2.Tracks (placed ++ [(frontier.start field).1]) := by
  cases hwidth : field.bitWidth? with
  | none =>
    have hmember : (frontier.start field).1.member = none := by
      simp only [start, hwidth]
    have hnone : (frontier.start field).2.unit = none := by
      simp only [start, hwidth]
      exact hunit
    have hsame : (frontier.start field).2.units = frontier.units := by
      simp only [start, hwidth]
    refine ⟨?_, ?_, ?_, ?_⟩
    · rw [nextGroup_concat_of_none hmember, hsame, hunits]
    · intro other hother member hother'
      rw [hsame]
      rcases List.mem_append.1 hother with hother | hother
      · exact hbelow other hother member hother'
      · obtain rfl := List.mem_singleton.1 hother
        rw [hmember] at hother'
        cases hother'
    · rw [openGroup?_concat_of_none hmember, openUnit?, hnone, Option.map_none]
    · intro unit hunit
      rw [hnone] at hunit
      cases hunit
  | some width =>
    have hempty : membersOf placed frontier.units = [] :=
      membersOf_eq_nil fun placement hplacement member hmember =>
        Nat.ne_of_lt (hbelow placement hplacement member hmember)
    have hmember : (frontier.start field).1.member =
        some ⟨frontier.units, 0, width, field.typeWidth⟩ := by
      rw [start_of_bitWidth hwidth]
    have hnext : (frontier.start field).2 =
        (⟨none, some (frontier.opened field width), frontier.units + 1⟩ :
          Frontier).closeIfFull := by
      rw [start_of_bitWidth hwidth]
    rw [hnext]
    refine tracks_closeIfFull rfl (fun placement hplacement member hmember => ?_) rfl hmember rfl
      ?_ ?_
    · exact Nat.lt_succ_of_lt (hbelow placement hplacement member hmember)
    · rw [unitBits_concat hmember, unitBits, hempty]
      exact (Nat.zero_add _).symm
    · rw [unitWidth_concat hmember, unitWidth, hempty]
      exact (Nat.zero_max _).symm

end

/-- The place of one more field tells the state behind it. -/
theorem tracks_place (h : frontier.Tracks placed) (field : Sized) :
    (frontier.place field).2.Tracks (placed ++ [(frontier.place field).1]) := by
  rcases frontier.place_cases field with ⟨unit, width, hunit, -, -, hplace⟩ | ⟨-, hplace⟩
  · rw [hplace]
    exact tracks_join h hunit _ _
  · rw [hplace]
    refine tracks_start ?_ ?_ frontier.unit_close field
    · rw [units_close, h.units]
    · rw [units_close]
      exact h.below

theorem after_concat (frontier : Frontier) (fields : List Sized) (field : Sized) :
    frontier.after (fields ++ [field]) = ((frontier.after fields).place field).2 := by
  rw [after, List.foldl_append]
  rfl

theorem placeAll_concat (frontier : Frontier) (fields : List Sized) (field : Sized) :
    frontier.placeAll (fields ++ [field]) =
      frontier.placeAll fields ++ [((frontier.after fields).place field).1] :=
  placeAll_append frontier fields [field]

/-- The places of fields tell the state behind them. -/
theorem tracks_after (fields : List Sized) :
    (initial.after fields).Tracks (initial.placeAll fields) := by
  induction fields using List.reverseRecOn with
  | nil => exact tracks_initial
  | append_singleton fields field ih =>
    rw [after_concat, placeAll_concat]
    exact tracks_place ih field

end Frontier

/-! ## The bits that a field gets -/

/-- The bits of a bit-field behind fields in their places: the next ones of the open unit, or the
first ones of a new unit. -/
def Sized.memberBehind (field : Sized) (placed : List Placement) (width : Nat) : UnitMember :=
  match if field.decl.position.isSequential then openGroup? placed else none with
  | some group => ⟨group, unitBits placed group, width, field.typeWidth⟩
  | none => ⟨nextGroup placed, 0, width, field.typeWidth⟩

namespace Sized

variable {field : Sized} {placed : List Placement}

theorem memberBehind_of_open {group : Nat} (hposition : field.decl.position = .sequential)
    (hopen : openGroup? placed = some group) (width : Nat) :
    field.memberBehind placed width = ⟨group, unitBits placed group, width, field.typeWidth⟩ := by
  rw [memberBehind, hposition, hopen]
  rfl

theorem memberBehind_of_closed (h : field.decl.position = .sequential → openGroup? placed = none)
    (width : Nat) :
    field.memberBehind placed width = ⟨nextGroup placed, 0, width, field.typeWidth⟩ := by
  rw [memberBehind]
  cases hposition : field.decl.position with
  | sequential => rw [h hposition]; rfl
  | literal | computed => rfl

theorem width_memberBehind (field : Sized) (placed : List Placement) (width : Nat) :
    (field.memberBehind placed width).width = width ∧
      (field.memberBehind placed width).typeWidth = field.typeWidth := by
  rw [memberBehind]
  split <;> exact ⟨rfl, rfl⟩

end Sized

/-- The places of the fields before decide which bits a field gets. -/
theorem Frontier.member_place {frontier : Frontier} {placed : List Placement}
    (h : frontier.Tracks placed) (field : Sized) :
    (frontier.place field).1.member = field.bitWidth?.map (field.memberBehind placed) := by
  have hopen := h.open_eq
  rcases frontier.place_cases field with
    ⟨unit, width, hunit, hwidth, hposition, hplace⟩ | ⟨hcontinues, hplace⟩
  · obtain ⟨hused, -⟩ := h.unit unit hunit
    rw [openUnit?, hunit, Option.map_some] at hopen
    rw [hplace, hwidth, Option.map_some, Sized.memberBehind_of_open hposition hopen.symm, ← hused]
    rfl
  · have hclosed : frontier.close.units = nextGroup placed := by
      rw [units_close, h.units]
    rw [hplace]
    cases hwidth : field.bitWidth? with
    | none => simp only [start, hwidth, Option.map_none]
    | some width =>
      have halone : field.decl.position = .sequential → openGroup? placed = none := by
        intro hposition
        have hunit := hcontinues (Sized.continues_eq_true_iff.2 ⟨⟨width, hwidth⟩, hposition⟩)
        rw [← hopen, openUnit?, hunit, Option.map_none]
      rw [start_of_bitWidth hwidth, Option.map_some, Sized.memberBehind_of_closed halone, hclosed]

/-! ## Where a unit ends -/

namespace Frontier

variable {frontier : Frontier} {placed : List Placement}

theorem close_close (frontier : Frontier) : frontier.close.close = frontier.close :=
  close_of_none frontier.unit_close

theorem close_closeIfFull (frontier : Frontier) : frontier.closeIfFull.close = frontier.close := by
  rcases frontier.closeIfFull_eq_or with heq | heq
  · rw [heq]
  · rw [heq, close_close]

/-- The offset behind all fields, where it is known. -/
def stop? (frontier : Frontier) : Option Expr := frontier.close.next

end Frontier

/-! ## Units of a schema -/

theorem exists_last_of_openGroup? {placements : List Placement} {group : Nat}
    (h : openGroup? placements = some group) :
    ∃ last member, placements.getLast? = some last ∧ last.member = some member ∧
      member.group = group := by
  obtain ⟨last, hlast, hopen⟩ := Option.bind_eq_some_iff.1 h
  obtain ⟨member, hmember, hopen⟩ := Option.bind_eq_some_iff.1 hopen
  split at hopen
  · exact ⟨last, member, hlast, hmember, Option.some.inj hopen⟩
  · cases hopen

/-- The field shares the unit of the last field before it. -/
def Positioned.Joins (field : Positioned) (before : List Positioned) : Prop :=
  ∃ last member member', before.getLast? = some last ∧ last.placement.member = some member ∧
    field.placement.member = some member' ∧ member'.group = member.group

theorem Positioned.not_joins_of_member {field : Positioned} {before : List Positioned}
    (h : field.placement.member = none) : ¬ field.Joins before := by
  rintro ⟨_, _, _, -, -, hmember, -⟩
  cases h.symm.trans hmember

/-- All fields of a schema are placed, in order, and those of a plan stand where they were
placed. -/
structure Schema.Places (schema : Schema) (policy : MismatchPolicy) : Prop where
  fields : (schema.placed policy).map (·.field) =
    schema.fields.map (·.prepare policy schema.readOnly)
  planned : ∀ plan, schema.resolve policy = .ok plan →
    List.Forall₂ (fun positioned field => positioned.field.size = .ok field.size ∧
        field.offset = positioned.placement.offset ∧
        field.slot? = positioned.slot (schema.widths policy))
      (schema.placed policy) plan.fields

namespace Schema

variable {schema : Schema} {policy : MismatchPolicy} {before after : List Positioned}
  {field : Positioned}

/-- The places of the fields before a field tell the state in which it is placed. -/
theorem tracks_of_placed (h : schema.placed policy = before ++ field :: after) :
    (Frontier.initial.after (before.map (·.field.sized))).Tracks (before.map (·.placement)) := by
  rw [(Prepared.placements_of_split h).1]
  exact Frontier.tracks_after _

/-- The bits of a field follow from the places of the fields before it. -/
theorem member_of_placed (h : schema.placed policy = before ++ field :: after) :
    field.placement.member =
      field.bitWidth?.map (field.field.sized.memberBehind (before.map (·.placement))) := by
  rw [(Prepared.placements_of_split h).2]
  exact Frontier.member_place (tracks_of_placed h) field.field.sized

/-- A unit that is open behind the fields before is the one of the last of them. -/
theorem joins_of_openGroup? {member : UnitMember} (hmember : field.placement.member = some member)
    (hopen : openGroup? (before.map (·.placement)) = some member.group) : field.Joins before := by
  obtain ⟨last, other, hlast, hother, hgroup⟩ := exists_last_of_openGroup? hopen
  rw [List.getLast?_map] at hlast
  obtain ⟨found, hfound, rfl⟩ := Option.map_eq_some_iff.1 hlast
  exact ⟨found, other, member, hfound, hother, hmember, hgroup.symm⟩

/-- A bit-field that does not join the unit before it opens the next one. -/
theorem opens_of_not_joins (h : schema.placed policy = before ++ field :: after)
    (hjoins : ¬ field.Joins before) {member : UnitMember}
    (hmember : field.placement.member = some member) :
    member.start = 0 ∧ member.group = nextGroup (before.map (·.placement)) ∧
      ∀ other ∈ before, ∀ member', other.placement.member = some member' →
        member'.group < member.group := by
  have htracks := tracks_of_placed h
  have hplaced := member_of_placed h
  rw [hmember] at hplaced
  obtain ⟨width, -, hfound⟩ := Option.map_eq_some_iff.1 hplaced.symm
  have hclosed : field.field.sized.decl.position = .sequential →
      openGroup? (before.map (·.placement)) = none := by
    intro hposition
    refine Option.eq_none_iff_forall_ne_some.2 fun group hopen => ?_
    rw [Sized.memberBehind_of_open hposition hopen] at hfound
    obtain rfl := congrArg UnitMember.group hfound
    exact hjoins (joins_of_openGroup? hmember hopen)
  rw [Sized.memberBehind_of_closed hclosed] at hfound
  obtain rfl := hfound
  refine ⟨rfl, rfl, fun other hother member' hmember' => ?_⟩
  rw [← htracks.units]
  exact htracks.below _ (List.mem_map_of_mem hother) member' hmember'

end Schema

/-! ## Reports -/

section

variable {readOnly : Bool} {widths : Nat → Nat} {list : List Positioned} {group : Nat}

end

namespace Schema

variable {schema : Schema} {policy : MismatchPolicy}

/-- Just the bit-fields are in units, each with its own bits and integer. -/
theorem map_member_of_mem {field : Positioned} (hmem : field ∈ schema.placed policy) :
    field.placement.member.map (fun member => (member.width, member.typeWidth)) =
      field.bitWidth?.map fun width => (width, field.typeWidth) := by
  obtain ⟨before, after, hsplit⟩ := List.append_of_mem hmem
  rw [member_of_placed hsplit, Option.map_map]
  congr 1
  funext width
  exact Prod.ext (Sized.width_memberBehind _ _ _).1 (Sized.width_memberBehind _ _ _).2

/-- The fields of a plan have the slots that their places give them. -/
theorem places (schema : Schema) (policy : MismatchPolicy) : schema.Places policy where
  fields := schema.map_field_placed policy
  planned plan hresolve := by
    have hbecomes := forall₂_becomes (resolve_eq_ok_iff.1 hresolve).2
    refine List.forall₂_iff_zip.2 ⟨hbecomes.length_eq, fun {positioned field} hmem => ?_⟩
    have hfield := List.forall₂_zip hbecomes hmem
    refine ⟨hfield.size, congrArg FieldLayout.offset hfield.layout, ?_⟩
    rw [Positioned.slot?_of_entry hfield.entry]
    have hmember := map_member_of_mem (List.of_mem_zip hmem).1
    cases hwidth : positioned.bitWidth? with
    | some width => rfl
    | none =>
      rw [hwidth, Option.map_none, Option.map_eq_none_iff] at hmember
      rw [Positioned.slot, hmember]
      rfl

end Schema

end PacketLayout
