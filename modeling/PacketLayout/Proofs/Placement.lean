import PacketLayout.Proofs.Acceptance

/-!
# The shape of a placed list

Placing fields one after the other yields a list that falls into stretches: a field by itself, or
the bit-fields of one unit. `Laid` describes such a list without the state that built it, and the
width of a unit in it is the final one.

* `Joined` describes the bit-fields of a unit behind the first.
* `Laid.of_placeAll` says that what a frontier places is laid out.
-/

namespace PacketLayout

/-! ## The description -/

/-- Whether the field takes part in a unit that is still open before it. -/
def Sized.continues (field : Sized) : Bool :=
  field.bitWidth?.isSome && field.decl.position.isSequential

theorem Sized.continues_eq_true_iff {field : Sized} :
    field.continues = true ↔
      (∃ width, field.bitWidth? = some width) ∧ field.decl.position = .sequential := by
  rw [continues, Bool.and_eq_true, Option.isSome_iff_exists]
  cases field.decl.position <;> simp [Position.isSequential]

namespace Positioned

/-- The bits of a bit-field. -/
def bitWidth? (field : Positioned) : Option Nat := field.field.sized.bitWidth?

/-- The width in bytes of the integer behind the field. -/
def typeWidth (field : Positioned) : Nat := field.field.sized.typeWidth

/-- The position that the field asks for. -/
def position (field : Positioned) : Position := field.field.decl.position

/-- Whether the offset of the field is known, if the fields before imply `next`. -/
def isAnchored (field : Positioned) (next : Option Expr) : Bool :=
  next.isSome || !field.position.isSequential

/-- The offset of the field, if the fields before imply `next`. -/
def offsetFrom (field : Positioned) (next : Option Expr) : Expr :=
  field.position.offset (next.getD .zero)

/-- The offset after the field, if the fields before imply `next`. -/
def stopFrom (field : Positioned) (next : Option Expr) : Option Expr :=
  if field.isAnchored next then
    field.field.sized.size.map fun size =>
      (field.offsetFrom next).plus
        (size.expr field.field.decl.name (field.offsetFrom next) none)
  else none

end Positioned

/-- The bit-fields behind the first of a unit. Each is sequential and finds room left: `used` and
`widest` are the bits and the widest integer before, and at the end those of the whole unit. -/
inductive Joined (group : Nat) (predicted : Option Expr) (offset : Expr) :
    (used widest : Nat) → List Positioned → (used' widest' : Nat) → Prop
  | nil (used widest : Nat) : Joined group predicted offset used widest [] used widest
  | cons {used widest width used' widest' : Nat} {field : Positioned} {rest : List Positioned}
      (width_eq : field.bitWidth? = some width)
      (sequential : field.position = .sequential)
      (room : used < 8 * widest)
      (place : field.placement =
        ⟨predicted, offset, some ⟨group, used, width, field.typeWidth⟩⟩)
      (more : Joined group predicted offset (used + width) (max widest field.typeWidth) rest
        used' widest') :
      Joined group predicted offset used widest (field :: rest) used' widest'

/-- A list of placed fields. The fields before imply the offset `next`, where it is known, and have
opened `units` units. -/
inductive Laid : (next : Option Expr) → (units : Nat) → List Positioned → Prop
  | nil (next : Option Expr) (units : Nat) : Laid next units []
  /-- a field that is not a bit-field -/
  | single {next : Option Expr} {units : Nat} {field : Positioned} {rest : List Positioned}
      (width_eq : field.bitWidth? = none)
      (place : field.placement = ⟨next, field.offsetFrom next, none⟩)
      (last : field.isLast = rest.isEmpty)
      (more : Laid (field.stopFrom next) units rest) :
      Laid next units (field :: rest)
  /-- all bit-fields of a unit -/
  | unit {next : Option Expr} {units width used widest : Nat} {first : Positioned}
      {members rest : List Positioned}
      (width_eq : first.bitWidth? = some width)
      (place : first.placement =
        ⟨next, first.offsetFrom next, some ⟨units, 0, width, first.typeWidth⟩⟩)
      (joined : Joined units (if first.isAnchored next then some (first.offsetFrom next) else none)
        (first.offsetFrom next) width first.typeWidth members used widest)
      (closed : 8 * widest ≤ used ∨
        ∀ field, rest.head? = some field → field.field.sized.continues = false)
      (more : Laid
        (if first.isAnchored next then some ((first.offsetFrom next).plusConstant widest) else none)
        (units + 1) rest) :
      Laid next units (first :: members ++ rest)

/-! ## Placing -/

namespace Frontier

variable {frontier : Frontier} {unit : OpenUnit} {field : Sized}

theorem close_of_none (h : frontier.unit = none) : frontier.close = frontier := by
  rw [close, h]

theorem unit_close (frontier : Frontier) : frontier.close.unit = none := by
  rw [close]
  split
  · assumption
  · rfl

theorem closeIfFull_of_isFull (h : frontier.unit = some unit) (hfull : unit.isFull = true) :
    frontier.closeIfFull = frontier.close := by
  rw [closeIfFull, h]
  exact if_pos hfull

theorem closeIfFull_of_not_isFull (h : frontier.unit = some unit) (hroom : unit.isFull = false) :
    frontier.closeIfFull = frontier := by
  rw [closeIfFull, h]
  exact if_neg (by rw [hroom]; decide)

theorem place_of_not_continues (h : field.continues = false) :
    frontier.place field = frontier.close.start field := by
  rw [place]
  split
  · rename_i hwidth hposition
    rw [Sized.continues, hwidth, hposition] at h
    cases h
  · rfl

theorem place_of_none (h : frontier.unit = none) :
    frontier.place field = frontier.start field := by
  rw [place, h, close_of_none h]

theorem place_of_continues {width : Nat} (hunit : frontier.unit = some unit)
    (hwidth : field.bitWidth? = some width) (hposition : field.decl.position = .sequential) :
    frontier.place field = frontier.join unit field.typeWidth width := by
  rw [place, hunit, hwidth, hposition]

/-- A field either joins the open unit or starts behind it. -/
theorem place_cases (frontier : Frontier) (field : Sized) :
    (∃ unit width, frontier.unit = some unit ∧ field.bitWidth? = some width ∧
      field.decl.position = .sequential ∧
      frontier.place field = frontier.join unit field.typeWidth width) ∨
    ((field.continues = true → frontier.unit = none) ∧
      frontier.place field = frontier.close.start field) := by
  cases hcontinues : field.continues with
  | false => exact .inr ⟨nofun, place_of_not_continues hcontinues⟩
  | true =>
    cases hunit : frontier.unit with
    | none => exact .inr ⟨fun _ => rfl, by rw [place_of_none hunit, close_of_none hunit]⟩
    | some unit =>
      obtain ⟨⟨width, hwidth⟩, hposition⟩ := Sized.continues_eq_true_iff.1 hcontinues
      exact .inl ⟨unit, width, rfl, hwidth, hposition, place_of_continues hunit hwidth hposition⟩

/-- The unit that a bit-field opens. -/
def opened (frontier : Frontier) (field : Sized) (width : Nat) : OpenUnit where
  group := frontier.units
  offset := field.decl.position.offset (frontier.next.getD .zero)
  used := width
  width := field.typeWidth
  anchored := frontier.next.isSome || !field.decl.position.isSequential

theorem start_of_bitWidth {width : Nat} (h : field.bitWidth? = some width) :
    frontier.start field =
      (⟨frontier.next, field.decl.position.offset (frontier.next.getD .zero),
          some ⟨frontier.units, 0, width, field.typeWidth⟩⟩,
        (⟨none, some (frontier.opened field width), frontier.units + 1⟩ :
          Frontier).closeIfFull) := by
  simp only [start, h]
  rfl

/-- Closing an open unit first makes no difference to a list that does not continue it. -/
theorem placeAll_close {fields : List Sized}
    (h : ∀ field, fields.head? = some field → field.continues = false) :
    frontier.close.placeAll fields = frontier.placeAll fields := by
  cases fields with
  | nil => rfl
  | cons field fields =>
    have hstart : frontier.place field = frontier.close.start field :=
      place_of_not_continues (h field rfl)
    rw [placeAll, placeAll, hstart, place_of_none frontier.unit_close]

end Frontier

/-! ## What is placed is laid out -/

/-- The frontier after a unit that is closed with a width of `widest`. -/
def OpenUnit.past (unit : OpenUnit) (units widest : Nat) : Frontier :=
  ⟨if unit.anchored then some (unit.offset.plusConstant widest) else none, none, units⟩

theorem OpenUnit.close_eq (unit : OpenUnit) (units : Nat) :
    (⟨none, some unit, units⟩ : Frontier).close = unit.past units unit.width :=
  rfl

/-- What follows an open unit begins with the bit-fields that join it and goes on behind it. -/
theorem Joined.of_placeAll (fields : List Prepared) (unit : OpenUnit) (units : Nat) :
    ∃ members rest used widest,
      fields.length = members.length + rest.length ∧
      Positioned.zip fields
          ((⟨none, some unit, units⟩ : Frontier).closeIfFull.placeAll (fields.map (·.sized))) =
        members ++ Positioned.zip rest
          ((unit.past units widest).placeAll (rest.map (·.sized))) ∧
      Joined unit.group (if unit.anchored then some unit.offset else none) unit.offset
        unit.used unit.width members used widest ∧
      (8 * widest ≤ used ∨
        ∀ field : Prepared, rest.head? = some field → field.sized.continues = false) := by
  -- every member that joins makes another open unit, so the induction is for every unit
  induction fields generalizing unit with
  | nil =>
    refine ⟨[], [], unit.used, unit.width, rfl, rfl, .nil _ _, .inr fun _ h => ?_⟩
    cases h
  | cons field fields ih =>
    cases hfull : unit.isFull with
    | true =>
      -- a full unit takes nobody in, whatever comes next
      refine ⟨[], field :: fields, unit.used, unit.width, by simp, ?_, .nil _ _, .inl ?_⟩
      · rw [Frontier.closeIfFull_of_isFull rfl hfull, unit.close_eq, List.nil_append]
      · simpa [OpenUnit.isFull] using hfull
    | false =>
      rw [Frontier.closeIfFull_of_not_isFull rfl hfull]
      cases hjoins : field.sized.continues with
      | false =>
        -- there is room, but what comes next starts somewhere else
        have hhead : ∀ next, (field :: fields).head? = some next →
            next.sized.continues = false := by
          rintro next ⟨⟩
          exact hjoins
        refine ⟨[], field :: fields, unit.used, unit.width, by simp, ?_, .nil _ _, .inr hhead⟩
        rw [← unit.close_eq, Frontier.placeAll_close]
        · rfl
        · rintro next ⟨⟩
          exact hjoins
      | true =>
        obtain ⟨⟨width, hwidth⟩, hposition⟩ := Sized.continues_eq_true_iff.1 hjoins
        obtain ⟨members, rest, used, widest, hlength, hzip, hjoined, hclosed⟩ :=
          ih { unit with
            used := unit.used + width
            width := max unit.width field.sized.typeWidth }
        -- room is measured by the width before the field joins, not by the one it may bring
        have hroom : unit.used < 8 * unit.width := by
          simpa [OpenUnit.isFull] using hfull
        refine ⟨⟨field, ⟨if unit.anchored then some unit.offset else none, unit.offset,
            some ⟨unit.group, unit.used, width, field.sized.typeWidth⟩⟩, fields.isEmpty⟩ :: members,
          rest, used, widest, by simp [hlength]; omega, ?_,
          .cons hwidth hposition hroom rfl hjoined, hclosed⟩
        rw [List.map_cons, Frontier.placeAll, Frontier.place_of_continues rfl hwidth hposition,
          Positioned.zip, List.cons_append]
        exact congrArg _ hzip

theorem Positioned.head?_zip {fields : List Prepared} {placements : List Placement}
    {field : Positioned} (h : (Positioned.zip fields placements).head? = some field) :
    fields.head? = some field.field := by
  cases fields with
  | nil => cases h
  | cons first fields =>
    cases placements with
    | nil => cases h
    | cons placement placements =>
      obtain rfl := Option.some.inj h
      rfl

theorem Positioned.isEmpty_zip {fields : List Prepared} {placements : List Placement}
    (h : placements.length = fields.length) :
    (Positioned.zip fields placements).isEmpty = fields.isEmpty := by
  cases fields with
  | nil => cases placements <;> rfl
  | cons field fields =>
    cases placements with
    | nil => cases h
    | cons placement placements => rfl

/-- What a frontier without an open unit places is laid out from where it stands. -/
theorem Laid.of_placeAll (fields : List Prepared) (frontier : Frontier)
    (h : frontier.unit = none) :
    Laid frontier.next frontier.units
      (Positioned.zip fields (frontier.placeAll (fields.map (·.sized)))) := by
  -- the members of a unit are taken off in one step, so the list gets shorter by more than one
  induction hn : fields.length using Nat.strongRecOn generalizing fields frontier with
  | ind n ih =>
    cases fields with
    | nil => exact .nil _ _
    | cons field fields =>
      rw [List.map_cons, Frontier.placeAll, Frontier.place_of_none h, Positioned.zip]
      cases hwidth : field.sized.bitWidth? with
      | none =>
        simp only [Frontier.start, hwidth]
        refine .single hwidth rfl ?_ ?_
        · rw [Positioned.isEmpty_zip]
          rw [Frontier.length_placeAll, List.length_map]
        · have hshorter : fields.length < n := by
            rw [← hn, List.length_cons]
            exact Nat.lt_succ_self _
          exact ih fields.length hshorter fields ⟨_, frontier.unit, frontier.units⟩ h rfl
      | some width =>
        rw [Frontier.start_of_bitWidth hwidth]
        obtain ⟨members, rest, used, widest, hlength, hzip, hjoined, hclosed⟩ :=
          Joined.of_placeAll fields (frontier.opened field.sized width) (frontier.units + 1)
        rw [hzip, ← List.cons_append]
        refine .unit hwidth rfl hjoined ?_ ?_
        · refine hclosed.imp_right fun hrest next hnext => hrest next.field ?_
          exact Positioned.head?_zip hnext
        · have hshorter : rest.length < n := by
            rw [← hn, List.length_cons, hlength]
            omega
          exact ih rest.length hshorter rest
            ((frontier.opened field.sized width).past (frontier.units + 1) widest) rfl rfl

/-- Every field list is laid out from offset zero. -/
theorem Prepared.laid_positioned (fields : List Prepared) :
    Laid (some .zero) 0 (Prepared.positioned fields) :=
  Laid.of_placeAll fields Frontier.initial rfl

end PacketLayout
