import PacketLayout.Proofs.Tiling

/-!
# Stretches of a field list

A field list read without placing anything. It falls into stretches: a field by itself, or the
bit-fields that share a unit. How long a stretch is, where it starts and what a buffer needs at
least follow from the declarations, as far as no buffer has to be asked.

* `stretches` cuts a list into its stretches.
* `implied?` is the offset behind some fields, and `leastSize` the length that they need.
* `Laid.static?_predicted` says that the placed fields are where the stretches before them end.
* `Spread.covers` says the same of the plan of a list in which every size is known, and that its
  units and sizes are those of its stretches.
-/

namespace PacketLayout

/-! ## Stretches -/

/-- A field by itself, or a bit-field with the siblings behind it in the same unit. -/
structure Stretch where
  first : Sized
  members : List Sized

namespace Stretch

/-- Whether bit-fields make up the stretch. -/
def isUnit (stretch : Stretch) : Bool := stretch.first.bitWidth?.isSome

/-- The bits of all bit-fields. -/
def bits (stretch : Stretch) : Nat :=
  stretch.members.foldl (fun bits member => bits + member.bitWidth?.getD 0)
    (stretch.first.bitWidth?.getD 0)

/-- The width in bytes of the widest integer. -/
def width (stretch : Stretch) : Nat :=
  stretch.members.foldl (fun width member => max width member.typeWidth) stretch.first.typeWidth

/-- The unit has a bit left, and the field asks for the next ones. -/
def takes (stretch : Stretch) (field : Sized) : Bool :=
  stretch.isUnit && field.continues && decide (stretch.bits < 8 * stretch.width)

/-- The number of bytes, if it is the same on every buffer. -/
def extent? (stretch : Stretch) : Option Nat :=
  if stretch.isUnit then some stretch.width else stretch.first.size.bind (·.fixed)

end Stretch

/-- The stretches of some fields, of which the first is not finished yet. -/
def stretchesFrom (stretch : Stretch) : List Sized → List Stretch
  | [] => [stretch]
  | field :: fields =>
    if stretch.takes field then
      stretchesFrom { stretch with members := stretch.members ++ [field] } fields
    else stretch :: stretchesFrom ⟨field, []⟩ fields

/-- The stretches of a field list in order. -/
def stretches : List Sized → List Stretch
  | [] => []
  | field :: fields => stretchesFrom ⟨field, []⟩ fields

/-! ## Offsets and sizes -/

/-- The offset of a field on every buffer, given the one behind the fields before. -/
def Position.from? (position : Position) (next : Option Nat) : Option Nat :=
  match position with
  | sequential => next
  | literal offset => some offset
  | computed _ => none

/-- The offset behind a stretch on every buffer, given the one before it. -/
def Stretch.stop? (next : Option Nat) (stretch : Stretch) : Option Nat :=
  (stretch.first.decl.position.from? next).bind fun start => stretch.extent?.map (start + ·)

/-- The offsets behind each of some stretches. -/
def stops (next : Option Nat) : List Stretch → List (Option Nat)
  | [] => []
  | stretch :: rest => stretch.stop? next :: stops (stretch.stop? next) rest

/-- The offset behind some fields, if it is the same on every buffer. -/
def implied? (fields : List Sized) : Option Nat :=
  (stretches fields).foldl Stretch.stop? (some 0)

/-- The length that fields need: all bytes that are known in advance, one after the other, and at
least as many as reach the furthest of the known ends. -/
def leastSize (fields : List Sized) : Nat :=
  max ((stretches fields).map fun stretch => stretch.extent?.getD 0).sum
    ((stops (some 0) (stretches fields)).filterMap id |>.foldl max 0)

/-! ## Cutting -/

theorem stretchesFrom_of_not_takes {stretch : Stretch} {fields : List Sized}
    (h : ∀ field, fields.head? = some field → stretch.takes field = false) :
    stretchesFrom stretch fields = stretch :: stretches fields := by
  cases fields with
  | nil => rfl
  | cons field fields => rw [stretchesFrom, h field rfl, if_neg (by decide), stretches]

theorem mem_of_mem_stretchesFrom {stretch start : Stretch} {fields : List Sized} {field : Sized}
    (h : stretch ∈ stretchesFrom start fields) (hmem : field ∈ stretch.first :: stretch.members) :
    field ∈ start.first :: start.members ++ fields := by
  induction fields generalizing start with
  | nil =>
    rw [stretchesFrom, List.mem_singleton] at h
    rwa [List.append_nil, ← h]
  | cons next rest ih =>
    rw [stretchesFrom] at h
    split at h
    · simpa using ih h
    · rcases List.mem_cons.1 h with rfl | h
      · exact List.mem_append_left _ hmem
      · exact List.mem_append_right _ (ih h)

/-- The stretches of a list consist of its fields. -/
theorem mem_of_mem_stretches {stretch : Stretch} {fields : List Sized} {field : Sized}
    (h : stretch ∈ stretches fields) (hmem : field ∈ stretch.first :: stretch.members) :
    field ∈ fields := by
  cases fields with
  | nil => cases h
  | cons first rest => exact mem_of_mem_stretchesFrom h hmem

/-- A field that is not a bit-field is a stretch by itself. -/
theorem stretches_cons {field : Sized} (h : field.bitWidth? = none) (fields : List Sized) :
    stretches (field :: fields) = ⟨field, []⟩ :: stretches fields := by
  refine stretchesFrom_of_not_takes fun other _ => ?_
  rw [Stretch.takes, Stretch.isUnit, h]
  rfl

/-- A bit-field joins a unit with room left. -/
theorem Stretch.takes_of_continues {stretch : Stretch} {field : Sized}
    (hunit : stretch.isUnit = true) (hcontinues : field.continues = true)
    (hroom : stretch.bits < 8 * stretch.width) : stretch.takes field = true := by
  rw [takes, hunit, hcontinues]
  exact decide_eq_true hroom

theorem Positioned.continues_of_sequential {field : Positioned} {width : Nat}
    (hwidth : field.bitWidth? = some width) (hposition : field.position = .sequential) :
    field.field.sized.continues = true := by
  rw [Sized.continues, ← Positioned.bitWidth?, hwidth]
  change (true && field.position.isSequential) = true
  rw [hposition]
  rfl

/-- The members of a unit are taken up by the stretch of their first sibling. -/
theorem Joined.stretchesFrom_append {group used widest used' widest' : Nat}
    {predicted : Option Expr} {offset : Expr} {members : List Positioned}
    (h : Joined group predicted offset used widest members used' widest') {stretch : Stretch}
    (hunit : stretch.isUnit = true) (hbits : stretch.bits = used) (hwidth : stretch.width = widest)
    (rest : List Sized) :
    ∃ whole : Stretch,
      whole = ⟨stretch.first, stretch.members ++ members.map (·.field.sized)⟩ ∧
      whole.bits = used' ∧ whole.width = widest' ∧
      stretchesFrom stretch (members.map (·.field.sized) ++ rest) = stretchesFrom whole rest := by
  -- the stretch grows by one member at a time, so the induction is for every stretch
  induction h generalizing stretch with
  | nil => exact ⟨stretch, by simp, hbits, hwidth, rfl⟩
  | @cons used widest width _ _ field rest' width_eq sequential room _ _ ih =>
    have htakes : stretch.takes field.field.sized = true :=
      Stretch.takes_of_continues hunit (field.continues_of_sequential width_eq sequential)
        (by rwa [hbits, hwidth])
    rw [Positioned.bitWidth?] at width_eq
    obtain ⟨whole, hwhole, hbits', hwidth', hcut⟩ :=
      @ih ⟨stretch.first, stretch.members ++ [field.field.sized]⟩ hunit
        (by simp [Stretch.bits, width_eq, ← hbits]) (by simp [Stretch.width, ← hwidth]; rfl)
    refine ⟨whole, by simp [hwhole], hbits', hwidth', ?_⟩
    rw [List.map_cons, List.cons_append, stretchesFrom, if_pos htakes]
    exact hcut

/-- The bit-fields of a placed unit. -/
def Stretch.ofUnit (first : Positioned) (members : List Positioned) : Stretch :=
  ⟨first.field.sized, members.map (·.field.sized)⟩

/-- A placed unit is a stretch, whether fields follow that could have continued it or not. -/
theorem Joined.stretches_unit {group used width widest : Nat} {predicted : Option Expr}
    {offset : Expr} {first : Positioned} {members : List Positioned}
    (joined : Joined group predicted offset width first.typeWidth members used widest)
    (width_eq : first.bitWidth? = some width) {rest : List Positioned}
    (closed : 8 * widest ≤ used ∨
      ∀ field, rest.head? = some field → field.field.sized.continues = false) :
    (Stretch.ofUnit first members).bits = used ∧ (Stretch.ofUnit first members).width = widest ∧
      stretches ((first :: members ++ rest).map (·.field.sized)) =
        Stretch.ofUnit first members :: stretches (rest.map (·.field.sized)) := by
  rw [Positioned.bitWidth?] at width_eq
  have hunit : (⟨first.field.sized, []⟩ : Stretch).isUnit = true := by
    rw [Stretch.isUnit, width_eq]
    rfl
  obtain ⟨whole, rfl, hbits, hwidth, hcut⟩ :=
    joined.stretchesFrom_append hunit (by simp [Stretch.bits, width_eq]) rfl
      (rest.map (·.field.sized))
  refine ⟨hbits, hwidth, ?_⟩
  rw [List.map_append, List.map_cons, List.cons_append, stretches, hcut]
  refine stretchesFrom_of_not_takes fun sized hsized => ?_
  rcases closed with hfull | hother
  · rw [Stretch.takes, hbits, hwidth, decide_eq_false (Nat.not_lt.2 hfull), Bool.and_false]
  · rw [List.head?_map, Option.map_eq_some_iff] at hsized
    obtain ⟨head, hhead, rfl⟩ := hsized
    rw [Stretch.takes, hother head hhead, Bool.and_false, Bool.false_and]

/-! ## Offsets -/

theorem Position.static?_offset (position : Position) (next : Expr) :
    (position.offset next).static? = position.from? next.static? := by
  cases position with
  | sequential | literal | computed => rfl

theorem Expr.static?_plusConstant (offset : Expr) (count : Nat) :
    (offset.plusConstant count).static? = offset.static?.map (· + count) := by
  cases offset with
  | sum constant terms => cases terms <;> rfl

theorem Expr.static?_plus_ofTerm (offset : Expr) (term : Term) :
    (offset.plus (.ofTerm term)).static? = none := by
  cases offset with
  | sum constant terms => cases terms <;> rfl

theorem Size.static?_plus {size : Size} (h : size.bitWidth? = none) (offset : Expr)
    (field : String) (start : Expr) :
    (offset.plus (size.expr field start none)).static? =
      offset.static?.bind fun start => size.fixed.map (start + ·) := by
  cases size with
  | constant count | intrinsic count | external count =>
    rw [Size.expr, Expr.plus_literal, Expr.static?_plusConstant, Option.map_eq_bind]
    rfl
  | computed | remainder =>
    rw [Size.expr, Expr.static?_plus_ofTerm]
    exact (Option.bind_fun_none _).symm
  | bitWidth => cases h

namespace Positioned

/-- A field has a known offset where its position and the fields before give one. -/
theorem static?_offsetFrom (field : Positioned) (next : Option Expr) :
    (if field.isAnchored next then some (field.offsetFrom next) else none).bind (·.static?) =
      field.position.from? (next.bind (·.static?)) := by
  cases next with
  | some next => exact field.position.static?_offset next
  | none =>
    rw [isAnchored, offsetFrom]
    cases field.position <;> rfl

/-- The offset behind a field that is not a bit-field, whether it has a size or not. -/
theorem static?_stopFrom {field : Positioned} (hbits : field.bitWidth? = none)
    (next : Option Expr) :
    (field.stopFrom next).bind (·.static?) =
      (⟨field.field.sized, []⟩ : Stretch).stop? (next.bind (·.static?)) := by
  have hextent : (⟨field.field.sized, []⟩ : Stretch).extent? =
      field.field.sized.size.bind (·.fixed) := by
    rw [Positioned.bitWidth?] at hbits
    simp [Stretch.extent?, Stretch.isUnit, hbits]
  have hstart := field.static?_offsetFrom next
  rw [Stretch.stop?, hextent]
  change _ = (field.position.from? _).bind _
  rw [← hstart, stopFrom]
  cases field.isAnchored next with
  | false => rfl
  | true =>
    cases hsize : field.field.sized.size with
    | none => exact (Option.bind_fun_none _).symm
    | some size =>
      have hbytes : size.bitWidth? = none := by
        rwa [Positioned.bitWidth?, Sized.bitWidth?, hsize] at hbits
      exact Size.static?_plus hbytes _ _ _

end Positioned

namespace Stretch

theorem stop?_single {field : Positioned} {size : Size}
    (hsize : field.field.sized.size = some size) (hbytes : size.bitWidth? = none) (next : Expr) :
    ((field.position.offset next).plus
      (size.expr field.field.decl.name (field.position.offset next) none)).static? =
        (⟨field.field.sized, []⟩ : Stretch).stop? next.static? := by
  have hbits : field.bitWidth? = none := by
    rw [Positioned.bitWidth?, Sized.bitWidth?, hsize]
    exact hbytes
  have hstop := Positioned.static?_stopFrom hbits (some next)
  rwa [Positioned.stopFrom, hsize] at hstop

variable {first : Positioned} {members : List Positioned} {width widest : Nat}

theorem extent?_ofUnit (width_eq : first.bitWidth? = some width) :
    (ofUnit first members).extent? = some (ofUnit first members).width := by
  refine if_pos ?_
  change first.bitWidth?.isSome = true
  rw [width_eq]
  rfl

/-- The offset behind a unit. -/
theorem static?_stop_ofUnit (width_eq : first.bitWidth? = some width)
    (hwidest : (ofUnit first members).width = widest) (next : Option Expr) :
    (if first.isAnchored next then some ((first.offsetFrom next).plusConstant widest)
      else none).bind (·.static?) = (ofUnit first members).stop? (next.bind (·.static?)) := by
  have hstart := first.static?_offsetFrom next
  rw [stop?, extent?_ofUnit width_eq, hwidest]
  change _ = (first.position.from? _).bind _
  rw [← hstart]
  cases first.isAnchored next with
  | false => rfl
  | true =>
    change ((first.offsetFrom next).plusConstant widest).static? = _
    rw [Expr.static?_plusConstant, Option.map_eq_bind]
    rfl

theorem stop?_ofUnit (width_eq : first.bitWidth? = some width)
    (hwidest : (ofUnit first members).width = widest) (next : Expr) :
    ((first.position.offset next).plusConstant widest).static? =
      (ofUnit first members).stop? next.static? :=
  static?_stop_ofUnit width_eq hwidest (some next)

end Stretch

/-- Where a list is cut at an element that is not among its first ones, these are all in front. -/
theorem exists_tail_of_append_eq {α : Type} {before after front rest : List α} {a : α}
    (h : before ++ a :: after = front ++ rest) (ha : a ∉ front) :
    ∃ tail, before = front ++ tail ∧ rest = tail ++ a :: after := by
  rcases List.append_eq_append_iff.1 h with ⟨tail, hfront, htail⟩ | hfound
  · cases tail with
    | nil => exact ⟨[], by simpa using hfront.symm, htail.symm⟩
    | cons other tail =>
      obtain ⟨rfl, -⟩ := List.cons.inj htail
      exact absurd (hfront ▸ List.mem_append_right _ List.mem_cons_self) ha
  · exact hfound

/-- A field that does not follow the one before stands behind the stretches of the fields before. -/
theorem Laid.static?_predicted {next : Option Expr} {units : Nat}
    {before after : List Positioned} {field : Positioned}
    (h : Laid next units (before ++ field :: after))
    (hposition : field.position.isSequential = false) :
    field.placement.predicted.bind (·.static?) =
      (stretches (before.map (·.field.sized))).foldl Stretch.stop? (next.bind (·.static?)) := by
  generalize hlist : before ++ field :: after = list at h
  induction h generalizing before with
  | nil => simp at hlist
  | @single next _ first rest width_eq place _ _ ih =>
    cases before with
    | nil =>
      obtain ⟨rfl, rfl⟩ := List.cons.inj hlist
      rw [place]
      rfl
    | cons other before =>
      obtain ⟨rfl, hrest⟩ := List.cons.inj hlist
      rw [ih hrest, List.map_cons, stretches_cons width_eq, List.foldl_cons,
        Positioned.static?_stopFrom width_eq]
  | @unit next _ width used widest first members rest width_eq place joined closed _ ih =>
    cases before with
    | nil =>
      obtain ⟨rfl, -⟩ := List.cons.inj hlist
      rw [place]
      rfl
    | cons other before =>
      obtain rfl : other = first := (List.cons.inj hlist).1
      have hbehind : before ++ field :: after = members ++ rest := (List.cons.inj hlist).2
      -- the members behind the first are sequential, so the field stands behind the unit
      have hbeyond : field ∉ members := by
        intro hmem
        rw [joined.position_eq hmem] at hposition
        cases hposition
      obtain ⟨tail, rfl, hrest⟩ := exists_tail_of_append_eq hbehind hbeyond
      have hclosed : 8 * widest ≤ used ∨
          ∀ field, tail.head? = some field → field.field.sized.continues = false := by
        refine closed.imp_right fun hother head hhead => hother head ?_
        rw [hrest, List.head?_append, hhead]
        rfl
      obtain ⟨-, hwidth, hcut⟩ := joined.stretches_unit width_eq hclosed
      rw [ih hrest.symm, ← List.cons_append, hcut, List.foldl_cons,
        Stretch.static?_stop_ofUnit width_eq hwidth]

/-! ## Planned fields beside their stretches -/

/-- The fields of a plan and the stretches that they come from. The offset in front is `next` on
every buffer, if it is known, and `units` units are before. -/
inductive Covers : (next : Option Nat) → (units : Nat) → List Stretch → List PlannedField → Prop
  | nil (next : Option Nat) (units : Nat) : Covers next units [] []
  /-- a field that is not a bit-field -/
  | single {next : Option Nat} {units : Nat} {stretch : Stretch} {others : List Stretch}
      {field : PlannedField} {rest : List PlannedField}
      (bits : stretch.bits = 0)
      (slot : field.slot? = none)
      (size : field.sizeExpr.constant = stretch.extent?.getD 0)
      (stop : field.staticEnd? = stretch.stop? next)
      (more : Covers (stretch.stop? next) units others rest) :
      Covers next units (stretch :: others) (field :: rest)
  /-- all bit-fields of a unit -/
  | unit {next : Option Nat} {units : Nat} {stretch : Stretch} {others : List Stretch}
      {offset : Expr} {first : Pair} {members : List Pair} {rest : List PlannedField}
      (packed : Packed units offset stretch.width 0 0 (first :: members) stretch.bits stretch.width)
      (extent : stretch.extent? = some stretch.width)
      (stop : ∀ pair ∈ first :: members, pair.2.staticEnd? = stretch.stop? next)
      (more : Covers (stretch.stop? next) (units + 1) others rest) :
      Covers next units (stretch :: others) ((first :: members).map (·.2) ++ rest)

variable {policy : MismatchPolicy} {readOnly : Bool} {widths : Nat → Nat}

theorem PlannedField.staticEnd?_eq (field : PlannedField) :
    field.staticEnd? = field.offset.static?.bind fun start => field.extent?.map (start + ·) := by
  unfold staticEnd?
  cases field.offset.static? with
  | none => rfl
  | some start => cases field.extent? <;> rfl

theorem Size.constant_expr {size : Size} (h : size.bitWidth? = none) (field : String)
    (offset : Expr) (slot : Option BitSlot) :
    (size.expr field offset slot).constant = size.fixed.getD 0 := by
  cases size with
  | bitWidth => cases h
  | constant | intrinsic | external | computed | remainder => rfl

/-- A settled member of a unit ends where its unit does. -/
theorem SettledAs.staticEnd?_of_member {positioned : Positioned} {field : PlannedField}
    {member : UnitMember} (h : SettledAs policy widths positioned field) {width : Nat}
    (hbits : positioned.bitWidth? = some width)
    (hmember : positioned.placement.member = some member) :
    field.staticEnd? =
      (positioned.placement.offset.plusConstant (widths member.group)).static? := by
  have hslot : field.slot? = some (member.slot (widths member.group)) := by
    rw [h.slot, ← h.bitWidth?, hbits, Positioned.slot, hmember]
    rfl
  have hfixed : field.size.fixed = none := by
    have hsize : field.size.bitWidth? = some width := by
      rw [h.source.bitWidth?, ← h.bitWidth?, hbits]
    exact Size.fixed_of_bitWidth? hsize
  have hextent : field.extent? = some (widths member.group) := by
    rw [PlannedField.extent?, hfixed, hslot]
    rfl
  rw [PlannedField.staticEnd?_eq, h.offset, hextent, Expr.static?_plusConstant,
    Option.map_eq_bind]
  rfl

theorem Joined.exists_member {group used widest used' widest' : Nat} {predicted : Option Expr}
    {offset : Expr} {members : List Positioned}
    (h : Joined group predicted offset used widest members used' widest') {field : Positioned}
    (hmem : field ∈ members) :
    ∃ width member, field.bitWidth? = some width ∧ field.placement.offset = offset ∧
      field.placement.member = some member ∧ member.group = group := by
  induction h with
  | nil => cases hmem
  | cons width_eq _ _ place _ ih =>
    rcases List.mem_cons.1 hmem with rfl | hmem
    · exact ⟨_, _, width_eq, by rw [place], by rw [place], rfl⟩
    · exact ih hmem

/-- The plan of a settled list has the stretches of the list. -/
theorem Spread.covers {next : Expr} {units : Nat} {list : List Positioned}
    (h : Spread widths next units list)
    (hsettles : ∀ positioned ∈ list, Settles policy readOnly widths positioned) :
    Covers next.static? units (stretches (list.map (·.field.sized)))
      ((list.filterMap (·.pair? readOnly widths)).map (·.2)) := by
  induction h with
  | nil => exact .nil _ _
  | @single next units positioned rest size sized bytes place last more ih =>
    obtain ⟨field, hpair, hfield⟩ := (hsettles positioned List.mem_cons_self).settledAs
    obtain rfl := Option.some.inj (sized.symm.trans hfield.sized)
    have hbits : positioned.field.sized.bitWidth? = none := by
      rw [Sized.bitWidth?, sized]
      exact bytes
    have hslot : field.slot? = none := by
      rw [hfield.slot, ← hfield.bitWidth?, Positioned.bitWidth?, hbits]
      rfl
    have hextent : (⟨positioned.field.sized, []⟩ : Stretch).extent? = field.size.fixed := by
      simp [Stretch.extent?, Stretch.isUnit, hbits, sized]
    have hstop :
        field.staticEnd? = (⟨positioned.field.sized, []⟩ : Stretch).stop? next.static? := by
      rw [PlannedField.staticEnd?_eq, PlannedField.extent?, hslot, hfield.offset, place,
        Position.static?_offset, Stretch.stop?, hextent]
      simp
      rfl
    have hmore := ih fun other hother => hsettles other (List.mem_cons_of_mem _ hother)
    rw [Stretch.stop?_single sized bytes] at hmore
    rw [Positioned.pairs_cons hpair, List.map_cons, List.map_cons, stretches_cons hbits]
    refine .single ?_ hslot ?_ hstop hmore
    · rw [Stretch.bits, hbits]
      rfl
    · rw [hfield.sizeExpr, Size.constant_expr bytes, hextent]
  | @unit next units width used first members rest width_eq place joined closed more ih =>
    have hunit := fun member hmem => hsettles member (List.mem_append_left _ hmem)
    obtain ⟨field, hfield, hoffset, hpairs, hpacked⟩ :=
      Joined.packed_unit width_eq place joined hunit
    obtain ⟨hbits, hwidth, hcut⟩ := joined.stretches_unit width_eq closed
    have hmore := ih fun other hother => hsettles other (List.mem_append_right _ hother)
    rw [Stretch.stop?_ofUnit width_eq hwidth] at hmore
    rw [hcut, List.filterMap_append, List.map_append, hpairs]
    refine .unit (by rwa [hbits, hwidth]) (Stretch.extent?_ofUnit width_eq) ?_ hmore
    intro pair hpair
    rw [← hpairs] at hpair
    obtain ⟨positioned, hmem, hsome⟩ := List.mem_filterMap.1 hpair
    obtain ⟨other, hother, hsettled⟩ := (hunit positioned hmem).settledAs
    obtain rfl := Option.some.inj (hother.symm.trans hsome)
    have hmember : ∃ width member, positioned.bitWidth? = some width ∧
        positioned.placement.offset = first.position.offset next ∧
        positioned.placement.member = some member ∧ member.group = units := by
      rcases List.mem_cons.1 hmem with rfl | hmem
      · exact ⟨_, _, width_eq, by rw [place], by rw [place], rfl⟩
      · exact joined.exists_member hmem
    obtain ⟨_, member, hsome, hplace, hmember, rfl⟩ := hmember
    rw [hsettled.staticEnd?_of_member hsome hmember, hplace,
      Stretch.stop?_ofUnit width_eq hwidth]

namespace Covers

variable {next : Option Nat} {units : Nat} {list : List Stretch} {fields : List PlannedField}

/-- The bytes that are known in advance are those of the stretches. -/
theorem sum_counted (h : Covers next units list fields) {seen : List Nat}
    (hseen : ∀ group ∈ seen, group < units) :
    ((countedFrom seen fields).map (·.sizeExpr.constant)).sum =
      (list.map fun stretch => stretch.extent?.getD 0).sum := by
  induction h generalizing seen with
  | nil => rfl
  | single _ slot size _ _ ih =>
    rw [countedFrom, slot]
    simp only [List.map_cons, List.sum_cons, size, ih hseen]
  | @unit _ units stretch _ _ first members _ packed extent _ _ ih =>
    obtain ⟨-, -, -, hsize⟩ := packed.exists_slot? List.mem_cons_self
    have hmore : ∀ group ∈ units :: seen, group < units + 1 := by
      intro group hmem
      rcases List.mem_cons.1 hmem with rfl | hmem
      · exact Nat.lt_succ_self _
      · exact Nat.lt_succ_of_lt (hseen group hmem)
    rw [packed.countedFrom_append hseen, List.map_cons, List.sum_cons, List.map_cons, List.sum_cons,
      ih hmore, hsize, extent]
    rfl

/-- The fields end where the stretches do. -/
theorem mem_stops_iff (h : Covers next units list fields) (stop : Nat) :
    stop ∈ fields.filterMap (·.staticEnd?) ↔ some stop ∈ stops next list := by
  induction h with
  | nil => simp [stops]
  | single _ _ _ stop_eq _ ih =>
    rw [stops, List.mem_cons, ← ih, ← stop_eq]
    simp only [List.mem_filterMap, List.mem_cons, exists_eq_or_imp]
    exact or_congr eq_comm Iff.rfl
  | @unit next units stretch _ _ first members _ _ _ stop_eq _ ih =>
    have hunit : stop ∈ ((first :: members).map (·.2)).filterMap (·.staticEnd?) ↔
        some stop = stretch.stop? next := by
      rw [List.filterMap_map, List.mem_filterMap]
      constructor
      · rintro ⟨pair, hpair, hstop⟩
        exact hstop.symm.trans (stop_eq pair hpair)
      · exact fun hstop => ⟨first, List.mem_cons_self, hstop ▸ stop_eq first List.mem_cons_self⟩
    rw [stops, List.mem_cons, ← ih, List.filterMap_append, List.mem_append, hunit]

end Covers

/-! ## The minimum size -/

theorem foldl_max_le {list : List Nat} {start bound : Nat} (hstart : start ≤ bound)
    (h : ∀ value ∈ list, value ≤ bound) : list.foldl max start ≤ bound := by
  induction list generalizing start with
  | nil => exact hstart
  | cons value list ih =>
    rw [List.forall_mem_cons] at h
    exact ih (Nat.max_le.2 ⟨hstart, h.1⟩) h.2

/-- The largest of some numbers depends on nothing but which numbers they are. -/
theorem foldl_max_congr {a b : List Nat} (h : ∀ value, value ∈ a ↔ value ∈ b) (start : Nat) :
    a.foldl max start = b.foldl max start := by
  refine Nat.le_antisymm ?_ ?_
  · obtain ⟨hstart, hle⟩ := le_foldl_max b start
    exact foldl_max_le hstart fun value hmem => hle value ((h value).1 hmem)
  · obtain ⟨hstart, hle⟩ := le_foldl_max a start
    exact foldl_max_le hstart fun value hmem => hle value ((h value).2 hmem)

/-- The constant of a sum of expressions is the sum of their constants. -/
theorem Expr.constant_foldl_plus {α : Type} (summand : α → Expr) (list : List α) (start : Expr) :
    (list.foldl (fun total a => total.plus (summand a)) start).constant =
      start.constant + (list.map fun a => (summand a).constant).sum := by
  induction list generalizing start with
  | nil => rfl
  | cons a list ih =>
    rw [List.foldl_cons, ih, Expr.constant_plus, List.map_cons, List.sum_cons, Nat.add_assoc]

theorem constant_totalSize (fields : List PlannedField) :
    (totalSize fields).constant = ((counted fields).map (·.sizeExpr.constant)).sum := by
  rw [totalSize, Expr.constant_foldl_plus, Expr.constant_zero, Nat.zero_add]

/-- The two sums of what is known in advance are equal: over the sizes of the fields, and in the
size of a packet. -/
theorem knownSum_eq_constant {fields : List PlannedField}
    (h : ∀ field ∈ fields, field.extent?.getD 0 = field.sizeExpr.constant) :
    knownSum fields = (totalSize fields).constant := by
  have hextent : knownSum fields =
      (counted fields).foldl (fun sum field => sum + field.sizeExpr.constant) Expr.zero.constant :=
    List.foldl_ext _ _ _ fun sum field hmem =>
      congrArg (sum + ·) (h field ((countedFrom_sublist [] fields).subset hmem))
  rw [hextent, totalSize]
  exact List.foldl_hom Expr.constant fun total field => (Expr.constant_plus ..).symm

/-- The minimum size of a plan is the length that its fields need. -/
theorem Covers.minimumSize_eq {fields : List Sized} {planned : List PlannedField}
    (h : Covers (some 0) 0 (stretches fields) planned)
    (hknown : knownSum planned = (totalSize planned).constant) :
    minimumSize planned = leastSize fields := by
  have hsum := h.sum_counted fun _ hmem => absurd hmem List.not_mem_nil
  have hfurthest : furthestEnd planned =
      ((stops (some 0) (stretches fields)).filterMap id).foldl max 0 := by
    refine foldl_max_congr (fun stop => ?_) 0
    rw [h.mem_stops_iff, List.mem_filterMap]
    exact ⟨fun hmem => ⟨_, hmem, rfl⟩, fun ⟨_, hmem, heq⟩ => heq ▸ hmem⟩
  rw [minimumSize, hknown, constant_totalSize, counted, hsum, hfurthest, leastSize]

end PacketLayout
