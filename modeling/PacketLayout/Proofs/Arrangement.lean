import PacketLayout.Proofs.Placement

/-!
# The layout of an accepted list

`Arranged` describes the fields of a plan beside their declarations: each starts where the fields
before imply or where its explicit position says, a bit-field has the bits right below those of the
sibling before, and every unit is as wide as the widest integer among its members and holds them
all.

* `Packed` describes the members of one unit.
* `Spread` is a placed list in which all sizes are known.
* `Accepted.arranged` says that the plan of an accepted list is arranged from offset zero on.
-/

namespace PacketLayout

/-! ## The size of a declaration -/

namespace Size

/-- Where a size can come from. -/
inductive Source (decl : Declaration) (isAnchor : Bool) : Size → Prop
  | bits {width : Nat} {kind : IntKind} (bits : decl.bits = some width) (plain : isAnchor = false)
      (integer : decl.kind? = some kind) (positive : 0 < width) (narrow : width ≤ kind.bits) :
      Source decl isAnchor (bitWidth width)
  | function {function : SizeFunction} (bits : decl.bits = none)
      (function_eq : decl.sizeFunction = some function) :
      Source decl isAnchor (computed function)
  | explicit {size : Nat} (bits : decl.bits = none) (function : decl.sizeFunction = none)
      (size_eq : decl.size = some size) :
      Source decl isAnchor (external size)
  | rest (bits : decl.bits = none) (function : decl.sizeFunction = none) (size : decl.size = none)
      (type : decl.type = .bytes) :
      Source decl isAnchor remainder
  | array {length : Nat} (bits : decl.bits = none) (function : decl.sizeFunction = none)
      (size : decl.size = none) (type : decl.type = .byteArray length) :
      Source decl isAnchor (constant length)
  | integer {kind : IntKind} (bits : decl.bits = none) (function : decl.sizeFunction = none)
      (size : decl.size = none) (integer : decl.kind? = some kind) :
      Source decl isAnchor (intrinsic kind.width)
  | composite {type : Composite} {size : Nat} (bits : decl.bits = none)
      (function : decl.sizeFunction = none) (size_eq : decl.size = none)
      (type_eq : decl.type = .composite type) (static : type.codec.staticSize = some size) :
      Source decl isAnchor (intrinsic size)

theorem source_of_ofType {decl : Declaration} {isAnchor : Bool} {size : Size}
    (hbits : decl.bits = none) (hfunction : decl.sizeFunction = none) (hsize : decl.size = none)
    (h : resolve.ofType decl = .ok size) : Source decl isAnchor size := by
  unfold resolve.ofType at h
  cases htype : decl.type with
  | integer kind =>
    simp only [htype, Except.ok.injEq] at h
    subst h
    exact .integer hbits hfunction hsize (by simp [Declaration.kind?, htype, FieldType.kind?])
  | enumeration type =>
    simp only [htype, Except.ok.injEq] at h
    subst h
    exact .integer hbits hfunction hsize (by simp [Declaration.kind?, htype])
  | composite type =>
    simp only [htype] at h
    cases hstatic : type.codec.staticSize with
    | none => simp [hstatic] at h
    | some size =>
      simp only [hstatic, Except.ok.injEq] at h
      subst h
      exact .composite hbits hfunction hsize htype hstatic
  | bytes =>
    simp only [htype, Except.ok.injEq] at h
    subst h
    exact .rest hbits hfunction hsize htype
  | byteArray length =>
    simp only [htype, Except.ok.injEq] at h
    subst h
    exact .array hbits hfunction hsize htype

theorem source_of_resolve {decl : Declaration} {isAnchor : Bool} {size : Size}
    (h : resolve decl isAnchor = .ok size) : Source decl isAnchor size := by
  by_cases hconflict :
      (decl.remainder && (decl.bits.isSome || decl.sizeFunction.isSome || decl.size.isSome)) = true
  · simp only [resolve, if_pos hconflict, reduceCtorEq] at h
  · -- bits come before a function, a function before a number, and the type is asked last
    simp only [resolve, if_neg hconflict] at h
    cases hbits : decl.bits with
    | some width =>
      simp only [hbits, resolve.ofBits] at h
      cases isAnchor with
      | true => simp at h
      | false =>
        cases hkind : decl.kind? with
        | none => simp [hkind] at h
        | some kind =>
          simp only [hkind, Bool.false_eq_true, if_false] at h
          split at h
          · cases h
          · rename_i hfits
            obtain rfl := Except.ok.inj h
            exact .bits hbits rfl hkind (by omega) (by omega)
    | none =>
      cases hfunction : decl.sizeFunction with
      | some function =>
        simp only [hbits, hfunction, Except.ok.injEq] at h
        subst h
        exact .function hbits hfunction
      | none =>
        cases hsize : decl.size with
        | some size =>
          simp only [hbits, hfunction, hsize, Except.ok.injEq] at h
          subst h
          exact .explicit hbits hfunction hsize
        | none =>
          simp only [hbits, hfunction, hsize] at h
          cases hrest : decl.remainder with
          | false =>
            rw [hrest, if_neg (by decide)] at h
            exact source_of_ofType hbits hfunction hsize h
          | true =>
            rw [hrest, if_pos rfl] at h
            cases htype : decl.type with
            | bytes =>
              rw [htype] at h
              obtain rfl := Except.ok.inj h
              exact .rest hbits hfunction hsize htype
            | integer | enumeration | composite | byteArray =>
              simp [htype, resolve.ofRemainder] at h

/-- A field has a width in bits exactly when its declaration asks for one. -/
theorem Source.bitWidth? {decl : Declaration} {isAnchor : Bool} {size : Size}
    (h : Source decl isAnchor size) : size.bitWidth? = decl.bits := by
  cases h with
  | bits bits => exact bits.symm
  | function bits | explicit bits | rest bits | array bits | integer bits | composite bits =>
    exact bits.symm

/-- The bits of a bit-field fit the integer behind it, and an anchor has none. -/
theorem Source.of_bits {decl : Declaration} {isAnchor : Bool} {size : Size} {width : Nat}
    (h : Source decl isAnchor size) (hbits : decl.bits = some width) :
    isAnchor = false ∧ ∃ kind, decl.kind? = some kind ∧ 0 < width ∧ width ≤ kind.bits := by
  cases h with
  | bits bits plain integer positive narrow =>
    obtain rfl := Option.some.inj (bits.symm.trans hbits)
    exact ⟨plain, _, integer, positive, narrow⟩
  | function bits | explicit bits | rest bits | array bits | integer bits | composite bits =>
    rw [bits] at hbits
    cases hbits

/-- The slot matters to the size of bit-fields only. -/
theorem expr_of_bitWidth?_eq_none {size : Size} (h : size.bitWidth? = none) (field : String)
    (offset : Expr) (slot : Option BitSlot) :
    size.expr field offset slot = size.expr field offset none := by
  cases size with
  | bitWidth width => cases h
  | constant | intrinsic | external | computed | remainder => rfl

theorem expr_of_bitWidth?_eq_some {size : Size} {width : Nat} (h : size.bitWidth? = some width)
    (field : String) (offset : Expr) (slot : BitSlot) :
    size.expr field offset (some slot) = .literal slot.unit := by
  cases size with
  | bitWidth width => rfl
  | constant | intrinsic | external | computed | remainder => cases h

end Size

/-! ## The provider of a declaration -/

namespace Provider

/-- Where a provider can come from. A number has exactly the bytes that it needs. -/
inductive Source (decl : Declaration) (size : Size) (slot : Option BitSlot) : Provider → Prop
  | scalar {kind : IntKind} (bytes : size.bitWidth? = none) (type : decl.type = .integer kind)
      (exact : size.fixed = some kind.width) : Source decl size slot (scalar kind)
  | enumeration {type : Enumeration} (bytes : size.bitWidth? = none)
      (type_eq : decl.type = .enumeration type)
      (exact : size.fixed = some (decl.enumBacking.getD type.backing).width) :
      Source decl size slot (enumeration type (decl.enumBacking.getD type.backing))
  | bitField {width : Nat} {place : BitSlot} (bits : size.bitWidth? = some width)
      (slot_eq : slot = some place) (type : Option Enumeration) :
      Source decl size slot (bitField place type)
  | composite {type : Composite} (bytes : size.bitWidth? = none)
      (type_eq : decl.type = .composite type) : Source decl size slot (composite type)
  | rawSlice (bytes : size.bitWidth? = none) : Source decl size slot rawSlice

theorem fixed_of_checkWidth {typeName : String} {width : Nat} {size : Size}
    (h : checkWidth typeName width size = .ok ()) (hbytes : size.bitWidth? = none) :
    size.fixed = some width := by
  unfold checkWidth at h
  cases size with
  | constant actual | intrinsic actual | external actual =>
    simp only [Size.isDynamic, Size.fixed, Bool.false_eq_true, if_false] at h ⊢
    split at h
    · rename_i heq
      rw [heq]
    · cases h
  | bitWidth => cases hbytes
  | computed | remainder => cases h

theorem source_of_resolve {decl : Declaration} {size : Size} {slot : Option BitSlot}
    {provider : Provider} (h : resolve decl size slot = .ok provider) :
    Source decl size slot provider := by
  unfold resolve at h
  cases hbacking : checkBacking decl with
  | error defect => simp [hbacking, bind, Except.bind] at h
  | ok _ =>
    simp only [hbacking, bind, Except.bind] at h
    cases hbits : size.bitWidth? with
    | some width =>
      simp only [hbits] at h
      cases slot with
      | none => cases h
      | some slot =>
        simp only at h
        split at h
        · obtain rfl := Except.ok.inj h
          exact .bitField hbits rfl _
        · obtain rfl := Except.ok.inj h
          exact .bitField hbits rfl _
    | none =>
      simp only [hbits] at h
      split at h
      · rename_i kind htype
        cases hwidth : checkWidth kind.name kind.width size with
        | error defect => simp [hwidth] at h
        | ok _ =>
          simp only [hwidth] at h
          obtain rfl := Except.ok.inj h
          exact .scalar hbits htype (fixed_of_checkWidth hwidth hbits)
      · rename_i type htype
        cases hwidth : checkWidth type.name (decl.enumBacking.getD type.backing).width size with
        | error defect => simp [hwidth] at h
        | ok _ =>
          simp only [hwidth] at h
          obtain rfl := Except.ok.inj h
          exact .enumeration hbits htype (fixed_of_checkWidth hwidth hbits)
      · rename_i type htype
        obtain rfl := Except.ok.inj h
        exact .composite hbits htype
      all_goals
        obtain rfl := Except.ok.inj h
        exact .rawSlice hbits

theorem slot?_of_resolve {decl : Declaration} {size : Size} {slot : Option BitSlot}
    {provider : Provider} (h : resolve decl size slot = .ok provider) :
    provider.slot? = if size.bitWidth?.isSome then slot else none := by
  cases source_of_resolve h with
  | bitField bits slot_eq type =>
    rw [bits, slot_eq]
    rfl
  | scalar bytes | enumeration bytes | composite bytes | rawSlice bytes =>
    rw [bytes]
    rfl

end Provider

/-! ## Settled fields -/

/-- Nothing is wrong with a placed field, by itself and in its place. -/
structure Settles (policy : MismatchPolicy) (readOnly : Bool) (widths : Nat → Nat)
    (positioned : Positioned) : Prop where
  explains : positioned.field.Explains
  unreported : (positioned.settle readOnly widths).diagnostics = []
  agreeing : policy = .error → ∀ entry,
    (positioned.settle readOnly widths).entry = some entry → entry.mismatch? = none
  remaining : ∀ entry,
    (positioned.settle readOnly widths).entry = some entry → entry.remainderDiagnostic? = none

/-- A declaration and the planned field that stands for it. -/
abbrev Pair : Type := Declaration × PlannedField

/-- A placed field with its declaration, if it has a shape. -/
def Positioned.pair? (readOnly : Bool) (widths : Nat → Nat) (positioned : Positioned) :
    Option Pair :=
  (positioned.settle readOnly widths).entry.map fun entry =>
    (positioned.field.decl, entry.field)

/-- The explicit position, if it is one, is not contradicted by the offset that is implied. -/
def Position.Agrees (position : Position) (implied : Expr) : Prop :=
  ∀ expected actual, implied.static? = some expected → position = .literal actual →
    expected = actual

/-- What a settled field looks like from its place. -/
structure SettledAs (policy : MismatchPolicy) (widths : Nat → Nat) (positioned : Positioned)
    (field : PlannedField) : Prop where
  source : Size.Source positioned.field.decl positioned.field.alternates.isSome field.size
  sized : positioned.field.sized.size = some field.size
  offset : field.offset = positioned.placement.offset
  sizeExpr : field.sizeExpr = field.size.expr positioned.field.decl.name
    positioned.placement.offset (positioned.slot widths)
  slot : field.slot? =
    if positioned.field.decl.bits.isSome then positioned.slot widths else none
  agrees : policy = .error → ∀ implied, positioned.placement.predicted = some implied →
    positioned.position.Agrees implied
  last : field.size.isRemainder = true → positioned.isLast = true

/-- A mismatch is between an explicit position and an implied one that no buffer can change. -/
theorem Entry.mismatch?_eq_some_iff {entry : Entry} {expected actual : Nat} :
    entry.mismatch? = some (expected, actual) ↔
      entry.predicted.bind (·.static?) = some expected ∧
        entry.field.layout.position = .literal actual ∧ expected ≠ actual := by
  rw [Entry.mismatch?]
  cases entry.field.layout.position with
  | sequential | computed => simp
  | literal offset =>
    cases entry.predicted.bind (·.static?) with
    | none => simp
    | some start =>
      by_cases hagree : start = offset
      · simp only [if_pos hagree, Option.some.injEq, Position.literal.injEq]
        refine ⟨nofun, ?_⟩
        rintro ⟨rfl, rfl, hne⟩
        exact absurd hagree hne
      · simp only [if_neg hagree, Option.some.injEq, Prod.mk.injEq, Position.literal.injEq]
        refine ⟨?_, fun h => ⟨h.1, h.2.1⟩⟩
        rintro ⟨rfl, rfl⟩
        exact ⟨rfl, rfl, hagree⟩

theorem Entry.mismatch?_eq_none_iff {entry : Entry} :
    entry.mismatch? = none ↔ ∀ expected actual, entry.predicted.bind (·.static?) = some expected →
      entry.field.layout.position = .literal actual → expected = actual := by
  constructor
  · intro h expected actual hstatic hposition
    by_contra hne
    have hsome := Entry.mismatch?_eq_some_iff.2 ⟨hstatic, hposition, hne⟩
    rw [h] at hsome
    cases hsome
  · intro h
    cases hmismatch : entry.mismatch? with
    | none => rfl
    | some pair =>
      obtain ⟨hstatic, hposition, hne⟩ := Entry.mismatch?_eq_some_iff.1 hmismatch
      exact absurd (h _ _ hstatic hposition) hne

theorem Shapes.slot? {readOnly : Bool} {field : Prepared} {size : Size} {slot : Option BitSlot}
    {shape : Shape} {layout : FieldLayout} (h : Shapes readOnly field size slot shape)
    (hsource : Size.Source field.decl field.alternates.isSome size) :
    (PlannedField.mk layout shape).slot? = if field.decl.bits.isSome then slot else none := by
  cases h with
  | leaf plain provided =>
    rw [← hsource.bitWidth?]
    exact Provider.slot?_of_resolve provided
  | union anchor =>
    cases hbits : field.decl.bits with
    | none => rfl
    | some width =>
      -- an anchor is no bit-field
      have := (hsource.of_bits hbits).1
      rw [anchor] at this
      cases this

theorem Settles.settledAs {policy : MismatchPolicy} {readOnly : Bool} {widths : Nat → Nat}
    {positioned : Positioned} (h : Settles policy readOnly widths positioned) :
    ∃ field, positioned.pair? readOnly widths = some (positioned.field.decl, field) ∧
      SettledAs policy widths positioned field := by
  obtain ⟨size, shape, hsize, hshapes, hentry⟩ :=
    Positioned.settle_accepted h.unreported h.explains
  have hsource := Size.source_of_resolve hsize
  refine ⟨.mk (positioned.layout widths size) shape, ?_, hsource, ?_, rfl, rfl,
    hshapes.slot? hsource, ?_, ?_⟩
  · rw [Positioned.pair?, hentry]
    rfl
  · simp [Prepared.sized, hsize, Except.toOption, PlannedField.size, PlannedField.layout,
      Positioned.layout]
  · intro hpolicy implied hpredicted expected actual hstatic
    refine Entry.mismatch?_eq_none_iff.1 (h.agreeing hpolicy _ hentry) expected actual ?_
    exact (congrArg (·.bind (·.static?)) hpredicted).trans hstatic
  · intro hremainder
    have hlast := h.remaining _ hentry
    simpa [Entry.remainderDiagnostic?, hremainder] using hlast

/-! ## The arrangement -/

/-- Members of a unit, from its bit `used` on, where the widest integer before has `widest` bytes.
Each member has the bits right below those before. -/
inductive Packed (group : Nat) (offset : Expr) (unit : Nat) :
    (used widest : Nat) → List Pair → (used' widest' : Nat) → Prop
  | nil (used widest : Nat) : Packed group offset unit used widest [] used widest
  | cons {used widest width used' widest' : Nat} {kind : IntKind} {decl : Declaration}
      {field : PlannedField} {rest : List Pair}
      (bits : decl.bits = some width)
      (integer : decl.kind? = some kind)
      (positive : 0 < width)
      (narrow : width ≤ kind.bits)
      (offset_eq : field.offset = offset)
      (size_eq : field.sizeExpr = .literal unit)
      (slot : field.slot? = some ⟨unit, 8 * unit - (used + width), width, group⟩)
      (more : Packed group offset unit (used + width) (max widest kind.width) rest used' widest') :
      Packed group offset unit used widest ((decl, field) :: rest) used' widest'

/-- The fields of a plan with their declarations. The fields before imply the offset `next` and have
`units` units. -/
inductive Arranged (policy : MismatchPolicy) : (next : Expr) → (units : Nat) → List Pair → Prop
  | nil (next : Expr) (units : Nat) : Arranged policy next units []
  /-- a field that is not a bit-field -/
  | single {next : Expr} {units : Nat} {decl : Declaration} {isAnchor : Bool}
      {field : PlannedField} {rest : List Pair}
      (bits : decl.bits = none)
      (slot : field.slot? = none)
      (source : Size.Source decl isAnchor field.size)
      (size_eq : field.sizeExpr = field.size.expr decl.name field.offset none)
      (offset_eq : field.offset = decl.position.offset next)
      (agrees : policy = .error → decl.position.Agrees next)
      (last : field.size.isRemainder = true → rest = [])
      (more : Arranged policy (field.offset.plus field.sizeExpr) units rest) :
      Arranged policy next units ((decl, field) :: rest)
  /-- all members of a unit -/
  | unit {next : Expr} {units used width : Nat} {decl : Declaration} {field : PlannedField}
      {members rest : List Pair}
      (offset_eq : field.offset = decl.position.offset next)
      (agrees : policy = .error → decl.position.Agrees next)
      (packed : Packed units field.offset width 0 0 ((decl, field) :: members) used width)
      (fits : used ≤ 8 * width)
      (more : Arranged policy (field.offset.plusConstant width) (units + 1) rest) :
      Arranged policy next units ((decl, field) :: members ++ rest)

/-! ## From places to the arrangement -/

theorem Positioned.typeWidth_eq {positioned : Positioned} {kind : IntKind}
    (h : positioned.field.decl.kind? = some kind) : positioned.typeWidth = kind.width := by
  simp [Positioned.typeWidth, Sized.typeWidth, Prepared.sized, h]

theorem SettledAs.bitWidth? {policy : MismatchPolicy} {widths : Nat → Nat}
    {positioned : Positioned} {field : PlannedField}
    (h : SettledAs policy widths positioned field) :
    positioned.bitWidth? = positioned.field.decl.bits := by
  rw [Positioned.bitWidth?, Sized.bitWidth?, h.sized, Option.bind_some, h.source.bitWidth?]

theorem Positioned.pairs_cons {readOnly : Bool} {widths : Nat → Nat} {positioned : Positioned}
    {pair : Pair} (h : positioned.pair? readOnly widths = some pair) (rest : List Positioned) :
    (positioned :: rest).filterMap (·.pair? readOnly widths) =
      pair :: rest.filterMap (·.pair? readOnly widths) := by
  rw [List.filterMap_cons, h]

variable {policy : MismatchPolicy} {readOnly : Bool} {widths : Nat → Nat}

/-- A settled bit-field heads the members that are packed behind it. -/
theorem Packed.cons_of_settledAs {positioned : Positioned} {field : PlannedField}
    {next : Option Expr}
    {offset : Expr} {rest : List Pair} {group unit used widest width used' widest' : Nat}
    (h : SettledAs policy widths positioned field)
    (hwidth : positioned.bitWidth? = some width)
    (hplace : positioned.placement =
      ⟨next, offset, some ⟨group, used, width, positioned.typeWidth⟩⟩)
    (hunit : widths group = unit)
    (hrest : Packed group offset unit (used + width) (max widest positioned.typeWidth) rest
      used' widest') :
    Packed group offset unit used widest ((positioned.field.decl, field) :: rest) used'
      widest' := by
  have hbits : positioned.field.decl.bits = some width := h.bitWidth?.symm.trans hwidth
  have hslot : positioned.slot widths =
      some ⟨unit, 8 * unit - (used + width), width, group⟩ := by
    rw [Positioned.slot, hplace, Option.map_some, hunit]
    rfl
  obtain ⟨-, kind, hkind, hpositive, hnarrow⟩ := h.source.of_bits hbits
  rw [Positioned.typeWidth_eq hkind] at hrest
  refine .cons hbits hkind hpositive hnarrow ?_ ?_ ?_ hrest
  · rw [h.offset, hplace]
  · rw [h.sizeExpr, hslot, Size.expr_of_bitWidth?_eq_some (h.source.bitWidth?.trans hbits)]
  · rw [h.slot, hbits, hslot]
    rfl

theorem Joined.packed {group used widest used' widest' : Nat} {predicted : Option Expr}
    {offset : Expr} {members : List Positioned}
    (h : Joined group predicted offset used widest members used' widest')
    (hsettles : ∀ member ∈ members, Settles policy readOnly widths member) :
    Packed group offset (widths group) used widest
      (members.filterMap (·.pair? readOnly widths)) used' widest' := by
  induction h with
  | nil => exact .nil _ _
  | @cons _ _ _ _ _ member rest width_eq _ _ place _ ih =>
    obtain ⟨field, hpair, hfield⟩ := (hsettles member List.mem_cons_self).settledAs
    rw [Positioned.pairs_cons hpair]
    refine .cons_of_settledAs hfield width_eq place rfl (ih fun other hother => ?_)
    exact hsettles other (List.mem_cons_of_mem _ hother)

/-- All settled members of a unit are packed from its first bit on. -/
theorem Joined.packed_unit {next : Expr} {units width used : Nat} {first : Positioned}
    {members : List Positioned} (width_eq : first.bitWidth? = some width)
    (place : first.placement = ⟨some next, first.position.offset next,
      some ⟨units, 0, width, first.typeWidth⟩⟩)
    (joined : Joined units (some (first.position.offset next)) (first.position.offset next) width
      first.typeWidth members used (widths units))
    (hsettles : ∀ positioned ∈ first :: members, Settles policy readOnly widths positioned) :
    ∃ field, SettledAs policy widths first field ∧ field.offset = first.position.offset next ∧
      (first :: members).filterMap (·.pair? readOnly widths) =
        (first.field.decl, field) :: members.filterMap (·.pair? readOnly widths) ∧
      Packed units field.offset (widths units) 0 0
        ((first.field.decl, field) :: members.filterMap (·.pair? readOnly widths)) used
        (widths units) := by
  obtain ⟨field, hpair, hfield⟩ := (hsettles first List.mem_cons_self).settledAs
  have hoffset : field.offset = first.position.offset next := by
    rw [hfield.offset, place]
  refine ⟨field, hfield, hoffset, Positioned.pairs_cons hpair _, ?_⟩
  rw [hoffset]
  refine .cons_of_settledAs hfield width_eq place rfl ?_
  rw [Nat.zero_add, Nat.zero_max]
  exact joined.packed fun member hmem => hsettles member (List.mem_cons_of_mem _ hmem)

/-! ## The width of a unit -/

theorem Joined.group_eq {group used widest used' widest' : Nat} {predicted : Option Expr}
    {offset : Expr} {members : List Positioned}
    (h : Joined group predicted offset used widest members used' widest')
    {positioned : Positioned} (hmem : positioned ∈ members) {member : UnitMember}
    (hmember : positioned.placement.member = some member) : member.group = group := by
  induction h with
  | nil => cases hmem
  | cons _ _ _ place _ ih =>
    rcases List.mem_cons.1 hmem with rfl | hmem
    · rw [place] at hmember
      obtain rfl := Option.some.inj hmember
      rfl
    · exact ih hmem

theorem Joined.predicted_eq {group used widest used' widest' : Nat} {predicted : Option Expr}
    {offset : Expr} {members : List Positioned}
    (h : Joined group predicted offset used widest members used' widest') {field : Positioned}
    (hmem : field ∈ members) : field.placement.predicted = predicted := by
  induction h with
  | nil => cases hmem
  | cons _ _ _ place _ ih =>
    rcases List.mem_cons.1 hmem with rfl | hmem
    · rw [place]
    · exact ih hmem

theorem Joined.position_eq {group used widest used' widest' : Nat} {predicted : Option Expr}
    {offset : Expr} {members : List Positioned}
    (h : Joined group predicted offset used widest members used' widest') {field : Positioned}
    (hmem : field ∈ members) : field.position = .sequential := by
  induction h with
  | nil => cases hmem
  | cons _ sequential _ _ _ ih =>
    rcases List.mem_cons.1 hmem with rfl | hmem
    · exact sequential
    · exact ih hmem

theorem Laid.units_le_group {next : Option Expr} {units : Nat} {list : List Positioned}
    (h : Laid next units list) {positioned : Positioned} (hmem : positioned ∈ list)
    {member : UnitMember} (hmember : positioned.placement.member = some member) :
    units ≤ member.group := by
  induction h with
  | nil => cases hmem
  | single _ place _ _ ih =>
    rcases List.mem_cons.1 hmem with rfl | hmem
    · rw [place] at hmember
      cases hmember
    · exact ih hmem
  | unit _ place joined _ _ ih =>
    rcases List.mem_append.1 hmem with hmem | hmem
    · rcases List.mem_cons.1 hmem with rfl | hmem
      · rw [place] at hmember
        obtain rfl := Option.some.inj hmember
        exact Nat.le_refl _
      · exact Nat.le_of_eq (joined.group_eq hmem hmember).symm
    · exact Nat.le_of_succ_le (ih hmem)

theorem membersOf_append (a b : List Placement) (group : Nat) :
    membersOf (a ++ b) group = membersOf a group ++ membersOf b group := by
  simp only [membersOf, List.filterMap_append, List.filter_append]

theorem membersOf_eq_nil {placements : List Placement} {group : Nat}
    (h : ∀ placement ∈ placements, ∀ member, placement.member = some member →
      member.group ≠ group) :
    membersOf placements group = [] := by
  simp only [membersOf, List.filter_eq_nil_iff, decide_eq_true_eq]
  intro member hmember
  obtain ⟨placement, hmem, heq⟩ := List.mem_filterMap.1 hmember
  exact h placement hmem member heq

/-- A field that is not a bit-field widens no unit. -/
theorem unitWidth_cons {placement : Placement} (h : placement.member = none)
    (placements : List Placement) (group : Nat) :
    unitWidth (placement :: placements) group = unitWidth placements group := by
  simp [unitWidth, membersOf, h]

theorem Joined.foldl_typeWidth {group used widest used' widest' : Nat} {predicted : Option Expr}
    {offset : Expr} {members : List Positioned}
    (h : Joined group predicted offset used widest members used' widest') :
    (membersOf (members.map (·.placement)) group).foldl
      (fun width member => max width member.typeWidth) widest = widest' := by
  induction h with
  | nil => rfl
  | cons _ _ _ place _ ih =>
    rw [← ih]
    simp [membersOf, place]

/-- A unit is as wide as the widest integer among its members, whatever follows it. -/
theorem Joined.unitWidth_eq {next : Option Expr} {group used width widest : Nat}
    {predicted : Option Expr} {offset : Expr} {first : Positioned} {members rest : List Positioned}
    (hplace : first.placement = ⟨next, offset, some ⟨group, 0, width, first.typeWidth⟩⟩)
    (hjoined : Joined group predicted offset width first.typeWidth members used widest)
    (hrest : ∀ positioned ∈ rest, ∀ member, positioned.placement.member = some member →
      member.group ≠ group) :
    unitWidth ((first :: members ++ rest).map (·.placement)) group = widest := by
  have hfirst : membersOf [first.placement] group = [⟨group, 0, width, first.typeWidth⟩] := by
    simp [membersOf, hplace]
  rw [unitWidth, List.map_append, List.map_cons, ← List.singleton_append, membersOf_append,
    membersOf_append, membersOf_eq_nil (List.forall_mem_map.2 hrest), List.append_nil, hfirst,
    List.singleton_append, List.foldl_cons, Nat.zero_max]
  exact hjoined.foldl_typeWidth

/-- Other units are not affected by the members of one. -/
theorem Joined.unitWidth_of_ne {next : Option Expr} {group used width widest other : Nat}
    {predicted : Option Expr} {offset : Expr} {first : Positioned} {members rest : List Positioned}
    (hplace : first.placement = ⟨next, offset, some ⟨group, 0, width, first.typeWidth⟩⟩)
    (hjoined : Joined group predicted offset width first.typeWidth members used widest)
    (hne : group ≠ other) :
    unitWidth ((first :: members ++ rest).map (·.placement)) other =
      unitWidth (rest.map (·.placement)) other := by
  have hnil : membersOf ((first :: members).map (·.placement)) other = [] := by
    refine membersOf_eq_nil (List.forall_mem_map.2 fun positioned hmem member hmember => ?_)
    rcases List.mem_cons.1 hmem with rfl | hmem
    · rw [hplace] at hmember
      obtain rfl := Option.some.inj hmember
      exact hne
    · rw [hjoined.group_eq hmem hmember]
      exact hne
  rw [unitWidth, List.map_append, membersOf_append, hnil, List.nil_append]
  rfl

/-- The widths of all units in a list that begins with a unit are the width of that unit, and then
those of the rest. -/
theorem Laid.widths_behind_unit {widths : Nat → Nat} {next stop : Option Expr}
    {units used width widest : Nat} {predicted : Option Expr} {offset : Expr} {first : Positioned}
    {members rest : List Positioned} (hmore : Laid stop (units + 1) rest)
    (hplace : first.placement = ⟨next, offset, some ⟨units, 0, width, first.typeWidth⟩⟩)
    (hjoined : Joined units predicted offset width first.typeWidth members used widest)
    (hwidths : ∀ group, units ≤ group →
      widths group = unitWidth ((first :: members ++ rest).map (·.placement)) group) :
    widths units = widest ∧ ∀ group, units + 1 ≤ group →
      widths group = unitWidth (rest.map (·.placement)) group := by
  constructor
  · rw [hwidths units (Nat.le_refl _)]
    refine hjoined.unitWidth_eq hplace fun positioned hmem member hmember => ?_
    exact Nat.ne_of_gt (hmore.units_le_group hmem hmember)
  · intro group hgroup
    rw [hwidths group (Nat.le_of_succ_le hgroup)]
    exact hjoined.unitWidth_of_ne hplace (Nat.ne_of_lt hgroup)

/-! ## The bits of a unit -/

theorem unitMembers_append (a b : List PlannedField) (group : Nat) :
    unitMembers (a ++ b) group = unitMembers a group ++ unitMembers b group :=
  List.filterMap_append

theorem unitMembers_eq_nil_iff {fields : List PlannedField} {group : Nat} :
    unitMembers fields group = [] ↔
      ∀ field ∈ fields, ∀ slot, field.slot? = some slot → slot.group ≠ group := by
  refine List.filterMap_eq_nil_iff.trans (forall₂_congr fun field _ => ?_)
  cases field.slot? with
  | none => simp
  | some slot => simp

theorem unitMembers_eq_nil {fields : List PlannedField} {group : Nat}
    (h : ∀ field ∈ fields, ∀ slot, field.slot? = some slot → slot.group ≠ group) :
    unitMembers fields group = [] :=
  unitMembers_eq_nil_iff.2 h

theorem unitMembers_cons {field : PlannedField} {slot : BitSlot} (fields : List PlannedField)
    (h : field.slot? = some slot) :
    unitMembers (field :: fields) slot.group =
      (field, slot) :: unitMembers fields slot.group := by
  simp [unitMembers, h]

namespace Packed

variable {group unit used widest used' widest' : Nat} {offset : Expr} {pairs : List Pair}

theorem group_eq (h : Packed group offset unit used widest pairs used' widest')
    {pair : Pair} (hmem : pair ∈ pairs) {slot : BitSlot} (hslot : pair.2.slot? = some slot) :
    slot.group = group := by
  induction h with
  | nil => cases hmem
  | cons _ _ _ _ _ _ slot_eq _ ih =>
    rcases List.mem_cons.1 hmem with rfl | hmem
    · obtain rfl := Option.some.inj (slot_eq.symm.trans hslot)
      rfl
    · exact ih hmem

/-- The members use up the bits between those used before and those used in the end. -/
theorem foldl_width (h : Packed group offset unit used widest pairs used' widest') :
    (unitMembers (pairs.map (·.2)) group).foldl (fun bits member => bits + member.2.width) used =
      used' := by
  induction h with
  | nil => rfl
  | cons _ _ _ _ _ _ slot_eq _ ih =>
    rw [List.map_cons, unitMembers_cons _ slot_eq]
    exact ih

end Packed

theorem Arranged.units_le_group {next : Expr} {units : Nat} {pairs : List Pair}
    (h : Arranged policy next units pairs) {pair : Pair} (hmem : pair ∈ pairs) {slot : BitSlot}
    (hslot : pair.2.slot? = some slot) : units ≤ slot.group := by
  induction h with
  | nil => cases hmem
  | single _ slot_eq _ _ _ _ _ _ ih =>
    rcases List.mem_cons.1 hmem with rfl | hmem
    · rw [slot_eq] at hslot
      cases hslot
    · exact ih hmem
  | unit _ _ packed _ _ ih =>
    rcases List.mem_append.1 hmem with hmem | hmem
    · exact Nat.le_of_eq (packed.group_eq hmem hslot).symm
    · exact Nat.le_of_succ_le (ih hmem)

/-- Nothing is reported about a unit that holds its members. -/
theorem Packed.overflowDiagnostic?_eq_none_iff {group unit used widest : Nat} {offset : Expr}
    {first : Pair} {members : List Pair} {rest : List PlannedField}
    (h : Packed group offset unit 0 0 (first :: members) used widest)
    (hrest : ∀ field ∈ rest, ∀ slot, field.slot? = some slot → slot.group ≠ group) :
    overflowDiagnostic? (unitMembers ((first :: members).map (·.2) ++ rest) group) = none ↔
      used ≤ 8 * unit := by
  rw [unitMembers_append, unitMembers_eq_nil hrest, List.append_nil]
  have hsum := h.foldl_width
  cases h with
  | cons _ _ _ _ _ _ slot _ =>
    rw [List.map_cons, unitMembers_cons _ slot] at hsum ⊢
    simp only [overflowDiagnostic?, List.head?_cons, List.getLast?_cons]
    rw [← hsum]
    simp

/-! ## Lists of known sizes -/

/-- A placed list in which every field has a size, so that every offset is known too, and the units
have the widths `widths`. -/
inductive Spread (widths : Nat → Nat) : (next : Expr) → (units : Nat) → List Positioned → Prop
  | nil (next : Expr) (units : Nat) : Spread widths next units []
  /-- a field that is not a bit-field -/
  | single {next : Expr} {units : Nat} {field : Positioned} {rest : List Positioned} {size : Size}
      (sized : field.field.sized.size = some size)
      (bytes : size.bitWidth? = none)
      (place : field.placement = ⟨some next, field.position.offset next, none⟩)
      (last : field.isLast = rest.isEmpty)
      (more : Spread widths ((field.position.offset next).plus
        (size.expr field.field.decl.name (field.position.offset next) none)) units rest) :
      Spread widths next units (field :: rest)
  /-- all bit-fields of a unit -/
  | unit {next : Expr} {units width used : Nat} {first : Positioned}
      {members rest : List Positioned}
      (width_eq : first.bitWidth? = some width)
      (place : first.placement = ⟨some next, first.position.offset next,
        some ⟨units, 0, width, first.typeWidth⟩⟩)
      (joined : Joined units (some (first.position.offset next)) (first.position.offset next) width
        first.typeWidth members used (widths units))
      (closed : 8 * widths units ≤ used ∨
        ∀ field, rest.head? = some field → field.field.sized.continues = false)
      (more : Spread widths ((first.position.offset next).plusConstant (widths units)) (units + 1)
        rest) :
      Spread widths next units (first :: members ++ rest)

theorem Laid.spread {next : Option Expr} {units : Nat} {list : List Positioned}
    (h : Laid next units list) {start : Expr} (hnext : next = some start)
    (hsized : ∀ positioned ∈ list, ∃ size, positioned.field.sized.size = some size)
    (hwidths : ∀ group, units ≤ group →
      widths group = unitWidth (list.map (·.placement)) group) :
    Spread widths start units list := by
  -- the widths are those of the whole list; what is left of it sees its own units only
  induction h generalizing start with
  | nil => exact .nil _ _
  | @single next units positioned rest width_eq place last more ih =>
    subst hnext
    obtain ⟨size, hsize⟩ := hsized positioned List.mem_cons_self
    have hbytes : size.bitWidth? = none := by
      rwa [Positioned.bitWidth?, Sized.bitWidth?, hsize] at width_eq
    refine .single hsize hbytes place last (ih ?_ ?_ ?_)
    · simp [Positioned.stopFrom, Positioned.isAnchored, hsize, Positioned.offsetFrom]
    · exact fun other hother => hsized other (List.mem_cons_of_mem _ hother)
    · intro group hgroup
      rw [hwidths group hgroup, List.map_cons, unitWidth_cons (by rw [place])]
  | @unit next units width used widest first members rest width_eq place joined closed more ih =>
    subst hnext
    -- the width with which the slots are made is the one that the last member leaves behind
    obtain ⟨rfl, hrest⟩ := more.widths_behind_unit place joined hwidths
    refine .unit width_eq place joined closed (ih ?_ ?_ hrest)
    · simp [Positioned.isAnchored, Positioned.offsetFrom]
    · exact fun other hother => hsized other (List.mem_append_right _ hother)

theorem Prepared.spread_positioned {fields : List Prepared}
    (hsized : ∀ positioned ∈ Prepared.positioned fields,
      ∃ size, positioned.field.sized.size = some size) :
    Spread (unitWidth (Prepared.placements fields)) .zero 0 (Prepared.positioned fields) := by
  refine (Prepared.laid_positioned fields).spread rfl hsized fun group _ => ?_
  rw [Prepared.map_placement_positioned]

/-! ## Accepted lists -/

theorem Spread.arranged {next : Expr} {units : Nat} {list : List Positioned}
    (h : Spread widths next units list)
    (hsettles : ∀ positioned ∈ list, Settles policy readOnly widths positioned)
    (hunits : ∀ group, units ≤ group → group < units + list.length →
      overflowDiagnostic? (unitMembers
        ((list.filterMap (·.pair? readOnly widths)).map (·.2)) group) = none) :
    Arranged policy next units (list.filterMap (·.pair? readOnly widths)) := by
  induction h with
  | nil => exact .nil _ _
  | @single next units positioned rest size sized bytes place last more ih =>
    obtain ⟨field, hpair, hfield⟩ := (hsettles positioned List.mem_cons_self).settledAs
    obtain rfl := Option.some.inj (sized.symm.trans hfield.sized)
    have hbits : positioned.field.decl.bits = none := hfield.source.bitWidth?.symm.trans bytes
    have hoffset : field.offset = positioned.position.offset next := by
      rw [hfield.offset, place]
    have hsizeExpr : field.sizeExpr =
        field.size.expr positioned.field.decl.name field.offset none := by
      rw [hfield.sizeExpr, hfield.offset, Size.expr_of_bitWidth?_eq_none bytes]
    have hslot : field.slot? = none := by
      rw [hfield.slot, hbits]
      rfl
    rw [Positioned.pairs_cons hpair] at hunits ⊢
    rw [← hoffset, ← hsizeExpr] at ih
    refine .single hbits hslot hfield.source hsizeExpr hoffset ?_ ?_ (ih ?_ ?_)
    · exact fun hpolicy => hfield.agrees hpolicy next (by rw [place])
    · intro hremainder
      have hempty : rest.isEmpty = true := last ▸ hfield.last hremainder
      rw [List.isEmpty_iff.1 hempty]
      rfl
    · exact fun other hother => hsettles other (List.mem_cons_of_mem _ hother)
    · intro group hgroup hlt
      have hreport := hunits group hgroup (by rw [List.length_cons]; omega)
      rw [List.map_cons] at hreport
      rwa [unitMembers, List.filterMap_cons, hslot] at hreport
  | @unit next units width used first members rest width_eq place joined closed more ih =>
    obtain ⟨field, hfield, hoffset, hpairs, hpacked⟩ := Joined.packed_unit width_eq place
      joined fun member hmem => hsettles member (List.mem_append_left _ hmem)
    rw [List.filterMap_append, hpairs] at hunits ⊢
    rw [← hoffset] at ih
    have hmore : Arranged policy (field.offset.plusConstant (widths units)) (units + 1)
        (rest.filterMap (·.pair? readOnly widths)) := by
      refine ih (fun other hother => hsettles other (List.mem_append_right _ hother)) ?_
      intro group hgroup hlt
      have hreport := hunits group (by omega) (by
        rw [List.length_append, List.length_cons]
        omega)
      rw [List.map_append, unitMembers_append, unitMembers_eq_nil, List.nil_append] at hreport
      · exact hreport
      · intro other hother slot hslot
        obtain ⟨pair, hmem, rfl⟩ := List.mem_map.1 hother
        rw [hpacked.group_eq hmem hslot]
        omega
    refine .unit hoffset ?_ hpacked ?_ hmore
    · exact fun hpolicy => hfield.agrees hpolicy next (by rw [place])
    · -- all members of the unit stand here, so the report about it counts just their bits
      have hreport := hunits units (Nat.le_refl _) (by
        rw [List.length_append, List.length_cons]
        omega)
      rw [List.map_append] at hreport
      refine (hpacked.overflowDiagnostic?_eq_none_iff ?_).1 hreport
      intro other hother slot hslot
      obtain ⟨pair, hmem, rfl⟩ := List.mem_map.1 hother
      have := hmore.units_le_group hmem hslot
      omega

theorem Accepted.settles {fields : List Prepared} (h : Accepted policy readOnly fields)
    (hexplains : ∀ field ∈ fields, field.Explains) {positioned : Positioned}
    (hmem : positioned ∈ Prepared.positioned fields) :
    Settles policy readOnly (unitWidth (Prepared.placements fields)) positioned := by
  have hentry : ∀ entry, (positioned.settle readOnly
      (unitWidth (Prepared.placements fields))).entry = some entry →
        entry ∈ Prepared.entries readOnly fields := by
    intro entry hentry
    exact List.mem_filterMap.2 ⟨_, List.mem_map_of_mem hmem, hentry⟩
  refine ⟨hexplains _ ?_, h.settled positioned hmem, ?_, ?_⟩
  · rw [← Prepared.map_field_positioned fields]
    exact List.mem_map.2 ⟨positioned, hmem, rfl⟩
  · exact fun hpolicy entry hsome => h.agreeing hpolicy entry (hentry entry hsome)
  · exact fun entry hsome => h.remainders entry (hentry entry hsome)

theorem Positioned.pairs_eq_zip {list : List Positioned}
    (h : ∀ positioned ∈ list, Settles policy readOnly widths positioned) :
    list.filterMap (·.pair? readOnly widths) =
      (list.map (·.field.decl)).zip
        ((list.filterMap fun positioned => (positioned.settle readOnly widths).entry).map
          (·.field)) := by
  induction list with
  | nil => rfl
  | cons positioned list ih =>
    obtain ⟨field, hpair, -⟩ := (h positioned List.mem_cons_self).settledAs
    rw [Positioned.pairs_cons hpair, ih fun other hother => h other (List.mem_cons_of_mem _ hother)]
    obtain ⟨entry, hentry, heq⟩ := Option.map_eq_some_iff.1 hpair
    obtain rfl := (Prod.mk.inj heq).2
    rw [List.filterMap_cons, hentry]
    rfl

/-- The fields of a plan are those of the places that have an entry. -/
theorem Prepared.planned_eq (readOnly : Bool) (fields : List Prepared) :
    Prepared.planned readOnly fields = ((Prepared.positioned fields).filterMap
      (·.pair? readOnly (unitWidth (Prepared.placements fields)))).map (·.2) := by
  rw [Prepared.planned, Prepared.entries, Prepared.settled, List.filterMap_map, List.map_filterMap,
    List.map_filterMap]
  refine List.filterMap_congr fun positioned _ => ?_
  rw [Positioned.pair?, Option.map_map]
  rfl

/-- The fields of a plan beside the declarations they come from. -/
def Prepared.pairs (readOnly : Bool) (fields : List Prepared) : List Pair :=
  (fields.map (·.decl)).zip (Prepared.planned readOnly fields)

/-- The plan of an accepted list is arranged from offset zero on. -/
theorem Accepted.arranged {fields : List Prepared} (h : Accepted policy readOnly fields)
    (hexplains : ∀ field ∈ fields, field.Explains) :
    Arranged policy .zero 0 (Prepared.pairs readOnly fields) := by
  have hsettles : ∀ positioned ∈ Prepared.positioned fields,
      Settles policy readOnly (unitWidth (Prepared.placements fields)) positioned :=
    fun _ hmem => h.settles hexplains hmem
  have hpairs : Prepared.pairs readOnly fields = (Prepared.positioned fields).filterMap
      (·.pair? readOnly (unitWidth (Prepared.placements fields))) := by
    rw [Positioned.pairs_eq_zip hsettles, Prepared.pairs, Prepared.planned, Prepared.entries,
      Prepared.settled, List.filterMap_map]
    conv =>
      lhs
      arg 1
      rw [← Prepared.map_field_positioned fields, List.map_map]
    rfl
  have hspread : Spread (unitWidth (Prepared.placements fields)) .zero 0
      (Prepared.positioned fields) := by
    refine Prepared.spread_positioned fun positioned hmem => ?_
    obtain ⟨field, -, hfield⟩ := (hsettles positioned hmem).settledAs
    exact ⟨field.size, hfield.sized⟩
  rw [hpairs]
  refine hspread.arranged hsettles fun group _ hlt => ?_
  -- there are no more units than fields, so every unit has been checked
  rw [Prepared.length_positioned, Nat.zero_add] at hlt
  rw [← Prepared.planned_eq]
  exact List.filterMap_eq_nil_iff.1 h.units group (List.mem_range.2 hlt)

end PacketLayout
