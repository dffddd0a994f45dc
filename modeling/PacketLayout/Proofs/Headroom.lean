import Mathlib.Algebra.Order.BigOperators.Group.List
import Mathlib.Algebra.Order.Group.Nat
import PacketLayout.Proofs.Acceptability
import PacketLayout.Proofs.Faults

/-!
# Schemas with headroom

While a schema is resolved, offsets and sizes are added up, and every sum has to be a 64-bit number.
The declarations tell in advance that none becomes too large: it is enough that the largest explicit
position and all sizes that are known, taken together, are below the limit.

* `demand` is this number for a field list, and `HasHeadroom` says that it is below the limit here
  and in every alternate.
* `Laid.constant_le` is the invariant: no offset in a placed list passes the demand with what is
  still to come.
* `Schema.sums_lt_wordLimit` says that all sums are in range, whether the schema is resolved or
  refused.
-/

namespace PacketLayout

/-! ## What declarations demand -/

/-- The bytes by which a field can move the offset behind it: its size, where that is known, and for
a bit-field the widest unit. -/
def Sized.reserve (field : Sized) : Nat :=
  match field.size with
  | some size => if size.bitWidth?.isSome then 8 else size.fixed.getD 0
  | none => 0

/-- The explicit offset, or zero. -/
def Position.literalOrZero : Position → Nat
  | literal offset => offset
  | sequential | computed _ => 0

/-- The largest explicit offset, or zero. -/
def largestLiteral (fields : List Sized) : Nat :=
  (fields.map (·.decl.position.literalOrZero)).foldl max 0

/-- The bytes of all fields. -/
def reserved (fields : List Sized) : Nat := (fields.map (·.reserve)).sum

/-- All fields in a row behind the largest explicit offset. -/
def demand (fields : List Sized) : Nat := largestLiteral fields + reserved fields

/-- The demand of a field list is a 64-bit number, and so is that of every list below it. -/
inductive HasHeadroom : List Field → Prop
  | intro {fields : List Field}
      (room : demand (fields.map (·.sized)) < wordLimit)
      (below : ∀ field ∈ fields, ∀ alternates, field.alternates? = some alternates →
        ∀ alternate ∈ alternates, HasHeadroom alternate.fields) :
      HasHeadroom fields

/-- The schema itself, or that of an alternate somewhere below it. -/
inductive Schema.Encloses : Schema → Schema → Prop
  | refl (schema : Schema) : Encloses schema schema
  | inner {schema part : Schema} {field : Field} {alternates : List Alternate}
      {alternate : Alternate} (hfield : field ∈ schema.fields)
      (halternates : field.alternates? = some alternates) (hmem : alternate ∈ alternates)
      (hpart : Encloses (schema.below field alternate) part) : Encloses schema part

/-- Every sum that is formed for the field list of a schema is a 64-bit number, whatever becomes of
the list. -/
structure Schema.SumsInRange (schema : Schema) (policy : MismatchPolicy) : Prop where
  /-- where the fields before end, which is also what a computed position starts from -/
  predicted : ∀ positioned ∈ schema.placed policy, ∀ implied,
    positioned.placement.predicted = some implied → implied.constant < wordLimit
  offset : ∀ positioned ∈ schema.placed policy, positioned.placement.offset.constant < wordLimit
  /-- where a field of a known size ends, and a bit-field its unit -/
  stop : ∀ positioned ∈ schema.placed policy, ∀ size, positioned.field.size = .ok size →
    (positioned.placement.offset.plus
      (positioned.layout (schema.widths policy) size).sizeExpr).constant < wordLimit
  /-- the total size, after each field that counts -/
  total : ∀ front,
    front <+: counted (Prepared.planned schema.readOnly (schema.prepared policy)) →
    (front.foldl (fun total field => total.plus field.sizeExpr) Expr.zero).constant < wordLimit
  staticEnd : ∀ field ∈ Prepared.planned schema.readOnly (schema.prepared policy), ∀ stop,
    field.staticEnd? = some stop → stop < wordLimit
  minimum : minimumSize (Prepared.planned schema.readOnly (schema.prepared policy)) < wordLimit

/-! ## Widths of units -/

theorem Sized.typeWidth_le (field : Sized) : field.typeWidth ≤ 8 := by
  rw [typeWidth]
  cases field.decl.kind? with
  | none => decide
  | some kind => exact kind.width_le

theorem Frontier.typeWidth_of_place {frontier : Frontier} {field : Sized} {member : UnitMember}
    (h : (frontier.place field).1.member = some member) :
    member.typeWidth = field.typeWidth := by
  unfold place at h
  split at h
  · obtain rfl := Option.some.inj h
    rfl
  · unfold start at h
    split at h
    · obtain rfl := Option.some.inj h
      rfl
    · cases h

theorem Frontier.typeWidth_of_mem_placeAll {frontier : Frontier} {fields : List Sized}
    {placement : Placement} (hmem : placement ∈ frontier.placeAll fields) {member : UnitMember}
    (hmember : placement.member = some member) : member.typeWidth ≤ 8 := by
  induction fields generalizing frontier with
  | nil => cases hmem
  | cons field fields ih =>
    rw [placeAll] at hmem
    rcases List.mem_cons.1 hmem with rfl | hmem
    · rw [Frontier.typeWidth_of_place hmember]
      exact field.typeWidth_le
    · exact ih hmem

/-- No unit is wider than the widest integer. -/
theorem Frontier.unitWidth_placeAll_le (frontier : Frontier) (fields : List Sized) (group : Nat) :
    unitWidth (frontier.placeAll fields) group ≤ 8 := by
  rw [unitWidth, ← List.foldl_map]
  refine foldl_max_le (Nat.zero_le _) fun width hwidth => ?_
  obtain ⟨member, hmember, rfl⟩ := List.mem_map.1 hwidth
  obtain ⟨placement, hplacement, hsome⟩ :=
    List.mem_filterMap.1 (List.mem_filter.1 hmember).1
  exact typeWidth_of_mem_placeAll hplacement hsome

theorem Joined.widest_le {group used widest used' widest' : Nat} {predicted : Option Expr}
    {offset : Expr} {members : List Positioned}
    (h : Joined group predicted offset used widest members used' widest') (hwidest : widest ≤ 8) :
    widest' ≤ 8 := by
  induction h with
  | nil => exact hwidest
  | cons _ _ _ _ _ ih => exact ih (Nat.max_le.2 ⟨hwidest, Sized.typeWidth_le _⟩)

/-! ## Sizes -/

namespace Positioned

variable {positioned : Positioned} {size : Size} {widths : Nat → Nat}

theorem reserve_of_size (hsize : positioned.field.size = .ok size) :
    positioned.field.sized.reserve =
      if size.bitWidth?.isSome then 8 else size.fixed.getD 0 := by
  have hsized : positioned.field.sized.size = some size := congrArg Except.toOption hsize
  rw [Sized.reserve, hsized]

/-- A field spans no more bytes than are reserved for it. -/
theorem constant_sizeExpr_le (hsize : positioned.field.size = .ok size)
    (hwidths : ∀ group, widths group ≤ 8) :
    (positioned.layout widths size).sizeExpr.constant ≤ positioned.field.sized.reserve := by
  rw [reserve_of_size hsize]
  cases hbits : size.bitWidth? with
  | none => exact Nat.le_of_eq (Size.constant_expr hbits _ _ _)
  | some width =>
    cases size with
    | constant | intrinsic | external | computed | remainder => cases hbits
    | bitWidth =>
      change ((positioned.slot widths).map (·.unit)).getD 0 ≤ 8
      rw [Positioned.slot]
      cases positioned.placement.member with
      | none => exact Nat.zero_le _
      | some member => exact hwidths member.group

end Positioned

theorem reserved_cons (field : Sized) (fields : List Sized) :
    reserved (field :: fields) = field.reserve + reserved fields := by
  rw [reserved, List.map_cons, List.sum_cons, reserved]

theorem reserved_append (fields rest : List Sized) :
    reserved (fields ++ rest) = reserved fields + reserved rest := by
  rw [reserved, List.map_append, List.sum_append, reserved, reserved]

theorem reserve_le_reserved {field : Sized} {fields : List Sized} (h : field ∈ fields) :
    field.reserve ≤ reserved fields :=
  List.le_sum_of_mem (List.mem_map_of_mem h)

/-! ## Offsets -/

/-- An offset, and the bytes that are still to come behind it, stay below a limit. -/
structure WithinLimit (limit : Nat) (next : Option Expr) (list : List Positioned) : Prop where
  implied : ∀ implied, next = some implied →
    implied.constant + reserved (list.map (·.field.sized)) ≤ limit
  literal : ∀ positioned ∈ list, ∀ offset, positioned.position = .literal offset →
    offset + reserved (list.map (·.field.sized)) ≤ limit
  bytes : reserved (list.map (·.field.sized)) ≤ limit

namespace WithinLimit

variable {limit : Nat} {next : Option Expr} {first : Positioned} {members rest : List Positioned}

/-- Where the first field starts, there is room for it and for all that follow. -/
theorem offsetFrom_le (h : WithinLimit limit next (first :: rest)) :
    (first.offsetFrom next).constant + reserved ((first :: rest).map (·.field.sized)) ≤ limit := by
  unfold Positioned.offsetFrom
  cases hposition : first.position with
  | literal offset => exact h.literal first List.mem_cons_self offset hposition
  | computed function => exact (Nat.zero_add _).trans_le h.bytes
  | sequential =>
    cases next with
    | none => exact (Nat.zero_add _).trans_le h.bytes
    | some implied => exact h.implied implied rfl

/-- Behind some of the fields there is room for the others. -/
theorem advance (h : WithinLimit limit next (first :: members ++ rest)) {behind : Option Expr}
    (hbehind : ∀ implied, behind = some implied → implied.constant ≤
      (first.offsetFrom next).constant + reserved ((first :: members).map (·.field.sized))) :
    WithinLimit limit behind rest := by
  have hsum : reserved ((first :: members ++ rest).map (·.field.sized)) =
      reserved ((first :: members).map (·.field.sized)) +
        reserved (rest.map (·.field.sized)) := by
    rw [List.map_append, reserved_append]
  have hbytes := h.bytes
  refine ⟨fun implied himplied => ?_, fun positioned hmem offset hposition => ?_, by omega⟩
  · have hoffset : (first.offsetFrom next).constant +
        reserved ((first :: members ++ rest).map (·.field.sized)) ≤ limit := h.offsetFrom_le
    have := hbehind implied himplied
    omega
  · have := h.literal positioned (List.mem_append_right _ hmem) offset hposition
    omega

end WithinLimit

/-- Behind a field that is not a bit-field the offset has grown by the bytes that are reserved. -/
theorem Positioned.constant_stopFrom_le {positioned : Positioned} {next : Option Expr}
    (h : positioned.bitWidth? = none) {stop : Expr} (hstop : positioned.stopFrom next = some stop) :
    stop.constant ≤ (positioned.offsetFrom next).constant + positioned.field.sized.reserve := by
  unfold stopFrom at hstop
  split at hstop
  · obtain ⟨size, hsize, rfl⟩ := Option.map_eq_some_iff.1 hstop
    have hbits : size.bitWidth? = none := by
      rwa [bitWidth?, Sized.bitWidth?, hsize] at h
    rw [Expr.constant_plus, Size.constant_expr hbits, Sized.reserve, hsize]
    simp [hbits]
  · cases hstop

/-- The widest unit is reserved for every bit-field. -/
theorem Positioned.reserve_of_bitWidth? {positioned : Positioned} {width : Nat}
    (h : positioned.bitWidth? = some width) : positioned.field.sized.reserve = 8 := by
  obtain ⟨size, hsize, hbits⟩ := Option.bind_eq_some_iff.1 h
  rw [Sized.reserve, hsize]
  simp [hbits]

/-- Neither the offset that is implied for a field nor the one that it has, with its bytes behind
it, passes the limit. -/
theorem Laid.constant_le {next : Option Expr} {units limit : Nat} {list : List Positioned}
    (h : Laid next units list) (hlimit : WithinLimit limit next list) :
    ∀ positioned ∈ list,
      (∀ implied, positioned.placement.predicted = some implied → implied.constant ≤ limit) ∧
        positioned.placement.offset.constant + positioned.field.sized.reserve ≤ limit := by
  induction h with
  | nil => exact fun _ hmem => absurd hmem List.not_mem_nil
  | @single next units first rest width_eq place last more ih =>
    have hfirst := hlimit.offsetFrom_le
    rw [List.map_cons, reserved_cons] at hfirst
    intro positioned hmem
    rcases List.mem_cons.1 hmem with rfl | hmem
    · rw [place]
      exact ⟨fun implied himplied => Nat.le_of_add_right_le (hlimit.implied implied himplied),
        by simp only; omega⟩
    · have hsingle : WithinLimit limit next (first :: [] ++ rest) := hlimit
      refine ih (hsingle.advance fun implied himplied => ?_) positioned hmem
      exact Positioned.constant_stopFrom_le width_eq himplied
  | @unit next units width used widest first members rest width_eq place joined closed more ih =>
    have hfirst : (first.offsetFrom next).constant +
        reserved ((first :: members ++ rest).map (·.field.sized)) ≤ limit := hlimit.offsetFrom_le
    have hreserve := first.reserve_of_bitWidth? width_eq
    intro positioned hmem
    rcases List.mem_append.1 hmem with hunit | hmem
    · -- all members share the offset of the first one
      have hbytes := reserve_le_reserved
        (List.mem_map_of_mem (f := (·.field.sized)) (List.mem_append_left rest hunit))
      rcases List.mem_cons.1 hunit with rfl | hjoins
      · rw [place]
        exact ⟨fun implied himplied => Nat.le_of_add_right_le (hlimit.implied implied himplied),
          by simp only; omega⟩
      · obtain ⟨_, _, -, hoffset, -, -⟩ := joined.exists_member hjoins
        rw [joined.predicted_eq hjoins, hoffset]
        refine ⟨fun implied himplied => ?_, by omega⟩
        split at himplied
        · obtain rfl := Option.some.inj himplied
          omega
        · cases himplied
    · refine ih (hlimit.advance fun implied himplied => ?_) positioned hmem
      split at himplied
      · obtain rfl := Option.some.inj himplied
        have hwidest := joined.widest_le first.field.sized.typeWidth_le
        rw [List.map_cons, reserved_cons, hreserve, Expr.constant_plusConstant]
        omega
      · cases himplied

/-! ## Field lists -/

theorem le_largestLiteral {field : Sized} {fields : List Sized} (hmem : field ∈ fields)
    {offset : Nat} (h : field.decl.position = .literal offset) :
    offset ≤ largestLiteral fields := by
  refine (le_foldl_max _ 0).2 offset ?_
  refine List.mem_map.2 ⟨field, hmem, ?_⟩
  rw [h]
  rfl

/-- From offset zero on the demand is a limit. -/
theorem WithinLimit.of_demand (list : List Positioned) :
    WithinLimit (demand (list.map (·.field.sized))) (some .zero) list where
  implied := by
    rintro _ ⟨⟩
    exact (Nat.zero_add _).trans_le (Nat.le_add_left _ _)
  literal positioned hmem offset hposition :=
    Nat.add_le_add_right (le_largestLiteral (List.mem_map_of_mem hmem) hposition) _
  bytes := Nat.le_add_left _ _

section

variable {readOnly : Bool} {widths : Nat → Nat} (hwidths : ∀ group, widths group ≤ 8)
include hwidths

/-- A planned field stands where it was placed, and has no more bytes than are reserved for it. -/
theorem Positioned.reserves_of_planned? {positioned : Positioned} {field : PlannedField}
    (h : positioned.planned? readOnly widths = some field) :
    field.offset = positioned.placement.offset ∧
      field.sizeExpr.constant ≤ positioned.field.sized.reserve ∧
      ∀ extent, field.extent? = some extent → extent ≤ positioned.field.sized.reserve := by
  obtain ⟨entry, hentry, rfl⟩ := Option.map_eq_some_iff.1 h
  have hslot := Positioned.slot?_of_entry hentry
  obtain ⟨size, shape, hsize, rfl⟩ := Positioned.entry_eq hentry
  refine ⟨rfl, constant_sizeExpr_le hsize hwidths, fun extent hextent => ?_⟩
  have hreserve := reserve_of_size hsize
  rw [PlannedField.extent?, hslot] at hextent
  have hextent := Option.orElse_eq_or.symm.trans hextent
  rcases Option.or_eq_some_iff.1 hextent with hfixed | ⟨-, hunit⟩
  · -- a size in bytes is reserved as it is
    change size.fixed = some extent at hfixed
    cases hbits : size.bitWidth? with
    | none => simp [hreserve, hbits, hfixed]
    | some width =>
      rw [Size.fixed_of_bitWidth? hbits] at hfixed
      cases hfixed
  · obtain ⟨slot, hslot, rfl⟩ := Option.map_eq_some_iff.1 hunit
    split at hslot
    · rename_i hbits
      obtain ⟨width, hbits⟩ := Option.isSome_iff_exists.1 hbits
      obtain ⟨member, -, rfl⟩ := Option.map_eq_some_iff.1 hslot
      rw [reserve_of_bitWidth? hbits]
      exact hwidths member.group
    · cases hslot

theorem sum_planned_le (list : List Positioned) :
    ((list.filterMap (·.planned? readOnly widths)).map (·.sizeExpr.constant)).sum ≤
      reserved (list.map (·.field.sized)) := by
  induction list with
  | nil => exact Nat.le_refl _
  | cons positioned list ih =>
    rw [List.map_cons, reserved_cons, List.filterMap_cons]
    split
    · exact Nat.le_add_left_of_le ih
    · rename_i field hfield
      rw [List.map_cons, List.sum_cons]
      exact Nat.add_le_add (Positioned.reserves_of_planned? hwidths hfield).2.1 ih

end

namespace Schema

variable {schema : Schema} {policy : MismatchPolicy}

theorem widths_le (schema : Schema) (policy : MismatchPolicy) (group : Nat) :
    schema.widths policy group ≤ 8 :=
  Frontier.unitWidth_placeAll_le _ _ group

/-- No sum that is formed for a field list passes its demand. -/
theorem sumsInRange_of_demand (h : demand (schema.fields.map (·.sized)) < wordLimit)
    (policy : MismatchPolicy) : schema.SumsInRange policy := by
  rw [← schema.map_sized_placed policy] at h
  have hlaid : Laid (some .zero) 0 (schema.placed policy) :=
    Prepared.laid_positioned (schema.prepared policy)
  have hplaces := hlaid.constant_le (.of_demand _)
  have hend : ∀ field ∈ Prepared.planned schema.readOnly (schema.prepared policy), ∀ stop,
      field.staticEnd? = some stop → stop < wordLimit := by
    intro field hmem stop hstop
    rw [planned_eq_filterMap] at hmem
    obtain ⟨positioned, hpositioned, hplanned⟩ := List.mem_filterMap.1 hmem
    obtain ⟨hoffset, -, hextent⟩ :=
      Positioned.reserves_of_planned? (schema.widths_le policy) hplanned
    rw [PlannedField.staticEnd?_eq, Option.bind_eq_some_iff] at hstop
    obtain ⟨start, hstart, hstop⟩ := hstop
    obtain ⟨extent, hsome, rfl⟩ := Option.map_eq_some_iff.1 hstop
    have hconstant : positioned.placement.offset.constant = start := by
      rw [← hoffset, Expr.static?_eq_some_iff.1 hstart]
      rfl
    have hplace := (hplaces positioned hpositioned).2
    have := hextent extent hsome
    omega
  have htotal : ∀ front,
      front <+: counted (Prepared.planned schema.readOnly (schema.prepared policy)) →
      (front.foldl (fun total field => total.plus field.sizeExpr) Expr.zero).constant <
        wordLimit := by
    intro front hfront
    have hsublist := hfront.sublist.trans (countedFrom_sublist [] _)
    have hsum := (hsublist.map (·.sizeExpr.constant)).sum_le_sum fun _ _ => Nat.zero_le _
    have hplanned : ((Prepared.planned schema.readOnly (schema.prepared policy)).map
        (·.sizeExpr.constant)).sum ≤ reserved ((schema.placed policy).map (·.field.sized)) := by
      rw [planned_eq_filterMap]
      exact sum_planned_le (schema.widths_le policy) _
    have hdemand : reserved ((schema.placed policy).map (·.field.sized)) ≤
        demand ((schema.placed policy).map (·.field.sized)) := Nat.le_add_left _ _
    rw [Expr.constant_foldl_plus, Expr.constant_zero]
    omega
  exact {
    predicted := fun positioned hmem implied himplied =>
      Nat.lt_of_le_of_lt ((hplaces positioned hmem).1 implied himplied) h
    offset := fun positioned hmem =>
      Nat.lt_of_le_of_lt (Nat.le_of_add_right_le (hplaces positioned hmem).2) h
    stop := by
      intro positioned hmem size hsize
      have hbytes := Positioned.constant_sizeExpr_le hsize (schema.widths_le policy)
      have hplace := (hplaces positioned hmem).2
      rw [Expr.constant_plus]
      omega
    total := htotal
    staticEnd := hend
    minimum := by
      refine max_lt ((Prepared.knownSum_planned _ _).trans_lt (htotal _ (List.prefix_refl _))) ?_
      have hfurthest : furthestEnd (Prepared.planned schema.readOnly (schema.prepared policy)) ≤
          wordLimit - 1 := by
        refine foldl_max_le (Nat.zero_le _) fun stop hstop => ?_
        obtain ⟨field, hfield, hsome⟩ := List.mem_filterMap.1 hstop
        exact Nat.le_sub_one_of_lt (hend field hfield stop hsome)
      exact Nat.lt_of_le_of_lt hfurthest (by decide) }

end Schema

/-! ## Nested lists -/

theorem shapeLeaf_inRange (readOnly : Bool) (decl : Declaration) (size : Size)
    (slot : Option BitSlot) : (shapeLeaf readOnly decl size slot).inRange = true := by
  unfold shapeLeaf
  split <;> rfl

theorem shapeAlternate_inRange (anchor name : String) (available : Option Nat)
    (resolution : Resolution) :
    (shapeAlternate anchor available name resolution).inRange = resolution.inRange := by
  unfold shapeAlternate
  split
  · rfl
  · split <;> rfl

/-- Alternates are in range if each of them is, whether they are looked into or not. -/
theorem shapeAlternates_all_inRange {anchor : String} {available : Option Nat}
    {seen : List String} {alternates : List (String × Resolution)}
    (h : ∀ alternate ∈ alternates, alternate.2.inRange = true) :
    (shapeAlternates anchor available seen alternates).all (·.inRange) = true := by
  induction alternates generalizing seen with
  | nil => rfl
  | cons alternate rest ih =>
    obtain ⟨name, resolution⟩ := alternate
    rw [List.forall_mem_cons] at h
    rw [shapeAlternates]
    split
    · rw [List.all_cons, ih h.2]
      rfl
    · rw [List.all_cons, ih h.2, shapeAlternate_inRange, h.1]
      rfl

/-- A field is in range if its end is, and all of its alternates are. -/
theorem Positioned.settle_inRange {readOnly : Bool} {widths : Nat → Nat} {positioned : Positioned}
    (hstop : ∀ size, positioned.field.size = .ok size →
      (positioned.placement.offset.plus (positioned.layout widths size).sizeExpr).constant <
        wordLimit)
    (halternates : ∀ alternates, positioned.field.alternates = some alternates →
      ∀ alternate ∈ alternates, alternate.2.inRange = true) :
    (positioned.settle readOnly widths).inRange = true := by
  cases hsize : positioned.field.size with
  | error defect =>
    rw [settle, hsize]
  | ok size =>
    have hlt := decide_eq_true (hstop size hsize)
    cases hanchor : positioned.field.alternates with
    | none =>
      rw [settle_of_plain hsize hanchor, Shaping.settled, shapeLeaf_inRange]
      exact hlt
    | some alternates =>
      have hall : (shapeUnion positioned.field.decl size alternates).inRange = true :=
        shapeAlternates_all_inRange (halternates alternates hanchor)
      rw [settle_of_anchor hsize hanchor, Shaping.settled, hall]
      exact hlt

namespace Schema

variable {schema : Schema} {policy : MismatchPolicy}

/-- A schema is in range if its own sums are and all that lies below its fields is. -/
theorem inRange_of_sumsInRange (h : schema.SumsInRange policy)
    (hbelow : ∀ field ∈ schema.fields, ∀ alternates, field.alternates? = some alternates →
      ∀ alternate ∈ alternates,
        ((schema.below field alternate).resolution policy).inRange = true) :
    (schema.resolution policy).inRange = true := by
  have hsettled : (Prepared.settled schema.readOnly (schema.prepared policy)).all (·.inRange) =
      true := by
    rw [Prepared.settled, List.all_map, List.all_eq_true]
    intro positioned hmem
    refine Positioned.settle_inRange (h.stop positioned hmem) fun resolved hresolved => ?_
    -- what stands below a placed field are the alternates of a declared one
    have hfield : positioned.field ∈ (schema.placed policy).map (·.field) :=
      List.mem_map_of_mem hmem
    rw [map_field_placed] at hfield
    obtain ⟨field, hdeclared, hprepared⟩ := List.mem_map.1 hfield
    rw [← hprepared, field.alternates_prepare] at hresolved
    obtain ⟨alternates, halternates, rfl⟩ := Option.map_eq_some_iff.1 hresolved
    intro _ halternate
    obtain ⟨alternate, hin, rfl⟩ := List.mem_map.1 halternate
    rw [alternate.resolve_eq]
    exact hbelow field hdeclared alternates halternates alternate hin
  have htotal := h.total _ (List.prefix_refl _)
  have hrange := Resolution.inRange_ofFields policy schema.readOnly schema.name
    (schema.prepared policy)
  rw [hsettled] at hrange
  exact hrange.trans (decide_eq_true htotal)

/-- Under the demand of its lists a schema is in range with everything below it. -/
theorem inRange_of_hasHeadroom (h : HasHeadroom schema.fields) (policy : MismatchPolicy) :
    (schema.resolution policy).inRange = true := by
  induction schema using Schema.nested_induction with
  | step schema ih =>
    obtain ⟨room, below⟩ := h
    refine inRange_of_sumsInRange (sumsInRange_of_demand room policy) ?_
    intro field hfield alternates halternates alternate hmem
    exact ih field hfield alternates halternates alternate hmem
      (below field hfield alternates halternates alternate hmem)

theorem Encloses.hasHeadroom {part : Schema} (hpart : schema.Encloses part)
    (h : HasHeadroom schema.fields) : HasHeadroom part.fields := by
  induction hpart with
  | refl => exact h
  | inner hfield halternates hmem _ ih =>
    obtain ⟨-, below⟩ := h
    exact ih (below _ hfield _ halternates _ hmem)

/-- If the largest explicit position and all known sizes of a list, taken together, are a 64-bit
number, and so in every list below, then no sum is too large. This holds under both policies: the
schema is resolved or refused with diagnostics, and what happens on the way is told to the end. -/
theorem sums_lt_wordLimit (h : HasHeadroom schema.fields) (policy : MismatchPolicy) :
    ((∃ plan, schema.resolve policy = .ok plan) ∨
      ∃ error, schema.resolve policy = .error (.error error)) ∧
    (∃ events, schema.trace policy = .ok events) ∧
    ∀ part, schema.Encloses part → part.SumsInRange policy := by
  have hrange := inRange_of_hasHeadroom h policy
  refine ⟨?_, ?_, fun part hpart => ?_⟩
  · unfold resolve
    rw [if_pos hrange]
    cases (schema.resolution policy).outcome with
    | ok plan => exact .inl ⟨plan, rfl⟩
    | error diagnostics => exact .inr ⟨_, rfl⟩
  · unfold trace
    rw [if_pos hrange]
    exact ⟨_, rfl⟩
  · obtain ⟨room, -⟩ := hpart.hasHeadroom h
    exact sumsInRange_of_demand room policy

end Schema

/-- A flag, a word near the end of all that can be addressed, and an anchor whose bytes the buffer
tells; inside it stands a number as far away as can be. -/
def distantSchema (offset : Nat) : Schema where
  name := "Distant"
  fields :=
    [.plain { name := "flag", type := .integer .u8, bits := some 1 },
      .plain { name := "far", type := .integer .u32, position := .literal offset },
      .anchor { name := "body", type := .bytes, sizeFunction := some inflatedSize }
        [.mk "farther"
          [.plain { name := "value", type := .integer .u64, position := .literal (maxWord - 8) }]]]

theorem distantSchema_sums :
    HasHeadroom (distantSchema (maxWord - 12)).fields ∧
      (∃ plan, (distantSchema (maxWord - 12)).resolve .warn = .ok plan) ∧
      (∃ error, (distantSchema (maxWord - 12)).resolve .error = .error (.error error)) ∧
      (distantSchema (maxWord - 12)).SumsInRange .warn := by
  have hroom : HasHeadroom (distantSchema (maxWord - 12)).fields := by
    refine .intro (by decide) fun field hfield alternates halternates alternate hmem => ?_
    rcases List.mem_cons.1 hfield with rfl | hfield
    · cases halternates
    rcases List.mem_cons.1 hfield with rfl | hfield
    · cases halternates
    · obtain rfl := List.mem_singleton.1 hfield
      obtain rfl := Option.some.inj halternates
      obtain rfl := List.mem_singleton.1 hmem
      refine .intro (by decide) fun field hfield alternates halternates => ?_
      obtain rfl := List.mem_singleton.1 hfield
      cases halternates
  refine ⟨hroom, ⟨_, rfl⟩, ⟨_, rfl⟩, ?_⟩
  obtain ⟨-, -, hsums⟩ := Schema.sums_lt_wordLimit hroom .warn
  exact hsums _ (.refl _)

/-- The word does not fit in front of the limit. -/
example : (distantSchema (maxWord - 3)).resolve .warn = .error (.fault .addOverflow) := rfl

end PacketLayout
