import PacketLayout.Proofs.Formation
import PacketLayout.Proofs.Policies

/-!
# Predicted offsets

What is expected of a field is the offset behind the fields before it. It is lost with the first
size that is not known, and an explicit position brings it back; nothing else makes a difference, so
an expectation never outlives what it rests on, and none is lost without a reason.

* `sinceExplicit` are the fields on which an expectation rests, and `reach` is the offset behind
  them.
* `Frontier.isSome_stop?_after` says when the offset behind some fields is known, and
  `Laid.predicted_eq` what it is.
* `Schema.predicts` is the statement about the expectations of a schema and the reports about
  explicit positions that differ from them.
-/

namespace PacketLayout

/-! ## What an expectation rests on -/

/-- Whether the field has an explicit position. -/
def Positioned.isExplicit (field : Positioned) : Bool := !field.position.isSequential

/-- Whether the field has a size. -/
def Positioned.isSized (field : Positioned) : Bool := field.field.sized.size.isSome

/-- The fields from the last one with an explicit position on, or all of them if there is none. -/
def sinceExplicit : List Positioned → List Positioned
  | [] => []
  | field :: rest => if rest.any (·.isExplicit) then sinceExplicit rest else field :: rest

/-- The offset of the first field if it has an explicit position, and otherwise zero. -/
def explicitStart : List Positioned → Expr
  | [] => .zero
  | first :: _ => if first.isExplicit then first.placement.offset else .zero

/-- The bytes that fields span in order, those of a unit once for all its bit-fields. The units in
`seen` have been counted. -/
def spansFrom (widths : Nat → Nat) (seen : List Nat) : List Positioned → List Expr
  | [] => []
  | field :: rest =>
    match field.placement.member with
    | some member =>
      if member.group ∈ seen then spansFrom widths seen rest
      else .literal (widths member.group) :: spansFrom widths (member.group :: seen) rest
    | none =>
      (field.field.sized.size.map fun size =>
        size.expr field.field.decl.name field.placement.offset none).toList ++
          spansFrom widths seen rest

/-- The offset behind fields that follow an explicit position, or the start of a buffer. -/
def reach (widths : Nat → Nat) (fields : List Positioned) : Expr :=
  (spansFrom widths [] fields).foldl Expr.plus (explicitStart fields)

/-- The size of the field resolves, and so does its value or its union. -/
inductive Positioned.Resolves (widths : Nat → Nat) (field : Positioned) : Prop
  | value {size : Size} {provider : Provider}
      (plain : field.field.alternates = none)
      (sized : field.field.size = .ok size)
      (provided : Provider.resolve field.field.decl size (field.slot widths) = .ok provider)
  | union {size : Size} {alternates : List (String × Resolution)} {plans : List AlternatePlan}
      (anchor : field.field.alternates = some alternates)
      (sized : field.field.size = .ok size)
      (nonempty : alternates ≠ [])
      (named : ∀ alternate ∈ alternates, alternate.1 ≠ "")
      (distinct : (alternates.map (·.1)).Nodup)
      (accepted : List.Forall₂ (AlternateAccepted size.fixed) alternates plans)

/-- What is expected of the fields of a schema, and which explicit positions are reported. -/
structure Schema.Predicts (schema : Schema) (policy : MismatchPolicy) : Prop where
  /-- the placed fields are those of the schema, and of its plan if it has one -/
  places : schema.Places policy
  /-- nothing is expected just if a size is unknown since the last explicit position -/
  unknown : ∀ before field after, schema.placed policy = before ++ field :: after →
    (field.placement.predicted = none ↔
      ∃ other ∈ sinceExplicit before, ∃ defect, other.field.size = .error defect)
  /-- what is expected of a field that joins no unit is the sum of the sizes since then, with the
  final widths of units -/
  known : ∀ before field after, schema.placed policy = before ++ field :: after →
    (∀ other ∈ sinceExplicit before, ∃ size, other.field.size = .ok size) →
    ¬ field.Joins before →
    field.placement.predicted = some (reach (schema.widths policy) (sinceExplicit before))
  /-- an explicit position is reported just if it is a number, the field resolves, and that sum is
  known and another number -/
  mismatch : ∀ before field after, schema.placed policy = before ++ field :: after →
    ∀ diagnostic, field.mismatch? schema.readOnly (schema.widths policy) = some diagnostic ↔
      ∃ expected actual, field.position = .literal actual ∧
        field.Resolves (schema.widths policy) ∧
        (∀ other ∈ sinceExplicit before, ∃ size, other.field.size = .ok size) ∧
        (reach (schema.widths policy) (sinceExplicit before)).static? = some expected ∧
        expected ≠ actual ∧
        diagnostic = .ofLayout field.field.decl.name (.positionMismatch expected actual)
  /-- under the strict policy there is no plan with such a report, and a refusal has all of them and
  no other mismatches than those of alternates -/
  refused : policy = .error →
    (∀ plan, schema.resolve policy = .ok plan → schema.positionReports policy = []) ∧
    ∀ error, schema.resolve policy = .error (.error error) → ∃ earlier later,
      error.diagnostics = earlier ++ schema.positionReports policy ++ later ∧
      ∀ diagnostic ∈ earlier ++ later, diagnostic.IsMismatch →
        ∃ field ∈ schema.fields, schema.PassesOn policy field diagnostic
  /-- under the tolerant policy they are the warnings behind those of alternates, and no reason for
  a refusal -/
  tolerated : policy = .warn →
    (∀ plan, schema.resolve policy = .ok plan → plan.warnings =
      plan.fields.flatMap (·.nestedWarnings) ++ schema.positionReports policy) ∧
    ∀ error, schema.resolve policy = .error (.error error) →
      ∀ diagnostic ∈ error.diagnostics, diagnostic.IsMismatch →
        ∃ field ∈ schema.fields, schema.PassesOn policy field diagnostic

/-! ## When an expectation is known -/

theorem Positioned.isExplicit_eq_false_iff {field : Positioned} :
    field.isExplicit = false ↔ field.position = .sequential := by
  rw [isExplicit]
  cases field.position <;> simp [Position.isSequential]

theorem sinceExplicit_eq_self {fields : List Positioned}
    (h : fields.any (·.isExplicit) = false) : sinceExplicit fields = fields := by
  cases fields with
  | nil => rfl
  | cons field rest =>
    rw [List.any_cons, Bool.or_eq_false_iff] at h
    rw [sinceExplicit, h.2]
    rfl

namespace Frontier

variable {frontier : Frontier}

/-- The offset behind an open unit is known if the unit has one. -/
theorem isSome_stop?_of_unit {unit : OpenUnit} (h : frontier.unit = some unit) :
    frontier.stop?.isSome = unit.anchored := by
  simp only [stop?, close, h]
  cases unit.anchored <;> rfl

/-- A field is expected somewhere if the offset behind the fields before it is known, also when it
joins the unit there. -/
theorem isSome_predicted_place (frontier : Frontier) (field : Sized) :
    (frontier.place field).1.predicted.isSome = frontier.stop?.isSome := by
  rcases frontier.place_cases field with ⟨unit, width, hunit, -, -, hplace⟩ | ⟨-, hplace⟩
  · rw [hplace, isSome_stop?_of_unit hunit, join]
    cases unit.anchored <;> rfl
  · rw [hplace, predicted_start, stop?]

/-- The offset behind a field is known if its size is, unless the field follows unknown ones. -/
theorem isSome_stop?_place (frontier : Frontier) (field : Sized) :
    (frontier.place field).2.stop?.isSome =
      ((frontier.stop?.isSome || !field.decl.position.isSequential) && field.size.isSome) := by
  have hsized {width : Nat} (hwidth : field.bitWidth? = some width) :
      field.size.isSome = true := by
    obtain ⟨size, hsize, -⟩ := Option.bind_eq_some_iff.1 hwidth
    rw [hsize]
    rfl
  rcases frontier.place_cases field with
    ⟨unit, width, hunit, hwidth, hposition, hplace⟩ | ⟨-, hplace⟩
  · rw [hplace, hsized hwidth, hposition, isSome_stop?_of_unit hunit, join, stop?,
      close_closeIfFull, ← stop?, isSome_stop?_of_unit rfl]
    simp [Position.isSequential]
  · rw [hplace, stop?.eq_def frontier]
    cases hwidth : field.bitWidth? with
    | none =>
      have hunit : (frontier.close.start field).2.unit = none := by
        simp only [start, hwidth]
        exact frontier.unit_close
      rw [stop?, close_of_none hunit]
      simp only [start, hwidth]
      cases frontier.close.next.isSome || !field.decl.position.isSequential with
      | false => rfl
      | true => simp
    | some width =>
      rw [start_of_bitWidth hwidth, hsized hwidth, Bool.and_true, stop?, close_closeIfFull, ← stop?,
        isSome_stop?_of_unit rfl, opened]

/-- The offset behind fields is known if all sizes are known since the last explicit position, or
since the start of the buffer. -/
theorem isSome_stop?_after (frontier : Frontier) (fields : List Positioned) :
    (frontier.after (fields.map (·.field.sized))).stop?.isSome =
      ((frontier.stop?.isSome || fields.any (·.isExplicit)) &&
        (sinceExplicit fields).all (·.isSized)) := by
  induction fields generalizing frontier with
  | nil => simp [after, sinceExplicit]
  | cons field fields ih =>
    have hstep : (frontier.place field.field.sized).2.stop?.isSome =
        ((frontier.stop?.isSome || field.isExplicit) && field.isSized) :=
      frontier.isSome_stop?_place field.field.sized
    have hafter : frontier.after ((field :: fields).map (·.field.sized)) =
        (frontier.place field.field.sized).2.after (fields.map (·.field.sized)) := rfl
    rw [hafter, ih, hstep, List.any_cons, sinceExplicit]
    cases hexplicit : fields.any (·.isExplicit) with
    | true => simp
    | false =>
      rw [sinceExplicit_eq_self hexplicit, Bool.or_false, Bool.or_false, Bool.and_assoc]
      rfl

end Frontier

theorem Positioned.isSized_eq_true_iff {field : Positioned} :
    field.isSized = true ↔ ∃ size, field.field.size = .ok size := by
  rw [isSized, Prepared.sized]
  cases field.field.size <;> simp [Except.toOption]

theorem Positioned.isSized_eq_false_iff {field : Positioned} :
    field.isSized = false ↔ ∃ defect, field.field.size = .error defect := by
  rw [isSized, Prepared.sized]
  cases field.field.size <;> simp [Except.toOption]

/-! ## What is expected -/

section

variable {widths : Nat → Nat} {seen : List Nat}

/-- Bit-fields of a unit that has been counted do not count again. -/
theorem spansFrom_of_seen {group : Nat} (hseen : group ∈ seen) {members : List Positioned}
    (h : ∀ field ∈ members, ∃ member, field.placement.member = some member ∧ member.group = group)
    (rest : List Positioned) :
    spansFrom widths seen (members ++ rest) = spansFrom widths seen rest := by
  induction members with
  | nil => rfl
  | cons field members ih =>
    obtain ⟨member, hmember, rfl⟩ := h field List.mem_cons_self
    simp only [List.cons_append, spansFrom, hmember, if_pos hseen]
    exact ih fun other hother => h other (List.mem_cons_of_mem _ hother)

theorem spansFrom_cons {field : Positioned} {size : Size}
    (hmember : field.placement.member = none) (hsize : field.field.sized.size = some size)
    (rest : List Positioned) :
    spansFrom widths seen (field :: rest) =
      size.expr field.field.decl.name field.placement.offset none ::
        spansFrom widths seen rest := by
  simp only [spansFrom, hmember, hsize]
  rfl

/-- All bit-fields of a unit together span its width. -/
theorem spansFrom_unit {first : Positioned} {members : List Positioned} {own : UnitMember}
    (hfirst : first.placement.member = some own) (hnew : own.group ∉ seen)
    (h : ∀ field ∈ members, ∃ member, field.placement.member = some member ∧
      member.group = own.group)
    (rest : List Positioned) :
    spansFrom widths seen (first :: (members ++ rest)) =
      .literal (widths own.group) :: spansFrom widths (own.group :: seen) rest := by
  simp only [spansFrom, hfirst, if_neg hnew]
  rw [spansFrom_of_seen List.mem_cons_self h]

/-- The fields stand in a chain before a field that is in none of their units: only the first one
may have an explicit position, and all sizes are known. -/
structure Positioned.RestsOn (field : Positioned) (fields : List Positioned) : Prop where
  sequential : ∀ other ∈ fields.tail, other.position = .sequential
  sized : ∀ other ∈ fields, other.isSized = true
  apart : ∀ other ∈ fields, ∀ member member', other.placement.member = some member →
    field.placement.member = some member' → member.group ≠ member'.group

/-- The chain behind its first fields has no explicit position. -/
theorem Positioned.RestsOn.behind {field first : Positioned} {members rest : List Positioned}
    (h : field.RestsOn (first :: (members ++ rest))) :
    field.RestsOn rest ∧ ∀ other ∈ rest, other.position = .sequential := by
  have hmem {other : Positioned} (hother : other ∈ rest) : other ∈ first :: (members ++ rest) :=
    List.mem_cons_of_mem _ (List.mem_append_right _ hother)
  have hsequential : ∀ other ∈ rest, other.position = .sequential := fun other hother =>
    h.sequential other (List.mem_append_right _ hother)
  refine ⟨⟨?_, ?_, ?_⟩, hsequential⟩
  · exact fun other hother => hsequential other (List.mem_of_mem_tail hother)
  · exact fun other hother => h.sized other (hmem hother)
  · exact fun other hother => h.apart other (hmem hother)

/-- The offset where fields begin, if `next` is what is implied there. -/
def startFrom (next : Option Expr) : List Positioned → Option Expr
  | [] => next
  | first :: _ => if first.isAnchored next then some (first.offsetFrom next) else none

theorem startFrom_of_sequential {fields : List Positioned} (next : Option Expr)
    (h : ∀ field ∈ fields, field.position = .sequential) : startFrom next fields = next := by
  cases fields with
  | nil => rfl
  | cons first rest =>
    have hposition := h first List.mem_cons_self
    rw [startFrom, Positioned.isAnchored, Positioned.offsetFrom, hposition]
    cases next <;> rfl

/-- A field that is in no unit of the fields before it is expected where these end. -/
theorem Laid.predicted_eq {next : Option Expr} {units : Nat} {before after : List Positioned}
    {field : Positioned} {start : Expr} (h : Laid next units (before ++ field :: after))
    (hstart : startFrom next before = some start) (hrests : field.RestsOn before)
    (hwidths : ∀ group, units ≤ group →
      widths group = unitWidth ((before ++ field :: after).map (·.placement)) group)
    (hseen : ∀ group ∈ seen, group < units) :
    field.placement.predicted = some ((spansFrom widths seen before).foldl Expr.plus start) := by
  generalize hlist : before ++ field :: after = list at h hwidths
  induction h generalizing before start seen with
  | nil => simp at hlist
  | @single next units first rest width_eq place _ more ih =>
    cases before with
    | nil =>
      obtain ⟨rfl, -⟩ := List.cons.inj hlist
      rw [place]
      exact hstart
    | cons other chain =>
      obtain ⟨rfl, hbehind⟩ := List.cons.inj hlist
      have hsingle : field.RestsOn (other :: ([] ++ chain)) := hrests
      obtain ⟨hchain, hsequential⟩ := hsingle.behind
      obtain ⟨size, hsize⟩ := Option.isSome_iff_exists.1 (hrests.sized other List.mem_cons_self)
      obtain ⟨hanchored, hoffset⟩ := Option.ite_none_right_eq_some.1 hstart
      obtain rfl := Option.some.inj hoffset
      have hstop : other.stopFrom next = some ((other.offsetFrom next).plus
          (size.expr other.field.decl.name (other.offsetFrom next) none)) := by
        rw [Positioned.stopFrom, if_pos hanchored, hsize, Option.map_some]
      rw [spansFrom_cons (by rw [place]) hsize, List.foldl_cons, place]
      refine ih ?_ hchain hseen hbehind fun group hgroup => ?_
      · rw [startFrom_of_sequential _ hsequential, hstop]
      · rw [hwidths group hgroup, List.map_cons, unitWidth_cons (by rw [place])]
  | @unit next units width used widest first members rest width_eq place joined closed more ih =>
    obtain ⟨rfl, hrest⟩ := more.widths_behind_unit place joined hwidths
    cases before with
    | nil =>
      obtain ⟨rfl, -⟩ := List.cons.inj hlist
      rw [place]
      exact hstart
    | cons other chain =>
      obtain rfl : other = first := (List.cons.inj hlist).1
      have hbehind : chain ++ field :: after = members ++ rest := (List.cons.inj hlist).2
      have hfirst : other.placement.member = some ⟨units, 0, width, other.typeWidth⟩ := by
        rw [place]
      have hgroups : ∀ member ∈ members, ∃ own, member.placement.member = some own ∧
          own.group = units := by
        intro member hmem
        obtain ⟨-, own, -, -, hown, hgroup⟩ := joined.exists_member hmem
        exact ⟨own, hown, hgroup⟩
      have hbeyond : field ∉ members := by
        intro hmem
        obtain ⟨own, hown, hgroup⟩ := hgroups field hmem
        exact hrests.apart other List.mem_cons_self _ own hfirst hown hgroup.symm
      obtain ⟨tail, rfl, htail⟩ := exists_tail_of_append_eq hbehind hbeyond
      obtain ⟨hchain, hsequential⟩ := hrests.behind
      obtain ⟨hanchored, hoffset⟩ := Option.ite_none_right_eq_some.1 hstart
      obtain rfl := Option.some.inj hoffset
      have hnew : units ∉ seen := fun hmem => Nat.lt_irrefl _ (hseen units hmem)
      rw [spansFrom_unit hfirst hnew hgroups, List.foldl_cons, Expr.plus_literal]
      refine ih ?_ hchain (fun group hmem => ?_) htail.symm hrest
      · rw [startFrom_of_sequential _ hsequential, if_pos hanchored]
      · rcases List.mem_cons.1 hmem with rfl | hmem
        · exact Nat.lt_succ_self _
        · exact Nat.lt_succ_of_lt (hseen group hmem)

/-- From an explicit position on a list is laid out by itself. -/
theorem Laid.of_explicit {next : Option Expr} {units : Nat} {before after : List Positioned}
    {field : Positioned} (h : Laid next units (before ++ field :: after))
    (hexplicit : field.isExplicit = true) :
    ∃ next' units', units ≤ units' ∧ Laid next' units' (field :: after) ∧
      ∀ group, units' ≤ group →
        unitWidth ((before ++ field :: after).map (·.placement)) group =
          unitWidth ((field :: after).map (·.placement)) group := by
  generalize hlist : before ++ field :: after = list at h
  induction h generalizing before with
  | nil => simp at hlist
  | @single next units first rest width_eq place last more ih =>
    cases before with
    | nil =>
      rw [List.nil_append] at hlist
      rw [hlist]
      exact ⟨next, units, Nat.le_refl _, .single width_eq place last more, fun _ _ => rfl⟩
    | cons other before =>
      obtain ⟨rfl, hbehind⟩ := List.cons.inj hlist
      obtain ⟨next', units', hunits, hlaid, hwidths⟩ := ih hbehind
      refine ⟨next', units', hunits, hlaid, fun group hgroup => ?_⟩
      rw [List.map_cons, unitWidth_cons (by rw [place]), hwidths group hgroup]
  | @unit next units width used widest first members rest width_eq place joined closed more ih =>
    cases before with
    | nil =>
      rw [List.nil_append] at hlist
      rw [hlist]
      exact ⟨next, units, Nat.le_refl _, .unit width_eq place joined closed more, fun _ _ => rfl⟩
    | cons other before =>
      obtain rfl : other = first := (List.cons.inj hlist).1
      have hbehind : before ++ field :: after = members ++ rest := (List.cons.inj hlist).2
      have hbeyond : field ∉ members := by
        intro hmem
        rw [Positioned.isExplicit_eq_false_iff.2 (joined.position_eq hmem)] at hexplicit
        cases hexplicit
      obtain ⟨tail, rfl, htail⟩ := exists_tail_of_append_eq hbehind hbeyond
      obtain ⟨next', units', hunits, hlaid, hwidths⟩ := ih htail.symm
      refine ⟨next', units', Nat.le_of_succ_le hunits, hlaid, fun group hgroup => ?_⟩
      rw [joined.unitWidth_of_ne place (Nat.ne_of_lt (Nat.lt_of_lt_of_le hunits hgroup)),
        hwidths group hgroup]

/-- The first field of a list stands where it starts from what is implied there. -/
theorem Laid.offset_head {next : Option Expr} {units : Nat} {first : Positioned}
    {rest : List Positioned} (h : Laid next units (first :: rest)) :
    first.placement.offset = first.offsetFrom next := by
  cases h with
  | single _ place | unit _ place => rw [place]

end

theorem explicitStart_eq {next : Option Expr} {units : Nat} {fields rest : List Positioned}
    (h : Laid next units (fields ++ rest))
    (hstart : next = some .zero ∨ ∃ first, fields.head? = some first ∧ first.isExplicit = true) :
    startFrom next fields = some (explicitStart fields) := by
  cases fields with
  | nil =>
    refine hstart.resolve_right ?_
    rintro ⟨first, hfirst, -⟩
    cases hfirst
  | cons first others =>
    rw [startFrom, explicitStart, h.offset_head, Positioned.isAnchored]
    cases hexplicit : first.isExplicit with
    | true =>
      rw [Positioned.isExplicit] at hexplicit
      rw [hexplicit, Bool.or_true]
      rfl
    | false =>
      obtain rfl : next = some .zero := by
        refine hstart.resolve_right ?_
        rintro ⟨_, ⟨⟩, hother⟩
        rw [hexplicit] at hother
        cases hother
      rw [Positioned.offsetFrom, Positioned.isExplicit_eq_false_iff.1 hexplicit]
      rfl

theorem sinceExplicit_suffix (fields : List Positioned) : sinceExplicit fields <:+ fields := by
  induction fields with
  | nil => exact List.suffix_rfl
  | cons field rest ih =>
    rw [sinceExplicit]
    split
    · exact ih.trans (List.suffix_cons field rest)
    · exact List.suffix_rfl

/-- Behind the last explicit position all fields are sequential. -/
theorem sequential_of_mem_tail {fields : List Positioned} :
    ∀ other ∈ (sinceExplicit fields).tail, other.position = .sequential := by
  induction fields with
  | nil => exact fun _ hother => absurd hother List.not_mem_nil
  | cons field rest ih =>
    rw [sinceExplicit]
    split
    · exact ih
    · rename_i hnone
      intro other hother
      refine Positioned.isExplicit_eq_false_iff.1 (Bool.eq_false_iff.2 fun hexplicit => ?_)
      exact hnone (List.any_eq_true.2 ⟨other, hother, hexplicit⟩)

theorem exists_head_sinceExplicit {fields : List Positioned}
    (h : fields.any (·.isExplicit) = true) :
    ∃ first, (sinceExplicit fields).head? = some first ∧ first.isExplicit = true := by
  induction fields with
  | nil => cases h
  | cons field rest ih =>
    cases hrest : rest.any (·.isExplicit) with
    | true =>
      rw [sinceExplicit, hrest, if_pos rfl]
      exact ih hrest
    | false =>
      rw [List.any_cons, hrest, Bool.or_false] at h
      rw [sinceExplicit, hrest]
      exact ⟨field, rfl, h⟩

/-- An explicit position starts anew, wherever it stands. -/
theorem Laid.exists_laid_sinceExplicit {before rest : List Positioned}
    (h : Laid (some .zero) 0 (before ++ rest)) :
    ∃ next units, Laid next units (sinceExplicit before ++ rest) ∧
      startFrom next (sinceExplicit before) = some (explicitStart (sinceExplicit before)) ∧
      ∀ group, units ≤ group → unitWidth ((before ++ rest).map (·.placement)) group =
        unitWidth ((sinceExplicit before ++ rest).map (·.placement)) group := by
  cases hexplicit : before.any (·.isExplicit) with
  | false =>
    rw [sinceExplicit_eq_self hexplicit]
    exact ⟨_, _, h, explicitStart_eq h (.inl rfl), fun _ _ => rfl⟩
  | true =>
    obtain ⟨dropped, hdropped⟩ := sinceExplicit_suffix before
    obtain ⟨first, hfirst, hexplicit⟩ := exists_head_sinceExplicit hexplicit
    obtain ⟨chain, hchain⟩ := List.head?_eq_some_iff.1 hfirst
    have hlist : before ++ rest = dropped ++ (sinceExplicit before ++ rest) := by
      rw [← List.append_assoc, hdropped]
    rw [hlist, hchain] at h ⊢
    obtain ⟨next, units, -, hlaid, hsame⟩ := h.of_explicit hexplicit
    exact ⟨next, units, hlaid, explicitStart_eq hlaid (.inr ⟨first, rfl, hexplicit⟩), hsame⟩

namespace Schema

variable {schema : Schema} {policy : MismatchPolicy} {before after : List Positioned}
  {field : Positioned}

/-- A field with an explicit position shares no unit with the field before it. -/
theorem not_joins_of_isExplicit (h : schema.placed policy = before ++ field :: after)
    (hexplicit : field.isExplicit = true) : ¬ field.Joins before := by
  rintro ⟨last, member, member', hlast, hmember, hmember', hgroup⟩
  obtain ⟨front, rfl⟩ := List.getLast?_eq_some_iff.1 hlast
  have hplaced := member_of_placed h
  rw [hmember'] at hplaced
  obtain ⟨width, -, hbehind⟩ := Option.map_eq_some_iff.1 hplaced.symm
  have hclosed : field.field.sized.decl.position = .sequential →
      openGroup? ((front ++ [last]).map (·.placement)) = none := by
    intro hposition
    rw [Positioned.isExplicit_eq_false_iff.2 hposition] at hexplicit
    cases hexplicit
  rw [Sized.memberBehind_of_closed hclosed, List.map_append, List.map_singleton,
    nextGroup_concat hmember] at hbehind
  have hnext : member.group + 1 = member'.group := congrArg UnitMember.group hbehind
  omega

/-- What is expected of a field that joins no unit, if all sizes are known. -/
theorem predicted_eq_reach (h : schema.placed policy = before ++ field :: after)
    (hsized : ∀ other ∈ sinceExplicit before, other.isSized = true)
    (hjoins : ¬ field.Joins before) :
    field.placement.predicted = some (reach (schema.widths policy) (sinceExplicit before)) := by
  have hlaid : Laid (some .zero) 0 (schema.placed policy) := Prepared.laid_positioned _
  have hrests : field.RestsOn (sinceExplicit before) := by
    refine ⟨sequential_of_mem_tail, hsized, fun other hother member member' hmember hown => ?_⟩
    obtain ⟨-, -, hbelow⟩ := opens_of_not_joins h hjoins hown
    have hmem : other ∈ before := (sinceExplicit_suffix before).mem hother
    exact Nat.ne_of_lt (hbelow other hmem member hmember)
  rw [h] at hlaid
  obtain ⟨next, units, hchain, hstart, hsame⟩ := hlaid.exists_laid_sinceExplicit
  refine hchain.predicted_eq hstart hrests (fun group hgroup => ?_)
    fun _ hmem => absurd hmem List.not_mem_nil
  rw [← hsame group hgroup, ← h, widths, ← Prepared.map_placement_positioned]
  rfl

/-- Nothing is expected of a field just if a size is unknown since the last explicit position. -/
theorem isSome_predicted (h : schema.placed policy = before ++ field :: after) :
    field.placement.predicted.isSome = (sinceExplicit before).all (·.isSized) := by
  rw [(Prepared.placements_of_split h).2, Frontier.isSome_predicted_place,
    Frontier.isSome_stop?_after]
  rfl

/-- What is expected of a field that joins no unit is a number, if it is known and the sum has no
part that depends on the buffer. -/
theorem static?_predicted_eq_some_iff (h : schema.placed policy = before ++ field :: after)
    (hjoins : ¬ field.Joins before) {expected : Nat} :
    field.placement.predicted.bind (·.static?) = some expected ↔
      (∀ other ∈ sinceExplicit before, ∃ size, other.field.size = .ok size) ∧
        (reach (schema.widths policy) (sinceExplicit before)).static? = some expected := by
  have hknown := isSome_predicted h
  simp only [← Positioned.isSized_eq_true_iff]
  constructor
  · intro hstatic
    obtain ⟨predicted, hpredicted, hstatic⟩ := Option.bind_eq_some_iff.1 hstatic
    rw [hpredicted] at hknown
    have hsized := List.all_eq_true.1 hknown.symm
    rw [predicted_eq_reach h hsized hjoins] at hpredicted
    obtain rfl := Option.some.inj hpredicted
    exact ⟨hsized, hstatic⟩
  · rintro ⟨hsized, hstatic⟩
    rw [predicted_eq_reach h hsized hjoins]
    exact hstatic

end Schema

/-! ## Reports -/

/-- A field takes part in the checks of the whole layout just if all of it resolves. -/
theorem Positioned.exists_entry_iff_resolves {readOnly : Bool} {widths : Nat → Nat}
    {field : Positioned} (hexplains : field.field.Explains) :
    (∃ entry, (field.settle readOnly widths).entry = some entry) ↔ field.Resolves widths := by
  cases hsize : field.field.size with
  | error defect =>
    rw [settle, hsize]
    constructor
    · rintro ⟨entry, hentry⟩
      cases hentry
    · rintro (⟨-, hsized, -⟩ | ⟨-, hsized⟩)
      · cases hsize.symm.trans hsized
      · cases hsize.symm.trans hsized
  | ok size =>
    cases halternates : field.field.alternates with
    | none =>
      rw [exists_entry_plain_iff hsize halternates]
      constructor
      · rintro ⟨provider, hprovider⟩
        exact .value halternates hsize hprovider
      · rintro (⟨-, hsized, hprovider⟩ | ⟨hanchor⟩)
        · obtain rfl := Except.ok.inj (hsize.symm.trans hsized)
          exact ⟨_, hprovider⟩
        · cases halternates.symm.trans hanchor
    | some alternates =>
      have hentry : (∃ entry, (field.settle readOnly widths).entry = some entry) ↔
          ∃ shape, (shapeUnion field.field.decl size alternates).shape = some shape := by
        rw [settle_of_anchor hsize halternates]
        simp [Shaping.settled, Option.map_eq_some_iff]
      rw [hentry, exists_shapeUnion_iff (hexplains alternates halternates)]
      constructor
      · rintro ⟨hnonempty, hnamed, hdistinct, plans, haccepted⟩
        exact .union halternates hsize hnonempty hnamed hdistinct haccepted
      · rintro (⟨hplain⟩ | ⟨hanchor, hsized, hnonempty, hnamed, hdistinct, haccepted⟩)
        · cases halternates.symm.trans hplain
        · obtain rfl := Option.some.inj (halternates.symm.trans hanchor)
          obtain rfl := Except.ok.inj (hsize.symm.trans hsized)
          exact ⟨hnonempty, hnamed, hdistinct, _, haccepted⟩

/-- The report about a position compares it with what was expected, once the field resolves. -/
theorem Positioned.mismatch?_eq_some_iff {readOnly : Bool} {widths : Nat → Nat}
    {field : Positioned} (hexplains : field.field.Explains) {diagnostic : Diagnostic} :
    field.mismatch? readOnly widths = some diagnostic ↔
      ∃ expected actual, field.position = .literal actual ∧ field.Resolves widths ∧
        field.placement.predicted.bind (·.static?) = some expected ∧ expected ≠ actual ∧
        diagnostic = .ofLayout field.field.decl.name (.positionMismatch expected actual) := by
  constructor
  · intro h
    obtain ⟨entry, hentry, hdiagnostic⟩ := Option.bind_eq_some_iff.1 h
    have hresolves := (exists_entry_iff_resolves hexplains).1 ⟨entry, hentry⟩
    obtain ⟨size, shape, -, rfl⟩ := entry_eq hentry
    obtain ⟨⟨expected, actual⟩, hmismatch, rfl⟩ := Option.map_eq_some_iff.1 hdiagnostic
    obtain ⟨hstatic, hposition, hne⟩ := Entry.mismatch?_eq_some_iff.1 hmismatch
    exact ⟨expected, actual, hposition, hresolves, hstatic, hne, rfl⟩
  · rintro ⟨expected, actual, hposition, hresolves, hstatic, hne, rfl⟩
    obtain ⟨entry, hentry⟩ := (exists_entry_iff_resolves hexplains).2 hresolves
    rw [mismatch?, hentry]
    obtain ⟨size, shape, -, rfl⟩ := entry_eq hentry
    refine Option.map_eq_some_iff.2 ⟨(expected, actual), ?_, rfl⟩
    exact Entry.mismatch?_eq_some_iff.2 ⟨hstatic, hposition, hne⟩

namespace Schema

variable {schema : Schema} {policy : MismatchPolicy}

/-- What is reported about other things than positions has no mismatch, but that of an alternate. -/
theorem mem_ownDiagnostics_of_isMismatch {diagnostic : Diagnostic}
    (h : diagnostic ∈ schema.ownDiagnostics policy ++
      (schema.remainderReports policy ++ schema.unitReports policy))
    (hmismatch : diagnostic.IsMismatch) : diagnostic ∈ schema.ownDiagnostics policy := by
  obtain ⟨expected, actual, hdefect⟩ := hmismatch
  rcases List.mem_append.1 h with hown | h
  · exact hown
  · rcases List.mem_append.1 h with hremainder | hunit
    · cases hdefect.symm.trans (defect_of_remainderReports hremainder)
    · obtain ⟨_, _, _, hoverflow⟩ := isOverflow_of_unitReports hunit
      cases hdefect.symm.trans hoverflow

/-- An expectation is lost with a size and found again at an explicit position, and it is the sum of
the sizes in between. Just the explicit numbers that differ from it are reported. -/
theorem predicts (schema : Schema) (policy : MismatchPolicy) : schema.Predicts policy where
  places := schema.places policy
  unknown before field after h := by
    rw [← Option.not_isSome_iff_eq_none, isSome_predicted h, List.all_eq_true]
    simp [Positioned.isSized_eq_false_iff]
  known before field after h hsized hjoins :=
    predicted_eq_reach h
      (fun other hother => Positioned.isSized_eq_true_iff.2 (hsized other hother)) hjoins
  mismatch before field after h diagnostic := by
    have hmem : field ∈ schema.placed policy := h ▸ List.mem_append_right before List.mem_cons_self
    rw [Positioned.mismatch?_eq_some_iff (explains_of_placed hmem)]
    refine exists_congr fun expected => exists_congr fun actual => ?_
    refine and_congr_right fun hliteral => ?_
    have hexplicit : field.isExplicit = true := by
      rw [Positioned.isExplicit, hliteral]
      rfl
    rw [static?_predicted_eq_some_iff h (not_joins_of_isExplicit h hexplicit), and_assoc]
  refused := by
    rintro rfl
    constructor
    · intro plan hplan
      rw [positionReports_eq]
      exact (accepted_of_outcome (resolve_eq_ok_iff.1 hplan).2).1.mismatches_eq_nil nofun
    · intro error herror
      have hreport := diagnostics_eq herror
      rw [if_pos rfl, List.append_assoc] at hreport
      refine ⟨_, _, hreport, fun diagnostic hmem hmismatch => ?_⟩
      exact passesOn_of_refused herror (mem_ownDiagnostics_of_isMismatch hmem hmismatch)
        hmismatch.not_isLocal
  tolerated := by
    rintro rfl
    constructor
    · intro plan hplan
      obtain ⟨-, hfields, hwarnings⟩ := accepted_of_outcome (resolve_eq_ok_iff.1 hplan).2
      rw [hwarnings, Prepared.tolerated_eq, ← hfields, positionReports_eq]
      rfl
    · intro error herror diagnostic hmem hmismatch
      rw [diagnostics_eq herror, if_neg (by decide), List.append_nil, List.append_assoc] at hmem
      exact passesOn_of_refused herror (mem_ownDiagnostics_of_isMismatch hmem hmismatch)
        hmismatch.not_isLocal

end Schema

/-- Behind a field without a size every explicit number will do. The next one is checked again. -/
def patchedSchema : Schema where
  name := "Patched"
  fields :=
    [.plain { name := "void", type := .integer .u8, bits := some 0 },
      .plain { name := "word", type := .integer .u16 },
      .plain { name := "mark", type := .integer .u16, position := .literal 9 },
      .plain { name := "tail", type := .integer .u8, position := .literal 20 }]

theorem patchedSchema_predicts :
    ∃ void word mark tail error,
      patchedSchema.placed .error = [void, word, mark, tail] ∧
      [void, word, mark, tail].map (·.field) = patchedSchema.fields.map (·.prepare .error false) ∧
      mark.placement.predicted = none ∧
      tail.placement.predicted = some (.literal 11) ∧
      patchedSchema.resolve .error = .error (.error error) ∧
      ∀ diagnostic, diagnostic ∈ error.diagnostics ∧ diagnostic.IsMismatch ↔
        diagnostic = .ofLayout "tail" (.positionMismatch 11 20) := by
  have hpredicts := patchedSchema.predicts .error
  obtain ⟨error, herror⟩ : ∃ error, patchedSchema.resolve .error = .error (.error error) :=
    ⟨_, rfl⟩
  refine ⟨_, _, _, _, error, rfl, hpredicts.places.fields, ?_, ?_, herror, ?_⟩
  · exact (hpredicts.unknown [_, _] _ _ rfl).2 ⟨_, List.mem_cons_self, _, rfl⟩
  · refine hpredicts.known [_, _, _] _ _ rfl ?_ (Positioned.not_joins_of_member rfl)
    exact List.forall_mem_singleton.2 ⟨_, rfl⟩
  · have hmark : Positioned.mismatch? _ _ _ = none :=
      Option.eq_none_iff_forall_ne_some.2 fun diagnostic h => by
        obtain ⟨_, _, -, -, hsized, -⟩ := (hpredicts.mismatch [_, _] _ _ rfl diagnostic).1 h
        obtain ⟨_, hsize⟩ := hsized _ List.mem_cons_self
        cases hsize
    have htail := (hpredicts.mismatch [_, _, _] _ _ rfl _).2 ⟨11, 20, rfl, .value rfl rfl rfl,
      List.forall_mem_singleton.2 ⟨_, rfl⟩, rfl, by decide, rfl⟩
    have hreports : patchedSchema.positionReports .error =
        [.ofLayout "tail" (.positionMismatch 11 20)] := by
      refine (List.filterMap_cons_none rfl).trans ((List.filterMap_cons_none rfl).trans ?_)
      exact (List.filterMap_cons_none hmark).trans (List.filterMap_cons_some htail)
    obtain ⟨earlier, later, hreport, hothers⟩ := (hpredicts.refused rfl).2 error herror
    have hplain : ∀ field ∈ patchedSchema.fields, field.alternates? = none := by
      simp [patchedSchema, Field.alternates?]
    intro diagnostic
    rw [hreport, hreports, List.append_assoc, List.mem_append, List.mem_append,
      List.mem_singleton]
    constructor
    · rintro ⟨hmem, hmismatch⟩
      by_contra hne
      have hother : diagnostic ∈ earlier ++ later := by
        rw [List.mem_append]
        exact hmem.imp_right (·.resolve_left hne)
      exact Schema.not_passesOn_of_plain hplain (hothers diagnostic hother hmismatch)
    · rintro rfl
      exact ⟨.inr (.inl rfl), _, _, rfl⟩

end PacketLayout
