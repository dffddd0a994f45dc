import Mathlib.Data.List.Nodup
import PacketLayout.Proofs.Narration
import PacketLayout.Proofs.Prefixes
import PacketLayout.Proofs.Restatement

/-!
# Inferred positions

The offset of a sequential field is inferred from the fields before it. Where it is the same on
every buffer it may as well be written down, and nothing else changes. An explicit position takes
another way through the placement: it closes the unit that is open, starts anew, and is compared
with what was expected. For an inferred position all of this comes to the same.

* `Frontier.Implies` says when writing a position down makes no difference to a step.
* `Plan.Infers` are the positions that may be written down: those of sequential fields at a fixed
  offset, unless another member of their unit stands before them.
* `Schema.resolve_restate` says that the plan stays as it is but for the positions themselves.
-/

namespace PacketLayout

/-! ## Steps -/

/-- What is placed, with an explicit position if there is one to write down. -/
def Sized.restate (offset : Option Nat) (field : Sized) : Sized :=
  { field with decl := field.decl.restate offset }

namespace Frontier

variable {frontier : Frontier} {field : Sized}

/-- The fields before imply that a sequential field starts at a fixed offset, and it does not join
the unit that is open. -/
structure Implies (frontier : Frontier) (field : Sized) (offset : Nat) : Prop where
  sequential : field.decl.position = .sequential
  predicted : (frontier.place field).1.predicted = some (.literal offset)
  apart : ∀ member, (frontier.place field).1.member = some member →
    frontier.openUnit? ≠ some member.group

theorem place_restate {offset : Nat} (h : frontier.Implies field offset) :
    frontier.place (field.restate (some offset)) = frontier.place field := by
  have hplace := place_of_apart h.apart
  have hnext : frontier.close.next = some (.literal offset) := by
    rw [← predicted_start, ← hplace, h.predicted]
  have hliteral : (field.restate (some offset)).decl.position = .literal offset := rfl
  have hcloses : (field.restate (some offset)).continues = false := by
    simp [Sized.continues, hliteral, Position.isSequential]
  have hsame : (field.restate (some offset)).bitWidth? = field.bitWidth? := rfl
  rw [hplace, place_of_not_continues hcloses, start, start]
  simp only [hnext, hliteral, h.sequential, hsame, Position.offset, Option.getD_some,
    Option.isSome_some, Bool.true_or]
  rfl

/-- Positions that are implied where they are written down make no difference to the places of
fields. -/
theorem placeAll_restate (frontier : Frontier) (positions : String → Option Nat)
    (fields : List Sized)
    (h : ∀ before field after, fields = before ++ field :: after → ∀ offset,
      positions field.decl.name = some offset → (frontier.after before).Implies field offset) :
    frontier.placeAll (fields.map fun field => field.restate (positions field.decl.name)) =
      frontier.placeAll fields := by
  induction fields generalizing frontier with
  | nil => rfl
  | cons field fields ih =>
    have hstep : frontier.place (field.restate (positions field.decl.name)) =
        frontier.place field := by
      cases hoffset : positions field.decl.name with
      | none => rfl
      | some offset => exact place_restate (h [] field fields rfl offset hoffset)
    have hrest := ih (frontier.place field).2 fun before other after heq =>
      h (field :: before) other after (by rw [heq, List.cons_append])
    simp only [List.map_cons, placeAll, hstep, hrest]

/-- The unit that is open behind a field has the field as a member. -/
theorem exists_member_of_openUnit?_place {group : Nat}
    (h : (frontier.place field).2.openUnit? = some group) :
    ∃ member, (frontier.place field).1.member = some member ∧ member.group = group := by
  have hclose {next : Frontier} (h : next.closeIfFull.openUnit? = some group) :
      next.openUnit? = some group := by
    rcases next.closeIfFull_eq_or with heq | heq
    · rwa [heq] at h
    · rw [heq, openUnit?_close] at h
      cases h
  rw [place] at h ⊢
  split at h
  · exact ⟨_, rfl, Option.some.inj (hclose h)⟩
  · unfold start at h ⊢
    cases hwidth : field.bitWidth? with
    | none =>
      -- a field that is not a bit-field leaves no unit open
      simp [hwidth, openUnit?, unit_close] at h
    | some width =>
      simp only [hwidth] at h ⊢
      exact ⟨_, rfl, Option.some.inj (hclose h)⟩

theorem exists_member_of_openUnit?_after {fields : List Sized} {group : Nat}
    (h : (frontier.after fields).openUnit? = some group) :
    frontier.openUnit? = some group ∨ ∃ placement ∈ frontier.placeAll fields, ∃ member,
      placement.member = some member ∧ member.group = group := by
  induction fields generalizing frontier with
  | nil => exact .inl h
  | cons field fields ih =>
    rcases ih h with hopen | ⟨placement, hmem, hmember⟩
    · exact .inr ⟨_, List.mem_cons_self, exists_member_of_openUnit?_place hopen⟩
    · exact .inr ⟨placement, List.mem_cons_of_mem _ hmem, hmember⟩

end Frontier

/-! ## What a plan infers -/

/-- A sequential field of the plan starts at a fixed offset, and it is no bit-field of a unit that
has a member before it. -/
inductive Plan.Infers (plan : Plan) (name : String) (offset : Nat) : Prop
  | intro {before after : List PlannedField} {field : PlannedField}
      (fields : plan.fields = before ++ field :: after)
      (named : field.name = name)
      (sequential : field.layout.position = .sequential)
      (fixed : field.offset.static? = some offset)
      (first : ∀ slot, field.slot? = some slot → unitMembers before slot.group = [])

/-- What is written down is what the plan infers, also for the fields of alternates. -/
def Restatement.Follows (r : Restatement) (plan : Plan) : Prop :=
  ∀ path name offset, r path name = some offset →
    ∃ part, plan.at? path = some part ∧ part.Infers name offset

/-- In a list where all sizes are known, a sequential field starts where it is expected to. -/
theorem Spread.predicted_of_sequential {widths : Nat → Nat} {next : Expr} {units : Nat}
    {list : List Positioned} (h : Spread widths next units list) {field : Positioned}
    (hmem : field ∈ list) (hposition : field.position = .sequential) :
    field.placement.predicted = some field.placement.offset := by
  induction h with
  | nil => cases hmem
  | single _ _ place _ _ ih =>
    rcases List.mem_cons.1 hmem with rfl | hmem
    · rw [place, hposition]
      rfl
    · exact ih hmem
  | unit _ place joined _ _ ih =>
    rcases List.mem_append.1 hmem with hmem | hmem
    · rcases List.mem_cons.1 hmem with rfl | hmem
      · rw [place, hposition]
        rfl
      · obtain ⟨_, _, -, hoffset, -⟩ := joined.exists_member hmem
        rw [joined.predicted_eq hmem, hoffset]
    · exact ih hmem

/-- A list that corresponds to another is cut where that one is. -/
theorem exists_split_of_forall₂ {α β : Type} {R : α → β → Prop} {before after : List α} {a : α}
    {bs : List β} (h : List.Forall₂ R (before ++ a :: after) bs) :
    ∃ before' b after', bs = before' ++ b :: after' ∧ List.Forall₂ R before before' ∧ R a b := by
  induction before generalizing bs with
  | nil =>
    obtain ⟨b, after', hab, -, rfl⟩ := List.forall₂_cons_left_iff.1 h
    exact ⟨[], b, after', rfl, .nil, hab⟩
  | cons first before ih =>
    obtain ⟨b, rest, hfirst, hrest, rfl⟩ := List.forall₂_cons_left_iff.1 h
    obtain ⟨before', b', after', rfl, hbefore, hab⟩ := ih hrest
    exact ⟨b :: before', b', after', rfl, .cons hfirst hbefore, hab⟩

namespace Schema

variable {schema : Schema} {policy : MismatchPolicy} {plan : Plan}

/-- The places of a field and of those before it. -/
theorem Cut.placements_eq {before after : List Field} {field : Field} {before' : List Positioned}
    {positioned : Positioned} (h : Cut schema policy before field after before' positioned) :
    before'.map (·.placement) = Frontier.initial.placeAll (before.map (·.sized)) ∧
      positioned.placement =
        ((Frontier.initial.after (before.map (·.sized))).place field.sized).1 := by
  obtain ⟨after', hplaced⟩ := h.placed
  obtain ⟨hbefore, hplace⟩ := Prepared.placements_of_split hplaced
  rw [h.sized] at hbefore hplace
  rw [h.field_eq, Field.sized_prepare] at hplace
  exact ⟨hbefore, hplace⟩

/-- A bit-field has a slot in the unit where it was placed. -/
theorem exists_slot?_of_becomes {positioned : Positioned} {planned : PlannedField}
    (hmem : positioned ∈ schema.placed policy)
    (h : positioned.Becomes schema.readOnly (schema.widths policy) planned) {member : UnitMember}
    (hmember : positioned.placement.member = some member) :
    ∃ slot, planned.slot? = some slot ∧ slot.group = member.group := by
  have hbits : positioned.bitWidth?.isSome = true :=
    ((Prepared.laid_positioned (schema.prepared policy)).isSome_member_iff hmem).1
      (by rw [hmember]; rfl)
  refine ⟨member.slot (schema.widths policy member.group), ?_, rfl⟩
  rw [show planned.slot? = _ from Positioned.slot?_of_entry h.entry, if_pos hbits, Positioned.slot,
    hmember]
  rfl

variable {before after : List Field} {field : Field} {before' : List Positioned}
  {positioned : Positioned} {offset : Nat}

/-- What becomes of the field for which an offset is inferred, and of the fields before it. -/
theorem Cut.becomes_of_infers (h : Cut schema policy before field after before' positioned)
    (houtcome : (schema.resolution policy).outcome = .ok plan)
    (hinfers : plan.Infers field.decl.name offset) :
    ∃ fields planned,
      List.Forall₂ (Positioned.Becomes schema.readOnly (schema.widths policy)) before' fields ∧
      positioned.Becomes schema.readOnly (schema.widths policy) planned ∧
      planned.layout.position = .sequential ∧ planned.offset = .literal offset ∧
      ∀ slot, planned.slot? = some slot → unitMembers fields slot.group = [] := by
  obtain ⟨after', hplaced⟩ := h.placed
  have hbecomes := forall₂_becomes houtcome
  rw [hplaced] at hbecomes
  obtain ⟨fields, planned, rest, hsplit, hbefore, hplanned⟩ := exists_split_of_forall₂ hbecomes
  obtain @⟨fields', rest', inferred, hsplit', hnamed, hposition, hfixed, hfirst⟩ := hinfers
  have hname : planned.name = inferred.name := by
    rw [hnamed, hplanned.name_eq, h.field_eq, Field.decl_prepare]
  -- the names tell the fields apart, so both have been found in the same place
  have hsame : planned = inferred := by
    have hfound := field?_of_outcome houtcome (hsplit ▸ List.mem_append_right _ List.mem_cons_self)
    have hfound' :=
      field?_of_outcome houtcome (hsplit' ▸ List.mem_append_right _ List.mem_cons_self)
    rw [hname] at hfound
    exact Option.some.inj (hfound.symm.trans hfound')
  subst hsame
  have hdistinct : plan.fields.Nodup := .of_map _ (distinct_of_outcome houtcome)
  rw [hsplit, List.nodup_middle, List.nodup_cons, List.mem_append, not_or] at hdistinct
  obtain ⟨rfl, -, -⟩ :=
    (List.append_cons_inj_of_notMem hdistinct.1.1 hdistinct.1.2).1 (hsplit.symm.trans hsplit')
  exact ⟨_, planned, hbefore, hplanned, hposition, Expr.static?_eq_some_iff.1 hfixed, hfirst⟩

/-- What a plan infers is implied by the fields before. -/
theorem Cut.implies (h : Cut schema policy before field after before' positioned)
    (houtcome : (schema.resolution policy).outcome = .ok plan)
    (hinfers : plan.Infers field.decl.name offset) :
    (Frontier.initial.after (before.map (·.sized))).Implies field.sized offset := by
  obtain ⟨fields, planned, hfields, hplanned, hposition, hoffset, hfirst⟩ :=
    h.becomes_of_infers houtcome hinfers
  obtain ⟨hbefore, hplace⟩ := h.placements_eq
  have hlayout : planned.layout = positioned.layout (schema.widths policy) planned.size :=
    hplanned.layout
  have hspread := Prepared.spread_positioned fun other hother => by
    obtain ⟨_, -, hbecomes⟩ := exists_right_of_forall₂ (forall₂_becomes houtcome) hother
    exact ⟨_, congrArg Except.toOption hbecomes.size⟩
  have hsequential : positioned.position = .sequential := by
    rw [← hposition, hlayout]
    rfl
  refine ⟨?_, ?_, fun member hmember hopen => ?_⟩
  · rwa [Positioned.position, h.field_eq, Field.decl_prepare] at hsequential
  · rw [← hplace, hspread.predicted_of_sequential h.mem_placed hsequential, ← hoffset,
      PlannedField.offset, hlayout]
    rfl
  · rw [← hplace] at hmember
    obtain ⟨slot, hslot, hgroup⟩ := exists_slot?_of_becomes h.mem_placed hplanned hmember
    rcases Frontier.exists_member_of_openUnit?_after hopen with
      hinitial | ⟨placement, hmem, other, hother, hjoined⟩
    · cases hinitial
    -- the open unit has a member before the field
    rw [← hbefore] at hmem
    obtain ⟨earlier, hearlier, rfl⟩ := List.mem_map.1 hmem
    obtain ⟨found, hfound, hbecomes⟩ := exists_right_of_forall₂ hfields hearlier
    obtain ⟨after', hplaced⟩ := h.placed
    obtain ⟨slot', hslot', hgroup'⟩ := exists_slot?_of_becomes
      (hplaced ▸ List.mem_append_left _ hearlier) hbecomes hother
    refine unitMembers_eq_nil_iff.1 (hfirst slot hslot) found hfound slot' hslot' ?_
    rw [hgroup', hgroup, hjoined]

end Schema

/-! ## Positions that follow a plan -/

theorem Prepared.sized_restate (r : Restatement) (field : Prepared) :
    (field.restate r).sized = field.sized.restate (r [] field.decl.name) := by
  simp only [sized, size_restate]
  rfl

namespace Restatement.Follows

variable {r : Restatement} {plan : Plan}

theorem infers (h : r.Follows plan) {name : String} {offset : Nat}
    (hoffset : r [] name = some offset) : plan.Infers name offset := by
  obtain ⟨part, hpart, hinfers⟩ := h [] name offset hoffset
  obtain rfl := Option.some.inj hpart
  exact hinfers

/-- What is written down in an alternate follows the plan of the alternate. -/
theorem below (h : r.Follows plan) {anchor alternate : String} {inner : Plan}
    (hinner : (plan.field? anchor).bind (·.alternate? alternate) = some inner) :
    (r.below anchor alternate).Follows inner := by
  intro path name offset hoffset
  obtain ⟨part, hpart, hinfers⟩ := h ((anchor, alternate) :: path) name offset hoffset
  rw [Plan.at?, hinner] at hpart
  exact ⟨part, hpart, hinfers⟩

end Restatement.Follows

namespace Schema

variable {schema : Schema} {policy : MismatchPolicy} {plan : Plan} {r : Restatement}

/-- The fields are placed as they were. -/
theorem placements_restate (houtcome : (schema.resolution policy).outcome = .ok plan)
    (h : r.Follows plan) :
    Prepared.placements ((schema.prepared policy).map (·.restate r)) =
      Prepared.placements (schema.prepared policy) := by
  have hsized : ((schema.prepared policy).map (·.restate r)).map (·.sized) =
      (schema.fields.map (·.sized)).map fun field => field.restate (r [] field.decl.name) := by
    rw [← schema.map_sized_prepared policy, List.map_map, List.map_map]
    exact List.map_congr_left fun field _ => field.sized_restate r
  rw [Prepared.placements, hsized, Prepared.placements, schema.map_sized_prepared policy]
  refine Frontier.placeAll_restate _ (r []) _ fun before field after hsplit offset hoffset => ?_
  obtain ⟨before, rest, hfields, rfl, hrest⟩ := List.map_eq_append_iff.1 hsplit
  obtain ⟨field, after, rfl, rfl, -⟩ := List.map_eq_cons_iff.1 hrest
  obtain ⟨_, _, hcut⟩ :
      ∃ before' positioned, Cut schema policy before field after before' positioned :=
    Cut.exists_of_fields hfields
  exact hcut.implies houtcome (h.infers hoffset)

/-- The positions are the ones that the fields before imply. -/
theorem entries_imply (houtcome : (schema.resolution policy).outcome = .ok plan)
    (h : r.Follows plan) :
    ∀ entry ∈ Prepared.entries schema.readOnly (schema.prepared policy),
      entry.Implies (r [] entry.field.name) := by
  intro entry hentry offset hoffset
  obtain ⟨positioned, hplaced, hsettled⟩ := mem_entries_iff.1 hentry
  obtain ⟨before, field, after, before', hcut⟩ := Cut.exists_of_placed hplaced
  obtain ⟨-, hposition, hpredicted, -⟩ := hcut.of_entry hsettled
  rw [hcut.name_of_entry hsettled] at hoffset
  have himplies := hcut.implies houtcome (h.infers hoffset)
  refine ⟨hposition.trans himplies.sequential, ?_⟩
  rw [hpredicted, hcut.placements_eq.2, himplies.predicted]
  rfl

theorem below_restate (r : Restatement) (schema : Schema) (field : Field) (alternate : Alternate) :
    (schema.restate r).below (field.restate r) (alternate.restate (r.below field.decl.name)) =
      (schema.below field alternate).restate (r.below field.decl.name alternate.name) := by
  cases alternate
  simp only [below, restate, Field.decl_restate, Alternate.restate, Field.restateAll_eq_map]
  rfl

/-- A field is prepared as before, if its alternates are resolved as before. -/
theorem prepare_restate {field : Field}
    (h : ∀ alternates, field.alternates? = some alternates → ∀ alternate ∈ alternates,
      ((schema.below field alternate).restate
          (r.below field.decl.name alternate.name)).resolution policy =
        ((schema.below field alternate).resolution policy).change
          (Plan.restate (r.below field.decl.name alternate.name))) :
    (field.restate r).prepare policy schema.readOnly =
      (field.prepare policy schema.readOnly).restate r := by
  cases field with
  | plain decl => rfl
  | anchor decl alternates =>
    have halternates : (alternates.map (·.restate (r.below decl.name))).map
          (·.resolve policy (schema.readOnly || decl.readOnly)) =
        (alternates.map (·.resolve policy (schema.readOnly || decl.readOnly))).map
          fun alternate => (alternate.1,
            alternate.2.change (Plan.restate (r.below decl.name alternate.1))) := by
      rw [List.map_map, List.map_map]
      refine List.map_congr_left fun alternate hmem => ?_
      have hbelow := h alternates rfl alternate hmem
      rw [← below_restate r schema (.anchor decl alternates)] at hbelow
      rw [Function.comp_apply, Function.comp_apply, Alternate.resolve_eq, Alternate.resolve_eq]
      refine Prod.ext ?_ hbelow
      cases alternate
      rfl
    rw [Field.restate, Field.prepare, Field.prepare, Alternate.restateAll_eq_map,
      Alternate.resolveAll_eq_map, Alternate.resolveAll_eq_map]
    exact congrArg (Prepared.mk _ ∘ some) halternates

/-- An alternate has a plan, which is found by its name. -/
theorem exists_inner (houtcome : (schema.resolution policy).outcome = .ok plan) {field : Field}
    (hfield : field ∈ schema.fields) {alternates : List Alternate}
    (halternates : field.alternates? = some alternates) {alternate : Alternate}
    (hmem : alternate ∈ alternates) :
    ∃ inner, ((schema.below field alternate).resolution policy).outcome = .ok inner ∧
      (plan.field? field.decl.name).bind (·.alternate? alternate.name) = some inner := by
  obtain ⟨haccepted, hfields, -⟩ := accepted_of_outcome houtcome
  obtain ⟨planned, hplanned, hrealizes⟩ := exists_right_of_forall₂
    (haccepted.realizes fun _ => explains_prepared) (List.mem_map_of_mem hfield)
  rw [← hfields] at hplanned
  have hname : planned.name = field.decl.name := by
    rw [hrealizes.name, Field.decl_prepare]
  cases hrealizes.below with
  | leaf plain _ =>
    rw [plain] at halternates
    cases halternates
  | @union own plans declared hplans distinct each =>
    obtain rfl := Option.some.inj (halternates.symm.trans declared)
    obtain ⟨sub, hsub, hsubname, hinner⟩ := exists_right_of_forall₂ each hmem
    refine ⟨sub.plan, hinner, ?_⟩
    rw [← hname, field?_of_outcome houtcome hplanned, Option.bind_some, ← hsubname]
    exact PlannedField.alternate?_of_mem hplans distinct hsub

/-- What is written down where a plan infers it leaves everything as it is but the positions. -/
theorem resolution_restate (houtcome : (schema.resolution policy).outcome = .ok plan)
    (h : r.Follows plan) :
    (schema.restate r).resolution policy = (schema.resolution policy).change (Plan.restate r) := by
  induction schema using Schema.nested_induction generalizing plan r with
  | step schema ih =>
    have hprepared : (schema.restate r).prepared policy =
        (schema.prepared policy).map (·.restate r) := by
      rw [prepared, restate, prepared, List.map_map, List.map_map]
      refine List.map_congr_left fun field hfield => prepare_restate fun alternates halternates
        alternate hmem => ?_
      obtain ⟨inner, hinner, hfound⟩ := exists_inner houtcome hfield halternates hmem
      exact ih field hfield alternates halternates alternate hmem hinner (h.below hfound)
    have hfields := Resolution.ofFields_restate policy schema.name
      (placements_restate houtcome h) (entries_imply houtcome h)
    rw [← hprepared] at hfields
    exact hfields

/-- Writing down the offset of a sequential field, where it is the same on every buffer and the
field does not join a unit, changes nothing about the plan but the position itself. -/
theorem resolve_restate (hresolve : schema.resolve policy = .ok plan) (h : r.Follows plan) :
    (schema.restate r).resolve policy = .ok (plan.restate r) := by
  obtain ⟨hrange, houtcome⟩ := resolve_eq_ok_iff.1 hresolve
  rw [resolve_eq_ok_iff, resolution_restate houtcome h]
  exact ⟨hrange, congrArg (Except.map (Plan.restate r)) houtcome⟩

end Schema

/-- A kind, two flags in a unit, and a pair behind them. -/
def pairSchema : Schema where
  name := "Pair"
  fields :=
    [.plain { name := "kind", type := .integer .u8 },
      .plain { name := "urgent", type := .integer .u8, bits := some 3 },
      .plain { name := "level", type := .integer .u8, bits := some 5 },
      .anchor { name := "body", type := .byteArray 4 }
        [.mk "pair" [.plain { name := "left", type := .integer .u16 },
          .plain { name := "right", type := .integer .u16 }]]]

/-- All positions that the plan infers, but for those of the first fields. -/
def pairPositions : Restatement
  | [], "urgent" => some 1
  | [], "body" => some 2
  | [("body", "pair")], "right" => some 2
  | _, _ => none

theorem pairSchema_restate :
    ∃ plan, pairSchema.resolve .error = .ok plan ∧ pairPositions.Follows plan ∧
      (pairSchema.restate pairPositions).resolve .error = .ok (plan.restate pairPositions) ∧
      plan.fields.map (·.layout.position) = [.sequential, .sequential, .sequential, .sequential] ∧
      (plan.restate pairPositions).fields.map (·.layout.position) =
        [.sequential, .literal 1, .sequential, .literal 2] := by
  obtain ⟨plan, hplan, hfollows, hpositions⟩ : ∃ plan, pairSchema.resolve .error = .ok plan ∧
      pairPositions.Follows plan ∧
      plan.fields.map (·.layout.position) = [.sequential, .sequential, .sequential, .sequential] ∧
      (plan.restate pairPositions).fields.map (·.layout.position) =
        [.sequential, .literal 1, .sequential, .literal 2] := by
    refine ⟨_, rfl, fun path name offset hoffset => ?_, rfl, rfl⟩
    unfold pairPositions at hoffset
    split at hoffset
    · obtain rfl := Option.some.inj hoffset
      exact ⟨_, rfl, @Plan.Infers.intro _ _ _ [_] _ _ rfl rfl rfl rfl fun _ _ => rfl⟩
    · obtain rfl := Option.some.inj hoffset
      exact ⟨_, rfl, @Plan.Infers.intro _ _ _ [_, _, _] _ _ rfl rfl rfl rfl nofun⟩
    · obtain rfl := Option.some.inj hoffset
      exact ⟨_, rfl, @Plan.Infers.intro _ _ _ [_] _ _ rfl rfl rfl rfl nofun⟩
    · cases hoffset
  exact ⟨plan, hplan, hfollows, Schema.resolve_restate hplan hfollows, hpositions⟩

end PacketLayout
