import PacketLayout.Proofs.Atomicity

/-!
# Anchors and their alternates

An alternate lies inside its anchor. Where the anchor has a fixed size this is checked once, when
the schema is resolved; where the size depends on the buffer, each time the alternate is entered.

* `View.alternate_eq` says what entering an alternate does, in terms of the range of its anchor.
* `Plan.Pinned` is a path whose anchors all have a known offset and a fixed size.
* `Schema.alternates_fit` is the statement about all anchors of a plan, at any depth.
-/

namespace PacketLayout

/-! ## Sizes -/

theorem Size.isDynamic_of_fixed {size : Size} {count : Nat} (h : size.fixed = some count) :
    size.isDynamic = false := by
  cases size with
  | constant | intrinsic | external => rfl
  | computed | bitWidth | remainder => cases h

/-- An alternate needs no more than a fixed anchor has. -/
theorem Realizes.minimumSize_le {readOnly : Bool} {field : Prepared} {planned : PlannedField}
    (h : Realizes readOnly field planned) {alternates : List AlternatePlan}
    (halternates : planned.alternates? = some alternates) {size : Nat}
    (hsize : planned.size.fixed = some size) {alternate : AlternatePlan}
    (hmem : alternate ∈ alternates) : alternate.plan.minimumSize ≤ size := by
  obtain ⟨slot, -, hshapes⟩ := h.shape
  unfold PlannedField.alternates? at halternates
  generalize planned.shape = shape at halternates hshapes
  cases hshapes with
  | leaf => cases halternates
  | union _ _ _ _ _ _ accepted =>
    obtain rfl := Option.some.inj halternates
    obtain ⟨resolution, -, haccepted⟩ := exists_left_of_forall₂ accepted hmem
    exact haccepted.fits size hsize

theorem PlannedField.exists_of_alternate? {field : PlannedField} {name : String} {plan : Plan}
    (h : field.alternate? name = some plan) :
    ∃ alternates, field.alternates? = some alternates ∧
      ∃ alternate ∈ alternates, alternate.plan = plan := by
  obtain ⟨alternate, hfind, rfl⟩ := Option.map_eq_some_iff.1 h
  obtain ⟨alternates, halternates, hfind⟩ := Option.bind_eq_some_iff.1 hfind
  exact ⟨alternates, halternates, alternate, List.mem_of_find?_eq_some hfind, rfl⟩

/-! ## Ranges that are not found -/

mutual

/-- An offset or a size has no value only where a sum or a start passes its limit. -/
theorem Expr.eval_error {data : Bytes} {error : ReadError} :
    (expr : Expr) → expr.eval data = .error error → ∃ start stop length,
      error = .outOfBounds start stop length
  | .sum constant terms, h => Term.sumFrom_error terms constant (by rwa [Expr.eval] at h)

theorem Term.eval_error {data : Bytes} {error : ReadError} :
    (term : Term) → term.eval data = .error error → ∃ start stop length,
      error = .outOfBounds start stop length
  | .sizeOf _ function, h => by cases h
  | .position function default, h => by
    rw [Term.eval] at h
    cases hdefault : default.eval data with
    | ok value =>
      rw [hdefault] at h
      cases h
    | error cause =>
      rw [hdefault] at h
      obtain rfl := Except.error.inj h
      exact Expr.eval_error default hdefault
  | .remaining start, h => by
    rw [Term.eval] at h
    cases hstart : start.eval data with
    | ok value =>
      simp only [hstart] at h
      split at h
      · cases h
      · exact ⟨_, _, _, (Except.error.inj h).symm⟩
    | error cause =>
      rw [hstart] at h
      obtain rfl := Except.error.inj h
      exact Expr.eval_error start hstart

theorem Term.sumFrom_error {data : Bytes} {error : ReadError} :
    (terms : List Term) → (sum : Nat) → Term.sumFrom data sum terms = .error error →
      ∃ start stop length, error = .outOfBounds start stop length
  | [], sum, h => by cases h
  | term :: terms, sum, h => by
    rw [Term.sumFrom] at h
    cases hterm : term.eval data with
    | ok value =>
      simp only [hterm] at h
      split at h
      · exact Term.sumFrom_error terms _ h
      · exact ⟨_, _, _, (Except.error.inj h).symm⟩
    | error cause =>
      rw [hterm] at h
      obtain rfl := Except.error.inj h
      exact Term.eval_error term hterm

end

namespace View

variable {view : View} {field : PlannedField}

/-- A field of the plan has no range only for want of bytes. -/
theorem locate_error {error : ReadError} (h : view.locate field = .error error) :
    ∃ start stop length, error = .outOfBounds start stop length := by
  obtain h | ⟨start, -, h⟩ := bind_eq_error_iff.1 h
  · exact Expr.eval_error _ h
  obtain h | ⟨length, -, h⟩ := bind_eq_error_iff.1 h
  · exact Expr.eval_error _ h
  · split at h
    · cases h
    · exact ⟨_, _, _, (Except.error.inj h).symm⟩

/-! ## Entering an alternate -/

/-- An alternate is entered where its anchor has a range, if that is long enough. -/
theorem alternate_eq {anchor name : String} {inner : Plan}
    (hfield : view.plan.field? anchor = some field)
    (halternate : field.alternate? name = some inner) :
    view.alternate anchor name =
      match view.range anchor with
      | .ok span =>
        if inner.minimumSize ≤ span.stop - span.start then
          .ok (span.start, ⟨inner, (view.data.drop span.start).take (span.stop - span.start)⟩)
        else .error (.error (.packetTooShort inner.minimumSize (span.stop - span.start)))
      | .error error => .error (.error error) := by
  rw [alternate, lookupAlternate_eq_ok_iff.2 ⟨hfield, halternate⟩, range_eq hfield]
  show Failure.ofError (view.locate field) >>= _ = _
  cases hspan : view.locate field with
  | error error => rfl
  | ok span =>
    obtain ⟨hordered, hinside⟩ := ordered_of_locate hspan
    have hlength : ((view.data.drop span.start).take (span.stop - span.start)).length =
        span.stop - span.start := Bytes.length_of_slice (Bytes.slice_eq_ok hordered hinside)
    show Failure.ofFault (view.data.slice span.start span.stop) >>= _ = _
    rw [Bytes.slice_eq_ok hordered hinside]
    show Failure.ofError (inner.view _) >>= _ = _
    rw [Plan.view, hlength]
    by_cases hfits : inner.minimumSize ≤ span.stop - span.start
    · simp only [if_pos hfits]
      rfl
    · simp only [if_neg hfits]
      rfl

/-- An anchor of fixed size is as long as that wherever it has a range. -/
theorem length_of_fixed {readOnly : Bool} {origin : Prepared} {span : Span} {size : Nat}
    (hrealizes : Realizes readOnly origin field) (hsize : field.size.fixed = some size)
    (hspan : view.locate field = .ok span) : span.stop - span.start = size := by
  obtain ⟨length, hat⟩ := exists_locatedAt hspan
  have hlength := hat.size
  rw [hrealizes.sizeExpr_of_fixed hsize, Expr.eval_literal] at hlength
  rw [hat.stop, Except.ok.inj hlength]
  exact Nat.add_sub_cancel_left _ _

end View

namespace Resolved

variable {policy : MismatchPolicy} {schema : Schema} {plan inner : Plan} {field : PlannedField}
  {anchor name : String} {size : Nat}

theorem minimumSize_le_of_alternate? (h : Resolved policy schema plan)
    (hfield : plan.field? anchor = some field) (halternate : field.alternate? name = some inner)
    (hsize : field.size.fixed = some size) : inner.minimumSize ≤ size := by
  obtain ⟨origin, hrealizes⟩ := h.realizes_of_mem (Plan.mem_of_field? hfield)
  obtain ⟨alternates, halternates, alternate, hmem, rfl⟩ :=
    PlannedField.exists_of_alternate? halternate
  exact hrealizes.minimumSize_le halternates hsize hmem

/-- An alternate of a fixed anchor is entered wherever the anchor has a range. -/
theorem alternate_of_fixed (h : Resolved policy schema plan)
    (hfield : plan.field? anchor = some field) (halternate : field.alternate? name = some inner)
    (hsize : field.size.fixed = some size) (data : Bytes) :
    (∃ inside, View.alternate ⟨plan, data⟩ anchor name = .ok inside) ∨
      ∃ error, View.range ⟨plan, data⟩ anchor = .error error ∧
        View.alternate ⟨plan, data⟩ anchor name = .error (.error error) ∧
        ∀ required actual, error ≠ .packetTooShort required actual := by
  obtain ⟨origin, hrealizes⟩ := h.realizes_of_mem (Plan.mem_of_field? hfield)
  have hfits := h.minimumSize_le_of_alternate? hfield halternate hsize
  rw [View.alternate_eq hfield halternate, View.range_eq hfield]
  cases hspan : View.locate ⟨plan, data⟩ field with
  | ok span =>
    rw [← View.length_of_fixed hrealizes hsize hspan] at hfits
    exact .inl ⟨_, if_pos hfits⟩
  | error error =>
    obtain ⟨start, stop, length, rfl⟩ := View.locate_error hspan
    exact .inr ⟨_, rfl, rfl, nofun⟩

/-- An alternate of an anchor is entered just where the anchor has a range that is long enough. -/
theorem exists_alternate_iff (hfield : plan.field? anchor = some field)
    (halternate : field.alternate? name = some inner) (data : Bytes) :
    (∃ inside, View.alternate ⟨plan, data⟩ anchor name = .ok inside) ↔
      ∃ span, View.range ⟨plan, data⟩ anchor = .ok span ∧
        inner.minimumSize ≤ span.stop - span.start := by
  rw [View.alternate_eq hfield halternate]
  cases hspan : View.range ⟨plan, data⟩ anchor with
  | error error => exact ⟨fun ⟨_, h⟩ => (by cases h), fun ⟨_, h, _⟩ => (by cases h)⟩
  | ok span =>
    by_cases hfits : inner.minimumSize ≤ span.stop - span.start
    · exact ⟨fun _ => ⟨span, rfl, hfits⟩, fun _ => ⟨_, if_pos hfits⟩⟩
    · refine ⟨fun ⟨inside, h⟩ => ?_, fun ⟨other, hother, hle⟩ => ?_⟩
      · simp only [if_neg hfits] at h
        cases h
      · obtain rfl := Except.ok.inj hother
        exact absurd hle hfits

end Resolved

/-! ## Paths through anchors of known place and size -/

/-- A path through anchors whose offsets and sizes are known in advance: where each starts in the
one before, how long the last one is, and the plan of its alternate. -/
inductive Plan.Pinned : Plan → List (String × String) → (starts : List Nat) → (size : Nat) →
    Plan → Prop
  | single {plan inner : Plan} {anchor name : String} {field : PlannedField} {start size : Nat}
      (found : plan.field? anchor = some field) (alternate : field.alternate? name = some inner)
      (offset : field.offset.static? = some start) (fixed : field.size.fixed = some size) :
      Pinned plan [(anchor, name)] [start] size inner
  | cons {plan inner sub : Plan} {anchor name : String} {path : List (String × String)}
      {field : PlannedField} {start own size : Nat} {starts : List Nat}
      (found : plan.field? anchor = some field) (alternate : field.alternate? name = some inner)
      (offset : field.offset.static? = some start) (fixed : field.size.fixed = some own)
      (more : Pinned inner path starts size sub) :
      Pinned plan ((anchor, name) :: path) (start :: starts) size sub

namespace Plan

/-- In a buffer that is viewed, an alternate of an anchor of known place and size is entered. -/
theorem descend_of_static {schema : Schema} {policy : MismatchPolicy} {plan inner : Plan}
    (h : schema.resolve policy = .ok plan) {anchor name : String} {field : PlannedField}
    {start size : Nat} (hfield : plan.field? anchor = some field)
    (halternate : field.alternate? name = some inner) (hoffset : field.offset.static? = some start)
    (hsize : field.size.fixed = some size) {data : Bytes}
    (hdata : plan.minimumSize ≤ data.length) :
    ∃ part, data.slice start (start + size) = .ok part ∧ part.length = size ∧
      inner.minimumSize ≤ part.length ∧
      ∀ path offset last, inner.descend part path = .ok (offset, last) →
        plan.descend data ((anchor, name) :: path) = .ok (start + offset, last) := by
  have hresolved := Schema.resolved h
  have hmem := mem_of_field? hfield
  obtain ⟨origin, hrealizes⟩ := hresolved.realizes_of_mem hmem
  obtain ⟨count, hexpr, hle, hlocate⟩ := hresolved.locate_of_static hmem
    (Expr.static?_eq_some_iff.1 hoffset) (Size.isDynamic_of_fixed hsize) hdata
  obtain rfl : count = size :=
    Expr.literal_inj (hexpr.symm.trans (hrealizes.sizeExpr_of_fixed hsize))
  have hslice := Bytes.slice_eq_ok (Nat.le_add_right start count) (Nat.le_trans hle hdata)
  have hlength := (Bytes.length_of_slice hslice).trans (Nat.add_sub_cancel_left start count)
  have hview : plan.view data = .ok ⟨plan, data⟩ := view_eq_ok_iff.2 ⟨hdata, rfl⟩
  refine ⟨_, hslice, hlength, ?_, fun path offset last hmore => ?_⟩
  · rw [hlength]
    exact hresolved.minimumSize_le_of_alternate? hfield halternate hsize
  · exact descend_cons (Failure.ofError_eq_ok_iff.2 hview)
      (Failure.ofError_eq_ok_iff.2 (View.lookupAlternate_eq_ok_iff.2 ⟨hfield, halternate⟩))
      (Failure.ofError_eq_ok_iff.2 hlocate) hslice hmore

theorem resolve_of_alternate? {schema : Schema} {policy : MismatchPolicy} {plan inner : Plan}
    (h : schema.resolve policy = .ok plan) {anchor name : String} {field : PlannedField}
    (hfield : plan.field? anchor = some field) (halternate : field.alternate? name = some inner) :
    ∃ part : Schema, part.resolve policy = .ok inner := by
  obtain ⟨origin, alternate, -, -, hpart⟩ := (Schema.resolved h).resolve_below hfield halternate
  exact ⟨_, hpart⟩

/-- A path through anchors of known places and sizes leads, in every buffer that is viewed, to the
bytes that the offsets and the last size say. -/
theorem Pinned.descend {plan sub : Plan} {path : List (String × String)} {starts : List Nat}
    {size : Nat} (hpinned : plan.Pinned path starts size sub) {schema : Schema}
    {policy : MismatchPolicy} (h : schema.resolve policy = .ok plan) {data : Bytes}
    (hdata : plan.minimumSize ≤ data.length) :
    ∃ part, data.slice starts.sum (starts.sum + size) = .ok part ∧
      plan.descend data path = .ok (starts.sum, ⟨sub, part⟩) := by
  induction hpinned generalizing schema data with
  | single found alternate offset fixed =>
    obtain ⟨part, hslice, -, hfits, hgoes⟩ := descend_of_static h found alternate offset fixed hdata
    refine ⟨part, hslice, hgoes [] 0 _ ?_⟩
    exact bind_eq_ok_iff.2 ⟨_, Failure.ofError_eq_ok_iff.2 (view_eq_ok_iff.2 ⟨hfits, rfl⟩), rfl⟩
  | @cons plan inner sub anchor name path field start own size starts found alternate offset fixed
      _ ih =>
    obtain ⟨part, hslice, -, hfits, hgoes⟩ := descend_of_static h found alternate offset fixed hdata
    obtain ⟨schema', hinner⟩ := resolve_of_alternate? h found alternate
    obtain ⟨bytes, hbytes, hdescend⟩ := ih hinner hfits
    refine ⟨bytes, ?_, hgoes path _ _ hdescend⟩
    rw [List.sum_cons, Nat.add_assoc]
    exact Bytes.slice_slice hslice hbytes

end Plan

/-! ## In place -/

theorem Lands.error_iff {ε : Type} {kept : Prop} {data : Bytes}
    {result : Except (Failure ε) Bytes} {run : Except (Failure ε) Unit × Bytes}
    (h : Lands kept data result run) (failure : Failure ε) :
    run.1 = .error failure ↔ result = .error failure := by
  cases h with
  | ok after => exact ⟨nofun, nofun⟩
  | error own _ => simp only [Except.error.injEq]

/-- An edit does not reach its view for the reason for which the view is not reached. -/
theorem Plan.edit_unreachable_iff {plan : Plan} {data : Bytes} {path : List (String × String)}
    {edit : Edit} {error : ReadError} :
    plan.edit data path edit = .error (.error (.unreachable error)) ↔
      plan.descend data path = .error (.error error) := by
  cases hdescend : plan.descend data path with
  | error failure =>
    have hedit : plan.edit data path edit = .error (failure.map .unreachable) :=
      bind_eq_error (by rw [hdescend]; rfl) _
    rw [hedit]
    cases failure <;> simp [Failure.map]
  | ok found =>
    obtain ⟨start, last⟩ := found
    refine ⟨fun h => ?_, nofun⟩
    obtain h | ⟨reached, -, h⟩ := bind_eq_error_iff.1 h
    · rw [hdescend] at h
      cases h
    · obtain h | ⟨inner, -, h⟩ := bind_eq_error_iff.1 h
      · cases hinner : reached.2.apply edit with
        | ok bytes =>
          rw [hinner] at h
          cases h
        | error failure =>
          rw [hinner] at h
          cases failure <;> cases h
      · cases h

/-! ## All anchors of a plan -/

/-- An alternate of a fixed anchor never needs more than the anchor has, at any depth. So it is
entered in every buffer where the anchor has a range, and never found too short; an alternate of an
anchor whose size depends on the buffer is entered just where the range is long enough. A path
through anchors of known places and fixed sizes leads, in every buffer that is viewed, to the bytes
of the last anchor, which start at the sum of the offsets. An edit in place reaches what is reached
in this way. -/
theorem Schema.alternates_fit {schema : Schema} {policy : MismatchPolicy} {plan : Plan}
    (h : schema.resolve policy = .ok plan) :
    (∀ path sub, plan.at? path = some sub → ∀ field ∈ sub.fields,
      (∀ alternates, field.alternates? = some alternates → ∀ alternate ∈ alternates,
        ∀ size, field.size.fixed = some size → alternate.plan.minimumSize ≤ size) ∧
      ∀ name inner, field.alternate? name = some inner → ∀ data,
        (∀ size, field.size.fixed = some size →
          (∃ inside, View.alternate ⟨sub, data⟩ field.name name = .ok inside) ∨
            ∃ error, View.range ⟨sub, data⟩ field.name = .error error ∧
              View.alternate ⟨sub, data⟩ field.name name = .error (.error error) ∧
              ∀ required actual, error ≠ .packetTooShort required actual) ∧
        (field.size.isDynamic = true →
          ((∃ inside, View.alternate ⟨sub, data⟩ field.name name = .ok inside) ↔
            ∃ span, View.range ⟨sub, data⟩ field.name = .ok span ∧
              inner.minimumSize ≤ span.stop - span.start))) ∧
    (∀ path starts size sub, plan.Pinned path starts size sub →
      ∀ data view, plan.view data = .ok view →
        ∃ part, data.slice starts.sum (starts.sum + size) = .ok part ∧
          plan.descend data path = .ok (starts.sum, ⟨sub, part⟩)) ∧
    ∀ leftover edit path data error,
      ((plan.perform leftover edit path).exec data).1 = .error (.error (.unreachable error)) ↔
        plan.descend data path = .error (.error error) := by
  refine ⟨fun path sub hsub field hmem => ?_, ?_, fun leftover edit path data error => ?_⟩
  · obtain ⟨part, -, hresolve⟩ := Schema.resolve_at? h hsub
    have hresolved := Schema.resolved hresolve
    have hfield := hresolved.field?_of_mem hmem
    obtain ⟨origin, hrealizes⟩ := hresolved.realizes_of_mem hmem
    refine ⟨fun alternates halternates alternate halternate size hsize =>
      hrealizes.minimumSize_le halternates hsize halternate,
      fun name inner halternate data => ⟨fun size hsize => ?_, fun _ => ?_⟩⟩
    · exact hresolved.alternate_of_fixed hfield halternate hsize data
    · exact Resolved.exists_alternate_iff hfield halternate data
  · intro path starts size sub hpinned data view hview
    exact hpinned.descend h (Plan.view_eq_ok_iff.1 hview).1
  · rw [(Lands.perform h leftover edit path data).error_iff, Plan.edit_unreachable_iff]

/-- As many bytes as the first byte says. -/
def countSize : SizeFunction where
  name := "count"
  run data := (data.headD 0).toNat

/-- An anchor inside a fixed anchor, and an anchor whose size the buffer tells. -/
def crateSchema : Schema where
  name := "Crate"
  fields :=
    [.plain { name := "count", type := .integer .u8 },
      .anchor { name := "outer", type := .byteArray 4 }
        [.mk "wide"
          [.plain { name := "mark", type := .integer .u8 },
            .anchor { name := "inner", type := .byteArray 2 }
              [.mk "deep" [.plain { name := "code", type := .integer .u16 }]]]],
      .anchor { name := "tail", type := .bytes, sizeFunction := some countSize }
        [.mk "pair" [.plain { name := "pair", type := .integer .u16 }]]]

theorem crateSchema_alternates_fit :
    ∃ plan, crateSchema.resolve .error = .ok plan ∧
      (∃ sub part, Bytes.slice [1, 10, 20, 30, 40, 50] 2 4 = .ok part ∧
        plan.descend [1, 10, 20, 30, 40, 50] [("outer", "wide"), ("inner", "deep")] =
          .ok (2, ⟨sub, part⟩)) ∧
      (∃ span, View.range ⟨plan, [1, 10, 20, 30, 40, 50]⟩ "tail" = .ok span) ∧
      ¬ ∃ inside, View.alternate ⟨plan, [1, 10, 20, 30, 40, 50]⟩ "tail" "pair" = .ok inside := by
  obtain ⟨plan, hplan⟩ : ∃ plan, crateSchema.resolve .error = .ok plan := ⟨_, rfl⟩
  obtain ⟨hfits, hleads, -⟩ := Schema.alternates_fit hplan
  obtain ⟨sub, view, hpinned, hview⟩ :
      ∃ sub view, plan.Pinned [("outer", "wide"), ("inner", "deep")] [1, 1] 2 sub ∧
        plan.view [1, 10, 20, 30, 40, 50] = .ok view := by
    cases hplan
    exact ⟨_, _, .cons rfl rfl rfl rfl (.single rfl rfl rfl rfl), rfl⟩
  obtain ⟨part, hslice, hdescend⟩ := hleads _ _ _ _ hpinned _ view hview
  obtain ⟨tail, inner, hfield, halternate, hdynamic, hneeds, hrange⟩ :
      ∃ tail inner, plan.field? "tail" = some tail ∧ tail.alternate? "pair" = some inner ∧
        tail.size.isDynamic = true ∧ inner.minimumSize = 2 ∧
        View.range ⟨plan, [1, 10, 20, 30, 40, 50]⟩ "tail" = .ok ⟨5, 6⟩ := by
    cases hplan
    exact ⟨_, _, rfl, rfl, rfl, rfl, rfl⟩
  refine ⟨plan, hplan, ⟨sub, part, hslice, hdescend⟩, ⟨_, hrange⟩, fun hinside => ?_⟩
  have hiff := ((hfits [] plan rfl tail (Plan.mem_of_field? hfield)).2 "pair" inner halternate
    [1, 10, 20, 30, 40, 50]).2 hdynamic
  rw [Plan.name_of_field? hfield] at hiff
  obtain ⟨span, hspan, hle⟩ := hiff.1 hinside
  obtain rfl := Except.ok.inj (hrange.symm.trans hspan)
  rw [hneeds] at hle
  exact absurd hle (by decide)

end PacketLayout
