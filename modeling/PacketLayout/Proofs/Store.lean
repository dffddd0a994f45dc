import PacketLayout.Proofs.Frame
import PacketLayout.Proofs.Tiling

/-!
# A packet as a store

Calls that write fields come one after the other, and some of them fail. In a plan without gaps,
where only a remainder depends on the buffer, every number behaves like a variable: it has the value
that the last successful call gave it, or the one from the start.

* `Step` is one call, `Run` a sequence of calls.
* `Step.held_of_ne` and `Step.held_of_names` say what one call does to a number.
* `Schema.get_after_run` is the statement about whole runs.
-/

namespace PacketLayout

/-! ## Calls -/

/-- An edit of the view at the end of a path. -/
structure Call where
  path : List (String × String)
  edit : Edit

namespace Call

/-- The field of the plan that the call goes through. -/
def root (call : Call) : String := call.edit.root call.path

/-- The edit, if the call is one of the field itself. -/
def editOf? (call : Call) (name : String) : Option Edit :=
  if call.path = [] ∧ call.edit.field = name then some call.edit else none

end Call

theorem Call.root_of_editOf? {call : Call} {name : String} {edit : Edit}
    (h : call.editOf? name = some edit) : call.path = [] ∧ call.edit = edit ∧ call.root = name := by
  unfold Call.editOf? at h
  split at h
  · rename_i hnames
    obtain ⟨hpath, hfield⟩ := hnames
    refine ⟨hpath, Option.some.inj h, ?_⟩
    rw [Call.root, hpath, Edit.root, hfield]
  · cases h

/-- One call, whether it succeeds, and the buffer before and after. A call that fails changes
nothing, except that a composite may refuse a value after it has written over its own range. -/
inductive Step (plan : Plan) (call : Call) : (succeeds : Bool) → (before after : Bytes) → Prop
  | done {before after : Bytes} (result : plan.edit before call.path call.edit = .ok after) :
      Step plan call true before after
  | failed {before : Bytes} {failure : Failure EditError}
      (refused : plan.edit before call.path call.edit = .error failure) :
      Step plan call false before before
  | spoiled {before data spoil : Bytes} {start : Nat} {view : View} {name : String}
      {type : Composite} {span : Span}
      (bytes : call.edit = .bytes name data)
      (descend : plan.descend before call.path = .ok (start, view))
      (target : view.target name = .ok (.composite type, span))
      (refused : plan.edit before call.path call.edit =
        .error (.error (.refused (.invalidValue name))))
      (length : spoil.length = span.stop - span.start) :
      Step plan call false before (before.overwrite (start + span.start) spoil)

/-- Calls one after the other, each with its success. -/
inductive Run (plan : Plan) : (before : Bytes) → List (Call × Bool) → (after : Bytes) → Prop
  | nil (data : Bytes) : Run plan data [] data
  | cons {before middle after : Bytes} {call : Call} {succeeds : Bool} {rest : List (Call × Bool)}
      (step : Step plan call succeeds before middle) (more : Run plan middle rest after) :
      Run plan before ((call, succeeds) :: rest) after

/-- The edit of the field, if the call is one and succeeds. -/
def doneEdit? (name : String) (call : Call × Bool) : Option Edit :=
  if call.2 then call.1.editOf? name else none

/-- The last edit of a field that succeeded. -/
def lastEdit? (name : String) (calls : List (Call × Bool)) : Option Edit :=
  (calls.filterMap (doneEdit? name)).getLast?

/-! ## What one call changes -/

namespace Step

variable {policy : MismatchPolicy} {schema : Schema} {plan : Plan} {call : Call} {succeeds : Bool}
  {before after : Bytes}

/-- A call changes bytes of the field that it goes through only. -/
theorem agreeOutside (h : schema.resolve policy = .ok plan)
    (hstep : Step plan call succeeds before after) :
    after = before ∨ ∃ field span, plan.field? call.root = some field ∧
      (field.leaf?.isSome = true ↔ call.path = []) ∧ View.locate ⟨plan, before⟩ field = .ok span ∧
      Bytes.AgreeOutside span.start span.stop before after := by
  cases hstep with
  | done result => exact .inr (Schema.edit_agreeOutside h result)
  | failed => exact .inl rfl
  | @spoiled _ data spoil start view name type span bytes descend target refused length =>
    refine .inr ?_
    obtain ⟨path, edit⟩ := call
    obtain rfl : edit = .bytes name data := bytes
    have hfollow := Plan.follow_of_descend descend
    obtain ⟨field, leaf, hfield, hleaf, -, hspan⟩ := View.exists_of_target target
    obtain ⟨count, hat⟩ := View.exists_locatedAt hspan
    have hstop := hat.stop
    have hinside := hat.inside
    cases path with
    | nil =>
      obtain ⟨rfl, rfl⟩ := View.eq_of_follow_nil hfollow
      refine ⟨field, span, hfield, by simp [hleaf], hspan, ?_⟩
      rw [Nat.zero_add]
      exact Bytes.agreeOutside_overwrite (by omega) hinside
    | cons step path =>
      -- the range lies in a view of an alternate, and this one inside its anchor
      obtain ⟨anchor, alternate⟩ := step
      obtain ⟨outer, range, houter, hanchor, hrange, hstart, hend, hwhole⟩ :=
        View.inside_of_follow_cons hfollow
      refine ⟨outer, range, houter, by simp [hanchor], hrange, ?_⟩
      have hwhole : range.stop ≤ before.length := hwhole
      exact (Bytes.agreeOutside_overwrite (Nat.le_refl _) (by omega)).mono (by omega) (by omega)

theorem length_eq (h : schema.resolve policy = .ok plan)
    (hstep : Step plan call succeeds before after) : after.length = before.length := by
  rcases hstep.agreeOutside h with rfl | ⟨field, span, -, -, -, hagree⟩
  · rfl
  · exact hagree.length

/-- A call of a number either puts another number in, or changes nothing. -/
theorem outcome_of_nil (h : Resolved policy schema plan)
    (hstep : Step plan call succeeds before after) (hpath : call.path = []) {field : PlannedField}
    (hfield : plan.field? call.edit.field = some field) {leaf : Leaf}
    (hleaf : field.leaf? = some leaf) {width : Nat}
    (hwidth : leaf.provider.wordWidth? = some width) {span : Span}
    (hspan : View.locate ⟨plan, before⟩ field = .ok span) :
    (succeeds = false ∧ after = before) ∨
      ∃ number, succeeds = true ∧ leaf.provider.numberOf? call.edit = some number ∧
        after = View.stored ⟨plan, before⟩ span width leaf.provider number := by
  obtain ⟨path, edit⟩ := call
  obtain rfl : path = [] := hpath
  have htarget : ∀ {provider range}, View.target ⟨plan, before⟩ edit.field = .ok (provider, range) →
      provider = leaf.provider ∧ range = span := by
    intro provider range htarget
    obtain ⟨found, leaf', hfound, hleaf', rfl, hrange⟩ := View.exists_of_target htarget
    obtain rfl := Option.some.inj (hfield.symm.trans hfound)
    obtain rfl := Option.some.inj (hleaf.symm.trans hleaf')
    exact ⟨rfl, Except.ok.inj (hrange.symm.trans hspan)⟩
  cases hstep with
  | done result =>
    -- without a path the edit of the buffer is one of the view, and has its outcome
    have happly := h.apply_of_edit result
    obtain ⟨provider, range, hfound⟩ := View.exists_target_of_apply happly
    obtain ⟨rfl, rfl⟩ := htarget hfound
    obtain ⟨hreaches, -⟩ :=
      h.reaches_of_locate (Plan.mem_of_field? hfield) hleaf hwidth hspan
    rw [View.apply_eq hfound hreaches, View.outcome] at happly
    cases hnumber : leaf.provider.numberOf? edit with
    | none =>
      rw [hnumber] at happly
      cases happly
    | some number =>
      rw [hnumber] at happly
      exact .inr ⟨number, rfl, rfl, (Except.ok.inj happly).symm⟩
  | failed => exact .inl ⟨rfl, rfl⟩
  | @spoiled _ data spoil start view name type range bytes descend target =>
    -- only a composite can be spoiled, and it holds no number
    obtain rfl : edit = .bytes name data := bytes
    obtain ⟨rfl, rfl⟩ := View.eq_of_follow_nil (Plan.follow_of_descend descend)
    rw [← (htarget target).1] at hwidth
    cases hwidth

end Step

/-! ## What one call does to a number -/

/-- A leaf of a plan that holds a number at a known place. -/
structure Holds (plan : Plan) (field : PlannedField) (leaf : Leaf) (start width : Nat) : Prop where
  mem : field ∈ plan.fields
  leaf? : field.leaf? = some leaf
  wordWidth? : leaf.provider.wordWidth? = some width
  offset : field.offset = .literal start
  sizeExpr : field.sizeExpr = .literal width
  inside : start + width ≤ plan.minimumSize

/-- The number that a buffer holds in a word. -/
def Leaf.held (leaf : Leaf) (start width : Nat) (data : Bytes) : UInt64 :=
  leaf.provider.number (data.wordAt start width)

theorem Resolved.holds {policy : MismatchPolicy} {schema : Schema} {plan : Plan}
    {field : PlannedField} {leaf : Leaf} {start width : Nat} (h : Resolved policy schema plan)
    (hmem : field ∈ plan.fields) (hleaf : field.leaf? = some leaf)
    (hwidth : leaf.provider.wordWidth? = some width) (hoffset : field.offset = .literal start) :
    Holds plan field leaf start width := by
  obtain ⟨origin, hrealizes⟩ := h.realizes_of_mem hmem
  obtain ⟨slot, -, hsource⟩ := hrealizes.source_of_leaf? hleaf
  have hsize := hrealizes.sizeExpr_of_wordWidth? hleaf hwidth
  obtain ⟨count, hcount, hle⟩ := h.stop_le_minimumSize hmem hoffset (hsource.isDynamic_eq hwidth)
  obtain rfl := Expr.literal_inj (hcount.symm.trans hsize)
  exact ⟨hmem, hleaf, hwidth, hoffset, hsize, hle⟩

namespace Holds

variable {policy : MismatchPolicy} {schema : Schema} {plan : Plan} {field : PlannedField}
  {leaf : Leaf} {start width : Nat} {before after : Bytes}

theorem locate_eq (hholds : Holds plan field leaf start width)
    (hlength : plan.minimumSize ≤ before.length) :
    View.locate ⟨plan, before⟩ field = .ok ⟨start, start + width⟩ :=
  View.locate_of_literal hholds.offset hholds.sizeExpr (Nat.le_trans hholds.inside hlength)

theorem get_eq (h : Resolved policy schema plan) (hholds : Holds plan field leaf start width)
    (hlength : plan.minimumSize ≤ before.length) :
    View.get ⟨plan, before⟩ field.name =
      .ok (leaf.provider.valueOf (leaf.held start width before)) := by
  have hspan := hholds.locate_eq hlength
  obtain ⟨hreaches, -⟩ :=
    h.reaches_of_locate hholds.mem hholds.leaf? hholds.wordWidth? hspan
  exact View.get_eq (h.field?_of_mem hholds.mem) hholds.leaf? hspan hreaches

/-- The word stays as it is when bytes behind or in front of it change. -/
theorem held_of_before (hholds : Holds plan field leaf start width) {other : PlannedField}
    {span : Span} (hspan : View.locate ⟨plan, before⟩ other = .ok span)
    (hagree : Bytes.AgreeOutside span.start span.stop before after)
    (h : Before field other ∨ Before other field) :
    leaf.held start width after = leaf.held start width before := by
  obtain ⟨length, hat⟩ := View.exists_locatedAt hspan
  have hstart := hat.offset
  have hlength := hat.size
  have hstop := hat.stop
  rw [Leaf.held, Leaf.held]
  rcases h with ⟨first, count, later, hfirst, hcount, hlater, hle⟩ |
    ⟨first, count, later, hfirst, hcount, hlater, hle⟩
  · rw [hlater, Expr.eval_literal] at hstart
    obtain rfl := Expr.literal_inj (hholds.offset.symm.trans hfirst)
    obtain rfl := Expr.literal_inj (hholds.sizeExpr.symm.trans hcount)
    obtain rfl := Except.ok.inj hstart
    rw [Bytes.wordAt_of_agreeOutside hagree (.inl hle)]
  · rw [hfirst, Expr.eval_literal] at hstart
    rw [hcount, Expr.eval_literal] at hlength
    obtain rfl := Expr.literal_inj (hholds.offset.symm.trans hlater)
    obtain rfl := Except.ok.inj hstart
    obtain rfl := Except.ok.inj hlength
    rw [Bytes.wordAt_of_agreeOutside hagree (.inr (by omega))]

/-- The bits of the number stay as they are when a sibling is written. -/
theorem held_of_siblings (h : Resolved policy schema plan)
    (hholds : Holds plan field leaf start width) (hlength : plan.minimumSize ≤ before.length)
    {other : PlannedField} (hsiblings : Siblings field other) {call : Call} {succeeds : Bool}
    (hstep : Step plan call succeeds before after) (hpath : call.path = [])
    (hother : plan.field? call.edit.field = some other) :
    leaf.held start width after = leaf.held start width before := by
  have hmem := Plan.mem_of_field? hother
  obtain ⟨slot, slot', hslot, hslot', hapart⟩ := hsiblings.apart
  obtain ⟨leaf', hleaf', hprovider'⟩ := Option.bind_eq_some_iff.1 hslot'
  rw [PlannedField.slot?, hholds.leaf?] at hslot
  have hwidth' := Provider.wordWidth?_of_slot? hprovider'
  -- the sibling is found at the same word
  obtain ⟨origin, hrealizes⟩ := h.realizes_of_mem hmem
  have hsizeExpr := hrealizes.sizeExpr_of_wordWidth? hleaf' hwidth'
  obtain rfl : width = slot'.unit := Expr.literal_inj
    (hholds.sizeExpr.symm.trans (hsiblings.sizeExpr.trans hsizeExpr))
  have hspan : View.locate ⟨plan, before⟩ other = .ok ⟨start, start + slot'.unit⟩ :=
    View.locate_of_literal (hsiblings.offset.symm.trans hholds.offset) hsizeExpr
      (Nat.le_trans hholds.inside hlength)
  obtain ⟨hreaches, -⟩ := h.reaches_of_locate hholds.mem hholds.leaf? hholds.wordWidth?
    (hholds.locate_eq hlength)
  obtain ⟨hreaches', -⟩ := h.reaches_of_locate hmem hleaf' hwidth' hspan
  rcases hstep.outcome_of_nil h hpath hother hleaf' hwidth' hspan with
    ⟨-, rfl⟩ | ⟨number, -, hnumber, rfl⟩
  · rfl
  · have hlt := Provider.numberOf?_lt hnumber
    have hword := View.wordAt_stored hreaches' hlt
    rw [Leaf.held, Leaf.held, hword,
      Provider.number_put_apart hreaches.fits hreaches'.fits hslot hprovider' hapart hlt]
    rfl

end Holds

namespace Step

variable {schema : Schema} {plan : Plan} {call : Call} {succeeds : Bool} {before after : Bytes}
  {field : PlannedField} {leaf : Leaf} {start width : Nat}

/-- A call that goes through another field leaves the number alone. -/
theorem held_of_ne (h : schema.resolve .error = .ok plan)
    (hcomputed : ∀ field ∈ schema.fields, field.decl.position.isComputed = false)
    (hstatic : ∀ field ∈ plan.fields, field.size.isDynamic = true → field.size.isRemainder = true)
    (hholds : Holds plan field leaf start width) (hlength : plan.minimumSize ≤ before.length)
    (hstep : Step plan call succeeds before after) (hne : call.root ≠ field.name) :
    leaf.held start width after = leaf.held start width before := by
  have hresolved := Schema.resolved h
  rcases hstep.agreeOutside h with rfl | ⟨other, span, hother, hpath, hspan, hagree⟩
  · rfl
  · have hdiffer : field ≠ other := by
      rintro rfl
      exact hne (Plan.name_of_field? hother).symm
    rcases (hresolved.separate hcomputed hstatic).2 field hholds.mem other
      (Plan.mem_of_field? hother) hdiffer with hbefore | hbehind | hsiblings
    · exact hholds.held_of_before hspan hagree (.inl hbefore)
    · exact hholds.held_of_before hspan hagree (.inr hbehind)
    · -- a sibling is a leaf, so the call has no path
      obtain ⟨-, slot, -, hslot, -⟩ := hsiblings.apart
      obtain ⟨leaf', hleaf', -⟩ := Option.bind_eq_some_iff.1 hslot
      have hnil : call.path = [] := hpath.1 (by simp [hleaf'])
      rw [Call.root, hnil, Edit.root] at hother
      exact hholds.held_of_siblings hresolved hlength hsiblings hstep hnil hother

/-- After a call the number is the one that an edit of the field asked for, if it succeeded, and
otherwise the one from before. -/
theorem held_eq (h : schema.resolve .error = .ok plan)
    (hcomputed : ∀ field ∈ schema.fields, field.decl.position.isComputed = false)
    (hstatic : ∀ field ∈ plan.fields, field.size.isDynamic = true → field.size.isRemainder = true)
    (hholds : Holds plan field leaf start width) (hlength : plan.minimumSize ≤ before.length)
    (hstep : Step plan call succeeds before after) :
    match doneEdit? field.name (call, succeeds) with
    | some edit => leaf.provider.numberOf? edit = some (leaf.held start width after)
    | none => leaf.held start width after = leaf.held start width before := by
  have hresolved := Schema.resolved h
  have hfield := hresolved.field?_of_mem hholds.mem
  have hspan := hholds.locate_eq hlength
  cases hedit : call.editOf? field.name with
  | none =>
    have hsame : leaf.held start width after = leaf.held start width before := by
      by_cases hroot : call.root = field.name
      · -- the call enters the field as an anchor, which it is not
        have hpath : call.path ≠ [] := by
          intro hnil
          rw [Call.root, hnil, Edit.root] at hroot
          rw [Call.editOf?, if_pos ⟨hnil, hroot⟩] at hedit
          cases hedit
        rcases hstep.agreeOutside h with rfl | ⟨other, span, hother, hanchor, -, -⟩
        · rfl
        · rw [hroot, hfield] at hother
          obtain rfl := Option.some.inj hother
          exact absurd (hanchor.1 (by simp [hholds.leaf?])) hpath
      · exact hstep.held_of_ne h hcomputed hstatic hholds hlength hroot
    have hdone : doneEdit? field.name (call, succeeds) = none := by
      cases succeeds with
      | true => exact hedit
      | false => rfl
    rw [hdone]
    exact hsame
  | some edit =>
    obtain ⟨hpath, rfl, hroot⟩ := Call.root_of_editOf? hedit
    have hname : call.edit.field = field.name := by
      rw [Call.root, hpath, Edit.root] at hroot
      exact hroot
    rcases hstep.outcome_of_nil hresolved hpath (hname ▸ hfield) hholds.leaf?
      hholds.wordWidth? hspan with ⟨rfl, rfl⟩ | ⟨number, rfl, hnumber, rfl⟩
    · rfl
    · obtain ⟨hreaches, -⟩ :=
        hresolved.reaches_of_locate hholds.mem hholds.leaf? hholds.wordWidth? hspan
      have hlt := Provider.numberOf?_lt hnumber
      have hdone : doneEdit? field.name (call, true) = some call.edit := hedit
      rw [hdone]
      simp only
      rw [hnumber, Leaf.held, View.wordAt_stored hreaches hlt,
        Provider.number_put hreaches.fits hlt]

end Step

/-! ## Runs -/

theorem lastEdit?_cons (name : String) (call : Call × Bool) (rest : List (Call × Bool)) :
    lastEdit? name (call :: rest) = (lastEdit? name rest).or (doneEdit? name call) := by
  rw [lastEdit?, lastEdit?, List.filterMap_cons]
  cases doneEdit? name call with
  | none => rw [Option.or_none]
  | some edit => rw [List.getLast?_cons, Option.or_some]

/-- After a run the number is the one that the last successful edit of the field asked for, or the
one from the start. -/
theorem Run.held_eq {schema : Schema} {plan : Plan} {field : PlannedField} {leaf : Leaf}
    {start width : Nat} {before after : Bytes} {calls : List (Call × Bool)}
    (h : schema.resolve .error = .ok plan)
    (hcomputed : ∀ field ∈ schema.fields, field.decl.position.isComputed = false)
    (hstatic : ∀ field ∈ plan.fields, field.size.isDynamic = true → field.size.isRemainder = true)
    (hholds : Holds plan field leaf start width) (hlength : plan.minimumSize ≤ before.length)
    (hrun : Run plan before calls after) :
    after.length = before.length ∧
      match lastEdit? field.name calls with
      | some edit => leaf.provider.numberOf? edit = some (leaf.held start width after)
      | none => leaf.held start width after = leaf.held start width before := by
  induction hrun with
  | nil data => exact ⟨rfl, rfl⟩
  | @cons before middle after call succeeds rest hstep _ ih =>
    have hmiddle := hstep.length_eq h
    have hcall := hstep.held_eq h hcomputed hstatic hholds hlength
    obtain ⟨hafter, hrest⟩ := ih (hmiddle.symm ▸ hlength)
    refine ⟨hafter.trans hmiddle, ?_⟩
    rw [lastEdit?_cons]
    cases hlast : lastEdit? field.name rest with
    | some edit =>
      rw [hlast] at hrest
      exact hrest
    | none =>
      -- nothing later wrote the number, so it is the one that this call left
      rw [hlast] at hrest
      rw [Option.none_or]
      simp only at hrest
      rw [hrest]
      exact hcall

/-- Where no position is computed and only a remainder depends on the buffer, a number that is read
after any calls is the one of the last call that wrote it, or the one from before them all. -/
theorem Schema.get_after_run {schema : Schema} {plan : Plan} {data after : Bytes} {view : View}
    {calls : List (Call × Bool)} {field : PlannedField} {leaf : Leaf}
    (h : schema.resolve .error = .ok plan)
    (hcomputed : ∀ field ∈ schema.fields, field.decl.position.isComputed = false)
    (hstatic : ∀ field ∈ plan.fields, field.size.isDynamic = true → field.size.isRemainder = true)
    (hview : plan.view data = .ok view) (hrun : Run plan data calls after)
    (hmem : field ∈ plan.fields) (hleaf : field.leaf? = some leaf)
    (hnumber : leaf.provider.wordWidth?.isSome = true) :
    ∃ value view', plan.view after = .ok view' ∧ view'.get field.name = .ok value ∧
      match lastEdit? field.name calls with
      | some edit => leaf.provider.meaning? edit = some value
      | none => view.get field.name = .ok value := by
  have hresolved := Schema.resolved h
  obtain ⟨hlength, rfl⟩ := Plan.view_eq_ok_iff.1 hview
  obtain ⟨width, hwidth⟩ := Option.isSome_iff_exists.1 hnumber
  obtain ⟨start, hoffset⟩ := (hresolved.separate hcomputed hstatic).1 field hmem
  have hholds := hresolved.holds hmem hleaf hwidth hoffset
  obtain ⟨hafter, hheld⟩ := hrun.held_eq h hcomputed hstatic hholds hlength
  have hlength' : plan.minimumSize ≤ after.length := hafter.symm ▸ hlength
  refine ⟨_, ⟨plan, after⟩, Plan.view_eq_ok_iff.2 ⟨hlength', rfl⟩,
    hholds.get_eq hresolved hlength', ?_⟩
  cases hlast : lastEdit? field.name calls with
  | some edit =>
    rw [hlast] at hheld
    exact Provider.meaning?_of_numberOf? hheld
  | none =>
    rw [hlast] at hheld
    simp only at hheld ⊢
    rw [hheld]
    exact hholds.get_eq hresolved hlength

/-- Two bit-fields of a byte, a signed number, an anchor, and the rest. -/
def mixedSchema : Schema where
  name := "Mixed"
  fields :=
    [.plain { name := "kind", type := .integer .u8, bits := some 3 },
      .plain { name := "flag", type := .integer .u8, bits := some 5 },
      .plain { name := "level", type := .integer .i8 },
      .anchor { name := "body", type := .byteArray 2 }
        [.mk "word" [.plain { name := "value", type := .integer .u16 }]],
      .plain { name := "rest", type := .bytes, remainder := true }]

/-- A write of every kind: to a bit-field, below the anchor, with a sign, and one that fails. -/
def mixedCalls : List (Call × Bool) :=
  [(⟨[], .unsigned "kind" 5⟩, true), (⟨[("body", "word")], .unsigned "value" 0x0102⟩, true),
    (⟨[], .signed "level" (-2)⟩, true), (⟨[], .unsigned "flag" 32⟩, false)]

theorem mixedSchema_get_after_run :
    ∃ plan field leaf view, mixedSchema.resolve .error = .ok plan ∧
      plan.view [0x1f, 7, 0, 0, 9] = .ok view ∧
      Run plan [0x1f, 7, 0, 0, 9] mixedCalls [0xbf, 0xfe, 1, 2, 9] ∧
      field ∈ plan.fields ∧ field.name = "level" ∧ field.leaf? = some leaf ∧
      ∃ value view', plan.view [0xbf, 0xfe, 1, 2, 9] = .ok view' ∧
        view'.get field.name = .ok value ∧
        match lastEdit? field.name mixedCalls with
        | some edit => leaf.provider.meaning? edit = some value
        | none => view.get field.name = .ok value := by
  obtain ⟨plan, hplan⟩ : ∃ plan, mixedSchema.resolve .error = .ok plan := ⟨_, rfl⟩
  have hcomputed : ∀ field ∈ mixedSchema.fields, field.decl.position.isComputed = false := by
    decide
  have hstatic : ∀ field ∈ plan.fields,
      field.size.isDynamic = true → field.size.isRemainder = true := by
    have hall : plan.fields.all (fun field =>
        !field.size.isDynamic || field.size.isRemainder) = true := by
      cases hplan
      rfl
    intro field hmem hdynamic
    have hfield := List.all_eq_true.1 hall field hmem
    simpa [hdynamic] using hfield
  obtain ⟨view, hview⟩ : ∃ view, plan.view [0x1f, 7, 0, 0, 9] = .ok view := by
    cases hplan
    exact ⟨_, rfl⟩
  have hrun : Run plan [0x1f, 7, 0, 0, 9] mixedCalls [0xbf, 0xfe, 1, 2, 9] := by
    cases hplan
    exact .cons (.done rfl) (.cons (.done rfl) (.cons (.done rfl) (.cons (.failed rfl) (.nil _))))
  obtain ⟨field, hmem, hname, leaf, hleaf, hnumber⟩ :
      ∃ field, field ∈ plan.fields ∧ field.name = "level" ∧ ∃ leaf, field.leaf? = some leaf ∧
        leaf.provider.wordWidth?.isSome = true := by
    cases hplan
    exact ⟨_, .tail _ (.tail _ (.head _)), rfl, _, rfl, rfl⟩
  exact ⟨plan, field, leaf, view, hplan, hview, hrun, hmem, hname, hleaf,
    Schema.get_after_run hplan hcomputed hstatic hview hrun hmem hleaf hnumber⟩

end PacketLayout
