import PacketLayout.Proofs.Faults
import PacketLayout.Proofs.Store

/-!
# What may be written

A schema, an anchor and a field can each refuse writes. The refusal of a schema or of an anchor
holds for everything below it, and a range of bytes without further meaning is never written.

* `Schema.anchorsOn` are the anchors that a path goes through.
* `Plan.exec_perform_of_refused` says that an edit whose field is refused stores nothing.
* `Schema.readOnly_inherited` is the statement about all leaves of a plan, at any depth.
-/

namespace PacketLayout

/-! ## Who forbids writing -/

/-- The anchors that a path goes through, outermost first. -/
def Schema.anchorsOn (schema : Schema) : List (String × String) → List Field
  | [] => []
  | (anchor, alternate) :: path =>
    match schema.field? anchor with
    | none => []
    | some field =>
      field :: match field.alternate? alternate with
        | none => []
        | some alternate => (schema.below field alternate).anchorsOn path

/-- Below a path everything is read-only if the schema or an anchor on the path is. -/
theorem Schema.readOnly_at? {schema part : Schema} {path : List (String × String)}
    (h : schema.at? path = some part) :
    part.readOnly = (schema.readOnly || (schema.anchorsOn path).any (·.decl.readOnly)) := by
  induction path generalizing schema with
  | nil =>
    obtain rfl := Option.some.inj h
    exact (Bool.or_false _).symm
  | cons step path ih =>
    obtain ⟨anchor, name⟩ := step
    obtain ⟨field, hfield, h⟩ := Option.bind_eq_some_iff.1 h
    obtain ⟨alternate, halternate, h⟩ := Option.bind_eq_some_iff.1 h
    simp only [anchorsOn, hfield, halternate, List.any_cons]
    rw [ih h, below, Bool.or_assoc]

/-- A leaf may be written if the list and the field allow it and its provider can. -/
theorem Realizes.writable_eq {readOnly : Bool} {field : Prepared} {planned : PlannedField}
    (h : Realizes readOnly field planned) {leaf : Leaf} (hleaf : planned.leaf? = some leaf) :
    leaf.writable = (!readOnly && !field.decl.readOnly && leaf.provider.isWritable) := by
  obtain ⟨slot, -, hshapes⟩ := h.shape
  unfold PlannedField.leaf? at hleaf
  generalize planned.shape = shape at hleaf hshapes
  cases hshapes with
  | leaf =>
    obtain rfl := Option.some.inj hleaf
    rfl
  | union => cases hleaf

theorem Provider.isWritable_iff {provider : Provider} :
    provider.isWritable = true ↔ provider ≠ .rawSlice := by
  cases provider <;> simp [isWritable]

/-! ## Refused edits -/

namespace View

variable {view : View} {name : String} {field : PlannedField}

theorem target_of_field? (hfield : view.plan.field? name = some field) :
    view.target name =
      match field.leaf? with
      | none => .error (.unionAccess ⟨field.name, .value⟩)
      | some leaf =>
        if leaf.writable then do
          let span ← (view.locate field).mapError .ofRead
          pure (leaf.provider, span)
        else .error (.readOnly name) := by
  rw [target, lookup_eq_ok_iff.2 hfield]
  rfl

/-- A leaf that may not be written is refused before its range is looked for. -/
theorem target_of_not_writable {leaf : Leaf} (hfield : view.plan.field? name = some field)
    (hleaf : field.leaf? = some leaf) (hwritable : leaf.writable = false) :
    view.target name = .error (.readOnly name) := by
  simp only [target_of_field? hfield, hleaf, hwritable, Bool.false_eq_true, if_false]

/-- Where no leaf may be written, no field is the target of an edit. -/
theorem exists_target_error (h : ∀ field ∈ view.plan.fields, ∀ leaf, field.leaf? = some leaf →
    leaf.writable = false) (name : String) : ∃ error, view.target name = .error error := by
  cases hfield : view.plan.field? name with
  | none =>
    have hlookup : view.lookup name = .error (.unknownField name) := by rw [lookup, hfield]
    exact ⟨.missingField name,
      bind_eq_error (congrArg (Except.mapError WriteError.ofRead) hlookup) _⟩
  | some field =>
    cases hleaf : field.leaf? with
    | none => exact ⟨.unionAccess ⟨field.name, .value⟩, by rw [target_of_field? hfield, hleaf]⟩
    | some leaf =>
      have hwritable := h field (Plan.mem_of_field? hfield) leaf hleaf
      exact ⟨.readOnly name, target_of_not_writable hfield hleaf hwritable⟩

end View

/-! ## Nothing is stored -/

namespace InPlace

variable {ε ε' α : Type} {data : Bytes}

/-- A procedure fails and leaves every byte as it was. -/
def Refrains (procedure : InPlace ε α) (data : Bytes) : Prop :=
  ∃ failure, procedure.exec data = (.error failure, data)

namespace Refrains

theorem ask_bind {β : Type} {question : Bytes → Except (Failure ε) β} {next : β → InPlace ε α}
    (h : ∀ b, question data = .ok b → (next b).Refrains data) :
    Refrains (ask question >>= next) data := by
  cases hquestion : question data with
  | ok b =>
    obtain ⟨failure, hnext⟩ := h b hquestion
    exact ⟨failure, (exec_bind_of_ok (by rw [exec_ask, hquestion])).trans hnext⟩
  | error failure => exact ⟨failure, exec_bind_of_error (by rw [exec_ask, hquestion])⟩

theorem mapError {procedure : InPlace ε α} (h : procedure.Refrains data) (f : ε → ε') :
    (procedure.mapError f).Refrains data := by
  obtain ⟨failure, h⟩ := h
  refine ⟨failure.map f, ?_⟩
  show (((procedure.exec data).1.mapError (·.map f)), (procedure.exec data).2) = _
  rw [h]
  rfl

theorem within {span : Span} {inner : InPlace ε α}
    (h : ∀ part, data.slice span.start span.stop = .ok part → inner.Refrains part) :
    (InPlace.within span inner).Refrains data := by
  cases hslice : data.slice span.start span.stop with
  | error fault => exact ⟨.fault fault, by rw [exec_within, hslice]⟩
  | ok part =>
    obtain ⟨failure, hinner⟩ := h part hslice
    refine ⟨failure, ?_⟩
    simp only [exec_within, hslice, hinner, Bytes.overwrite_slice hslice]

end Refrains

end InPlace

namespace Plan

open InPlace

variable {leftover : Leftover} {plan : Plan} {data : Bytes} {edit : Edit}

/-- An edit whose field is refused stores nothing. -/
theorem performHere_refrains {error : WriteError}
    (h : View.target ⟨plan, data⟩ edit.field = .error error) :
    (plan.performHere leftover edit).Refrains data := by
  have haim : (plan.aim edit.field).exec data = (.error (.error error), data) := by
    rw [aim, exec_ask, h]
    rfl
  -- every edit looks for its field first
  cases edit with
  | unsigned | signed | variant | bytes => exact ⟨_, exec_bind_of_error haim⟩

/-- Neither does one whose field is refused below a path, whatever codecs may leave behind. -/
theorem perform_refrains {path : List (String × String)}
    (h : ∀ start last, plan.descend data path = .ok (start, last) →
      ∃ error, last.target edit.field = .error error) :
    (plan.perform leftover edit path).Refrains data := by
  induction path generalizing plan data with
  | nil =>
    rw [perform]
    refine .ask_bind fun view hview => ?_
    obtain rfl := eq_of_view_mapError hview
    have hdescend : plan.descend data [] = .ok (0, ⟨plan, data⟩) :=
      bind_eq_ok_iff.2 ⟨_, mapError_eq_ok_iff.1 hview, rfl⟩
    obtain ⟨error, herror⟩ := h 0 ⟨plan, data⟩ hdescend
    exact (performHere_refrains herror).mapError _
  | cons step path ih =>
    obtain ⟨anchor, alternate⟩ := step
    rw [perform]
    refine .ask_bind fun view hview => ?_
    obtain rfl := eq_of_view_mapError hview
    refine .ask_bind ?_
    rintro ⟨field, sub⟩ hlookup
    refine .ask_bind fun span hspan => .within fun part hslice => ih ?_
    intro offset last hmore
    exact h (span.start + offset) last <|
      descend_cons (mapError_eq_ok_iff.1 hview) (mapError_eq_ok_iff.1 hlookup)
        (mapError_eq_ok_iff.1 hspan) hslice hmore

/-- The buffer that calls leave behind, each performed on what the one before has left. -/
def performAll (leftover : Leftover) (plan : Plan) (data : Bytes) (calls : List Call) : Bytes :=
  calls.foldl (fun data call => ((plan.perform leftover call.edit call.path).exec data).2) data

/-- Calls that all refrain leave the buffer that they found. -/
theorem performAll_eq (h : ∀ call : Call, (plan.perform leftover call.edit call.path).Refrains data)
    (calls : List Call) : plan.performAll leftover data calls = data := by
  induction calls with
  | nil => rfl
  | cons call calls ih =>
    obtain ⟨failure, hcall⟩ := h call
    rw [performAll, List.foldl_cons, hcall]
    exact ih

end Plan

/-! ## Every leaf of a plan -/

/-- Nothing forbids to write the field below a path: neither the schema, nor an anchor on the path,
nor the field itself. -/
structure Schema.Permits (schema : Schema) (path : List (String × String)) (field : Field) :
    Prop where
  whole : schema.readOnly = false
  anchors : ∀ anchor ∈ schema.anchorsOn path, anchor.decl.readOnly = false
  own : field.decl.readOnly = false

/-- Every edit of a field below a path is refused because the field is read-only, whatever its value
and whatever the bytes. Nothing is stored. -/
structure Plan.Locks (plan : Plan) (path : List (String × String)) (sub : Plan) (name : String) :
    Prop where
  apply : ∀ data edit, edit.field = name →
    View.apply ⟨sub, data⟩ edit = .error (.error (.readOnly name))
  perform : ∀ leftover data start view edit, plan.descend data path = .ok (start, view) →
    edit.field = name → (plan.perform leftover edit path).exec data =
      (.error (.error (.refused (.readOnly name))), data)

namespace Schema

variable {schema : Schema} {policy : MismatchPolicy} {plan sub : Plan}
  {path : List (String × String)}

theorem permits_iff {part : Schema} (hpart : schema.at? path = some part) {field : Field} :
    schema.Permits path field ↔ part.readOnly = false ∧ field.decl.readOnly = false := by
  rw [readOnly_at? hpart, Bool.or_eq_false_iff, List.any_eq_false]
  simp only [Bool.not_eq_true]
  exact ⟨fun h => ⟨⟨h.whole, h.anchors⟩, h.own⟩, fun h => ⟨h.1.1, h.1.2, h.2⟩⟩

/-- A leaf that may not be written is locked. -/
theorem locks_of_not_writable (h : schema.resolve policy = .ok plan)
    (hsub : plan.at? path = some sub) {name : String} {planned : PlannedField}
    (hplanned : sub.field? name = some planned) {leaf : Leaf} (hleaf : planned.leaf? = some leaf)
    (hwritable : leaf.writable = false) :
    plan.Locks path sub name := by
  have htarget : ∀ data, View.target ⟨sub, data⟩ name = .error (.readOnly name) := fun data =>
    View.target_of_not_writable hplanned hleaf hwritable
  refine ⟨fun data edit hname => ?_, fun leftover data start view edit hdescend hname => ?_⟩
  · subst hname
    exact View.apply_of_target_error (htarget data)
  · subst hname
    have hplan : view.plan = sub := by
      have hat := View.at?_of_follow (Plan.follow_of_descend hdescend)
      exact Option.some.inj (hat.symm.trans hsub)
    obtain ⟨found, bytes⟩ := view
    obtain rfl : found = sub := hplan
    obtain ⟨failure, hexec⟩ : (plan.perform leftover edit path).Refrains data := by
      refine Plan.perform_refrains fun start' last hlast => ?_
      obtain ⟨-, rfl⟩ := Prod.mk.inj (Except.ok.inj (hdescend.symm.trans hlast))
      exact ⟨_, htarget bytes⟩
    -- how the edit ends is told by the edit of the whole buffer
    have hlands := Lands.perform h leftover edit path data
    rw [hexec] at hlands ⊢
    have hedit : plan.edit data path edit = .error (.error (.refused (.readOnly edit.field))) := by
      refine bind_eq_error_iff.2 (.inr ⟨_, mapError_eq_ok_iff.2 hdescend, ?_⟩)
      show (View.apply ⟨found, bytes⟩ edit).mapError _ >>= _ = _
      rw [View.apply_of_target_error (htarget bytes)]
      rfl
    rw [hedit] at hlands
    obtain rfl := Except.error.inj hlands.of_error.1
    rfl

/-- In a read-only schema no leaf may be written, at any depth. -/
theorem not_writable_of_readOnly (h : schema.resolve policy = .ok plan)
    (hreadOnly : schema.readOnly = true) (hsub : plan.at? path = some sub) :
    ∀ field ∈ sub.fields, ∀ leaf, field.leaf? = some leaf → leaf.writable = false := by
  intro planned hmem leaf hleaf
  obtain ⟨part, hpart, hresolve⟩ := Schema.resolve_at? h hsub
  obtain ⟨field, hrealizes⟩ := (Schema.resolved hresolve).realizes_of_mem hmem
  rw [hrealizes.writable_eq hleaf, readOnly_at? hpart, hreadOnly]
  rfl

/-- What forbids writing holds for everything below. A leaf, found below any path, may be written
exactly if neither the schema nor an anchor on the path nor the field itself is read-only and its
provider can write; otherwise it is locked. So no sequence of calls changes a packet of a read-only
schema, whatever the codecs do. -/
theorem readOnly_inherited (h : schema.resolve policy = .ok plan) :
    (∀ path sub, plan.at? path = some sub → ∃ part, schema.at? path = some part ∧
      ∀ name planned leaf, sub.field? name = some planned → planned.leaf? = some leaf →
        (∃ field, part.field? name = some field ∧ (leaf.writable = true ↔
          schema.Permits path field ∧ leaf.provider ≠ .rawSlice)) ∧
        (leaf.writable = false → plan.Locks path sub name)) ∧
    (schema.readOnly = true → ∀ leftover data calls,
      plan.performAll leftover data calls = data) := by
  refine ⟨fun path sub hsub => ?_, fun hreadOnly leftover data => Plan.performAll_eq fun call => ?_⟩
  · obtain ⟨part, hpart, hresolve⟩ := Schema.resolve_at? h hsub
    refine ⟨part, hpart, fun name planned leaf hplanned hleaf =>
      ⟨?_, locks_of_not_writable h hsub hplanned hleaf⟩⟩
    obtain ⟨field, hfield, hrealizes⟩ := (Schema.resolved hresolve).exists_field? hplanned
    refine ⟨field, hfield, ?_⟩
    rw [hrealizes.writable_eq hleaf, Field.decl_prepare, permits_iff hpart,
      ← Provider.isWritable_iff]
    simp only [Bool.and_eq_true, Bool.not_eq_true']
  · refine Plan.perform_refrains fun start last hdescend => ?_
    have hat := View.at?_of_follow (Plan.follow_of_descend hdescend)
    exact View.exists_target_error (not_writable_of_readOnly h hreadOnly hat) _

end Schema

/-- A number, and a read-only anchor with a number two levels below it. -/
def lockedSchema : Schema where
  name := "Locked"
  fields :=
    [.plain { name := "kind", type := .integer .u8 },
      .anchor { name := "body", type := .byteArray 2, readOnly := true }
        [.mk "pair"
          [.plain { name := "mark", type := .integer .u8 },
            .anchor { name := "rest", type := .byteArray 1 }
              [.mk "last" [.plain { name := "code", type := .integer .u8 }]]]]]

theorem lockedSchema_inherits :
    (∃ plan sub, lockedSchema.resolve .error = .ok plan ∧
      plan.at? [("body", "pair"), ("rest", "last")] = some sub ∧
      plan.Locks [("body", "pair"), ("rest", "last")] sub "code" ∧
      ∃ field, lockedSchema.field? "kind" = some field ∧ lockedSchema.Permits [] field) ∧
    ∃ plan, Schema.resolve { lockedSchema with readOnly := true } .error = .ok plan ∧
      plan.performAll (fun _ _ _ => [9]) [1, 2, 3]
        [⟨[], .unsigned "kind" 7⟩, ⟨[("body", "pair"), ("rest", "last")], .unsigned "code" 7⟩] =
          [1, 2, 3] := by
  constructor
  · obtain ⟨plan, hplan⟩ : ∃ plan, lockedSchema.resolve .error = .ok plan := ⟨_, rfl⟩
    obtain ⟨sub, planned, leaf, hsub, hplanned, hleaf, hwritable⟩ :
        ∃ sub planned leaf, plan.at? [("body", "pair"), ("rest", "last")] = some sub ∧
          sub.field? "code" = some planned ∧ planned.leaf? = some leaf ∧
          leaf.writable = false := by
      cases hplan
      exact ⟨_, _, _, rfl, rfl, rfl, rfl⟩
    obtain ⟨kind, kindLeaf, hkind, hkindLeaf, hopen⟩ :
        ∃ kind leaf, plan.field? "kind" = some kind ∧ kind.leaf? = some leaf ∧
          leaf.writable = true := by
      cases hplan
      exact ⟨_, _, rfl, rfl, rfl⟩
    obtain ⟨hleaves, -⟩ := Schema.readOnly_inherited hplan
    obtain ⟨inner, -, hinner⟩ := hleaves _ sub hsub
    obtain ⟨part, hpart, houter⟩ := hleaves [] plan rfl
    obtain rfl := Option.some.inj hpart
    obtain ⟨⟨field, hfield, hiff⟩, -⟩ := houter "kind" kind kindLeaf hkind hkindLeaf
    exact ⟨plan, sub, hplan, hsub, (hinner "code" planned leaf hplanned hleaf).2 hwritable,
      field, hfield, (hiff.1 hopen).1⟩
  · obtain ⟨plan, hplan⟩ :
        ∃ plan, Schema.resolve { lockedSchema with readOnly := true } .error = .ok plan := ⟨_, rfl⟩
    exact ⟨plan, hplan, (Schema.readOnly_inherited hplan).2 rfl _ _ _⟩

end PacketLayout
