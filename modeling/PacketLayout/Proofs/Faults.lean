import PacketLayout.Proofs.InPlace

/-!
# Accessors never fault

A plan that was resolved is safe to use on every buffer. Whatever is asked of it ends with a result
or with an error; no slice is out of range, no shift, difference, sum or copy goes wrong.

* `Faultless` says that an operation does not fault.
* `View.Safe` says so about everything that a view can be asked.
* `Schema.safe_of_resolve` says that plans have safe views only, below every path.
-/

namespace PacketLayout

/-! ## Operations that do not fault -/

/-- An operation ends with a result or with an error. -/
def Faultless {ε α : Type} (x : Except (Failure ε) α) : Prop := ∀ fault, x ≠ .error (.fault fault)

theorem bind_eq_error {ε α β : Type} {x : Except ε α} {error : ε} (h : x = .error error)
    (f : α → Except ε β) : x >>= f = .error error := by
  rw [h]
  rfl

theorem bind_eq_error_iff {ε α β : Type} {x : Except ε α} {f : α → Except ε β} {error : ε} :
    x >>= f = .error error ↔ x = .error error ∨ ∃ a, x = .ok a ∧ f a = .error error := by
  cases x <;> simp [Bind.bind, Except.bind]

namespace Faultless

variable {ε ε' α β : Type}

theorem ok (a : α) : Faultless (.ok a : Except (Failure ε) α) := nofun

theorem error (error : ε) : Faultless (.error (.error error) : Except (Failure ε) α) := nofun

theorem ofError (x : Except ε α) : Faultless (Failure.ofError x) := by
  cases x with
  | ok a => exact ok a
  | error error => exact Faultless.error error

theorem bind {x : Except (Failure ε) α} {f : α → Except (Failure ε) β} (hx : Faultless x)
    (hf : ∀ a, x = .ok a → Faultless (f a)) : Faultless (x >>= f) := by
  cases x with
  | ok a => exact hf a rfl
  | error failure =>
    intro fault hfault
    have hfailure : failure = .fault fault := Except.error.inj hfault
    exact hx fault (congrArg Except.error hfailure)

theorem mapError {x : Except (Failure ε) α} (hx : Faultless x) (f : ε → ε') :
    Faultless (x.mapError (·.map f)) := by
  cases x with
  | ok a => exact ok a
  | error failure =>
    cases failure with
    | fault fault => exact absurd rfl (hx fault)
    | error e => exact error (f e)

end Faultless

theorem exists_mapM_eq_ok {ε α β : Type} {f : α → Except ε β} {xs : List α}
    (h : ∀ x ∈ xs, ∃ y, f x = .ok y) : ∃ ys, xs.mapM f = .ok ys := by
  induction xs with
  | nil => exact ⟨[], rfl⟩
  | cons x xs ih =>
    obtain ⟨y, hy⟩ := h x List.mem_cons_self
    obtain ⟨ys, hys⟩ := ih fun other hmem => h other (List.mem_cons_of_mem x hmem)
    refine ⟨y :: ys, ?_⟩
    rw [List.mapM_cons]
    exact bind_eq_ok_iff.2 ⟨y, hy, bind_eq_ok_iff.2 ⟨ys, hys, rfl⟩⟩

/-- A procedure that lands where an operation leads faults only if the operation does. -/
theorem Lands.faultless {ε : Type} {kept : Prop} {data : Bytes} {result : Except (Failure ε) Bytes}
    {run : Except (Failure ε) Unit × Bytes} (h : Lands kept data result run)
    (hresult : Faultless result) : Faultless run.1 := by
  cases h with
  | ok after => exact Faultless.ok ()
  | error failure =>
    intro fault hfault
    have hfailure : failure = .fault fault := Except.error.inj hfault
    exact hresult fault (congrArg Except.error hfailure)

/-- The lengths are compared before anything is copied, so the copy cannot fault. -/
theorem copyChecked_eq (value destination : Bytes) :
    copyChecked value destination = .ok (match copyExact value destination with
      | some copied => (true, copied)
      | none => (false, destination)) := by
  unfold copyChecked copyExact Bytes.copyOver
  by_cases h : value.length = destination.length
  · rw [if_neg (not_not.2 h), if_pos h, if_pos h]
    rfl
  · rw [if_pos h, if_neg h]

/-- Below 64 bits a power of two fits into a word, and is not zero. -/
theorem checkedMask_eq (width : Nat) : checkedMask width = .ok (lowMask width) := by
  unfold checkedMask
  by_cases h : 64 ≤ width
  · rw [if_pos h, lowMask, Nat.min_eq_right h]
    rfl
  · have hlt : width < 64 := Nat.lt_of_not_le h
    have hpower : (1 <<< UInt64.ofNat width : UInt64).toNat = 2 ^ width := by
      rw [UInt64.toNat_shiftLeft, toNat_ofNat_mod hlt, UInt64.toNat_one, Nat.one_shiftLeft,
        Nat.mod_eq_of_lt (Nat.pow_lt_pow_right (by decide) hlt)]
    have hone : (1 : UInt64) ≤ 1 <<< UInt64.ofNat width := by
      rw [UInt64.le_iff_toNat_le, hpower]
      exact Nat.one_le_two_pow
    rw [if_neg h, if_pos hlt]
    show (if (1 : UInt64) ≤ 1 <<< UInt64.ofNat width then _ else _) = _
    rw [if_pos hone]
    refine congrArg Except.ok (UInt64.toNat.inj ?_)
    rw [UInt64.toNat_sub_of_le _ _ hone, hpower, toNat_lowMask, Nat.min_eq_left (Nat.le_of_lt hlt)]
    rfl

/-! ## Sums -/

/-- What terms add is checked, so the sum is a 64-bit number if it starts as one. -/
theorem Term.sumFrom_lt {data : Bytes} {sum total : Nat} {terms : List Term}
    (hsum : sum < wordLimit) (h : Term.sumFrom data sum terms = .ok total) : total < wordLimit := by
  induction terms generalizing sum with
  | nil =>
    rw [Term.sumFrom] at h
    obtain rfl := Except.ok.inj h
    exact hsum
  | cons term terms ih =>
    rw [Term.sumFrom] at h
    cases hterm : term.eval data with
    | error error =>
      rw [hterm] at h
      cases h
    | ok value =>
      simp only [hterm] at h
      split at h
      · rename_i hlt
        exact ih hlt h
      · cases h

/-! ## Ranges that are cut out -/

namespace View

variable {view : View} {field : PlannedField} {provider : Provider} {span : Span}

/-- A range that was found is in order and inside the buffer. -/
theorem ordered_of_locate (h : view.locate field = .ok span) :
    span.start ≤ span.stop ∧ span.stop ≤ view.data.length := by
  obtain ⟨length, hat⟩ := exists_locatedAt h
  exact ⟨by rw [hat.stop]; exact Nat.le_add_right _ _, hat.inside⟩

/-- A range that was found can be cut out. -/
theorem exists_cut (h : view.locate field = .ok span) : ∃ part, view.cut span = .ok part := by
  obtain ⟨hordered, hinside⟩ := ordered_of_locate h
  exact ⟨_, Bytes.slice_eq_ok hordered hinside⟩

theorem ordered_of_range {name : String} (h : view.range name = .ok span) :
    span.start ≤ span.stop ∧ span.stop ≤ view.data.length := by
  obtain ⟨field, -, hspan⟩ := bind_eq_ok_iff.1 h
  exact ordered_of_locate hspan

theorem raw_faultless (view : View) (name : String) : Faultless (view.raw name) := by
  refine (Faultless.ofError _).bind fun span hspan => ?_
  obtain ⟨field, -, hlocate⟩ := bind_eq_ok_iff.1 (Failure.ofError_eq_ok_iff.1 hspan)
  obtain ⟨part, hpart⟩ := exists_cut hlocate
  rw [hpart]
  exact Faultless.ok part

theorem alternate_faultless (view : View) (anchor alternate : String) :
    Faultless (view.alternate anchor alternate) := by
  refine (Faultless.ofError _).bind ?_
  rintro ⟨field, plan⟩ -
  refine (Faultless.ofError _).bind fun span hspan => ?_
  obtain ⟨part, hpart⟩ := exists_cut (Failure.ofError_eq_ok_iff.1 hspan)
  rw [hpart]
  refine (Faultless.ok part).bind fun data _ => ?_
  exact (Faultless.ofError _).bind fun inner _ => Faultless.ok _

theorem follow_faultless (view : View) (path : List (String × String)) :
    Faultless (view.follow path) := by
  induction path generalizing view with
  | nil => exact Faultless.ok _
  | cons step path ih =>
    obtain ⟨anchor, alternate⟩ := step
    refine (view.alternate_faultless anchor alternate).bind ?_
    rintro ⟨start, inner⟩ -
    refine (ih inner).bind ?_
    rintro ⟨offset, last⟩ -
    exact Faultless.ok _

/-! ## Reading -/

/-- What is no number is read from its bytes, without a fault. -/
theorem decode_faultless (hwidth : provider.wordWidth? = none) {part : Bytes}
    (hcut : view.cut span = .ok part) : Faultless (view.decode span provider) := by
  cases provider with
  | composite type =>
    rw [decode, hcut]
    refine (Faultless.ok part).bind fun data _ => ?_
    cases type.codec.construct data with
    | some shown => exact Faultless.ok _
    | none => exact Faultless.error _
  | rawSlice =>
    rw [decode, hcut]
    exact Faultless.ok _
  | scalar | enumeration | bitField => cases hwidth

/-- A summary needs no more than that each of its values is read without a fault. -/
theorem exists_summary (h : ∀ name, Faultless (view.get name)) :
    ∃ text, view.summary = .ok text := by
  have hitem : ∀ field, ∃ text, view.itemText field = .ok text := by
    intro field
    unfold itemText
    cases hvalue : view.get field.name with
    | ok value => exact ⟨_, rfl⟩
    | error failure =>
      cases failure with
      | error error => exact ⟨_, rfl⟩
      | fault fault => exact absurd hvalue (h field.name fault)
  obtain ⟨items, hitems⟩ : ∃ items,
      (view.plan.fields.filter (!·.isUnion)).mapM view.itemText = .ok items :=
    exists_mapM_eq_ok fun field _ => hitem field
  exact ⟨_, bind_eq_ok_iff.2 ⟨items, hitems, rfl⟩⟩

/-! ## Writing -/

/-- A write ends with a buffer, or it is refused, and not for want of bytes. -/
def Settled (x : Write Bytes) : Prop :=
  (∃ result, x = .ok result) ∨ ∃ error, x = .error (.error error) ∧ error ≠ .outOfBounds

theorem Settled.faultless {x : Write Bytes} (h : Settled x) : Faultless x := by
  obtain ⟨result, rfl⟩ | ⟨error, rfl, -⟩ := h
  · exact Faultless.ok result
  · exact Faultless.error error

theorem apply_of_target_error {edit : Edit} {error : WriteError}
    (h : view.target edit.field = .error error) : view.apply edit = .error (.error error) := by
  -- every edit looks for its field first
  cases edit with
  | unsigned | signed | variant | bytes => exact bind_eq_error (congrArg Failure.ofError h) _

/-- A field is never missed for want of bytes to write. -/
theorem target_ne_outOfBounds (view : View) (name : String) :
    view.target name ≠ .error .outOfBounds := by
  have hread : ∀ {α : Type} (x : Except ReadError α),
      x.mapError WriteError.ofRead ≠ .error .outOfBounds := by
    intro α x
    cases x with
    | ok a => exact nofun
    | error error => cases error <;> exact nofun
  intro h
  obtain h | ⟨field, -, h⟩ := bind_eq_error_iff.1 h
  · exact hread _ h
  · cases hleaf : field.leaf? with
    | none =>
      rw [hleaf] at h
      cases h
    | some leaf =>
      rw [hleaf] at h
      cases hwritable : leaf.writable with
      | false =>
        simp only [hwritable] at h
        cases h
      | true =>
        simp only [hwritable, if_true] at h
        obtain h | ⟨span, -, h⟩ := bind_eq_error_iff.1 h
        · exact hread _ h
        · cases h

theorem setBytes_of_wordless {name : String} (htarget : view.target name = .ok (provider, span))
    (hwidth : provider.wordWidth? = none) {part : Bytes} (hcut : view.cut span = .ok part)
    (data : Bytes) : Settled (view.setBytes name data) := by
  rw [setBytes, htarget]
  cases provider with
  | composite type =>
    show Settled (Failure.ofFault (view.cut span) >>= _)
    cases hcopied : type.codec.copyInto data part with
    | some copied =>
      refine .inl ⟨view.data.overwrite span.start copied,
        bind_eq_ok_iff.2 ⟨part, Failure.ofFault_eq_ok_iff.2 hcut, ?_⟩⟩
      rw [hcopied]
      rfl
    | none =>
      refine .inr ⟨.invalidValue name,
        bind_eq_error_iff.2 (.inr ⟨part, Failure.ofFault_eq_ok_iff.2 hcut, ?_⟩), by rintro ⟨⟩⟩
      rw [hcopied]
      rfl
  | rawSlice => exact .inr ⟨_, rfl, by rintro ⟨⟩⟩
  | scalar | enumeration | bitField => cases hwidth

/-- Where there is no number, an edit is settled by the codec or by the kind of the field. -/
theorem settled_of_wordless {edit : Edit} (htarget : view.target edit.field = .ok (provider, span))
    (hwidth : provider.wordWidth? = none) {part : Bytes} (hcut : view.cut span = .ok part) :
    Settled (view.apply edit) := by
  cases edit with
  | unsigned field value => exact .inr ⟨_, setUnsigned_of_wordless htarget hwidth value, nofun⟩
  | signed field value =>
    exact .inr ⟨_, setSigned_of_wordless htarget hwidth value, Edit.misfit_ne_outOfBounds _⟩
  | variant field variant => exact .inr ⟨_, setVariant_of_wordless htarget hwidth variant, nofun⟩
  | bytes field data => exact setBytes_of_wordless htarget hwidth hcut data

end View

/-! ## Plans that were resolved -/

namespace Resolved

variable {policy : MismatchPolicy} {schema : Schema} {plan : Plan}

theorem get_faultless (h : Resolved policy schema plan) (data : Bytes) (name : String) :
    Faultless (View.get ⟨plan, data⟩ name) := by
  refine (Faultless.ofError _).bind fun field hfield => ?_
  refine (Faultless.ofError _).bind fun provider hprovider => ?_
  refine (Faultless.ofError _).bind fun span hspan => ?_
  have hmem := Plan.mem_of_field? (View.lookup_eq_ok_iff.1 (Failure.ofError_eq_ok_iff.1 hfield))
  replace hspan := Failure.ofError_eq_ok_iff.1 hspan
  replace hprovider := mapError_eq_ok_iff.1 (Failure.ofError_eq_ok_iff.1 hprovider)
  unfold PlannedField.provider at hprovider
  cases hleaf : field.leaf? with
  | none =>
    rw [hleaf] at hprovider
    cases hprovider
  | some leaf =>
    rw [hleaf] at hprovider
    obtain rfl := Except.ok.inj hprovider
    cases hwidth : leaf.provider.wordWidth? with
    | none =>
      obtain ⟨part, hcut⟩ := View.exists_cut hspan
      exact View.decode_faultless hwidth hcut
    | some width =>
      obtain ⟨hreaches, -⟩ := h.reaches_of_locate hmem hleaf hwidth hspan
      rw [View.decode_eq hreaches]
      exact Faultless.ok _

theorem apply_settled (h : Resolved policy schema plan) (data : Bytes) (edit : Edit) :
    View.Settled (View.apply ⟨plan, data⟩ edit) := by
  cases htarget : View.target ⟨plan, data⟩ edit.field with
  | error error =>
    refine .inr ⟨error, View.apply_of_target_error htarget, ?_⟩
    rintro rfl
    exact View.target_ne_outOfBounds _ _ htarget
  | ok found =>
    obtain ⟨provider, span⟩ := found
    obtain ⟨field, leaf, hfield, hleaf, rfl, hspan⟩ := View.exists_of_target htarget
    cases hwidth : leaf.provider.wordWidth? with
    | none =>
      obtain ⟨part, hcut⟩ := View.exists_cut hspan
      exact View.settled_of_wordless htarget hwidth hcut
    | some width =>
      obtain ⟨hreaches, -⟩ :=
        h.reaches_of_locate (Plan.mem_of_field? hfield) hleaf hwidth hspan
      rw [View.apply_eq htarget hreaches, View.outcome]
      cases leaf.provider.numberOf? edit with
      | some number => exact .inl ⟨_, rfl⟩
      | none => exact .inr ⟨_, rfl, (leaf.provider.refusal_ne edit).1⟩

theorem exists_text (h : Resolved policy schema plan) : ∃ text, plan.text = .ok text := by
  have hprovider : ∀ field ∈ plan.fields, ∀ leaf, field.leaf? = some leaf →
      ∃ text, leaf.provider.text = .ok text := by
    intro field hmem leaf hleaf
    cases hshape : leaf.provider with
    | bitField slot type =>
      have hslot : field.slot? = some slot := by
        rw [PlannedField.slot?, hleaf, Option.bind_some, hshape, Provider.slot?]
      obtain ⟨mask, hmask, -⟩ := BitSlot.unitMask_eq (h.slot_fits hmem hslot).1
      exact ⟨_, bind_eq_ok_iff.2 ⟨mask, hmask, rfl⟩⟩
    | scalar | enumeration | composite | rawSlice => exact ⟨_, rfl⟩
  have hfield : ∀ field ∈ plan.fields, ∃ text, field.text = .ok text := by
    intro field hmem
    obtain ⟨text, htext⟩ : ∃ text, field.shape.text = .ok text := by
      cases hshape : field.shape with
      | union alternates => exact ⟨_, rfl⟩
      | leaf leaf => exact hprovider field hmem leaf (by rw [PlannedField.leaf?, hshape])
    exact ⟨_, bind_eq_ok_iff.2 ⟨text, htext, rfl⟩⟩
  obtain ⟨lines, hlines⟩ := exists_mapM_eq_ok hfield
  exact ⟨_, bind_eq_ok_iff.2 ⟨lines, hlines, rfl⟩⟩

/-- The total size is a 64-bit number wherever there is one. -/
theorem totalSize_lt (h : Resolved policy schema plan) {data : Bytes} {total : Nat}
    (htotal : View.totalSize ⟨plan, data⟩ = .ok total) : total < wordLimit := by
  rw [View.totalSize, Expr.eval_eq] at htotal
  exact Term.sumFrom_lt h.total_bounded htotal

end Resolved

/-! ## Views and edits -/

/-- Whatever a view is asked, it answers, refuses or reports an error. -/
structure View.Safe (view : View) : Prop where
  /-- the text of its plan -/
  planText : ∃ text, view.plan.text = .ok text
  /-- all leaves with their values -/
  summary : ∃ text, view.summary = .ok text
  /-- a range that is found can be cut out of the buffer -/
  range : ∀ name span, view.range name = .ok span →
    span.start ≤ span.stop ∧ span.stop ≤ view.data.length
  raw : ∀ name, Faultless (view.raw name)
  /-- the words behind numbers are cut out of the buffer, too -/
  load : ∀ start width, Faultless (BigEndian.load view.data start width)
  get : ∀ name, Faultless (view.get name)
  totalSize : ∀ total, view.totalSize = .ok total → total < wordLimit
  alternate : ∀ anchor alternate, Faultless (view.alternate anchor alternate)
  apply : ∀ edit, Faultless (view.apply edit)

theorem Resolved.safe {policy : MismatchPolicy} {schema : Schema} {plan : Plan}
    (h : Resolved policy schema plan) (data : Bytes) : View.Safe ⟨plan, data⟩ where
  planText := h.exists_text
  summary := View.exists_summary fun name => h.get_faultless data name
  range _ _ := View.ordered_of_range
  raw name := View.raw_faultless _ name
  load start width := by
    rw [BigEndian.load_eq]
    exact Faultless.ofError _
  get name := h.get_faultless data name
  totalSize _ := h.totalSize_lt
  alternate anchor alternate := View.alternate_faultless _ anchor alternate
  apply edit := (h.apply_settled data edit).faultless

theorem Plan.descend_faultless (plan : Plan) (data : Bytes) (path : List (String × String)) :
    Faultless (plan.descend data path) :=
  (Faultless.ofError _).bind fun view _ => view.follow_faultless path

/-- The view at the end of a path is as safe as the first one. -/
theorem Schema.safe_of_descend {schema : Schema} {policy : MismatchPolicy} {plan : Plan}
    (h : schema.resolve policy = .ok plan) {data : Bytes} {path : List (String × String)}
    {start : Nat} {view : View} (hdescend : plan.descend data path = .ok (start, view)) :
    view.Safe := by
  obtain ⟨part, -, hpart⟩ :=
    Schema.resolve_at? h (View.at?_of_follow (Plan.follow_of_descend hdescend))
  exact (Schema.resolved hpart).safe view.data

/-- An edit of a buffer does not reach its view, or ends there with a buffer or an error. It is
never refused for want of bytes. -/
theorem Plan.edit_settled {schema : Schema} {policy : MismatchPolicy} {plan : Plan}
    (h : schema.resolve policy = .ok plan) (data : Bytes) (path : List (String × String))
    (edit : Edit) :
    (∃ error, plan.edit data path edit = .error (.error (.unreachable error))) ∨
    (∃ after, plan.edit data path edit = .ok after) ∨
    ∃ error, plan.edit data path edit = .error (.error (.refused error)) ∧
      error ≠ .outOfBounds := by
  cases hdescend : plan.descend data path with
  | error failure =>
    cases failure with
    | fault fault => exact absurd hdescend (plan.descend_faultless data path fault)
    | error error => exact .inl ⟨error, bind_eq_error (by rw [hdescend]; rfl) _⟩
  | ok found =>
    obtain ⟨start, last⟩ := found
    have hreached : (plan.descend data path).mapError (Failure.map EditError.unreachable) =
        .ok (start, last) := mapError_eq_ok_iff.2 hdescend
    obtain ⟨part, -, hpart⟩ :=
      Schema.resolve_at? h (View.at?_of_follow (Plan.follow_of_descend hdescend))
    obtain ⟨after, hafter⟩ | ⟨error, herror, hne⟩ :=
      (Schema.resolved hpart).apply_settled last.data edit
    · have happly : (last.apply edit).mapError (Failure.map EditError.refused) = .ok after :=
        mapError_eq_ok_iff.2 hafter
      exact .inr (.inl ⟨_, bind_eq_ok_iff.2 ⟨_, hreached, bind_eq_ok_iff.2 ⟨_, happly, rfl⟩⟩⟩)
    · have happly : (last.apply edit).mapError (Failure.map EditError.refused) =
          .error (.error (.refused error)) := congrArg (Except.mapError _) herror
      refine .inr (.inr ⟨error, ?_, hne⟩)
      exact bind_eq_error_iff.2 (.inr ⟨_, hreached, bind_eq_error happly _⟩)

theorem Plan.edit_faultless {schema : Schema} {policy : MismatchPolicy} {plan : Plan}
    (h : schema.resolve policy = .ok plan) (data : Bytes) (path : List (String × String))
    (edit : Edit) : Faultless (plan.edit data path edit) := by
  obtain ⟨error, herror⟩ | ⟨after, hafter⟩ | ⟨error, herror, -⟩ :=
    plan.edit_settled h data path edit
  · rw [herror]
    exact Faultless.error _
  · rw [hafter]
    exact Faultless.ok after
  · rw [herror]
    exact Faultless.error _

/-- Nothing that is done with a plan faults. This holds under both policies, for every buffer and
every path, whatever host functions and codecs compute: its text is written, the views below the
path are reached or an error is reported, they are safe, and an edit in place ends well or with an
error. Masks of any width are computed. The rule for codecs without special needs copies between
equal lengths only, and leaves the destination alone when it refuses a value. -/
theorem Schema.faultless_of_resolve {schema : Schema} {policy : MismatchPolicy} {plan : Plan}
    (h : schema.resolve policy = .ok plan) (data : Bytes) (path : List (String × String)) :
    (∀ sub, plan.at? path = some sub → ∃ text, sub.text = .ok text) ∧
    Faultless (plan.descend data path) ∧
    (∀ start view, plan.descend data path = .ok (start, view) → view.Safe) ∧
    (∀ leftover edit, Faultless ((plan.perform leftover edit path).exec data).1) ∧
    (∀ width, checkedMask width = .ok (lowMask width)) ∧
    ∀ value destination, copyChecked value destination =
      .ok (match copyExact value destination with
        | some copied => (true, copied)
        | none => (false, destination)) := by
  refine ⟨fun sub hsub => ?_, plan.descend_faultless data path,
    fun start view => Schema.safe_of_descend h, fun leftover edit => ?_, checkedMask_eq,
    copyChecked_eq⟩
  · obtain ⟨part, -, hpart⟩ := Schema.resolve_at? h hsub
    exact (Schema.resolved hpart).exists_text
  · exact (Lands.perform h leftover edit path data).faultless (Plan.edit_faultless h data path edit)

/-- A length from the first byte, as large as can be. -/
def inflatedSize : SizeFunction where
  name := "inflated"
  run data := (data.headD 0).toNat * 2 ^ 56

/-- Bits, bytes whose length the buffer itself claims, and a number behind them. -/
def claimedSchema : Schema where
  name := "Claimed"
  fields :=
    [.plain { name := "claim", type := .integer .u8, bits := some 8 },
      .plain { name := "body", type := .bytes, sizeFunction := some inflatedSize },
      .plain { name := "check", type := .integer .i16 }]

theorem claimedSchema_faultless :
    ∃ plan view, claimedSchema.resolve .error = .ok plan ∧
      plan.descend [0xff, 1, 2] [] = .ok (0, view) ∧ view.Safe ∧
      view.raw "body" = .error (.error (.outOfBounds 1 (255 * 2 ^ 56 + 1) 3)) ∧
      Faultless ((plan.perform (fun _ _ destination => destination)
        (.signed "check" (-1)) []).exec [0xff, 1, 2]).1 := by
  obtain ⟨plan, hplan⟩ : ∃ plan, claimedSchema.resolve .error = .ok plan := ⟨_, rfl⟩
  obtain ⟨-, -, hsafe, hperform, -, -⟩ := Schema.faultless_of_resolve hplan [0xff, 1, 2] []
  obtain ⟨view, hdescend, hraw⟩ : ∃ view, plan.descend [0xff, 1, 2] [] = .ok (0, view) ∧
      view.raw "body" = .error (.error (.outOfBounds 1 (255 * 2 ^ 56 + 1) 3)) := by
    cases hplan
    exact ⟨_, rfl, by decide⟩
  exact ⟨plan, view, hplan, hdescend, hsafe 0 view hdescend, hraw, hperform _ _⟩

end PacketLayout
