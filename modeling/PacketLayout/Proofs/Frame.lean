import PacketLayout.Proofs.MinimumSize

/-!
# What an edit leaves alone

An edit changes bytes in the range of one field of the plan only: the field that it names, or the
anchor through which its path goes.

* `Resolved.apply_agreeOutside` says so about an edit of a view.
* `Schema.edit_agreeOutside` says so about an edit of a buffer, whatever its path.
-/

namespace PacketLayout

/-! ## Edits that succeed -/

/-- Why an edit is refused where there is no number. -/
def Edit.misfit : Edit → WriteError
  | .signed field value => if value.toInt < 0 then .invalidValue field else .typeMismatch field
  | .unsigned field _ | .variant field _ | .bytes field _ => .typeMismatch field

theorem Edit.misfit_ne_outOfBounds (edit : Edit) : edit.misfit ≠ .outOfBounds := by
  cases edit with
  | unsigned | variant | bytes => exact nofun
  | signed field value =>
    rw [misfit]
    split <;> exact nofun

namespace View

variable {view : View} {provider : Provider} {span : Span} {edit : Edit} {result : Bytes}

theorem exists_of_target {name : String} (h : view.target name = .ok (provider, span)) :
    ∃ field leaf, view.plan.field? name = some field ∧ field.leaf? = some leaf ∧
      leaf.provider = provider ∧ view.locate field = .ok span := by
  obtain ⟨field, hlookup, h⟩ := bind_eq_ok_iff.1 h
  have hfield := lookup_eq_ok_iff.1 (mapError_eq_ok_iff.1 hlookup)
  cases hleaf : field.leaf? with
  | none =>
    rw [hleaf] at h
    cases h
  | some leaf =>
    rw [hleaf] at h
    cases hwritable : leaf.writable with
    | false =>
      simp only [hwritable] at h
      cases h
    | true =>
      simp only [hwritable, if_true] at h
      obtain ⟨found, hspan, h⟩ := bind_eq_ok_iff.1 h
      obtain ⟨hprovider, rfl⟩ := Prod.mk.inj (Except.ok.inj h)
      exact ⟨field, leaf, hfield, hleaf, hprovider, mapError_eq_ok_iff.1 hspan⟩

/-- An edit that succeeds has found its field. -/
theorem exists_target_of_apply (h : view.apply edit = .ok result) :
    ∃ provider span, view.target edit.field = .ok (provider, span) := by
  cases edit with
  | unsigned | signed | variant | bytes =>
    obtain ⟨⟨provider, span⟩, htarget, -⟩ := bind_eq_ok_iff.1 h
    exact ⟨provider, span, Failure.ofError_eq_ok_iff.1 htarget⟩

section

-- a field that holds no number: a composite, or a range of bytes as it is
variable {name : String} (htarget : view.target name = .ok (provider, span))
  (hwidth : provider.wordWidth? = none)

include htarget hwidth

theorem setUnsigned_of_wordless (value : UInt64) :
    view.setUnsigned name value = .error (.error (.typeMismatch name)) := by
  rw [setUnsigned, htarget]
  cases provider with
  | composite | rawSlice => rfl
  | scalar | enumeration | bitField => cases hwidth

theorem setSigned_of_wordless (value : Int64) :
    view.setSigned name value = .error (.error (Edit.misfit (.signed name value))) := by
  have hnatural : view.setNatural name value =
      .error (.error (Edit.misfit (.signed name value))) := by
    show view.setNatural name value =
      .error (.error (if value.toInt < 0 then .invalidValue name else .typeMismatch name))
    unfold setNatural
    by_cases hnegative : value.toInt < 0
    · rw [if_pos hnegative, if_pos hnegative]
      rfl
    · rw [if_neg hnegative, if_neg hnegative]
      exact setUnsigned_of_wordless htarget hwidth _
  rw [setSigned, htarget]
  cases provider with
  | composite | rawSlice => exact hnatural
  | scalar | enumeration | bitField => cases hwidth

theorem setVariant_of_wordless (variant : String) :
    view.setVariant name variant = .error (.error (.typeMismatch name)) := by
  rw [setVariant, htarget]
  cases provider with
  | composite | rawSlice => rfl
  | scalar | enumeration | bitField => cases hwidth

end

/-- A copy that succeeds leaves what the codec makes of the bytes of the range. -/
theorem exists_copied_of_setBytes {name : String} {type : Composite} {value : Bytes}
    (htarget : view.target name = .ok (.composite type, span))
    (h : view.setBytes name value = .ok result) :
    ∃ destination copied, view.data.slice span.start span.stop = .ok destination ∧
      type.codec.copyInto value destination = some copied ∧
      result = view.data.overwrite span.start copied := by
  obtain ⟨pair, hpair, h⟩ := bind_eq_ok_iff.1 h
  obtain rfl := Except.ok.inj (htarget.symm.trans (Failure.ofError_eq_ok_iff.1 hpair))
  obtain ⟨destination, hcut, h⟩ := bind_eq_ok_iff.1 h
  cases hcopied : type.codec.copyInto value destination with
  | none =>
    rw [hcopied] at h
    cases h
  | some copied =>
    rw [hcopied] at h
    exact ⟨destination, copied, Failure.ofFault_eq_ok_iff.1 hcut, hcopied,
      (Except.ok.inj h).symm⟩

/-- Where there is no number, an edit that succeeds copies bytes over the whole range. -/
theorem copies_of_apply (htarget : view.target edit.field = .ok (provider, span))
    (hwidth : provider.wordWidth? = none) (h : view.apply edit = .ok result) :
    ∃ destination copied, view.data.slice span.start span.stop = .ok destination ∧
      copied.length = destination.length ∧ result = view.data.overwrite span.start copied := by
  -- every other edit asks for a number, which such a field does not hold
  cases edit with
  | unsigned field value => cases h.symm.trans (setUnsigned_of_wordless htarget hwidth value)
  | signed field value => cases h.symm.trans (setSigned_of_wordless htarget hwidth value)
  | variant field variant =>
    cases h.symm.trans (setVariant_of_wordless htarget hwidth variant)
  | bytes field data =>
    cases provider with
    | composite type =>
      obtain ⟨destination, copied, hslice, hcopied, rfl⟩ := exists_copied_of_setBytes htarget h
      exact ⟨destination, copied, hslice, type.codec.length_copyInto _ _ _ hcopied, rfl⟩
    | rawSlice =>
      obtain ⟨pair, hpair, h⟩ := bind_eq_ok_iff.1 h
      obtain rfl := Except.ok.inj (htarget.symm.trans (Failure.ofError_eq_ok_iff.1 hpair))
      cases h
    | scalar | enumeration | bitField => cases hwidth

end View

/-! ## Edits of a plan -/

namespace Resolved

variable {policy : MismatchPolicy} {schema : Schema} {plan : Plan}

/-- The word of a number that is found lies inside the buffer. -/
theorem reaches_of_locate (h : Resolved policy schema plan) {field : PlannedField}
    (hmem : field ∈ plan.fields) {leaf : Leaf} (hleaf : field.leaf? = some leaf) {width : Nat}
    (hwidth : leaf.provider.wordWidth? = some width) {view : View} {span : Span}
    (hspan : view.locate field = .ok span) :
    view.Reaches span leaf.provider width ∧ span.stop = span.start + width := by
  obtain ⟨length, hat⟩ := View.exists_locatedAt hspan
  obtain ⟨origin, hrealizes⟩ := h.realizes_of_mem hmem
  have hsize := hat.size
  rw [hrealizes.sizeExpr_of_wordWidth? hleaf hwidth, Expr.eval_literal] at hsize
  obtain rfl := Except.ok.inj hsize
  refine ⟨h.reaches hmem hleaf hwidth ?_, hat.stop⟩
  rw [← hat.stop]
  exact hat.inside

/-- A number is found where it was, in a buffer of the same length that gives its offset the same
number. -/
theorem locate_of_eval (h : Resolved policy schema plan) {field : PlannedField}
    (hmem : field ∈ plan.fields) {leaf : Leaf} (hleaf : field.leaf? = some leaf) {width : Nat}
    (hwidth : leaf.provider.wordWidth? = some width) {data after : Bytes} {span : Span}
    (hlocate : View.locate ⟨plan, data⟩ field = .ok span) (hlength : after.length = data.length)
    (hoffset : field.offset.eval after = field.offset.eval data) :
    View.locate ⟨plan, after⟩ field = .ok span := by
  obtain ⟨origin, hrealizes⟩ := h.realizes_of_mem hmem
  rw [View.locate, hrealizes.sizeExpr_of_wordWidth? hleaf hwidth] at hlocate ⊢
  rw [hoffset, hlength]
  exact hlocate

/-- An edit changes bytes of the field that it names only. -/
theorem apply_agreeOutside (h : Resolved policy schema plan) {data result : Bytes} {edit : Edit}
    (happly : View.apply ⟨plan, data⟩ edit = .ok result) :
    ∃ field leaf span, plan.field? edit.field = some field ∧ field.leaf? = some leaf ∧
      View.locate ⟨plan, data⟩ field = .ok span ∧
      Bytes.AgreeOutside span.start span.stop data result := by
  obtain ⟨provider, span, htarget⟩ := View.exists_target_of_apply happly
  obtain ⟨field, leaf, hfield, hleaf, rfl, hspan⟩ := View.exists_of_target htarget
  refine ⟨field, leaf, span, hfield, hleaf, hspan, ?_⟩
  -- a codec covers the range with a copy of the same length, a number its word
  cases hwidth : leaf.provider.wordWidth? with
  | none =>
    obtain ⟨destination, copied, hslice, hlength, rfl⟩ :=
      View.copies_of_apply htarget hwidth happly
    exact Bytes.AgreeOutside.overwrite_slice hslice hlength
  | some width =>
    have hmem := Plan.mem_of_field? hfield
    obtain ⟨hreaches, hstop⟩ := h.reaches_of_locate hmem hleaf hwidth hspan
    rw [View.apply_eq htarget hreaches, View.outcome] at happly
    cases hnumber : leaf.provider.numberOf? edit with
    | none =>
      rw [hnumber] at happly
      cases happly
    | some number =>
      rw [hnumber] at happly
      obtain rfl := Except.ok.inj happly
      refine Bytes.agreeOutside_overwrite ?_ ?_
      · exact Nat.le_of_eq (by rw [BigEndian.length_bytes, hstop])
      · rw [hstop]
        exact hreaches.inside

theorem length_of_apply (h : Resolved policy schema plan) {data result : Bytes} {edit : Edit}
    (happly : View.apply ⟨plan, data⟩ edit = .ok result) : result.length = data.length := by
  obtain ⟨_, _, _, _, _, _, hagree⟩ := h.apply_agreeOutside happly
  exact hagree.length

end Resolved

/-! ## Edits of a buffer -/

/-- The field of the plan that an edit goes through: the outermost anchor of its path, or the field
that it names. -/
def Edit.root (edit : Edit) : List (String × String) → String
  | [] => edit.field
  | (anchor, _) :: _ => anchor

theorem Plan.exists_of_edit {plan : Plan} {data result : Bytes} {path : List (String × String)}
    {edit : Edit} (h : plan.edit data path edit = .ok result) :
    ∃ start view inner, plan.descend data path = .ok (start, view) ∧
      view.apply edit = .ok inner ∧ result = data.overwrite start inner := by
  obtain ⟨⟨start, view⟩, hdescend, h⟩ := bind_eq_ok_iff.1 h
  obtain ⟨inner, hinner, h⟩ := bind_eq_ok_iff.1 h
  exact ⟨start, view, inner, mapError_eq_ok_iff.1 hdescend, mapError_eq_ok_iff.1 hinner,
    (Except.ok.inj h).symm⟩

theorem Plan.follow_of_descend {plan : Plan} {data : Bytes} {path : List (String × String)}
    {start : Nat} {view : View} (h : plan.descend data path = .ok (start, view)) :
    View.follow ⟨plan, data⟩ path = .ok (start, view) := by
  obtain ⟨first, hfirst, h⟩ := bind_eq_ok_iff.1 h
  obtain ⟨-, rfl⟩ := Plan.view_eq_ok_iff.1 (Failure.ofError_eq_ok_iff.1 hfirst)
  exact h

/-- A path through an anchor goes on in the bytes of the anchor. -/
theorem Plan.descend_cons {plan sub : Plan} {data part : Bytes} {anchor alternate : String}
    {path : List (String × String)} {field : PlannedField} {span : Span} {offset : Nat}
    {last : View} (hview : Failure.ofError (plan.view data) = .ok ⟨plan, data⟩)
    (hlookup : Failure.ofError (View.lookupAlternate ⟨plan, data⟩ anchor alternate) =
      .ok (field, sub))
    (hspan : Failure.ofError (View.locate ⟨plan, data⟩ field) = .ok span)
    (hslice : data.slice span.start span.stop = .ok part)
    (hmore : sub.descend part path = .ok (offset, last)) :
    plan.descend data ((anchor, alternate) :: path) = .ok (span.start + offset, last) := by
  obtain ⟨inner, hinner, hfollow⟩ := bind_eq_ok_iff.1 hmore
  have hstep : View.alternate ⟨plan, data⟩ anchor alternate = .ok (span.start, inner) :=
    bind_eq_ok_iff.2 ⟨(field, sub), hlookup, bind_eq_ok_iff.2 ⟨span, hspan,
      bind_eq_ok_iff.2 ⟨part, Failure.ofFault_eq_ok_iff.2 hslice,
        bind_eq_ok_iff.2 ⟨inner, hinner, rfl⟩⟩⟩⟩
  exact bind_eq_ok_iff.2 ⟨⟨plan, data⟩, hview,
    bind_eq_ok_iff.2 ⟨_, hstep, bind_eq_ok_iff.2 ⟨_, hfollow, rfl⟩⟩⟩

/-- The view at the end of a path through anchors lies inside the outermost of them. -/
theorem View.inside_of_follow_cons {view last : View} {anchor alternate : String}
    {path : List (String × String)} {start : Nat}
    (h : view.follow ((anchor, alternate) :: path) = .ok (start, last)) :
    ∃ field span, view.plan.field? anchor = some field ∧ field.leaf? = none ∧
      view.locate field = .ok span ∧ span.start ≤ start ∧
      start + last.data.length ≤ span.stop ∧ span.stop ≤ view.data.length := by
  obtain ⟨field, span, inner, offset, hshows, hmore, rfl⟩ := View.follow_cons h
  obtain ⟨length, hat⟩ := View.exists_locatedAt hshows.locate
  have hinner := View.follow_inside hmore
  have hlength := Bytes.length_of_slice hshows.slice
  have hstop := hat.stop
  refine ⟨field, span, hshows.field?, ?_, hshows.locate, by omega, by omega, hat.inside⟩
  have halternate := hshows.alternate?
  unfold PlannedField.alternate? PlannedField.alternates? at halternate
  unfold PlannedField.leaf?
  cases hshape : field.shape with
  | union => rfl
  | leaf leaf =>
    rw [hshape] at halternate
    cases halternate

theorem View.eq_of_follow_nil {view last : View} {start : Nat}
    (h : view.follow [] = .ok (start, last)) : start = 0 ∧ last = view := by
  rw [View.follow] at h
  obtain ⟨rfl, rfl⟩ := Prod.mk.inj (Except.ok.inj h)
  exact ⟨rfl, rfl⟩

/-- Without a path an edit of a buffer is one of its view. -/
theorem Resolved.apply_of_edit {policy : MismatchPolicy} {schema : Schema} {plan : Plan}
    (h : Resolved policy schema plan) {data result : Bytes} {edit : Edit}
    (hedit : plan.edit data [] edit = .ok result) : View.apply ⟨plan, data⟩ edit = .ok result := by
  obtain ⟨start, view, inner, hdescend, happly, rfl⟩ := Plan.exists_of_edit hedit
  obtain ⟨rfl, rfl⟩ := View.eq_of_follow_nil (Plan.follow_of_descend hdescend)
  rw [Bytes.overwrite_whole (h.length_of_apply happly)]
  exact happly

/-- An edit at the end of a path keeps the length of what is viewed there. -/
theorem Schema.length_of_apply {schema : Schema} {policy : MismatchPolicy} {plan : Plan}
    {data inner : Bytes} {path : List (String × String)} {start : Nat} {last : View} {edit : Edit}
    (h : schema.resolve policy = .ok plan)
    (hfollow : View.follow ⟨plan, data⟩ path = .ok (start, last))
    (happly : last.apply edit = .ok inner) : inner.length = last.data.length := by
  obtain ⟨part, -, hpart⟩ := Schema.resolve_at? h (View.at?_of_follow hfollow)
  exact (Schema.resolved hpart).length_of_apply happly

/-- An edit of a buffer changes bytes of the field that it goes through only. The field is a leaf
just if no anchor was entered. -/
theorem Schema.edit_agreeOutside {schema : Schema} {policy : MismatchPolicy} {plan : Plan}
    {data result : Bytes} {path : List (String × String)} {edit : Edit}
    (h : schema.resolve policy = .ok plan) (hedit : plan.edit data path edit = .ok result) :
    ∃ field span, plan.field? (edit.root path) = some field ∧
      (field.leaf?.isSome = true ↔ path = []) ∧ View.locate ⟨plan, data⟩ field = .ok span ∧
      Bytes.AgreeOutside span.start span.stop data result := by
  cases path with
  | nil =>
    obtain ⟨field, leaf, span, hfield, hleaf, hspan, hagree⟩ :=
      (Schema.resolved h).apply_agreeOutside ((Schema.resolved h).apply_of_edit hedit)
    exact ⟨field, span, hfield, by simp [hleaf], hspan, hagree⟩
  | cons step path =>
    obtain ⟨anchor, alternate⟩ := step
    obtain ⟨start, view, inner, hdescend, happly, rfl⟩ := Plan.exists_of_edit hedit
    have hfollow := Plan.follow_of_descend hdescend
    -- the inner buffer keeps its length, so it goes back to where it was cut out
    have hlength := Schema.length_of_apply h hfollow happly
    obtain ⟨field, span, hfield, hanchor, hspan, hstart, hstop, hinside⟩ :=
      View.inside_of_follow_cons hfollow
    refine ⟨field, span, hfield, by simp [hanchor], hspan, ?_⟩
    refine (Bytes.agreeOutside_overwrite (Nat.le_refl (start + inner.length)) ?_).mono hstart ?_
    · exact Nat.le_trans (by omega) hinside
    · omega

end PacketLayout
