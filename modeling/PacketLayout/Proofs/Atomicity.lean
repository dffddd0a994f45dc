import PacketLayout.Proofs.Faults

/-!
# Edits in place are atomic

An edit in place either fails and leaves every byte as it was, or it changes bytes of one field
only; where the field is a bit-field, its siblings in the same unit keep their bits.

* `View.Enters` follows a path and records where the range of each anchor starts.
* `Leaf.Frames` says what an edit of a leaf leaves alone.
* `Schema.perform_atomic` is the statement about edits below any path.
-/

namespace PacketLayout

/-! ## Paths and places -/

/-- A path leads from a view to the last one. On the way the range of each anchor starts somewhere
in the view before. -/
inductive View.Enters : View → List (String × String) → List Nat → View → Prop
  | nil (view : View) : Enters view [] [] view
  | cons {view inner last : View} {anchor alternate : String} {path : List (String × String)}
      {span : Span} {starts : List Nat} (hrange : view.range anchor = .ok span)
      (hinner : view.alternate anchor alternate = .ok (span.start, inner))
      (hmore : Enters inner path starts last) :
      Enters view ((anchor, alternate) :: path) (span.start :: starts) last

namespace View

theorem exists_enters {view last : View} {path : List (String × String)} {start : Nat}
    (h : view.follow path = .ok (start, last)) :
    ∃ starts, view.Enters path starts last ∧ start = starts.sum := by
  induction path generalizing view start with
  | nil =>
    obtain ⟨rfl, rfl⟩ := eq_of_follow_nil h
    exact ⟨[], .nil last, rfl⟩
  | cons step path ih =>
    obtain ⟨anchor, alternate⟩ := step
    obtain ⟨⟨first, inner⟩, hinner, h⟩ := bind_eq_ok_iff.1 h
    obtain ⟨⟨offset, found⟩, hmore, h⟩ := bind_eq_ok_iff.1 h
    obtain ⟨rfl, rfl⟩ := Prod.mk.inj (Except.ok.inj h)
    obtain ⟨starts, henters, rfl⟩ := ih hmore
    obtain ⟨field, span, rfl, hshows⟩ := shows_of_alternate hinner
    have hrange : view.range anchor = .ok span :=
      bind_eq_ok_iff.2 ⟨field, lookup_eq_ok_iff.2 hshows.field?, hshows.locate⟩
    exact ⟨span.start :: starts, .cons hrange hinner henters, List.sum_cons.symm⟩

/-- The last view of a path shows the bytes from its place on. -/
theorem slice_of_follow {view last : View} {path : List (String × String)} {start : Nat}
    (h : view.follow path = .ok (start, last)) :
    view.data.slice start (start + last.data.length) = .ok last.data := by
  induction path generalizing view start with
  | nil =>
    obtain ⟨rfl, rfl⟩ := eq_of_follow_nil h
    refine Bytes.slice_eq_ok_iff.2 ⟨by omega, by omega, ?_⟩
    rw [List.drop_zero, Nat.zero_add, Nat.sub_zero, List.take_length]
  | cons step path ih =>
    obtain ⟨anchor, alternate⟩ := step
    obtain ⟨field, span, inner, offset, hshows, hmore, rfl⟩ := follow_cons h
    rw [Nat.add_assoc]
    exact Bytes.slice_slice hshows.slice (ih hmore)

end View

/-! ## What is left alone -/

/-- Nothing changes outside the range of a leaf. For a bit-field the range is its unit, and in the
unit nothing changes outside its mask. -/
structure Leaf.Frames (leaf : Leaf) (start stop : Nat) (before after : Bytes) : Prop where
  outside : Bytes.AgreeOutside start stop before after
  unit : ∀ slot, leaf.provider.slot? = some slot → stop = start + slot.unit ∧
    ∃ mask, slot.unitMask = .ok mask ∧
      after.wordAt start slot.unit &&& ~~~mask = before.wordAt start slot.unit &&& ~~~mask

/-- An edit of a part of a buffer leaves alone what it leaves alone in the part. -/
theorem Leaf.Frames.within {leaf : Leaf} {data part new : Bytes} {start stop low high : Nat}
    (hslice : data.slice start stop = .ok part) (hhigh : high ≤ part.length)
    (h : leaf.Frames low high part new) :
    leaf.Frames (start + low) (start + high) data (data.overwrite start new) := by
  have hpart := Bytes.length_of_slice hslice
  have hnew := h.outside.length
  obtain ⟨hle, hstop, -⟩ := Bytes.slice_eq_ok_iff.1 hslice
  refine ⟨h.outside.within hslice, fun slot hslot => ?_⟩
  obtain ⟨hunit, mask, hmask, hword⟩ := h.unit slot hslot
  refine ⟨by omega, mask, hmask, ?_⟩
  have hwritten : (data.overwrite start new).slice start (start + new.length) = .ok new :=
    Bytes.slice_overwrite (by omega)
  rw [← Bytes.wordAt_of_slice hwritten (by omega), ← Bytes.wordAt_of_slice hslice (by omega)]
  exact hword

theorem Provider.put_of_slot? {provider : Provider} {slot : BitSlot}
    (h : provider.slot? = some slot) :
    (∀ word number, provider.put word number = slot.put word number) ∧
      provider.bits = slot.width := by
  cases provider with
  | bitField =>
    obtain rfl := Option.some.inj h
    exact ⟨fun _ _ => rfl, rfl⟩
  | scalar | enumeration | composite | rawSlice => cases h

/-- An edit of a view leaves alone all but its field. -/
theorem Resolved.frames {policy : MismatchPolicy} {schema : Schema} {plan : Plan}
    (h : Resolved policy schema plan) {data after : Bytes} {edit : Edit}
    (happly : View.apply ⟨plan, data⟩ edit = .ok after) :
    ∃ field leaf span, plan.field? edit.field = some field ∧ field.leaf? = some leaf ∧
      View.range ⟨plan, data⟩ edit.field = .ok span ∧
      leaf.Frames span.start span.stop data after := by
  obtain ⟨field, leaf, span, hfield, hleaf, hspan, hagree⟩ := h.apply_agreeOutside happly
  have hrange : View.range ⟨plan, data⟩ edit.field = .ok span :=
    bind_eq_ok_iff.2 ⟨field, View.lookup_eq_ok_iff.2 hfield, hspan⟩
  refine ⟨field, leaf, span, hfield, hleaf, hrange, hagree, fun slot hslot => ?_⟩
  obtain ⟨hreaches, hstop⟩ := h.reaches_of_locate (Plan.mem_of_field? hfield) hleaf
    (Provider.wordWidth?_of_slot? hslot) hspan
  obtain ⟨hfits, -⟩ := hreaches.fits.slot slot hslot
  obtain ⟨mask, hmask, -⟩ := BitSlot.unitMask_eq hfits
  refine ⟨hstop, mask, hmask, ?_⟩
  -- the word behind a bit-field takes up the number that the edit asks for
  obtain ⟨provider, found, htarget⟩ := View.exists_target_of_apply happly
  obtain ⟨field', leaf', hfield', hleaf', rfl, hspan'⟩ := View.exists_of_target htarget
  obtain rfl := Option.some.inj (hfield'.symm.trans hfield)
  obtain rfl := Option.some.inj (hleaf'.symm.trans hleaf)
  obtain rfl := Except.ok.inj (hspan'.symm.trans hspan)
  rw [View.apply_eq htarget hreaches, View.outcome] at happly
  cases hnumber : leaf'.provider.numberOf? edit with
  | none =>
    rw [hnumber] at happly
    cases happly
  | some number =>
    rw [hnumber] at happly
    obtain rfl := Except.ok.inj happly
    have hlt := Provider.numberOf?_lt hnumber
    obtain ⟨hput, hbits⟩ := Provider.put_of_slot? hslot
    rw [hbits] at hlt
    rw [View.wordAt_stored hreaches (Provider.numberOf?_lt hnumber), hput]
    exact BitSlot.put_and_not_unitMask hfits hlt hmask

/-! ## Edits in place -/

namespace Plan

variable {schema : Schema} {policy : MismatchPolicy} {plan : Plan} {data : Bytes}
  {path : List (String × String)} {edit : Edit}

/-- An edit of a buffer leaves alone all but the field at the end of its path. -/
theorem exists_frames_of_edit (h : schema.resolve policy = .ok plan) {after : Bytes}
    (hedit : plan.edit data path edit = .ok after) :
    ∃ starts last field leaf span, View.Enters ⟨plan, data⟩ path starts last ∧
      last.plan.field? edit.field = some field ∧ field.leaf? = some leaf ∧
      last.range edit.field = .ok span ∧
      leaf.Frames (starts.sum + span.start) (starts.sum + span.stop) data after := by
  obtain ⟨start, last, inner, hdescend, happly, rfl⟩ := exists_of_edit hedit
  have hfollow := follow_of_descend hdescend
  obtain ⟨starts, henters, rfl⟩ := View.exists_enters hfollow
  obtain ⟨part, -, hpart⟩ := Schema.resolve_at? h (View.at?_of_follow hfollow)
  obtain ⟨field, leaf, span, hfield, hleaf, hrange, hframes⟩ :=
    (Schema.resolved hpart).frames happly
  have hinside := (View.ordered_of_range hrange).2
  exact ⟨starts, last, field, leaf, span, henters, hfield, hleaf, hrange,
    hframes.within (View.slice_of_follow hfollow) hinside⟩

end Plan

/-- An edit in place is atomic and stays inside its field, whatever its path. If the path or the
edit fails, every byte is as before; no edit fails for want of bytes. If it succeeds, only the range
of the field changes, which starts where the ranges of the anchors and its own say, all found in the
buffer as it was before; of a bit-field only the bits under its mask change. Codecs are asked to
leave the destination alone when they refuse a value. -/
theorem Schema.perform_atomic {schema : Schema} {policy : MismatchPolicy} {plan : Plan}
    (h : schema.resolve policy = .ok plan) {leftover : Leftover} (hleftover : leftover.Untouched)
    (path : List (String × String)) (edit : Edit) (data : Bytes) :
    (∀ failure left, (plan.perform leftover edit path).exec data = (.error failure, left) →
      left = data ∧ plan.edit data path edit = .error failure ∧
        failure ≠ .error (.refused .outOfBounds)) ∧
    ∀ after, (plan.perform leftover edit path).exec data = (.ok (), after) →
      after.length = data.length ∧ plan.edit data path edit = .ok after ∧
      ∃ starts last field leaf span, View.Enters ⟨plan, data⟩ path starts last ∧
        last.plan.field? edit.field = some field ∧ field.leaf? = some leaf ∧
        last.range edit.field = .ok span ∧
        leaf.Frames (starts.sum + span.start) (starts.sum + span.stop) data after := by
  have hlands := Lands.perform h leftover edit path data
  refine ⟨fun failure left hrun => ?_, fun after hrun => ?_⟩
  · rw [hrun] at hlands
    obtain ⟨hedit, hkept⟩ := hlands.of_error
    refine ⟨hkept hleftover, hedit, ?_⟩
    rintro rfl
    obtain ⟨error, herror⟩ | ⟨after, hafter⟩ | ⟨error, herror, hne⟩ :=
      plan.edit_settled h data path edit
    · cases hedit.symm.trans herror
    · cases hedit.symm.trans hafter
    · cases hedit.symm.trans herror
      exact hne rfl
  · rw [hrun] at hlands
    have hedit := hlands.of_ok
    obtain ⟨starts, last, field, leaf, span, henters, hfield, hleaf, hrange, hframes⟩ :=
      Plan.exists_frames_of_edit h hedit
    exact ⟨hframes.outside.length, hedit, starts, last, field, leaf, span, henters, hfield, hleaf,
      hrange, hframes⟩

/-- Two bytes in front of an anchor whose bytes are two bit-fields and a composite. -/
def boxedSchema : Schema where
  name := "Boxed"
  fields :=
    [.plain { name := "kind", type := .integer .u16 },
      .anchor { name := "box", type := .byteArray 3 }
        [.mk "flagged"
          [.plain { name := "mode", type := .integer .u8, bits := some 3 },
            .plain { name := "level", type := .integer .u8, bits := some 5 },
            .plain { name := "mark", type := .composite ⟨"Mark", .byteArray (some 2)⟩ }]]]

theorem boxedSchema_atomic :
    ∃ plan, boxedSchema.resolve .error = .ok plan ∧
      (plan.perform (fun _ _ destination => destination) (.unsigned "level" 9)
        [("box", "flagged")]).exec [1, 2, 0xe0, 4, 5] = (.ok (), [1, 2, 0xe9, 4, 5]) ∧
      (∃ starts last field leaf span,
        View.Enters ⟨plan, [1, 2, 0xe0, 4, 5]⟩ [("box", "flagged")] starts last ∧
        last.plan.field? "level" = some field ∧ field.leaf? = some leaf ∧
        last.range "level" = .ok span ∧
        leaf.Frames (starts.sum + span.start) (starts.sum + span.stop)
          [1, 2, 0xe0, 4, 5] [1, 2, 0xe9, 4, 5]) ∧
      ∃ failure left,
        (plan.perform (fun _ _ destination => destination) (.bytes "mark" [7])
          [("box", "flagged")]).exec [1, 2, 0xe0, 4, 5] = (.error failure, left) ∧
        left = [1, 2, 0xe0, 4, 5] ∧ failure ≠ .error (.refused .outOfBounds) := by
  obtain ⟨plan, hplan⟩ : ∃ plan, boxedSchema.resolve .error = .ok plan := ⟨_, rfl⟩
  have huntouched : Leftover.Untouched fun _ _ destination => destination := fun _ _ _ _ => rfl
  have hdone : (plan.perform (fun _ _ destination => destination) (.unsigned "level" 9)
      [("box", "flagged")]).exec [1, 2, 0xe0, 4, 5] = (.ok (), [1, 2, 0xe9, 4, 5]) := by
    cases hplan
    rfl
  obtain ⟨failure, left, hfailed⟩ : ∃ failure left,
      (plan.perform (fun _ _ destination => destination) (.bytes "mark" [7])
        [("box", "flagged")]).exec [1, 2, 0xe0, 4, 5] = (.error failure, left) := by
    cases hplan
    exact ⟨_, _, rfl⟩
  obtain ⟨-, -, hframes⟩ := (Schema.perform_atomic hplan huntouched [("box", "flagged")]
    (.unsigned "level" 9) [1, 2, 0xe0, 4, 5]).2 _ hdone
  obtain ⟨hleft, -, hne⟩ := (Schema.perform_atomic hplan huntouched [("box", "flagged")]
    (.bytes "mark" [7]) [1, 2, 0xe0, 4, 5]).1 failure left hfailed
  exact ⟨plan, hplan, hdone, hframes, failure, left, hfailed, hleft, hne⟩

end PacketLayout
