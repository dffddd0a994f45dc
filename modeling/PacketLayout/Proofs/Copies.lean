import PacketLayout.Proofs.Decoding
import PacketLayout.Proofs.InPlace

/-!
# Arrays of bytes that are copied and read again

A plain array of bytes is copied into its field if it has the length of the field, and read if the
field has the size of the type. These are different conditions: a field may be given another size
than its type has. Then what was copied cannot be read.

* `Codec.Suits` compares the size of a type with an array.
* `Resolved.slice_of_performBytes` says what a copy that succeeds leaves in the range of its field.
* `Schema.get_of_performBytes` is the statement about plans; `stampSchema_unread` is a field that
  can be written and not read.
-/

namespace PacketLayout

/-! ## Copies -/

theorem copyExact_eq_some_iff {value destination copied : Bytes} :
    copyExact value destination = some copied ↔
      value.length = destination.length ∧ copied = value := by
  simp only [copyExact, Option.ite_none_right_eq_some, Option.some.injEq, eq_comm]

/-- The type has no size of its own, or that of the value. -/
def Codec.Suits (size : Option Nat) (value : Bytes) : Prop :=
  ∀ count, size = some count → count = value.length

theorem Codec.construct_of_suits {size : Option Nat} {value : Bytes} (h : Suits size value) :
    (byteArray size).construct value = some value := by
  cases size with
  | none => rfl
  | some count => exact if_pos (h count rfl)

theorem Codec.construct_of_not_suits {size : Option Nat} {value : Bytes} (h : ¬ Suits size value) :
    (byteArray size).construct value = none := by
  cases size with
  | none => exact absurd nofun h
  | some count => exact if_neg fun hcount => h fun _ hother => Option.some.inj hother ▸ hcount

/-- A field that is not given a size has the static one of its type. -/
theorem Realizes.staticSize_of_intrinsic {readOnly : Bool} {origin : Prepared}
    {field : PlannedField} (h : Realizes readOnly origin field) {leaf : Leaf} {type : Composite}
    (hleaf : field.leaf? = some leaf) (hprovider : leaf.provider = .composite type) {count : Nat}
    (hsize : field.size = .intrinsic count) : type.codec.staticSize = some count := by
  obtain ⟨slot, -, hprovided⟩ := h.source_of_leaf? hleaf
  have hsized := Size.source_of_resolve h.size
  rw [hprovider] at hprovided
  rw [hsize] at hsized
  cases hprovided with
  | composite _ htype =>
    cases hsized with
    | integer _ _ _ integer => simp [Declaration.kind?, htype, FieldType.kind?] at integer
    | composite _ _ _ htype' static =>
      obtain rfl := FieldType.composite.inj (htype.symm.trans htype')
      exact static

/-! ## Plans -/

/-- An array of bytes that was written is found, if the range of the field is the same as before. -/
theorem Resolved.slice_of_performBytes {policy : MismatchPolicy} {schema : Schema} {plan : Plan}
    (h : Resolved policy schema plan) {field : PlannedField} (hmem : field ∈ plan.fields)
    {leaf : Leaf} {type : Composite} {size : Option Nat} (hleaf : field.leaf? = some leaf)
    (hprovider : leaf.provider = .composite type) (hcodec : type.codec = .byteArray size)
    {leftover : Leftover} {data after value : Bytes}
    (hset : (plan.performHere leftover (.bytes field.name value)).exec data = (.ok (), after))
    (hrange : View.range ⟨plan, after⟩ field.name = View.range ⟨plan, data⟩ field.name) :
    ∃ span, View.range ⟨plan, after⟩ field.name = .ok span ∧
      after.slice span.start span.stop = .ok value := by
  have happly : View.apply ⟨plan, data⟩ (.bytes field.name value) = .ok after :=
    (hset ▸ Lands.performHere leftover plan (.bytes field.name value)).of_ok
  obtain ⟨provider, span, htarget⟩ := View.exists_target_of_apply happly
  obtain ⟨found, other, hfound, hother, rfl, hlocate⟩ := View.exists_of_target htarget
  obtain rfl := Option.some.inj ((h.field?_of_mem hmem).symm.trans hfound)
  obtain rfl := Option.some.inj (hleaf.symm.trans hother)
  rw [hprovider] at htarget
  obtain ⟨destination, copied, hslice, hcopied, rfl⟩ :=
    View.exists_copied_of_setBytes htarget happly
  rw [hcodec] at hcopied
  obtain ⟨hlength, rfl⟩ := copyExact_eq_some_iff.1 hcopied
  refine ⟨span, ?_, Bytes.slice_overwrite_slice hslice hlength⟩
  exact hrange.trans ((View.range_eq hfound).trans hlocate)

/-- An array of bytes that was written is read again, if its range stays the same and its type has
no size of its own or that of the array; otherwise it cannot be read. A field that has the size of
its type, or is given the same one, takes only such arrays. -/
theorem Schema.get_of_performBytes {schema : Schema} {policy : MismatchPolicy} {plan sub : Plan}
    {path : List (String × String)} (h : schema.resolve policy = .ok plan)
    (hsub : plan.at? path = some sub) {field : PlannedField} (hmem : field ∈ sub.fields)
    {leaf : Leaf} {type : Composite} {size : Option Nat} (hleaf : field.leaf? = some leaf)
    (hprovider : leaf.provider = .composite type) (hcodec : type.codec = .byteArray size)
    {leftover : Leftover} {data after value : Bytes}
    (hset : (sub.performHere leftover (.bytes field.name value)).exec data = (.ok (), after))
    (hrange : View.range ⟨sub, after⟩ field.name = View.range ⟨sub, data⟩ field.name) :
    (Codec.Suits size value →
      View.get ⟨sub, after⟩ field.name = .ok (.composite type value)) ∧
    (¬ Codec.Suits size value →
      View.get ⟨sub, after⟩ field.name = .error (.error (.composite type.name))) ∧
    ((∃ count, field.size = .intrinsic count ∨ field.size = .external count ∧ size = some count) →
      Codec.Suits size value) := by
  obtain ⟨part, -, hresolve⟩ := Schema.resolve_at? h hsub
  have hresolved := Schema.resolved hresolve
  obtain ⟨span, hspan, hslice⟩ :=
    hresolved.slice_of_performBytes hmem hleaf hprovider hcodec hset hrange
  obtain ⟨bytes, hbytes, hreads, -⟩ := hresolved.exists_reads hmem hleaf hspan
  obtain rfl := Except.ok.inj (hslice.symm.trans hbytes)
  rw [hprovider] at hreads
  refine ⟨fun hsuits => hreads.unique (.composite ?_),
    fun hsuits => hreads.unique (.refused ?_), ?_⟩
  · rw [hcodec, Codec.construct_of_suits hsuits]
  · rw [hcodec, Codec.construct_of_not_suits hsuits]
  · rintro ⟨count, hsize⟩
    obtain ⟨origin, hrealizes⟩ := hresolved.realizes_of_mem hmem
    have hlocate : View.locate ⟨sub, after⟩ field = .ok span := by
      rwa [← View.range_eq (hresolved.field?_of_mem hmem)]
    have hlength := Bytes.length_of_slice hslice
    -- the range is as long as the size of the field says, and the type agrees with it
    have hagree : size = some count ∧ field.size.fixed = some count := by
      rcases hsize with hsize | ⟨hsize, hcount⟩
      · have hstatic := hrealizes.staticSize_of_intrinsic hleaf hprovider hsize
        rw [hcodec] at hstatic
        exact ⟨hstatic, by rw [hsize]; rfl⟩
      · exact ⟨hcount, by rw [hsize]; rfl⟩
    have hfixed := View.length_of_fixed hrealizes hagree.2 hlocate
    intro other hother
    obtain rfl := Option.some.inj (hagree.1.symm.trans hother)
    exact hfixed.symm.trans hlength.symm

/-- A key of two bytes, and a label as long as the first byte says. -/
def badgeSchema : Schema where
  name := "Badge"
  fields :=
    [.plain { name := "count", type := .integer .u8 },
      .plain { name := "key", type := .composite ⟨"Key", .byteArray (some 2)⟩ },
      .plain { name := "label", type := .composite ⟨"Label", .byteArray none⟩
               sizeFunction := some ⟨"first", fun data => (data.headD 0).toNat⟩ }]

theorem badgeSchema_get :
    ∃ plan key label, badgeSchema.resolve .error = .ok plan ∧
      (plan.performHere (fun _ _ destination => destination) (.bytes "key" [7, 8])).exec
        [3, 0, 0, 0, 0, 0] = (.ok (), [3, 7, 8, 0, 0, 0]) ∧
      View.get ⟨plan, [3, 7, 8, 0, 0, 0]⟩ "key" = .ok (.composite key [7, 8]) ∧
      (plan.performHere (fun _ _ destination => destination) (.bytes "label" [4, 5, 6])).exec
        [3, 0, 0, 0, 0, 0] = (.ok (), [3, 0, 0, 4, 5, 6]) ∧
      View.get ⟨plan, [3, 0, 0, 4, 5, 6]⟩ "label" = .ok (.composite label [4, 5, 6]) := by
  obtain ⟨plan, hplan⟩ : ∃ plan, badgeSchema.resolve .error = .ok plan := ⟨_, rfl⟩
  have hself : plan.at? [] = some plan := rfl
  obtain ⟨key, leaf, type, hkey, hname, hleaf, hprovider, hcodec, hsize⟩ : ∃ key leaf type,
      key ∈ plan.fields ∧ key.name = "key" ∧ key.leaf? = some leaf ∧
        leaf.provider = .composite type ∧ type.codec = .byteArray (some 2) ∧
        key.size = .intrinsic 2 := by
    cases hplan
    exact ⟨_, _, _, .tail _ (.head _), rfl, rfl, rfl, rfl, rfl⟩
  obtain ⟨label, leaf', type', hlabel, hname', hleaf', hprovider', hcodec'⟩ :
      ∃ label leaf' type', label ∈ plan.fields ∧ label.name = "label" ∧
        label.leaf? = some leaf' ∧ leaf'.provider = .composite type' ∧
        type'.codec = .byteArray none := by
    cases hplan
    exact ⟨_, _, _, .tail _ (.tail _ (.head _)), rfl, rfl, rfl, rfl⟩
  obtain ⟨hset, hrange, hset', hrange'⟩ :
      (plan.performHere (fun _ _ destination => destination) (.bytes "key" [7, 8])).exec
        [3, 0, 0, 0, 0, 0] = (.ok (), [3, 7, 8, 0, 0, 0]) ∧
      View.range ⟨plan, [3, 7, 8, 0, 0, 0]⟩ "key" =
        View.range ⟨plan, [3, 0, 0, 0, 0, 0]⟩ "key" ∧
      (plan.performHere (fun _ _ destination => destination) (.bytes "label" [4, 5, 6])).exec
        [3, 0, 0, 0, 0, 0] = (.ok (), [3, 0, 0, 4, 5, 6]) ∧
      View.range ⟨plan, [3, 0, 0, 4, 5, 6]⟩ "label" =
        View.range ⟨plan, [3, 0, 0, 0, 0, 0]⟩ "label" := by
    cases hplan
    exact ⟨rfl, rfl, rfl, rfl⟩
  rw [← hname] at hset hrange ⊢
  rw [← hname'] at hset' hrange' ⊢
  obtain ⟨hget, -, hsuits⟩ :=
    Schema.get_of_performBytes hplan hself hkey hleaf hprovider hcodec hset hrange
  obtain ⟨hget', -, -⟩ :=
    Schema.get_of_performBytes hplan hself hlabel hleaf' hprovider' hcodec' hset' hrange'
  exact ⟨plan, type, type', hplan, hset, hget (hsuits ⟨2, .inl hsize⟩), hset', hget' nofun⟩

/-- A key of six bytes in a field of four. -/
def stampSchema : Schema where
  name := "Stamp"
  fields :=
    [.plain { name := "key", type := .composite ⟨"Key", .byteArray (some 6)⟩, size := some 4 }]

/-- Four bytes are copied into the field, which stays where it is, and cannot be read. -/
theorem stampSchema_unread :
    ∃ plan key leaf type, stampSchema.resolve .error = .ok plan ∧
      plan.field? "key" = some key ∧ key.leaf? = some leaf ∧ leaf.writable = true ∧
      leaf.provider = .composite type ∧ type.codec = .byteArray (some 6) ∧
      (∀ leftover, (plan.performHere leftover (.bytes "key" [1, 2, 3, 4])).exec [0, 0, 0, 0] =
        (.ok (), [1, 2, 3, 4])) ∧
      View.range ⟨plan, [1, 2, 3, 4]⟩ "key" = View.range ⟨plan, [0, 0, 0, 0]⟩ "key" ∧
      View.get ⟨plan, [1, 2, 3, 4]⟩ "key" = .error (.error (.composite "Key")) := by
  obtain ⟨plan, hplan⟩ : ∃ plan, stampSchema.resolve .error = .ok plan := ⟨_, rfl⟩
  cases hplan
  exact ⟨_, _, _, _, rfl, rfl, rfl, rfl, rfl, rfl, fun _ => rfl, rfl, rfl⟩

end PacketLayout
