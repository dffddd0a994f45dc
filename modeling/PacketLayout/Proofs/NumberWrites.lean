import PacketLayout.Proofs.InPlace

/-!
# Writing numbers in place

A field of a plan that holds a number, wherever its word lies. A write either puts in the number
that it asks for or leaves the buffer as it was, and the number is read again if the field is still
found where it was.

* `NumberAt` is such a field in a buffer.
* `NumberAt.exec_performUnsigned` and its companions say how the three kinds of writes end.
* `NumberAt.get_of_ending` reads the number that was written.
-/

namespace PacketLayout

/-! ## Ends -/

/-- How a procedure ends that leaves the buffer of a result, or the one before if there is none. -/
def InPlace.ending {ε : Type} (data : Bytes) :
    Except (Failure ε) Bytes → Except (Failure ε) Unit × Bytes
  | .ok after => (.ok (), after)
  | .error failure => (.error failure, data)

theorem Lands.eq_ending {ε : Type} {data : Bytes} {result : Except (Failure ε) Bytes}
    {run : Except (Failure ε) Unit × Bytes} (h : Lands True data result run) :
    run = InPlace.ending data result := by
  cases h with
  | ok after => rfl
  | error failure hleft => rw [hleft trivial, InPlace.ending]

theorem InPlace.ending_eq_ok_iff {ε : Type} {data after : Bytes}
    {result : Except (Failure ε) Bytes} :
    ending data result = (.ok (), after) ↔ result = .ok after := by
  cases result <;> simp [ending]

/-! ## Numbers in a buffer -/

/-- A number of a plan that may be written, and the range where it is found. -/
structure NumberAt (plan : Plan) (data : Bytes) (field : PlannedField) (leaf : Leaf) (span : Span)
    (width : Nat) : Prop where
  mem : field ∈ plan.fields
  leaf? : field.leaf? = some leaf
  writable : leaf.writable = true
  wordWidth? : leaf.provider.wordWidth? = some width
  locate : View.locate ⟨plan, data⟩ field = .ok span

namespace NumberAt

variable {policy : MismatchPolicy} {schema : Schema} {plan : Plan} {data after : Bytes}
  {field : PlannedField} {leaf : Leaf} {span : Span} {width : Nat}

theorem of_range (h : Resolved policy schema plan) (hmem : field ∈ plan.fields)
    (hleaf : field.leaf? = some leaf) (hwritable : leaf.writable = true)
    (hwidth : leaf.provider.wordWidth? = some width)
    (hspan : View.range ⟨plan, data⟩ field.name = .ok span) :
    NumberAt plan data field leaf span width := by
  rw [View.range_eq (h.field?_of_mem hmem)] at hspan
  exact ⟨hmem, hleaf, hwritable, hwidth, hspan⟩

theorem reaches (hat : NumberAt plan data field leaf span width)
    (h : Resolved policy schema plan) :
    View.Reaches ⟨plan, data⟩ span leaf.provider width :=
  (h.reaches_of_locate hat.mem hat.leaf? hat.wordWidth? hat.locate).1

theorem target_eq (hat : NumberAt plan data field leaf span width)
    (h : Resolved policy schema plan) :
    View.target ⟨plan, data⟩ field.name = .ok (leaf.provider, span) :=
  View.target_eq (h.field?_of_mem hat.mem) hat.leaf? hat.writable hat.locate

/-- The number is found where it was, in a buffer of the same length that gives its offset the same
number. -/
theorem of_eval (hat : NumberAt plan data field leaf span width)
    (h : Resolved policy schema plan) (hlength : after.length = data.length)
    (hoffset : field.offset.eval after = field.offset.eval data) :
    NumberAt plan after field leaf span width :=
  ⟨hat.mem, hat.leaf?, hat.writable, hat.wordWidth?,
    h.locate_of_eval hat.mem hat.leaf? hat.wordWidth? hat.locate hlength hoffset⟩

/-! ## Writes -/

theorem exec_performUnsigned (hat : NumberAt plan data field leaf span width)
    (h : Resolved policy schema plan) (value : UInt64) :
    (plan.performUnsigned field.name value).exec data =
      InPlace.ending data (View.outcome ⟨plan, data⟩ span width leaf.provider
        (.unsigned field.name value)) := by
  rw [← View.setUnsigned_eq (hat.target_eq h) (hat.reaches h)]
  exact (Lands.performUnsigned plan field.name value).eq_ending

theorem exec_performSigned (hat : NumberAt plan data field leaf span width)
    (h : Resolved policy schema plan) (value : Int64) :
    (plan.performSigned field.name value).exec data =
      InPlace.ending data (View.outcome ⟨plan, data⟩ span width leaf.provider
        (.signed field.name value)) := by
  rw [← View.setSigned_eq (hat.target_eq h) (hat.reaches h)]
  exact (Lands.performSigned plan field.name value).eq_ending

theorem exec_performVariant (hat : NumberAt plan data field leaf span width)
    (h : Resolved policy schema plan) (variant : String) :
    (plan.performVariant field.name variant).exec data =
      InPlace.ending data (View.outcome ⟨plan, data⟩ span width leaf.provider
        (.variant field.name variant)) := by
  rw [← View.setVariant_eq (hat.target_eq h) (hat.reaches h)]
  exact (Lands.performVariant plan field.name variant).eq_ending

/-- A write succeeds just if it asks for a number that the field can hold. -/
theorem exists_ending_iff (plan : Plan) (data : Bytes) (provider : Provider) (span : Span)
    (width : Nat) (edit : Edit) :
    (∃ after, InPlace.ending data (View.outcome ⟨plan, data⟩ span width provider edit) =
        (.ok (), after)) ↔ ∃ number, provider.numberOf? edit = some number := by
  rw [View.outcome]
  cases provider.numberOf? edit with
  | none => simp [InPlace.ending]
  | some number => simp [InPlace.ending]

/-- The number that was written is read, if the field is found where it was. -/
theorem get_of_ending (hat : NumberAt plan data field leaf span width)
    (h : Resolved policy schema plan) {edit : Edit}
    (hrun : InPlace.ending data (View.outcome ⟨plan, data⟩ span width leaf.provider edit) =
      (.ok (), after))
    (hoffset : field.offset.eval after = field.offset.eval data) :
    ∃ number, leaf.provider.numberOf? edit = some number ∧
      View.get ⟨plan, after⟩ field.name = .ok (leaf.provider.valueOf number) := by
  have hreaches := hat.reaches h
  rw [InPlace.ending_eq_ok_iff, View.outcome] at hrun
  cases hnumber : leaf.provider.numberOf? edit with
  | none =>
    rw [hnumber] at hrun
    cases hrun
  | some number =>
    rw [hnumber] at hrun
    obtain rfl := Except.ok.inj hrun
    have hlt := Provider.numberOf?_lt hnumber
    have hlength : (View.stored ⟨plan, data⟩ span width leaf.provider number).length =
        data.length :=
      Bytes.length_overwrite (by rw [BigEndian.length_bytes]; exact hreaches.inside)
    have hagain := hat.of_eval h hlength hoffset
    refine ⟨number, rfl, ?_⟩
    rw [View.get_eq (h.field?_of_mem hagain.mem) hagain.leaf? hagain.locate (hagain.reaches h),
      View.wordOf, View.wordAt_stored hreaches hlt, Provider.number_put hreaches.fits hlt]

end NumberAt

end PacketLayout
