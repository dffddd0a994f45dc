import PacketLayout.Proofs.BitFields
import PacketLayout.Proofs.NumberWrites

/-!
# Writes that do not meet

An edit of a field with a fixed range looks at the bytes of the range and changes these only. So two
edits of fields apart from each other, or of bit-fields which share a unit, can be performed in
either order.

* `InPlace.CommuteOn` compares the two orders on a buffer; `commuteOn_within` is about ranges that
  share no byte, `commuteOn_within_same` about one range.
* `Provider.rewrite` is what an edit does to the bytes of its field, and
  `FixedAt.exec_performHere` says so.
* `Schema.edits_commute` is the statement about plans.
-/

namespace PacketLayout

/-! ## Writes into buffers -/

/-- No byte is in both ranges. -/
def Span.Disjoint (a b : Span) : Prop :=
  ∀ place, ¬ (a.start ≤ place ∧ place < a.stop ∧ b.start ≤ place ∧ place < b.stop)

theorem Span.Disjoint.symm {a b : Span} (h : a.Disjoint b) : b.Disjoint a :=
  fun place ⟨hb, hb', ha, ha'⟩ => h place ⟨ha, ha', hb, hb'⟩

namespace Bytes

variable {data new new' : Bytes} {start start' : Nat}

/-- Writes at places apart from each other can be made in either order. -/
theorem overwrite_comm (h : start + new.length ≤ data.length)
    (h' : start' + new'.length ≤ data.length)
    (hdisjoint : Span.Disjoint ⟨start, start + new.length⟩ ⟨start', start' + new'.length⟩) :
    (data.overwrite start new).overwrite start' new' =
      (data.overwrite start' new').overwrite start new := by
  have hlength := length_overwrite h
  have hlength' := length_overwrite h'
  refine List.ext_getElem? fun i => ?_
  rw [getElem?_overwrite (by omega), getElem?_overwrite h, getElem?_overwrite (by omega),
    getElem?_overwrite h']
  by_cases hout : i < start ∨ start + new.length ≤ i
  · simp only [hout, if_true]
  · by_cases hout' : i < start' ∨ start' + new'.length ≤ i
    · simp only [hout, hout', if_true, if_false]
    · have hboth := hdisjoint i
      simp only at hboth
      omega

/-- The later one of two writes at a place counts. -/
theorem overwrite_again (h : start + new.length ≤ data.length)
    (hlength : new'.length = new.length) :
    (data.overwrite start new).overwrite start new' = data.overwrite start new' := by
  have hkeep := length_overwrite h
  refine List.ext_getElem? fun i => ?_
  rw [getElem?_overwrite (by omega), getElem?_overwrite h, getElem?_overwrite (by omega), hlength]
  split <;> rfl

/-- A range apart from a write keeps its bytes. -/
theorem slice_overwrite_disjoint {part : Bytes} {low high : Nat}
    (h : start + new.length ≤ data.length) (hslice : data.slice low high = .ok part)
    (hdisjoint : Span.Disjoint ⟨start, start + new.length⟩ ⟨low, high⟩) :
    (data.overwrite start new).slice low high = .ok part := by
  obtain ⟨hordered, hinside, rfl⟩ := slice_eq_ok_iff.1 hslice
  refine slice_eq_ok_iff.2 ⟨hordered, by rwa [length_overwrite h], ?_⟩
  refine List.ext_getElem? fun i => ?_
  rw [List.getElem?_take, List.getElem?_take]
  split
  · rename_i hi
    rw [List.getElem?_drop, List.getElem?_drop, getElem?_overwrite h]
    by_cases hout : low + i < start ∨ start + new.length ≤ low + i
    · rw [if_pos hout]
    · have hboth := hdisjoint (low + i)
      simp only at hboth
      omega
  · rfl

end Bytes

/-! ## Procedures on ranges -/

namespace InPlace

variable {ε : Type} {first second : InPlace ε Unit} {data : Bytes}

/-- On this buffer the two procedures end alike in either order and leave the same buffer. -/
structure CommuteOn (first second : InPlace ε Unit) (data : Bytes) : Prop where
  left : (first.exec (second.exec data).2).1 = (first.exec data).1
  right : (second.exec (first.exec data).2).1 = (second.exec data).1
  buffer : (second.exec (first.exec data).2).2 = (first.exec (second.exec data).2).2

/-- The procedure keeps the length of the buffer, however it ends. -/
def KeepsLength (procedure : InPlace ε Unit) : Prop :=
  ∀ data : Bytes, (procedure.exec data).2.length = data.length

theorem exec_within_of_slice {span : Span} {inner : InPlace ε Unit} {part : Bytes}
    (h : data.slice span.start span.stop = .ok part) :
    (within span inner).exec data =
      ((inner.exec part).1, data.overwrite span.start (inner.exec part).2) := by
  rw [exec_within, h]

theorem KeepsLength.within {inner : InPlace ε Unit} (h : inner.KeepsLength) (span : Span) :
    (within span inner).KeepsLength := by
  intro data
  cases hslice : data.slice span.start span.stop with
  | error fault => rw [exec_within, hslice]
  | ok part =>
    obtain ⟨hordered, hinside, -⟩ := Bytes.slice_eq_ok_iff.1 hslice
    have hlength := Bytes.length_of_slice hslice
    have hnew := h part
    rw [exec_within_of_slice hslice]
    exact Bytes.length_overwrite (by omega)

/-- A procedure that leaves every buffer as it is can be run before or after any other. -/
theorem commuteOn_of_refused {failure : Failure ε}
    (h : ∀ data, first.exec data = (.error failure, data)) : CommuteOn first second data :=
  ⟨by rw [h, h], by rw [h], by rw [h, h]⟩

theorem CommuteOn.symm (h : CommuteOn first second data) : CommuteOn second first data :=
  ⟨h.right, h.left, h.buffer.symm⟩

/-- What holds of procedures holds of others that do the same on buffers of the length. -/
theorem CommuteOn.congr {first' second' : InPlace ε Unit} (h : CommuteOn first' second' data)
    (hkeeps : first'.KeepsLength) (hkeeps' : second'.KeepsLength)
    (hfirst : ∀ after, after.length = data.length → first.exec after = first'.exec after)
    (hsecond : ∀ after, after.length = data.length → second.exec after = second'.exec after) :
    CommuteOn first second data := by
  have hleft := hfirst _ (hkeeps' data)
  have hright := hsecond _ (hkeeps data)
  refine ⟨?_, ?_, ?_⟩
  · rw [hsecond data rfl, hleft, hfirst data rfl]
    exact h.left
  · rw [hfirst data rfl, hright, hsecond data rfl]
    exact h.right
  · rw [hfirst data rfl, hright, hsecond data rfl, hleft]
    exact h.buffer

/-- Procedures on ranges that share no byte can be run in either order. -/
theorem commuteOn_within {a b : Span} {part part' : Bytes}
    (hslice : data.slice a.start a.stop = .ok part)
    (hslice' : data.slice b.start b.stop = .ok part') (hdisjoint : a.Disjoint b)
    (hkeeps : first.KeepsLength) (hkeeps' : second.KeepsLength) :
    CommuteOn (within a first) (within b second) data := by
  obtain ⟨hordered, hinside, -⟩ := Bytes.slice_eq_ok_iff.1 hslice
  obtain ⟨hordered', hinside', -⟩ := Bytes.slice_eq_ok_iff.1 hslice'
  have hlength := Bytes.length_of_slice hslice
  have hlength' := Bytes.length_of_slice hslice'
  have hnew := hkeeps part
  have hnew' := hkeeps' part'
  have hstop : a.start + (first.exec part).2.length = a.stop := by omega
  have hstop' : b.start + (second.exec part').2.length = b.stop := by omega
  have hkept' : (data.overwrite a.start (first.exec part).2).slice b.start b.stop = .ok part' :=
    Bytes.slice_overwrite_disjoint (by omega) hslice' (by rwa [hstop])
  have hkept : (data.overwrite b.start (second.exec part').2).slice a.start a.stop = .ok part :=
    Bytes.slice_overwrite_disjoint (by omega) hslice
      (by rw [hstop']; exact hdisjoint.symm)
  refine ⟨?_, ?_, ?_⟩
  · rw [exec_within_of_slice hslice', exec_within_of_slice hkept, exec_within_of_slice hslice]
  · rw [exec_within_of_slice hslice, exec_within_of_slice hkept', exec_within_of_slice hslice']
  · rw [exec_within_of_slice hslice, exec_within_of_slice hkept', exec_within_of_slice hslice',
      exec_within_of_slice hkept]
    exact Bytes.overwrite_comm (by omega) (by omega) (by rwa [hstop, hstop'])

/-- Procedures on one range can be run in either order, if they can on its bytes. -/
theorem commuteOn_within_same {span : Span} {part : Bytes}
    (hslice : data.slice span.start span.stop = .ok part) (hkeeps : first.KeepsLength)
    (hkeeps' : second.KeepsLength) (h : CommuteOn first second part) :
    CommuteOn (within span first) (within span second) data := by
  obtain ⟨hordered, hinside, -⟩ := Bytes.slice_eq_ok_iff.1 hslice
  have hlength := Bytes.length_of_slice hslice
  have hnew := hkeeps part
  have hnew' := hkeeps' part
  -- what one procedure leaves in the range, the other one finds there
  have hfound := Bytes.slice_overwrite_slice hslice hnew
  have hfound' := Bytes.slice_overwrite_slice hslice hnew'
  refine ⟨?_, ?_, ?_⟩
  · rw [exec_within_of_slice hslice, exec_within_of_slice hfound', exec_within_of_slice hslice]
    exact h.left
  · rw [exec_within_of_slice hslice, exec_within_of_slice hfound, exec_within_of_slice hslice]
    exact h.right
  · rw [exec_within_of_slice hslice, exec_within_of_slice hfound, exec_within_of_slice hslice,
      exec_within_of_slice hfound',
      Bytes.overwrite_again (by omega) (hkeeps' _),
      Bytes.overwrite_again (by omega) (hkeeps _)]
    exact congrArg (data.overwrite span.start) h.buffer

end InPlace

/-! ## What edits do to their fields -/

/-- The bytes of a word with a number in place of the one inside, if an edit asks for one. -/
def Provider.renumber (provider : Provider) (edit : Edit) (part : Bytes) : Write Bytes :=
  match provider.numberOf? edit with
  | some number =>
    .ok (BigEndian.bytes part.length (provider.put (BigEndian.word part) number))
  | none => .error (.error (provider.refusal edit))

/-- What an edit does to the bytes of a leaf: it puts a number into the word that they spell, or
copies bytes through a codec. -/
def Provider.rewrite (leftover : Leftover) (edit : Edit) : Provider → InPlace WriteError Unit
  | .composite type =>
    match edit with
    | .bytes name value => type.store leftover name value
    | edit => throw (.error edit.misfit)
  | .rawSlice => throw (.error edit.misfit)
  | provider => ExceptT.mk fun part => InPlace.ending part (provider.renumber edit part)

/-- A codec that refuses a value may leave other bytes in the destination, but not more or fewer. -/
def Leftover.KeepsLength (leftover : Leftover) : Prop :=
  ∀ type value destination, type.codec.copyInto value destination = none →
    (leftover type value destination).length = destination.length

namespace Provider

variable {provider : Provider} {leftover : Leftover} {edit : Edit}

theorem exec_rewrite_of_wordWidth? {width : Nat} (hwidth : provider.wordWidth? = some width)
    (part : Bytes) :
    (provider.rewrite leftover edit).exec part =
      InPlace.ending part (provider.renumber edit part) := by
  cases provider with
  | scalar | enumeration | bitField => rfl
  | composite | rawSlice => cases hwidth

theorem rewrite_of_wordless (hwidth : provider.wordWidth? = none)
    (hedit : ∀ name value, edit ≠ .bytes name value) :
    provider.rewrite leftover edit = throw (.error edit.misfit) := by
  cases provider with
  | composite type =>
    cases edit with
    | unsigned | signed | variant => rfl
    | bytes name value => exact absurd rfl (hedit name value)
  | rawSlice => rfl
  | scalar | enumeration | bitField => cases hwidth

/-- Bytes that are rewritten keep their length. -/
theorem keepsLength_rewrite (hleftover : leftover.KeepsLength) :
    (provider.rewrite leftover edit).KeepsLength := by
  intro part
  cases provider with
  | scalar | enumeration | bitField =>
    rw [exec_rewrite_of_wordWidth? rfl, renumber]
    split
    · exact BigEndian.length_bytes _ _
    · rfl
  | rawSlice => rfl
  | composite type =>
    cases edit with
    | unsigned | signed | variant => rfl
    | bytes name value =>
      rw [rewrite]
      cases hcopied : type.codec.copyInto value part with
      | some copied =>
        rw [Composite.exec_store_of_copied hcopied]
        exact type.codec.length_copyInto _ _ _ hcopied
      | none =>
        rw [Composite.exec_store_of_refused hcopied]
        exact hleftover _ _ _ hcopied

end Provider

namespace Provider

variable {provider other : Provider} {slot slot' : BitSlot} {width : Nat} {part : Bytes}
  {leftover : Leftover} {first second : Edit}

/-- A number that can be held is put into the word. -/
theorem exec_rewrite_of_numberOf? (h : provider.Fits width) {number : UInt64}
    (hnumber : provider.numberOf? first = some number) (hpart : part.length = width) :
    (provider.rewrite leftover first).exec part =
      (.ok (), BigEndian.bytes width (provider.put (BigEndian.word part) number)) := by
  rw [exec_rewrite_of_wordWidth? h.wordWidth?, renumber, hnumber, hpart]
  rfl

/-- A number that cannot be held changes nothing. -/
theorem exec_rewrite_of_refused (h : provider.Fits width)
    (hnumber : provider.numberOf? first = none) (part : Bytes) :
    (provider.rewrite leftover first).exec part =
      (.error (.error (provider.refusal first)), part) := by
  rw [exec_rewrite_of_wordWidth? h.wordWidth?, renumber, hnumber]
  rfl

/-- Numbers are put into slots of one word in either order. -/
theorem commuteOn_rewrite (h : provider.Fits width) (h' : other.Fits width)
    (hslot : provider.slot? = some slot) (hslot' : other.slot? = some slot')
    (hapart : slot.Apart slot') (hpart : part.length = width) :
    InPlace.CommuteOn (provider.rewrite leftover first) (other.rewrite leftover second) part := by
  cases hnumber : provider.numberOf? first with
  | none => exact InPlace.commuteOn_of_refused (exec_rewrite_of_refused h hnumber)
  | some number =>
    cases hnumber' : other.numberOf? second with
    | none => exact (InPlace.commuteOn_of_refused (exec_rewrite_of_refused h' hnumber')).symm
    | some number' =>
      have hlt := numberOf?_lt hnumber
      have hlt' := numberOf?_lt hnumber'
      have hword : (BigEndian.word part).toNat < 256 ^ width := hpart ▸ BigEndian.toNat_word_lt part
      -- each of the two finds the word that the other one left
      have hback := BigEndian.word_bytes (toNat_put_lt h hlt hword)
      have hback' := BigEndian.word_bytes (toNat_put_lt h' hlt' hword)
      have hrun : ∀ part : Bytes, part.length = width →
          (provider.rewrite leftover first).exec part =
            (.ok (), BigEndian.bytes width (provider.put (BigEndian.word part) number)) :=
        fun part => exec_rewrite_of_numberOf? h hnumber
      have hrun' : ∀ part : Bytes, part.length = width →
          (other.rewrite leftover second).exec part =
            (.ok (), BigEndian.bytes width (other.put (BigEndian.word part) number')) :=
        fun part => exec_rewrite_of_numberOf? h' hnumber'
      have hlength := BigEndian.length_bytes width
      refine ⟨?_, ?_, ?_⟩
      · rw [hrun' part hpart, hrun _ (hlength _), hrun part hpart]
      · rw [hrun part hpart, hrun' _ (hlength _), hrun' part hpart]
      · rw [hrun part hpart, hrun' _ (hlength _), hrun' part hpart, hrun _ (hlength _), hback,
          hback', put_comm h h' hslot hslot' hapart hlt hlt']

end Provider

/-! ## Fields with a fixed range -/

/-- A leaf of a plan that may be written, with an offset and a size that do not depend on the
buffer. -/
structure Plan.Steady (plan : Plan) (field : PlannedField) (leaf : Leaf) : Prop where
  mem : field ∈ plan.fields
  leaf? : field.leaf? = some leaf
  writable : leaf.writable = true
  offset : field.offset.isStatic = true
  size : field.size.isDynamic = false

/-- A leaf of a plan that may be written, and its range in every buffer that is viewed. -/
structure FixedAt (plan : Plan) (field : PlannedField) (leaf : Leaf) (span : Span) : Prop where
  mem : field ∈ plan.fields
  leaf? : field.leaf? = some leaf
  writable : leaf.writable = true
  locate : ∀ data : Bytes, plan.minimumSize ≤ data.length →
    View.locate ⟨plan, data⟩ field = .ok span

namespace FixedAt

variable {policy : MismatchPolicy} {schema : Schema} {plan : Plan} {data : Bytes}
  {field : PlannedField} {leaf : Leaf} {span : Span} {leftover : Leftover} {edit : Edit}

theorem of_steady (h : Resolved policy schema plan) (hsteady : plan.Steady field leaf) :
    ∃ span, FixedAt plan field leaf span := by
  have hstart : field.offset = .literal field.offset.constant :=
    Expr.static?_eq_some_iff.1 (if_pos hsteady.offset)
  obtain ⟨count, hexpr, hle⟩ := h.stop_le_minimumSize hsteady.mem hstart hsteady.size
  exact ⟨_, hsteady.mem, hsteady.leaf?, hsteady.writable, fun data hdata =>
    View.locate_of_literal hstart hexpr (Nat.le_trans hle hdata)⟩

/-- Bytes are copied through a codec, or refused where there is none. -/
theorem exec_performBytes (hat : FixedAt plan field leaf span) (h : Resolved policy schema plan)
    (hdata : plan.minimumSize ≤ data.length) (value : Bytes) :
    (plan.performBytes leftover field.name value).exec data =
      InPlace.exec (match leaf.provider with
        | .composite type => InPlace.within span (type.store leftover field.name value)
        | _ => throw (.error (.typeMismatch field.name))) data := by
  have haim : (plan.aim field.name).exec data = (.ok (leaf.provider, span), data) := by
    rw [Plan.aim, InPlace.exec_ask,
      View.target_eq (h.field?_of_mem hat.mem) hat.leaf? hat.writable (hat.locate data hdata)]
    rfl
  exact InPlace.exec_bind_of_ok haim

/-- A number is rewritten in its word. -/
theorem exec_performHere_of_wordWidth? (hat : FixedAt plan field leaf span)
    (h : Resolved policy schema plan) {width : Nat} (hwidth : leaf.provider.wordWidth? = some width)
    (hedit : edit.field = field.name) (hdata : plan.minimumSize ≤ data.length) :
    (plan.performHere leftover edit).exec data =
      (InPlace.within span (leaf.provider.rewrite leftover edit)).exec data := by
  have hlocate := hat.locate data hdata
  have hnumber : NumberAt plan data field leaf span width :=
    ⟨hat.mem, hat.leaf?, hat.writable, hwidth, hlocate⟩
  have hrun : (plan.performHere leftover edit).exec data =
      InPlace.ending data (View.outcome ⟨plan, data⟩ span width leaf.provider edit) := by
    cases edit with
    | unsigned name value => cases hedit; exact hnumber.exec_performUnsigned h value
    | signed name value => cases hedit; exact hnumber.exec_performSigned h value
    | variant name variant => cases hedit; exact hnumber.exec_performVariant h variant
    | bytes name value =>
      cases hedit
      refine (hat.exec_performBytes h hdata value).trans ?_
      cases hprovider : leaf.provider with
      | scalar | enumeration | bitField => rfl
      | composite | rawSlice => rw [hprovider] at hwidth; cases hwidth
  obtain ⟨hordered, hinside⟩ := View.ordered_of_locate hlocate
  obtain ⟨-, hstop⟩ := h.reaches_of_locate hat.mem hat.leaf? hwidth hlocate
  obtain ⟨part, hslice⟩ : ∃ part, data.slice span.start span.stop = .ok part :=
    ⟨_, Bytes.slice_eq_ok hordered hinside⟩
  have hword : span.stop - span.start = width := by omega
  have hlength : part.length = width := (Bytes.length_of_slice hslice).trans hword
  obtain ⟨-, -, hpart⟩ := Bytes.slice_eq_ok_iff.1 hslice
  rw [hword] at hpart
  rw [hrun, InPlace.exec_within_of_slice hslice, Provider.exec_rewrite_of_wordWidth? hwidth,
    View.outcome, Provider.renumber, hlength]
  cases leaf.provider.numberOf? edit with
  | none => exact congrArg (Prod.mk _) (Bytes.overwrite_slice hslice).symm
  | some number =>
    have hstored : View.stored ⟨plan, data⟩ span width leaf.provider number =
        data.overwrite span.start
          (BigEndian.bytes width (leaf.provider.put (BigEndian.word part) number)) := by
      rw [hpart]
      rfl
    exact congrArg (Prod.mk _) hstored

/-- Where there is no number, bytes are copied, or nothing happens. -/
theorem exec_performHere_of_wordless (hat : FixedAt plan field leaf span)
    (h : Resolved policy schema plan) (hwidth : leaf.provider.wordWidth? = none)
    (hedit : edit.field = field.name) (hdata : plan.minimumSize ≤ data.length) :
    (plan.performHere leftover edit).exec data =
      (InPlace.within span (leaf.provider.rewrite leftover edit)).exec data := by
  have hlocate := hat.locate data hdata
  have htarget := View.target_eq (h.field?_of_mem hat.mem) hat.leaf? hat.writable hlocate
  obtain ⟨hordered, hinside⟩ := View.ordered_of_locate hlocate
  have hslice := Bytes.slice_eq_ok hordered hinside
  -- what asks for a number leaves the bytes as they are
  have hmisfit : (InPlace.within span (throw (.error edit.misfit))).exec data =
      InPlace.ending data (.error (.error edit.misfit)) := by
    rw [InPlace.exec_within_of_slice hslice]
    exact congrArg (Prod.mk _) (Bytes.overwrite_slice hslice)
  have hrefused (hother : ∀ name value, edit ≠ .bytes name value) :
      InPlace.ending data (.error (.error edit.misfit)) =
        (InPlace.within span (leaf.provider.rewrite leftover edit)).exec data := by
    rw [Provider.rewrite_of_wordless hwidth hother, hmisfit]
  cases edit with
  | unsigned name value =>
    cases hedit
    refine Eq.trans ?_ (hrefused fun _ _ => nofun)
    exact View.setUnsigned_of_wordless htarget hwidth value ▸
      (Lands.performUnsigned plan field.name value).eq_ending
  | signed name value =>
    cases hedit
    refine Eq.trans ?_ (hrefused fun _ _ => nofun)
    exact View.setSigned_of_wordless htarget hwidth value ▸
      (Lands.performSigned plan field.name value).eq_ending
  | variant name variant =>
    cases hedit
    refine Eq.trans ?_ (hrefused fun _ _ => nofun)
    exact View.setVariant_of_wordless htarget hwidth variant ▸
      (Lands.performVariant plan field.name variant).eq_ending
  | bytes name value =>
    cases hedit
    refine (hat.exec_performBytes h hdata value).trans ?_
    cases hprovider : leaf.provider with
    | composite type => rfl
    | rawSlice => exact hmisfit.symm
    | scalar | enumeration | bitField => rw [hprovider] at hwidth; cases hwidth

/-- An edit rewrites the bytes of its field and does nothing else. -/
theorem exec_performHere (hat : FixedAt plan field leaf span) (h : Resolved policy schema plan)
    (hedit : edit.field = field.name) (hdata : plan.minimumSize ≤ data.length) :
    (plan.performHere leftover edit).exec data =
      (InPlace.within span (leaf.provider.rewrite leftover edit)).exec data := by
  cases hwidth : leaf.provider.wordWidth? with
  | none => exact hat.exec_performHere_of_wordless h hwidth hedit hdata
  | some width => exact hat.exec_performHere_of_wordWidth? h hwidth hedit hdata

/-! ## Two fields -/

variable {other : PlannedField} {leaf' : Leaf} {span' : Span} {first second : Edit}

/-- Edits can be performed in either order if their fields can be rewritten in either order. -/
theorem commuteOn_of_within (hat : FixedAt plan field leaf span) (h : Resolved policy schema plan)
    (hat' : FixedAt plan other leaf' span') (hdata : plan.minimumSize ≤ data.length)
    (hleftover : leftover.KeepsLength) (hfirst : first.field = field.name)
    (hsecond : second.field = other.name)
    (hcommute : InPlace.CommuteOn (InPlace.within span (leaf.provider.rewrite leftover first))
      (InPlace.within span' (leaf'.provider.rewrite leftover second)) data) :
    InPlace.CommuteOn (plan.performHere leftover first) (plan.performHere leftover second)
      data :=
  hcommute.congr ((Provider.keepsLength_rewrite hleftover).within span)
    ((Provider.keepsLength_rewrite hleftover).within span')
    (fun _ hafter => hat.exec_performHere h hfirst (hafter ▸ hdata))
    (fun _ hafter => hat'.exec_performHere h hsecond (hafter ▸ hdata))

/-- Bit-fields of one unit can be rewritten in either order. -/
theorem commuteOn_within_unit (hat : FixedAt plan field leaf span)
    (h : Resolved policy schema plan) (hat' : FixedAt plan other leaf' span') (hne : field ≠ other)
    (hdata : plan.minimumSize ≤ data.length) (hleftover : leftover.KeepsLength)
    {slot slot' : BitSlot} (hslot : field.slot? = some slot) (hslot' : other.slot? = some slot')
    (hgroup : slot'.group = slot.group) :
    InPlace.CommuteOn (InPlace.within span (leaf.provider.rewrite leftover first))
      (InPlace.within span' (leaf'.provider.rewrite leftover second)) data := by
  have hprovider : leaf.provider.slot? = some slot := by
    rwa [PlannedField.slot?, hat.leaf?] at hslot
  have hprovider' : leaf'.provider.slot? = some slot' := by
    rwa [PlannedField.slot?, hat'.leaf?] at hslot'
  have hlocate := hat.locate data hdata
  obtain ⟨hreaches, hstop⟩ :=
    h.reaches_of_locate hat.mem hat.leaf? (Provider.wordWidth?_of_slot? hprovider) hlocate
  obtain ⟨start, stop⟩ := span
  obtain rfl : stop = start + slot.unit := hstop
  -- the unit of the one is the unit of the other
  have hunit : UnitAt plan data field slot start := ⟨hat.mem, hslot, hlocate⟩
  obtain ⟨hother, hwidth, hapart⟩ := hunit.sibling h hat'.mem hslot' hgroup
  obtain rfl := Except.ok.inj (hother.locate.symm.trans (hat'.locate data hdata))
  have hfits' := (hother.reaches h hat'.leaf? hprovider').fits
  rw [hwidth] at hfits' ⊢
  have hslice := Bytes.slice_eq_ok (Nat.le_add_right start slot.unit) hreaches.inside
  have hlength := (Bytes.length_of_slice hslice).trans (Nat.add_sub_cancel_left _ _)
  exact InPlace.commuteOn_within_same hslice (Provider.keepsLength_rewrite hleftover)
    (Provider.keepsLength_rewrite hleftover)
    (Provider.commuteOn_rewrite hreaches.fits hfits' hprovider hprovider'
      (hapart hne.symm).symm hlength)

end FixedAt

/-! ## Plans -/

/-- Two fields of a plan that may be written have ranges which do not depend on the buffer. If they
are bit-fields of one unit, or share no byte, an edit of the one and an edit of the other can be
performed in either order: each ends as it would alone, also if it fails, and they leave the same
buffer. -/
theorem Schema.edits_commute {schema : Schema} {policy : MismatchPolicy} {plan sub : Plan}
    {path : List (String × String)} (h : schema.resolve policy = .ok plan)
    (hsub : plan.at? path = some sub) {field other : PlannedField} {leaf leaf' : Leaf}
    (hsteady : sub.Steady field leaf) (hsteady' : sub.Steady other leaf') (hne : field ≠ other)
    {data : Bytes} {view : View} (hview : sub.view data = .ok view)
    (hapart : (∃ slot slot', field.slot? = some slot ∧ other.slot? = some slot' ∧
        slot'.group = slot.group) ∨
      ∀ span span', view.range field.name = .ok span → view.range other.name = .ok span' →
        span.Disjoint span')
    {leftover : Leftover} (hleftover : leftover.KeepsLength) {first second : Edit}
    (hfirst : first.field = field.name) (hsecond : second.field = other.name) :
    InPlace.CommuteOn (sub.performHere leftover first) (sub.performHere leftover second) data := by
  obtain ⟨part, -, hresolve⟩ := Schema.resolve_at? h hsub
  have hresolved := Schema.resolved hresolve
  obtain ⟨hdata, rfl⟩ := Plan.view_eq_ok_iff.1 hview
  obtain ⟨span, hat⟩ := FixedAt.of_steady hresolved hsteady
  obtain ⟨span', hat'⟩ := FixedAt.of_steady hresolved hsteady'
  refine hat.commuteOn_of_within hresolved hat' hdata hleftover hfirst hsecond ?_
  rcases hapart with ⟨slot, slot', hslot, hslot', hgroup⟩ | hdisjoint
  · exact hat.commuteOn_within_unit hresolved hat' hne hdata hleftover hslot hslot' hgroup
  · have hlocate := hat.locate data hdata
    have hlocate' := hat'.locate data hdata
    obtain ⟨hordered, hinside⟩ := View.ordered_of_locate hlocate
    obtain ⟨hordered', hinside'⟩ := View.ordered_of_locate hlocate'
    refine InPlace.commuteOn_within (Bytes.slice_eq_ok hordered hinside)
      (Bytes.slice_eq_ok hordered' hinside') (hdisjoint _ _ ?_ ?_)
      (Provider.keepsLength_rewrite hleftover) (Provider.keepsLength_rewrite hleftover)
    · rwa [View.range_eq (hresolved.field?_of_mem hat.mem)]
    · rwa [View.range_eq (hresolved.field?_of_mem hat'.mem)]

/-- Two bit-fields that share a byte, and a key of two bytes behind them. -/
def latchSchema : Schema where
  name := "Latch"
  fields :=
    [.plain { name := "mode", type := .integer .u8, bits := some 3 },
      .plain { name := "level", type := .integer .u8, bits := some 5 },
      .plain { name := "key", type := .composite ⟨"Key", .byteArray (some 2)⟩ }]

/-- What a codec leaves that clears the destination when it refuses a value. -/
def cleared : Leftover := fun _ _ destination => destination.map fun _ => 0

theorem latchSchema_edits_commute :
    ∃ plan, latchSchema.resolve .error = .ok plan ∧
      InPlace.CommuteOn (plan.performHere cleared (.unsigned "mode" 5))
        (plan.performHere cleared (.signed "level" 9)) [0xff, 1, 2] ∧
      InPlace.CommuteOn (plan.performHere cleared (.unsigned "mode" 5))
        (plan.performHere cleared (.bytes "key" [7])) [0xff, 1, 2] := by
  obtain ⟨plan, hplan⟩ : ∃ plan, latchSchema.resolve .error = .ok plan := ⟨_, rfl⟩
  have hself : plan.at? [] = some plan := rfl
  have hleftover : cleared.KeepsLength := fun _ _ _ _ => List.length_map _
  obtain ⟨view, hview⟩ : ∃ view, plan.view [0xff, 1, 2] = .ok view := by
    cases hplan
    exact ⟨_, rfl⟩
  obtain ⟨mode, level, key, leaf, leaf', leaf'', hmode, hlevel, hkey, hnames, hunit, hranges⟩ :
      ∃ mode level key leaf leaf' leaf'', plan.Steady mode leaf ∧ plan.Steady level leaf' ∧
        plan.Steady key leaf'' ∧
        [mode.name, level.name, key.name] = ["mode", "level", "key"] ∧
        (∃ slot slot', mode.slot? = some slot ∧ level.slot? = some slot' ∧
          slot'.group = slot.group) ∧
        view.range mode.name = .ok ⟨0, 1⟩ ∧ view.range key.name = .ok ⟨1, 3⟩ := by
    cases hplan
    cases hview
    exact ⟨_, _, _, _, _, _, ⟨.head _, rfl, rfl, rfl, rfl⟩, ⟨.tail _ (.head _), rfl, rfl, rfl, rfl⟩,
      ⟨.tail _ (.tail _ (.head _)), rfl, rfl, rfl, rfl⟩, rfl, ⟨_, _, rfl, rfl, rfl⟩, rfl, rfl⟩
  simp only [List.cons.injEq, and_true] at hnames
  obtain ⟨hname, hname', hname''⟩ := hnames
  have hdistinct : mode ≠ level ∧ mode ≠ key := by
    constructor <;> rintro rfl <;> simp_all
  have hdisjoint : ∀ span span', view.range mode.name = .ok span →
      view.range key.name = .ok span' → span.Disjoint span' := by
    intro span span' hspan hspan'
    obtain rfl := Except.ok.inj (hranges.1.symm.trans hspan)
    obtain rfl := Except.ok.inj (hranges.2.symm.trans hspan')
    rintro place ⟨-, hlt, hle, -⟩
    exact absurd hlt (Nat.not_lt.2 hle)
  exact ⟨plan, hplan,
    Schema.edits_commute hplan hself hmode hlevel hdistinct.1 hview (.inl hunit) hleftover
      hname.symm hname'.symm,
    Schema.edits_commute hplan hself hmode hkey hdistinct.2 hview (.inr hdisjoint) hleftover
      hname.symm hname''.symm⟩

end PacketLayout
