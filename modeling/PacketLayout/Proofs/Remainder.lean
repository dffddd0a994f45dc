import PacketLayout.Proofs.Acceptability
import PacketLayout.Proofs.Totals

/-!
# The rest of the buffer

A field that takes the rest of the buffer is found in every buffer that reaches its offset. The
minimum size of the plan is not made for that: it knows nothing of a field without a known size,
wherever it stands.

* `View.locate_of_remaining` is the range of such a field behind a known offset.
* `Arranged.start_le` and `implied_le_leastSize` say that the minimum size reaches an offset that
  the fields before imply.
* `Schema.rest_of_resolve` is the statement about plans.
-/

namespace PacketLayout

/-! ## Ranges -/

/-- Behind a known offset the rest of the buffer is what the buffer has there. -/
theorem View.locate_of_remaining {view : View} {field : PlannedField} {start : Nat}
    (hoffset : field.offset = .literal start)
    (hsize : field.sizeExpr = .ofTerm (.remaining field.offset))
    (hlength : view.data.length < wordLimit) :
    view.locate field =
      if start ≤ view.data.length then .ok ⟨start, view.data.length⟩
      else .error (.outOfBounds start start view.data.length) := by
  have hremaining : field.sizeExpr.eval view.data =
      if start ≤ view.data.length then .ok (view.data.length - start)
      else .error (.outOfBounds start start view.data.length) := by
    rw [hsize, Expr.eval_eq, Expr.terms_ofTerm, Expr.constant_ofTerm, Term.sumFrom, Term.eval,
      hoffset, Expr.eval_literal]
    by_cases hle : start ≤ view.data.length
    · simp only [if_pos hle, Term.sumFrom, Nat.zero_add]
      exact if_pos (Nat.lt_of_le_of_lt (Nat.sub_le _ _) hlength)
    · simp only [if_neg hle]
  rw [locate, hremaining, hoffset, Expr.eval_literal]
  by_cases hle : start ≤ view.data.length
  · have hstop : start + (view.data.length - start) = view.data.length :=
      Nat.add_sub_cancel' hle
    simp only [if_pos hle, bind, Except.bind, hstop, Nat.le_refl, if_true]
    rfl
  · simp only [if_neg hle, bind, Except.bind]

/-! ## Implied offsets -/

/-- A field at the offset that is implied for it starts below every bound of the known ends. -/
theorem Arranged.start_le {policy : MismatchPolicy} {readOnly : Bool} {next : Expr} {units : Nat}
    {pairs : List Pair} (h : Arranged policy next units pairs) {bound : Nat}
    (hrealizes : ∀ pair ∈ pairs, ∃ field, Realizes readOnly field pair.2)
    (hends : ∀ pair ∈ pairs, ∀ stop, pair.2.staticEnd? = some stop → stop ≤ bound)
    (hnext : ∀ start, next = .literal start → start ≤ bound) {pair : Pair} (hmem : pair ∈ pairs)
    (hsequential : pair.1.position = .sequential) {start : Nat}
    (hoffset : pair.2.offset = .literal start) : start ≤ bound := by
  induction h with
  | nil => cases hmem
  | @single next units decl isAnchor field rest _ _ _ _ offset_eq _ _ _ ih =>
    rcases List.mem_cons.1 hmem with rfl | hmem
    · rw [offset_eq, hsequential] at hoffset
      exact hnext start hoffset
    · refine ih (fun other hother => hrealizes other (List.mem_cons_of_mem _ hother))
        (fun other hother => hends other (List.mem_cons_of_mem _ hother)) ?_ hmem
      -- an offset that is known behind a field is the known end of this field
      intro stop hstop
      obtain ⟨origin, horigin⟩ := hrealizes _ List.mem_cons_self
      exact hends _ List.mem_cons_self stop (horigin.staticEnd?_eq_some_iff.2 hstop)
  | @unit next units used width decl field members rest _ _ packed _ _ ih =>
    -- every member ends where the unit does
    have hmember : ∀ other ∈ (decl, field) :: members, ∀ stop,
        field.offset.plusConstant width = .literal stop → stop ≤ bound := by
      intro other hother stop hstop
      obtain ⟨origin, horigin⟩ := hrealizes other (List.mem_append_left _ hother)
      obtain ⟨-, -, -, hsize⟩ := packed.exists_slot? hother
      rw [← Expr.plus_literal, ← hsize, ← packed.offset_eq other hother] at hstop
      exact hends other (List.mem_append_left _ hother) stop
        (horigin.staticEnd?_eq_some_iff.2 hstop)
    rcases List.mem_append.1 hmem with hmem | hmem
    · rw [packed.offset_eq pair hmem] at hoffset
      exact Nat.le_of_add_right_le (hmember pair hmem (start + width) (hoffset ▸ rfl))
    · exact ih (fun other hother => hrealizes other (List.mem_append_right _ hother))
        (fun other hother => hends other (List.mem_append_right _ hother))
        (hmember _ List.mem_cons_self) hmem

/-- Stretches of fields reach the offset behind them. -/
theorem foldl_stop?_eq_or_mem (next : Option Nat) (list : List Stretch) :
    list.foldl Stretch.stop? next = next ∨ list.foldl Stretch.stop? next ∈ stops next list := by
  induction list generalizing next with
  | nil => exact .inl rfl
  | cons stretch list ih =>
    rw [List.foldl_cons, stops]
    rcases ih (stretch.stop? next) with hstop | hmem
    · rw [hstop]
      exact .inr List.mem_cons_self
    · exact .inr (List.mem_cons_of_mem _ hmem)

/-- The offset that fields imply is below the length that they need. -/
theorem implied_le_leastSize {fields : List Sized} {start : Nat}
    (h : implied? fields = some start) : start ≤ leastSize fields := by
  refine Nat.le_trans ?_ (Nat.le_max_right _ _)
  rcases foldl_stop?_eq_or_mem (some 0) (stretches fields) with hzero | hmem
  · have hstart : start = 0 := Option.some.inj (h.symm.trans hzero)
    rw [hstart]
    exact Nat.zero_le _
  · rw [← implied?, h] at hmem
    exact (le_foldl_max _ 0).2 start (List.mem_filterMap.2 ⟨_, hmem, rfl⟩)

theorem stops_append (next : Option Nat) (list more : List Stretch) :
    stops next (list ++ more) =
      stops next list ++ stops (list.foldl Stretch.stop? next) more := by
  induction list generalizing next with
  | nil => rfl
  | cons stretch list ih => rw [List.cons_append, stops, stops, ih, List.foldl_cons,
      List.cons_append]

/-- A field that is not a bit-field is a stretch of its own behind those of other fields. -/
theorem stretches_concat {last : Sized} (h : last.bitWidth? = none) (fields : List Sized) :
    stretches (fields ++ [last]) = stretches fields ++ [⟨last, []⟩] := by
  have hfrom : ∀ (stretch : Stretch) (fields : List Sized),
      stretchesFrom stretch (fields ++ [last]) = stretchesFrom stretch fields ++ [⟨last, []⟩] := by
    intro stretch fields
    induction fields generalizing stretch with
    | nil =>
      have htakes : stretch.takes last = false := by
        rw [Stretch.takes, Sized.continues, h]
        simp
      simp [stretchesFrom, htakes]
    | cons field fields ih =>
      rw [List.cons_append, stretchesFrom, stretchesFrom]
      split
      · exact ih _
      · rw [ih, List.cons_append]
  cases fields with
  | nil => rfl
  | cons field fields => exact hfrom ⟨field, []⟩ fields

theorem leastSize_concat_le {last : Sized} (h : last.bitWidth? = none) (fields : List Sized) :
    leastSize fields ≤ leastSize (fields ++ [last]) := by
  rw [leastSize, leastSize, stretches_concat h, List.map_append, List.sum_append, stops_append,
    List.filterMap_append, List.foldl_append]
  exact max_le_max (Nat.le_add_right _ _) (le_foldl_max _ _).1

theorem Field.bitWidth?_sized {field : Field} (h : field.decl.bits = none) :
    field.sized.bitWidth? = none := by
  rw [Sized.bitWidth?, Field.sized]
  cases hsize : Size.resolve field.decl field.alternates?.isSome with
  | error defect => rfl
  | ok size => exact (Size.source_of_resolve hsize).bitWidth?.trans h

/-! ## Plans -/

namespace Resolved

variable {policy : MismatchPolicy} {schema : Schema} {plan : Plan} {planned : PlannedField}
  {start : Nat}

/-- A field without an explicit position starts below the minimum size, if its offset is known. -/
theorem start_le_of_sequential (h : Resolved policy schema plan) (hmem : planned ∈ plan.fields)
    (hposition : planned.layout.position = .sequential)
    (hoffset : planned.offset = .literal start) : start ≤ plan.minimumSize := by
  have hrealizes : ∀ pair ∈ schema.pairs plan, ∃ field, Realizes schema.readOnly field pair.2 :=
    fun pair hpair => h.realizes_of_mem (h.mem_of_pair hpair)
  obtain ⟨pair, hpair, rfl⟩ := h.exists_pair hmem
  refine h.arranged.start_le hrealizes
    (fun other hother stop hstop => h.staticEnd_le (h.mem_of_pair hother) hstop) ?_ hpair
    ((h.position_of_pair hpair).trans hposition) hoffset
  intro first hzero
  rw [← Expr.literal_inj hzero]
  exact Nat.zero_le _

/-- The declaration of a field that takes the rest of the buffer stands behind all others. -/
theorem exists_last (h : Resolved policy schema plan) (hlast : plan.fields.getLast? = some planned)
    (hrest : planned.size.isRemainder = true) :
    ∃ last, schema.fields = schema.fields.dropLast ++ [last] ∧ last.sized.bitWidth? = none := by
  rw [← h.map_snd_pairs, List.getLast?_map] at hlast
  obtain ⟨pair, hpair, rfl⟩ := Option.map_eq_some_iff.1 hlast
  have hdecl : (schema.fields.map (·.decl)).getLast? = some pair.1 := by
    rw [← h.map_fst_pairs, List.getLast?_map, hpair]
    rfl
  rw [List.getLast?_map] at hdecl
  obtain ⟨last, hfield, hdecl⟩ := Option.map_eq_some_iff.1 hdecl
  refine ⟨last, (List.dropLast_append_getLast? last hfield).symm, Field.bitWidth?_sized ?_⟩
  obtain ⟨field, horigin, hrealizes⟩ := h.realizes_of_pair (List.mem_of_getLast? hpair)
  rw [hdecl, ← horigin, ← (Size.source_of_resolve hrealizes.size).bitWidth?]
  cases hsize : pair.2.size with
  | remainder => rfl
  | constant | intrinsic | external | computed | bitWidth =>
    rw [hsize] at hrest
    cases hrest

/-- Behind a known offset a field that takes the rest of the buffer is found in every buffer that
reaches the offset. -/
theorem range_of_remainder (h : Resolved policy schema plan) (hmem : planned ∈ plan.fields)
    (hrest : planned.size.isRemainder = true) (hoffset : planned.offset = .literal start)
    {data : Bytes} (hlength : data.length < wordLimit) :
    View.range ⟨plan, data⟩ planned.name =
      if start ≤ data.length then .ok ⟨start, data.length⟩
      else .error (.outOfBounds start start data.length) := by
  rw [View.range_eq (h.field?_of_mem hmem)]
  exact View.locate_of_remaining hoffset (h.sizeExpr_of_isRemainder hmem hrest) hlength

end Resolved

/-- What a plan says about the rest of the buffer behind a known offset, given the fields before. -/
structure Plan.ReachesRest (plan : Plan) (before : List Sized) (rest : PlannedField) (start : Nat) :
    Prop where
  range : ∀ data : Bytes, data.length < wordLimit →
    View.range ⟨plan, data⟩ rest.name =
      if start ≤ data.length then .ok ⟨start, data.length⟩
      else .error (.outOfBounds start start data.length)
  /-- the check of the length is enough just for an offset below the minimum size -/
  viewed : start ≤ plan.minimumSize ↔
    ∀ data view, data.length < wordLimit → plan.view data = .ok view →
      view.range rest.name = .ok ⟨start, data.length⟩
  /-- an offset that the fields before imply is one, whether it is written down or not -/
  implied : rest.layout.position = .sequential ∨ implied? before = some start →
    start ≤ plan.minimumSize

/-- For every plan that a schema resolves to, and below its anchors: the rest of the buffer behind a
known offset is found in just the buffers that reach the offset. Every buffer that is viewed does so
if the fields before imply the offset; otherwise it may lie behind the minimum size. -/
theorem Schema.rest_of_resolve {schema : Schema} {policy : MismatchPolicy} {plan sub : Plan}
    {path : List (String × String)} {rest : PlannedField} {start : Nat}
    (h : schema.resolve policy = .ok plan) (hsub : plan.at? path = some sub)
    (hlast : sub.fields.getLast? = some rest) (hrest : rest.size.isRemainder = true)
    (hoffset : rest.offset.static? = some start) :
    ∃ part, schema.at? path = some part ∧
      sub.ReachesRest (part.fields.dropLast.map (·.sized)) rest start := by
  obtain ⟨part, hpart, hresolve⟩ := Schema.resolve_at? h hsub
  have hresolved := Schema.resolved hresolve
  have hmem := List.mem_of_getLast? hlast
  have hstart := Expr.static?_eq_some_iff.1 hoffset
  have hrange := fun (data : Bytes) (hlength : data.length < wordLimit) =>
    hresolved.range_of_remainder hmem hrest hstart hlength
  refine ⟨part, hpart, hrange, ⟨fun hle data view hlength hview => ?_, fun hviews => ?_⟩, ?_⟩
  · obtain ⟨hsize, rfl⟩ := Plan.view_eq_ok_iff.1 hview
    rw [hrange data hlength, if_pos (Nat.le_trans hle hsize)]
  · -- a buffer of exactly the minimum size is viewed
    have hlength : (List.replicate sub.minimumSize (0 : UInt8)).length = sub.minimumSize :=
      List.length_replicate
    have hlt := hresolved.minimumSize_lt
    have hfound := hviews (List.replicate sub.minimumSize 0) _ (hlength.symm ▸ hlt)
      (Plan.view_eq_ok_iff.2 ⟨Nat.le_of_eq hlength.symm, rfl⟩)
    rw [hrange _ (hlength.symm ▸ hlt), hlength] at hfound
    split at hfound
    · assumption
    · cases hfound
  · rintro (hposition | himplied)
    · exact hresolved.start_le_of_sequential hmem hposition hstart
    · obtain ⟨last, hfields, hbits⟩ := hresolved.exists_last hlast hrest
      have hleast : sub.minimumSize = Field.leastSize part.fields :=
        (part.judged policy).least sub (Schema.resolve_eq_ok_iff.1 hresolve).2
      rw [hleast, Field.leastSize, hfields, List.map_append]
      exact Nat.le_trans (implied_le_leastSize himplied) (leastSize_concat_le hbits _)

/-- A number and the text behind it. -/
def noteSchema : Schema where
  name := "Note"
  fields :=
    [.plain { name := "count", type := .integer .u8 },
      .plain { name := "text", type := .bytes }]

theorem noteSchema_rest :
    ∃ plan text, noteSchema.resolve .error = .ok plan ∧ plan.fields.getLast? = some text ∧
      text.size.isRemainder = true ∧ text.offset.static? = some 1 ∧
      text.layout.position = .sequential ∧ 1 ≤ plan.minimumSize ∧
      (∀ data view, data.length < wordLimit → plan.view data = .ok view →
        view.range text.name = .ok ⟨1, data.length⟩) ∧
      View.range ⟨plan, []⟩ text.name = .error (.outOfBounds 1 1 0) := by
  obtain ⟨plan, hplan⟩ : ∃ plan, noteSchema.resolve .error = .ok plan := ⟨_, rfl⟩
  obtain ⟨text, hlast, hrest, hoffset, hposition⟩ : ∃ text, plan.fields.getLast? = some text ∧
      text.size.isRemainder = true ∧ text.offset.static? = some 1 ∧
      text.layout.position = .sequential := by
    cases hplan
    exact ⟨_, rfl, rfl, rfl, rfl⟩
  have hself : plan.at? [] = some plan := rfl
  obtain ⟨part, -, hreaches⟩ := Schema.rest_of_resolve hplan hself hlast hrest hoffset
  have hle := hreaches.implied (.inl hposition)
  exact ⟨plan, text, hplan, hlast, hrest, hoffset, hposition, hle, hreaches.viewed.1 hle,
    hreaches.range [] (by decide)⟩

/-- A number, as many options as it says, and the rest behind a header of fixed length. -/
def optionSchema : Schema where
  name := "Option"
  fields :=
    [.plain { name := "count", type := .integer .u8 },
      .plain { name := "options", type := .bytes
               sizeFunction := some ⟨"first", fun data => (data.headD 0).toNat⟩ },
      .plain { name := "rest", type := .bytes, position := .literal 8 }]

/-- The minimum size does not reach the rest of the buffer: one byte is enough for a view in which
the rest is out of bounds. -/
theorem optionSchema_unreached :
    ∃ plan rest view, optionSchema.resolve .error = .ok plan ∧
      plan.fields.getLast? = some rest ∧ rest.size.isRemainder = true ∧
      rest.offset.static? = some 8 ∧ plan.minimumSize = 1 ∧ plan.view [0] = .ok view ∧
      view.range rest.name = .error (.outOfBounds 8 8 1) := by
  obtain ⟨plan, hplan⟩ : ∃ plan, optionSchema.resolve .error = .ok plan := ⟨_, rfl⟩
  cases hplan
  exact ⟨_, _, _, rfl, rfl, rfl, rfl, rfl, rfl, rfl⟩

end PacketLayout
