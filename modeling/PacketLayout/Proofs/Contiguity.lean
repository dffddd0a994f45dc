import Mathlib.Data.List.Chain
import PacketLayout.Proofs.Ranges
import PacketLayout.Proofs.Tiling

/-!
# Contiguity in a buffer

A list without gaps has none in any buffer either: once every field is found, each starts where its
predecessor ends, and the total size is where the last one ends.

* `Tiled.isChain_and_eval_stop` follows a list through a buffer.
* `Schema.contiguous_of_resolve` is the statement about schemas.
-/

namespace PacketLayout

/-! ## Lists in a buffer -/

/-- Two fields are bit-fields of one unit. -/
def SharesUnit (a b : PlannedField) : Prop :=
  ∃ slot slot', a.slot? = some slot ∧ b.slot? = some slot' ∧ slot.group = slot'.group

/-- All members of a unit are found at one place. -/
theorem Packed.span_eq {group width used widest used' widest' start : Nat} {offset : Expr}
    {members : List Pair} {view : View}
    (h : Packed group offset width used widest members used' widest')
    (hoffset : offset.eval view.data = .ok start) {pair : Pair} (hmem : pair ∈ members)
    {span : Span} (hspan : view.locate pair.2 = .ok span) : span = ⟨start, start + width⟩ := by
  obtain ⟨length, hat⟩ := View.exists_locatedAt hspan
  obtain ⟨-, -, -, hsize⟩ := h.exists_slot? hmem
  have hstart := hat.offset
  have hlength := hat.size
  have hstop := hat.stop
  rw [h.offset_eq pair hmem, hoffset] at hstart
  rw [hsize, Expr.eval_literal] at hlength
  obtain rfl := Except.ok.inj hstart
  obtain rfl := Except.ok.inj hlength
  rw [← hstop]

/-- Neighbours inside a unit share it. -/
theorem Packed.isChain_sharesUnit {group width used widest used' widest' : Nat} {offset : Expr}
    {members : List Pair} (h : Packed group offset width used widest members used' widest') :
    members.IsChain fun a b => SharesUnit a.2 b.2 := by
  have hall : members.Pairwise fun _ _ => True := List.pairwise_of_forall fun _ _ => trivial
  refine (hall.imp_of_mem fun {a b} ha hb _ => ?_).isChain
  obtain ⟨slot, hslot, hgroup, -⟩ := h.exists_slot? ha
  obtain ⟨slot', hslot', hgroup', -⟩ := h.exists_slot? hb
  exact ⟨slot, slot', hslot, hslot', hgroup.trans hgroup'.symm⟩

namespace Tiled

variable {next stop : Expr} {units start : Nat} {pairs : List Pair} {view : View}
  {span : PlannedField → Span}

/-- The first field is where the list starts. -/
theorem start_head? (h : Tiled next units pairs stop) (hnext : next.eval view.data = .ok start)
    (hspan : ∀ pair ∈ pairs, view.locate pair.2 = .ok (span pair.2)) :
    ∀ pair ∈ pairs.head?, (span pair.2).start = start := by
  intro pair hhead
  cases h with
  | nil => cases hhead
  | single _ offset_eq =>
    obtain rfl := Option.some.inj hhead
    obtain ⟨length, hat⟩ := View.exists_locatedAt (hspan _ List.mem_cons_self)
    have hstart := hat.offset
    rw [offset_eq, hnext] at hstart
    exact (Except.ok.inj hstart).symm
  | unit packed =>
    obtain rfl := Option.some.inj hhead
    rw [packed.span_eq hnext List.mem_cons_self (hspan _ List.mem_cons_self)]

/-- Each field that does not share the unit of its predecessor starts where that ends, and the list
stops where its last field ends. -/
theorem isChain_and_eval_stop (h : Tiled next units pairs stop)
    (hnext : next.eval view.data = .ok start) (hlength : view.data.length < wordLimit)
    (hspan : ∀ pair ∈ pairs, view.locate pair.2 = .ok (span pair.2)) :
    pairs.IsChain (fun a b => ¬ SharesUnit a.2 b.2 → (span b.2).start = (span a.2).stop) ∧
      stop.eval view.data =
        .ok ((pairs.getLast?.map fun pair => (span pair.2).stop).getD start) := by
  induction h generalizing start with
  | nil => exact ⟨.nil, hnext⟩
  | @single next stop units decl field rest _ offset_eq _ more ih =>
    have hrest : ∀ pair ∈ rest, view.locate pair.2 = .ok (span pair.2) := fun pair hmem =>
      hspan pair (List.mem_cons_of_mem _ hmem)
    obtain ⟨length, hat⟩ := View.exists_locatedAt (hspan _ List.mem_cons_self)
    have hstart := hat.offset
    rw [offset_eq, hnext] at hstart
    obtain rfl := Except.ok.inj hstart
    have hinside := hat.inside
    -- the end of the field lies in the buffer, so the sum stays in range
    have hafter : (next.plus field.sizeExpr).eval view.data = .ok (span field).stop := by
      rw [hat.stop]
      refine Expr.eval_plus hnext hat.size ?_
      have := hat.stop
      omega
    obtain ⟨hchain, hstop⟩ := ih hafter hrest
    refine ⟨List.isChain_cons.2 ⟨fun pair hhead _ => more.start_head? hafter hrest pair hhead,
      hchain⟩, ?_⟩
    rw [hstop]
    cases rest with
    | nil => rfl
    | cons pair rest =>
      rw [List.getLast?_cons_cons, List.getLast?_cons]
      rfl
  | @unit next stop units used width first members rest packed _ more ih =>
    have hmembers : ∀ pair ∈ first :: members, span pair.2 = ⟨start, start + width⟩ := by
      intro pair hmem
      exact packed.span_eq hnext hmem (hspan pair (List.mem_append_left _ hmem))
    have hrest : ∀ pair ∈ rest, view.locate pair.2 = .ok (span pair.2) := fun pair hmem =>
      hspan pair (List.mem_append_right _ hmem)
    have hafter : (next.plusConstant width).eval view.data = .ok (start + width) := by
      obtain ⟨length, hat⟩ := View.exists_locatedAt (hspan first List.mem_cons_self)
      have hinside := hat.inside
      rw [hmembers first List.mem_cons_self] at hinside
      exact Expr.eval_plusConstant hnext (Nat.lt_of_le_of_lt hinside hlength)
    obtain ⟨hchain, hstop⟩ := ih hafter hrest
    constructor
    · -- inside the unit nothing is claimed, and behind it the next field starts at its end
      refine List.isChain_append.2 ⟨?_, hchain, fun a ha b hb _ => ?_⟩
      · exact packed.isChain_sharesUnit.imp fun _ _ hshares hne => absurd hshares hne
      · rw [more.start_head? hafter hrest b hb, hmembers a (List.mem_of_getLast? ha)]
    · rw [hstop, List.getLast?_append]
      cases hlast : rest.getLast? with
      | some pair => rfl
      | none =>
        have hne : first :: members ≠ [] := List.cons_ne_nil _ _
        rw [Option.none_or, List.getLast?_eq_some_getLast hne, Option.map_some, Option.getD_some,
          hmembers _ (List.getLast_mem hne)]
        rfl

/-- Bit-fields of one unit are found at one place. -/
theorem span_eq_of_sharesUnit (h : Tiled next units pairs stop)
    (hspan : ∀ pair ∈ pairs, view.locate pair.2 = .ok (span pair.2)) {a b : Pair} (ha : a ∈ pairs)
    (hb : b ∈ pairs) (hshares : SharesUnit a.2 b.2) : span a.2 = span b.2 := by
  obtain ⟨slot, slot', hslot, hslot', hgroup⟩ := hshares
  induction h with
  | nil => cases ha
  | single slot_eq _ _ _ ih =>
    rcases List.mem_cons.1 ha with rfl | ha
    · rw [slot_eq] at hslot
      cases hslot
    · rcases List.mem_cons.1 hb with rfl | hb
      · rw [slot_eq] at hslot'
        cases hslot'
      · exact ih (fun pair hmem => hspan pair (List.mem_cons_of_mem _ hmem)) ha hb
  | unit packed _ more ih =>
    -- two members, two fields behind the unit, or one of each, whose groups differ
    rcases List.mem_append.1 ha with ha | ha <;> rcases List.mem_append.1 hb with hb | hb
    · obtain ⟨-, -, -, hsize⟩ := packed.exists_slot? ha
      obtain ⟨-, -, -, hsize'⟩ := packed.exists_slot? hb
      have hlocate := hspan a (List.mem_append_left _ ha)
      rw [View.locate, packed.offset_eq a ha, hsize, ← hsize', ← packed.offset_eq b hb] at hlocate
      exact Except.ok.inj (hlocate.symm.trans (hspan b (List.mem_append_left _ hb)))
    · have hfirst := packed.group_eq ha hslot
      have hsecond := more.units_le_group hb hslot'
      omega
    · have hfirst := more.units_le_group ha hslot
      have hsecond := packed.group_eq hb hslot'
      omega
    · exact ih (fun pair hmem => hspan pair (List.mem_append_right _ hmem)) ha hb

end Tiled

/-! ## Schemas -/

/-- The fields of a view cover the start of its buffer without gaps. -/
structure Contiguous (view : View) (span : PlannedField → Span) : Prop where
  first : ∀ field, view.plan.fields.head? = some field → (span field).start = 0
  shared : ∀ a ∈ view.plan.fields, ∀ b ∈ view.plan.fields, SharesUnit a b → span a = span b
  next : view.plan.fields.IsChain fun a b => ¬ SharesUnit a b → (span b).start = (span a).stop
  total : view.totalSize =
    .ok ((view.plan.fields.getLast?.map fun field => (span field).stop).getD 0)
  rest : ∀ field, view.plan.fields.getLast? = some field → field.size.isRemainder = true →
    view.totalSize = .ok view.data.length

/-- Where a schema has no computed position, no explicit position behind a size function, and no
mismatch, its fields are contiguous in every buffer in which all of them are found. A buffer is
shorter than the number of addresses. -/
theorem Schema.contiguous_of_resolve {schema : Schema} {plan : Plan} {data : Bytes}
    {span : PlannedField → Span} (h : schema.resolve .error = .ok plan)
    (hcomputed : ∀ field ∈ schema.fields, field.decl.position.isComputed = false)
    (hliteral : schema.fields.Pairwise fun a b =>
      a.decl.sizeFunction.isSome = true → b.decl.position.isLiteral = false)
    (hlength : data.length < wordLimit)
    (hspan : ∀ field ∈ plan.fields, View.range ⟨plan, data⟩ field.name = .ok (span field)) :
    Contiguous ⟨plan, data⟩ span := by
  have hresolved := Schema.resolved h
  obtain ⟨stop, htiled⟩ := hresolved.exists_tiled hcomputed (hresolved.pairwise_pairs hliteral)
  have hfields := hresolved.map_snd_pairs
  have hlocate : ∀ field ∈ plan.fields, View.locate ⟨plan, data⟩ field = .ok (span field) := by
    intro field hmem
    have hrange := hspan field hmem
    simp only [View.range, View.lookup, hresolved.field?_of_mem hmem] at hrange
    exact hrange
  have hpairs : ∀ pair ∈ schema.pairs plan,
      View.locate ⟨plan, data⟩ pair.2 = .ok (span pair.2) := by
    intro pair hmem
    exact hlocate pair.2 (hfields ▸ List.mem_map_of_mem hmem)
  have hzero : Expr.zero.eval (View.data ⟨plan, data⟩) = .ok 0 := Expr.eval_literal data 0
  obtain ⟨hchain, hstop⟩ := htiled.isChain_and_eval_stop hzero hlength hpairs
  have htotal : View.totalSize ⟨plan, data⟩ =
      .ok ((plan.fields.getLast?.map fun field => (span field).stop).getD 0) := by
    rw [View.totalSize, hresolved.totalSize_eq, ← hfields, htiled.totalSize_eq, List.getLast?_map,
      Option.map_map]
    exact hstop
  refine ⟨fun field hhead => ?_, fun a ha b hb hshares => ?_, ?_, htotal,
    fun field hlast hrest => ?_⟩
  · rw [← hfields, List.head?_map] at hhead
    obtain ⟨pair, hpair, rfl⟩ := Option.map_eq_some_iff.1 hhead
    exact htiled.start_head? hzero hpairs pair hpair
  · obtain ⟨pair, hpair, rfl⟩ := hresolved.exists_pair ha
    obtain ⟨pair', hpair', rfl⟩ := hresolved.exists_pair hb
    exact htiled.span_eq_of_sharesUnit hpairs hpair hpair' hshares
  · rw [← hfields]
    exact (List.isChain_map _).2 hchain
  · rw [htotal, hlast]
    have hmem := List.mem_of_getLast? hlast
    exact congrArg Except.ok (View.stop_of_remaining (hlocate field hmem)
      (hresolved.sizeExpr_of_isRemainder hmem hrest))

/-- A length, two bit-fields of one unit, as many bytes as the length says, and the rest. -/
def tailSchema : Schema where
  name := "Tail"
  fields :=
    [.plain { name := "length", type := .integer .u8 },
      .plain { name := "high", type := .integer .u8, bits := some 4, position := .literal 1 },
      .plain { name := "low", type := .integer .u8, bits := some 4 },
      .plain { name := "body", type := .bytes
               sizeFunction := some ⟨"first", fun data => (data.headD 0).toNat⟩ },
      .plain { name := "rest", type := .bytes, remainder := true }]

theorem tailSchema_contiguous :
    ∃ plan span, tailSchema.resolve .error = .ok plan ∧
      Contiguous ⟨plan, [2, 0x45, 7, 8, 9]⟩ span ∧
      plan.fields.map span = [⟨0, 1⟩, ⟨1, 2⟩, ⟨1, 2⟩, ⟨2, 4⟩, ⟨4, 5⟩] := by
  obtain ⟨plan, hplan⟩ : ∃ plan, tailSchema.resolve .error = .ok plan := ⟨_, rfl⟩
  let span : PlannedField → Span := fun field =>
    ((View.range ⟨plan, [2, 0x45, 7, 8, 9]⟩ field.name).toOption).getD ⟨0, 0⟩
  have hcomputed : ∀ field ∈ tailSchema.fields, field.decl.position.isComputed = false := by
    decide
  have hliteral : tailSchema.fields.Pairwise fun a b =>
      a.decl.sizeFunction.isSome = true → b.decl.position.isLiteral = false := by
    decide
  have hspan : ∀ field ∈ plan.fields,
      View.range ⟨plan, [2, 0x45, 7, 8, 9]⟩ field.name = .ok (span field) := by
    have hall : plan.fields.all (fun field =>
        (View.range ⟨plan, [2, 0x45, 7, 8, 9]⟩ field.name).toOption.isSome) = true := by
      cases hplan
      rfl
    intro field hmem
    have hsome := List.all_eq_true.1 hall field hmem
    cases hrange : View.range ⟨plan, [2, 0x45, 7, 8, 9]⟩ field.name with
    | ok found => simp [span, hrange, Except.toOption]
    | error error => simp [hrange, Except.toOption] at hsome
  refine ⟨plan, span, hplan, Schema.contiguous_of_resolve hplan hcomputed hliteral ?_ hspan, ?_⟩
  · decide
  · cases hplan
    rfl

end PacketLayout
