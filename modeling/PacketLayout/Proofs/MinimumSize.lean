import PacketLayout.Proofs.Numbers
import PacketLayout.Proofs.Ranges

/-!
# What the minimum size is good for

A buffer is viewed only if it has the minimum size of the plan. This one check is enough for every
field whose place is known in advance: it lies inside the buffer, its number is read, and no write
to it fails for want of bytes.

* `Resolved.locate_of_static` finds such a field.
* `Schema.reachable_of_view` is the statement about reading and writing.
-/

namespace PacketLayout

namespace Resolved

variable {policy : MismatchPolicy} {schema : Schema} {plan : Plan} {planned : PlannedField}

/-- A field of known place and size lies below the minimum size. -/
theorem stop_le_minimumSize (h : Resolved policy schema plan) (hmem : planned ∈ plan.fields)
    {start : Nat} (hoffset : planned.offset = .literal start)
    (hsize : planned.size.isDynamic = false) :
    ∃ count, planned.sizeExpr = .literal count ∧ start + count ≤ plan.minimumSize := by
  obtain ⟨field, hrealizes⟩ := h.realizes_of_mem hmem
  obtain ⟨count, hextent, hexpr⟩ := hrealizes.extent?_of_not_dynamic hsize
  refine ⟨count, hexpr, h.staticEnd_le hmem ?_⟩
  rw [PlannedField.staticEnd?, hoffset, Expr.static?_eq_some_iff.2 rfl, hextent]

/-- In a buffer of the minimum size a field of known place and size is found. -/
theorem locate_of_static (h : Resolved policy schema plan) (hmem : planned ∈ plan.fields)
    {start : Nat} (hoffset : planned.offset = .literal start)
    (hsize : planned.size.isDynamic = false) {data : Bytes}
    (hdata : plan.minimumSize ≤ data.length) :
    ∃ count, planned.sizeExpr = .literal count ∧ start + count ≤ plan.minimumSize ∧
      View.locate ⟨plan, data⟩ planned = .ok ⟨start, start + count⟩ := by
  obtain ⟨count, hexpr, hle⟩ := h.stop_le_minimumSize hmem hoffset hsize
  exact ⟨count, hexpr, hle, View.locate_of_literal hoffset hexpr (Nat.le_trans hle hdata)⟩

/-- The word of a number is reached if it lies inside the buffer. -/
theorem reaches (h : Resolved policy schema plan) (hmem : planned ∈ plan.fields) {leaf : Leaf}
    (hleaf : planned.leaf? = some leaf) {width : Nat}
    (hwidth : leaf.provider.wordWidth? = some width) {view : View} {span : Span}
    (hinside : span.start + width ≤ view.data.length) :
    view.Reaches span leaf.provider width := by
  refine ⟨⟨hwidth, fun slot hslot => ?_⟩, hinside⟩
  have hplanned : planned.slot? = some slot := by
    rw [PlannedField.slot?, hleaf]
    exact hslot
  obtain ⟨hfits, -, hslotInside⟩ := h.slot_fits hmem hplanned
  exact ⟨hfits, hslotInside⟩

end Resolved

theorem Provider.refusal_ne (provider : Provider) (edit : Edit) :
    provider.refusal edit ≠ .outOfBounds ∧ ∀ error, provider.refusal edit ≠ .read error := by
  cases edit with
  | variant =>
    rw [Provider.refusal]
    split <;> simp
  | unsigned | signed | bytes => simp [Provider.refusal]

/-- In a buffer that is viewed, a field of known place and size lies below the minimum size; if it
holds a number, the number is read, and a write ends without a fault and never for want of bytes.
This holds under both policies and below anchors. -/
theorem Schema.reachable_of_view {schema : Schema} {policy : MismatchPolicy} {plan sub : Plan}
    {path : List (String × String)} {data : Bytes} {view : View} {field : PlannedField}
    (h : schema.resolve policy = .ok plan) (hsub : plan.at? path = some sub)
    (hview : sub.view data = .ok view) (hmem : field ∈ sub.fields)
    (hoffset : field.offset.isStatic = true) (hsize : field.size.isDynamic = false) :
    (∃ span, view.range field.name = .ok span ∧ span.stop ≤ sub.minimumSize) ∧
    ∀ leaf, field.leaf? = some leaf → leaf.provider.wordWidth?.isSome = true →
      (∃ value, view.get field.name = .ok value) ∧
      (leaf.writable = true → ∀ edit, edit.field = field.name →
        (∃ result, view.apply edit = .ok result) ∨
          ∃ error, view.apply edit = .error (.error error) ∧
            error ≠ .outOfBounds ∧ ∀ cause, error ≠ .read cause) := by
  obtain ⟨part, -, hresolve⟩ := Schema.resolve_at? h hsub
  have hresolved := Schema.resolved hresolve
  obtain ⟨hlength, rfl⟩ := Plan.view_eq_ok_iff.1 hview
  have hfield := hresolved.field?_of_mem hmem
  have hstart : field.offset = .literal field.offset.constant :=
    Expr.static?_eq_some_iff.1 (if_pos hoffset)
  obtain ⟨count, hexpr, hle, hlocate⟩ :=
    hresolved.locate_of_static hmem hstart hsize hlength
  constructor
  · refine ⟨⟨field.offset.constant, field.offset.constant + count⟩, ?_, hle⟩
    simp only [View.range, View.lookup, hfield]
    exact hlocate
  · intro leaf hleaf hnumber
    obtain ⟨width, hwidth⟩ := Option.isSome_iff_exists.1 hnumber
    obtain ⟨origin, hrealizes⟩ := hresolved.realizes_of_mem hmem
    -- the bytes that the field spans are those of its word
    have hcount : count = width :=
      congrArg Expr.constant (hexpr.symm.trans (hrealizes.sizeExpr_of_wordWidth? hleaf hwidth))
    subst hcount
    have hreaches : View.Reaches ⟨sub, data⟩
        ⟨field.offset.constant, field.offset.constant + count⟩ leaf.provider count :=
      hresolved.reaches hmem hleaf hwidth (Nat.le_trans hle hlength)
    refine ⟨⟨_, View.get_eq hfield hleaf hlocate hreaches⟩, ?_⟩
    intro hwritable edit hedit
    have htarget := View.target_eq hfield hleaf hwritable hlocate
    rw [View.apply_eq (hedit.symm ▸ htarget) hreaches, View.outcome]
    cases leaf.provider.numberOf? edit with
    | some number => exact .inl ⟨_, rfl⟩
    | none => exact .inr ⟨_, rfl, leaf.provider.refusal_ne edit⟩

/-- A number, and another one at an explicit place far behind it. -/
def gapSchema : Schema where
  name := "Gap"
  fields :=
    [.plain { name := "first", type := .integer .u8 },
      .plain { name := "far", type := .integer .i16, position := .literal 4 }]

theorem gapSchema_reachable :
    ∃ plan view field, gapSchema.resolve .warn = .ok plan ∧
      plan.view [1, 2, 3, 4, 5, 6] = .ok view ∧ field ∈ plan.fields ∧ field.name = "far" ∧
      (∃ span, view.range field.name = .ok span ∧ span.stop ≤ plan.minimumSize) ∧
      ∃ leaf, field.leaf? = some leaf ∧ (∃ value, view.get field.name = .ok value) ∧
        ((∃ result, view.apply (.signed field.name (-2)) = .ok result) ∨
          ∃ error, view.apply (.signed field.name (-2)) = .error (.error error) ∧
            error ≠ .outOfBounds ∧ ∀ cause, error ≠ .read cause) := by
  obtain ⟨plan, hplan⟩ : ∃ plan, gapSchema.resolve .warn = .ok plan := ⟨_, rfl⟩
  obtain ⟨view, hview⟩ : ∃ view, plan.view [1, 2, 3, 4, 5, 6] = .ok view := by
    cases hplan
    exact ⟨_, rfl⟩
  obtain ⟨field, hmem, hname, hoffset, hsize, leaf, hleaf, hnumber, hwritable⟩ :
      ∃ field, field ∈ plan.fields ∧ field.name = "far" ∧ field.offset.isStatic = true ∧
        field.size.isDynamic = false ∧ ∃ leaf, field.leaf? = some leaf ∧
          leaf.provider.wordWidth?.isSome = true ∧ leaf.writable = true := by
    cases hplan
    exact ⟨_, .tail _ (.head _), rfl, rfl, rfl, _, rfl, rfl, rfl⟩
  have hself : plan.at? [] = some plan := rfl
  obtain ⟨hrange, hleaves⟩ := Schema.reachable_of_view hplan hself hview hmem hoffset hsize
  obtain ⟨hget, hwrites⟩ := hleaves leaf hleaf hnumber
  exact ⟨plan, view, field, hplan, hview, hmem, hname, hrange, leaf, hleaf, hget,
    hwrites hwritable (.signed field.name (-2)) rfl⟩

end PacketLayout
