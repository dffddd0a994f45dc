import PacketLayout.Proofs.Extents
import PacketLayout.Proofs.Ranges

/-!
# Where the terms of an expression come from

The offset of a field is put together from the fields before it: their sizes, as far as they have to
be computed, and their position functions. Nothing in it asks how long the buffer is, so it has a
number on every buffer on which its sums are 64-bit numbers.

* `Expr.DrawnFrom` says which terms an expression may have.
* `Expr.DrawnFrom.computes` says what comes of such an expression on a buffer.
* `Arranged.drawnFrom` finds the offsets of a plan to be such expressions, and
  `Schema.grounded_of_resolve` says what all expressions of a plan look like.
-/

namespace PacketLayout

/-! ## Terms that refer to fields -/

mutual

/-- The expression is put together from the fields before the one at `index`, and from the position
function of that field. -/
inductive Expr.DrawnFrom (fields : List PlannedField) : (index : Nat) → Expr → Prop
  | sum {index constant : Nat} {terms : List Term} (bounded : constant < wordLimit)
      (each : ∀ term ∈ terms, Term.DrawnFrom fields index term) :
      Expr.DrawnFrom fields index (.sum constant terms)

/-- The term refers to a field before the one at `index`, or to the position function of that field.
No such term asks for the rest of the buffer. -/
inductive Term.DrawnFrom (fields : List PlannedField) : (index : Nat) → Term → Prop
  /-- the size of an earlier field, by the size function of that field -/
  | sizeOf {index source : Nat} {field : PlannedField} {function : SizeFunction}
      (earlier : source < index) (field_eq : fields[source]? = some field)
      (size : field.size = .computed function) :
      Term.DrawnFrom fields index (.sizeOf field.name function)
  /-- the position function of a field, with what the fields before that one imply -/
  | position {index source : Nat} {field : PlannedField} {function : PositionFunction}
      {default : Expr} (upTo : source ≤ index) (field_eq : fields[source]? = some field)
      (position : field.layout.position = .computed function)
      (drawn : Expr.DrawnFrom fields source default) :
      Term.DrawnFrom fields index (.position function default)

end

/-- What may refer to some fields may refer to more of them. -/
theorem Term.DrawnFrom.mono {fields : List PlannedField} {index later : Nat} {term : Term}
    (h : term.DrawnFrom fields index) (hle : index ≤ later) : term.DrawnFrom fields later := by
  cases h with
  | sizeOf earlier field_eq size => exact .sizeOf (Nat.lt_of_lt_of_le earlier hle) field_eq size
  | position upTo field_eq position drawn =>
    exact .position (Nat.le_trans upTo hle) field_eq position drawn

namespace Expr.DrawnFrom

variable {fields : List PlannedField} {index : Nat} {expr : Expr}

theorem terms (h : expr.DrawnFrom fields index) :
    ∀ term ∈ expr.terms, term.DrawnFrom fields index := by
  cases h with
  | sum _ each => exact each

theorem mono {later : Nat} (h : expr.DrawnFrom fields index) (hle : index ≤ later) :
    expr.DrawnFrom fields later := by
  cases h with
  | sum bounded each => exact .sum bounded fun term hmem => (each term hmem).mono hle

theorem literal {value : Nat} (h : value < wordLimit) :
    (Expr.literal value).DrawnFrom fields index :=
  .sum h fun _ hmem => absurd hmem List.not_mem_nil

theorem plus {size : Expr} (h : expr.DrawnFrom fields index)
    (hsize : ∀ term ∈ size.terms, term.DrawnFrom fields index)
    (hbounded : expr.constant + size.constant < wordLimit) :
    (expr.plus size).DrawnFrom fields index := by
  refine .sum hbounded fun term hmem => ?_
  rcases List.mem_append.1 hmem with hmem | hmem
  · exact h.terms term hmem
  · exact hsize term hmem

end Expr.DrawnFrom

/-! ## Evaluation -/

/-- Some sum in the expression, or in what one of its position functions is applied to, is no 64-bit
number. -/
inductive Expr.Overflows (data : Bytes) : Expr → Prop
  | sum {expr : Expr} {value : Nat} (value_eq : expr.value? data = some value)
      (large : wordLimit ≤ value) : Expr.Overflows data expr
  | default {expr default : Expr} {function : PositionFunction}
      (mem : .position function default ∈ expr.terms) (inner : Expr.Overflows data default) :
      Expr.Overflows data expr

/-- On the buffer the expression has the number that it stands for, or a sum in it overflows. -/
def Expr.Computes (data : Bytes) (expr : Expr) : Prop :=
  (∃ value, expr.value? data = some value ∧ value < wordLimit ∧ expr.eval data = .ok value) ∨
  (expr.Overflows data ∧ ∃ sum, expr.eval data = .error (.outOfBounds sum maxWord data.length))

/-- On the buffer the term has the number that it stands for, or it is a position function for which
there is no default. -/
def Term.Computes (data : Bytes) (term : Term) : Prop :=
  (∃ value, term.value? data = some value ∧ term.eval data = .ok value) ∨
  ((∃ function default, term = .position function default ∧ default.Overflows data) ∧
    ∃ sum, term.eval data = .error (.outOfBounds sum maxWord data.length))

/-- A sum is exact, or it passes the limit, or one of its terms has no number. -/
theorem Term.sumFrom_cases {data : Bytes} {terms : List Term}
    (h : ∀ term ∈ terms, term.Computes data) {sum : Nat} (hsum : sum < wordLimit) :
    (∃ total, Term.total? data terms = some total ∧ sum + total < wordLimit ∧
      Term.sumFrom data sum terms = .ok (sum + total)) ∨
    (((∃ total, Term.total? data terms = some total ∧ wordLimit ≤ sum + total) ∨
        ∃ function default, .position function default ∈ terms ∧ default.Overflows data) ∧
      ∃ reached, Term.sumFrom data sum terms =
        .error (.outOfBounds reached maxWord data.length)) := by
  induction terms generalizing sum with
  | nil => exact .inl ⟨0, rfl, hsum, rfl⟩
  | cons term terms ih =>
    rw [List.forall_mem_cons] at h
    rw [Term.sumFrom, Term.total?]
    rcases h.1 with ⟨value, hvalue, heval⟩ | ⟨⟨function, default, rfl, hoverflows⟩, reached, heval⟩
    · rw [hvalue, heval, Option.bind_some]
      by_cases hlt : sum + value < wordLimit
      · simp only [if_pos hlt]
        rcases ih h.2 hlt with ⟨total, htotal, hsmall, hok⟩ | ⟨hreason, herror⟩
        · refine .inl ⟨value + total, by rw [htotal]; rfl, by omega, ?_⟩
          rw [hok, Nat.add_assoc]
        · refine .inr ⟨?_, herror⟩
          rcases hreason with ⟨total, htotal, hlarge⟩ | ⟨function, default, hmem, hinner⟩
          · exact .inl ⟨value + total, by rw [htotal]; rfl, by omega⟩
          · exact .inr ⟨function, default, List.mem_cons_of_mem _ hmem, hinner⟩
      · -- the limit is passed before the terms behind are looked at, so they are summed up alone
        simp only [if_neg hlt]
        refine .inr ⟨?_, sum, rfl⟩
        have hzero : 0 < wordLimit := by decide
        rcases ih h.2 hzero with ⟨total, htotal, -⟩ | ⟨hreason, -⟩
        · exact .inl ⟨value + total, by rw [htotal]; rfl, by omega⟩
        · rcases hreason with ⟨total, htotal, -⟩ | ⟨function, default, hmem, hinner⟩
          · exact .inl ⟨value + total, by rw [htotal]; rfl, by omega⟩
          · exact .inr ⟨function, default, List.mem_cons_of_mem _ hmem, hinner⟩
    · rw [heval]
      exact .inr ⟨.inr ⟨function, default, List.mem_cons_self, hoverflows⟩, reached, rfl⟩

theorem Expr.computes_of_terms {data : Bytes} {constant : Nat} {terms : List Term}
    (hconstant : constant < wordLimit) (h : ∀ term ∈ terms, term.Computes data) :
    (Expr.sum constant terms).Computes data := by
  rw [Expr.Computes, Expr.eval, Expr.value?]
  rcases Term.sumFrom_cases h hconstant with ⟨total, htotal, hsmall, hok⟩ | ⟨hreason, herror⟩
  · exact .inl ⟨constant + total, by rw [htotal]; rfl, hsmall, hok⟩
  · refine .inr ⟨?_, herror⟩
    rcases hreason with ⟨total, htotal, hlarge⟩ | ⟨function, default, hmem, hinner⟩
    · exact .sum (by rw [Expr.value?, htotal]; rfl) hlarge
    · exact .default hmem hinner

mutual

/-- An expression that does not ask for the rest of the buffer has its number on every buffer,
unless a sum in it overflows. -/
theorem Expr.DrawnFrom.computes {fields : List PlannedField} {index : Nat} {expr : Expr}
    (data : Bytes) : expr.DrawnFrom fields index → expr.Computes data
  | .sum bounded each =>
    Expr.computes_of_terms bounded fun term hmem => (each term hmem).computes data

theorem Term.DrawnFrom.computes {fields : List PlannedField} {index : Nat} {term : Term}
    (data : Bytes) : term.DrawnFrom fields index → term.Computes data
  | @Term.DrawnFrom.sizeOf _ _ _ _ function _ _ _ => .inl ⟨function.run data, rfl, rfl⟩
  | @Term.DrawnFrom.position _ _ _ _ function default _ _ _ drawn => by
    rw [Term.Computes, Term.eval, Term.value?]
    rcases drawn.computes data with ⟨value, hvalue, hlt, heval⟩ | ⟨hoverflows, sum, heval⟩
    · refine .inl ⟨function.run data value, ?_, by rw [heval]⟩
      rw [hvalue, Option.bind_some, if_pos hlt]
    · exact .inr ⟨⟨function, default, rfl, hoverflows⟩, sum, by rw [heval]⟩

end

/-! ## Sizes -/

/-- The expression for the size of the field: a number of bytes that is known, the width of its
unit, its own size function, or what is left of the buffer behind its offset. -/
def PlannedField.SpansSize (field : PlannedField) : Prop :=
  match field.size with
  | .constant count | .intrinsic count | .external count => field.sizeExpr = .literal count
  | .bitWidth width => ∃ slot, field.slot? = some slot ∧ slot.width = width ∧
      field.sizeExpr = .literal slot.unit
  | .computed function => field.sizeExpr = .ofTerm (.sizeOf field.name function)
  | .remainder => field.sizeExpr = .ofTerm (.remaining field.offset)

/-- A size in bits is the one that the declaration asks for. -/
theorem Realizes.bitWidth?_eq {readOnly : Bool} {field : Prepared} {planned : PlannedField}
    (h : Realizes readOnly field planned) : planned.size.bitWidth? = field.decl.bits :=
  (Size.source_of_resolve h.size).bitWidth?

namespace Resolved

variable {policy : MismatchPolicy} {schema : Schema} {plan : Plan}

theorem spansSize (h : Resolved policy schema plan) {planned : PlannedField}
    (hmem : planned ∈ plan.fields) : planned.SpansSize := by
  obtain ⟨pair, hpair, rfl⟩ := h.exists_pair hmem
  obtain ⟨field, hdecl, hrealizes⟩ := h.realizes_of_pair hpair
  obtain ⟨slot, hexpr, -⟩ := hrealizes.shape
  rw [PlannedField.SpansSize]
  cases hsize : pair.2.size with
  | constant | intrinsic | external | computed | remainder =>
    rw [hsize] at hexpr
    exact hexpr
  | bitWidth width =>
    have hbits : pair.2.size.bitWidth? = some width := by rw [hsize]; rfl
    obtain ⟨place, hplace⟩ := hrealizes.exists_slot? hbits
    obtain ⟨stop, hnumbered⟩ := h.arranged.numbered
    have hwidth := hnumbered.declared pair hpair
    rw [← hdecl, ← hrealizes.bitWidth?_eq, hbits, hplace] at hwidth
    exact ⟨place, hplace, Option.some.inj hwidth, hrealizes.sizeExpr_of_slot? hplace⟩

end Resolved

/-! ## Offsets -/

/-- A declaration and the planned field of the same name, position and bits, the end of which is a
64-bit number as far as it is known. -/
structure Pair.Corresponds (pair : Pair) : Prop where
  name : pair.2.name = pair.1.name
  position : pair.2.layout.position = pair.1.position
  bits : pair.2.size.bitWidth? = pair.1.bits
  bounded : pair.2.offset.constant + pair.2.sizeExpr.constant < wordLimit

theorem Resolved.corresponds {policy : MismatchPolicy} {schema : Schema} {plan : Plan}
    (h : Resolved policy schema plan) {pair : Pair} (hpair : pair ∈ schema.pairs plan) :
    pair.Corresponds := by
  obtain ⟨field, hdecl, hrealizes⟩ := h.realizes_of_pair hpair
  have hmem : pair.2 ∈ plan.fields := h.map_snd_pairs ▸ List.mem_map_of_mem hpair
  exact ⟨hdecl ▸ hrealizes.name, hdecl ▸ hrealizes.position, hdecl ▸ hrealizes.bitWidth?_eq,
    h.bounded _ hmem⟩

namespace Expr.DrawnFrom

variable {fields : List PlannedField} {index : Nat} {decl : Declaration} {field : PlannedField}

/-- The offset of a field, given what the fields before it imply. -/
theorem start {next : Expr} (h : next.DrawnFrom fields index) (hfield : fields[index]? = some field)
    (hpair : Pair.Corresponds (decl, field)) (hoffset : field.offset = decl.position.offset next) :
    field.offset.DrawnFrom fields index := by
  have hbounded := Nat.lt_of_le_of_lt (Nat.le_add_right _ _) hpair.bounded
  have hposition : field.layout.position = decl.position := hpair.position
  rw [hoffset] at hbounded ⊢
  cases hdecl : decl.position with
  | sequential => exact h
  | literal offset =>
    rw [hdecl] at hbounded
    exact .literal hbounded
  | computed function =>
    refine .sum (by decide) fun term hmem => ?_
    obtain rfl := List.mem_singleton.1 hmem
    exact .position (Nat.le_refl _) hfield (hposition.trans hdecl) h

/-- The offset behind a field that is not a bit-field, unless it takes the rest of the buffer. -/
theorem stop (h : field.offset.DrawnFrom fields index) (hfield : fields[index]? = some field)
    (hpair : Pair.Corresponds (decl, field))
    (hsize : field.sizeExpr = field.size.expr decl.name field.offset none)
    (hends : field.size.isRemainder = false) :
    (field.offset.plus field.sizeExpr).DrawnFrom fields (index + 1) := by
  refine (h.mono (Nat.le_succ index)).plus (fun term hmem => ?_) hpair.bounded
  rw [hsize] at hmem
  cases hkind : field.size with
  | constant | intrinsic | external | bitWidth =>
    rw [hkind] at hmem
    cases hmem
  | computed function =>
    rw [hkind] at hmem
    obtain rfl := List.mem_singleton.1 hmem
    rw [← show field.name = decl.name from hpair.name]
    exact .sizeOf (Nat.lt_succ_self index) hfield hkind
  | remainder =>
    rw [hkind] at hends
    cases hends

end Expr.DrawnFrom

/-- The offsets of arranged fields are put together from the fields before them. -/
theorem Arranged.drawnFrom {policy : MismatchPolicy} {next : Expr} {units : Nat}
    {pairs : List Pair} {fields before : List PlannedField}
    (h : Arranged policy next units pairs) (hfields : fields = before ++ pairs.map (·.2))
    (hnext : next.DrawnFrom fields before.length) (hpairs : ∀ pair ∈ pairs, pair.Corresponds) :
    ∀ i pair, pairs[i]? = some pair → pair.2.offset.DrawnFrom fields (before.length + i) ∧
      (pair.2.size = .remainder → before.length + i + 1 = fields.length) := by
  -- what is placed already grows by one stretch after the other
  induction h generalizing before with
  | nil => exact fun _ _ hget => by cases hget
  | @single next units decl isAnchor field rest bits slot source size_eq offset_eq agrees last more
      ih =>
    rw [List.forall_mem_cons] at hpairs
    have hfield : fields[before.length]? = some field := by simp [hfields]
    have hoffset := hnext.start hfield hpairs.1 offset_eq
    intro i pair hget
    cases i with
    | zero =>
      obtain rfl := Option.some.inj hget
      refine ⟨hoffset, fun hrest => ?_⟩
      have hnil := last (by rw [show field.size = .remainder from hrest]; rfl)
      simp [hfields, hnil]
    | succ i =>
      have hends : field.size.isRemainder = false := by
        cases hends : field.size.isRemainder with
        | false => rfl
        | true =>
          rw [last hends] at hget
          cases hget
      have hstop := hoffset.stop hfield hpairs.1 size_eq hends
      have hcut : fields = before ++ [field] ++ rest.map (·.2) := by simp [hfields]
      obtain ⟨hdrawn, hlast⟩ := ih hcut
        (by rwa [List.length_append, List.length_singleton]) hpairs.2 i pair hget
      rw [List.length_append, List.length_singleton] at hdrawn hlast
      rw [show before.length + (i + 1) = before.length + 1 + i by omega]
      exact ⟨hdrawn, hlast⟩
  | @unit next units used width decl field members rest offset_eq agrees packed fits more ih =>
    have hfirst := hpairs (decl, field) (List.mem_append_left _ List.mem_cons_self)
    have hfield : fields[before.length]? = some field := by simp [hfields]
    have hoffset := hnext.start hfield hfirst offset_eq
    intro i pair hget
    rw [List.getElem?_append] at hget
    split at hget
    · -- a member has the offset of the first one, and bits are no rest of a buffer
      have hmember := List.mem_of_getElem? hget
      rw [packed.offset_eq pair hmember]
      refine ⟨hoffset.mono (Nat.le_add_right _ _), fun hrest => ?_⟩
      obtain ⟨slot, -, -, -, hbits, -⟩ := packed.slot_getElem? i pair hget
      rw [← (hpairs pair (List.mem_append_left _ hmember)).bits, hrest] at hbits
      cases hbits
    · rename_i hle
      have hwidth : field.sizeExpr = .literal width := by
        cases packed with
        | cons _ _ _ _ _ size_eq _ _ => exact size_eq
      have hstop : (field.offset.plusConstant width).DrawnFrom fields
          (before ++ (field :: members.map (·.2))).length := by
        rw [← Expr.plus_literal, ← hwidth]
        refine (hoffset.mono ?_).plus (fun term hmem => ?_) hfirst.bounded
        · simp
        · rw [hwidth] at hmem
          cases hmem
      have hcut : fields = before ++ (field :: members.map (·.2)) ++ rest.map (·.2) := by
        simp [hfields]
      obtain ⟨hdrawn, hlast⟩ := ih hcut hstop
        (fun other hother => hpairs other (List.mem_append_right _ hother)) _ pair hget
      have hindex : (before ++ (field :: members.map (·.2))).length +
          (i - ((decl, field) :: members).length) = before.length + i := by
        simp only [List.length_append, List.length_cons, List.length_map] at hle ⊢
        omega
      rw [hindex] at hdrawn hlast
      exact ⟨hdrawn, hlast⟩

/-! ## Plans -/

/-- What the expressions of the field at `index` look like. -/
structure PlannedField.Grounded (fields : List PlannedField) (index : Nat) (field : PlannedField) :
    Prop where
  size : field.SpansSize
  /-- only the last field takes the rest of the buffer -/
  last : field.size = .remainder → index + 1 = fields.length
  offset : field.offset.DrawnFrom fields index
  /-- only a sum that overflows leaves the offset without a number -/
  computes : ∀ data, field.offset.Computes data

/-- The expressions of a plan, and of every plan below it, refer to its own fields: a size to the
field itself, and an offset to the fields before it. -/
theorem Schema.grounded_of_resolve {schema : Schema} {policy : MismatchPolicy} {plan sub : Plan}
    {path : List (String × String)} (h : schema.resolve policy = .ok plan)
    (hsub : plan.at? path = some sub) {index : Nat} {field : PlannedField}
    (hfield : sub.fields[index]? = some field) : field.Grounded sub.fields index := by
  obtain ⟨part, -, hresolve⟩ := Schema.resolve_at? h hsub
  have hresolved := Schema.resolved hresolve
  have hpairs : sub.fields = [] ++ (part.pairs sub).map (·.2) := hresolved.map_snd_pairs.symm
  have hget : ((part.pairs sub).map (·.2))[index]? = some field :=
    hresolved.map_snd_pairs ▸ hfield
  rw [List.getElem?_map, Option.map_eq_some_iff] at hget
  obtain ⟨pair, hpair, rfl⟩ := hget
  obtain ⟨hoffset, hlast⟩ := hresolved.arranged.drawnFrom hpairs (.literal (by decide))
    (fun _ => hresolved.corresponds) index pair hpair
  rw [List.length_nil, Nat.zero_add] at hoffset hlast
  exact ⟨hresolved.spansSize (List.mem_of_getElem? hfield), hlast, hoffset, hoffset.computes⟩

/-- A name as long as its first byte says, a number two bytes further on, and whatever follows. -/
def entrySchema : Schema where
  name := "Entry"
  fields :=
    [.anchor { name := "body", type := .byteArray 16 }
      [.mk "named"
        [.plain { name := "name", type := .bytes,
                  sizeFunction := some ⟨"name_length", fun data => (data.headD 0).toNat⟩ },
          .plain { name := "mark", type := .integer .u16,
                   position := .computed ⟨"mark_start", fun _ default => default + 2⟩ },
          .plain { name := "rest", type := .bytes }]]]

theorem entrySchema_grounded :
    ∃ plan sub rest, entrySchema.resolve .error = .ok plan ∧
      plan.at? [("body", "named")] = some sub ∧ sub.fields[2]? = some rest ∧
      rest.offset.text = "2 + mark_start(buf, name_length(buf))" ∧
      rest.Grounded sub.fields 2 := by
  obtain ⟨plan, hplan⟩ : ∃ plan, entrySchema.resolve .error = .ok plan := ⟨_, rfl⟩
  obtain ⟨sub, rest, hsub, hrest, htext⟩ : ∃ sub rest, plan.at? [("body", "named")] = some sub ∧
      sub.fields[2]? = some rest ∧
      rest.offset.text = "2 + mark_start(buf, name_length(buf))" := by
    cases hplan
    exact ⟨_, _, rfl, rfl, by decide⟩
  exact ⟨plan, sub, rest, hplan, hsub, hrest, htext, Schema.grounded_of_resolve hplan hsub hrest⟩

end PacketLayout
