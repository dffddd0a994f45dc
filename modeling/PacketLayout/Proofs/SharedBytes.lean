import PacketLayout.Proofs.Decoding
import PacketLayout.Proofs.NumberWrites

/-!
# Alternates show the same bytes

The alternates of an anchor have plans of their own, but look at one range of bytes. An integer of
one alternate may lie where another alternate has several: then it is made of their numbers, and
writing it writes them.

* `Consecutive` are ranges that follow one another without a gap, and `Consecutive.between_eq` says
  which number they spell together.
* `Part` is an integer without a sign where a view finds it, and `Part.FoundIn.get_eq` reads it.
* `Schema.alternates_agree` is the statement about plans.
-/

namespace PacketLayout

/-! ## Ranges in a row -/

/-- Ranges from `start` to `stop`, each of which begins where the one before it ends. -/
inductive Consecutive : (start : Nat) → List Span → (stop : Nat) → Prop
  | nil (place : Nat) : Consecutive place [] place
  | cons (span : Span) {rest : List Span} {stop : Nat} (ordered : span.start ≤ span.stop)
      (more : Consecutive span.stop rest stop) : Consecutive span.start (span :: rest) stop

namespace Consecutive

variable {start stop : Nat} {spans : List Span}

theorem le (h : Consecutive start spans stop) : start ≤ stop := by
  induction h with
  | nil => exact Nat.le_refl _
  | cons _ ordered _ ih => exact Nat.le_trans ordered ih

/-- Each of the ranges lies inside the whole. -/
theorem inside (h : Consecutive start spans stop) {span : Span} (hmem : span ∈ spans) :
    start ≤ span.start ∧ span.start ≤ span.stop ∧ span.stop ≤ stop := by
  induction h with
  | nil => cases hmem
  | cons _ ordered more ih =>
    rcases List.mem_cons.1 hmem with rfl | hmem
    · exact ⟨Nat.le_refl _, ordered, more.le⟩
    · obtain ⟨hlow, hordered, hhigh⟩ := ih hmem
      exact ⟨Nat.le_trans ordered hlow, hordered, hhigh⟩

/-- Together the ranges spell the sum of their numbers, each moved up by what is behind it. -/
theorem between_eq (h : Consecutive start spans stop) {data : Bytes} (hstop : stop ≤ data.length) :
    data.between start stop =
      (spans.map fun span =>
        data.between span.start span.stop * 256 ^ (stop - span.stop)).sum := by
  induction h with
  | nil => exact Bytes.between_self data _
  | cons _ ordered more ih =>
    rw [List.map_cons, List.sum_cons, ← ih hstop]
    exact Bytes.between_add ordered more.le hstop

end Consecutive

/-! ## Integers of an alternate -/

/-- An integer of a plan, and a range for it. -/
structure Part where
  field : PlannedField
  kind : IntKind
  span : Span

/-- The view finds the integer, which has no sign, at its range. -/
structure Part.FoundIn (part : Part) (view : View) : Prop where
  mem : part.field ∈ view.plan.fields
  leaf? : ∃ leaf, part.field.leaf? = some leaf ∧ leaf.provider = .scalar part.kind
  unsigned : part.kind.isSigned = false
  range : view.range part.field.name = .ok part.span

namespace Part.FoundIn

variable {policy : MismatchPolicy} {schema : Schema} {part : Part} {view : View}

/-- The integer lies inside the buffer and has the length of its kind. -/
theorem extent (h : Resolved policy schema view.plan) (hpart : part.FoundIn view) :
    part.span.stop = part.span.start + part.kind.width ∧ part.span.stop ≤ view.data.length := by
  obtain ⟨leaf, hleaf, hprovider⟩ := hpart.leaf?
  have hlocate := hpart.range
  rw [View.range_eq (h.field?_of_mem hpart.mem)] at hlocate
  have hwidth : leaf.provider.wordWidth? = some part.kind.width := by rw [hprovider]; rfl
  obtain ⟨hreaches, hstop⟩ := h.reaches_of_locate hpart.mem hleaf hwidth hlocate
  exact ⟨hstop, hstop ▸ hreaches.inside⟩

/-- What is read is the number of the range. -/
theorem get_eq (h : Resolved policy schema view.plan) (hpart : part.FoundIn view) :
    ∃ number, view.get part.field.name = .ok (.unsigned number) ∧
      number.toNat = view.data.between part.span.start part.span.stop := by
  obtain ⟨leaf, hleaf, hprovider⟩ := hpart.leaf?
  obtain ⟨bytes, hslice, hreads, -⟩ := h.exists_reads hpart.mem hleaf hpart.range
  obtain ⟨-, -, rfl⟩ := Bytes.slice_eq_ok_iff.1 hslice
  rw [hprovider] at hreads
  generalize hget : view.get part.field.name = read at hreads
  cases hreads with
  | unsigned plain number => exact ⟨_, rfl, number⟩
  | signed signed => rw [hpart.unsigned] at signed; cases signed

/-- A write that succeeds leaves the number at the range. -/
theorem between_of_apply (h : Resolved policy schema view.plan) (hpart : part.FoundIn view)
    {value : UInt64} {after : Bytes}
    (happly : view.apply (.unsigned part.field.name value) = .ok after) :
    after.length = view.data.length ∧
      after.between part.span.start part.span.stop = value.toNat := by
  obtain ⟨leaf, hleaf, hprovider⟩ := hpart.leaf?
  obtain ⟨hstop, hinside⟩ := hpart.extent h
  obtain ⟨provider, span, htarget⟩ := View.exists_target_of_apply happly
  obtain ⟨field, other, hfield, hother, rfl, hspan⟩ := View.exists_of_target htarget
  obtain rfl := Option.some.inj ((h.field?_of_mem hpart.mem).symm.trans hfield)
  obtain rfl := Option.some.inj (hleaf.symm.trans hother)
  obtain rfl := Except.ok.inj ((View.range_eq hfield ▸ hpart.range).symm.trans hspan)
  have hwidth : leaf.provider.wordWidth? = some part.kind.width := by rw [hprovider]; rfl
  obtain ⟨hreaches, -⟩ := h.reaches_of_locate hpart.mem hleaf hwidth hspan
  rw [View.apply_eq htarget hreaches, View.outcome, Provider.numberOf?, hprovider] at happly
  by_cases hlt : value.toNat < 2 ^ (Provider.scalar part.kind).bits
  · rw [if_pos hlt] at happly
    obtain rfl := Except.ok.inj happly
    have hword : value.toNat < 256 ^ part.kind.width := by
      rw [Provider.pow_eq]
      exact hlt
    refine ⟨Bytes.length_overwrite (by rw [BigEndian.length_bytes]; exact hreaches.inside), ?_⟩
    rw [hstop]
    exact (Bytes.between_overwrite hreaches.inside value).trans (Nat.mod_eq_of_lt hword)
  · rw [if_neg hlt] at happly
    cases happly

/-- Integers in a row read the number of the whole range, if each is moved up by the bytes behind
it. -/
theorem exists_sum_eq (h : Resolved policy schema view.plan) {parts : List Part}
    (hparts : ∀ part ∈ parts, part.FoundIn view) {start stop : Nat}
    (hcover : Consecutive start (parts.map (·.span)) stop) (hstop : stop ≤ view.data.length) :
    ∃ number : Part → UInt64,
      (∀ part ∈ parts, view.get part.field.name = .ok (.unsigned (number part))) ∧
      view.data.between start stop =
        (parts.map fun part => (number part).toNat * 2 ^ (8 * (stop - part.span.stop))).sum := by
  choose! number hget hnumber using fun part hmem => (hparts part hmem).get_eq h
  refine ⟨number, hget, ?_⟩
  rw [hcover.between_eq hstop, List.map_map]
  refine congrArg List.sum (List.map_congr_left fun part hmem => ?_)
  rw [Function.comp_apply, ← hnumber part hmem, Provider.pow_eq]

/-- An integer inside a range reads the digits of the number of the range that belong to its
bytes. -/
theorem exists_digits (h : Resolved policy schema view.plan) (hpart : part.FoundIn view)
    {start stop : Nat} (hlow : start ≤ part.span.start) (hhigh : part.span.stop ≤ stop)
    (hstop : stop ≤ view.data.length) :
    ∃ number, view.get part.field.name = .ok (.unsigned number) ∧
      number.toNat = view.data.between start stop / 2 ^ (8 * (stop - part.span.stop)) %
        2 ^ part.kind.bits := by
  obtain ⟨number, hget, hnumber⟩ := hpart.get_eq h
  obtain ⟨hlength, -⟩ := hpart.extent h
  have hwidth : part.span.stop - part.span.start = part.kind.width := by omega
  refine ⟨number, hget, ?_⟩
  rw [hnumber, Bytes.between_eq_div_mod hlow (by omega) hhigh hstop, hwidth, Provider.pow_eq,
    Provider.pow_eq]
  rfl

end Part.FoundIn

/-! ## Plans -/

/-- An alternate that was entered is entered again when its bytes were replaced, if its anchor is
found where it was. -/
theorem View.alternate_overwrite {plan : Plan} {data new : Bytes} {anchor name : String}
    {start : Nat} {inner : View} (h : View.alternate ⟨plan, data⟩ anchor name = .ok (start, inner))
    (hnew : new.length = inner.data.length)
    (hrange : View.range ⟨plan, data.overwrite start new⟩ anchor =
      View.range ⟨plan, data⟩ anchor) :
    View.alternate ⟨plan, data.overwrite start new⟩ anchor name =
      .ok (start, ⟨inner.plan, new⟩) := by
  obtain ⟨field, span, rfl, hshows⟩ := View.shows_of_alternate h
  have hfound : View.range ⟨plan, data⟩ anchor = .ok span :=
    (View.range_eq hshows.field?).trans hshows.locate
  have hfield : (View.mk plan (data.overwrite span.start new)).plan.field? anchor = some field :=
    hshows.field?
  rw [View.alternate_eq hshows.field? hshows.alternate?, hfound] at h
  rw [View.alternate_eq hfield hshows.alternate?, hrange, hfound]
  by_cases hfits : inner.plan.minimumSize ≤ span.stop - span.start
  · obtain ⟨-, -, hbytes⟩ :=
      Bytes.slice_eq_ok_iff.1 (Bytes.slice_overwrite_slice hshows.slice hnew)
    simp only [if_pos hfits, ← hbytes]
  · simp only [if_neg hfits] at h
    cases h

/-- An edit through an alternate replaces its bytes. -/
theorem Plan.exists_of_perform {schema : Schema} {policy : MismatchPolicy} {plan : Plan}
    (h : schema.resolve policy = .ok plan) {data after : Bytes} {anchor name : String}
    {start : Nat} {inner : View}
    (hinner : View.alternate ⟨plan, data⟩ anchor name = .ok (start, inner))
    {leftover : Leftover} {edit : Edit}
    (hrun : (plan.perform leftover edit [(anchor, name)]).exec data = (.ok (), after)) :
    ∃ new, inner.apply edit = .ok new ∧ after = data.overwrite start new := by
  have hlands := Lands.perform h leftover edit [(anchor, name)] data
  rw [hrun] at hlands
  obtain ⟨begin, last, new, hdescend, happly, rfl⟩ := Plan.exists_of_edit hlands.of_ok
  have hfollow := Plan.follow_of_descend hdescend
  rw [View.follow, hinner] at hfollow
  obtain ⟨rfl, rfl⟩ := Prod.mk.inj (Except.ok.inj hfollow)
  exact ⟨new, happly, rfl⟩

/-- Where one alternate of an anchor has integers without a sign in a row, and another one a single
integer over the same bytes, the single integer is the sum of the others, each moved up by the
bytes behind it. A number that is written into it is taken apart in the same way: if the anchor and
an integer of the row are found where they were, what is read there are the digits of the number
that belong to its bytes. -/
theorem Schema.alternates_agree {schema : Schema} {policy : MismatchPolicy} {plan sub : Plan}
    {path : List (String × String)} (h : schema.resolve policy = .ok plan)
    (hsub : plan.at? path = some sub) {data : Bytes} {anchor one other : String}
    {start start' : Nat} {first second : View}
    (hfirst : View.alternate ⟨sub, data⟩ anchor one = .ok (start, first))
    (hsecond : View.alternate ⟨sub, data⟩ anchor other = .ok (start', second))
    {parts : List Part} (hparts : ∀ part ∈ parts, part.FoundIn first)
    {whole : Part} (hwhole : whole.FoundIn second)
    (hcover : Consecutive whole.span.start (parts.map (·.span)) whole.span.stop) :
    (∃ (value : UInt64) (number : Part → UInt64),
      second.get whole.field.name = .ok (.unsigned value) ∧
      (∀ part ∈ parts, first.get part.field.name = .ok (.unsigned (number part))) ∧
      value.toNat = (parts.map fun part =>
        (number part).toNat * 2 ^ (8 * (whole.span.stop - part.span.stop))).sum) ∧
    ∀ (leftover : Leftover) (value : UInt64) (after : Bytes),
      (sub.perform leftover (.unsigned whole.field.name value) [(anchor, other)]).exec data =
        (.ok (), after) →
      View.range ⟨sub, after⟩ anchor = View.range ⟨sub, data⟩ anchor →
      ∃ again, View.alternate ⟨sub, after⟩ anchor one = .ok (start, again) ∧
        ∀ part ∈ parts, again.range part.field.name = .ok part.span →
          ∃ number, again.get part.field.name = .ok (.unsigned number) ∧
            number.toNat =
              value.toNat / 2 ^ (8 * (whole.span.stop - part.span.stop)) % 2 ^ part.kind.bits := by
  obtain ⟨field, span, rfl, hshows⟩ := View.shows_of_alternate hfirst
  obtain ⟨field', span', rfl, hshows'⟩ := View.shows_of_alternate hsecond
  obtain rfl := Option.some.inj (hshows.field?.symm.trans hshows'.field?)
  obtain rfl := Except.ok.inj (hshows.locate.symm.trans hshows'.locate)
  -- both alternates have the bytes of the anchor
  have hdata : second.data = first.data :=
    Except.ok.inj (hshows'.slice.symm.trans hshows.slice)
  obtain ⟨part, -, hresolve⟩ := Schema.resolve_at? h hsub
  obtain ⟨schema₁, hone⟩ := Plan.resolve_of_alternate? hresolve hshows.field? hshows.alternate?
  obtain ⟨schema₂, hother⟩ := Plan.resolve_of_alternate? hresolve hshows'.field? hshows'.alternate?
  have hinside : whole.span.stop ≤ second.data.length := (hwhole.extent (Schema.resolved hother)).2
  constructor
  · obtain ⟨value, hget, hvalue⟩ := hwhole.get_eq (Schema.resolved hother)
    rw [hdata] at hinside hvalue
    obtain ⟨number, hnumber, hsum⟩ :=
      Part.FoundIn.exists_sum_eq (Schema.resolved hone) hparts hcover hinside
    exact ⟨value, number, hget, hnumber, hvalue.trans hsum⟩
  · intro leftover value after hrun hanchor
    obtain ⟨new, happly, rfl⟩ := Plan.exists_of_perform hresolve hsecond hrun
    obtain ⟨hlength, hbetween⟩ := hwhole.between_of_apply (Schema.resolved hother) happly
    refine ⟨_, View.alternate_overwrite hfirst (by rw [hlength, hdata]) hanchor, ?_⟩
    intro part hmem hrange
    have hfound := hparts part hmem
    obtain ⟨hlow, -, hhigh⟩ := hcover.inside (List.mem_map_of_mem hmem)
    have hagain : part.FoundIn ⟨first.plan, new⟩ :=
      ⟨hfound.mem, hfound.leaf?, hfound.unsigned, hrange⟩
    have hplan : Resolved policy schema₁ (View.plan ⟨first.plan, new⟩) := Schema.resolved hone
    obtain ⟨number, hget, hnumber⟩ :=
      hagain.exists_digits hplan hlow hhigh (hlength ▸ hinside)
    exact ⟨number, hget, by rw [hnumber, hbetween]⟩

/-- A message whose last four bytes are two integers or one. -/
def echoSchema : Schema where
  name := "Echo"
  fields :=
    [.plain { name := "type", type := .integer .u8 },
      .anchor { name := "rest", type := .byteArray 4 }
        [.mk "echo"
          [.plain { name := "identifier", type := .integer .u16 },
            .plain { name := "sequence", type := .integer .u16 }],
          .mk "mask" [.plain { name := "address", type := .integer .u32 }]]]

theorem echoSchema_alternates_agree :
    ∃ (plan : Plan) (first second again : View), echoSchema.resolve .error = .ok plan ∧
      View.alternate ⟨plan, [8, 0, 1, 0, 2]⟩ "rest" "echo" = .ok (1, first) ∧
      View.alternate ⟨plan, [8, 0, 1, 0, 2]⟩ "rest" "mask" = .ok (1, second) ∧
      View.alternate ⟨plan, [8, 10, 11, 12, 13]⟩ "rest" "echo" = .ok (1, again) ∧
      (∃ value identifier sequence : UInt64, second.get "address" = .ok (.unsigned value) ∧
        first.get "identifier" = .ok (.unsigned identifier) ∧
        first.get "sequence" = .ok (.unsigned sequence) ∧
        value.toNat = identifier.toNat * 2 ^ 16 + sequence.toNat) ∧
      ∃ identifier sequence : UInt64, again.get "identifier" = .ok (.unsigned identifier) ∧
        again.get "sequence" = .ok (.unsigned sequence) ∧
        identifier.toNat = 0x0a0b ∧ sequence.toNat = 0x0c0d := by
  obtain ⟨plan, hplan⟩ : ∃ plan, echoSchema.resolve .error = .ok plan := ⟨_, rfl⟩
  obtain ⟨first, second, hfirst, hsecond, hrun, hanchor⟩ : ∃ first second,
      View.alternate ⟨plan, [8, 0, 1, 0, 2]⟩ "rest" "echo" = .ok (1, first) ∧
      View.alternate ⟨plan, [8, 0, 1, 0, 2]⟩ "rest" "mask" = .ok (1, second) ∧
      (plan.perform (fun _ _ destination => destination) (.unsigned "address" 0x0a0b0c0d)
        [("rest", "mask")]).exec [8, 0, 1, 0, 2] = (.ok (), [8, 10, 11, 12, 13]) ∧
      View.range ⟨plan, [8, 10, 11, 12, 13]⟩ "rest" =
        View.range ⟨plan, [8, 0, 1, 0, 2]⟩ "rest" := by
    cases hplan
    exact ⟨_, _, rfl, rfl, rfl, rfl⟩
  obtain ⟨identifier, sequence, address, ⟨hidentifier, hfront⟩, ⟨hsequence, hback⟩,
      haddress, hwhole⟩ :
      ∃ identifier sequence address : PlannedField,
        (identifier.name = "identifier" ∧ Part.FoundIn ⟨identifier, .u16, ⟨0, 2⟩⟩ first) ∧
        (sequence.name = "sequence" ∧ Part.FoundIn ⟨sequence, .u16, ⟨2, 4⟩⟩ first) ∧
        address.name = "address" ∧ Part.FoundIn ⟨address, .u32, ⟨0, 4⟩⟩ second := by
    cases hplan
    cases hfirst
    cases hsecond
    exact ⟨_, _, _, ⟨rfl, .head _, ⟨_, rfl, rfl⟩, rfl, rfl⟩,
      ⟨rfl, .tail _ (.head _), ⟨_, rfl, rfl⟩, rfl, rfl⟩, rfl, .head _, ⟨_, rfl, rfl⟩, rfl, rfl⟩
  have hparts : ∀ part ∈ [Part.mk identifier .u16 ⟨0, 2⟩, ⟨sequence, .u16, ⟨2, 4⟩⟩],
      part.FoundIn first := by
    simp [hfront, hback]
  have hcover : Consecutive 0 [⟨0, 2⟩, ⟨2, 4⟩] 4 :=
    .cons ⟨0, 2⟩ (by decide) (.cons ⟨2, 4⟩ (by decide) (.nil 4))
  have hself : plan.at? [] = some plan := rfl
  obtain ⟨⟨value, number, hvalue, hnumber, hsum⟩, hwrite⟩ :=
    Schema.alternates_agree hplan hself hfirst hsecond hparts hwhole hcover
  rw [← haddress] at hrun
  obtain ⟨again, hagain, hdigits⟩ := hwrite _ _ _ hrun hanchor
  have hranges :
      again.range identifier.name = .ok ⟨0, 2⟩ ∧ again.range sequence.name = .ok ⟨2, 4⟩ := by
    rw [hidentifier, hsequence]
    cases hplan
    cases hagain
    exact ⟨rfl, rfl⟩
  obtain ⟨front, hfrontGet, hfrontEq⟩ := hdigits ⟨identifier, .u16, ⟨0, 2⟩⟩ (.head _) hranges.1
  obtain ⟨back, hbackGet, hbackEq⟩ :=
    hdigits ⟨sequence, .u16, ⟨2, 4⟩⟩ (.tail _ (.head _)) hranges.2
  have hbefore := hnumber ⟨identifier, .u16, ⟨0, 2⟩⟩ (.head _)
  have hbefore' := hnumber ⟨sequence, .u16, ⟨2, 4⟩⟩ (.tail _ (.head _))
  simp only [hidentifier, hsequence, haddress] at hvalue hbefore hbefore' hfrontGet hbackGet
  refine ⟨plan, first, second, again, hplan, hfirst, hsecond, hagain,
    ⟨value, _, _, hvalue, hbefore, hbefore', ?_⟩, front, back, hfrontGet, hbackGet, ?_, ?_⟩
  · simpa using hsum
  · simpa [IntKind.bits, IntKind.width] using hfrontEq
  · simpa [IntKind.bits, IntKind.width] using hbackEq

end PacketLayout
