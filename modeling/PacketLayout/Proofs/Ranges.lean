import PacketLayout.Access.View

/-!
# Ranges in a buffer

What it means that a view finds a field, and what a view of an alternate is.

* `Expr.eval_plus` evaluates a sum.
* `View.exists_locatedAt` takes the range of a field apart.
* `View.follow_inside` says that the view at the end of a path is a part of the first one, and
  `View.at?_of_follow` whose plan it has.
-/

namespace PacketLayout

/-! ## Steps that succeed -/

theorem bind_eq_ok_iff {ε α β : Type} {x : Except ε α} {f : α → Except ε β} {b : β} :
    x >>= f = .ok b ↔ ∃ a, x = .ok a ∧ f a = .ok b := by
  cases x with
  | error error => simp [bind, Except.bind]
  | ok a => simp [bind, Except.bind]

theorem mapError_eq_ok_iff {ε ε' α : Type} {f : ε → ε'} {x : Except ε α} {a : α} :
    x.mapError f = .ok a ↔ x = .ok a := by
  cases x with
  | error error =>
    constructor <;> intro h <;> cases h
  | ok value =>
    constructor <;> intro h
    · exact congrArg Except.ok (Except.ok.inj h)
    · exact congrArg Except.ok (Except.ok.inj h)

@[simp] theorem mapError_ok {ε ε' α : Type} (f : ε → ε') (a : α) :
    (Except.ok a : Except ε α).mapError f = .ok a :=
  rfl

theorem Failure.ofError_eq_ok_iff {ε α : Type} {x : Except ε α} {a : α} :
    ofError x = .ok a ↔ x = .ok a := by
  cases x <;> simp [ofError]

theorem Failure.ofFault_eq_ok_iff {ε α : Type} {x : Except Fault α} {a : α} :
    (ofFault x : Except (Failure ε) α) = .ok a ↔ x = .ok a := by
  cases x <;> simp [ofFault]

/-! ## Sums in a buffer -/

/-- What terms add does not depend on what is there before, as long as the sum is in range. -/
theorem Term.sumFrom_shift {data : Bytes} {sum total : Nat} {terms : List Term}
    (h : Term.sumFrom data sum terms = .ok total) :
    ∃ value, total = sum + value ∧
      ∀ start, start + value < wordLimit → Term.sumFrom data start terms = .ok (start + value) := by
  induction terms generalizing sum with
  | nil =>
    rw [Term.sumFrom] at h
    obtain rfl := Except.ok.inj h
    refine ⟨0, rfl, fun start _ => ?_⟩
    rw [Term.sumFrom]
    rfl
  | cons term terms ih =>
    rw [Term.sumFrom] at h
    cases hterm : term.eval data with
    | error error =>
      rw [hterm] at h
      cases h
    | ok value =>
      simp only [hterm] at h
      split at h
      · -- the terms behind add up from another start, so the induction is for every start
        obtain ⟨rest, rfl, hrest⟩ := ih h
        refine ⟨value + rest, by omega, fun start hstart => ?_⟩
        rw [Term.sumFrom, hterm]
        show (if start + value < wordLimit then Term.sumFrom data (start + value) terms else _) = _
        rw [if_pos (by omega), hrest (start + value) (by omega), Nat.add_assoc]
      · cases h

theorem Term.sumFrom_append {data : Bytes} {sum middle : Nat} {terms : List Term}
    (h : Term.sumFrom data sum terms = .ok middle) (more : List Term) :
    Term.sumFrom data sum (terms ++ more) = Term.sumFrom data middle more := by
  induction terms generalizing sum with
  | nil =>
    rw [Term.sumFrom] at h
    obtain rfl := Except.ok.inj h
    rfl
  | cons term terms ih =>
    rw [Term.sumFrom] at h
    rw [List.cons_append, Term.sumFrom]
    cases hterm : term.eval data with
    | error error =>
      rw [hterm] at h
      cases h
    | ok value =>
      simp only [hterm] at h ⊢
      split at h
      · rename_i hlt
        rw [if_pos hlt]
        exact ih h
      · cases h

namespace Expr

theorem eval_eq (data : Bytes) (a : Expr) :
    a.eval data = Term.sumFrom data a.constant a.terms := by
  cases a
  rw [Expr.eval]
  rfl

/-- The sum of two expressions is the sum of their numbers, if it is in range. -/
theorem eval_plus {data : Bytes} {a b : Expr} {x y : Nat} (ha : a.eval data = .ok x)
    (hb : b.eval data = .ok y) (hlt : x + y < wordLimit) : (a.plus b).eval data = .ok (x + y) := by
  rw [eval_eq] at ha hb ⊢
  obtain ⟨v, rfl, hv⟩ := Term.sumFrom_shift ha
  obtain ⟨w, rfl, hw⟩ := Term.sumFrom_shift hb
  rw [constant_plus, terms_plus, Term.sumFrom_append (hv _ (by omega)), hw _ (by omega)]
  congr 1
  omega

theorem literal_inj {a b : Nat} (h : literal a = literal b) : a = b :=
  congrArg constant h

theorem eval_literal (data : Bytes) (count : Nat) : (literal count).eval data = .ok count := by
  rw [eval_eq, terms_literal, Term.sumFrom]
  rfl

theorem eval_plusConstant {data : Bytes} {a : Expr} {x count : Nat} (ha : a.eval data = .ok x)
    (hlt : x + count < wordLimit) : (a.plusConstant count).eval data = .ok (x + count) := by
  rw [← plus_literal]
  exact eval_plus ha (eval_literal data count) hlt

end Expr

/-! ## Ranges -/

namespace View

variable {view : View} {field : PlannedField} {span : Span}

/-- The range of a field is what its two expressions say, inside the buffer. -/
structure LocatedAt (view : View) (field : PlannedField) (span : Span) (length : Nat) : Prop where
  offset : field.offset.eval view.data = .ok span.start
  size : field.sizeExpr.eval view.data = .ok length
  stop : span.stop = span.start + length
  inside : span.stop ≤ view.data.length

theorem lookup_eq_ok_iff {name : String} :
    view.lookup name = .ok field ↔ view.plan.field? name = some field := by
  unfold lookup
  cases view.plan.field? name <;> simp

theorem range_eq {name : String} (hfield : view.plan.field? name = some field) :
    view.range name = view.locate field := by
  rw [range, lookup_eq_ok_iff.2 hfield]
  rfl

theorem exists_locatedAt (h : view.locate field = .ok span) :
    ∃ length, view.LocatedAt field span length := by
  obtain ⟨start, hstart, h⟩ := bind_eq_ok_iff.1 h
  obtain ⟨length, hlength, h⟩ := bind_eq_ok_iff.1 h
  split at h
  · rename_i hinside
    obtain rfl := Except.ok.inj h
    exact ⟨length, hstart, hlength, rfl, hinside⟩
  · cases h

/-- A field that takes the rest of the buffer ends where the buffer ends. -/
theorem stop_of_remaining (h : view.locate field = .ok span)
    (hsize : field.sizeExpr = .ofTerm (.remaining field.offset)) :
    span.stop = view.data.length := by
  obtain ⟨length, hat⟩ := exists_locatedAt h
  have hlength := hat.size
  rw [hsize, Expr.eval_eq, Expr.terms_ofTerm, Expr.constant_ofTerm, Term.sumFrom, Term.eval,
    hat.offset] at hlength
  by_cases hle : span.start ≤ view.data.length
  · simp only [if_pos hle, Nat.zero_add] at hlength
    split at hlength
    · rw [Term.sumFrom] at hlength
      have := Except.ok.inj hlength
      have := hat.stop
      omega
    · cases hlength
  · simp only [if_neg hle] at hlength
    cases hlength

theorem locate_of_literal {start count : Nat}
    (hoffset : field.offset = .literal start) (hsize : field.sizeExpr = .literal count)
    (hinside : start + count ≤ view.data.length) :
    view.locate field = .ok ⟨start, start + count⟩ := by
  rw [locate, hoffset, hsize]
  exact if_pos hinside

end View

/-! ## Views -/

theorem Plan.view_eq_ok_iff {plan : Plan} {data : Bytes} {view : View} :
    plan.view data = .ok view ↔ plan.minimumSize ≤ data.length ∧ view = ⟨plan, data⟩ := by
  unfold Plan.view
  split
  · rename_i hlength
    constructor
    · intro h
      exact ⟨hlength, (Except.ok.inj h).symm⟩
    · rintro ⟨-, rfl⟩
      rfl
  · rename_i hlength
    constructor
    · intro h
      cases h
    · rintro ⟨hle, -⟩
      exact absurd hle hlength

namespace View

variable {view : View}

theorem lookupAlternate_eq_ok_iff {anchor alternate : String} {field : PlannedField}
    {plan : Plan} :
    view.lookupAlternate anchor alternate = .ok (field, plan) ↔
      view.plan.field? anchor = some field ∧ field.alternate? alternate = some plan := by
  refine Iff.trans bind_eq_ok_iff ⟨?_, ?_⟩
  · rintro ⟨found, hfound, h⟩
    cases halternate : found.alternate? alternate with
    | none =>
      rw [halternate] at h
      cases h
    | some inner =>
      rw [halternate] at h
      obtain ⟨rfl, rfl⟩ := Prod.mk.inj (Except.ok.inj h)
      exact ⟨lookup_eq_ok_iff.1 hfound, halternate⟩
  · rintro ⟨hfield, halternate⟩
    refine ⟨field, lookup_eq_ok_iff.2 hfield, ?_⟩
    rw [halternate]
    rfl

/-- A view of an alternate shows the bytes of its anchor. -/
structure Shows (view : View) (anchor alternate : String) (field : PlannedField) (span : Span)
    (inner : View) : Prop where
  field? : view.plan.field? anchor = some field
  alternate? : field.alternate? alternate = some inner.plan
  locate : view.locate field = .ok span
  slice : view.data.slice span.start span.stop = .ok inner.data

theorem shows_of_alternate {anchor alternate : String} {start : Nat} {inner : View}
    (h : view.alternate anchor alternate = .ok (start, inner)) :
    ∃ field span, start = span.start ∧ view.Shows anchor alternate field span inner := by
  obtain ⟨⟨field, plan⟩, hlookup, h⟩ := bind_eq_ok_iff.1 h
  obtain ⟨span, hspan, h⟩ := bind_eq_ok_iff.1 h
  obtain ⟨data, hdata, h⟩ := bind_eq_ok_iff.1 h
  obtain ⟨found, hview, h⟩ := bind_eq_ok_iff.1 h
  obtain ⟨rfl, rfl⟩ := Prod.mk.inj (Except.ok.inj h)
  obtain ⟨-, rfl⟩ := Plan.view_eq_ok_iff.1 (Failure.ofError_eq_ok_iff.1 hview)
  obtain ⟨hfield, halternate⟩ := lookupAlternate_eq_ok_iff.1 (Failure.ofError_eq_ok_iff.1 hlookup)
  exact ⟨field, span, rfl, hfield, halternate, Failure.ofError_eq_ok_iff.1 hspan,
    Failure.ofFault_eq_ok_iff.1 hdata⟩

theorem follow_cons {anchor alternate : String} {path : List (String × String)} {start : Nat}
    {last : View} (h : view.follow ((anchor, alternate) :: path) = .ok (start, last)) :
    ∃ field span inner offset, view.Shows anchor alternate field span inner ∧
      inner.follow path = .ok (offset, last) ∧ start = span.start + offset := by
  obtain ⟨⟨first, inner⟩, hstep, h⟩ := bind_eq_ok_iff.1 h
  obtain ⟨⟨offset, found⟩, hmore, h⟩ := bind_eq_ok_iff.1 h
  obtain ⟨rfl, rfl⟩ := Prod.mk.inj (Except.ok.inj h)
  obtain ⟨field, span, rfl, hshows⟩ := shows_of_alternate hstep
  exact ⟨field, span, inner, offset, hshows, hmore, rfl⟩

/-- The view at the end of a path shows a part of the buffer. -/
theorem follow_inside {path : List (String × String)} {start : Nat} {last : View}
    (h : view.follow path = .ok (start, last)) :
    start + last.data.length ≤ view.data.length := by
  induction path generalizing view start with
  | nil =>
    rw [follow] at h
    obtain ⟨rfl, rfl⟩ := Prod.mk.inj (Except.ok.inj h)
    omega
  | cons step path ih =>
    obtain ⟨anchor, alternate⟩ := step
    obtain ⟨field, span, inner, offset, hshows, hmore, rfl⟩ := follow_cons h
    obtain ⟨length, hat⟩ := exists_locatedAt hshows.locate
    have hinner := ih hmore
    have hlength := Bytes.length_of_slice hshows.slice
    have hstop := hat.stop
    have hinside := hat.inside
    omega

/-- The view at the end of a path has the plan that is found there. -/
theorem at?_of_follow {path : List (String × String)} {start : Nat} {last : View}
    (h : view.follow path = .ok (start, last)) : view.plan.at? path = some last.plan := by
  induction path generalizing view start with
  | nil =>
    rw [follow] at h
    obtain ⟨-, rfl⟩ := Prod.mk.inj (Except.ok.inj h)
    rfl
  | cons step path ih =>
    obtain ⟨anchor, alternate⟩ := step
    obtain ⟨field, span, inner, offset, hshows, hmore, -⟩ := follow_cons h
    rw [Plan.at?, hshows.field?, Option.bind_some, hshows.alternate?, Option.bind_some]
    exact ih hmore

end View

end PacketLayout
