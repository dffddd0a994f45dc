import PacketLayout.Proofs.Anchors

/-!
# Exact evaluation

An expression is computed from left to right, and every sum on the way has to be a 64-bit number.
Sums of natural numbers only grow, so nothing is lost that way: the expression has a number on a
buffer exactly if the number that it stands for is a 64-bit one.

* `Expr.InWords` says that the constants of an expression are 64-bit numbers.
* `Term.sumFrom_eq_ok_iff` says what a sum of terms comes to, from any start.
* `Expr.InWords.exact` says so about expressions, however deep their terms nest, and
  `Expr.evaluates_exactly` adds what becomes of static expressions and of sums of two.
-/

namespace PacketLayout

/-! ## Constants -/

mutual

/-- Every constant in the expression is a 64-bit number. -/
inductive Expr.InWords : Expr → Prop
  | sum {constant : Nat} {terms : List Term} (bounded : constant < wordLimit)
      (each : ∀ term ∈ terms, Term.InWords term) : Expr.InWords (.sum constant terms)

/-- Every constant in the term is a 64-bit number. -/
inductive Term.InWords : Term → Prop
  | sizeOf (field : String) (function : SizeFunction) : Term.InWords (.sizeOf field function)
  | position (function : PositionFunction) {default : Expr} (inner : Expr.InWords default) :
      Term.InWords (.position function default)
  | remaining {start : Expr} (inner : Expr.InWords start) : Term.InWords (.remaining start)

end

theorem Expr.InWords.literal {value : Nat} (h : value < wordLimit) : (Expr.literal value).InWords :=
  .sum h fun _ hmem => absurd hmem List.not_mem_nil

/-! ## Numbers on a buffer -/

/-- On the buffer the expression has the number that it stands for, if it stands for a 64-bit
number, and none otherwise. -/
def Expr.Exact (data : Bytes) (expr : Expr) : Prop :=
  ∀ value, expr.eval data = .ok value ↔ expr.value? data = some value ∧ value < wordLimit

/-- On the buffer the term has the number that it stands for, if it stands for one. -/
def Term.Exact (data : Bytes) (term : Term) : Prop :=
  ∀ value, term.eval data = .ok value ↔ term.value? data = some value

section Exact

variable {data : Bytes}

theorem Term.Exact.value?_of_error {term : Term} {error : ReadError} (h : term.Exact data)
    (herror : term.eval data = .error error) : term.value? data = none := by
  refine Option.eq_none_iff_forall_ne_some.2 fun value hvalue => ?_
  rw [(h value).2 hvalue] at herror
  cases herror

/-- Terms are summed up exactly from every start: no sum on the way passes the limit unless the
whole does. -/
theorem Term.sumFrom_eq_ok_iff {terms : List Term} (h : ∀ term ∈ terms, term.Exact data)
    {sum : Nat} (hsum : sum < wordLimit) (value : Nat) :
    Term.sumFrom data sum terms = .ok value ↔
      ∃ total, Term.total? data terms = some total ∧ sum + total = value ∧ value < wordLimit := by
  induction terms generalizing sum with
  | nil =>
    rw [Term.sumFrom, Term.total?]
    constructor
    · intro hvalue
      obtain rfl := Except.ok.inj hvalue
      exact ⟨0, rfl, rfl, hsum⟩
    · rintro ⟨total, htotal, rfl, -⟩
      obtain rfl := Option.some.inj htotal
      rfl
  | cons term terms ih =>
    rw [List.forall_mem_cons] at h
    rw [Term.sumFrom, Term.total?]
    cases heval : term.eval data with
    | error error =>
      rw [h.1.value?_of_error heval]
      simp
    | ok first =>
      rw [(h.1 first).1 heval, Option.bind_some]
      by_cases hlt : sum + first < wordLimit
      · simp only [if_pos hlt, ih h.2 hlt, Option.map_eq_some_iff]
        constructor
        · rintro ⟨rest, hrest, rfl, hsmall⟩
          exact ⟨first + rest, ⟨rest, hrest, rfl⟩, (Nat.add_assoc ..).symm, hsmall⟩
        · rintro ⟨_, ⟨rest, hrest, rfl⟩, rfl, hsmall⟩
          exact ⟨rest, hrest, Nat.add_assoc .., hsmall⟩
      · -- what is there already passes the limit, and the terms behind take nothing away
        simp only [if_neg hlt, reduceCtorEq, false_iff, Option.map_eq_some_iff]
        rintro ⟨_, ⟨rest, -, rfl⟩, rfl, hsmall⟩
        omega

theorem Expr.exact_of_terms {constant : Nat} {terms : List Term} (hconstant : constant < wordLimit)
    (h : ∀ term ∈ terms, term.Exact data) : (Expr.sum constant terms).Exact data := by
  intro value
  rw [Expr.eval, Expr.value?, Term.sumFrom_eq_ok_iff h hconstant, Option.map_eq_some_iff]
  constructor
  · rintro ⟨total, htotal, hvalue, hlt⟩
    exact ⟨⟨total, htotal, hvalue⟩, hlt⟩
  · rintro ⟨⟨total, htotal, hvalue⟩, hlt⟩
    exact ⟨total, htotal, hvalue, hlt⟩

/-- A position function is applied to the number of its default. -/
theorem Term.exact_position {default : Expr} (h : default.Exact data)
    (function : PositionFunction) : (Term.position function default).Exact data := by
  intro value
  rw [Term.eval, Term.value?]
  constructor
  · intro heval
    split at heval
    · rename_i found hfound
      obtain ⟨hvalue, hlt⟩ := (h found).1 hfound
      obtain rfl := Except.ok.inj heval
      rw [hvalue, Option.bind_some, if_pos hlt]
    · cases heval
  · intro hvalue
    obtain ⟨found, hfound, hvalue⟩ := Option.bind_eq_some_iff.1 hvalue
    obtain ⟨hlt, hvalue⟩ := Option.ite_none_right_eq_some.1 hvalue
    obtain rfl := Option.some.inj hvalue
    rw [(h found).2 ⟨hfound, hlt⟩]

/-- What is left of the buffer is counted from the number of the start. -/
theorem Term.exact_remaining {start : Expr} (h : start.Exact data) :
    (Term.remaining start).Exact data := by
  intro value
  rw [Term.eval, Term.value?]
  constructor
  · intro heval
    split at heval
    · rename_i found hfound
      obtain ⟨hvalue, hlt⟩ := (h found).1 hfound
      split at heval
      · rename_i hle
        obtain rfl := Except.ok.inj heval
        rw [hvalue, Option.bind_some, if_pos ⟨hlt, hle⟩]
      · cases heval
    · cases heval
  · intro hvalue
    obtain ⟨found, hfound, hvalue⟩ := Option.bind_eq_some_iff.1 hvalue
    obtain ⟨⟨hlt, hle⟩, hvalue⟩ := Option.ite_none_right_eq_some.1 hvalue
    obtain rfl := Option.some.inj hvalue
    rw [(h found).2 ⟨hfound, hlt⟩]
    exact if_pos hle

end Exact

mutual

/-- Expressions of any depth are computed exactly. -/
theorem Expr.InWords.exact {expr : Expr} (data : Bytes) : expr.InWords → expr.Exact data
  | .sum bounded each => Expr.exact_of_terms bounded fun term hmem => (each term hmem).exact data

theorem Term.InWords.exact {term : Term} (data : Bytes) : term.InWords → term.Exact data
  | .sizeOf _ function => fun value => by
    rw [Term.eval, Term.value?, Except.ok.injEq, Option.some.injEq]
  | .position function inner => Term.exact_position (inner.exact data) function
  | .remaining inner => Term.exact_remaining (inner.exact data)

end

/-- A start that lies inside a buffer of 64-bit length is a 64-bit number. -/
theorem Term.value?_remaining {data : Bytes} (h : data.length < wordLimit) (start : Expr) :
    (Term.remaining start).value? data = (start.value? data).bind fun found =>
      if found ≤ data.length then some (data.length - found) else none := by
  rw [Term.value?]
  congr 1
  funext found
  by_cases hle : found ≤ data.length
  · rw [if_pos ⟨Nat.lt_of_le_of_lt hle h, hle⟩, if_pos hle]
  · rw [if_neg fun hboth => hle hboth.2, if_neg hle]

/-! ## Sums of expressions -/

namespace Expr

variable {data : Bytes} {a b : Expr} {x y : Nat}

/-- The number of an expression is no smaller than its constant. -/
theorem constant_le_of_eval (h : a.eval data = .ok x) : a.constant ≤ x := by
  rw [eval_eq] at h
  obtain ⟨value, rfl, -⟩ := Term.sumFrom_shift h
  exact Nat.le_add_right _ _

/-- Expressions whose numbers have a 64-bit sum are added without overflow. -/
theorem checkedPlus_eq_ok (ha : a.eval data = .ok x) (hb : b.eval data = .ok y)
    (hlt : x + y < wordLimit) : a.checkedPlus b = .ok (a.plus b) := by
  have hconstants : a.constant + b.constant < wordLimit :=
    Nat.lt_of_le_of_lt (Nat.add_le_add (constant_le_of_eval ha) (constant_le_of_eval hb)) hlt
  exact if_pos hconstants

/-- An expression has a number on a buffer exactly if it stands for a 64-bit number there, and it
has that one; whenever it has none, a range is to blame. What remains behind an offset is defined up
to the end of the buffer. A static expression has its constant on every buffer. Two expressions are
added in either order, if their numbers have a 64-bit sum, and the sum has that number. -/
theorem evaluates_exactly (h : a.InWords) (data : Bytes) :
    (∀ value, a.eval data = .ok value ↔ a.value? data = some value ∧ value < wordLimit) ∧
    (∀ error, a.eval data = .error error → ∃ start stop length,
      error = .outOfBounds start stop length) ∧
    (data.length < wordLimit → ∀ start : Expr,
      (Term.remaining start).value? data = (start.value? data).bind fun found =>
        if found ≤ data.length then some (data.length - found) else none) ∧
    (∀ value, a.static? = some value → a.eval data = .ok value) ∧
    ∀ (b : Expr) (x y : Nat), a.eval data = .ok x → b.eval data = .ok y → x + y < wordLimit →
      (a.checkedPlus b = .ok (a.plus b) ∧ (a.plus b).eval data = .ok (x + y)) ∧
      b.checkedPlus a = .ok (b.plus a) ∧ (b.plus a).eval data = .ok (x + y) := by
  refine ⟨h.exact data, fun _ => eval_error a, Term.value?_remaining, fun value hstatic => ?_,
    fun b x y ha hb hlt => ⟨⟨checkedPlus_eq_ok ha hb hlt, eval_plus ha hb hlt⟩, ?_⟩⟩
  · rw [static?_eq_some_iff.1 hstatic]
    exact eval_literal data value
  · rw [Nat.add_comm] at hlt ⊢
    exact ⟨checkedPlus_eq_ok hb ha hlt, eval_plus hb ha hlt⟩

end Expr

/-- Two bytes, a padded field of the length that the first byte says, and what is left behind four
bytes. -/
def paddedEnd : Expr :=
  .sum 2 [.position ⟨"padded", fun _ default => default + 3⟩
      (.sum 1 [.sizeOf "options" ⟨"first", fun data => (data.headD 0).toNat⟩]),
    .remaining (.literal 4)]

theorem paddedEnd_evaluates :
    paddedEnd.InWords ∧ paddedEnd.eval [2, 0, 0, 0, 0, 0] = .ok 10 ∧
      ((Expr.literal (maxWord - 10)).plus paddedEnd).eval [2, 0, 0, 0, 0, 0] = .ok maxWord ∧
      ∀ value, paddedEnd.eval [2, 0] ≠ .ok value := by
  have hwords : paddedEnd.InWords := by
    refine .sum (by decide) fun term hmem => ?_
    rcases List.mem_cons.1 hmem with rfl | hmem
    · refine .position _ (.sum (by decide) fun term hmem => ?_)
      obtain rfl := List.mem_singleton.1 hmem
      exact .sizeOf _ _
    · obtain rfl := List.mem_singleton.1 hmem
      exact .remaining (.literal (by decide))
  obtain ⟨hvalue, -, -, -, hplus⟩ := Expr.evaluates_exactly hwords [2, 0, 0, 0, 0, 0]
  obtain ⟨hvalue', -⟩ := Expr.evaluates_exactly hwords [2, 0]
  have heval : paddedEnd.eval [2, 0, 0, 0, 0, 0] = .ok 10 := (hvalue 10).2 ⟨by rfl, by decide⟩
  obtain ⟨-, -, hsum⟩ :=
    hplus (.literal (maxWord - 10)) 10 (maxWord - 10) heval (Expr.eval_literal _ _) (by decide)
  refine ⟨hwords, heval, hsum, fun value hshort => ?_⟩
  have hnone : paddedEnd.value? [2, 0] = none := by rfl
  rw [hvalue', hnone] at hshort
  cases hshort.1

end PacketLayout
