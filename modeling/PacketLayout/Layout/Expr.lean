import PacketLayout.Access.Error
import PacketLayout.Schema.Capability

/-!
# Offset and size expressions

An expression is a constant plus dynamic terms in order. Sizes known in advance are folded into
the constant, so a static layout has no terms.

* `Expr.eval` computes an expression on a buffer. Its sums stay below `wordLimit`, or it fails.
* `Expr.value?` is the number an expression stands for, without a limit on sums.
* `Expr.text` writes an expression as a formula over the buffer.
-/

namespace PacketLayout

mutual

/-- A constant plus a sum of terms. -/
inductive Expr where
  | sum (constant : Nat) (terms : List Term)

/-- A part of an offset or size that depends on the buffer. -/
inductive Term where
  /-- the size of an earlier field, by its size function -/
  | sizeOf (field : String) (function : SizeFunction)
  /-- a position function, applied to the buffer and a default offset -/
  | position (function : PositionFunction) (default : Expr)
  /-- the bytes that are left in the buffer after an offset -/
  | remaining (start : Expr)

end

namespace Expr

/-- The part that does not depend on the buffer. -/
def constant : Expr → Nat
  | sum constant _ => constant

/-- The parts that depend on the buffer. -/
def terms : Expr → List Term
  | sum _ terms => terms

/-- A fixed number. -/
def literal (value : Nat) : Expr := sum value []

/-- Nothing. -/
def zero : Expr := literal 0

/-- A single term. -/
def ofTerm (term : Term) : Expr := sum 0 [term]

/-- The sum of two expressions: constants first, then the terms of both in order. -/
def plus (a b : Expr) : Expr := sum (a.constant + b.constant) (a.terms ++ b.terms)

/-- An expression plus a fixed number. -/
def plusConstant (a : Expr) (value : Nat) : Expr := sum (a.constant + value) a.terms

/-- The sum of two expressions, if its constant is a 64-bit number. -/
def checkedPlus (a b : Expr) : Except Fault Expr :=
  if a.constant + b.constant < wordLimit then .ok (a.plus b) else .error .addOverflow

/-- No part depends on the buffer. -/
def isStatic (a : Expr) : Bool := a.terms.isEmpty

/-- The number that the expression has on every buffer. -/
def static? (a : Expr) : Option Nat := if a.isStatic then some a.constant else none

@[simp] theorem constant_sum (c : Nat) (ts : List Term) : (sum c ts).constant = c := rfl

@[simp] theorem terms_sum (c : Nat) (ts : List Term) : (sum c ts).terms = ts := rfl

@[simp] theorem constant_literal (n : Nat) : (literal n).constant = n := rfl

@[simp] theorem terms_literal (n : Nat) : (literal n).terms = [] := rfl

@[simp] theorem constant_zero : zero.constant = 0 := rfl

@[simp] theorem terms_zero : zero.terms = [] := rfl

@[simp] theorem constant_ofTerm (t : Term) : (ofTerm t).constant = 0 := rfl

@[simp] theorem terms_ofTerm (t : Term) : (ofTerm t).terms = [t] := rfl

@[simp] theorem constant_plus (a b : Expr) : (a.plus b).constant = a.constant + b.constant := rfl

@[simp] theorem terms_plus (a b : Expr) : (a.plus b).terms = a.terms ++ b.terms := rfl

@[simp] theorem constant_plusConstant (a : Expr) (n : Nat) :
    (a.plusConstant n).constant = a.constant + n := rfl

@[simp] theorem terms_plusConstant (a : Expr) (n : Nat) : (a.plusConstant n).terms = a.terms := rfl

/-- Expressions are determined by their two parts. -/
theorem eq_of_parts {a b : Expr} (hc : a.constant = b.constant) (ht : a.terms = b.terms) :
    a = b := by
  cases a; cases b
  cases hc; cases ht
  rfl

theorem plus_literal (a : Expr) (n : Nat) : a.plus (literal n) = a.plusConstant n :=
  eq_of_parts rfl (List.append_nil _)

theorem static?_eq_some_iff {a : Expr} {n : Nat} : a.static? = some n ↔ a = literal n := by
  cases a with
  | sum c ts =>
    cases ts with
    | nil => simp [static?, isStatic, literal]
    | cons t ts => simp [static?, isStatic, literal]

end Expr

/-! ## Evaluation -/

mutual

/-- The number an expression has on a buffer. -/
def Expr.eval (data : Bytes) : Expr → Except ReadError Nat
  | .sum constant terms => Term.sumFrom data constant terms

/-- The number a term has on a buffer. -/
def Term.eval (data : Bytes) : Term → Except ReadError Nat
  | .sizeOf _ function => .ok (function.run data)
  | .position function default =>
    match default.eval data with
    | .ok default => .ok (function.run data default)
    | .error error => .error error
  | .remaining start =>
    match start.eval data with
    | .ok start =>
      if start ≤ data.length then .ok (data.length - start)
      else .error (.outOfBounds start start data.length)
    | .error error => .error error

/-- The sum of what is already there and the terms in order, as long as it is a 64-bit number. -/
def Term.sumFrom (data : Bytes) (sum : Nat) : List Term → Except ReadError Nat
  | [] => .ok sum
  | term :: terms =>
    match term.eval data with
    | .ok value =>
      if sum + value < wordLimit then Term.sumFrom data (sum + value) terms
      else .error (.outOfBounds sum maxWord data.length)
    | .error error => .error error

end

mutual

/-- The number an expression stands for on a buffer, if every part of it stands for one. -/
def Expr.value? (data : Bytes) : Expr → Option Nat
  | .sum constant terms => (Term.total? data terms).map (constant + ·)

/-- The number a term stands for. A position function needs a 64-bit default, and what remains
after an offset is defined up to the end of the buffer. -/
def Term.value? (data : Bytes) : Term → Option Nat
  | .sizeOf _ function => some (function.run data)
  | .position function default =>
    (default.value? data).bind fun default =>
      if default < wordLimit then some (function.run data default) else none
  | .remaining start =>
    (start.value? data).bind fun start =>
      if start < wordLimit ∧ start ≤ data.length then some (data.length - start) else none

/-- The sum of the terms. -/
def Term.total? (data : Bytes) : List Term → Option Nat
  | [] => some 0
  | term :: terms =>
    (term.value? data).bind fun value => (Term.total? data terms).map (value + ·)

end

/-! ## Text -/

mutual

/-- An expression as a formula. The constant is left out when it is zero and terms follow. -/
def Expr.text : Expr → String
  | .sum constant terms =>
    let shown := if constant = 0 ∧ ¬ terms.isEmpty then [] else [toString constant]
    " + ".intercalate (shown ++ Term.texts terms)

/-- A term as a formula. -/
def Term.text : Term → String
  | .sizeOf _ function => function.name ++ "(buf)"
  | .position function default => function.name ++ "(buf, " ++ default.text ++ ")"
  | .remaining start => "len(buf) - (" ++ start.text ++ ")"

/-- The formulas of terms. -/
def Term.texts : List Term → List String
  | [] => []
  | term :: terms => term.text :: Term.texts terms

end

end PacketLayout
