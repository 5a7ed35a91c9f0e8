import Mathlib.Algebra.Group.Units.Defs
import Mathlib.Algebra.Ring.Basic
import SymbolicCalculus.Derivative
import SymbolicCalculus.Evaluation

/-! The value of an expression from the values of its operands. Over numbers with exact arithmetic these
are sums, differences, products, quotients and powers. -/
namespace SymbolicCalculus

/- Numbers with exact arithmetic: the scalar's operations are those of the ring, and a power with a natural
number as its exponent is a repeated product. Nothing is said of other quotients and powers than these, nor
of the four functions. -/
class Exact (R : Type) [Ring R] [Inv R] [Scalar R] : Prop where
  ofNat (n : ℕ) : (Scalar.ofNat n : R) = n
  add (a b : R) : Scalar.binary .add a b = a + b
  sub (a b : R) : Scalar.binary .sub a b = a - b
  mul (a b : R) : Scalar.binary .mul a b = a * b
  div (a b : R) (unit : IsUnit b) : Scalar.binary .div a b = a * b⁻¹
  pow (a : R) (n : ℕ) : Scalar.binary .pow a (n : R) = a ^ n
  neg (a : R) : Scalar.unary .neg a = -a

variable {R : Type} [Scalar R] {context : Bindings R} {s t : Expr R} {a b : R}

theorem evaluateUnary (f : UnaryOp) (operand : s.evaluate context = .ok a) :
    (Expr.unary f s).evaluate context = .ok (Scalar.unary f a) := by
  rw [Expr.evaluate,operand]
  rfl

theorem evaluateBinary (op : BinaryOp) (left : s.evaluate context = .ok a) (right : t.evaluate context = .ok b) :
    (Expr.binary op s t).evaluate context = .ok (Scalar.binary op a b) := by
  rw [Expr.evaluate,left,right]
  rfl

theorem evaluateVariable {name : String} (bound : context.value? name = some a) :
    (Expr.var name).evaluate context = .ok a := by
  rw [Expr.evaluate,bound]

def Expr.valueAt (values : String → R) : Expr R → R
  | const c => c
  | var name => values name
  | binary op left right => Scalar.binary op (left.valueAt values) (right.valueAt values)
  | unary f operand => Scalar.unary f (operand.valueAt values)

theorem evaluateAt {values : String → R} (bound : ∀ name ∈ t.occurrences, context.value? name = some (values name)) :
    t.evaluate context = .ok (t.valueAt values) := by
  induction t with
  | const c => rfl
  | var name => exact evaluateVariable (bound name (List.mem_singleton_self name))
  | binary op left right ihl ihr =>
    have first := ihl fun name member => bound name (List.mem_append_left _ member)
    have second := ihr fun name member => bound name (List.mem_append_right _ member)
    exact evaluateBinary op first second
  | unary f operand ih => exact evaluateUnary f (ih bound)

variable [Ring R] [Inv R] [Exact R]

theorem evaluateNumber (n : ℕ) : (Expr.ofNat n : Expr R).evaluate context = .ok (n : R) := by
  rw [Expr.ofNat,Expr.evaluate,Exact.ofNat]

theorem evaluateSum (left : s.evaluate context = .ok a) (right : t.evaluate context = .ok b) :
    (Expr.binary .add s t).evaluate context = .ok (a + b) := by rw [evaluateBinary .add left right,Exact.add]

theorem evaluateDifference (left : s.evaluate context = .ok a) (right : t.evaluate context = .ok b) :
    (Expr.binary .sub s t).evaluate context = .ok (a - b) := by rw [evaluateBinary .sub left right,Exact.sub]

theorem evaluateProduct (left : s.evaluate context = .ok a) (right : t.evaluate context = .ok b) :
    (Expr.binary .mul s t).evaluate context = .ok (a * b) := by rw [evaluateBinary .mul left right,Exact.mul]

theorem evaluateQuotient (left : s.evaluate context = .ok a) (right : t.evaluate context = .ok b) (unit : IsUnit b) :
    (Expr.binary .div s t).evaluate context = .ok (a * b⁻¹) := by
  rw [evaluateBinary .div left right,Exact.div a b unit]

theorem evaluatePower {n : ℕ} (left : s.evaluate context = .ok a) (right : t.evaluate context = .ok (n : R)) :
    (Expr.binary .pow s t).evaluate context = .ok (a ^ n) := by rw [evaluateBinary .pow left right,Exact.pow]

theorem evaluateNegation (operand : s.evaluate context = .ok a) :
    (Expr.unary .neg s).evaluate context = .ok (-a) := by rw [evaluateUnary .neg operand,Exact.neg]

end SymbolicCalculus
