import SymbolicCalculus.Operator

/-! What an expression needs from the numbers it is over. Computing with them and writing them
down are separate: the rules of calculus ask only for the operations, and no law of arithmetic is
assumed of these, so that floating-point numbers are numbers here too. -/
namespace SymbolicCalculus

class Scalar (α : Type) where
  ofNat : Nat → α
  binary : BinaryOp → α → α → α
  unary : UnaryOp → α → α

inductive LiteralFault where
  | unsupported
  | invalid
  deriving DecidableEq, Repr

class Numeral (α : Type) where
  typeName : String
  ofLiteral : String → Except LiteralFault α
  display : α → String

end SymbolicCalculus
