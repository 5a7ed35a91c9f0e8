import SymbolicCalculus.Bindings
import SymbolicCalculus.Expr
import SymbolicCalculus.Failure

/-! The value of an expression. Operands are computed from left to right, so the first variable
without a value is the one that is reported. -/
namespace SymbolicCalculus
variable {α : Type}

def Expr.evaluate [Scalar α] (context : Bindings α) : Expr α → Except Failure α
  | const value => .ok value
  | var name => match context.value? name with
    | some value => .ok value
    | none => .error ⟨.unboundVariable name,[]⟩
  | binary op left right => do
      let a ← left.evaluate context
      let b ← right.evaluate context
      return Scalar.binary op a b
  | unary op operand => do
      let a ← operand.evaluate context
      return Scalar.unary op a

end SymbolicCalculus
