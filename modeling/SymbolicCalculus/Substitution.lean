import SymbolicCalculus.Expr

/-! A value put in for a variable, at every place where the variable stands. -/
namespace SymbolicCalculus
variable {α : Type}

def Expr.substitute (x : String) (value : α) : Expr α → Expr α
  | const c => const c
  | var name => if name = x then const value else var name
  | binary op left right => binary op (left.substitute x value) (right.substitute x value)
  | unary f operand => unary f (operand.substitute x value)

end SymbolicCalculus
