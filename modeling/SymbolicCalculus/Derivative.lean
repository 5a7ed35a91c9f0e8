import SymbolicCalculus.Expr

/-! The derivative of an expression by one of its variables, as the rules of differentiation write
it down: nothing is simplified, and every other variable counts as a constant. An exponent counts
as a constant too, also where the variable occurs in it. -/
namespace SymbolicCalculus
variable {α : Type} [Scalar α]

namespace Expr

def ofNat (n : Nat) : Expr α := const (Scalar.ofNat n)

def outerDerivative (f : UnaryOp) (a da : Expr α) : Expr α :=
  match f with
  | .neg => unary .neg da
  | .sin => binary .mul (unary .cos a) da
  | .cos => binary .mul (unary .neg (unary .sin a)) da
  | .ln => binary .div da a
  | .exp => binary .mul (unary .exp a) da

def joinedDerivative (op : BinaryOp) (a b da db : Expr α) : Expr α :=
  match op with
  | .add => binary .add da db
  | .sub => binary .sub da db
  | .mul => binary .add (binary .mul da b) (binary .mul a db)
  | .div => binary .div (binary .sub (binary .mul da b) (binary .mul a db)) (binary .pow b (ofNat 2))
  | .pow => binary .mul (binary .mul b (binary .pow a (binary .sub b (ofNat 1)))) da

def derivative (x : String) : Expr α → Expr α
  | const _ => ofNat 0
  | var name => ofNat (if name = x then 1 else 0)
  | binary op a b => joinedDerivative op a b (a.derivative x) (b.derivative x)
  | unary f a => outerDerivative f a (a.derivative x)

end Expr
end SymbolicCalculus
