import SymbolicCalculus.ComplexNumber
import SymbolicCalculus.Expr

/-! What is reported of an expression and of its value. A tree with very many nodes is reported
without its written form. A value that took a power or a function to compute is reported with
twelve digits, for the last digits of these depend on the machine; a complex value always is. -/
namespace SymbolicCalculus
variable {α : Type}

structure Summary where
  depth : Nat
  count : Nat
  render : Option String
  deriving DecidableEq, Repr

def renderLimit : Nat := 3000

namespace Expr

def summary [Numeral α] (e : Expr α) : Summary :=
  ⟨e.depth,e.count,if e.count ≤ renderLimit then some e.render else none⟩

def isArithmetic : Expr α → Bool
  | const _ => true
  | var _ => true
  | binary op left right => op != .pow && left.isArithmetic && right.isArithmetic
  | unary op operand => op == .neg && operand.isArithmetic

end Expr

inductive Figure where
  | exact (text : String)
  | rounded (text : String)
  | roundedPair (re im : String)
  deriving DecidableEq, Repr

class Reported (α : Type) where
  figure : Expr α → α → Figure

instance : Reported Float where
  figure e value :=
    if e.isArithmetic then .exact (RealNumber.text value) else .rounded (RealNumber.roundedText value)

namespace ComplexNumber

/- A part that is lost beside the other one is noise of the computation, and is written as zero. -/
def partText (z : ComplexNumber) (part : Float) : String :=
  let larger := if z.re.abs < z.im.abs then z.im.abs else z.re.abs
  if z.re.isFinite && z.im.isFinite && part.abs ≤ 1e-12 * larger then "0"
  else RealNumber.roundedText part

end ComplexNumber

instance : Reported ComplexNumber where
  figure _ z := .roundedPair (z.partText z.re) (z.partText z.im)

end SymbolicCalculus
