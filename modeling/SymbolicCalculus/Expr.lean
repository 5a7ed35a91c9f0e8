import SymbolicCalculus.Bindings
import SymbolicCalculus.Scalar

/-! Expression trees, and what can be read off a tree without computing it: its written form,
its size, its variables and its parts. -/
namespace SymbolicCalculus

inductive Expr (α : Type) where
  | const (value : α)
  | var (name : String)
  | binary (op : BinaryOp) (left right : Expr α)
  | unary (op : UnaryOp) (operand : Expr α)
  deriving DecidableEq, Repr

namespace Expr
variable {α : Type}

def depth : Expr α → Nat
  | const _ => 1
  | var _ => 1
  | binary _ left right => max left.depth right.depth + 1
  | unary _ operand => operand.depth + 1

def count : Expr α → Nat
  | const _ => 1
  | var _ => 1
  | binary _ left right => left.count + right.count + 1
  | unary _ operand => operand.count + 1

/-- Every join of two operands is parenthesized, and so is what a function or a minus applies to;
no rule of precedence is needed to read the result. -/
def render [Numeral α] : Expr α → String
  | const value => Numeral.display value
  | var name => name
  | binary op left right => "(" ++ left.render ++ " " ++ op.symbol.toString ++ " " ++ right.render ++ ")"
  | unary op operand => op.word ++ "(" ++ operand.render ++ ")"

def occurrences : Expr α → List String
  | const _ => []
  | var name => [name]
  | binary _ left right => left.occurrences ++ right.occurrences
  | unary _ operand => operand.occurrences

def names (e : Expr α) : List String := (Bindings.ofList (e.occurrences.map (fun name => (name,())))).names

theorem nameOccurs (e : Expr α) (x : String) : x ∈ e.names ↔ x ∈ e.occurrences := by
  rw [names,Bindings.boundName,Bindings.valueOfList]
  simp [valueIn]

def children : Expr α → List (Expr α)
  | const _ => []
  | var _ => []
  | binary _ left right => [left,right]
  | unary _ operand => [operand]

def isLeaf (e : Expr α) : Bool := e.children.isEmpty

def outline [Numeral α] : Expr α → List String
  | const value => ["Const " ++ Numeral.display value]
  | var name => ["Var " ++ name]
  | binary op left right => op.title :: (left.outline ++ right.outline)
  | unary op operand => op.title :: operand.outline

def map {β : Type} (f : α → β) : Expr α → Expr β
  | const value => const (f value)
  | var name => var name
  | binary op left right => binary op (left.map f) (right.map f)
  | unary op operand => unary op (operand.map f)

/- Sameness of trees takes equality of constants from the scalar, under which a constant need not
equal itself. -/
def same [BEq α] : Expr α → Expr α → Bool
  | const a, const b => a == b
  | var a, var b => a == b
  | binary p a b, binary q c d => p == q && a.same c && b.same d
  | unary p a, unary q b => p == q && a.same b
  | _, _ => false

end Expr
end SymbolicCalculus
