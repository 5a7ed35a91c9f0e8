import SymbolicCalculus.Expr
import SymbolicCalculus.Failure
import SymbolicCalculus.Items
import SymbolicCalculus.Suggestion

/-! Expressions read from the items of a text, looking one item ahead.

An expression is a chain of terms joined by `+` and `-`, a term a chain of factors joined by `*` and
`/`, both growing to the right around what was read first. A factor is a primary, or a primary raised
to a factor. A primary is a number, a variable, a function with its argument, an expression in
parentheses, or a minus and a primary. -/
namespace SymbolicCalculus

structure Remaining where
  items : List Item
  stop : Nat
  deriving DecidableEq, Repr

def Remaining.ofText (text : String) : Remaining := ⟨(Cursor.ofText text).items,text.utf8ByteSize⟩

class Supply (σ : Type) where
  peek : EStateM Failure σ PlacedToken
  advance : EStateM Failure σ Unit
  stop : σ → Nat

/- A failed reading leaves what was not yet consumed, so that reading can go on behind the fault. -/
abbrev Reading (β : Type) := EStateM Failure Remaining β

namespace Grammar

def fail {σ β : Type} (cause : Cause) (spans : List Span) : EStateM Failure σ β := throw ⟨cause,spans⟩

def peek : Reading PlacedToken := fun r =>
  match r.items with
  | [] => .ok ⟨.endOfInput,⟨r.stop,r.stop⟩⟩ r
  | ⟨.token t,span⟩ :: _ => .ok ⟨t,span⟩ r
  | ⟨.stray c,span⟩ :: rest => .error ⟨.unexpectedCharacter c,[span]⟩ ⟨rest,r.stop⟩

def advance : Reading Unit := fun r => .ok () ⟨r.items.tail,r.stop⟩

instance : Supply Remaining := ⟨peek,advance,Remaining.stop⟩

inductive Nested where
  | group
  | argument
  | exponent
  | operand
  deriving DecidableEq, Repr

variable {α σ : Type}

def next [Supply σ] : EStateM Failure σ PlacedToken := do
  let here ← Supply.peek
  Supply.advance
  return here

def expectClose [Supply σ] (opening : Span) : EStateM Failure σ Unit := do
  let here ← Supply.peek
  match here.token with
  | .rightParen => Supply.advance
  | _ => fail (.expectedToken ")") [here.span,opening]

def number [Numeral α] (digits : String) (span : Span) : EStateM Failure σ (Expr α) :=
  match Numeral.ofLiteral digits with
  | .ok value => return .const value
  | .error .unsupported => fail (.unsupportedLiteral (Numeral.typeName α)) [span]
  | .error .invalid => fail (.invalidNumber digits) [span]

/- The name of a function is looked up behind its argument, so that a fault in the argument is
reported before an unknown name. -/
def call (name : String) (span : Span) (operand : Expr α) : EStateM Failure σ (Expr α) :=
  match UnaryOp.ofName? name with
  | some f => return .unary f operand
  | none => fail (.unknownFunction name (suggestions name)) [span]

section level
variable [Numeral α] [Supply σ] (limit : Nat) (inside : Nested → EStateM Failure σ (Expr α))

def primary : EStateM Failure σ (Expr α) := do
  let here ← next
  match here.token with
  | .number digits => number digits here.span
  | .variable name => return .var name
  | .function name => do
      let operand ← inside .argument
      call name here.span operand
  | .leftParen => do
      let e ← inside .group
      expectClose here.span
      return e
  | .operator .sub => do
      let operand ← inside .operand
      return .unary .neg operand
  | .endOfInput => fail .unexpectedEnd [here.span]
  | token => fail (.unexpectedToken "an expression" token.describe) [here.span]

def factor : EStateM Failure σ (Expr α) := do
  let base ← primary inside
  let here ← Supply.peek
  match here.token with
  | .operator .pow => do
      Supply.advance
      let exponent ← inside .exponent
      return .binary .pow base exponent
  | _ => return base

def joinsTerms : BinaryOp → Bool
  | .add => true
  | .sub => true
  | _ => false

def joinsFactors : BinaryOp → Bool
  | .mul => true
  | .div => true
  | _ => false

/- A chain leans to the left, one level of the tree for each of its operators. One that grows taller
than the limit is refused at the operator that was too many. -/
def chain (joins : BinaryOp → Bool) (operand : EStateM Failure σ (Expr α)) (left : Expr α) :
    EStateM Failure σ (Expr α) := do
  let here ← Supply.peek
  match here.token.operator?.filter joins with
  | none => return left
  | some op => do
      Supply.advance
      let right ← operand
      if _tall : limit < (Expr.binary op left right).depth then fail (.nestingLimit limit) [here.span]
      else chain joins operand (.binary op left right)
termination_by limit - left.depth
decreasing_by simp only [Expr.depth] at *; omega

def term : EStateM Failure σ (Expr α) := do
  let first ← factor inside
  chain limit joinsFactors (factor inside) first

def expression : EStateM Failure σ (Expr α) := do
  let first ← term limit inside
  chain limit joinsTerms (term limit inside) first

def argument : EStateM Failure σ (Expr α) := do
  let here ← next
  match here.token with
  | .leftParen => do
      let e ← expression limit inside
      expectClose here.span
      return e
  | token => fail (.unexpectedToken "`(`" token.describe) [here.span]

def part : Nested → EStateM Failure σ (Expr α)
  | .group => expression limit inside
  | .argument => argument limit inside
  | .exponent => factor inside
  | .operand => primary inside

end level

def refuse [Supply σ] (limit : Nat) : EStateM Failure σ (Expr α) := do
  let here ← Supply.peek
  fail (.nestingLimit limit) [here.span]

def inside [Numeral α] (limit : Nat) : Nat → Nested → Reading (Expr α)
  | 0,_ => refuse limit
  | room+1,nested => part limit (inside limit room) nested

end Grammar

/-- How much of a text an expression has to take: whatever comes first, or all of it. -/
inductive Extent where
  | first
  | whole
  deriving DecidableEq, Repr

def Extent.read {α σ : Type} [Supply σ] (m : EStateM Failure σ (Expr α)) : Extent → EStateM Failure σ (Expr α)
  | .first => m
  | .whole => do
      let e ← m
      let here ← Supply.peek
      match here.token with
      | .endOfInput => return e
      | _ => Grammar.fail .expectedEnd [⟨here.span.start,Supply.stop (← get)⟩]

def readExpression {α : Type} [Numeral α] (limit : Nat) (extent : Extent) : Reading (Expr α) :=
  extent.read (Grammar.expression limit (Grammar.inside limit limit))

def parse {α : Type} [Numeral α] (limit : Nat) (extent : Extent) (text : String) : Except Failure (Expr α) :=
  match readExpression limit extent (Remaining.ofText text) with
  | .ok e _ => .ok e
  | .error failure _ => .error failure

def defaultLimit : Nat := 256

end SymbolicCalculus
