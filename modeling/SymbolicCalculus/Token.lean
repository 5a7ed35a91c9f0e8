import SymbolicCalculus.Operator

/-! The tokens of an expression and the places where they stand. A place is counted in bytes of the
UTF-8 text, from the first byte of what stands there up to, and not with, the byte after it. -/
namespace SymbolicCalculus

structure Span where
  start : Nat
  stop : Nat
  deriving DecidableEq, Repr

/- A name directly before an opening parenthesis is a function, any other a variable. The end of the
text is a token as well, so that there always is a next one. -/
inductive Token where
  | number (digits : String)
  | variable (name : String)
  | function (name : String)
  | operator (op : BinaryOp)
  | leftParen
  | rightParen
  | endOfInput
  deriving DecidableEq, Repr

def Token.lexeme : Token → String
  | .number digits => digits
  | .variable name => name
  | .function name => name
  | .operator op => op.symbol.toString
  | .leftParen => "("
  | .rightParen => ")"
  | .endOfInput => ""

def Token.category : Token → String
  | .number _ => "number"
  | .variable _ => "variable"
  | .function _ => "function"
  | .operator _ => "operator"
  | .leftParen => "`(`"
  | .rightParen => "`)`"
  | .endOfInput => "end of input"

def Token.describe : Token → String
  | .endOfInput => "end of input"
  | .number digits => "number `" ++ digits ++ "`"
  | .variable name => "variable `" ++ name ++ "`"
  | .function name => "function `" ++ name ++ "`"
  | token => "`" ++ token.lexeme ++ "`"

def Token.operator? : Token → Option BinaryOp
  | .operator op => some op
  | _ => none

structure PlacedToken where
  token : Token
  span : Span
  deriving DecidableEq, Repr

end SymbolicCalculus
