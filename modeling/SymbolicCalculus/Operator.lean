/-! The operators of an expression. Five join two operands, and the minus among them also stands
before a single operand; four more are functions called by name. -/
namespace SymbolicCalculus

inductive BinaryOp where
  | add
  | sub
  | mul
  | div
  | pow
  deriving DecidableEq, Repr

def BinaryOp.symbol : BinaryOp → Char
  | .add => '+'
  | .sub => '-'
  | .mul => '*'
  | .div => '/'
  | .pow => '^'

def BinaryOp.ofSymbol? : Char → Option BinaryOp
  | '+' => some .add
  | '-' => some .sub
  | '*' => some .mul
  | '/' => some .div
  | '^' => some .pow
  | _ => none

theorem symbolRead (op : BinaryOp) : BinaryOp.ofSymbol? op.symbol = some op := by
  cases op <;> rfl

theorem symbolWritten {c : Char} {op : BinaryOp} (read : BinaryOp.ofSymbol? c = some op) : op.symbol = c := by
  unfold BinaryOp.ofSymbol? at read
  split at read <;> first | (cases Option.some.inj read; rfl) | contradiction

def BinaryOp.title : BinaryOp → String
  | .add => "Add"
  | .sub => "Subtract"
  | .mul => "Multiply"
  | .div => "Divide"
  | .pow => "Power"

inductive UnaryOp where
  | neg
  | sin
  | cos
  | ln
  | exp
  deriving DecidableEq, Repr

def UnaryOp.word : UnaryOp → String
  | .neg => "-"
  | .sin => "sin"
  | .cos => "cos"
  | .ln => "ln"
  | .exp => "exp"

def UnaryOp.title : UnaryOp → String
  | .neg => "Negate"
  | .sin => "Sin"
  | .cos => "Cos"
  | .ln => "Ln"
  | .exp => "Exp"

def functions : List UnaryOp := [.sin, .cos, .ln, .exp]

def UnaryOp.ofName? (name : String) : Option UnaryOp := functions.find? (fun f => f.word == name)

end SymbolicCalculus
