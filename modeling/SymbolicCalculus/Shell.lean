import SymbolicCalculus.Derivative
import SymbolicCalculus.Evaluation
import SymbolicCalculus.Grammar
import SymbolicCalculus.Line

/-! A dialogue in lines. A line binds a name to the value of an expression, asks for a derivative,
asks for the bound names, or is an expression to be evaluated. -/
namespace SymbolicCalculus.Shell
open Line

inductive Command where
  | assign (name expression : String)
  | derivative (name expression : String)
  | listing
  | evaluate (expression : String)
  deriving DecidableEq, Repr

inductive Misuse where
  | usage
  | invalidName (name : String)
  | unknownCommand (line : String)
  deriving DecidableEq, Repr

def Misuse.message : Misuse → String
  | .usage => "usage: :diff <var> <expression>"
  | .invalidName name => quoted name ++ " is not a valid variable name"
  | .unknownCommand line => "unknown command " ++ quoted line

def isIdentifier : List Char → Bool
  | [] => false
  | c :: rest => c.isAlpha && rest.all isNameChar

def named (name : List Char) (command : String → Command) : Except Misuse Command :=
  if isIdentifier name then .ok (command (String.ofList name)) else .error (.invalidName (String.ofList name))

/- The command of a line without blank space around it. What follows the word for a derivative need
not be set off from it. No expression has an equals sign, so one always makes an assignment. -/
def Command.ofLine (line : List Char) : Except Misuse Command :=
  if line = ":vars".toList then .ok .listing
  else match ":diff".toList.isPrefixOf? line with
    | some rest => match splitOnce? isWhite (trimStart rest) with
      | some (name,expression) => named name (.derivative · (String.ofList (trim expression)))
      | none => .error .usage
    | none =>
        if line.head? = some ':' then .error (.unknownCommand (String.ofList line))
        else match splitOnce? (· == '=') line with
          | some (name,expression) => named (trim name) (.assign · (String.ofList (trim expression)))
          | none => .ok (.evaluate (String.ofList line))

structure Printed where
  out : List String
  err : List String
  deriving DecidableEq, Repr

variable {α : Type} [Scalar α] [Numeral α]

def evaluateText (context : Bindings α) (text : String) : Except Failure α := do
  let e ← parse defaultLimit .whole text
  e.evaluate context

def bindingText (name : String) (value : α) : String := name ++ " = " ++ Numeral.display value

def execute (context : Bindings α) : Command → Printed × Bindings α
  | .listing => (⟨context.entries.map (fun entry => bindingText entry.1 entry.2),[]⟩,context)
  | .evaluate text => match evaluateText context text with
    | .ok value => (⟨[Numeral.display value],[]⟩,context)
    | .error failure => (⟨[],[failure.headline]⟩,context)
  | .assign name text => match evaluateText context text with
    | .ok value => (⟨[bindingText name value],[]⟩,context.bind name value)
    | .error failure => (⟨[],[failure.headline]⟩,context)
  | .derivative name text => match (parse defaultLimit .whole text : Except Failure (Expr α)) with
    | .ok e => (⟨[(e.derivative name).render],[]⟩,context)
    | .error failure => (⟨[],[failure.headline]⟩,context)

def enter (context : Bindings α) (line : String) : Printed × Bindings α :=
  match trim line.toList with
  | [] => (⟨[],[]⟩,context)
  | cs => match Command.ofLine cs with
    | .ok command => execute context command
    | .error misuse => (⟨[],[misuse.message]⟩,context)

def dialogue (context : Bindings α) : List String → List Printed
  | [] => []
  | line :: rest => (enter context line).1 :: dialogue (enter context line).2 rest

end SymbolicCalculus.Shell
