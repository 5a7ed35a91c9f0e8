import SymbolicCalculus.RealNumber
import SymbolicCalculus.Shell

/-! The program as it is called. A call that fails prints nothing but its complaint. -/
namespace SymbolicCalculus.CommandLine

inductive Request where
  | evaluate (expression : String) (bindings : List String)
  | derivative (expression name : String)
  | dialogue
  | usage
  deriving DecidableEq, Repr

def Request.ofArguments : List String → Request
  | "--eval" :: expression :: bindings => .evaluate expression bindings
  | "--diff" :: expression :: "--by" :: name :: _ => .derivative expression name
  | ["--repl"] => .dialogue
  | _ => .usage

def usage : List String :=
  ["Usage:",
    "  symdiff --eval \"expression\" var1=value1 var2=value2 ...",
    "  symdiff --diff \"expression\" --by var1",
    "  symdiff --repl"]

structure Outcome where
  succeeds : Bool
  printed : Shell.Printed
  deriving DecidableEq, Repr

def Outcome.success (out : List String) : Outcome := ⟨true,⟨out,[]⟩⟩

def Outcome.failure (complaint : String) : Outcome := ⟨false,⟨[],[complaint]⟩⟩

def binding? (argument : String) : Option (String × Float) := do
  let (name,value) ← Line.splitOnce? (· == '=') argument.toList
  let x ← RealNumber.ofText? (String.ofList (Line.trim value))
  return (String.ofList (Line.trim name),x)

def bindings (context : Bindings Float) : List String → Except String (Bindings Float)
  | [] => .ok context
  | argument :: rest => match binding? argument with
    | some (name,value) => bindings (context.bind name value) rest
    | none => .error argument

def evaluate (expression : String) (arguments : List String) : Outcome :=
  match bindings .empty arguments with
  | .error argument => .failure ("Invalid variable format: " ++ argument)
  | .ok context => match Shell.evaluateText context expression with
    | .ok value => .success ["Result: " ++ Numeral.display value]
    | .error failure => .failure failure.headline

def derivative (expression name : String) : Outcome :=
  match (parse defaultLimit .whole expression : Except Failure (Expr Float)) with
  | .ok e => .success ["Derivative: " ++ (e.derivative name).render]
  | .error failure => .failure failure.headline

def run (arguments input : List String) : Outcome :=
  match Request.ofArguments arguments with
  | .evaluate expression rest => evaluate expression rest
  | .derivative expression name => derivative expression name
  | .dialogue =>
      let answers := Shell.dialogue (.empty : Bindings Float) input
      ⟨true,⟨answers.flatMap (·.out),answers.flatMap (·.err)⟩⟩
  | .usage => ⟨false,⟨usage,[]⟩⟩

end SymbolicCalculus.CommandLine
