import SymbolicCalculus.Token

/-! What can be wrong with an expression, and what a reader is told about it. Each cause has one
message, a label for each place it points at, and for some an advice on how to go on. -/
namespace SymbolicCalculus

inductive Cause where
  | unexpectedCharacter (character : Char)
  | unexpectedEnd
  | unexpectedToken (expected found : String)
  | expectedToken (expected : String)
  | expectedEnd
  | unknownFunction (name : String) (suggestions : List String)
  | unsupportedLiteral (typeName : String)
  | invalidNumber (lexeme : String)
  | nestingLimit (limit : Nat)
  | unboundVariable (name : String)
  deriving DecidableEq, Repr

structure Failure where
  cause : Cause
  spans : List Span
  deriving DecidableEq, Repr

def quoted (text : String) : String := "`" ++ text ++ "`"

def Cause.message : Cause → String
  | .unexpectedCharacter character => "unexpected character " ++ quoted character.toString
  | .unexpectedEnd => "unexpected end of input"
  | .unexpectedToken _ found => "unexpected " ++ found
  | .expectedToken expected => "expected " ++ quoted expected
  | .expectedEnd => "expected end of input"
  | .unknownFunction name _ => "the " ++ quoted name ++ " function does not exist"
  | .unsupportedLiteral typeName => "numeric literals cannot be parsed as " ++ typeName ++ " numbers"
  | .invalidNumber lexeme => quoted lexeme ++ " is not a valid number"
  | .nestingLimit _ => "maximum nesting depth exceeded"
  | .unboundVariable name => quoted name ++ " is not defined"

def Cause.labels : Cause → List String
  | .unexpectedCharacter _ => ["this character"]
  | .unexpectedEnd => ["you might need to add another expression here"]
  | .unexpectedToken expected _ => ["I expected to see " ++ expected ++ " here"]
  | .expectedToken expected => ["add " ++ quoted expected ++ " here", "to close this"]
  | .expectedEnd => ["I could not understand the remaining expression here"]
  | .unknownFunction _ _ => ["this function"]
  | .unsupportedLiteral _ => ["this literal"]
  | .invalidNumber _ => ["this literal"]
  | .nestingLimit _ => ["this expression is nested too deeply"]
  | .unboundVariable _ => ["this variable"]

def suggestionHelp : List String → String
  | [] => "the available functions are: " ++ ", ".intercalate (functions.map UnaryOp.word)
  | [name] => "did you mean the " ++ quoted name ++ " function?"
  | names => "did you mean one of these functions? " ++ ", ".intercalate (names.map quoted)

def Cause.help : Cause → Option String
  | .unexpectedCharacter _ =>
      some "expressions may only contain numbers, names, parentheses, and the operators + - * / ^"
  | .unknownFunction _ suggestions => some (suggestionHelp suggestions)
  | .unsupportedLiteral _ =>
      some "build the expression from variables and bind their values when evaluating instead"
  | .invalidNumber _ => some "add digits before or after the decimal point, such as 0.5"
  | .nestingLimit limit => some ("expressions may be nested at most " ++ limit.repr ++ " levels deep")
  | .unboundVariable name => some ("to define it, bind a value: " ++ name ++ "=<value>")
  | _ => none

def Failure.labels (failure : Failure) : List String := failure.cause.labels.take failure.spans.length

def Failure.message (failure : Failure) : String := failure.cause.message

def Failure.headline (failure : Failure) : String := "Error: " ++ failure.message

def Failure.help (failure : Failure) : Option String := failure.cause.help

end SymbolicCalculus
