import SymbolicCalculus.Decimal
import SymbolicCalculus.DecimalReading
import SymbolicCalculus.Scalar

/-! Real numbers as floating-point numbers. Out of its domain an operation gives an infinity or a
number that is none, never a failure. -/
namespace SymbolicCalculus.RealNumber
open Binary64 (infinite notANumber toFloat isNegative code)

instance : Scalar Float where
  ofNat n := Float.ofNat n
  binary
    | .add => fun a b => a + b
    | .sub => fun a b => a - b
    | .mul => fun a b => a * b
    | .div => fun a b => a / b
    | .pow => Float.pow
  unary
    | .neg => fun a => -a
    | .sin => Float.sin
    | .cos => Float.cos
    | .ln => Float.log
    | .exp => Float.exp

def signText (x : Float) : List Char := if isNegative x then ['-'] else []

def text (x : Float) : String :=
  if infinite < code x then "NaN"
  else if code x = infinite then String.ofList (signText x ++ "inf".toList)
  else String.ofList (signText x ++ Decimal.positionalText (code x))

def roundedText (x : Float) : String :=
  if infinite < code x then "NaN"
  else if code x = infinite then String.ofList (signText x ++ "inf".toList)
  else String.ofList (signText x ++ Decimal.scientificText (code x))

def readUnsigned? (negative : Bool) (cs : List Char) : Option Float :=
  let word := String.ofList (cs.map Char.toLower)
  if word = "inf" ∨ word = "infinity" then some (toFloat negative infinite)
  else if word = "nan" then some (toFloat negative notANumber)
  else (Decimal.readCode? cs).map (toFloat negative)

def ofText? (text : String) : Option Float :=
  match text.toList with
  | '-' :: cs => readUnsigned? true cs
  | '+' :: cs => readUnsigned? false cs
  | cs => readUnsigned? false cs

instance : Numeral Float where
  typeName := "real"
  ofLiteral lexeme := match ofText? lexeme with
    | some x => .ok x
    | none => .error .invalid
  display := text

end SymbolicCalculus.RealNumber
