import SymbolicCalculus.Binary64

/-! Floating-point numbers from decimal texts: digits with at most one point among them, and behind
an `e` a power of ten. The number read is the one nearest to what the text says. -/
namespace SymbolicCalculus.Decimal

structure Mantissa where
  whole : List Char
  fraction : List Char
  deriving DecidableEq, Repr

def Mantissa.number (m : Mantissa) : Nat := Nat.ofDigitChars 10 (m.whole ++ m.fraction) 0

def cutMantissa (cs : List Char) : Mantissa × List Char :=
  match cs.dropWhile Char.isDigit with
  | '.' :: rest => (⟨cs.takeWhile Char.isDigit,rest.takeWhile Char.isDigit⟩,rest.dropWhile Char.isDigit)
  | rest => (⟨cs.takeWhile Char.isDigit,[]⟩,rest)

def readExponent? : List Char → Option Int
  | '-' :: cs => (natural? cs).map (fun n => -(n : Int))
  | '+' :: cs => (natural? cs).map (fun n => (n : Int))
  | cs => (natural? cs).map (fun n => (n : Int))
where
  natural? (cs : List Char) : Option Nat :=
    if cs ≠ [] ∧ cs.all Char.isDigit then some (Nat.ofDigitChars 10 cs 0) else none

/- The code nearest to a number times a power of ten. Beyond four hundred places, more than any
finite number has before its point or behind it, the power alone decides. -/
def nearestCode (number places : Nat) (exponent : Int) : Nat :=
  if number = 0 then 0
  else match exponent with
    | .ofNat up =>
        if 400 < up then Binary64.infinite
        else Binary64.nearest (number * Nat.pow 10 up * Nat.pow 2 1074) 1
    | .negSucc down =>
        if places + 400 < down then 0
        else Binary64.nearest (number * Nat.pow 2 1074) (Nat.pow 10 (down + 1))

def readCode? (cs : List Char) : Option Nat :=
  let (m,rest) := cutMantissa cs
  let places := (m.whole ++ m.fraction).length
  if places = 0 then none
  else match rest with
    | [] => some (nearestCode m.number places (-(m.fraction.length : Int)))
    | c :: tail =>
        if c = 'e' ∨ c = 'E' then
          (readExponent? tail).map (fun e => nearestCode m.number places (e - (m.fraction.length : Int)))
        else none

end SymbolicCalculus.Decimal
