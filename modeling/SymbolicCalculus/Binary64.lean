/-! Floating-point numbers of 64 bits as natural numbers. Without its sign such a number is a code
below `infinite`, and codes are ordered as the numbers are. Every number is a whole multiple of the
least one above zero, which is 2^-1074, and is measured in that unit. -/
namespace SymbolicCalculus.Binary64

def infinite : Nat := 2047 * Nat.pow 2 52

def notANumber : Nat := infinite + Nat.pow 2 51

/- The gap from a code to the next one doubles every 2^52 codes, except for the first time. -/
def scale (code : Nat) : Nat := code / Nat.pow 2 52 - 1

def magnitude (code : Nat) : Nat := (code - scale code * Nat.pow 2 52) * Nat.pow 2 (scale code)

def roundHalfEven (numerator denominator : Nat) : Nat :=
  let quotient := numerator / denominator
  let twice := 2 * (numerator % denominator)
  if twice < denominator ∨ twice = denominator ∧ quotient % 2 = 0 then quotient else quotient + 1

/- The code of the number nearest to a fraction of the unit, the even one of two that are equally
near. The fraction is rounded on the grid of its own scale; what rounds up out of that scale is the
first code of the next, and what lies behind the last finite code is infinite. -/
def nearest (numerator denominator : Nat) : Nat :=
  let scale := Nat.log2 (numerator / denominator) - 52
  min (scale * Nat.pow 2 52 + roundHalfEven numerator (denominator * Nat.pow 2 scale)) infinite

def toFloat (negative : Bool) (code : Nat) : Float :=
  Float.ofBits (UInt64.ofNat (if negative then Nat.pow 2 63 + code else code))

def isNegative (x : Float) : Bool := Nat.pow 2 63 ≤ x.toBits.toNat

def code (x : Float) : Nat := x.toBits.toNat % Nat.pow 2 63

end SymbolicCalculus.Binary64
