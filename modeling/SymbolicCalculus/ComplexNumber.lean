import SymbolicCalculus.RealNumber

/-! Complex numbers as pairs of floating-point numbers. They have no literals: a complex expression
is made of variables and of constants put in by substitution. -/
namespace SymbolicCalculus

structure ComplexNumber where
  re : Float
  im : Float
  deriving DecidableEq, Repr

namespace ComplexNumber

instance : BEq ComplexNumber := ⟨fun z w => z.re == w.re && z.im == w.im⟩

/- The length of a vector with `0 ≤ y ≤ x`, from the rounded root and one correction by what its
square misses. -/
def correctedLength (x y : Float) : Float :=
  let h := Float.sqrt (x * x + y * y)
  if h ≤ 2.0 * y then
    let d := h - y
    h - (x * (2.0 * d - x) + (d - 2.0 * (x - y)) * d) / (2.0 * h)
  else
    let d := h - x
    h - (2.0 * d * (x - 2.0 * y) + ((4.0 * d - y) * y + d * d)) / (2.0 * h)

def powerOfTwo (negative : Bool) (exponent : Nat) : Float :=
  Binary64.toFloat false ((if negative then 1023 - exponent else 1023 + exponent) * Nat.pow 2 52)

def length (re im : Float) : Float :=
  if re.isInf || im.isInf then Binary64.toFloat false Binary64.infinite
  else if re.isNaN || im.isNaN then re + im
  else
    let a := re.abs
    let b := im.abs
    let x := if a < b then b else a
    let y := if a < b then a else b
    let tiny := powerOfTwo true 54
    let down := powerOfTwo true 600
    if powerOfTwo false 511 < x then
      if y ≤ x * tiny then x + y else correctedLength (x * down) (y * down) / down
    else if y < powerOfTwo true 459 then
      if y / tiny ≤ x then x + y else correctedLength (x / down) (y / down) * down
    else if y ≤ x * tiny then x + y
    else correctedLength x y

def add (z w : ComplexNumber) : ComplexNumber := ⟨z.re + w.re,z.im + w.im⟩

def sub (z w : ComplexNumber) : ComplexNumber := ⟨z.re - w.re,z.im - w.im⟩

def mul (z w : ComplexNumber) : ComplexNumber :=
  ⟨z.re * w.re - z.im * w.im,z.re * w.im + z.im * w.re⟩

def div (z w : ComplexNumber) : ComplexNumber :=
  let norm := w.re * w.re + w.im * w.im
  ⟨(z.re * w.re + z.im * w.im) / norm,(z.im * w.re - z.re * w.im) / norm⟩

def neg (z : ComplexNumber) : ComplexNumber := ⟨-z.re,-z.im⟩

def sin (z : ComplexNumber) : ComplexNumber := ⟨z.re.sin * z.im.cosh,z.re.cos * z.im.sinh⟩

def cos (z : ComplexNumber) : ComplexNumber := ⟨z.re.cos * z.im.cosh,-z.re.sin * z.im.sinh⟩

def ln (z : ComplexNumber) : ComplexNumber := ⟨(length z.re z.im).log,Float.atan2 z.im z.re⟩

/- An infinite real part leaves the angle nothing to scale: it vanishes below, and above it keeps
its direction only where there is one. -/
def exp (z : ComplexNumber) : ComplexNumber :=
  if z.re.isInf && z.re < 0.0 && !z.im.isFinite then ⟨0.0,0.0⟩
  else if z.re.isInf && 0.0 < z.re && (z.im == 0.0 || !z.im.isFinite) then
    ⟨z.re,if z.im.isInf then 0.0 / 0.0 else z.im⟩
  else if z.re.isNaN && z.im == 0.0 then z
  else ⟨z.re.exp * z.im.cos,z.re.exp * z.im.sin⟩

def pow (z w : ComplexNumber) : ComplexNumber :=
  if w.re == 0.0 && w.im == 0.0 then ⟨1.0,0.0⟩ else exp (mul w (ln z))

instance : Scalar ComplexNumber where
  ofNat n := ⟨Float.ofNat n,0.0⟩
  binary
    | .add => add
    | .sub => sub
    | .mul => mul
    | .div => div
    | .pow => pow
  unary
    | .neg => neg
    | .sin => sin
    | .cos => cos
    | .ln => ln
    | .exp => exp

def text (z : ComplexNumber) : String :=
  if z.im < 0.0 then RealNumber.text z.re ++ "-" ++ RealNumber.text z.im.abs ++ "i"
  else RealNumber.text z.re ++ "+" ++ RealNumber.text z.im ++ "i"

instance : Numeral ComplexNumber where
  typeName := "complex"
  ofLiteral _ := .error .unsupported
  display := text

end ComplexNumber
end SymbolicCalculus
