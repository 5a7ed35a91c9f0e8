import SymbolicCalculus.Binary64

/-! Decimal texts of floating-point numbers. In units of 10^-1074 every finite number is whole, and so
are the points of each decimal grid, so all that has to be compared is compared exactly. -/
namespace SymbolicCalculus.Decimal
open Binary64 (magnitude roundHalfEven)

def finest : Nat := 1074

def exact (code : Nat) : Nat := magnitude code * Nat.pow 5 finest

/- The numbers that round to a code reach halfway to its neighbours, and take the two midpoints with
them when the code is even. Bounds are doubled, to be whole. -/
structure Neighbourhood where
  low : Nat
  high : Nat
  closed : Bool
  deriving DecidableEq, Repr

def neighbourhood (code : Nat) : Neighbourhood :=
  ⟨exact (code - 1) + exact code,exact code + exact (code + 1),code % 2 = 0⟩

def Neighbourhood.contains (around : Neighbourhood) (point : Nat) : Bool :=
  if around.closed then around.low ≤ 2 * point && 2 * point ≤ around.high
  else around.low < 2 * point && 2 * point < around.high

structure Digits where
  digits : Nat
  grid : Nat
  deriving DecidableEq, Repr

/- The coarsest grid with a point in the neighbourhood, tried downward; only the two points around
the value can be in it. Of two the nearer is taken, and the upper one when both are as near. On the
finest grid the value itself is a point. -/
def coarsest (around : Neighbourhood) (value : Nat) : Nat → Digits
  | 0 => ⟨value,0⟩
  | grid+1 =>
      let step := Nat.pow 10 (grid + 1)
      let below := value / step
      let lower := around.contains (below * step)
      let upper := around.contains ((below + 1) * step)
      if lower && (!upper || decide (2 * (value % step) < step)) then ⟨below,grid + 1⟩
      else if upper then ⟨below + 1,grid + 1⟩
      else coarsest around value grid

/- Above the number of bits times a little more than log 2, the grid is coarser than the value. -/
def shortest (code : Nat) : Digits :=
  coarsest (neighbourhood code) (exact code) ((Nat.log2 (exact code) + 1) * 30103 / 100000 + 1)

def written (n : Nat) : List Char := Nat.toDigits 10 n

def positional (d : Digits) : List Char :=
  if finest ≤ d.grid then written d.digits ++ List.replicate (d.grid - finest) '0'
  else
    let places := finest - d.grid
    let padded := List.replicate (places + 1 - (written d.digits).length) '0' ++ written d.digits
    padded.take (padded.length - places) ++ '.' :: padded.drop (padded.length - places)

def positionalText (code : Nat) : List Char :=
  if code = 0 then ['0'] else positional (shortest code)

def scientific (value : Nat) : Digits :=
  let grid := (written value).length - 12
  let digits := roundHalfEven value (Nat.pow 10 grid)
  if digits = Nat.pow 10 12 then ⟨Nat.pow 10 11,grid + 1⟩ else ⟨digits,grid⟩

def exponentText (grid : Nat) : List Char :=
  if finest ≤ grid + 11 then written (grid + 11 - finest) else '-' :: written (finest - (grid + 11))

def scientificText (code : Nat) : List Char :=
  if code = 0 then "0.00000000000e0".toList
  else
    let d := scientific (exact code)
    (written d.digits).take 1 ++ '.' :: (written d.digits).drop 1 ++ 'e' :: exponentText d.grid

end SymbolicCalculus.Decimal
