import SymbolicCalculus.Proofs.RealLiterals
import SymbolicCalculus.Proofs.Rounding

/-! The decimal text of a number is read back as the number. The digits that are written are a point of the
number's neighbourhood, and whatever lies in there is rounded to the number again. -/
namespace SymbolicCalculus.Decimal
open Binary64 (magnitude magnitudeLess nearest nearestAround infinite Within withinScaled)

section digits

def Digits.point (d : Digits) : Nat := d.digits * 10 ^ d.grid

theorem coarsestWithin {around : Neighbourhood} {value : Nat} (within : around.contains value = true) (grid : Nat) :
    around.contains (coarsest around value grid).point = true := by
  induction grid with
  | zero => simpa [coarsest,Digits.point] using within
  | succ grid ih =>
    unfold coarsest
    simp only
    split
    · rename_i lower
      exact (Bool.and_eq_true_iff.mp lower).1
    split
    · rename_i upper
      exact upper
    · exact ih

theorem unitSome : 0 < Nat.pow 5 finest := by
  rw [Nat.pow_eq]
  exact Nat.pow_pos (by decide)

theorem exactLess (code : Nat) : exact code < exact (code + 1) :=
  Nat.mul_lt_mul_of_pos_right (magnitudeLess code) unitSome

theorem containsExact {code : Nat} (filled : 0 < code) : (neighbourhood code).contains (exact code) = true := by
  have above := exactLess code
  have below := exactLess (code - 1)
  rw [Nat.sub_add_cancel filled] at below
  unfold Neighbourhood.contains neighbourhood
  split <;> simp only [Bool.and_eq_true,decide_eq_true_eq] <;> omega

theorem shortestWithin {code : Nat} (filled : 0 < code) : (neighbourhood code).contains (shortest code).point = true :=
  coarsestWithin (containsExact filled) _

theorem containsWithin {around : Neighbourhood} {point : Nat} (within : around.contains point = true) :
    Within (around.closed = true) around.low around.high (2 * point) := by
  unfold Neighbourhood.contains at within
  split at within <;> simp only [Bool.and_eq_true,decide_eq_true_eq] at within
  · rename_i closed
    exact ⟨within.1,within.2,Or.inl closed⟩
  · exact ⟨Nat.le_of_lt within.1,Nat.le_of_lt within.2,Or.inr within⟩

theorem nearestPoint {code point n d : Nat} (some : 0 < d) (filled : 0 < code) (finite : code < infinite)
    (within : (neighbourhood code).contains point = true) (same : n * 5 ^ finest = point * d) : nearest n d = code := by
  have around := containsWithin within
  have unit := unitSome
  simp only [neighbourhood,exact,Nat.pow_eq,decide_eq_true_eq] at around unit
  generalize 5 ^ finest = u at *
  have scaled (a b : Nat) : (a + b) * d * u = (a * u + b * u) * d := by rw [← Nat.add_mul,Nat.mul_right_comm]
  have doubled : 2 * n * u = 2 * point * d := by rw [Nat.mul_assoc,same,Nat.mul_assoc]
  refine nearestAround some filled finite ((withinScaled unit).mp ?_)
  rw [scaled,scaled,doubled]
  exact (withinScaled some).mpr around

end digits

section texts

theorem writtenDigits {n : Nat} : ∀ c ∈ written n, c.isDigit = true :=
  fun _ member => Nat.isDigit_of_mem_toDigits (by decide) (by decide) member

theorem zeroDigits {n : Nat} : ∀ c ∈ List.replicate n '0', c.isDigit = true := by
  intro c member
  rw [List.eq_of_mem_replicate member]
  rfl

theorem digitsAppend {cs ds : List Char} (first : ∀ c ∈ cs, c.isDigit = true) (second : ∀ c ∈ ds, c.isDigit = true) :
    ∀ c ∈ cs ++ ds, c.isDigit = true :=
  fun c member => (List.mem_append.mp member).elim (first c) (second c)

theorem zerosBefore (zeros n : Nat) : Nat.ofDigitChars 10 (List.replicate zeros '0' ++ written n) 0 = n := by
  rw [Nat.ofDigitChars_append,Nat.ofDigitChars_replicate_zero,Nat.mul_zero,written,Nat.ofDigitChars_ten_toDigits]

theorem zerosBehind (zeros n : Nat) : Nat.ofDigitChars 10 (written n ++ List.replicate zeros '0') 0 = n * 10 ^ zeros := by
  rw [Nat.ofDigitChars_append,Nat.ofDigitChars_replicate_zero,written,Nat.ofDigitChars_ten_toDigits,Nat.mul_comm]

structure Positional (d : Digits) (m : Mantissa) : Prop where
  cut : cutMantissa (positional d) = (m,[])
  literal : Literal (positional d)
  whole : m.whole ≠ []
  places : m.fraction.length = finest - d.grid
  number : m.number = d.digits * 10 ^ (d.grid - finest)

theorem positionalWhole {d : Digits} (coarse : finest ≤ d.grid) :
    Positional d ⟨written d.digits ++ List.replicate (d.grid - finest) '0',[]⟩ := by
  have text : positional d = written d.digits ++ List.replicate (d.grid - finest) '0' := if_pos coarse
  have digits := digitsAppend (writtenDigits (n := d.digits)) (zeroDigits (n := d.grid - finest))
  have filled : written d.digits ++ List.replicate (d.grid - finest) '0' ≠ [] := by simp [written]
  refine ⟨?_,?_,filled,?_,?_⟩
  · rw [text]
    exact mantissaWhole digits
  · rw [text]
    exact ⟨filled,_,digits,Or.inl rfl⟩
  · exact (Nat.sub_eq_zero_of_le coarse).symm
  · rw [Mantissa.number,List.append_nil,zerosBehind]

def padded (d : Digits) : List Char :=
  List.replicate (finest - d.grid + 1 - (written d.digits).length) '0' ++ written d.digits

theorem paddedLong (d : Digits) : finest - d.grid + 1 ≤ (padded d).length := by
  rw [padded,List.length_append,List.length_replicate]
  omega

theorem positionalPoint {d : Digits} (fine : d.grid < finest) :
    Positional d ⟨(padded d).take ((padded d).length - (finest - d.grid)),
      (padded d).drop ((padded d).length - (finest - d.grid))⟩ := by
  have long := paddedLong d
  have digits : ∀ c ∈ padded d, c.isDigit = true := digitsAppend zeroDigits writtenDigits
  have value : Nat.ofDigitChars 10 (padded d) 0 = d.digits := zerosBefore _ d.digits
  have text : positional d = (padded d).take ((padded d).length - (finest - d.grid)) ++
      '.' :: (padded d).drop ((padded d).length - (finest - d.grid)) := if_neg (Nat.not_le.mpr fine)
  generalize padded d = cs at *
  have whole : ∀ c ∈ cs.take (cs.length - (finest - d.grid)), c.isDigit = true :=
    fun c member => digits c (List.mem_of_mem_take member)
  have places : ∀ c ∈ cs.drop (cs.length - (finest - d.grid)), c.isDigit = true :=
    fun c member => digits c (List.mem_of_mem_drop member)
  refine ⟨?_,?_,?_,?_,?_⟩
  · rw [text]
    exact mantissaPoint whole places
  · rw [text]
    exact ⟨by simp,_,whole,Or.inr ⟨_,places,rfl⟩⟩
  · apply List.ne_nil_of_length_pos
    rw [List.length_take]
    omega
  · rw [List.length_drop]
    omega
  · rw [Mantissa.number,List.take_append_drop,value,Nat.sub_eq_zero_of_le (Nat.le_of_lt fine),Nat.pow_zero,Nat.mul_one]

theorem positionalCut (d : Digits) : ∃ m, Positional d m := by
  by_cases coarse : finest ≤ d.grid
  · exact ⟨_,positionalWhole coarse⟩
  · exact ⟨_,positionalPoint (Nat.not_le.mp coarse)⟩

theorem unitPower {unit : Nat} (same : 1074 = unit) : Nat.pow 2 1074 = 2 ^ unit := by
  rw [same]
  exact Nat.pow_eq

theorem nearestCodeDown {number places down : Nat} (some : number ≠ 0) (few : down ≤ places) :
    nearestCode number places (-(down : Int)) = nearest (number * 2 ^ finest) (10 ^ down) := by
  unfold nearestCode
  rw [if_neg some,unitPower (show 1074 = finest from rfl)]
  cases down with
  | zero =>
    have one : number * Nat.pow 10 0 = number := Nat.mul_one number
    change (if 400 < 0 then infinite else nearest (number * Nat.pow 10 0 * 2 ^ finest) 1) = _
    rw [one]
    exact if_neg (by decide)
  | succ down => exact if_neg (by omega)

theorem gridsMeet (digits grid unit : Nat) :
    digits * 10 ^ (grid - unit) * 2 ^ unit * 5 ^ unit = digits * 10 ^ grid * 10 ^ (unit - grid) := by
  have tens : 2 ^ unit * 5 ^ unit = 10 ^ unit := (Nat.mul_pow 2 5 unit).symm
  rw [Nat.mul_assoc _ (2 ^ unit),tens,Nat.mul_assoc,Nat.mul_assoc,← Nat.pow_add,← Nat.pow_add]
  congr 2
  omega

theorem readPositional {code : Nat} {d : Digits} (filled : 0 < code) (finite : code < infinite)
    (within : (neighbourhood code).contains d.point = true) : readCode? (positional d) = some code := by
  obtain ⟨m,cut,_,whole,places,value⟩ := positionalCut d
  have counted : (m.whole ++ m.fraction).length ≠ 0 := by simp [whole]
  have few : m.fraction.length ≤ (m.whole ++ m.fraction).length := by simp
  have some : m.number ≠ 0 := by
    intro none
    have point : d.point = 0 := by
      rw [value] at none
      have digits := (Nat.mul_eq_zero.mp none).resolve_right (Nat.ne_of_gt (Nat.pow_pos (by decide)))
      rw [Digits.point,digits,Nat.zero_mul]
    have low := (containsWithin within).1
    have above := exactLess (code - 1)
    rw [Nat.sub_add_cancel filled] at above
    simp only [neighbourhood,point] at low
    omega
  unfold readCode?
  simp only [cut,if_neg counted,Option.some.injEq]
  rw [nearestCodeDown some few,places,value]
  exact nearestPoint (Nat.pow_pos (by decide)) filled finite within (gridsMeet d.digits d.grid finest)

theorem readPositionalText {code : Nat} (finite : code < infinite) : readCode? (positionalText code) = some code := by
  unfold positionalText
  split
  · rename_i none
    subst none
    rfl
  · rename_i some
    have filled := Nat.pos_of_ne_zero some
    exact readPositional filled finite (shortestWithin filled)

theorem literalPositionalText (code : Nat) : Literal (positionalText code) := by
  unfold positionalText
  split
  · exact ⟨by decide,['0'],List.all_eq_true.mp rfl,Or.inl rfl⟩
  · obtain ⟨m,cut⟩ := positionalCut (shortest code)
    exact cut.literal

theorem nearestCodeBound (number places : Nat) (exponent : Int) : nearestCode number places exponent ≤ infinite := by
  unfold nearestCode
  split
  · exact Nat.zero_le _
  cases exponent with
  | ofNat up =>
    simp only
    split
    · exact Nat.le_refl _
    · exact Nat.min_le_right _ _
  | negSucc down =>
    simp only
    split
    · exact Nat.zero_le _
    · exact Nat.min_le_right _ _

theorem readCodeBound {cs : List Char} {code : Nat} (read : readCode? cs = some code) : code ≤ infinite := by
  unfold readCode? at read
  simp only at read
  split at read
  · cases read
  split at read
  · cases read
    exact nearestCodeBound _ _ _
  split at read
  · obtain ⟨exponent,_,same⟩ := Option.map_eq_some_iff.mp read
    rw [← same]
    exact nearestCodeBound _ _ _
  · cases read

end texts

end SymbolicCalculus.Decimal
