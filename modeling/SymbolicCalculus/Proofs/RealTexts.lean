import Mathlib
import SymbolicCalculus.Proofs.DecimalTexts
import SymbolicCalculus.Proofs.Rendering

/-! Every finite real number is read back from its text, the sign of a zero included. A number is known from
its sign and its code, and what a literal is read as has no sign. The lemmas on the bits of
a float come with no import smaller than the whole of Mathlib. -/
namespace SymbolicCalculus.RealNumber
open Binary64 (infinite toFloat isNegative code)
open Decimal (positionalText readPositionalText literalPositionalText readCodeBound)
open Float.Model

def IsFinite (x : Float) : Prop := code x < infinite
instance (x : Float) : Decidable (IsFinite x) := inferInstanceAs (Decidable (code x < infinite))

theorem floatCoded (x : Float) : toFloat (isNegative x) (code x) = x := by
  have bits : (if isNegative x = true then Nat.pow 2 63 + code x else code x) = x.toBits.toNat := by
    have bound := x.toBits.toNat_lt
    simp only [isNegative,code,Nat.pow_eq,decide_eq_true_eq]
    split <;> omega
  unfold toFloat
  rw [bits,UInt64.ofNat_toNat,Float.ofBits_toBits]

/- Bits are kept, but for those of a number that is none, of which there is only one. -/
theorem bitsKept (b : UInt64) : (Float.ofBits b).toBits.toBitVec =
    if @UnpackedFloat.isNaNBits Format.binary64 b.toBitVec then UnpackedFloat.packedNaN Format.binary64
    else b.toBitVec :=
  @UnpackedFloat.pack_unpack Format.binary64 b.toBitVec (by decide)

theorem toFloatUnsigned {c : Nat} (low : c < 2 ^ 63) : isNegative (toFloat false c) = false := by
  have kept := congrArg BitVec.toNat (bitsKept (UInt64.ofNat c))
  have none : (UnpackedFloat.packedNaN Format.binary64).toNat < 2 ^ 63 := by decide
  have given : (UInt64.ofNat c).toBitVec.toNat < 2 ^ 63 := by
    rw [UInt64.toNat_toBitVec,UInt64.toNat_ofNat']
    omega
  have less : (Float.ofBits (UInt64.ofNat c)).toBits.toNat < 2 ^ 63 := by
    rw [← UInt64.toNat_toBitVec,kept]
    split
    · exact none
    · exact given
  simp only [isNegative,toFloat,Nat.pow_eq,decide_eq_false_iff_not]
  simpa using less

theorem codeNumber {c : Nat} (bound : c ≤ infinite) :
    @UnpackedFloat.isNaNBits Format.binary64 (UInt64.ofNat c).toBitVec = false := by
  unfold UnpackedFloat.isNaNBits UnpackedFloat.unpackExponent UnpackedFloat.unpackMantissa
  rw [decide_eq_false_iff_not]
  rintro ⟨top,filled⟩
  have exponent := congrArg BitVec.toNat top
  simp only [infinite,Nat.pow_eq] at bound
  simp [Nat.shiftRight_eq_div_pow] at exponent
  refine filled (BitVec.eq_of_toNat_eq ?_)
  simp
  omega

theorem toFloatNumber {c : Nat} (bound : c ≤ infinite) : (toFloat false c).isNaN = false := by
  have proper := codeNumber bound
  have kept := bitsKept (UInt64.ofNat c)
  rw [proper] at kept
  cases none : (toFloat false c).isNaN with
  | false => rfl
  | true =>
    have bits := (UnpackedFloat.isNaN_unpack_iff_of_valid (toFloat false c).toModel.valid).mp none
    have same : (UInt64.ofNat c).toBitVec = UnpackedFloat.packedNaN Format.binary64 := kept.symm.trans bits
    rw [same,UnpackedFloat.isNaNBits_packedNaN] at proper
    cases proper

section signs
variable {c : Nat}

def signedBits (negative : Bool) (code : Nat) : BitVec (Format.numBits .binary64) :=
  (UInt64.ofNat (if negative then Nat.pow 2 63 + code else code)).toBitVec

theorem signedBitsNat (low : c < 2 ^ 63) (negative : Bool) :
    (signedBits negative c).toNat = (if negative then 2 ^ 63 else 0) + c := by
  unfold signedBits
  rw [UInt64.toNat_toBitVec,UInt64.toNat_ofNat',Nat.pow_eq]
  cases negative <;> simp <;> omega

theorem signApart (low : c < 2 ^ 63) (negative : Bool) :
    UnpackedFloat.unpackMantissa (signedBits negative c) = BitVec.ofNat 52 c ∧
    UnpackedFloat.unpackExponent (signedBits negative c) = BitVec.ofNat 11 (c / 2 ^ 52) ∧
    UnpackedFloat.unpackSign (signedBits negative c) = BitVec.ofBool negative := by
  have whole := signedBitsNat low negative
  unfold UnpackedFloat.unpackMantissa UnpackedFloat.unpackExponent UnpackedFloat.unpackSign
  refine ⟨BitVec.eq_of_toNat_eq ?_,BitVec.eq_of_toNat_eq ?_,BitVec.eq_of_toNat_eq ?_⟩
  all_goals cases negative <;> simp [whole,Nat.shiftRight_eq_div_pow] <;> omega

theorem signFlipped (low : c < 2 ^ 63) (negative : Bool) :
    (UnpackedFloat.unpack Format.binary64 (signedBits negative c)).neg =
      UnpackedFloat.unpack Format.binary64 (signedBits (!negative) c) := by
  obtain ⟨mantissa,exponent,sign⟩ := signApart low negative
  obtain ⟨sameMantissa,sameExponent,other⟩ := signApart low (!negative)
  have flipped : -UnpackedFloat.Sign.ofBitVec (BitVec.ofBool negative) = .ofBitVec (BitVec.ofBool !negative) := by
    cases negative <;> rfl
  unfold UnpackedFloat.unpack
  simp only [mantissa,sameMantissa,exponent,sameExponent,sign,other,← flipped]
  split
  · split <;> rfl
  split
  · split <;> rfl
  · rfl

theorem signedBitsKept (bound : c ≤ infinite) (negative : Bool) :
    (toFloat negative c).toBits.toBitVec = signedBits negative c := by
  have low : c < 2 ^ 63 := Nat.lt_of_le_of_lt bound (by decide)
  have proper : @UnpackedFloat.isNaNBits Format.binary64 (signedBits false c) = false := codeNumber bound
  obtain ⟨mantissa,exponent,_⟩ := signApart low false
  obtain ⟨sameMantissa,sameExponent,_⟩ := signApart low negative
  have number : @UnpackedFloat.isNaNBits Format.binary64 (signedBits negative c) = false := by
    unfold UnpackedFloat.isNaNBits at proper ⊢
    rwa [mantissa,exponent,← sameMantissa,← sameExponent] at proper
  exact (bitsKept _).trans (if_neg (Bool.eq_false_iff.mp number))

theorem negatedCode (bound : c ≤ infinite) (negative : Bool) : -(toFloat negative c) = toFloat (!negative) c := by
  have low : c < 2 ^ 63 := Nat.lt_of_le_of_lt bound (by decide)
  have flips : (-(toFloat negative c)).toBits.toBitVec = UnpackedFloat.pack Format.binary64
      (UnpackedFloat.unpack Format.binary64 (toFloat negative c).toBits.toBitVec).neg := rfl
  rw [signedBitsKept bound,signFlipped low,← signedBitsKept bound] at flips
  have packed := UnpackedFloat.pack_unpack_of_valid (toFloat (!negative) c).toModel.valid
  exact Float.toBits_inj.mp (UInt64.toBitVec_inj.mp (flips.trans packed))

end signs

theorem literalCode {digits : String} {x : Float} (literal : Literal digits.toList)
    (read : Numeral.ofLiteral digits = .ok x) : ∃ c, c ≤ infinite ∧ toFloat false c = x := by
  have given : ofText? digits = some x := by
    simp only [Numeral.ofLiteral] at read
    split at read
    · rename_i y same
      cases read
      exact same
    · cases read
  rw [literalReads literal] at given
  obtain ⟨c,cut,same⟩ := Option.map_eq_some_iff.mp given
  exact ⟨c,readCodeBound cut,same⟩

theorem literalUnsignedReal {digits : String} {x : Float} (literal : Literal digits.toList)
    (read : Numeral.ofLiteral digits = .ok x) : isNegative x = false := by
  obtain ⟨c,bound,rfl⟩ := literalCode literal read
  exact toFloatUnsigned (Nat.lt_of_le_of_lt bound (by decide))

theorem literalNumberReal {digits : String} {x : Float} (literal : Literal digits.toList)
    (read : Numeral.ofLiteral digits = .ok x) : x.isNaN = false := by
  obtain ⟨c,bound,rfl⟩ := literalCode literal read
  exact toFloatNumber bound

theorem textFinite {x : Float} (finite : IsFinite x) : text x = String.ofList (signText x ++ positionalText (code x)) := by
  unfold IsFinite at finite
  unfold text
  rw [if_neg (by omega),if_neg (by omega)]

theorem textReads {x : Float} (finite : IsFinite x) : ofText? (text x) = some x := by
  have same := floatCoded x
  have literal := literalPositionalText (code x)
  have read := readPositionalText finite
  rw [textFinite finite,signText]
  cases sign : isNegative x with
  | true =>
    rw [sign] at same
    simp only [if_true,ofText?,String.toList_ofList,List.cons_append,List.nil_append]
    rw [unsignedReads literal,read,Option.map_some,same]
  | false =>
    rw [sign] at same
    have whole : Literal (String.ofList (positionalText (code x))).toList := by rwa [String.toList_ofList]
    have shown := literalReads whole
    rw [String.toList_ofList,read,Option.map_some,same] at shown
    simpa using shown

theorem unsignedLiteral {x : Float} (finite : IsFinite x) (unsigned : isNegative x = false) : Literal (text x).toList := by
  rw [textFinite finite,signText,unsigned]
  simpa using literalPositionalText (code x)

theorem unsignedWritten {x : Float} (finite : IsFinite x) (unsigned : isNegative x = false) : Written x :=
  .unsigned (unsignedLiteral finite unsigned) rfl (by simp only [Numeral.ofLiteral,textReads finite])

theorem finiteWritten {x : Float} (finite : IsFinite x) : Written x := by
  cases sign : isNegative x with
  | false => exact unsignedWritten finite sign
  | true =>
    have same := floatCoded x
    rw [sign] at same
    have opposite : -x = toFloat false (code x) := by
      conv => lhs; rw [← same]
      exact negatedCode (Nat.le_of_lt finite) true
    have literal : Literal (String.ofList (positionalText (code x))).toList := by
      rw [String.toList_ofList]
      exact literalPositionalText (code x)
    have shown : Numeral.display x = "-" ++ String.ofList (positionalText (code x)) := by
      refine (textFinite finite).trans ?_
      rw [signText,sign,if_pos rfl,String.ofList_append]
    have value := literalReads literal
    rw [String.toList_ofList,readPositionalText finite,Option.map_some,← opposite] at value
    refine .signed literal shown (by simp only [Numeral.ofLiteral,value]; rfl) ?_
    have twice : - -x = x := by rw [opposite,negatedCode (Nat.le_of_lt finite)]; exact same
    exact twice

end SymbolicCalculus.RealNumber
