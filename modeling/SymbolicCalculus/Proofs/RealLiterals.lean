import SymbolicCalculus.Proofs.Cutting
import SymbolicCalculus.RealNumber

/-! Every literal with a digit in it is a real number, and the single point is none. -/
namespace SymbolicCalculus
open Decimal

theorem mantissaWhole {cs : List Char} (digits : ∀ c ∈ cs, c.isDigit = true) : cutMantissa cs = (⟨cs,[]⟩,[]) := by
  obtain ⟨taken,left⟩ := spanWhole digits
  unfold cutMantissa
  rw [left,taken]

theorem mantissaPoint {whole fraction : List Char} (digits : ∀ c ∈ whole, c.isDigit = true)
    (places : ∀ c ∈ fraction, c.isDigit = true) : cutMantissa (whole ++ '.' :: fraction) = (⟨whole,fraction⟩,[]) := by
  obtain ⟨taken,left⟩ := spanEnds digits (pointEnds fraction)
  obtain ⟨inner,none⟩ := spanWhole places
  unfold cutMantissa
  rw [left,taken]
  simp only [inner,none]

theorem literalSplit {cs : List Char} (literal : Literal cs) :
    ∃ m, cutMantissa cs = (m,[]) ∧ (m.whole ++ m.fraction = [] → cs = ['.']) := by
  obtain ⟨filled,whole,digits,shape⟩ := literal
  rcases shape with same | ⟨fraction,places,same⟩
  · subst same
    refine ⟨⟨cs,[]⟩,mantissaWhole digits,fun empty => ?_⟩
    exact absurd (by simpa using empty) filled
  · subst same
    refine ⟨⟨whole,fraction⟩,mantissaPoint digits places,fun empty => ?_⟩
    obtain ⟨none,nowhere⟩ := List.append_eq_nil_iff.mp empty
    subst none nowhere
    rfl

theorem readLiteral {cs : List Char} (literal : Literal cs) (digits : cs ≠ ['.']) : (readCode? cs).isSome := by
  obtain ⟨m,cut,only⟩ := literalSplit literal
  have places : (m.whole ++ m.fraction).length ≠ 0 := fun none => digits (only (List.length_eq_zero_iff.mp none))
  unfold readCode?
  rw [cut]
  simp only [if_neg places,Option.isSome_some]

theorem literalSmall {cs : List Char} (literal : Literal cs) :
    (cs.map Char.toLower).head? ≠ some 'i' ∧ (cs.map Char.toLower).head? ≠ some 'n' := by
  obtain ⟨c,tail,same,starts⟩ := literalHead literal
  have small : c.toLower = c := by
    rcases starts with digit | point
    · simp only [Char.isDigit,Bool.and_eq_true,decide_eq_true_eq] at digit
      exact dif_neg (fun upper => absurd (UInt32.le_trans upper.1 digit.2) (by decide))
    · subst point
      rfl
  rw [same]
  simp only [List.map_cons,List.head?_cons,small]
  constructor <;> (intro letter; cases letter; revert starts; decide)

theorem unsignedReads {cs : List Char} (literal : Literal cs) (negative : Bool) :
    RealNumber.readUnsigned? negative cs = (readCode? cs).map (Binary64.toFloat negative) := by
  obtain ⟨noInf,noNan⟩ := literalSmall literal
  have other (word : String) (differs : (cs.map Char.toLower).head? ≠ word.toList.head?) :
      String.ofList (cs.map Char.toLower) ≠ word :=
    fun same => differs (by rw [← same,String.toList_ofList])
  unfold RealNumber.readUnsigned?
  simp only
  rw [if_neg (not_or.mpr ⟨other "inf" noInf,other "infinity" noInf⟩),if_neg (other "nan" noNan)]

theorem literalReads {digits : String} (literal : Literal digits.toList) :
    RealNumber.ofText? digits = (readCode? digits.toList).map (Binary64.toFloat false) := by
  obtain ⟨noMinus,noPlus⟩ := literalUnsigned literal
  unfold RealNumber.ofText?
  split
  · rename_i same
    rw [same] at noMinus
    exact absurd rfl noMinus
  · rename_i same
    rw [same] at noPlus
    exact absurd rfl noPlus
  · exact unsignedReads literal false

theorem realLiteral {digits : String} (literal : Literal digits.toList) (digital : digits ≠ ".") :
    ∃ x : Float, RealNumber.ofText? digits = some x := by
  have notPoint : digits.toList ≠ ['.'] := fun same => digital (String.toList_inj.mp same)
  apply Option.isSome_iff_exists.mp
  rw [literalReads literal,Option.isSome_map]
  exact readLiteral literal notPoint

theorem realPoint : RealNumber.ofText? "." = none := by decide +kernel

end SymbolicCalculus
