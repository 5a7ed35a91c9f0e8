import SymbolicCalculus.Proofs.Acceptance
import SymbolicCalculus.Proofs.Cutting

/-! Characters that are cut into given tokens. A number or a name is cut as it is written when what stands
behind it can not be a part of it, and blanks between two tokens change nothing. -/
namespace SymbolicCalculus

def IsName (name : String) : Prop :=
  ∃ c tail, name.toList = c :: tail ∧ c.isAlpha = true ∧ ∀ d ∈ tail, isNameChar d = true

theorem nameFree {name : String} (valid : IsName name) : ∀ c ∈ name.toList, isNameChar c = true := by
  obtain ⟨c,tail,spelled,letter,others⟩ := valid
  rw [spelled]
  intro d member
  rcases List.mem_cons.mp member with rfl | later
  · simp [isNameChar,Char.isAlphanum,letter]
  · exact others d later

theorem cutName {c : Char} {rest : List Char} {name : String} (found : (cut c rest).1 = .token (.variable name)) :
    IsName name := by
  rcases cutCases c rest with same | ⟨letter,same⟩ | ⟨piece,same,sign⟩
  · rw [same] at found
    cases found
  · rw [same] at found
    have lexeme := congrArg Token.lexeme (Piece.token.inj found)
    rw [nameTokenLexeme] at lexeme
    have spelled : name.toList = c :: rest.takeWhile isNameChar := by
      rw [← String.toList_ofList (l := c :: rest.takeWhile isNameChar),lexeme]
      rfl
    exact ⟨c,_,spelled,letter,runHolds⟩
  · rw [same] at found
    cases sign <;> cases found

theorem itemsName {cursor : Cursor} {name : String} {span : Span}
    (member : ⟨.token (.variable name),span⟩ ∈ cursor.items) : IsName name := by
  obtain ⟨c,rest,piece⟩ := itemsCut member
  exact cutName piece.symm

def Apart (rest : List Char) : Prop := ∀ c ∈ rest.head?, isNameChar c = false ∧ c ≠ '.' ∧ c ≠ '('

theorem apartNone : Apart [] := by simp [Apart]

theorem apartBlank {rest : List Char} : Apart (' ' :: rest) := by
  intro c head
  cases head
  decide

theorem apartClosing {rest : List Char} : Apart (')' :: rest) := by
  intro c head
  cases head
  decide

theorem otherNoDigit {c : Char} (other : isNameChar c = false) : c.isDigit = false := by
  simp only [isNameChar,Char.isAlphanum,Bool.or_eq_false_iff] at other
  exact other.1.2

section ranges
variable {c : Char}

theorem digitRange : c.isDigit = true ↔ '0' ≤ c ∧ c ≤ '9' :=
  Bool.and_eq_true_iff.trans (and_congr decide_eq_true_iff decide_eq_true_iff)

theorem upperRange : c.isUpper = true ↔ 'A' ≤ c ∧ c ≤ 'Z' := decide_eq_true_iff

theorem lowerRange : c.isLower = true ↔ 'a' ≤ c ∧ c ≤ 'z' :=
  Bool.and_eq_true_iff.trans (and_congr decide_eq_true_iff decide_eq_true_iff)

end ranges

theorem alphaNoDigit {c : Char} (alpha : c.isAlpha = true) : c.isDigit = false := by
  cases digit : c.isDigit with
  | false => rfl
  | true =>
    have top : c.toNat ≤ 57 := (Char.isDigit_iff_toNat.mp digit).2
    rcases Bool.or_eq_true_iff.mp alpha with upper | lower
    · have above : 65 ≤ c.toNat := UInt32.le_iff_toNat_le.mp (upperRange.mp upper).1
      omega
    · have above : 97 ≤ c.toNat := UInt32.le_iff_toNat_le.mp (lowerRange.mp lower).1
      omega

theorem visible {c : Char} (part : isNameChar c = true ∨ c = '.') : isBlank c = false := by
  cases blank : isBlank c with
  | false => rfl
  | true =>
    simp only [isBlank,Bool.or_eq_true,beq_iff_eq] at blank
    rcases blank with ((((same | same) | same) | same) | same) | same <;> subst same <;> revert part <;> decide

theorem blankApart {cs : List Char} (blank : ∀ c ∈ cs.head?, isBlank c = true) : Apart cs := by
  intro c head
  have seen (part : isNameChar c = true ∨ c = '.') : False := by simpa [visible part] using blank c head
  refine ⟨Bool.eq_false_iff.mpr fun part => seen (Or.inl part),fun point => seen (Or.inr point),fun opens => ?_⟩
  subst opens
  exact absurd (blank '(' head) (by decide)

theorem cutLiteral {cs rest : List Char} (literal : Literal cs) (apart : Apart rest) :
    cutNumber (cs ++ rest) = (cs,rest) := by
  have noDigit (c : Char) (head : c ∈ rest.head?) : c.isDigit = false := otherNoDigit (apart c head).1
  obtain ⟨_,whole,digits,shape⟩ := literal
  rcases shape with same | ⟨fraction,places,same⟩
  · subst same
    obtain ⟨taken,left⟩ := spanEnds digits noDigit
    unfold cutNumber
    rw [left,taken]
    split
    · rename_i tail
      exact absurd rfl (apart '.' rfl).2.1
    · rfl
  · subst same
    obtain ⟨taken,left⟩ := spanEnds digits (pointEnds (fraction ++ rest))
    obtain ⟨inner,behind⟩ := spanEnds places noDigit
    rw [List.append_assoc,List.cons_append]
    unfold cutNumber
    rw [left,taken]
    simp only [inner,behind]

theorem cutNamed {name : String} {c : Char} {tail rest : List Char} (spelled : name.toList = c :: tail)
    (letter : c.isAlpha = true) (others : ∀ d ∈ tail, isNameChar d = true) (ends : ∀ d ∈ rest.head?, isNameChar d = false) :
    cut c (tail ++ rest) = (.token (nameToken name rest),rest) := by
  have noNumber : (c.isDigit || c == '.') = false := by
    have point : c ≠ '.' := by
      intro same
      subst same
      contradiction
    simp [alphaNoDigit letter,point]
  obtain ⟨taken,left⟩ := spanEnds others ends
  unfold cut
  rw [noNumber,letter,taken,left,← spelled,String.ofList_toList]
  rfl

theorem cutDigital {digits : String} {c : Char} {tail rest : List Char} (spelled : digits.toList = c :: tail)
    (literal : Literal digits.toList) (apart : Apart rest) : cut c (tail ++ rest) = (.token (.number digits),rest) := by
  obtain ⟨d,others,same,starts⟩ := literalHead literal
  cases spelled.symm.trans same
  have number : (c.isDigit || c == '.') = true := by simpa using starts
  unfold cut
  rw [if_pos number,← List.cons_append,← spelled,cutLiteral literal apart,String.ofList_toList]

def Lexes (cs rest : List Char) (w : List Token) : Prop :=
  ∀ offset, ∃ items stop, Grammar.Spells items w ∧ (Cursor.mk cs offset).items = items ++ (Cursor.mk rest stop).items

theorem lexesThen {cs mid rest : List Char} {w v : List Token} (first : Lexes cs mid w) (second : Lexes mid rest v) :
    Lexes cs rest (w ++ v) := by
  intro offset
  obtain ⟨items,halt,spells,same⟩ := first offset
  obtain ⟨others,stop,spelled,left⟩ := second halt
  exact ⟨items ++ others,stop,Grammar.spellsAppend spells spelled,by rw [same,left,List.append_assoc]⟩

theorem lexesBlank {cs rest : List Char} {w : List Token} (lexes : Lexes cs rest w) : Lexes (' ' :: cs) rest w := by
  intro offset
  obtain ⟨items,stop,spells,same⟩ := lexes (offset + 1)
  have skipped : (Cursor.mk (' ' :: cs) offset).next = (Cursor.mk cs (offset + 1)).next := by
    have blank : isBlank ' ' = true := rfl
    simp [Cursor.next,blank,Nat.add_comm,Nat.add_left_comm]
  exact ⟨items,stop,spells,(itemsSame skipped).trans same⟩

theorem lexesToken {c : Char} {cs rest : List Char} {t : Token} (seen : isBlank c = false)
    (found : cut c cs = (.token t,rest)) : Lexes (c :: cs) rest [t] := by
  intro offset
  have ahead : (Cursor.mk (c :: cs) offset).rest.dropWhile isBlank = c :: cs := by simp [seen]
  have first := itemsAhead (nextAt ahead)
  rw [found] at first
  exact ⟨_,_,Grammar.spellsCons Grammar.spellsNil,first⟩

theorem lexesOpening {rest : List Char} : Lexes ('(' :: rest) rest [.leftParen] := lexesToken rfl rfl

theorem lexesClosing {rest : List Char} : Lexes (')' :: rest) rest [.rightParen] := lexesToken rfl rfl

theorem lexesOperator (op : BinaryOp) {rest : List Char} : Lexes (op.symbol :: rest) rest [.operator op] := by
  cases op <;> exact lexesToken rfl rfl

theorem lexesNumber {digits : String} {rest : List Char} (literal : Literal digits.toList) (apart : Apart rest) :
    Lexes (digits.toList ++ rest) rest [.number digits] := by
  obtain ⟨c,tail,same,starts⟩ := literalHead literal
  have part : isNameChar c = true ∨ c = '.' := starts.imp_left (fun digit => by simp [isNameChar,Char.isAlphanum,digit])
  rw [same]
  exact lexesToken (visible part) (cutDigital same literal apart)

theorem lexesNamed {name : String} {rest : List Char} (valid : IsName name)
    (ends : ∀ d ∈ rest.head?, isNameChar d = false) : Lexes (name.toList ++ rest) rest [nameToken name rest] := by
  obtain ⟨c,tail,spelled,letter,others⟩ := valid
  have part : isNameChar c = true := by simp [isNameChar,Char.isAlphanum,letter]
  rw [spelled]
  exact lexesToken (visible (Or.inl part)) (cutNamed spelled letter others ends)

theorem lexesVariable {name : String} {rest : List Char} (valid : IsName name) (apart : Apart rest) :
    Lexes (name.toList ++ rest) rest [.variable name] := by
  have uncalled : ¬ rest.head? = some '(' := fun opens => (apart '(' opens).2.2 rfl
  have lexes := lexesNamed valid (fun d head => (apart d head).1)
  rwa [nameToken,if_neg uncalled] at lexes

theorem lexesFunction {f : UnaryOp} {rest : List Char} (known : f ∈ functions) :
    Lexes (f.word.toList ++ '(' :: rest) ('(' :: rest) [.function f.word] := by
  have valid : IsName f.word := by
    simp only [functions,List.mem_cons,List.not_mem_nil,or_false] at known
    rcases known with same | same | same | same <;> subst same <;> exact ⟨_,_,rfl,rfl,List.all_eq_true.mp rfl⟩
  exact lexesNamed valid (by intro d head; cases head; rfl)

theorem lexesEnclosed {cs rest : List Char} {w : List Token} (lexes : Lexes (cs ++ ')' :: rest) (')' :: rest) w) :
    Lexes ('(' :: (cs ++ ')' :: rest)) rest (.leftParen :: w ++ [.rightParen]) :=
  lexesThen (lexesThen lexesOpening lexes) lexesClosing

end SymbolicCalculus
