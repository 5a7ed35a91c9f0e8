import Mathlib.Computability.Language
import SymbolicCalculus.Proofs.Lexing

/-! The words that are tokens, as languages over characters and apart from any way of cutting them. Their first
character tells the class of a word, so no word is in two of them. -/
namespace SymbolicCalculus
open scoped Computability

inductive TokenClass where
  | number
  | name
  | operator
  | opening
  | closing
  deriving DecidableEq, Repr

def Token.class? : Token → Option TokenClass
  | .number _ => some .number
  | .variable _ => some .name
  | .function _ => some .name
  | .operator _ => some .operator
  | .leftParen => some .opening
  | .rightParen => some .closing
  | .endOfInput => none

namespace TokenClass

def between (first last : Char) : Language Char := {w | ∃ c, first ≤ c ∧ c ≤ last ∧ w = [c]}

def digit : Language Char := between '0' '9'

def letter : Language Char := between 'A' 'Z' + between 'a' 'z'

def only (c : Char) : Language Char := {[c]}

def language : TokenClass → Language Char
  | number => digit * digit∗ * (1 + only '.' * digit∗) + only '.' * digit∗
  | name => letter * (letter + digit + only '_')∗
  | operator => only '+' + only '-' + only '*' + only '/' + only '^'
  | opening => only '('
  | closing => only ')'

def Singles (l : Language Char) (p : Char → Bool) : Prop := ∀ w, w ∈ l ↔ ∃ c, p c = true ∧ w = [c]

variable {l m : Language Char} {p q : Char → Bool} {w : List Char}

theorem rangeSingles {first last : Char} (range : ∀ {c : Char}, p c = true ↔ first ≤ c ∧ c ≤ last) :
    Singles (between first last) p := by
  intro w
  constructor
  · rintro ⟨c,low,high,same⟩
    exact ⟨c,range.mpr ⟨low,high⟩,same⟩
  · rintro ⟨c,kind,same⟩
    obtain ⟨low,high⟩ := range.mp kind
    exact ⟨c,low,high,same⟩

theorem digitSingles : Singles digit Char.isDigit := rangeSingles digitRange

theorem onlyWord {c : Char} : w ∈ only c ↔ w = [c] := Iff.rfl

theorem onlySingles (c : Char) : Singles (only c) (fun d => d == c) := by
  intro w
  simp only [onlyWord,beq_iff_eq]
  exact ⟨fun same => ⟨c,rfl,same⟩,fun ⟨_,rfl,same⟩ => same⟩

theorem singlesSum (left : Singles l p) (right : Singles m q) : Singles (l + m) (fun c => p c || q c) := by
  intro w
  rw [Language.mem_add,left w,right w]
  simp only [Bool.or_eq_true]
  constructor
  · rintro (⟨c,here,same⟩ | ⟨c,here,same⟩)
    · exact ⟨c,Or.inl here,same⟩
    · exact ⟨c,Or.inr here,same⟩
  · rintro ⟨c,here | here,same⟩
    · exact Or.inl ⟨c,here,same⟩
    · exact Or.inr ⟨c,here,same⟩

theorem letterSingles : Singles letter Char.isAlpha := singlesSum (rangeSingles upperRange) (rangeSingles lowerRange)

theorem nameSingles : Singles (letter + digit + only '_') isNameChar :=
  singlesSum (singlesSum letterSingles digitSingles) (onlySingles '_')

theorem starSingles (single : Singles l p) : w ∈ l∗ ↔ ∀ c ∈ w, p c = true := by
  rw [Language.mem_kstar]
  constructor
  · rintro ⟨parts,rfl,inside⟩ c member
    obtain ⟨part,among,within⟩ := List.mem_flatten.mp member
    obtain ⟨d,kind,rfl⟩ := (single part).mp (inside part among)
    exact List.mem_singleton.mp within ▸ kind
  · intro all
    refine ⟨w.map (fun c => [c]),?_,fun part among => ?_⟩
    · induction w with
      | nil => rfl
      | cons c rest ih => simp [← ih (fun d member => all d (List.mem_cons_of_mem c member))]
    · obtain ⟨c,member,rfl⟩ := List.mem_map.mp among
      exact (single _).mpr ⟨c,all c member,rfl⟩

theorem singleThenStar (single : Singles l p) (others : Singles m q) : w ∈ l * m∗ ↔
    ∃ c tail, w = c :: tail ∧ p c = true ∧ ∀ d ∈ tail, q d = true := by
  rw [Language.mem_mul]
  constructor
  · rintro ⟨front,first,tail,rest,rfl⟩
    obtain ⟨c,kind,rfl⟩ := (single front).mp first
    exact ⟨c,tail,rfl,kind,(starSingles others).mp rest⟩
  · rintro ⟨c,tail,rfl,kind,rest⟩
    exact ⟨[c],(single _).mpr ⟨c,kind,rfl⟩,tail,(starSingles others).mpr rest,rfl⟩

theorem pointDigits : w ∈ only '.' * digit∗ ↔
    ∃ fraction, (∀ c ∈ fraction, c.isDigit = true) ∧ w = '.' :: fraction := by
  rw [singleThenStar (onlySingles '.') digitSingles]
  simp only [beq_iff_eq]
  exact ⟨fun ⟨_,tail,same,rfl,digits⟩ => ⟨tail,digits,same⟩,fun ⟨tail,digits,same⟩ => ⟨_,tail,same,rfl,digits⟩⟩

theorem numberWords : w ∈ number.language ↔ Literal w := by
  simp only [language,Language.mem_add,Literal]
  constructor
  · rintro (digital | pointed)
    · obtain ⟨whole,first,rest,ends,rfl⟩ := Language.mem_mul.mp digital
      obtain ⟨c,tail,rfl,kind,digits⟩ := (singleThenStar digitSingles digitSingles).mp first
      have all : ∀ d ∈ c :: tail, d.isDigit = true := List.forall_mem_cons.mpr ⟨kind,digits⟩
      refine ⟨by simp,c :: tail,all,?_⟩
      rcases (Language.mem_add _ _ _).mp ends with none | pointed
      · exact Or.inl (by rw [(Language.mem_one _).mp none,List.append_nil])
      · obtain ⟨fraction,places,rfl⟩ := pointDigits.mp pointed
        exact Or.inr ⟨fraction,places,rfl⟩
    · obtain ⟨fraction,places,rfl⟩ := pointDigits.mp pointed
      exact ⟨by simp,[],by simp,Or.inr ⟨fraction,places,rfl⟩⟩
  · rintro ⟨filled,whole,digits,shape⟩
    cases whole with
    | nil =>
      rcases shape with rfl | ⟨fraction,places,rfl⟩
      · exact absurd rfl filled
      · exact Or.inr (pointDigits.mpr ⟨fraction,places,rfl⟩)
    | cons c tail =>
      obtain ⟨kind,others⟩ := List.forall_mem_cons.mp digits
      have first : c :: tail ∈ digit * digit∗ :=
        (singleThenStar digitSingles digitSingles).mpr ⟨c,tail,rfl,kind,others⟩
      refine Or.inl (Language.mem_mul.mpr ⟨c :: tail,first,?_⟩)
      rcases shape with rfl | ⟨fraction,places,rfl⟩
      · exact ⟨[],Or.inl rfl,List.append_nil _⟩
      · exact ⟨'.' :: fraction,Or.inr (pointDigits.mpr ⟨fraction,places,rfl⟩),rfl⟩

theorem nameWords : w ∈ name.language ↔
    ∃ c tail, w = c :: tail ∧ c.isAlpha = true ∧ ∀ d ∈ tail, isNameChar d = true :=
  singleThenStar letterSingles nameSingles

theorem operatorWords : w ∈ operator.language ↔ ∃ op : BinaryOp, w = [op.symbol] := by
  simp only [language,Language.mem_add,onlyWord]
  constructor
  · rintro ((((same | same) | same) | same) | same)
    · exact ⟨.add,same⟩
    · exact ⟨.sub,same⟩
    · exact ⟨.mul,same⟩
    · exact ⟨.div,same⟩
    · exact ⟨.pow,same⟩
  · rintro ⟨op,same⟩
    cases op <;> simp [same,BinaryOp.symbol]

def ofHead? (c : Char) : Option TokenClass :=
  if c.isDigit || c == '.' then some number
  else if c.isAlpha then some name
  else if c = '(' then some opening
  else if c = ')' then some closing
  else (BinaryOp.ofSymbol? c).map (fun _ => operator)

theorem headClass {k : TokenClass} (member : w ∈ k.language) : ∃ c tail, w = c :: tail ∧ ofHead? c = some k := by
  cases k with
  | number =>
    obtain ⟨c,tail,same,starts⟩ := literalHead (numberWords.mp member)
    exact ⟨c,tail,same,if_pos (by simpa using starts)⟩
  | name =>
    obtain ⟨c,tail,same,alpha,_⟩ := nameWords.mp member
    have noPoint : (c == '.') = false := by
      rw [beq_eq_false_iff_ne]
      intro point
      subst point
      contradiction
    refine ⟨c,tail,same,?_⟩
    rw [ofHead?,alphaNoDigit alpha,noPoint,if_neg (by decide),if_pos alpha]
  | operator =>
    obtain ⟨op,same⟩ := operatorWords.mp member
    exact ⟨_,[],same,by cases op <;> rfl⟩
  | opening => exact ⟨_,[],member,rfl⟩
  | closing => exact ⟨_,[],member,rfl⟩

theorem classOnce {j k : TokenClass} (left : w ∈ j.language) (right : w ∈ k.language) : j = k := by
  obtain ⟨c,tail,same,head⟩ := headClass left
  obtain ⟨d,rest,again,other⟩ := headClass right
  cases same.symm.trans again
  exact Option.some.inj (head.symm.trans other)

end TokenClass
end SymbolicCalculus
