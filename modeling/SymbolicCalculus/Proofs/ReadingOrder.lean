import SymbolicCalculus.Proofs.Rereading
import SymbolicCalculus.Proofs.Resumption
import SymbolicCalculus.Proofs.TokenClasses

/-! A tree read from left to right shows what it was read from: each number, variable, operator and function that
was taken is there once and in its order, and nothing else. Parentheses leave no trace of their own. -/
namespace SymbolicCalculus

inductive Mark (α : Type) where
  | number (value : α)
  | variable (name : String)
  | operator (op : BinaryOp)
  | function (name : String)
  deriving DecidableEq, Repr

section marks
variable {α : Type}

def UnaryOp.mark : UnaryOp → Mark α
  | .neg => .operator .sub
  | f => .function f.word

def Expr.marks : Expr α → List (Mark α)
  | const value => [.number value]
  | var name => [.variable name]
  | binary op left right => left.marks ++ .operator op :: right.marks
  | unary op operand => op.mark :: operand.marks

def Token.counts : Token → Bool
  | .leftParen => false
  | .rightParen => false
  | _ => true

def Token.mark? [Numeral α] : Token → Option (Mark α)
  | .number digits => (Numeral.ofLiteral digits : Except LiteralFault α).toOption.map .number
  | .variable name => some (.variable name)
  | .operator op => some (.operator op)
  | .function name => some (.function name)
  | _ => none

theorem marksCount (t : Expr α) : t.marks.length = t.count := by
  induction t with
  | const | var => rfl
  | binary op left right ihl ihr =>
    simp only [Expr.marks,Expr.count,List.length_append,List.length_cons,ihl,ihr]
    omega
  | unary op operand ih => simp only [Expr.marks,Expr.count,List.length_cons,ih]

theorem markVariable {t : Expr α} {name : String} : .variable name ∈ t.marks ↔ name ∈ t.occurrences := by
  induction t with
  | const | var => simp [Expr.marks,Expr.occurrences]
  | binary op left right ihl ihr => simp [Expr.marks,Expr.occurrences,ihl,ihr]
  | unary op operand ih => cases op <;> simp [Expr.marks,Expr.occurrences,UnaryOp.mark,ih]

theorem markNumber {t : Expr α} {c : α} : .number c ∈ t.marks ↔ .const c ∈ t.parts := by
  induction t with
  | const | var => simp [Expr.marks,Expr.parts]
  | binary op left right ihl ihr => simp [Expr.marks,Expr.parts,ihl,ihr]
  | unary op operand ih => cases op <;> simp [Expr.marks,Expr.parts,UnaryOp.mark,ih]

end marks

section phrases
open Grammar
variable {α : Type} [Numeral α]

omit [Numeral α] in
theorem functionMark {f : UnaryOp} (known : f ∈ functions) : (f.mark : Mark α) = .function f.word := by
  cases f with
  | neg => exact absurd rfl (functionNoMinus known)
  | _ => rfl

theorem phraseMarks {k : Category} {n : Nat} {w : List Token} {t : Expr α} (phrase : Phrase k n w t) :
    (w.filter Token.counts).map Token.mark? = t.marks.map some := by
  induction phrase with
  | number read => simp [List.filter_cons,Token.counts,Token.mark?,Expr.marks,read,Except.toOption]
  | named name => rfl
  | call known _ ih => simp [List.filter_cons,Token.counts,Token.mark?,Expr.marks,functionMark known,ih]
  | group _ ih => simpa [List.filter_cons,Token.counts] using ih
  | minus _ ih => simp [List.filter_cons,Token.counts,Token.mark?,Expr.marks,UnaryOp.mark,ih]
  | base _ ih | single _ ih | alone _ ih => exact ih
  | power _ _ ihl ihr | product _ _ _ ihl ihr | sum _ _ _ ihl ihr =>
    simp [List.filter_cons,Token.counts,Token.mark?,Expr.marks,ihl,ihr]

theorem markToken {k : Category} {n : Nat} {w : List Token} {t : Expr α} (phrase : Phrase k n w t) (mark : Mark α) :
    mark ∈ t.marks ↔ ∃ token ∈ w, token.mark? = some mark := by
  have same := phraseMarks phrase
  have shown : mark ∈ t.marks ↔ some mark ∈ (w.filter Token.counts).map Token.mark? := by simp [same]
  rw [shown,List.mem_map]
  refine exists_congr fun token => ?_
  rw [List.mem_filter,and_assoc]
  refine and_congr_right fun _ => ⟨fun both => both.2,fun found => ⟨?_,found⟩⟩
  cases token <;> first | rfl | cases found

theorem markVariableToken {token : Token} {name : String} :
    token.mark? = some (.variable name : Mark α) ↔ token = .variable name := by
  cases token <;> simp [Token.mark?]

theorem markNumberToken {token : Token} {c : α} :
    token.mark? = some (.number c) ↔ ∃ digits, token = .number digits ∧ Numeral.ofLiteral digits = .ok c := by
  cases token with
  | number digits =>
    cases read : (Numeral.ofLiteral digits : Except LiteralFault α) <;> simp [Token.mark?,Except.toOption,read]
  | _ => simp [Token.mark?]

theorem freshFound {text : String} {limit : Nat} {extent : Extent} {t : Expr α} {p : Parser}
    (found : Parser.readExpression limit extent (Parser.ofText text) = .ok t p) :
    readExpression limit extent (Remaining.ofText text) = .ok t p.remaining := by
  have alike := readExpressionFollows (α := α) limit extent _ _ (freshAt text) (fun never => by cases never)
  rw [found] at alike
  generalize (readExpression limit extent (Remaining.ofText text) : Outcome α) = below at alike
  cases alike with
  | ok _ here =>
    have unmoved : Item.shift 0 = id := rfl
    rw [here.left]
    simp [Remaining.shift,unmoved]

theorem takenPhrase {text : String} {limit : Nat} {extent : Extent} {t : Expr α} {p : Parser}
    (found : Parser.readExpression limit extent (Parser.ofText text) = .ok t p) :
    ∃ n w items, Phrase .expression n w t ∧ Spells items w ∧ (Cursor.ofText text).items = items ++ p.untaken.items ∧
      Sourced w := by
  obtain ⟨n,w,items,phrase,spells,same,_⟩ := readFits (freshFound found)
  have split : (Cursor.ofText text).items = items ++ p.untaken.items := congrArg Remaining.items same
  exact ⟨n,w,items,phrase,spells,split,sourcedItems spells (fun item inside => split ▸ List.mem_append_left _ inside)⟩

end phrases

/-- No token is lost, doubled or moved on its way into a tree. What a parser has taken from a text for a tree are the
first items of the text, all of them tokens, and the rest is still to be taken; nothing is if it had to read to the
end. Read from left to right the tree shows the taken tokens one for one, only the parentheses left out; so it has as
many nodes as there are such tokens, and its variables are those that were taken, each one once and a name. The
constants of a tree over the reals are numbers without a sign. -/
theorem orderKept :
    (∀ {α : Type} [Numeral α] (text : String) (limit : Nat) (extent : Extent) (t : Expr α) (p : Parser),
      Parser.readExpression limit extent (Parser.ofText text) = .ok t p →
      ∃ (items : List Item) (w : List Token), (Cursor.ofText text).items = items ++ p.untaken.items ∧
        (extent = .whole → p.untaken.items = []) ∧ items.map Item.piece = w.map Piece.token ∧
        (w.filter Token.counts).map Token.mark? = t.marks.map some ∧ t.count = (w.filter Token.counts).length ∧
        (∀ name, name ∈ t.names ↔ .variable name ∈ w) ∧ t.names.Pairwise (· < ·) ∧
        ∀ name ∈ t.names, name.toList ∈ TokenClass.name.language) ∧
    ∀ (text : String) (limit : Nat) (extent : Extent) (t : Expr Float) (p : Parser),
      Parser.readExpression limit extent (Parser.ofText text) = .ok t p →
      ∀ c, .const c ∈ t.parts → c.isNaN = false ∧ Binary64.isNegative c = false := by
  constructor
  · intro α _ text limit extent t p found
    obtain ⟨n,w,items,phrase,spells,split,sourced⟩ := takenPhrase found
    have marks := phraseMarks phrase
    have size := congrArg List.length marks
    rw [List.length_map,List.length_map,marksCount] at size
    have named (name : String) : name ∈ t.names ↔ .variable name ∈ w := by
      rw [t.nameOccurs,← markVariable,markToken phrase]
      simp only [markVariableToken,exists_eq_right]
    refine ⟨items,w,split,fun whole => ?_,spells,marks,size.symm,named,Bindings.namesIncreasing _,
      fun name member => TokenClass.nameWords.mpr (sourced.names name ((named name).mp member))⟩
    subst whole
    exact Grammar.wholeTaken (freshFound found)
  · intro text limit extent t p found c member
    obtain ⟨n,w,items,phrase,_,_,sourced⟩ := takenPhrase found
    obtain ⟨token,taken,shown⟩ := (markToken phrase _).mp (markNumber.mpr member)
    obtain ⟨digits,rfl,read⟩ := markNumberToken.mp shown
    have literal := sourced.numbers digits taken
    exact ⟨RealNumber.literalNumberReal literal read,RealNumber.literalUnsignedReal literal read⟩

theorem orderKeptGroup : ∃ (t : Expr Float) (p : Parser) (items : List Item),
    Parser.readExpression 5 .first (Parser.ofText "-(x*y)z") = .ok t p ∧
    (Cursor.ofText "-(x*y)z").items = items ++ p.untaken.items ∧ items.length = 6 ∧
    t.marks = [.operator .sub,.variable "x",.operator .mul,.variable "y"] := by
  have found : Parser.readExpression 5 .first (Parser.ofText "-(x*y)z") =
      .ok (.unary .neg (.binary .mul (.var "x") (.var "y")) : Expr Float) ⟨⟨[],7⟩,some ⟨.variable "z",⟨6,7⟩⟩,0⟩ := by cbv
  obtain ⟨items,w,split,_⟩ := orderKept.1 _ _ _ _ _ found
  refine ⟨_,_,items,found,split,?_,rfl⟩
  have all : (Cursor.ofText "-(x*y)z").items.length = 7 := by decide +kernel
  rw [split,List.length_append] at all
  have one : (Parser.untaken ⟨⟨[],7⟩,some ⟨.variable "z",⟨6,7⟩⟩,0⟩).items.length = 1 := by decide +kernel
  omega

end SymbolicCalculus
