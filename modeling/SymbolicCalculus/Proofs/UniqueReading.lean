import SymbolicCalculus.Proofs.RealTexts

/-! Two trees are never rendered alike. What the text of a tree begins with, up to the first parenthesis or blank, tells
the constant, the variable or the function, and what is parenthesized behind it tells the operands. -/
namespace SymbolicCalculus
open RealNumber (IsFinite signText textFinite textReads)
open Decimal (literalPositionalText)

structure Displayed {α : Type} [Numeral α] (p : α → Prop) : Prop where
  shape {c : α} (held : p c) : ∃ digits, Literal digits ∧
    ((Numeral.display c).toList = digits ∨ (Numeral.display c).toList = '-' :: digits)
  distinct {c d : α} (first : p c) (second : p d) (same : Numeral.display c = Numeral.display d) : c = d

namespace Expr
variable {α : Type}

def Legible (p : α → Prop) : Expr α → Prop
  | const c => p c
  | var name => IsName name
  | binary _ left right => left.Legible p ∧ right.Legible p
  | unary _ operand => operand.Legible p

def lead [Numeral α] : Expr α → List Char
  | const c => (Numeral.display c).toList
  | var name => name.toList
  | binary _ _ _ => []
  | unary op _ => op.word.toList

def enclosed [Numeral α] : Expr α → List Char
  | const _ => []
  | var _ => []
  | binary op left right =>
      '(' :: (left.render.toList ++ ' ' :: op.symbol :: ' ' :: (right.render.toList ++ [')']))
  | unary _ operand => '(' :: (operand.render.toList ++ [')'])

theorem renderLead [Numeral α] (t : Expr α) : t.render.toList = t.lead ++ t.enclosed := by
  cases t <;> simp [render,lead,enclosed]

end Expr

section reading
variable {α : Type} [Numeral α] {p : α → Prop} {s t : Expr α} {rest tail : List Char}

def isLeadChar (c : Char) : Bool := isNameChar c || c == '.' || c == '-'

def Behind (rest : List Char) : Prop := ∀ c ∈ rest.head?, c = ' ' ∨ c = ')'

theorem behindBlank (rest : List Char) : Behind (' ' :: rest) := fun _ head => Or.inl (Option.some.inj head).symm

theorem behindClosing (rest : List Char) : Behind (')' :: rest) := fun _ head => Or.inr (Option.some.inj head).symm

theorem behindNoOpening (behind : Behind rest) (cs : List Char) : rest ≠ '(' :: cs := by
  intro same
  rcases behind '(' (by rw [same]; rfl) with other | other <;> cases other

theorem literalLead {cs : List Char} (literal : Literal cs) : ∀ c ∈ cs, isLeadChar c = true := by
  intro c member
  rcases literalChars literal c member with digit | rfl
  · simp [isLeadChar,isNameChar,Char.isAlphanum,digit]
  · rfl

theorem leadChars (displayed : Displayed p) (legible : t.Legible p) : ∀ c ∈ t.lead, isLeadChar c = true := by
  cases t with
  | const d =>
    obtain ⟨digits,literal,shown | shown⟩ := displayed.shape legible
    · rw [Expr.lead,shown]
      exact literalLead literal
    · rw [Expr.lead,shown]
      exact List.forall_mem_cons.mpr ⟨rfl,literalLead literal⟩
  | var name =>
    intro c member
    simp [isLeadChar,nameFree legible c member]
  | binary op left right => simp [Expr.lead]
  | unary op operand => cases op <;> exact List.all_eq_true.mp rfl

theorem leadEnds (behind : Behind rest) (t : Expr α) : ∀ c ∈ (t.enclosed ++ rest).head?, isLeadChar c = false := by
  have leafEnds : ∀ c ∈ rest.head?, isLeadChar c = false := by
    intro c head
    rcases behind c head with rfl | rfl <;> rfl
  have opensEnds (cs : List Char) : ∀ c ∈ ('(' :: cs).head?, isLeadChar c = false := by
    intro c head
    cases head
    rfl
  cases t with
  | const d => exact leafEnds
  | var name => exact leafEnds
  | binary op left right => exact opensEnds _
  | unary op operand => exact opensEnds _

theorem leadSame (displayed : Displayed p) (first : s.Legible p) (second : t.Legible p) (behind : Behind rest)
    (ends : Behind tail) (same : s.render.toList ++ rest = t.render.toList ++ tail) :
    s.lead = t.lead ∧ s.enclosed ++ rest = t.enclosed ++ tail := by
  rw [Expr.renderLead,Expr.renderLead,List.append_assoc,List.append_assoc] at same
  obtain ⟨leads,encloses⟩ := spanEnds (leadChars displayed first) (leadEnds behind s)
  obtain ⟨leading,enclosing⟩ := spanEnds (leadChars displayed second) (leadEnds ends t)
  rw [same] at leads encloses
  exact ⟨leads.symm.trans leading,encloses.symm.trans enclosing⟩

theorem nameNotDisplayed (displayed : Displayed p) {c : α} (held : p c) {name : String} (valid : IsName name) :
    (Numeral.display c).toList ≠ name.toList := by
  obtain ⟨letter,behind,spelled,alpha,_⟩ := valid
  obtain ⟨digits,literal,shown | shown⟩ := displayed.shape held
  · obtain ⟨d,more,begins,starts⟩ := literalHead literal
    rw [shown,begins,spelled]
    intro same
    obtain ⟨rfl,_⟩ := List.cons.inj same
    rcases starts with digit | rfl
    · rw [alphaNoDigit alpha] at digit
      cases digit
    · cases alpha
  · rw [shown,spelled]
    intro same
    obtain ⟨rfl,_⟩ := List.cons.inj same
    cases alpha

theorem wordFilled (op : UnaryOp) : op.word.toList ≠ [] := by
  cases op <;> decide

theorem wordSame {op other : UnaryOp} (same : op.word.toList = other.word.toList) : op = other := by
  revert same
  cases op <;> cases other <;> decide

theorem symbolSame {op other : BinaryOp} (same : op.symbol = other.symbol) : op = other := by
  have read := symbolRead other
  rw [← same,symbolRead op] at read
  exact Option.some.inj read

theorem binaryEnclosed (op : BinaryOp) (left right : Expr α) (rest : List Char) :
    (Expr.binary op left right).enclosed ++ rest =
      '(' :: (left.render.toList ++ ' ' :: op.symbol :: ' ' :: (right.render.toList ++ ')' :: rest)) := by
  simp [Expr.enclosed]

theorem unaryEnclosed (op : UnaryOp) (operand : Expr α) (rest : List Char) :
    (Expr.unary op operand).enclosed ++ rest = '(' :: (operand.render.toList ++ ')' :: rest) := by
  simp [Expr.enclosed]

theorem renderedOnce (displayed : Displayed p) (first : s.Legible p) (second : t.Legible p) (behind : Behind rest)
    (ends : Behind tail) (same : s.render.toList ++ rest = t.render.toList ++ tail) : s = t ∧ rest = tail := by
  -- The texts behind both trees grow with the operators around them, so they vary in the induction.
  induction s generalizing t rest tail with
  | const c =>
    obtain ⟨leads,encloses⟩ := leadSame displayed first second behind ends same
    cases t with
    | const d => exact ⟨congrArg _ (displayed.distinct first second (String.toList_inj.mp leads)),encloses⟩
    | var name => exact absurd leads (nameNotDisplayed displayed first second)
    | binary _ _ _ => exact absurd encloses (behindNoOpening behind _)
    | unary _ _ => exact absurd encloses (behindNoOpening behind _)
  | var name =>
    obtain ⟨leads,encloses⟩ := leadSame displayed first second behind ends same
    cases t with
    | const d => exact absurd leads.symm (nameNotDisplayed displayed second first)
    | var other => exact ⟨congrArg _ (String.toList_inj.mp leads),encloses⟩
    | binary _ _ _ => exact absurd encloses (behindNoOpening behind _)
    | unary _ _ => exact absurd encloses (behindNoOpening behind _)
  | binary op left right ihl ihr =>
    obtain ⟨leads,encloses⟩ := leadSame displayed first second behind ends same
    cases t with
    | const _ => exact absurd encloses.symm (behindNoOpening ends _)
    | var _ => exact absurd encloses.symm (behindNoOpening ends _)
    | binary op' left' right' =>
      rw [binaryEnclosed,binaryEnclosed] at encloses
      obtain ⟨lefts,joined⟩ := ihl first.1 second.1 (behindBlank _) (behindBlank _) (List.cons.inj encloses).2
      obtain ⟨symbols,behindSymbol⟩ := List.cons.inj (List.cons.inj joined).2
      obtain ⟨rights,closed⟩ :=
        ihr first.2 second.2 (behindClosing _) (behindClosing _) (List.cons.inj behindSymbol).2
      obtain rfl := symbolSame symbols
      exact ⟨by rw [lefts,rights],(List.cons.inj closed).2⟩
    | unary other _ => exact absurd leads.symm (wordFilled other)
  | unary op operand ih =>
    obtain ⟨leads,encloses⟩ := leadSame displayed first second behind ends same
    cases t with
    | const _ => exact absurd encloses.symm (behindNoOpening ends _)
    | var _ => exact absurd encloses.symm (behindNoOpening ends _)
    | binary _ _ _ => exact absurd leads (wordFilled op)
    | unary other operand' =>
      rw [unaryEnclosed,unaryEnclosed] at encloses
      have legible : operand'.Legible p := second
      obtain ⟨operands,closed⟩ := ih first legible (behindClosing _) (behindClosing _) (List.cons.inj encloses).2
      obtain rfl := wordSame leads
      exact ⟨by rw [operands],(List.cons.inj closed).2⟩

theorem renderedAlike (displayed : Displayed p) (first : s.Legible p) (second : t.Legible p)
    (same : s.render = t.render) : s = t := by
  have none : Behind [] := by simp [Behind]
  exact (renderedOnce displayed first second none none (by rw [same])).1

end reading

theorem realDisplayed : Displayed IsFinite where
  shape {c} finite := by
    refine ⟨_,literalPositionalText (Binary64.code c),?_⟩
    have spelled : (Numeral.display c).toList = signText c ++ Decimal.positionalText (Binary64.code c) := by
      rw [← String.toList_ofList (l := signText c ++ _),← textFinite finite]
      rfl
    rw [spelled,signText]
    split
    · exact Or.inr rfl
    · exact Or.inl rfl
  distinct {c d} first second same := by
    have texts : RealNumber.text c = RealNumber.text d := same
    exact Option.some.inj (by rw [← textReads first,texts,textReads second])

/-- No text renders two trees, if the variables of the trees are names, and if their constants are displayed as
literals, with or without a minus, no two of them alike. Finite real numbers are displayed so. A constant with a minus
is then told from the negation of an unsigned one, and a zero from the other zero. -/
theorem rendersApart :
    (∀ {α : Type} [Numeral α] {p : α → Prop}, Displayed p → ∀ s t : Expr α, s.Legible p → t.Legible p →
      s.render = t.render → s = t) ∧
    ∀ s t : Expr Float, s.Legible IsFinite → t.Legible IsFinite → s.render = t.render → s = t :=
  ⟨fun displayed _ _ => renderedAlike displayed,fun _ _ => renderedAlike realDisplayed⟩

theorem rendersApartNegation : IsFinite (-2.5) ∧ IsFinite 2.5 ∧ IsFinite 0 ∧ IsFinite (-0) ∧
    (Expr.binary .add (.const (-2.5 : Float)) (.var "sin")).render ≠
      (Expr.binary .add (.unary .neg (.const 2.5)) (.var "sin")).render ∧
    (Expr.const (0 : Float)).render ≠ (Expr.const (-0 : Float)).render := by
  have name : IsName "sin" := ⟨'s',['i','n'],rfl,rfl,List.all_eq_true.mp rfl⟩
  have negative : IsFinite (-2.5) := by decide +kernel
  have positive : IsFinite 2.5 := by decide +kernel
  have zero : IsFinite 0 := by decide +kernel
  have minus : IsFinite (-0) := by decide +kernel
  refine ⟨negative,positive,zero,minus,fun same => ?_,fun same => ?_⟩
  · have trees := rendersApart.2 (.binary .add (.const (-2.5)) (.var "sin"))
      (.binary .add (.unary .neg (.const 2.5)) (.var "sin")) ⟨negative,name⟩ ⟨positive,name⟩ same
    cases trees
  · have trees := rendersApart.2 (.const 0) (.const (-0)) zero minus same
    have bits : (0 : Float).toBits = (-0 : Float).toBits := congrArg Float.toBits (Expr.const.inj trees)
    exact absurd bits (by decide +kernel)

end SymbolicCalculus
