import SymbolicCalculus.Evaluation
import SymbolicCalculus.Proofs.Lexing
import SymbolicCalculus.Proofs.Recognition

/-! A rendered tree is read back as the same tree, except that a constant displayed with a minus comes
back as the negation of an unsigned one. How many levels the reading needs is known from the tree, and
a limit below that refuses the text. -/
namespace SymbolicCalculus

section display
variable {α : Type} [Numeral α] {c : α} {digits : String}

def signed (c : α) : Bool := (Numeral.display c).toList.head? == some '-'

theorem literalSigned (literal : Literal digits.toList) (shown : Numeral.display c = digits) : signed c = false := by
  unfold signed
  rw [shown]
  exact beq_eq_false_iff_ne.mpr (literalUnsigned literal).1

theorem minusSigned (shown : Numeral.display c = "-" ++ digits) : signed c = true := by
  unfold signed
  rw [shown]
  simp

end display

section trees
variable {α : Type} [Numeral α] [Scalar α]

/- A constant can be read back: it is displayed as a literal for itself, or as a minus and a literal for
its negation, and then negating twice loses nothing. -/
inductive Written (c : α) : Prop where
  | unsigned {digits} (literal : Literal digits.toList) (shown : Numeral.display c = digits)
      (read : Numeral.ofLiteral digits = .ok c)
  | signed {digits} (literal : Literal digits.toList) (shown : Numeral.display c = "-" ++ digits)
      (read : Numeral.ofLiteral digits = .ok (Scalar.unary .neg c)) (twice : Scalar.unary .neg (Scalar.unary .neg c) = c)

namespace Expr

def Presentable : Expr α → Prop
  | const c => Written c
  | var name => IsName name
  | binary _ left right => left.Presentable ∧ right.Presentable
  | unary _ operand => operand.Presentable

def normal : Expr α → Expr α
  | const c => if signed c then unary .neg (const (Scalar.unary .neg c)) else const c
  | var name => var name
  | binary op left right => binary op left.normal right.normal
  | unary op operand => unary op operand.normal

/- Constructs that are open at once where the rendered text is nested deepest. Behind a `^` there is one
more than before it, and a negation opens its parenthesis inside the minus. -/
def need : Expr α → Nat
  | const c => if signed c then 1 else 0
  | var _ => 0
  | binary op left right => 1 + (if op = .pow then max left.need (1 + right.need) else max left.need right.need)
  | unary op operand => (if op = .neg then 2 else 1) + operand.need

def reach : Expr α → Nat
  | const _ => 0
  | var _ => 0
  | binary op left right =>
      max (if op.chains then (binary op left right).normal.depth else 0) (max left.reach right.reach)
  | unary _ operand => operand.reach

theorem normalTallest (t : Expr α) : t.normal.tallest = t.reach := by
  induction t with
  | const c => unfold normal; split <;> rfl
  | var => rfl
  | binary op left right ihl ihr => simp only [normal,tallest,reach,ihl,ihr]
  | unary op operand ih => exact ih

theorem normalEvaluate {t : Expr α} (presentable : t.Presentable) (context : Bindings α) :
    t.normal.evaluate context = t.evaluate context := by
  induction t with
  | const c =>
    rcases presentable with ⟨literal,shown,_⟩ | ⟨_,shown,_,twice⟩
    · simp [normal,literalSigned literal shown]
    · simp only [normal,minusSigned shown,if_true,evaluate,bind,Except.bind,pure,Except.pure,twice]
  | var => rfl
  | binary op left right ihl ihr => simp only [normal,evaluate,ihl presentable.1,ihr presentable.2]
  | unary op operand ih => simp only [normal,evaluate,ih presentable]

end Expr

open Grammar

omit [Scalar α] in
theorem joinedPhrase (op : BinaryOp) {n m : Nat} {w v : List Token} {a b : Expr α} (left : Phrase .primary n w a)
    (right : Phrase .primary m v b) :
    Phrase .expression (if op = .pow then max n (1 + m) else max n m) (w ++ .operator op :: v) (.binary op a b) := by
  cases op with
  | add => exact .sum rfl (.alone (.single (.base left))) (.single (.base right))
  | sub => exact .sum rfl (.alone (.single (.base left))) (.single (.base right))
  | mul => exact .alone (.product rfl (.single (.base left)) (.base right))
  | div => exact .alone (.product rfl (.single (.base left)) (.base right))
  | pow =>
    rw [if_pos rfl,Nat.add_comm]
    exact .alone (.single (.power left (.base right)))

theorem functionKnown {f : UnaryOp} (other : f ≠ .neg) : f ∈ functions := by
  cases f <;> first | contradiction | decide

omit [Scalar α] in
theorem lexedDecided {text : String} {n : Nat} {w : List Token} {e : Expr α} (phrase : Phrase .expression n w e)
    (lexes : Lexes text.toList [] w) (limit : Nat) :
    Decided limit (Fits limit limit n e) (expression limit (inside limit limit) (Remaining.ofText text))
      (.ok e ⟨[],text.utf8ByteSize⟩) := by
  obtain ⟨items,stop,spells,same⟩ := lexes 0
  have ends : (Cursor.mk [] stop).items = [] := itemsAtEnd rfl
  have start : Remaining.ofText text = ⟨items ++ [],text.utf8ByteSize⟩ := by
    rw [ends] at same
    rw [← same]
    rfl
  have ready : Ready .expression ⟨[],text.utf8ByteSize⟩ := ⟨endToken text.utf8ByteSize,rfl,rfl⟩
  rw [start]
  exact settledComplete (phraseSettled phrase) limit ⟨[],_⟩ spells ready

omit [Scalar α] in
theorem lexedRead {cs : List Char} {limit n : Nat} {w : List Token} {e : Expr α} (phrase : Phrase .expression n w e)
    (lexes : Lexes cs [] w) (fits : Fits limit limit n e) (extent : Extent) :
    parse limit extent (String.ofList cs) = .ok e := by
  rw [← String.toList_ofList (l := cs)] at lexes
  have read := (lexedDecided phrase lexes limit).read fits
  cases extent with
  | first => exact parseFound.mpr ⟨_,read⟩
  | whole => exact parseFound.mpr ⟨_,wholeReads read⟩

theorem renderedPhrase {t : Expr α} (presentable : t.Presentable) :
    ∃ w, Phrase .primary t.need w t.normal ∧ ∀ rest, Apart rest → Lexes (t.render.toList ++ rest) rest w := by
  induction t with
  | const c =>
    rcases presentable with @⟨digits,literal,shown,read⟩ | @⟨digits,literal,shown,read,_⟩
    · refine ⟨[.number digits],?_,fun rest apart => ?_⟩
      · rw [Expr.need,Expr.normal,literalSigned literal shown]
        exact .number read
      · rw [Expr.render,shown]
        exact lexesNumber literal apart
    · refine ⟨[.operator .sub,.number digits],?_,fun rest apart => ?_⟩
      · rw [Expr.need,Expr.normal,minusSigned shown]
        exact .minus (.number read)
      · rw [Expr.render,shown,String.toList_append]
        exact lexesThen (lexesOperator .sub) (lexesNumber literal apart)
  | var name => exact ⟨_,.named name,fun rest apart => lexesVariable presentable apart⟩
  | binary op left right ihl ihr =>
    obtain ⟨w,first,lexes⟩ := ihl presentable.1
    obtain ⟨v,second,lexed⟩ := ihr presentable.2
    refine ⟨.leftParen :: (w ++ .operator op :: v) ++ [.rightParen],?_,fun rest _ => ?_⟩
    · rw [Expr.need,Expr.normal,Nat.add_comm]
      exact .group (joinedPhrase op first second)
    · have spelled : (Expr.binary op left right).render.toList ++ rest =
          '(' :: ((left.render.toList ++ ' ' :: op.symbol :: ' ' :: right.render.toList) ++ ')' :: rest) := by
        simp [Expr.render]
      rw [spelled]
      apply lexesEnclosed
      rw [List.append_assoc]
      exact lexesThen (lexes _ apartBlank)
        (lexesBlank (lexesThen (lexesOperator op) (lexesBlank (lexed (')' :: rest) apartClosing))))
  | unary op operand ih =>
    obtain ⟨w,inner,lexes⟩ := ih presentable
    have argument : Phrase .expression operand.need w operand.normal := .alone (.single (.base inner))
    have spelled (rest : List Char) : (Expr.unary op operand).render.toList ++ rest =
        op.word.toList ++ '(' :: (operand.render.toList ++ ')' :: rest) := by simp [Expr.render]
    have enclosed (rest : List Char) := lexesEnclosed (lexes (')' :: rest) apartClosing)
    by_cases negates : op = .neg
    · subst negates
      refine ⟨.operator .sub :: (.leftParen :: w ++ [.rightParen]),?_,fun rest _ => ?_⟩
      · rw [Expr.need,if_pos rfl,Nat.add_comm]
        exact .minus (.group argument)
      · rw [spelled]
        exact lexesThen (lexesOperator .sub) (enclosed rest)
    · have known := functionKnown negates
      refine ⟨.function op.word :: (.leftParen :: w ++ [.rightParen]),?_,fun rest _ => ?_⟩
      · rw [Expr.need,if_neg negates,Nat.add_comm]
        exact .call known argument
      · rw [spelled]
        exact lexesThen (lexesFunction known) (enclosed rest)

theorem renderedDecided {t : Expr α} (presentable : t.Presentable) (limit : Nat) :
    Decided limit (max t.need t.reach ≤ limit) (expression limit (inside limit limit) (Remaining.ofText t.render))
      (.ok t.normal ⟨[],t.render.utf8ByteSize⟩) := by
  obtain ⟨w,phrase,lexes⟩ := renderedPhrase presentable
  have whole : Phrase .expression t.need w t.normal := .alone (.single (.base phrase))
  have spelled := lexes [] apartNone
  rw [List.append_nil] at spelled
  refine decidedIff ?_ (lexedDecided whole spelled limit)
  rw [Fits,t.normalTallest]
  omega

end trees

/-- Rendering and reading are inverse up to the minus of signed constants. A presentable tree is read back
from its text in normal form, if the limit is at least the levels that the text needs and the reach of
the tree, and refused for the limit below that. The normal form has the same value everywhere. -/
theorem rendersBack {α : Type} [Numeral α] [Scalar α] (t : Expr α) (presentable : t.Presentable) (limit : Nat) :
    (max t.need t.reach ≤ limit → parse limit .whole t.render = .ok t.normal) ∧
    (limit < max t.need t.reach →
      ∃ spans, (parse limit .whole t.render : Except Failure (Expr α)) = .error ⟨.nestingLimit limit,spans⟩) ∧
    ∀ context, t.normal.evaluate context = t.evaluate context := by
  have decided := renderedDecided presentable limit
  refine ⟨fun enough => ?_,fun short => ?_,Expr.normalEvaluate presentable⟩
  · exact Grammar.parseFound.mpr ⟨_,Grammar.wholeReads (decided.read enough)⟩
  · obtain ⟨spans,after,refused⟩ := decided.refused (Nat.not_le.mpr short)
    exact ⟨spans,Grammar.parseFailed.mpr ⟨after,Grammar.wholeFails refused⟩⟩

theorem rendersBackPower : (Expr.binary .pow (.const (-2.5 : Float)) (.unary .neg (.var "x"))).Presentable ∧
    (parse 4 .whole "(-2.5 ^ -(x))" : Except Failure (Expr Float)) =
      .ok (.binary .pow (.unary .neg (.const 2.5)) (.unary .neg (.var "x"))) ∧
    ∃ spans, (parse 3 .whole "(-2.5 ^ -(x))" : Except Failure (Expr Float)) = .error ⟨.nestingLimit 3,spans⟩ := by
  have shown : Numeral.display (-2.5 : Float) = "-" ++ "2.5" := by decide +kernel
  have value : RealNumber.ofText? "2.5" = some 2.5 := by decide +kernel
  have twice : - -(2.5 : Float) = 2.5 := by decide +kernel
  have literal : Literal "2.5".toList := ⟨by decide,['2'],List.all_eq_true.mp rfl,Or.inr ⟨['5'],List.all_eq_true.mp rfl,rfl⟩⟩
  have negated : Scalar.unary .neg (-2.5 : Float) = 2.5 := twice
  have read : Numeral.ofLiteral "2.5" = Except.ok (Scalar.unary .neg (-2.5 : Float)) := by
    simp [Numeral.ofLiteral,value,negated]
  have written : Written (-2.5 : Float) := .signed literal shown read (by rw [negated]; rfl)
  have name : IsName "x" := ⟨'x',[],rfl,rfl,by simp⟩
  have minus : signed (-2.5 : Float) = true := minusSigned shown
  have back := rendersBack (.binary .pow (.const (-2.5 : Float)) (.unary .neg (.var "x"))) ⟨written,name⟩
  have text : (Expr.binary .pow (.const (-2.5 : Float)) (.unary .neg (.var "x"))).render = "(-2.5 ^ -(x))" := by
    simp only [Expr.render,shown]
    decide +kernel
  rw [text] at back
  simp only [Expr.need,Expr.reach,Expr.normal,minus,negated] at back
  exact ⟨⟨written,name⟩,(back 4).1 (by decide),(back 3).2.1 (by decide)⟩

end SymbolicCalculus
