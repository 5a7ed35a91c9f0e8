import SymbolicCalculus.Grammar

/-! The grammar of expressions as a relation between lists of tokens and trees, without a reader.
A phrase also says how many constructs stand open at once in it: a pair of parentheses, a function
around its argument, a minus around its operand, and a `^` around its exponent alone. -/
namespace SymbolicCalculus

def BinaryOp.chains : BinaryOp → Bool
  | .pow => false
  | _ => true

namespace Expr
variable {α : Type}

def tallest : Expr α → Nat
  | const _ => 0
  | var _ => 0
  | binary op left right =>
      max (if op.chains then (binary op left right).depth else 0) (max left.tallest right.tallest)
  | unary _ operand => operand.tallest

theorem tallestDepth (e : Expr α) : e.tallest ≤ e.depth := by
  induction e with
  | const => exact Nat.zero_le _
  | var => exact Nat.zero_le _
  | binary op left right ihl ihr =>
    simp only [tallest,depth]
    split <;> omega
  | unary op operand ih => simp only [tallest,depth]; omega

end Expr

namespace Grammar

inductive Category where
  | primary
  | factor
  | term
  | expression
  deriving DecidableEq, Repr

inductive Phrase {α : Type} [Numeral α] : Category → Nat → List Token → Expr α → Prop where
  | number {digits value} (read : Numeral.ofLiteral digits = .ok value) :
      Phrase .primary 0 [.number digits] (.const value)
  | named (name : String) : Phrase .primary 0 [.variable name] (.var name)
  | call {f n w e} (known : f ∈ functions) (argument : Phrase .expression n w e) :
      Phrase .primary (n + 1) (.function f.word :: .leftParen :: w ++ [.rightParen]) (.unary f e)
  | group {n w e} (inner : Phrase .expression n w e) :
      Phrase .primary (n + 1) (.leftParen :: w ++ [.rightParen]) e
  | minus {n w e} (operand : Phrase .primary n w e) :
      Phrase .primary (n + 1) (.operator .sub :: w) (.unary .neg e)
  | base {n w e} (only : Phrase .primary n w e) : Phrase .factor n w e
  | power {n m w v a b} (base : Phrase .primary n w a) (exponent : Phrase .factor m v b) :
      Phrase .factor (max n (m + 1)) (w ++ .operator .pow :: v) (.binary .pow a b)
  | single {n w e} (only : Phrase .factor n w e) : Phrase .term n w e
  | product {op n m w v a b} (joins : joinsFactors op)
      (left : Phrase .term n w a) (right : Phrase .factor m v b) :
      Phrase .term (max n m) (w ++ .operator op :: v) (.binary op a b)
  | alone {n w e} (only : Phrase .term n w e) : Phrase .expression n w e
  | sum {op n m w v a b} (joins : joinsTerms op)
      (left : Phrase .expression n w a) (right : Phrase .term m v b) :
      Phrase .expression (max n m) (w ++ .operator op :: v) (.binary op a b)

theorem factorsChain {op : BinaryOp} (joins : joinsFactors op = true) : op.chains = true := by
  cases op <;> first | rfl | contradiction

theorem termsChain {op : BinaryOp} (joins : joinsTerms op = true) : op.chains = true := by
  cases op <;> first | rfl | contradiction

theorem chainsNoPower {op : BinaryOp} (chains : op.chains = true) : op ≠ .pow := by
  intro same
  subst same
  contradiction

theorem functionNoMinus {f : UnaryOp} (known : f ∈ functions) : f ≠ .neg := by
  intro same
  subst same
  revert known
  decide

def Derives {α : Type} [Numeral α] (w : List Token) (e : Expr α) : Prop := ∃ n, Phrase .expression n w e

variable {α : Type} [Numeral α] {k : Category} {n : Nat} {w : List Token} {e : Expr α}

theorem phraseNest (phrase : Phrase k n w e) : n < w.length := by
  induction phrase with
  | number | named => simp
  | call _ _ ih | group _ ih | minus _ ih => simp; omega
  | base _ ih | single _ ih | alone _ ih => exact ih
  | power _ _ ihl ihr | product _ _ _ ihl ihr | sum _ _ _ ihl ihr => simp; omega

theorem phraseDepth (phrase : Phrase k n w e) : e.depth ≤ w.length := by
  induction phrase with
  | number | named => simp [Expr.depth]
  | call _ _ ih | minus _ ih => simp [Expr.depth]; omega
  | group _ ih => simp; omega
  | base _ ih | single _ ih | alone _ ih => exact ih
  | power _ _ ihl ihr | product _ _ _ ihl ihr | sum _ _ _ ihl ihr => simp [Expr.depth]; omega

theorem phraseTallest (phrase : Phrase k n w e) : e.tallest ≤ w.length :=
  Nat.le_trans e.tallestDepth (phraseDepth phrase)

end Grammar
end SymbolicCalculus
