import SymbolicCalculus.Proofs.Nesting
import SymbolicCalculus.Proofs.Rendering

/-! How deep a tree is that is read under a limit. Its chains are no deeper than the limit, each level of
nesting may add two nodes to them, a call and a power of it, and texts that nest so reach the bound. -/
namespace SymbolicCalculus

namespace Grammar
variable {α : Type} [Numeral α]

theorem phraseFlat {k : Category} {n : Nat} {w : List Token} {e : Expr α} (phrase : Phrase k n w e) (flat : n = 0)
    (low : e.tallest = 0) : e.depth = 1 := by
  induction phrase with
  | number | named => rfl
  | call | group | minus => contradiction
  | base _ ih | single _ ih | alone _ ih => exact ih flat low
  | power => omega
  | @product op _ _ _ _ _ _ joins | @sum op _ _ _ _ _ _ joins =>
    have chains : op.chains = true := by first | exact factorsChain joins | exact termsChain joins
    simp [Expr.tallest,chains,Expr.depth] at low

theorem phraseDeep {limit : Nat} (some : 1 ≤ limit) {k : Category} {n : Nat} {w : List Token} {e : Expr α}
    (phrase : Phrase k n w e) (low : e.tallest ≤ limit) :
    e.depth ≤ limit + 2 * n ∧ (k = .primary → e.depth = 1 ∨ e.depth + 1 ≤ limit + 2 * n) := by
  induction phrase with
  | number | named => exact ⟨by simp only [Expr.depth]; omega,fun _ => Or.inl rfl⟩
  | call _ _ ih =>
    obtain ⟨deep,_⟩ := ih low
    exact ⟨by simp only [Expr.depth]; omega,fun _ => Or.inr (by simp only [Expr.depth]; omega)⟩
  | group _ ih =>
    obtain ⟨deep,_⟩ := ih low
    exact ⟨by omega,fun _ => Or.inr (by omega)⟩
  | minus _ ih =>
    obtain ⟨_,operand⟩ := ih low
    have deep := operand rfl
    exact ⟨by simp only [Expr.depth]; omega,fun _ => Or.inr (by simp only [Expr.depth]; omega)⟩
  | base _ ih | single _ ih | alone _ ih => exact ⟨(ih low).1,by simp⟩
  | power _ _ ihl ihr =>
    have lower := Nat.max_le.mp (Nat.max_le.mp low).2
    have base := (ihl lower.1).2 rfl
    have exponent := (ihr lower.2).1
    exact ⟨by simp only [Expr.depth]; omega,by simp⟩
  | @product op _ _ _ _ _ _ joins | @sum op _ _ _ _ _ _ joins =>
    have chains : op.chains = true := by first | exact factorsChain joins | exact termsChain joins
    rw [Expr.tallest,chains,if_pos rfl] at low
    exact ⟨by omega,by simp⟩

end Grammar

section towers
open Grammar

def sumText : Nat → List Char
  | 0 => ['x']
  | n+1 => sumText n ++ ['+','x']

/- A sum, called and raised to a power again and again. Each round opens one level and adds two nodes. -/
def towerText (n : Nat) : Nat → List Char
  | 0 => sumText n
  | rounds+1 => UnaryOp.sin.word.toList ++ '(' :: (towerText n rounds ++ [')','^','x'])

def sumTree {α : Type} : Nat → Expr α
  | 0 => .var "x"
  | n+1 => .binary .add (sumTree n) (.var "x")

def towerTree {α : Type} (n : Nat) : Nat → Expr α
  | 0 => sumTree n
  | rounds+1 => .binary .pow (.unary .sin (towerTree n rounds)) (.var "x")

variable {α : Type}

theorem sumDepth (n : Nat) : (sumTree n : Expr α).depth = n + 1 := by
  induction n with
  | zero => rfl
  | succ n ih => simp [sumTree,Expr.depth,ih]

theorem towerDepth (n rounds : Nat) : (towerTree n rounds : Expr α).depth = n + 1 + 2 * rounds := by
  induction rounds with
  | zero => exact sumDepth n
  | succ rounds ih => simp only [towerTree,Expr.depth,ih]; omega

theorem towerTallest (n rounds : Nat) : (towerTree n rounds : Expr α).tallest ≤ n + 1 := by
  induction rounds with
  | zero => exact Nat.le_trans (sumTree n).tallestDepth (Nat.le_of_eq (sumDepth n))
  | succ rounds ih => simpa [towerTree,Expr.tallest,BinaryOp.chains] using ih

theorem nameX : IsName "x" := ⟨'x',[],rfl,rfl,by simp⟩

theorem lexesX {rest : List Char} (apart : Apart rest) : Lexes ('x' :: rest) rest [.variable "x"] :=
  lexesVariable nameX apart

variable [Numeral α]

theorem sumPhrase (n : Nat) : ∃ w, Phrase .expression 0 w (sumTree n : Expr α) ∧
    ∀ rest, Apart rest → Lexes (sumText n ++ rest) rest w := by
  have single : Phrase .term 0 [.variable "x"] (.var "x" : Expr α) := .single (.base (.named "x"))
  induction n with
  | zero => exact ⟨_,.alone single,fun rest apart => lexesX apart⟩
  | succ n ih =>
    obtain ⟨w,phrase,lexes⟩ := ih
    refine ⟨_,.sum rfl phrase single,fun rest apart => ?_⟩
    have spelled : sumText (n + 1) ++ rest = sumText n ++ '+' :: 'x' :: rest := by simp [sumText]
    have plus : Apart ('+' :: 'x' :: rest) := by
      intro c head
      cases head
      decide
    rw [spelled]
    exact lexesThen (lexes _ plus) (lexesThen (lexesOperator .add) (lexesX apart))

theorem towerPhrase (n rounds : Nat) : ∃ w, Phrase .expression rounds w (towerTree n rounds : Expr α) ∧
    ∀ rest, Apart rest → Lexes (towerText n rounds ++ rest) rest w := by
  induction rounds with
  | zero => exact sumPhrase n
  | succ rounds ih =>
    obtain ⟨w,phrase,lexes⟩ := ih
    have known : UnaryOp.sin ∈ functions := by decide
    have raised := Phrase.alone (.single (.power (.call known phrase) (.base (.named "x"))))
    rw [Nat.max_eq_left (by omega)] at raised
    refine ⟨_,raised,fun rest apart => ?_⟩
    have spelled : towerText n (rounds + 1) ++ rest =
        UnaryOp.sin.word.toList ++ '(' :: (towerText n rounds ++ ')' :: '^' :: 'x' :: rest) := by simp [towerText]
    have enclosed := lexesEnclosed (lexes (')' :: '^' :: 'x' :: rest) apartClosing)
    rw [spelled]
    have called := lexesThen (lexesFunction known) enclosed
    exact lexesThen called (lexesThen (lexesOperator .pow) (lexesX apart))

theorem towerRead (n : Nat) (extent : Extent) :
    parse (n + 1) extent (String.ofList (towerText n (n + 1))) = .ok (towerTree n (n + 1) : Expr α) := by
  obtain ⟨w,phrase,lexes⟩ := towerPhrase (α := α) n (n + 1)
  have spelled := lexes [] apartNone
  rw [List.append_nil] at spelled
  exact lexedRead phrase spelled ⟨Nat.le_refl _,towerTallest n (n + 1)⟩ extent

end towers

/-- The limit bounds the tree, tightly. Whatever is still to be read, a tree read under a limit above 0 is at
most three times as deep as the limit, and under the limit 0 it is a leaf. For every limit above 0 there is a
text that is read under it, to its end or not, as a tree of just that depth. -/
theorem depthBounded :
    (∀ {α : Type} [Numeral α] (limit : Nat) (extent : Extent) (r after : Remaining) (e : Expr α),
      readExpression limit extent r = .ok e after →
        (limit = 0 → e.depth = 1) ∧ (1 ≤ limit → e.depth ≤ 3 * limit)) ∧
    ∀ limit, 1 ≤ limit → ∃ text, ∃ e : Expr Float, (∀ extent, parse limit extent text = .ok e) ∧
      e.depth = 3 * limit := by
  constructor
  · intro α _ limit extent r after e found
    obtain ⟨n,w,items,phrase,_,_,levels,low⟩ := Grammar.readFits found
    constructor
    · intro none
      exact Grammar.phraseFlat phrase (by omega) (by omega)
    · intro some
      have deep := (Grammar.phraseDeep some phrase low).1
      omega
  · intro limit some
    obtain ⟨n,rfl⟩ : ∃ n, limit = n + 1 := ⟨limit - 1,by omega⟩
    exact ⟨_,towerTree n (n + 1),towerRead n,by rw [towerDepth]; omega⟩

theorem depthBoundedPower :
    (∃ after, readExpression 1 .whole (Remaining.ofText "-x^y") =
      .ok (.binary .pow (.unary .neg (.var "x")) (.var "y") : Expr Float) after) ∧
    (Expr.binary .pow (.unary .neg (.var "x")) (.var "y") : Expr Float).depth ≤ 3 ∧
    ∃ text, ∃ e : Expr Float, (∀ extent, parse 2 extent text = .ok e) ∧ e.depth = 6 := by
  have parsed : (parse 1 .whole "-x^y" : Except Failure (Expr Float)) =
      .ok (.binary .pow (.unary .neg (.var "x")) (.var "y")) := by with_unfolding_all rfl
  obtain ⟨after,found⟩ := Grammar.parseFound.mp parsed
  exact ⟨⟨after,found⟩,(depthBounded.1 1 .whole _ after _ found).2 (Nat.le_refl 1),depthBounded.2 2 (by decide)⟩

end SymbolicCalculus
