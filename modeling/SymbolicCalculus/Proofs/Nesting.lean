import SymbolicCalculus.Proofs.Recognition

/-! How many constructs stand open around each token of an expression, told from the tokens alone. With
the depths of the chains in the tree this number decides which limits an expression is read under. -/
namespace SymbolicCalculus

inductive Construct where
  | bracket
  | minus
  | exponent
  deriving DecidableEq, Repr

structure Standing where
  opened : List Construct
  complete : Bool
  deriving DecidableEq, Repr

namespace Standing

def start : Standing := ⟨[],false⟩

/- A minus is closed behind its operand, and an exponent in front of any operator but another `^`. -/
def around (s : Standing) : Token → List Construct
  | .operator op =>
      if s.complete then s.opened.dropWhile (if op = .pow then (· == .minus) else (· != .bracket)) else s.opened
  | .rightParen => (s.opened.dropWhile (· != .bracket)).tail
  | _ => s.opened

def opens (s : Standing) : Token → List Construct
  | .leftParen => [.bracket]
  | .operator op => if s.complete then (if op = .pow then [.exponent] else []) else [.minus]
  | _ => []

def completes : Token → Bool
  | .number _ => true
  | .variable _ => true
  | .rightParen => true
  | _ => false

def behind (s : Standing) (t : Token) : Standing := ⟨s.opens t ++ s.around t,completes t⟩

end Standing

def levels : Standing → List Token → List Nat
  | _,[] => []
  | s,t :: w => (s.around t).length :: levels (s.behind t) w

def deepest (s : Standing) (w : List Token) : Nat := (levels s w).foldr max 0

def nest (w : List Token) : Nat := deepest .start w

theorem deepestCons (s : Standing) (t : Token) (w : List Token) :
    deepest s (t :: w) = max (s.around t).length (deepest (s.behind t) w) := rfl

theorem deepestAppend (s : Standing) (w v : List Token) :
    deepest s (w ++ v) = max (deepest s w) (deepest (w.foldl Standing.behind s) v) := by
  induction w generalizing s with
  | nil => simp [deepest,levels]
  | cons t w ih => rw [List.cons_append,deepestCons,deepestCons,ih,List.foldl_cons,Nat.max_assoc]

namespace Expr
variable {α : Type}

def parts : Expr α → List (Expr α)
  | const value => [const value]
  | var name => [var name]
  | binary op left right => binary op left right :: (left.parts ++ right.parts)
  | unary op operand => unary op operand :: operand.parts

def Low (limit : Nat) (t : Expr α) : Prop :=
  ∀ op left right, binary op left right ∈ t.parts → op.chains = true → (binary op left right).depth ≤ limit

theorem lowTallest {t : Expr α} {limit : Nat} : t.Low limit ↔ t.tallest ≤ limit := by
  induction t with
  | const | var => simp [Low,parts,tallest]
  | unary op operand ih => simpa [Low,parts,tallest] using ih
  | binary op left right ihl ihr =>
    have split : (binary op left right).Low limit ↔
        (op.chains = true → (binary op left right).depth ≤ limit) ∧ left.Low limit ∧ right.Low limit := by
      simp only [Low,parts,List.mem_cons,List.mem_append]
      constructor
      · intro low
        exact ⟨low op left right (Or.inl rfl),fun p a b member => low p a b (Or.inr (Or.inl member)),
          fun p a b member => low p a b (Or.inr (Or.inr member))⟩
      · intro low p a b member
        obtain ⟨here,inLeft,inRight⟩ := low
        rcases member with same | member | member
        · cases same
          exact here
        · exact inLeft p a b member
        · exact inRight p a b member
    rw [split,ihl,ihr,tallest,Nat.max_le,Nat.max_le]
    cases op.chains <;> simp

end Expr

namespace Grammar

def Begins : Category → List Construct → Prop
  | .primary,_ => True
  | .factor,opened => ∀ c ∈ opened.head?, c ≠ .minus
  | .term,opened => ∀ c ∈ opened.head?, c = .bracket
  | .expression,opened => ∀ c ∈ opened.head?, c = .bracket

def Loose : Category → List Construct → Prop
  | .primary,loose => ∀ c ∈ loose, c = .minus
  | _,loose => ∀ c ∈ loose, c ≠ .bracket

/- Behind the tokens nothing is open that was not before, loose ends apart, and there are up to so many
constructs open within them. -/
def Spans (k : Category) (n : Nat) (w : List Token) : Prop :=
  ∀ opened, Begins k opened →
    (∃ loose, Loose k loose ∧ w.foldl Standing.behind ⟨opened,false⟩ = ⟨loose ++ opened,true⟩) ∧
      deepest ⟨opened,false⟩ w = opened.length + n

theorem looseMinus {loose opened : List Construct} (minuses : ∀ c ∈ loose, c = .minus)
    (begins : ∀ c ∈ opened.head?, c ≠ .minus) : (loose ++ opened).dropWhile (· == .minus) = opened :=
  (spanEnds (by simpa using minuses) (by simpa using begins)).2

theorem looseEnds {loose opened : List Construct} (unbracketed : ∀ c ∈ loose, c ≠ .bracket)
    (begins : ∀ c ∈ opened.head?, c = .bracket) : (loose ++ opened).dropWhile (· != .bracket) = opened :=
  (spanEnds (by simpa using unbracketed) (by simpa using begins)).2

theorem bracketBegins (opened : List Construct) : Begins .expression (.bracket :: opened) := by
  intro c head
  cases head
  rfl

theorem bracketsSpan {n : Nat} {w : List Token} (inner : Spans .expression n w) (opened : List Construct) :
    (Token.leftParen :: w ++ [Token.rightParen]).foldl Standing.behind ⟨opened,false⟩ = ⟨opened,true⟩ ∧
      deepest ⟨opened,false⟩ (.leftParen :: w ++ [.rightParen]) = opened.length + (n + 1) := by
  obtain ⟨⟨loose,unbracketed,stands⟩,deep⟩ := inner (.bracket :: opened) (bracketBegins opened)
  have entered : Standing.behind ⟨opened,false⟩ .leftParen = ⟨.bracket :: opened,false⟩ := rfl
  have closed : Standing.around ⟨loose ++ .bracket :: opened,true⟩ .rightParen = opened := by
    simp only [Standing.around,looseEnds unbracketed (bracketBegins opened),List.tail_cons]
  constructor
  · rw [List.cons_append,List.foldl_cons,List.foldl_append,entered,stands]
    simp only [List.foldl_cons,List.foldl_nil,Standing.behind,closed]
    rfl
  · rw [List.cons_append,deepestCons,deepestAppend,entered,stands,deep,deepestCons,closed]
    simp only [Standing.around,deepest,levels,List.foldr_nil,List.length_cons]
    omega

theorem joinSpan {k l : Category} {op : BinaryOp} {n m : Nat} {w v : List Token} (chains : op.chains = true)
    (left : Spans k n w) (right : Spans l m v) (complex : k ≠ .primary) {opened : List Construct}
    (begins : ∀ c ∈ opened.head?, c = .bracket) (first : Begins k opened) (second : Begins l opened) :
    (∃ loose, Loose l loose ∧
        (w ++ .operator op :: v).foldl Standing.behind ⟨opened,false⟩ = ⟨loose ++ opened,true⟩) ∧
      deepest ⟨opened,false⟩ (w ++ .operator op :: v) = opened.length + max n m := by
  obtain ⟨⟨loose,ends,stands⟩,deep⟩ := left opened first
  obtain ⟨⟨more,others,halts⟩,deeper⟩ := right opened second
  have raised := chainsNoPower chains
  have unbracketed : ∀ c ∈ loose, c ≠ .bracket := by
    cases k <;> first | contradiction | exact ends
  have closed : Standing.around ⟨loose ++ opened,true⟩ (.operator op) = opened := by
    simp only [Standing.around,if_true,if_neg raised,looseEnds unbracketed begins]
  have entered : Standing.behind ⟨loose ++ opened,true⟩ (.operator op) = ⟨opened,false⟩ := by
    simp only [Standing.behind,closed,Standing.opens,if_true,if_neg raised,List.nil_append]
    rfl
  constructor
  · exact ⟨more,others,by rw [List.foldl_append,List.foldl_cons,stands,entered,halts]⟩
  · rw [deepestAppend,stands,deepestCons,closed,entered,deep,deeper]
    omega

theorem powerSpan {n m : Nat} {w v : List Token} (base : Spans .primary n w) (exponent : Spans .factor m v) :
    Spans .factor (max n (m + 1)) (w ++ .operator .pow :: v) := by
  intro opened begins
  obtain ⟨⟨loose,minuses,stands⟩,deep⟩ := base opened trivial
  obtain ⟨⟨more,others,halts⟩,deeper⟩ := exponent (.exponent :: opened) (by simp [Begins])
  have closed : Standing.around ⟨loose ++ opened,true⟩ (.operator .pow) = opened := by
    simp only [Standing.around,if_true,looseMinus minuses begins]
  have entered : Standing.behind ⟨loose ++ opened,true⟩ (.operator .pow) = ⟨.exponent :: opened,false⟩ := by
    simp only [Standing.behind,closed]
    rfl
  constructor
  · refine ⟨more ++ [.exponent],?_,?_⟩
    · intro c member
      rcases List.mem_append.mp member with inner | last
      · exact others c inner
      · cases List.mem_singleton.mp last
        decide
    · rw [List.foldl_append,List.foldl_cons,stands,entered,halts,List.append_assoc]
      rfl
  · rw [deepestAppend,stands,deepestCons,closed,entered,deep,deeper,List.length_cons]
    omega

theorem phraseSpans {α : Type} [Numeral α] {k : Category} {n : Nat} {w : List Token} {e : Expr α}
    (phrase : Phrase k n w e) : Spans k n w := by
  induction phrase with
  | number | named =>
    intro opened _
    exact ⟨⟨[],by simp [Loose],rfl⟩,by simp [deepest,levels,Standing.around]⟩
  | @call f n w e _ _ ih =>
    intro opened _
    obtain ⟨stands,deep⟩ := bracketsSpan ih opened
    have named : Standing.behind ⟨opened,false⟩ (.function f.word) = ⟨opened,false⟩ := rfl
    have outside : (Standing.around ⟨opened,false⟩ (.function f.word)).length = opened.length := rfl
    constructor
    · refine ⟨[],by simp [Loose],?_⟩
      rw [List.cons_append,List.foldl_cons,named]
      exact stands
    · rw [List.cons_append,deepestCons,named,deep,outside]
      omega
  | group _ ih =>
    intro opened _
    obtain ⟨stands,deep⟩ := bracketsSpan ih opened
    exact ⟨⟨[],by simp [Loose],stands⟩,deep⟩
  | @minus n w e _ ih =>
    -- The minus stays open behind its operand, until the next token closes it.
    intro opened _
    obtain ⟨⟨loose,minuses,stands⟩,deep⟩ := ih (.minus :: opened) trivial
    have entered : Standing.behind ⟨opened,false⟩ (.operator .sub) = ⟨.minus :: opened,false⟩ := rfl
    have outside : (Standing.around ⟨opened,false⟩ (.operator .sub)).length = opened.length := rfl
    constructor
    · refine ⟨loose ++ [.minus],?_,?_⟩
      · intro c member
        rcases List.mem_append.mp member with inner | last
        · exact minuses c inner
        · exact List.mem_singleton.mp last
      · rw [List.foldl_cons,entered,stands,List.append_assoc]
        rfl
    · rw [deepestCons,entered,deep,outside,List.length_cons]
      omega
  | base _ ih =>
    intro opened _
    obtain ⟨⟨loose,minuses,stands⟩,deep⟩ := ih opened trivial
    refine ⟨⟨loose,fun c member => ?_,stands⟩,deep⟩
    rw [minuses c member]
    decide
  | power _ _ ihl ihr => exact powerSpan ihl ihr
  | single _ ih =>
    intro opened begins
    refine ih opened (fun c head => ?_)
    rw [begins c head]
    decide
  | @product op n m w v a b joins _ _ ihl ihr =>
    intro opened begins
    have apart : Begins .factor opened := by
      intro c head
      rw [begins c head]
      decide
    exact joinSpan (factorsChain joins) ihl ihr (by simp) begins begins apart
  | alone _ ih => exact ih
  | @sum op n m w v a b joins _ _ ihl ihr =>
    intro opened begins
    exact joinSpan (termsChain joins) ihl ihr (by simp) begins begins begins

theorem nestPhrase {α : Type} [Numeral α] {n : Nat} {w : List Token} {e : Expr α} (phrase : Phrase .expression n w e) :
    nest w = n := by
  have deep := (phraseSpans phrase [] (by simp [Begins])).2
  simpa [nest,Standing.start] using deep

example : levels .start [.operator .sub,.variable "x",.operator .pow,.operator .sub,.leftParen,.variable "y",.rightParen] =
    [0,1,0,1,2,3,2] := by decide

variable {α : Type} [Numeral α]

def ended (e : Expr α) : Reading (Expr α) := do
  let here ← peek
  match here.token with
  | .endOfInput => return e
  | _ => fail .expectedEnd [⟨here.span.start,(← get).stop⟩]

theorem wholeEnded {limit : Nat} :
    (readExpression limit .whole : Reading (Expr α)) = expression limit (inside limit limit) >>= ended := rfl

omit [Numeral α] in
theorem endedSame {e d : Expr α} {r after : Remaining} (ends : ended e r = .ok d after) : d = e ∧ after = r := by
  obtain ⟨here,mid,seen,rest⟩ := bindFound ends
  obtain ⟨items,stop⟩ := r
  rcases items with _ | ⟨⟨piece,span⟩,items⟩
  · cases seen
    cases rest
    exact ⟨rfl,rfl⟩
  cases piece with
  | stray c => cases seen
  | token t =>
    cases seen
    cases t <;> cases rest
    exact ⟨rfl,rfl⟩

theorem extentReads {limit : Nat} {extent : Extent} {r after : Remaining} {e : Expr α}
    (found : readExpression limit extent r = .ok e after) : expression limit (inside limit limit) r = .ok e after := by
  cases extent with
  | first => exact found
  | whole =>
    rw [wholeEnded] at found
    obtain ⟨first,mid,read,ends⟩ := bindFound found
    obtain ⟨rfl,rfl⟩ := endedSame ends
    exact read

theorem wholeTaken {text : String} {limit : Nat} {e : Expr α} {after : Remaining}
    (found : readExpression limit .whole (Remaining.ofText text) = .ok e after) : after.items = [] := by
  rcases behindExpression (extentReads found) with rfl | ⟨token,span,items,more,_,rfl⟩
  · rfl
  · cases (wholeBehind (extentReads found) more).symm.trans found

theorem extentDecided {limit enough : Nat} {extent : Extent} {r after : Remaining} {e : Expr α} {fits : Prop}
    (found : readExpression enough extent r = .ok e after)
    (decided : Decided limit fits (expression limit (inside limit limit) r) (.ok e after)) :
    Decided limit fits (readExpression limit extent r) (.ok e after) := by
  cases extent with
  | first => exact decided
  | whole =>
    have ends : ended e after = .ok e after := (bindRuns (extentReads found)).symm.trans found
    have whole := decidedBind (k := ended) decided
    rwa [ends] at whole

theorem readDecided {enough : Nat} {extent : Extent} {r after : Remaining} {e : Expr α}
    (found : readExpression enough extent r = .ok e after) :
    ∃ n w items, Phrase .expression n w e ∧ Spells items w ∧ r = ⟨items ++ after.items,after.stop⟩ ∧
      ∀ limit, Decided limit (Fits limit limit n e) (readExpression limit extent r) (.ok e after) := by
  obtain ⟨⟨n,w,items,phrase,spells,same⟩,ready⟩ := readExpressionAccepts enough enough r e after (extentReads found)
  refine ⟨n,w,items,phrase,spells,same,fun limit => extentDecided found ?_⟩
  rw [same]
  exact settledComplete (phraseSettled phrase) limit after spells ready

theorem readFits {limit : Nat} {extent : Extent} {r after : Remaining} {e : Expr α}
    (found : readExpression limit extent r = .ok e after) :
    ∃ n w items, Phrase .expression n w e ∧ Spells items w ∧ r = ⟨items ++ after.items,after.stop⟩ ∧
      Fits limit limit n e := by
  obtain ⟨n,w,items,phrase,spells,same,decided⟩ := readDecided found
  refine ⟨n,w,items,phrase,spells,same,Classical.byContradiction (fun misfit => ?_)⟩
  obtain ⟨spans,left,refused⟩ := (decided limit).refused misfit
  cases found.symm.trans refused

end Grammar

open Grammar in
/-- The limit is enforced exactly. A text that is read under some limit is read as the same tree under every
limit that is neither below the nesting of the tokens consumed nor below the depth of a sum, difference,
product or quotient in the tree. Under any other limit it is refused for the limit. -/
theorem limitExact {α : Type} [Numeral α] (text : String) (extent : Extent) (enough : Nat) (t : Expr α)
    (parsed : parse enough extent text = .ok t) :
    ∃ items w after, readExpression enough extent (Remaining.ofText text) = .ok t after ∧
      (Cursor.ofText text).items = items ++ after.items ∧ items.map Item.piece = w.map Piece.token ∧
      ∀ limit, (nest w ≤ limit ∧ t.Low limit → parse limit extent text = .ok t) ∧
        (¬(nest w ≤ limit ∧ t.Low limit) →
          ∃ spans, (parse limit extent text : Except Failure (Expr α)) = .error ⟨.nestingLimit limit,spans⟩) := by
  obtain ⟨after,found⟩ := parseFound.mp parsed
  obtain ⟨n,w,items,phrase,spells,same,decided⟩ := readDecided found
  have fits (limit : Nat) : Fits limit limit n t ↔ nest w ≤ limit ∧ t.Low limit := by
    rw [Fits,nestPhrase phrase,Expr.lowTallest]
  refine ⟨items,w,after,found,(Remaining.mk.inj same).1,spells,fun limit => ⟨fun enough => ?_,fun short => ?_⟩⟩
  · exact parseFound.mpr ⟨after,(decided limit).read ((fits limit).mpr enough)⟩
  · obtain ⟨spans,left,refused⟩ := (decided limit).refused (fun fit => short ((fits limit).mp fit))
    exact ⟨spans,parseFailed.mpr ⟨left,refused⟩⟩

theorem limitExactProduct : (parse 9 .whole "-(x+y)^z*x" : Except Failure (Expr Float)) = .ok (.binary .mul (.binary .pow
      (.unary .neg (.binary .add (.var "x") (.var "y"))) (.var "z")) (.var "x")) ∧
    ∃ spans, (parse 4 .whole "-(x+y)^z*x" : Except Failure (Expr Float)) = .error ⟨.nestingLimit 4,spans⟩ := by
  have parsed : (parse 9 .whole "-(x+y)^z*x" : Except Failure (Expr Float)) = .ok (.binary .mul (.binary .pow
      (.unary .neg (.binary .add (.var "x") (.var "y"))) (.var "z")) (.var "x")) := by with_unfolding_all rfl
  obtain ⟨items,w,after,_,_,_,exact⟩ := limitExact _ .whole 9 _ parsed
  refine ⟨parsed,(exact 4).2 (fun enough => ?_)⟩
  have tall := Expr.lowTallest.mp enough.2
  revert tall
  decide

end SymbolicCalculus
