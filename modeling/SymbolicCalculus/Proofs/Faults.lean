import SymbolicCalculus.Proofs.Recognition

/-! What is wrong with a text at one of its items, told from the items before it alone: where the item
stands, and which parentheses are open there. No tree is built and nothing is nested; the first item
with something wrong is the fault of the text. -/
namespace SymbolicCalculus

inductive Place where
  | operand
  | argument (name : String) (span : Span)
  | complete
  deriving DecidableEq, Repr

structure Opening where
  span : Span
  callee : Option (String × Span)
  deriving DecidableEq, Repr

structure Front where
  place : Place
  opened : List Opening
  deriving DecidableEq, Repr

namespace Front

def start : Front := ⟨.operand,[]⟩

def callee (front : Front) : Option (String × Span) :=
  match front.place with
  | .argument name span => some (name,span)
  | _ => none

def behind (front : Front) : Except Failure PlacedToken → Front
  | .error _ => front
  | .ok ⟨.number _,_⟩ => ⟨.complete,front.opened⟩
  | .ok ⟨.variable _,_⟩ => ⟨.complete,front.opened⟩
  | .ok ⟨.function name,span⟩ => ⟨.argument name span,front.opened⟩
  | .ok ⟨.operator _,_⟩ => ⟨.operand,front.opened⟩
  | .ok ⟨.leftParen,span⟩ => ⟨.operand,⟨span,front.callee⟩ :: front.opened⟩
  | .ok ⟨.rightParen,_⟩ => ⟨.complete,front.opened.tail⟩
  | .ok ⟨.endOfInput,_⟩ => front

def operandFault? (bad : String → Option Cause) : Token → Option Cause
  | .number digits => bad digits
  | .variable _ => none
  | .function _ => none
  | .leftParen => none
  | .operator .sub => none
  | .endOfInput => some .unexpectedEnd
  | token => some (.unexpectedToken "an expression" token.describe)

def calleeFault? : Option (String × Span) → Option Failure
  | some (name,span) =>
      if (UnaryOp.ofName? name).isNone then some ⟨.unknownFunction name (suggestions name),[span]⟩ else none
  | none => none

def completeFault? (size : Nat) : List Opening → PlacedToken → Option Failure
  | _,⟨.operator _,_⟩ => none
  | [],⟨.endOfInput,_⟩ => none
  | [],here => some ⟨.expectedEnd,[⟨here.span.start,size⟩]⟩
  | opening :: _,⟨.rightParen,_⟩ => calleeFault? opening.callee
  | opening :: _,here => some ⟨.expectedToken ")",[here.span,opening.span]⟩

def fault? (bad : String → Option Cause) (size : Nat) (front : Front) : Except Failure PlacedToken → Option Failure
  | .error failure => some failure
  | .ok here => match front.place with
    | .operand => (operandFault? bad here.token).map (fun cause => ⟨cause,[here.span]⟩)
    | .argument _ _ => none
    | .complete => completeFault? size front.opened here

end Front

def faultAt (bad : String → Option Cause) (size : Nat) (front : Front) (results : List (Except Failure PlacedToken))
    (k : Nat) : Option Failure :=
  results[k]?.bind (((results.take k).foldl Front.behind front).fault? bad size)

def firstFault (bad : String → Option Cause) (size : Nat) : Front → List (Except Failure PlacedToken) → Option Failure
  | _,[] => none
  | front,result :: rest => (front.fault? bad size result).or (firstFault bad size (front.behind result) rest)

theorem faultAtFront (bad : String → Option Cause) (size : Nat) (front : Front) (result : Except Failure PlacedToken)
    (rest : List (Except Failure PlacedToken)) :
    faultAt bad size front (result :: rest) 0 = front.fault? bad size result := rfl

theorem firstFaultNone {bad : String → Option Cause} {size : Nat} {front : Front}
    {results : List (Except Failure PlacedToken)} (clean : firstFault bad size front results = none) (k : Nat) :
    faultAt bad size front results k = none := by
  induction results generalizing front k with
  | nil => rfl
  | cons result rest ih =>
    obtain ⟨here,behind⟩ := Option.or_eq_none_iff.mp clean
    cases k with
    | zero => exact here
    | succ k => exact ih behind k

theorem firstFaultLeast {bad : String → Option Cause} {size : Nat} {front : Front}
    {results : List (Except Failure PlacedToken)} {failure : Failure} :
    firstFault bad size front results = some failure ↔
      ∃ k, faultAt bad size front results k = some failure ∧ ∀ j < k, faultAt bad size front results j = none := by
  induction results generalizing front with
  | nil => simp [firstFault,faultAt]
  | cons result rest ih =>
    simp only [firstFault]
    cases found : front.fault? bad size result with
    | some first =>
      constructor
      · intro same
        exact ⟨0,by rw [faultAtFront,found]; exact same,fun j below => absurd below (Nat.not_lt_zero j)⟩
      · intro first
        obtain ⟨k,here,least⟩ := first
        cases k with
        | zero => rw [faultAtFront,found] at here; exact here
        | succ k =>
          have none := least 0 (Nat.succ_pos k)
          rw [faultAtFront,found] at none
          contradiction
    | none =>
      rw [Option.none_or,ih]
      constructor
      · intro first
        obtain ⟨k,here,least⟩ := first
        refine ⟨k + 1,here,fun j below => ?_⟩
        cases j with
        | zero => exact found
        | succ j => exact least j (Nat.lt_of_succ_lt_succ below)
      · intro first
        obtain ⟨k,here,least⟩ := first
        cases k with
        | zero => rw [faultAtFront,found] at here; contradiction
        | succ k => exact ⟨k,here,fun j below => least (j + 1) (Nat.succ_lt_succ below)⟩

namespace Grammar
variable {α : Type} [Numeral α] {bad : String → Option Cause} {size : Nat}

def Lenient (α : Type) [Numeral α] (bad : String → Option Cause) : Prop :=
  ∀ digits (value : α), Numeral.ofLiteral digits = .ok value → bad digits = none

theorem bracketsEnter (place : Place) {opened : List Opening} {opening closing : Span} {inner : List Item}
    {more : List (Except Failure PlacedToken)} (opens : place ≠ .complete)
    (passes : ∀ inside rest, firstFault bad size ⟨.operand,inside⟩ (inner.map Item.result ++ rest) =
      firstFault bad size ⟨.complete,inside⟩ rest) :
    firstFault bad size ⟨place,opened⟩
        ((⟨.token .leftParen,opening⟩ :: (inner ++ [⟨.token .rightParen,closing⟩])).map Item.result ++ more) =
      firstFault bad size ⟨.complete,⟨opening,(Front.mk place opened).callee⟩ :: opened⟩
        (.ok ⟨.rightParen,closing⟩ :: more) := by
  rw [← passes]
  simp only [List.map_cons,List.map_append,List.map_nil,List.cons_append,List.append_assoc,List.nil_append]
  cases place with
  | complete => contradiction
  | _ => rfl

theorem bracketsClose {opening : Opening} {opened : List Opening} {closing : Span}
    {more : List (Except Failure PlacedToken)} :
    firstFault bad size ⟨.complete,opening :: opened⟩ (.ok ⟨.rightParen,closing⟩ :: more) =
      (Front.calleeFault? opening.callee).or (firstFault bad size ⟨.complete,opened⟩ more) := rfl

theorem phrasePasses (lenient : Lenient α bad) {k : Category} {n : Nat} {w : List Token} {e : Expr α}
    (phrase : Phrase k n w e) : ∀ {items : List Item} (opened : List Opening) (more : List (Except Failure PlacedToken)),
      Spells items w →
      firstFault bad size ⟨.operand,opened⟩ (items.map Item.result ++ more) =
        firstFault bad size ⟨.complete,opened⟩ more := by
  induction phrase with
  | number read =>
    intro items opened more spells
    obtain ⟨span,tail,rfl,none⟩ := spellsHead spells
    cases spellsNone none
    simp only [List.map_cons,List.map_nil,Item.result,List.cons_append,List.nil_append,firstFault,Front.fault?,
      Front.operandFault?,lenient _ _ read]
    rfl
  | named name =>
    intro items opened more spells
    obtain ⟨span,tail,rfl,none⟩ := spellsHead spells
    cases spellsNone none
    rfl
  | @call f n w e known _ ih =>
    intro items opened more spells
    obtain ⟨span,tail,rfl,brackets⟩ := spellsHead spells
    obtain ⟨opening,inner,closing,within,rfl⟩ := spellsBrackets brackets
    have known : Front.calleeFault? (some (f.word,span)) = none := by
      simp [Front.calleeFault?,functionWord known]
    refine (bracketsEnter (.argument f.word span) (by simp) (fun _ _ => ih _ _ within)).trans ?_
    rw [bracketsClose]
    exact congrArg (Option.or · _) known
  | @group n w e _ ih =>
    intro items opened more spells
    obtain ⟨opening,inner,closing,within,rfl⟩ := spellsBrackets spells
    exact bracketsEnter .operand (by simp) (fun _ _ => ih _ _ within)
  | minus _ ih =>
    intro items opened more spells
    obtain ⟨span,tail,rfl,operand⟩ := spellsHead spells
    rw [List.map_cons]
    exact ih opened more operand
  | base _ ih | single _ ih | alone _ ih => exact ih
  | power _ _ ihl ihr | product _ _ _ ihl ihr | sum _ _ _ ihl ihr =>
    intro items opened more spells
    obtain ⟨before,behind,rfl,left,spelled⟩ := spellsSplit spells
    obtain ⟨span,tail,rfl,right⟩ := spellsHead spelled
    rw [List.map_append,List.append_assoc,ihl opened _ left]
    exact ihr opened more right

end Grammar
end SymbolicCalculus
