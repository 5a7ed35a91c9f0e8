import SymbolicCalculus.Proofs.Nesting

/-! A reading takes the tokens in front of it for what they are. Where they stand is carried along into the places of a
failure and decides nothing, so on the same tokens at other places it ends with the same tree, or for the same cause. -/
namespace SymbolicCalculus

section places
open Grammar
variable {β γ δ ε : Type} {view : β → δ} {last : γ → ε} {m n : Reading β} {k l : β → Reading γ}

def Remaining.pieces (r : Remaining) : List Piece := r.items.map Item.piece

/- How a reading ends apart from all places: what it has found, as far as it is looked at, or the cause of its
failure, and the pieces that are left. -/
def unplaced (view : β → δ) : EStateM.Result Failure Remaining β → Except Cause δ × List Piece
  | .ok b after => (.ok (view b),after.pieces)
  | .error failure after => (.error failure.cause,after.pieces)

def Anywhere (view : β → δ) (m n : Reading β) : Prop :=
  ∀ r s, r.pieces = s.pieces → unplaced view (m r) = unplaced view (n s)

theorem anywherePure {a b : β} (same : view a = view b) : Anywhere view (pure a) (pure b) :=
  fun _ _ alike => Prod.ext (congrArg Except.ok same) alike

theorem anywhereFail (cause : Cause) (spans others : List Span) : Anywhere view (fail cause spans) (fail cause others) :=
  fun _ _ alike => Prod.ext rfl alike

theorem anywhereBind (first : Anywhere view m n) (second : ∀ b c, view b = view c → Anywhere last (k b) (l c)) :
    Anywhere last (m >>= k) (n >>= l) := by
  intro r s alike
  have ends := first r s alike
  cases here : m r with
  | ok b mid =>
    cases there : n s with
    | ok c rest =>
      rw [here,there] at ends
      obtain ⟨found,left⟩ := Prod.mk.inj ends
      rw [bindRuns here,bindRuns there]
      exact second b c (Except.ok.inj found) mid rest left
    | error failure rest =>
      rw [here,there] at ends
      cases (Prod.mk.inj ends).1
  | error failure mid =>
    cases there : n s with
    | ok c rest =>
      rw [here,there] at ends
      cases (Prod.mk.inj ends).1
    | error other rest =>
      rw [here,there] at ends
      obtain ⟨why,left⟩ := Prod.mk.inj ends
      rw [bindFails here,bindFails there]
      exact Prod.ext (congrArg Except.error (Except.error.inj why)) left

theorem anywhereThen {m n : Reading β} (first : Anywhere id m n) (second : ∀ b, Anywhere last (k b) (l b)) :
    Anywhere last (m >>= k) (n >>= l) := by
  refine anywhereBind first fun b c same => ?_
  obtain rfl : b = c := same
  exact second b

theorem peekAnywhere : Anywhere PlacedToken.token Supply.peek Supply.peek := by
  intro r s alike
  obtain ⟨items,stop⟩ := r
  obtain ⟨others,halt⟩ := s
  rcases items with _ | ⟨⟨piece,span⟩,items⟩
  · obtain rfl : others = [] := List.map_eq_nil_iff.mp alike.symm
    rfl
  rcases others with _ | ⟨⟨other,place⟩,others⟩
  · cases alike
  obtain ⟨rfl,behind⟩ := List.cons.inj alike
  cases piece with
  | token t => exact Prod.ext rfl alike
  | stray c => exact Prod.ext rfl behind

theorem advanceAnywhere : Anywhere id Supply.advance Supply.advance := by
  intro r s alike
  refine Prod.ext rfl ?_
  have behind := congrArg List.tail alike
  rwa [Remaining.pieces,Remaining.pieces,← List.map_tail,← List.map_tail] at behind

theorem anywhereToken {k l : PlacedToken → Reading γ} (same : ∀ t span place, Anywhere last (k ⟨t,span⟩) (l ⟨t,place⟩)) :
    ∀ here there : PlacedToken, here.token = there.token → Anywhere last (k here) (l there) := by
  rintro ⟨t,span⟩ ⟨other,place⟩ rfl
  exact same t span place

theorem anywherePeek {k l : PlacedToken → Reading γ} (next : ∀ t span place, Anywhere last (k ⟨t,span⟩) (l ⟨t,place⟩)) :
    Anywhere last (Supply.peek >>= k) (Supply.peek >>= l) :=
  anywhereBind peekAnywhere (anywhereToken next)

theorem anywhereNext {k l : PlacedToken → Reading γ} (further : ∀ t span place, Anywhere last (k ⟨t,span⟩) (l ⟨t,place⟩)) :
    Anywhere last (next >>= k) (next >>= l) := by
  have taken : Anywhere PlacedToken.token next next :=
    anywherePeek fun t span place => anywhereThen advanceAnywhere fun _ => anywherePure rfl
  exact anywhereBind taken (anywhereToken further)

end places

namespace Grammar
variable {α : Type}

theorem closeAnywhere (opening other : Span) : Anywhere id (expectClose opening) (expectClose other) := by
  refine anywherePeek fun t span place => ?_
  cases t with
  | rightParen => exact advanceAnywhere
  | _ => exact anywhereFail _ [span,opening] [place,other]

theorem closedAnywhere {m n : Reading (Expr α)} (opening other : Span) (inner : Anywhere id m n) :
    Anywhere id (m >>= fun e => expectClose opening >>= fun _ => pure e)
      (n >>= fun e => expectClose other >>= fun _ => pure e) :=
  anywhereThen inner fun _ => anywhereThen (closeAnywhere opening other) fun _ => anywherePure rfl

theorem callAnywhere (name : String) (span place : Span) (operand : Expr α) :
    Anywhere id (call name span operand) (call name place operand) := by
  unfold call
  cases UnaryOp.ofName? name with
  | some f => exact anywherePure rfl
  | none => exact anywhereFail _ [span] [place]

theorem refuseAnywhere (limit : Nat) : Anywhere id (refuse limit : Reading (Expr α)) (refuse limit) :=
  anywherePeek fun _ span place => anywhereFail _ [span] [place]

theorem chainAnywhere {limit : Nat} {joins : BinaryOp → Bool} {m : Reading (Expr α)} (operand : Anywhere id m m)
    (left : Expr α) : Anywhere id (chain limit joins m left) (chain limit joins m left) := by
  induction left using chain.induct limit with
  | case1 left ih =>
    rw [chain]
    refine anywherePeek fun t span place => ?_
    cases t.operator?.filter joins with
    | none => exact anywherePure rfl
    | some op =>
      refine anywhereThen advanceAnywhere fun _ => anywhereThen operand fun right => ?_
      split
      · exact anywhereFail _ [span] [place]
      · rename_i fits
        exact ih op right fits

theorem endedAnywhere (e : Expr α) : Anywhere id (ended e) (ended e) := by
  refine anywherePeek fun t span place => ?_
  cases t with
  | endOfInput => exact anywherePure rfl
  | _ => exact fun _ _ alike => Prod.ext rfl alike

variable [Numeral α]

theorem numberAnywhere (digits : String) (span place : Span) :
    Anywhere id (number digits span : Reading (Expr α)) (number digits place) := by
  unfold number
  cases (Numeral.ofLiteral digits : Except LiteralFault α) with
  | ok value => exact anywherePure rfl
  | error fault => cases fault <;> exact anywhereFail _ [span] [place]

section level
variable {limit : Nat} {inside : Nested → Reading (Expr α)} (nests : ∀ part, Anywhere id (inside part) (inside part))
include nests

theorem primaryAnywhere : Anywhere id (primary inside) (primary inside) := by
  refine anywhereNext fun t span place => ?_
  cases t with
  | number digits => exact numberAnywhere digits span place
  | «variable» name => exact anywherePure rfl
  | function name => exact anywhereThen (nests .argument) (callAnywhere name span place)
  | operator op =>
    cases op with
    | sub => exact anywhereThen (nests .operand) fun _ => anywherePure rfl
    | _ => exact anywhereFail _ [span] [place]
  | leftParen => exact closedAnywhere span place (nests .group)
  | rightParen => exact anywhereFail _ [span] [place]
  | endOfInput => exact anywhereFail _ [span] [place]

theorem factorAnywhere : Anywhere id (factor inside) (factor inside) := by
  refine anywhereThen (primaryAnywhere nests) fun base => anywherePeek fun t span place => ?_
  cases t with
  | operator op =>
    cases op with
    | pow => exact anywhereThen advanceAnywhere fun _ => anywhereThen (nests .exponent) fun _ => anywherePure rfl
    | _ => exact anywherePure rfl
  | _ => exact anywherePure rfl

theorem termAnywhere : Anywhere id (term limit inside) (term limit inside) :=
  anywhereThen (factorAnywhere nests) (chainAnywhere (factorAnywhere nests))

theorem expressionAnywhere : Anywhere id (expression limit inside) (expression limit inside) :=
  anywhereThen (termAnywhere nests) (chainAnywhere (termAnywhere nests))

theorem argumentAnywhere : Anywhere id (argument limit inside) (argument limit inside) := by
  refine anywhereNext fun t span place => ?_
  cases t with
  | leftParen => exact closedAnywhere span place (expressionAnywhere nests)
  | _ => exact anywhereFail _ [span] [place]

end level

theorem insideAnywhere (limit room : Nat) (part : Nested) :
    Anywhere id (inside limit room part : Reading (Expr α)) (inside limit room part) := by
  induction room generalizing part with
  | zero => exact refuseAnywhere limit
  | succ room ih =>
    cases part with
    | group => exact expressionAnywhere ih
    | argument => exact argumentAnywhere ih
    | exponent => exact factorAnywhere ih
    | operand => exact primaryAnywhere ih

theorem readAnywhere (limit : Nat) (extent : Extent) :
    Anywhere id (readExpression limit extent : Reading (Expr α)) (readExpression limit extent) := by
  have expressions : Anywhere id (expression limit (inside limit limit) : Reading (Expr α))
      (expression limit (inside limit limit)) := expressionAnywhere (insideAnywhere limit limit)
  cases extent with
  | first => exact expressions
  | whole =>
    rw [wholeEnded]
    exact anywhereThen expressions endedAnywhere

end Grammar

theorem parseUnplaced {α : Type} [Numeral α] (limit : Nat) (extent : Extent) (text : String) :
    (parse limit extent text : Except Failure (Expr α)).mapError Failure.cause =
      (unplaced id (readExpression limit extent (Remaining.ofText text))).1 := by
  unfold parse
  cases readExpression (α := α) limit extent (Remaining.ofText text) <;> rfl

theorem parseAnywhere {α : Type} [Numeral α] {text other : String}
    (same : (Cursor.ofText text).items.map Item.piece = (Cursor.ofText other).items.map Item.piece) (limit : Nat)
    (extent : Extent) : (parse limit extent text : Except Failure (Expr α)).mapError Failure.cause =
      (parse limit extent other).mapError Failure.cause := by
  rw [parseUnplaced,parseUnplaced]
  exact congrArg Prod.fst (Grammar.readAnywhere limit extent _ _ same)

end SymbolicCalculus
