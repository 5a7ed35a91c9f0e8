import SymbolicCalculus.ComplexNumber
import SymbolicCalculus.Proofs.ReadingOrder

/-! One text read over two kinds of numbers, of which the second has no literals. Both readings take the same items
and fail alike, until a number is taken; there the second one ends. -/
namespace SymbolicCalculus

def Item.isNumber (item : Item) : Bool :=
  match item.piece with
  | .token (.number _) => true
  | _ => false

theorem freeNone : ∀ item ∈ ([] : List Item), item.isNumber = false := by simp

def Remaining.Leaves (r after : Remaining) : Prop := ∃ taken, r = ⟨taken ++ after.items,after.stop⟩

theorem leavesSame (r : Remaining) : r.Leaves r := ⟨[],rfl⟩

theorem leavesFurther {r mid after : Remaining} (first : r.Leaves mid) (second : mid.Leaves after) : r.Leaves after := by
  obtain ⟨taken,rfl⟩ := first
  obtain ⟨more,rfl⟩ := second
  exact ⟨taken ++ more,by rw [List.append_assoc]⟩

section side
variable {δ ε ζ η : Type} {name : String} {move : δ → ε} {last : ζ → η} {r : Remaining}

def halt {σ : Type} : EStateM.Result Failure σ δ → σ
  | .ok _ after => after
  | .error _ after => after

/- How two readings of the same items end. What the first one does behind the number that stops the second is
left open, except that it has taken the number. -/
inductive Parted (name : String) (move : δ → ε) (r : Remaining) :
    EStateM.Result Failure Remaining δ → EStateM.Result Failure Remaining ε → Prop where
  | same {taken after} (d : δ) (free : ∀ item ∈ taken, item.isNumber = false)
      (left : r = ⟨taken ++ after.items,after.stop⟩) : Parted name move r (.ok d after) (.ok (move d) after)
  | failed {after} (failure : Failure) (left : r.Leaves after) :
      Parted name move r (.error failure after) (.error failure after)
  | literal {upper taken digits span behind stop after} (free : ∀ item ∈ taken, item.isNumber = false)
      (first : r = ⟨taken ++ ⟨.token (.number digits),span⟩ :: behind,stop⟩)
      (past : (Remaining.mk behind stop).Leaves (halt upper)) :
      Parted name move r upper (.error ⟨.unsupportedLiteral name,[span]⟩ after)

def Parts (name : String) (move : δ → ε) (m : Reading δ) (n : Reading ε) : Prop := ∀ r, Parted name move r (m r) (n r)

theorem partedLeaves {upper : EStateM.Result Failure Remaining δ} {lower : EStateM.Result Failure Remaining ε}
    (parted : Parted name move r upper lower) : r.Leaves (halt upper) := by
  cases parted with
  | same d free left => exact ⟨_,left⟩
  | failed failure left => exact left
  | @literal _ taken digits span _ _ _ free first past =>
    obtain ⟨more,shape⟩ := past
    refine ⟨taken ++ ⟨.token (.number digits),span⟩ :: more,?_⟩
    cases shape
    rw [first,List.append_assoc,List.cons_append]

theorem partedBehind {taken items : List Item} {stop : Nat} {upper : EStateM.Result Failure Remaining δ}
    {lower : EStateM.Result Failure Remaining ε} (free : ∀ item ∈ taken, item.isNumber = false)
    (parted : Parted name move ⟨items,stop⟩ upper lower) : Parted name move ⟨taken ++ items,stop⟩ upper lower := by
  have both {more : List Item} (rest : ∀ item ∈ more, item.isNumber = false) :
      ∀ item ∈ taken ++ more, item.isNumber = false :=
    fun item member => (List.mem_append.mp member).elim (free item) (rest item)
  cases parted with
  | same d rest left =>
    cases left
    exact .same d (both rest) (by rw [List.append_assoc])
  | failed failure left =>
    obtain ⟨more,shape⟩ := left
    cases shape
    exact .failed failure ⟨taken ++ more,by rw [List.append_assoc]⟩
  | literal rest first past =>
    cases first
    exact .literal (both rest) (by rw [List.append_assoc]) past

theorem partedPast {item : Item} {items : List Item} {stop : Nat} {upper : EStateM.Result Failure Remaining δ}
    {lower : EStateM.Result Failure Remaining ε} (free : item.isNumber = false)
    (parted : Parted name move ⟨items,stop⟩ upper lower) : Parted name move ⟨item :: items,stop⟩ upper lower := by
  have single : ∀ other ∈ [item], other.isNumber = false := by simpa using free
  exact partedBehind single parted

theorem partsPure (d : δ) : Parts name move (pure d) (pure (move d)) := fun _ =>
  .same d freeNone rfl

theorem partsFail (cause : Cause) (spans : List Span) :
    Parts name move (Grammar.fail cause spans) (Grammar.fail cause spans) := fun r => .failed ⟨cause,spans⟩ (leavesSame r)

theorem partsBind {m : Reading δ} {n : Reading ε} {k : δ → Reading ζ} {l : ε → Reading η} (first : Parts name move m n)
    (second : ∀ d, Parts name last (k d) (l (move d))) : Parts name last (m >>= k) (n >>= l) := by
  intro r
  have here := first r
  simp only [bind,EStateM.bind]
  generalize m r = upper at here
  generalize n r = lower at here
  cases here with
  | @same _ after d free left =>
    rw [left]
    exact partedBehind free (second d after)
  | failed failure left => exact .failed failure left
  | literal free first past =>
    cases upper with
    | ok d after => exact .literal free first (leavesFurther past (partedLeaves (second d after)))
    | error failure after => exact .literal free first past

end side

namespace Grammar
variable {α β : Type} {f : α → β} {name : String} {limit : Nat}

theorem expectCloseParts (opening : Span) : Parts name id (expectClose opening) (expectClose opening) := by
  intro r
  obtain ⟨items,stop⟩ := r
  rcases items with _ | ⟨⟨piece,span⟩,items⟩
  · exact .failed _ (leavesSame _)
  cases piece with
  | stray c => exact .failed _ ⟨[_],rfl⟩
  | token t =>
    cases t with
    | rightParen => exact partedPast rfl (partsPure () ⟨items,stop⟩)
    | _ => exact .failed _ (leavesSame _)

theorem closedParts {m : Reading (Expr α)} {n : Reading (Expr β)} (opening : Span) (inner : Parts name (Expr.map f) m n) :
    Parts name (Expr.map f) (m >>= fun e => expectClose opening >>= fun _ => pure e)
      (n >>= fun e => expectClose opening >>= fun _ => pure e) :=
  partsBind inner (fun e => partsBind (expectCloseParts opening) (fun _ => partsPure e))

theorem refuseParts : Parts name (Expr.map f) (refuse limit) (refuse limit) := by
  intro r
  obtain ⟨items,stop⟩ := r
  rcases items with _ | ⟨⟨piece,span⟩,items⟩
  · exact .failed _ (leavesSame _)
  cases piece with
  | stray c => exact .failed _ ⟨[_],rfl⟩
  | token t => exact .failed _ (leavesSame _)

theorem callParts (called : String) (span : Span) (operand : Expr α) :
    Parts name (Expr.map f) (call called span operand) (call called span (operand.map f)) := by
  unfold call
  cases UnaryOp.ofName? called with
  | some op => exact partsPure (Expr.unary op operand)
  | none => exact partsFail _ [span]

theorem depthMap (e : Expr α) : (e.map f).depth = e.depth := by
  induction e with
  | const | var => rfl
  | binary op left right ihl ihr => rw [Expr.map,Expr.depth,Expr.depth,ihl,ihr]
  | unary op operand ih => rw [Expr.map,Expr.depth,Expr.depth,ih]

theorem chainParts {joins : BinaryOp → Bool} {m : Reading (Expr α)} {n : Reading (Expr β)}
    (operand : Parts name (Expr.map f) m n) (left : Expr α) :
    Parts name (Expr.map f) (chain limit joins m left) (chain limit joins n (left.map f)) := by
  induction left using chain.induct limit with
  | case1 left ih =>
    intro r
    rcases frontCases joins r with ⟨c,span,items,shape⟩ | stops | ⟨op,span,items,joined,shape⟩
    · rw [shape,chainStray,chainStray]
      exact .failed _ ⟨[_],rfl⟩
    · rw [chainStops stops,chainStops stops]
      exact partsPure left r
    · rw [shape,chainJoins joined,chainJoins joined]
      refine partedPast rfl (partsBind operand (fun right => ?_) _)
      have same : (Expr.binary op (left.map f) (right.map f)).depth = (Expr.binary op left right).depth :=
        depthMap (Expr.binary op left right)
      rw [same]
      split
      · exact partsFail _ [span]
      · rename_i fits
        exact ih op right fits

section level
variable [Numeral α] [Numeral β] {above : Nested → Reading (Expr α)} {below : Nested → Reading (Expr β)}

def Unwritten (β : Type) [Numeral β] : Prop :=
  ∀ digits, (Numeral.ofLiteral digits : Except LiteralFault β) = .error .unsupported

def NestsParted (f : α → β) (above : Nested → Reading (Expr α)) (below : Nested → Reading (Expr β)) : Prop :=
  ∀ part, Parts (Numeral.typeName β) (Expr.map f) (above part) (below part)

theorem primaryParts (unwritten : Unwritten β) (nests : NestsParted f above below) :
    Parts (Numeral.typeName β) (Expr.map f) (primary above) (primary below) := by
  intro r
  obtain ⟨items,stop⟩ := r
  rcases items with _ | ⟨⟨piece,span⟩,items⟩
  · exact .failed _ (leavesSame _)
  cases piece with
  | stray c => exact .failed _ ⟨[_],rfl⟩
  | token t =>
    cases t with
    | number digits =>
      rw [primaryNumber,primaryNumber,numberRefused (unwritten digits)]
      have stays : halt ((number digits span : Reading (Expr α)) ⟨items,stop⟩) = ⟨items,stop⟩ := by
        cases read : (Numeral.ofLiteral digits : Except LiteralFault α) with
        | ok value => rw [numberRead read]; rfl
        | error fault => rw [numberRefused read]; rfl
      exact .literal freeNone rfl (by rw [stays]; exact leavesSame _)
    | «variable» called => exact partedPast rfl (partsPure (Expr.var called) _)
    | function called =>
      rw [primaryFunction,primaryFunction]
      exact partedPast rfl (partsBind (nests .argument) (callParts called span) _)
    | operator op =>
      cases op with
      | sub =>
        rw [primaryMinus,primaryMinus]
        exact partedPast rfl (partsBind (nests .operand) (fun e => partsPure (Expr.unary .neg e)) _)
      | _ => exact .failed _ ⟨[_],rfl⟩
    | leftParen =>
      rw [primaryGroup,primaryGroup]
      exact partedPast rfl (closedParts span (nests .group) _)
    | rightParen => exact .failed _ ⟨[_],rfl⟩
    | endOfInput => exact .failed _ ⟨[_],rfl⟩

omit [Numeral α] in
theorem poweredParts (nests : NestsParted f above below) (base : Expr α) :
    Parts (Numeral.typeName β) (Expr.map f) (powered above base) (powered below (base.map f)) := by
  intro r
  rcases frontCases raises r with ⟨c,span,items,shape⟩ | stops | ⟨op,span,items,power,shape⟩
  · rw [shape]
    exact .failed _ ⟨[_],rfl⟩
  · rw [poweredStops stops,poweredStops stops]
    exact partsPure base r
  · cases op with
    | pow =>
      rw [shape,poweredRaises,poweredRaises]
      exact partedPast rfl
        (partsBind (nests .exponent) (fun e => partsPure (Expr.binary .pow base e)) _)
    | _ => contradiction

theorem factorParts (unwritten : Unwritten β) (nests : NestsParted f above below) :
    Parts (Numeral.typeName β) (Expr.map f) (factor above) (factor below) :=
  partsBind (primaryParts unwritten nests) (poweredParts nests)

theorem termParts (unwritten : Unwritten β) (nests : NestsParted f above below) :
    Parts (Numeral.typeName β) (Expr.map f) (term limit above) (term limit below) :=
  partsBind (factorParts unwritten nests) (chainParts (factorParts unwritten nests))

theorem expressionParts (unwritten : Unwritten β) (nests : NestsParted f above below) :
    Parts (Numeral.typeName β) (Expr.map f) (expression limit above) (expression limit below) :=
  partsBind (termParts unwritten nests) (chainParts (termParts unwritten nests))

theorem argumentParts (unwritten : Unwritten β) (nests : NestsParted f above below) :
    Parts (Numeral.typeName β) (Expr.map f) (argument limit above) (argument limit below) := by
  intro r
  obtain ⟨items,stop⟩ := r
  rcases items with _ | ⟨⟨piece,span⟩,items⟩
  · exact .failed _ (leavesSame _)
  cases piece with
  | stray c => exact .failed _ ⟨[_],rfl⟩
  | token t =>
    cases t with
    | leftParen =>
      rw [argumentGroup,argumentGroup]
      exact partedPast rfl (closedParts span (expressionParts unwritten nests) _)
    | _ => exact .failed _ ⟨[_],rfl⟩

theorem insideParts (unwritten : Unwritten β) (limit room : Nat) :
    NestsParted f (inside limit room : Nested → Reading (Expr α)) (inside limit room : Nested → Reading (Expr β)) := by
  induction room with
  | zero => exact fun part => refuseParts
  | succ room ih =>
    intro part
    cases part with
    | group => exact expressionParts unwritten ih
    | argument => exact argumentParts unwritten ih
    | exponent => exact factorParts unwritten ih
    | operand => exact primaryParts unwritten ih

omit [Numeral α] [Numeral β] in
theorem endedParts (e : Expr α) : Parts name (Expr.map f) (ended e) (ended (e.map f)) := by
  intro r
  obtain ⟨items,stop⟩ := r
  rcases items with _ | ⟨⟨piece,span⟩,items⟩
  · exact partsPure e _
  cases piece with
  | stray c => exact .failed _ ⟨[_],rfl⟩
  | token t =>
    cases t with
    | endOfInput => exact partsPure e _
    | _ => exact .failed _ (leavesSame _)

theorem readParts (unwritten : Unwritten β) (f : α → β) (limit : Nat) (extent : Extent) :
    Parts (Numeral.typeName β) (Expr.map f) (readExpression limit extent : Reading (Expr α))
      (readExpression limit extent : Reading (Expr β)) := by
  have parts : Parts (Numeral.typeName β) (Expr.map f) (expression limit (inside limit limit) : Reading (Expr α))
      (expression limit (inside limit limit) : Reading (Expr β)) :=
    expressionParts unwritten (insideParts unwritten limit limit)
  cases extent with
  | first => exact parts
  | whole =>
    rw [wholeEnded,wholeEnded]
    exact partsBind parts endedParts

end level
end Grammar

def Expr.HasConst {α : Type} (t : Expr α) : Prop := ∃ c, .const c ∈ t.parts

def firstNumber? (text : String) : Option Span := ((Cursor.ofText text).items.find? Item.isNumber).map Item.span

theorem firstNumberBehind {text : String} {taken behind : List Item} {digits : String} {span : Span}
    (free : ∀ item ∈ taken, item.isNumber = false)
    (first : (Cursor.ofText text).items = taken ++ ⟨.token (.number digits),span⟩ :: behind) :
    firstNumber? text = some span := by
  have skipped : taken.find? Item.isNumber = none := List.find?_eq_none.mpr (by simpa using free)
  rw [firstNumber?,first,List.find?_append,skipped]
  rfl

section comparison
open Grammar
variable {α β : Type} [Numeral α]

theorem numberShown {k : Category} {n : Nat} {w : List Token} {t : Expr α} (phrase : Phrase k n w t) :
    t.HasConst ↔ ∃ digits, .number digits ∈ w := by
  constructor
  · intro constant
    obtain ⟨c,part⟩ := constant
    obtain ⟨token,taken,shown⟩ := (markToken phrase _).mp (markNumber.mpr part)
    obtain ⟨digits,rfl,_⟩ := markNumberToken.mp shown
    exact ⟨digits,taken⟩
  · intro number
    obtain ⟨digits,taken⟩ := number
    have listed : (Token.number digits).mark? ∈ t.marks.map some := by
      rw [← phraseMarks phrase]
      exact List.mem_map_of_mem (List.mem_filter.mpr ⟨taken,rfl⟩)
    obtain ⟨mark,shown,same⟩ := List.mem_map.mp listed
    cases read : (Numeral.ofLiteral digits : Except LiteralFault α) with
    | ok c =>
      have number : mark = .number c := by simpa [Token.mark?,read,Except.toOption] using same
      exact ⟨c,markNumber.mp (number ▸ shown)⟩
    | error fault => simp [Token.mark?,read,Except.toOption] at same

theorem spellsNumber {items : List Item} {w : List Token} (spells : Spells items w) :
    (∃ digits, .number digits ∈ w) ↔ ∃ item ∈ items, item.isNumber = true := by
  constructor
  · intro number
    obtain ⟨digits,taken⟩ := number
    obtain ⟨span,here⟩ := spellsMember spells taken
    exact ⟨_,here,rfl⟩
  · intro number
    obtain ⟨⟨piece,span⟩,here,found⟩ := number
    have listed : piece ∈ w.map Piece.token := by
      rw [← spells]
      exact List.mem_map_of_mem (f := Item.piece) here
    obtain ⟨token,taken,rfl⟩ := List.mem_map.mp listed
    cases token with
    | number digits => exact ⟨digits,taken⟩
    | _ => cases found

theorem takenShown {limit : Nat} {extent : Extent} {r after : Remaining} {t : Expr α} {taken : List Item}
    (found : readExpression limit extent r = .ok t after) (left : r.items = taken ++ after.items) :
    t.HasConst ↔ ∃ item ∈ taken, item.isNumber = true := by
  obtain ⟨n,w,items,phrase,spells,same,_⟩ := readFits found
  have split : taken ++ after.items = items ++ after.items := left.symm.trans (congrArg Remaining.items same)
  rw [List.append_cancel_right split,numberShown phrase,spellsNumber spells]

inductive Compared (name text : String) (f : α → β) :
    Except Failure (Expr α) → Except Failure (Expr β) → Prop where
  | same (t : Expr α) (free : ¬ t.HasConst) : Compared name text f (.ok t) (.ok (t.map f))
  | failed (failure : Failure) : Compared name text f (.error failure) (.error failure)
  | literal {upper span} (first : firstNumber? text = some span)
      (shown : ∀ t, upper = .ok t → t.HasConst) :
      Compared name text f upper (.error ⟨.unsupportedLiteral name,[span]⟩)

theorem parseCompared [Numeral β] (unwritten : Unwritten β) (f : α → β) (limit : Nat) (extent : Extent) (text : String) :
    Compared (Numeral.typeName β) text f (parse limit extent text) (parse limit extent text) := by
  have parted := readParts unwritten f limit extent (Remaining.ofText text)
  unfold parse
  generalize upper : (readExpression limit extent : Reading (Expr α)) (Remaining.ofText text) = above at parted
  generalize (readExpression limit extent : Reading (Expr β)) (Remaining.ofText text) = below at parted
  cases parted with
  | same t free left =>
    have plain := takenShown upper (congrArg Remaining.items left)
    refine .same t (fun constant => ?_)
    obtain ⟨item,inside,number⟩ := plain.mp constant
    exact absurd number (by simp [free item inside])
  | failed failure left => exact .failed failure
  | @literal _ taken digits span behind stop after free first past =>
    refine .literal (firstNumberBehind free (congrArg Remaining.items first)) (fun t found => ?_)
    cases above with
    | error failure after => cases found
    | ok e after =>
      cases found
      obtain ⟨more,rest⟩ := past
      cases rest
      have left : (Remaining.ofText text).items = (taken ++ ⟨.token (.number digits),span⟩ :: more) ++ after.items := by
        rw [first,List.append_assoc,List.cons_append]
        rfl
      exact (takenShown upper left).mpr ⟨_,List.mem_append_right taken List.mem_cons_self,rfl⟩

end comparison

theorem unwrittenComplex : Grammar.Unwritten ComplexNumber := fun _ => rfl

theorem readLeaves {α : Type} [Numeral α] (limit : Nat) (extent : Extent) (r : Remaining) :
    r.Leaves (halt ((readExpression limit extent : Reading (Expr α)) r)) :=
  partedLeaves (Grammar.readParts unwrittenComplex (fun _ => ⟨0,0⟩) limit extent r)

/-- A text is read over the complex numbers as over the reals, up to its first number. Without a constant the tree
over the reals is also that over the complex numbers; with one, the first number of the text is refused there. A
failure over the reals is the same failure over the complex numbers, unless they refuse the first number before.
Where the text has no number at all, both have the same tree or the same failure, and never is there a complex tree
where there is none over the reals. -/
theorem scalarsAgree (text : String) (limit : Nat) (extent : Extent) (f : Float → ComplexNumber) :
    (∀ t : Expr Float, parse limit extent text = .ok t → ¬ t.HasConst → parse limit extent text = .ok (t.map f)) ∧
    (∀ t : Expr Float, parse limit extent text = .ok t → t.HasConst →
      ∃ span, firstNumber? text = some span ∧
        (parse limit extent text : Except Failure (Expr ComplexNumber)) =
          .error ⟨.unsupportedLiteral "complex",[span]⟩) ∧
    (∀ failure, (parse limit extent text : Except Failure (Expr Float)) = .error failure →
      (parse limit extent text : Except Failure (Expr ComplexNumber)) = .error failure ∨
      ∃ span, firstNumber? text = some span ∧
        (parse limit extent text : Except Failure (Expr ComplexNumber)) =
          .error ⟨.unsupportedLiteral "complex",[span]⟩) ∧
    (firstNumber? text = none →
      (∃ t : Expr Float, parse limit extent text = .ok t ∧ ¬ t.HasConst ∧ parse limit extent text = .ok (t.map f)) ∨
      ∃ failure, (parse limit extent text : Except Failure (Expr Float)) = .error failure ∧
        (parse limit extent text : Except Failure (Expr ComplexNumber)) = .error failure) ∧
    ∀ u : Expr ComplexNumber, parse limit extent text = .ok u →
      ∃ t : Expr Float, parse limit extent text = .ok t ∧ ¬ t.HasConst ∧ u = t.map f := by
  have compared := parseCompared unwrittenComplex f limit extent text
  generalize (parse limit extent text : Except Failure (Expr Float)) = real at compared ⊢
  generalize (parse limit extent text : Except Failure (Expr ComplexNumber)) = complex at compared ⊢
  cases compared with
  | same t free =>
    refine ⟨?_,?_,?_,fun _ => Or.inl ⟨t,rfl,free,rfl⟩,?_⟩
    · intro _ found _
      cases found
      rfl
    · intro _ found constant
      cases found
      exact absurd constant free
    · intro _ failed
      cases failed
    · intro _ found
      cases found
      exact ⟨t,rfl,free,rfl⟩
  | failed failure =>
    refine ⟨?_,?_,?_,fun _ => Or.inr ⟨failure,rfl,rfl⟩,?_⟩
    · intro _ found
      cases found
    · intro _ found
      cases found
    · intro _ same
      cases same
      exact Or.inl rfl
    · intro _ found
      cases found
  | @literal _ span first shown =>
    refine ⟨?_,fun _ _ _ => ⟨span,first,rfl⟩,fun _ _ => Or.inr ⟨span,first,rfl⟩,?_,?_⟩
    · intro t found free
      exact absurd (shown t found) free
    · intro none
      cases first.symm.trans none
    · intro _ found
      cases found

theorem scalarsAgreeArgument :
    (parse 3 .first "x^2)" : Except Failure (Expr Float)) = .ok (.binary .pow (.var "x") (.const 2.0)) ∧
    (parse 3 .first "x^2)" : Except Failure (Expr ComplexNumber)) = .error ⟨.unsupportedLiteral "complex",[⟨2,3⟩]⟩ ∧
    (parse 3 .whole "sinh(2)" : Except Failure (Expr Float)) =
      .error ⟨.unknownFunction "sinh" (suggestions "sinh"),[⟨0,4⟩]⟩ ∧
    (parse 3 .whole "sinh(2)" : Except Failure (Expr ComplexNumber)) =
      .error ⟨.unsupportedLiteral "complex",[⟨5,6⟩]⟩ := by
  have power : (parse 3 .first "x^2)" : Except Failure (Expr Float)) =
      .ok (.binary .pow (.var "x") (.const 2.0)) := by decide +kernel
  have constant : (Expr.binary .pow (.var "x") (.const (2.0 : Float))).HasConst := ⟨2.0,by simp [Expr.parts]⟩
  have exponent : firstNumber? "x^2)" = some ⟨2,3⟩ := by decide +kernel
  have unknown : (parse 3 .whole "sinh(2)" : Except Failure (Expr Float)) =
      .error ⟨.unknownFunction "sinh" (suggestions "sinh"),[⟨0,4⟩]⟩ := by decide +kernel
  have argument : firstNumber? "sinh(2)" = some ⟨5,6⟩ := by decide +kernel
  have other : (parse 3 .whole "sinh(2)" : Except Failure (Expr ComplexNumber)) ≠
      .error ⟨.unknownFunction "sinh" (suggestions "sinh"),[⟨0,4⟩]⟩ := by decide +kernel
  obtain ⟨place,first,refused⟩ := (scalarsAgree "x^2)" 3 .first (fun x => ⟨x,0⟩)).2.1 _ power constant
  cases exponent.symm.trans first
  rcases (scalarsAgree "sinh(2)" 3 .whole (fun x => ⟨x,0⟩)).2.2.1 _ unknown with same | ⟨span,found,ends⟩
  · exact absurd same other
  · cases argument.symm.trans found
    exact ⟨power,refused,unknown,ends⟩

end SymbolicCalculus
