import SymbolicCalculus.Proofs.Faults
import SymbolicCalculus.Proofs.RealLiterals

/-! A reading that fails reports the first fault on its way. What stands open in the text is what the
reading is nested in: each open parenthesis is one that some reading still has to close. -/
namespace SymbolicCalculus.Grammar
variable {α : Type} [Numeral α] {bad : String → Option Cause} {limit budget : Nat}
  {nested : Nested → Reading (Expr α)}

structure WellCut (items : List Item) : Prop where
  literal : ∀ digits span, ⟨.token (.number digits),span⟩ ∈ items → Literal digits.toList
  opened : ∀ front name span back, items = front ++ ⟨.token (.function name),span⟩ :: back →
    ∃ opening tail, back = ⟨.token .leftParen,opening⟩ :: tail

theorem wellCutText (text : String) : WellCut (Cursor.ofText text).items :=
  ⟨fun _ _ member => itemsLiteral member,fun _ _ _ _ whole => ⟨_,itemsFunction whole⟩⟩

theorem wellCutBehind (before : List Item) {items : List Item} (cut : WellCut (before ++ items)) : WellCut items := by
  refine ⟨fun digits span member => cut.literal digits span (List.mem_append_right before member),?_⟩
  intro front name span back whole
  exact cut.opened (before ++ front) name span back (by rw [whole,List.append_assoc])

theorem wellCutTail {item : Item} {items : List Item} (cut : WellCut (item :: items)) : WellCut items :=
  wellCutBehind [item] cut

structure Judges (α : Type) [Numeral α] (bad : String → Option Cause) : Prop where
  lenient : Lenient α bad
  strict : ∀ digits fault, Literal digits.toList → (Numeral.ofLiteral digits : Except LiteralFault α) = .error fault →
    bad digits = some (literalCause α digits fault)

/- A failure of the reading is the first fault from its place on, if there are fewer tokens left than the budget. -/
def Traced (bad : String → Option Cause) (budget : Nat) (place : Place) (m : Reading (Expr α)) : Prop :=
  ∀ r failure after opened, tokenCount r.items < budget → WellCut r.items → m r = .error failure after →
    firstFault bad r.stop ⟨place,opened⟩ r.results = some failure

theorem readsPass (judges : Judges α bad) {k : Category} {e : Expr α} {r mid : Remaining} (reads : Reads k e r mid)
    (size : Nat) (opened : List Opening) :
    firstFault bad size ⟨.operand,opened⟩ r.results = firstFault bad size ⟨.complete,opened⟩ mid.results := by
  obtain ⟨n,w,items,phrase,spells,same⟩ := reads
  rw [same,← phrasePasses judges.lenient phrase opened mid.results spells]
  simp [Remaining.results]

theorem readsLeft {k : Category} {e : Expr α} {r mid : Remaining} (reads : Reads k e r mid) (cut : WellCut r.items) :
    WellCut mid.items ∧ e.depth + tokenCount mid.items ≤ tokenCount r.items ∧ mid.stop = r.stop := by
  obtain ⟨n,w,items,phrase,spells,same⟩ := reads
  subst same
  have tall := phraseDepth phrase
  have count := spellsCount mid.items spells
  exact ⟨wellCutBehind items cut,by simp only; omega,rfl⟩

theorem countToken {t : Token} {span : Span} {items : List Item} :
    tokenCount (⟨.token t,span⟩ :: items) = tokenCount items + 1 := by
  rw [tokenCount,List.countP_cons]
  rfl

theorem closeTraced {opening : Opening} {opened : List Opening} {r after : Remaining} {failure : Failure}
    (ready : Ready .expression r) (failed : expectClose opening.span r = .error failure after) (size : Nat) :
    firstFault bad size ⟨.complete,opening :: opened⟩ r.results = some failure := by
  obtain ⟨here,ahead,other⟩ := readyNoOperator.mp ready
  obtain ⟨items,stop⟩ := r
  rcases items with _ | ⟨⟨piece,span⟩,items⟩
  · cases failed
    rfl
  cases piece with
  | stray c => cases ahead
  | token t =>
    cases ahead
    cases t with
    | operator op => contradiction
    | rightParen => cases failed
    | _ => cases failed; rfl

theorem closedTraced (judges : Judges α bad) {m : Reading (Expr α)} (accepting : Accepting .expression m)
    (traced : Traced bad budget .operand m) (opening : Opening) {opened : List Opening} {r after : Remaining}
    {failure : Failure} (few : tokenCount r.items < budget) (cut : WellCut r.items)
    (failed : (m >>= fun e => expectClose opening.span >>= fun _ => pure e) r = .error failure after) :
    firstFault bad r.stop ⟨.operand,opening :: opened⟩ r.results = some failure := by
  rcases bindFailed failed with inner | ⟨e,mid,found,rest⟩
  · exact traced r failure after _ few cut inner
  · obtain ⟨reads,ready⟩ := accepting r e mid found
    rw [readsPass judges reads]
    rcases bindFailed rest with unclosed | ⟨_,_,_,kept⟩
    · exact closeTraced ready unclosed r.stop
    · cases kept

structure Traces (bad : String → Option Cause) (budget : Nat) (nested : Nested → Reading (Expr α)) : Prop where
  group : Traced bad budget .operand (nested .group)
  argument : ∀ opening items stop failure after callee opened, tokenCount items + 1 < budget → WellCut items →
    nested .argument ⟨⟨.token .leftParen,opening⟩ :: items,stop⟩ = .error failure after →
    firstFault bad stop ⟨.operand,⟨opening,callee⟩ :: opened⟩ (Remaining.mk items stop).results = some failure
  exponent : Traced bad budget .operand (nested .exponent)
  operand : Traced bad budget .operand (nested .operand)

theorem callTraced (judges : Judges α bad) {name : String} {span : Span} {r mid after : Remaining} {e : Expr α}
    {failure : Failure} {opened : List Opening}
    (argument : ∃ n w items, Phrase .expression n w e ∧ Spells items (.leftParen :: w ++ [.rightParen]) ∧
      r = ⟨items ++ mid.items,mid.stop⟩)
    (failed : call name span e mid = .error failure after) :
    firstFault bad r.stop ⟨.argument name span,opened⟩ r.results = some failure := by
  obtain ⟨n,w,items,phrase,spells,same⟩ := argument
  obtain ⟨opening,inner,closing,within,shape⟩ := spellsBrackets spells
  cases known : UnaryOp.ofName? name with
  | some f => cases (callKnown known).symm.trans failed
  | none =>
    cases (callUnknown known).symm.trans failed
    subst same shape
    have split : (Remaining.mk (⟨.token .leftParen,opening⟩ :: (inner ++ [⟨.token .rightParen,closing⟩]) ++ mid.items)
        mid.stop).results =
        (⟨.token .leftParen,opening⟩ :: (inner ++ [⟨.token .rightParen,closing⟩])).map Item.result ++ mid.results := by
      simp [Remaining.results]
    rw [split,bracketsEnter (.argument name span) (by simp) (fun _ _ => phrasePasses judges.lenient phrase _ _ within),
      bracketsClose]
    simp [Front.callee,Front.calleeFault?,known]

theorem primaryTraced (judges : Judges α bad) (sound : Sound nested) (traces : Traces bad budget nested) :
    Traced bad (budget + 1) .operand (primary nested) := by
  intro r failure after opened few cut failed
  obtain ⟨items,stop⟩ := r
  rcases items with _ | ⟨⟨piece,span⟩,items⟩
  · cases primaryEnd.symm.trans failed
    rfl
  cases piece with
  | stray c =>
    cases primaryStray.symm.trans failed
    rfl
  | token t =>
    rw [countToken] at few
    have left : WellCut items := wellCutTail cut
    have less : tokenCount items < budget := Nat.lt_of_succ_lt_succ few
    cases t with
    | number digits =>
      rw [primaryNumber] at failed
      cases read : (Numeral.ofLiteral digits : Except LiteralFault α) with
      | ok value => cases (numberRead read).symm.trans failed
      | error fault =>
        cases (numberRefused read).symm.trans failed
        have wrong := judges.strict digits fault (cut.literal digits span List.mem_cons_self) read
        simp [Remaining.results,Item.result,firstFault,Front.fault?,Front.operandFault?,wrong]
    | «variable» name => cases failed
    | function name =>
      rw [primaryFunction] at failed
      obtain ⟨opening,tail,rfl⟩ := cut.opened [] name span items rfl
      rw [countToken] at less
      rcases bindFailed failed with inner | ⟨e,mid,found,unknown⟩
      · exact traces.argument opening tail stop failure after (some (name,span)) opened less (wellCutTail left) inner
      · exact callTraced judges (sound.argument _ _ _ found) unknown
    | operator op =>
      cases op with
      | sub =>
        rw [primaryMinus] at failed
        rcases bindFailed failed with inner | ⟨_,_,_,kept⟩
        · exact traces.operand ⟨items,stop⟩ failure after opened less left inner
        · cases kept
      | _ => cases failed; rfl
    | leftParen =>
      rw [primaryGroup] at failed
      exact closedTraced judges sound.group traces.group ⟨span,none⟩ less left failed
    | rightParen => cases failed; rfl
    | endOfInput => cases failed; rfl

theorem factorTraced (judges : Judges α bad) (sound : Sound nested) (traces : Traces bad budget nested) :
    Traced bad (budget + 1) .operand (factor nested) := by
  intro r failure after opened few cut failed
  rw [factorBase] at failed
  rcases bindFailed failed with inner | ⟨base,mid,found,rest⟩
  · exact primaryTraced judges sound traces r failure after opened few cut inner
  · obtain ⟨reads,_⟩ := primaryAccepts sound r base mid found
    obtain ⟨left,less,ends⟩ := readsLeft reads cut
    rw [readsPass judges reads,← ends]
    rcases frontCases raises mid with ⟨c,span,items,shape⟩ | stops | ⟨op,span,items,power,shape⟩
    · rw [shape] at rest ⊢
      cases rest
      rfl
    · cases (poweredStops stops).symm.trans rest
    · cases op with
      | pow =>
        rw [shape] at rest left less ⊢
        rw [countToken] at less
        rcases bindFailed (poweredRaises.symm.trans rest) with inner | ⟨_,_,_,kept⟩
        · exact traces.exponent ⟨items,mid.stop⟩ failure after opened (by simp only; omega)
            (wellCutTail left) inner
        · cases kept
      | _ => contradiction

theorem chainTraced (judges : Judges α bad) {joins : BinaryOp → Bool} {operand : Reading (Expr α)} {k : Category}
    (accepting : Accepting k operand) (traced : Traced bad budget .operand operand) (left : Expr α) :
    ∀ {r failure after opened}, tokenCount r.items < budget → left.depth + tokenCount r.items ≤ limit →
      WellCut r.items → chain limit joins operand left r = .error failure after →
      firstFault bad r.stop ⟨.complete,opened⟩ r.results = some failure := by
  -- The budget bounds the tokens that are left, so no reading runs into the limit.
  induction left using chain.induct limit with
  | case1 left ih =>
    intro r failure after opened few low cut failed
    rcases frontCases joins r with ⟨c,span,items,shape⟩ | stops | ⟨op,span,items,joined,shape⟩
    · rw [shape,chainStray] at failed
      rw [shape]
      cases failed
      rfl
    · cases (chainStops stops).symm.trans failed
    · rw [shape] at failed cut low few ⊢
      rw [countToken] at low few
      have behind : WellCut items := wellCutTail cut
      rcases bindFailed ((chainJoins joined).symm.trans failed) with inner | ⟨right,mid,found,rest⟩
      · exact traced ⟨items,r.stop⟩ failure after opened (by simp only; omega) behind inner
      · obtain ⟨reads,_⟩ := accepting _ _ _ found
        obtain ⟨beyond,less,ends⟩ := readsLeft reads behind
        have deep : (Expr.binary op left right).depth + tokenCount mid.items ≤ limit := by
          simp only [Expr.depth] at less ⊢
          omega
        have fewer : tokenCount mid.items < budget := by
          simp only at less
          omega
        split at rest
        · omega
        · have goesOn : firstFault bad mid.stop ⟨.complete,opened⟩ mid.results = some failure :=
            ih op right (by assumption) fewer deep beyond rest
          rw [ends] at goesOn
          exact (readsPass judges reads r.stop opened).trans goesOn

theorem termTraced (judges : Judges α bad) (sound : Sound nested) (traces : Traces bad budget nested)
    (enough : budget ≤ limit) : Traced bad (budget + 1) .operand (term limit nested) := by
  intro r failure after opened few cut failed
  rcases bindFailed failed with inner | ⟨first,mid,found,rest⟩
  · exact factorTraced judges sound traces r failure after opened few cut inner
  · obtain ⟨reads,_⟩ := factorAccepts sound r first mid found
    obtain ⟨beyond,less,ends⟩ := readsLeft reads cut
    rw [readsPass judges reads,← ends]
    exact chainTraced judges (factorAccepts sound) (factorTraced judges sound traces) first
      (by omega) (by omega) beyond rest

theorem expressionTraced (judges : Judges α bad) (sound : Sound nested) (traces : Traces bad budget nested)
    (enough : budget ≤ limit) : Traced bad (budget + 1) .operand (expression limit nested) := by
  intro r failure after opened few cut failed
  rcases bindFailed failed with inner | ⟨first,mid,found,rest⟩
  · exact termTraced judges sound traces enough r failure after opened few cut inner
  · obtain ⟨reads,_⟩ := termAccepts sound r first mid found
    obtain ⟨beyond,less,ends⟩ := readsLeft reads cut
    rw [readsPass judges reads,← ends]
    exact chainTraced judges (termAccepts sound) (termTraced judges sound traces enough) first
      (by omega) (by omega) beyond rest

theorem insideTraces (judges : Judges α bad) (limit : Nat) {room : Nat} (enough : room ≤ limit) :
    Traces bad room (inside limit room : Nested → Reading (Expr α)) := by
  induction room with
  | zero =>
    exact ⟨fun _ _ _ _ few => absurd few (Nat.not_lt_zero _),fun _ _ _ _ _ _ _ few => absurd few (Nat.not_lt_zero _),
      fun _ _ _ _ few => absurd few (Nat.not_lt_zero _),fun _ _ _ _ few => absurd few (Nat.not_lt_zero _)⟩
  | succ room ih =>
    have lower := ih (Nat.le_of_succ_le enough)
    have sound := insideSound (α := α) limit room
    have inner := expressionTraced judges sound lower (Nat.le_of_succ_le enough)
    refine ⟨inner,?_,factorTraced judges sound lower,primaryTraced judges sound lower⟩
    intro opening items stop failure after callee opened few cut failed
    exact closedTraced judges (expressionAccepts sound) inner ⟨opening,callee⟩ (Nat.lt_of_succ_lt few) cut
      (argumentGroup.symm.trans failed)

theorem wholeTraced (judges : Judges α bad) {text : String} (enough : tokenCount (Cursor.ofText text).items ≤ limit) :
    firstFault bad text.utf8ByteSize .start (tokenize text) =
      match (parse limit .whole text : Except Failure (Expr α)) with
      | .ok _ => none
      | .error failure => some failure := by
  have cut := wellCutText text
  have traced := expressionTraced judges (insideSound (α := α) limit limit) (insideTraces judges limit (Nat.le_refl _))
    (Nat.le_refl _)
  rw [tokenizeResults]
  cases read : (expression limit (inside limit limit) : Reading (Expr α)) (Remaining.ofText text) with
  | error failure after =>
    rw [parseFailed.mpr ⟨after,wholeFails read⟩]
    exact traced _ failure after [] (Nat.lt_succ_of_le enough) cut read
  | ok e after =>
    obtain ⟨reads,_⟩ := readExpressionAccepts limit limit _ e after read
    rw [Front.start,readsPass judges reads]
    rcases behindExpression read with rfl | ⟨t,span,items,more,other,rfl⟩
    · rw [parseFound.mpr ⟨_,wholeReads read⟩]
      rfl
    · rw [parseFailed.mpr ⟨_,wholeBehind read more⟩]
      cases t <;> first | rfl | contradiction

end SymbolicCalculus.Grammar

namespace SymbolicCalculus

def missingDigits (digits : String) : Option Cause :=
  if digits = "." then some (.invalidNumber digits) else none

theorem judgesReal : Grammar.Judges Float missingDigits := by
  constructor
  · intro digits value read
    unfold missingDigits
    split
    · rename_i point
      subst point
      simp [Numeral.ofLiteral,realPoint] at read
    · rfl
  · intro digits fault literal refused
    unfold missingDigits
    split
    · rename_i point
      subst point
      simp only [Numeral.ofLiteral,realPoint,Except.error.injEq] at refused
      subst refused
      rfl
    · rename_i digital
      obtain ⟨x,read⟩ := realLiteral literal digital
      simp [Numeral.ofLiteral,read] at refused

/-- Every rejected text is diagnosed at its leftmost failing item. With a level for each token, a text over
the real numbers is rejected exactly when something is wrong at one of its items, the end included, and
the failure says what is wrong at the first of these. -/
theorem diagnosedLeftmost (text : String) (limit : Nat) (enough : tokenCount (Cursor.ofText text).items ≤ limit) :
    ((∃ failure, (parse limit .whole text : Except Failure (Expr Float)) = .error failure) ↔
      ∃ k failure, faultAt missingDigits text.utf8ByteSize .start (tokenize text) k = some failure) ∧
    ∀ k failure, faultAt missingDigits text.utf8ByteSize .start (tokenize text) k = some failure →
      (∀ j < k, faultAt missingDigits text.utf8ByteSize .start (tokenize text) j = none) →
      (parse limit .whole text : Except Failure (Expr Float)) = .error failure := by
  have traced := Grammar.wholeTraced judgesReal enough
  have least (failure : Failure) : (parse limit .whole text : Except Failure (Expr Float)) = .error failure ↔
      firstFault missingDigits text.utf8ByteSize .start (tokenize text) = some failure := by
    rw [traced]
    cases (parse limit .whole text : Except Failure (Expr Float)) <;> simp
  refine ⟨⟨?_,?_⟩,fun k failure found before => (least failure).mpr (firstFaultLeast.mpr ⟨k,found,before⟩)⟩
  · intro rejected
    obtain ⟨failure,rejected⟩ := rejected
    obtain ⟨k,found,_⟩ := firstFaultLeast.mp ((least failure).mp rejected)
    exact ⟨k,failure,found⟩
  · intro faulty
    obtain ⟨k,failure,found⟩ := faulty
    cases first : firstFault missingDigits text.utf8ByteSize .start (tokenize text) with
    | some failure => exact ⟨failure,(least failure).mpr first⟩
    | none => rw [firstFaultNone first k] at found; contradiction

theorem diagnosedUnknownFunction : tokenCount (Cursor.ofText "1+sinh(x).").items ≤ 7 ∧
    (parse 7 .whole "1+sinh(x)." : Except Failure (Expr Float)) = .error ⟨.unknownFunction "sinh" ["sin"],[⟨2,6⟩]⟩ := by
  have enough : tokenCount (Cursor.ofText "1+sinh(x).").items ≤ 7 := by decide +kernel
  exact ⟨enough,(diagnosedLeftmost _ 7 enough).2 5 _ (by decide +kernel) (by decide +kernel)⟩

end SymbolicCalculus
