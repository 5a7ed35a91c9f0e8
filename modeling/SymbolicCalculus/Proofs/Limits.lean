import SymbolicCalculus.Proofs.Acceptance

/-! A phrase is read wherever it stands, unless the limit is in the way: when more constructs are open
at once in it than there is room for, or a chain in its tree is taller than the limit. Then it is
refused for the limit and for nothing else. -/
namespace SymbolicCalculus.Grammar
variable {α : Type} {limit : Nat}

theorem spellsNone {items : List Item} (spells : Spells items []) : items = [] :=
  List.map_eq_nil_iff.mp spells

theorem spellsHead {items : List Item} {t : Token} {w : List Token} (spells : Spells items (t :: w)) :
    ∃ span tail, items = ⟨.token t,span⟩ :: tail ∧ Spells tail w := by
  obtain ⟨⟨piece,span⟩,tail,same,head,rest⟩ := List.map_eq_cons_iff.mp spells
  cases head
  exact ⟨span,tail,same,rest⟩

theorem spellsSplit {items : List Item} {w v : List Token} (spells : Spells items (w ++ v)) :
    ∃ before behind, items = before ++ behind ∧ Spells before w ∧ Spells behind v := by
  unfold Spells at spells
  rw [List.map_append] at spells
  exact List.map_eq_append_iff.mp spells

theorem spellsAhead {α : Type} [Numeral α] {k : Category} {n : Nat} {w : List Token} {e : Expr α} {items rest : List Item}
    {stop : Nat} (phrase : Phrase k n w e) (spells : Spells items w) :
    ∃ here, (⟨items ++ rest,stop⟩ : Remaining).ahead? = some here := by
  cases w with
  | nil => exact absurd (phraseNest phrase) (Nat.not_lt_zero n)
  | cons t w =>
    obtain ⟨span,tail,rfl,_⟩ := spellsHead spells
    exact ⟨⟨t,span⟩,rfl⟩

theorem spellsBrackets {items : List Item} {w : List Token}
    (spells : Spells items (.leftParen :: w ++ [.rightParen])) :
    ∃ opening inner closing, Spells inner w ∧
      items = ⟨.token .leftParen,opening⟩ :: (inner ++ [⟨.token .rightParen,closing⟩]) := by
  obtain ⟨opening,tail,same,spelled⟩ := spellsHead spells
  obtain ⟨inner,last,split,within,ends⟩ := spellsSplit spelled
  obtain ⟨closing,none,only,empty⟩ := spellsHead ends
  cases spellsNone empty
  exact ⟨opening,inner,closing,within,by rw [same,split,only]⟩

abbrev Outcome (α : Type) := EStateM.Result Failure Remaining (Expr α)

def Refused (limit : Nat) (result : Outcome α) : Prop :=
  ∃ spans after, result = .error ⟨.nestingLimit limit,spans⟩ after

structure Decided (limit : Nat) (fits : Prop) (result goal : Outcome α) : Prop where
  read : fits → result = goal
  refused : ¬ fits → Refused limit result

theorem decidedAlways {fits : Prop} {result goal : Outcome α} (fit : fits) (same : result = goal) :
    Decided limit fits result goal := ⟨fun _ => same,fun misfit => absurd fit misfit⟩

theorem decidedIff {p q : Prop} {result goal : Outcome α} (same : p ↔ q) (decided : Decided limit p result goal) :
    Decided limit q result goal :=
  ⟨fun fits => decided.read (same.mpr fits),fun misfit => decided.refused (fun fits => misfit (same.mp fits))⟩

theorem decidedThen {p q : Prop} {result mid goal : Outcome α} (first : Decided limit p result mid)
    (second : Decided limit q mid goal) : Decided limit (p ∧ q) result goal := by
  constructor
  · intro both
    obtain ⟨left,right⟩ := both
    exact (first.read left).trans (second.read right)
  · intro misfit
    by_cases left : p
    · rw [first.read left]
      exact second.refused (fun right => misfit ⟨left,right⟩)
    · exact first.refused left

theorem decidedBind {p : Prop} {m : Reading (Expr α)} {k : Expr α → Reading (Expr α)} {r mid : Remaining} {e : Expr α}
    (first : Decided limit p (m r) (.ok e mid)) : Decided limit p ((m >>= k) r) (k e mid) := by
  refine ⟨fun fits => bindRuns (first.read fits),fun misfit => ?_⟩
  obtain ⟨spans,after,same⟩ := first.refused misfit
  exact ⟨spans,after,bindFails same⟩

theorem decidedInside [Numeral α] (part : Nested) {r : Remaining} {here : PlacedToken} {goal : Outcome α} {n : Nat}
    {p : Prop} (ahead : r.ahead? = some here)
    (entered : ∀ room, Decided limit (n ≤ room ∧ p) (inside limit (room + 1) part r) goal) (room : Nat) :
    Decided limit (n + 1 ≤ room ∧ p) (inside limit room part r) goal := by
  cases room with
  | zero =>
    refine ⟨fun fits => absurd fits.1 (Nat.not_succ_le_zero n),fun _ => ⟨[here.span],r,?_⟩⟩
    exact bindRuns (supplied ahead)
  | succ room => exact decidedIff (and_congr_left' Nat.succ_le_succ_iff.symm) (entered room)

theorem decidedJoin {joins : BinaryOp → Bool} {operand : Reading (Expr α)} {op : BinaryOp} {a b : Expr α} {p q : Prop}
    {result : Outcome α} {span : Span} {items : List Item} {stop : Nat} {after : Remaining} (joined : joins op = true)
    (left : Decided limit p result (chain limit joins operand a ⟨⟨.token (.operator op),span⟩ :: items,stop⟩))
    (right : Decided limit q (operand ⟨items,stop⟩) (.ok b after)) :
    Decided limit ((p ∧ q) ∧ (Expr.binary op a b).depth ≤ limit) result
      (chain limit joins operand (.binary op a b) after) := by
  rw [chainJoins joined] at left
  refine decidedThen (decidedThen left (decidedBind right)) ⟨fun fits => ?_,fun tall => ?_⟩
  · rw [if_neg (Nat.not_lt.mpr fits)]
  · rw [if_pos (Nat.lt_of_not_le tall)]
    exact ⟨_,_,rfl⟩

def Fits (room limit n : Nat) (e : Expr α) : Prop := n ≤ room ∧ e.tallest ≤ limit

theorem fitsChain {op : BinaryOp} {room n m : Nat} {a b : Expr α} (chains : op.chains = true) :
    ((Fits room limit n a ∧ Fits room limit m b) ∧ (Expr.binary op a b).depth ≤ limit) ↔
      Fits room limit (max n m) (.binary op a b) := by
  simp only [Fits,Expr.tallest,chains,if_true]
  omega

theorem fitsPower {room n m : Nat} {a b : Expr α} :
    (Fits room limit n a ∧ m + 1 ≤ room ∧ b.tallest ≤ limit) ↔
      Fits room limit (max n (m + 1)) (.binary .pow a b) := by
  simp only [Fits,Expr.tallest,BinaryOp.chains]
  simp
  omega

variable [Numeral α]

theorem functionWord {f : UnaryOp} (known : f ∈ functions) : UnaryOp.ofName? f.word = some f := by
  simp only [functions,List.mem_cons,List.not_mem_nil,or_false] at known
  rcases known with rfl | rfl | rfl | rfl <;> rfl

def reader (limit : Nat) (nested : Nested → Reading (Expr α)) : Category → Reading (Expr α)
  | .primary => primary nested
  | .factor => factor nested
  | .term => term limit nested
  | .expression => expression limit nested

/- What a reader still does when a phrase stands behind it: a chain tries to go on. -/
def resume (limit : Nat) (nested : Nested → Reading (Expr α)) : Category → Expr α → Reading (Expr α)
  | .primary,e => pure e
  | .factor,e => pure e
  | .term,e => chain limit joinsFactors (factor nested) e
  | .expression,e => chain limit joinsTerms (term limit nested) e

def Category.operand : Category → Category
  | .primary => .primary
  | .factor => .factor
  | .term => .factor
  | .expression => .term

theorem readyOperand {k : Category} {r : Remaining} (ready : Ready k r) : Ready k.operand r := by
  cases k with
  | primary => trivial
  | factor => exact ready
  | term => exact (stopsEither.mp ready).1
  | expression => exact (stopsEither.mp ready).1

theorem resumeReady (nested : Nested → Reading (Expr α)) {k : Category} {e : Expr α} {r : Remaining}
    (ready : Ready k r) : resume limit nested k e r = .ok e r := by
  cases k with
  | primary => rfl
  | factor => rfl
  | term => exact chainStops (stopsEither.mp ready).2
  | expression => exact chainStops (stopsEither.mp ready).2

theorem readyFactor {op : BinaryOp} {span : Span} {items : List Item} {stop : Nat} (joins : joinsFactors op = true) :
    Ready .factor ⟨⟨.token (.operator op),span⟩ :: items,stop⟩ := by
  refine ⟨⟨.operator op,span⟩,rfl,?_⟩
  cases op <;> first | rfl | contradiction

theorem readyTerm {op : BinaryOp} {span : Span} {items : List Item} {stop : Nat} (joins : joinsTerms op = true) :
    Ready .term ⟨⟨.token (.operator op),span⟩ :: items,stop⟩ := by
  refine ⟨⟨.operator op,span⟩,rfl,?_⟩
  cases op <;> first | rfl | contradiction

theorem readyClosing {span : Span} {items : List Item} {stop : Nat} :
    Ready .expression ⟨⟨.token .rightParen,span⟩ :: items,stop⟩ := ⟨⟨.rightParen,span⟩,rfl,rfl⟩

/- What the induction on a phrase says of it, in front of anything that does not go on with its last operand. -/
def Settled (limit : Nat) (k : Category) (n : Nat) (w : List Token) (e : Expr α) : Prop :=
  ∀ room items after, Spells items w → Ready k.operand after →
    Decided limit (Fits room limit n e) (reader limit (inside limit room) k ⟨items ++ after.items,after.stop⟩)
      (resume limit (inside limit room) k e after)

theorem settledComplete {k : Category} {n : Nat} {w : List Token} {e : Expr α} (settled : Settled limit k n w e)
    (room : Nat) {items : List Item} (after : Remaining) (spells : Spells items w) (ready : Ready k after) :
    Decided limit (Fits room limit n e) (reader limit (inside limit room) k ⟨items ++ after.items,after.stop⟩)
      (.ok e after) := by
  rw [← resumeReady (inside limit room) ready]
  exact settled room items after spells (readyOperand ready)

theorem settledClosed {n : Nat} {w : List Token} {e : Expr α} (settled : Settled limit .expression n w e)
    (room : Nat) {opening closing : Span} {items : List Item} {after : Remaining} (spells : Spells items w) :
    Decided limit (Fits room limit n e)
      ((expression limit (inside limit room) >>= fun e => expectClose opening >>= fun _ => pure e)
        ⟨items ++ ⟨.token .rightParen,closing⟩ :: after.items,after.stop⟩) (.ok e after) :=
  decidedBind (settledComplete settled room ⟨⟨.token .rightParen,closing⟩ :: after.items,after.stop⟩
    spells readyClosing)

theorem phraseSettled {k : Category} {n : Nat} {w : List Token} {e : Expr α} (phrase : Phrase k n w e) :
    Settled limit k n w e := by
  induction phrase with
  | number read =>
    intro room items after spells _
    obtain ⟨span,tail,rfl,none⟩ := spellsHead spells
    cases spellsNone none
    exact decidedAlways ⟨Nat.zero_le _,Nat.zero_le _⟩ (numberRead read)
  | named name =>
    intro room items after spells _
    obtain ⟨span,tail,rfl,none⟩ := spellsHead spells
    cases spellsNone none
    exact decidedAlways ⟨Nat.zero_le _,Nat.zero_le _⟩ primaryVariable
  | @call f n w e known _ ih =>
    intro room items after spells _
    obtain ⟨span,tail,same,brackets⟩ := spellsHead spells
    obtain ⟨opening,inner,closing,within,shape⟩ := spellsBrackets brackets
    rw [same,shape]
    have entered (room : Nat) : Decided limit (Fits room limit n e)
        (inside limit (room + 1) .argument
          ⟨⟨.token .leftParen,opening⟩ :: (inner ++ [⟨.token .rightParen,closing⟩]) ++ after.items,after.stop⟩)
        (.ok e after) := by
      simpa [inside,part,argumentGroup] using settledClosed ih room within
    have called := decidedBind (k := call f.word span) (decidedInside (p := e.tallest ≤ limit) .argument rfl entered room)
    rw [callKnown (functionWord known)] at called
    exact called
  | @group n w e phrase ih =>
    intro room items after spells _
    obtain ⟨opening,inner,closing,within,rfl⟩ := spellsBrackets spells
    obtain ⟨here,ahead⟩ := spellsAhead phrase within
    have entered (room : Nat) := settledComplete ih room
      ⟨⟨.token .rightParen,closing⟩ :: after.items,after.stop⟩ within readyClosing
    have grouped := decidedBind (k := fun e => expectClose opening >>= fun _ => pure e)
      (decidedInside .group ahead entered room)
    rw [List.cons_append,List.append_assoc]
    exact grouped
  | @minus n w e phrase ih =>
    intro room items after spells _
    obtain ⟨span,tail,rfl,spelled⟩ := spellsHead spells
    obtain ⟨here,ahead⟩ := spellsAhead phrase spelled
    have entered (room : Nat) := ih room tail after spelled trivial
    exact decidedBind (k := fun e => pure (.unary .neg e)) (decidedInside .operand ahead entered room)
  | base _ ih =>
    intro room items after spells ready
    have first := decidedBind (k := powered (inside limit room)) (ih room items after spells trivial)
    rw [poweredStops ready] at first
    exact first
  | @power n m w v a b _ phrase ihl ihr =>
    intro room items after spells ready
    obtain ⟨before,behind,rfl,left,spelled⟩ := spellsSplit spells
    obtain ⟨span,tail,rfl,right⟩ := spellsHead spelled
    obtain ⟨here,ahead⟩ := spellsAhead phrase right
    have base := decidedBind (k := powered (inside limit room))
      (ihl room before ⟨⟨.token (.operator .pow),span⟩ :: (tail ++ after.items),after.stop⟩ left trivial)
    have raised := decidedBind (k := fun e => pure (.binary .pow a e))
      (decidedInside .exponent ahead (fun room => ihr room tail after right ready) room)
    rw [List.append_assoc,List.cons_append]
    exact decidedIff fitsPower (decidedThen base raised)
  | single _ ih =>
    intro room items after spells ready
    exact decidedBind (k := chain limit joinsFactors (factor (inside limit room))) (ih room items after spells ready)
  | @product op n m w v a b joins _ _ ihl ihr =>
    intro room items after spells ready
    obtain ⟨before,behind,rfl,left,spelled⟩ := spellsSplit spells
    obtain ⟨span,tail,rfl,right⟩ := spellsHead spelled
    have first := ihl room before ⟨⟨.token (.operator op),span⟩ :: (tail ++ after.items),after.stop⟩ left
      (readyFactor joins)
    have joined := decidedJoin joins first (settledComplete ihr room after right ready)
    rw [fitsChain (factorsChain joins)] at joined
    rw [List.append_assoc,List.cons_append]
    exact joined
  | alone _ ih =>
    intro room items after spells ready
    exact decidedBind (k := chain limit joinsTerms (term limit (inside limit room)))
      (settledComplete ih room after spells ready)
  | @sum op n m w v a b joins _ _ ihl ihr =>
    intro room items after spells ready
    obtain ⟨before,behind,rfl,left,spelled⟩ := spellsSplit spells
    obtain ⟨span,tail,rfl,right⟩ := spellsHead spelled
    have first := ihl room before ⟨⟨.token (.operator op),span⟩ :: (tail ++ after.items),after.stop⟩ left
      (readyTerm joins)
    have joined := decidedJoin joins first (settledComplete ihr room after right ready)
    rw [fitsChain (termsChain joins)] at joined
    rw [List.append_assoc,List.cons_append]
    exact joined

end SymbolicCalculus.Grammar
