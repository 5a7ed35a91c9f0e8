import SymbolicCalculus.Parser
import SymbolicCalculus.Proofs.Readings
import SymbolicCalculus.RealNumber

/-! A higher limit changes nothing but what the lower one refuses. The two readings run side by side, over items or
over a parser, and until the lower one is refused they do the same. -/
namespace SymbolicCalculus

section agreement
variable {σ β γ : Type} {limit : Nat}

def RefusedFor (limit : Nat) (result : EStateM.Result Failure σ β) : Prop :=
  ∃ spans after, result = .error ⟨.nestingLimit limit,spans⟩ after

/- What the lower reading is not refused for the limit, the higher one does just so and stops at the same place. -/
def Agrees (limit : Nat) (lower higher : EStateM Failure σ β) : Prop :=
  ∀ s, RefusedFor limit (lower s) ∨ higher s = lower s

theorem agreesSame (m : EStateM Failure σ β) : Agrees limit m m := fun _ => Or.inr rfl

theorem agreesRefused (spans : List Span) (m : EStateM Failure σ β) :
    Agrees limit (Grammar.fail (.nestingLimit limit) spans) m := fun s => Or.inl ⟨spans,s,rfl⟩

theorem agreesBind {lower higher : EStateM Failure σ β} {k l : β → EStateM Failure σ γ}
    (first : Agrees limit lower higher) (second : ∀ b, Agrees limit (k b) (l b)) :
    Agrees limit (lower >>= k) (higher >>= l) := by
  intro s
  rcases first s with ⟨spans,after,refused⟩ | same
  · exact Or.inl ⟨spans,after,bindFails refused⟩
  cases read : lower s with
  | ok b mid =>
    rw [bindRuns read,bindRuns (same.trans read)]
    exact second b mid
  | error failure mid =>
    rw [bindFails read,bindFails (same.trans read)]
    exact Or.inr rfl

variable [Supply σ]

def Looks (m : EStateM Failure σ β) : Prop :=
  ∀ s failure after, (Supply.peek : EStateM Failure σ PlacedToken) s = .error failure after → m s = .error failure after

theorem looksPeek : Looks (Supply.peek : EStateM Failure σ PlacedToken) := fun _ _ _ failed => failed

theorem looksBind {m : EStateM Failure σ β} {k : β → EStateM Failure σ γ} (looks : Looks m) : Looks (m >>= k) :=
  fun s failure after failed => bindFails (looks s failure after failed)

theorem looksNext : Looks (Grammar.next : EStateM Failure σ PlacedToken) := looksBind looksPeek

theorem refuseAgrees {α : Type} {m : EStateM Failure σ (Expr α)} (looks : Looks m) :
    Agrees limit (Grammar.refuse limit) m := by
  intro s
  -- The refusal looks ahead first, so a stray character there stops both readings alike.
  cases seen : (Supply.peek : EStateM Failure σ PlacedToken) s with
  | ok here after => exact Or.inl ⟨[here.span],after,bindRuns seen⟩
  | error failure after => exact Or.inr ((looks s failure after seen).trans (bindFails seen).symm)

end agreement

namespace Grammar
variable {α σ : Type} [Supply σ] {low high : Nat}

theorem refuseLooks : Looks (refuse low : EStateM Failure σ (Expr α)) := looksBind looksPeek

theorem chainAgrees (raise : low ≤ high) {joins : BinaryOp → Bool} {lower higher : EStateM Failure σ (Expr α)}
    (operand : Agrees low lower higher) (left : Expr α) :
    Agrees low (chain low joins lower left) (chain high joins higher left) := by
  induction left using chain.induct low with
  | case1 left ih =>
    rw [chain,chain]
    refine agreesBind (agreesSame _) (fun here => ?_)
    cases here.token.operator?.filter joins with
    | none => exact agreesSame _
    | some op =>
      refine agreesBind (agreesSame _) (fun _ => agreesBind operand (fun right => ?_))
      split
      · exact agreesRefused _ _
      · rename_i fits
        rw [dif_neg (by omega)]
        exact ih op right fits

variable [Numeral α] {lower higher : Nested → EStateM Failure σ (Expr α)}

def Nests (low : Nat) (lower higher : Nested → EStateM Failure σ (Expr α)) : Prop :=
  ∀ part, Agrees low (lower part) (higher part)

theorem primaryAgrees (nests : Nests low lower higher) : Agrees low (primary lower) (primary higher) := by
  refine agreesBind (agreesSame _) (fun here => ?_)
  obtain ⟨token,span⟩ := here
  cases token with
  | function name => exact agreesBind (nests .argument) (fun _ => agreesSame _)
  | leftParen => exact agreesBind (nests .group) (fun _ => agreesSame _)
  | operator op =>
    cases op with
    | sub => exact agreesBind (nests .operand) (fun _ => agreesSame _)
    | _ => exact agreesSame _
  | _ => exact agreesSame _

theorem factorAgrees (nests : Nests low lower higher) : Agrees low (factor lower) (factor higher) := by
  refine agreesBind (primaryAgrees nests) (fun base => agreesBind (agreesSame _) (fun here => ?_))
  obtain ⟨token,span⟩ := here
  cases token with
  | operator op =>
    cases op with
    | pow => exact agreesBind (agreesSame _) (fun _ => agreesBind (nests .exponent) (fun _ => agreesSame _))
    | _ => exact agreesSame _
  | _ => exact agreesSame _

theorem termAgrees (raise : low ≤ high) (nests : Nests low lower higher) :
    Agrees low (term low lower) (term high higher) :=
  agreesBind (factorAgrees nests) (chainAgrees raise (factorAgrees nests))

theorem expressionAgrees (raise : low ≤ high) (nests : Nests low lower higher) :
    Agrees low (expression low lower) (expression high higher) :=
  agreesBind (termAgrees raise nests) (chainAgrees raise (termAgrees raise nests))

theorem argumentAgrees (raise : low ≤ high) (nests : Nests low lower higher) :
    Agrees low (argument low lower) (argument high higher) := by
  refine agreesBind (agreesSame _) (fun here => ?_)
  obtain ⟨token,span⟩ := here
  cases token with
  | leftParen => exact agreesBind (expressionAgrees raise nests) (fun _ => agreesSame _)
  | _ => exact agreesSame _

theorem partAgrees (raise : low ≤ high) (nests : Nests low lower higher) :
    Nests low (part low lower) (part high higher) := by
  intro nested
  cases nested with
  | group => exact expressionAgrees raise nests
  | argument => exact argumentAgrees raise nests
  | exponent => exact factorAgrees nests
  | operand => exact primaryAgrees nests

theorem partLooks (limit : Nat) (inside : Nested → EStateM Failure σ (Expr α)) (nested : Nested) :
    Looks (part limit inside nested) := by
  have first : Looks (primary inside) := looksBind looksNext
  cases nested with
  | group => exact looksBind (looksBind (looksBind first))
  | argument => exact looksBind looksNext
  | exponent => exact looksBind first
  | operand => exact first

omit [Numeral α] in
theorem extentAgrees {lower higher : EStateM Failure σ (Expr α)} (extent : Extent) (agrees : Agrees low lower higher) :
    Agrees low (extent.read lower) (extent.read higher) := by
  cases extent with
  | first => exact agrees
  | whole => exact agreesBind agrees (fun _ => agreesSame _)

end Grammar

section limits
variable {α : Type} [Numeral α] {low high : Nat}

theorem Grammar.insideLooks (limit room : Nat) (part : Nested) : Looks (inside limit room part : Reading (Expr α)) := by
  cases room with
  | zero => exact refuseLooks
  | succ room => exact partLooks limit _ part

theorem Grammar.insideAgrees (raise : low ≤ high) {room more : Nat} (wider : room ≤ more) :
    Nests low (inside low room : Nested → Reading (Expr α)) (inside high more) := by
  induction room generalizing more with
  | zero => exact fun part => refuseAgrees (insideLooks high more part)
  | succ room ih =>
    obtain ⟨more,rfl⟩ := Nat.exists_eq_add_one.mpr (Nat.lt_of_lt_of_le (Nat.succ_pos room) wider)
    exact partAgrees raise (ih (Nat.le_of_succ_le_succ wider))

namespace Parser

theorem peekFails {p after : Parser} {failure : Failure} (depth : Nat) (failed : peek p = .error failure after) :
    peek { p with depth := depth } = .error failure { after with depth := depth } ∧ after.depth = p.depth := by
  obtain ⟨cursor,buffered,level⟩ := p
  cases buffered with
  | some here => cases failed
  | none =>
    cases found : cursor.next with
    | none => simp [peek,found] at failed
    | some pair =>
      obtain ⟨⟨piece,span⟩,rest⟩ := pair
      cases piece with
      | token t => simp [peek,found] at failed
      | stray c =>
        simp only [peek,found] at failed ⊢
        cases failed
        exact ⟨rfl,rfl⟩

omit [Numeral α] in
theorem nestedLooks {limit : Nat} {m : EStateM Failure Parser (Expr α)} (looks : Looks m) : Looks (nested limit m) := by
  intro p failure after failed
  obtain ⟨deeper,level⟩ := peekFails (p.depth + 1) failed
  unfold nested
  split
  · exact Grammar.refuseLooks p failure after failed
  · rw [looks _ _ _ deeper]
    simp [← level]

omit [Numeral α] in
theorem nestedAgrees (raise : low ≤ high) {lower higher : EStateM Failure Parser (Expr α)}
    (agrees : Agrees low lower higher) (looks : Looks higher) : Agrees low (nested low lower) (nested high higher) := by
  intro p
  by_cases full : low ≤ p.depth
  · have refused : nested low lower p = Grammar.refuse low p := if_pos full
    rw [refused]
    exact refuseAgrees (nestedLooks looks) p
  · have room : ¬ high ≤ p.depth := by omega
    unfold nested
    rw [if_neg full,if_neg room]
    rcases agrees { p with depth := p.depth + 1 } with ⟨spans,after,refused⟩ | same
    · rw [refused]
      exact Or.inl ⟨spans,_,rfl⟩
    · rw [same]
      exact Or.inr rfl

theorem insideLooks (limit rounds : Nat) (part : Grammar.Nested) :
    Looks (inside limit rounds part : EStateM Failure Parser (Expr α)) := by
  cases rounds with
  | zero => exact Grammar.refuseLooks
  | succ rounds => exact nestedLooks (Grammar.partLooks limit _ part)

theorem insideAgrees (raise : low ≤ high) {rounds more : Nat} (further : rounds ≤ more) :
    Grammar.Nests low (inside low rounds : Grammar.Nested → EStateM Failure Parser (Expr α)) (inside high more) := by
  induction rounds generalizing more with
  | zero => exact fun part => refuseAgrees (insideLooks high more part)
  | succ rounds ih =>
    obtain ⟨more,rfl⟩ := Nat.exists_eq_add_one.mpr (Nat.lt_of_lt_of_le (Nat.succ_pos rounds) further)
    have inner := Grammar.partAgrees raise (ih (Nat.le_of_succ_le_succ further))
    exact fun part => nestedAgrees raise (inner part) (Grammar.partLooks high _ part)

theorem readAgrees (raise : low ≤ high) (extent : Extent) :
    Agrees low (readExpression low extent : EStateM Failure Parser (Expr α)) (readExpression high extent) :=
  Grammar.extentAgrees extent (Grammar.expressionAgrees raise (insideAgrees raise (Nat.succ_le_succ raise)))

end Parser

theorem readAgrees (raise : low ≤ high) (extent : Extent) :
    Agrees low (readExpression low extent : Reading (Expr α)) (readExpression high extent) :=
  Grammar.extentAgrees extent (Grammar.expressionAgrees raise (Grammar.insideAgrees raise raise))

end limits

/-- Raising the limit changes nothing but what is refused for it. What a parser, wherever it stands, is not refused
under the lower limit it does under the higher one just so, failures and their places included, and it stops at the
same place; the same goes for a whole text. So a tree that is read under the higher limit is read under the lower
one as well, unless that one refuses it. -/
theorem limitRaised {α : Type} [Numeral α] {low high : Nat} (raise : low ≤ high) (extent : Extent) :
    (∀ p : Parser, ¬ RefusedFor low (Parser.readExpression (α := α) low extent p) →
      Parser.readExpression (α := α) high extent p = Parser.readExpression low extent p) ∧
    (∀ (p after : Parser) (e : Expr α), Parser.readExpression high extent p = .ok e after →
      Parser.readExpression low extent p = .ok e after ∨ RefusedFor low (Parser.readExpression (α := α) low extent p)) ∧
    ∀ text, (∀ spans, (parse low extent text : Except Failure (Expr α)) ≠ .error ⟨.nestingLimit low,spans⟩) →
      (parse high extent text : Except Failure (Expr α)) = parse low extent text := by
  have agrees := Parser.readAgrees (α := α) raise extent
  refine ⟨fun p free => (agrees p).resolve_left free,fun p after e found => ?_,fun text free => ?_⟩
  · rcases agrees p with refused | same
    · exact Or.inr refused
    · exact Or.inl (same.symm.trans found)
  · unfold parse at free ⊢
    rcases readAgrees (α := α) raise extent (Remaining.ofText text) with ⟨spans,after,refused⟩ | same
    · exact absurd (by rw [refused]) (free spans)
    · rw [same]

theorem limitRaisedStray : ∃ p : Parser,
    (Parser.readExpression 1 .whole (Parser.ofText "-($)") : EStateM.Result Failure Parser (Expr Float)) =
      .error ⟨.unexpectedCharacter '$',[⟨2,3⟩]⟩ p ∧
    (Parser.readExpression 5 .whole (Parser.ofText "-($)") : EStateM.Result Failure Parser (Expr Float)) =
      .error ⟨.unexpectedCharacter '$',[⟨2,3⟩]⟩ p := by
  have found : (Parser.readExpression 1 .whole (Parser.ofText "-($)") : EStateM.Result Failure Parser (Expr Float)) =
      .error ⟨.unexpectedCharacter '$',[⟨2,3⟩]⟩ ⟨⟨[')'],3⟩,none,0⟩ := by with_unfolding_all rfl
  refine ⟨_,found,?_⟩
  rw [(limitRaised (show 1 ≤ 5 by decide) .whole).1 (Parser.ofText "-($)")]
  · exact found
  · rintro ⟨spans,after,refused⟩
    cases found.symm.trans refused

end SymbolicCalculus
