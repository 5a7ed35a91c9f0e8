import SymbolicCalculus.Proofs.Phrase

/-! What each reading does with the item in front of it, said once. Proofs about the grammar split
on the item and rewrite with these equations, and open no reading. -/
namespace SymbolicCalculus
variable {α β γ : Type}

section binding
variable {σ : Type} {m : EStateM Failure σ β} {k : β → EStateM Failure σ γ} {r mid after : σ} {b : β} {c : γ}
  {failure : Failure}

theorem bindRuns (first : m r = .ok b mid) : (m >>= k) r = k b mid := by
  simp only [bind,EStateM.bind,first]

theorem bindFails (first : m r = .error failure mid) : (m >>= k) r = .error failure mid := by
  simp only [bind,EStateM.bind,first]

theorem bindFound (found : (m >>= k) r = .ok c after) : ∃ b mid, m r = .ok b mid ∧ k b mid = .ok c after := by
  cases first : m r with
  | ok b mid => exact ⟨b,mid,rfl,(bindRuns first).symm.trans found⟩
  | error failure mid => cases (bindFails first).symm.trans found

theorem bindFailed (failed : (m >>= k) r = .error failure after) :
    m r = .error failure after ∨ ∃ b mid, m r = .ok b mid ∧ k b mid = .error failure after := by
  cases first : m r with
  | ok b mid => exact Or.inr ⟨b,mid,rfl,(bindRuns first).symm.trans failed⟩
  | error failure mid =>
    cases (bindFails first).symm.trans failed
    exact Or.inl rfl

end binding

def Remaining.ahead? (r : Remaining) : Option PlacedToken :=
  match r.items with
  | [] => some ⟨.endOfInput,⟨r.stop,r.stop⟩⟩
  | ⟨.token t,span⟩ :: _ => some ⟨t,span⟩
  | ⟨.stray _,_⟩ :: _ => none

namespace Grammar

theorem peekAhead {r : Remaining} {here : PlacedToken} (ahead : r.ahead? = some here) : peek r = .ok here r := by
  unfold Remaining.ahead? at ahead
  unfold peek
  split at ahead <;> cases ahead <;> simp [*]

theorem supplied {r : Remaining} {here : PlacedToken} (ahead : r.ahead? = some here) :
    (Supply.peek : Reading PlacedToken) r = .ok here r := peekAhead ahead

def Stops (joins : BinaryOp → Bool) (r : Remaining) : Prop :=
  ∃ here, r.ahead? = some here ∧ here.token.operator?.filter joins = none

theorem stopsEither {p q : BinaryOp → Bool} {r : Remaining} :
    Stops (fun op => p op || q op) r ↔ Stops p r ∧ Stops q r := by
  constructor
  · intro stops
    obtain ⟨here,ahead,neither⟩ := stops
    cases operator : here.token.operator? with
    | none => exact ⟨⟨here,ahead,by rw [operator]; rfl⟩,⟨here,ahead,by rw [operator]; rfl⟩⟩
    | some op =>
      have both : p op = false ∧ q op = false := by simpa [operator,Option.filter] using neither
      exact ⟨⟨here,ahead,by simp [operator,both]⟩,⟨here,ahead,by simp [operator,both]⟩⟩
  · intro both
    obtain ⟨⟨here,ahead,left⟩,⟨other,same,right⟩⟩ := both
    cases Option.some.inj (ahead.symm.trans same)
    refine ⟨here,ahead,?_⟩
    cases operator : here.token.operator? with
    | none => rfl
    | some op =>
      rw [operator] at left right
      simp_all [Option.filter]

theorem frontCases (joins : BinaryOp → Bool) (r : Remaining) :
    (∃ c span items, r = ⟨⟨.stray c,span⟩ :: items,r.stop⟩) ∨ Stops joins r ∨
      ∃ op span items, joins op = true ∧ r = ⟨⟨.token (.operator op),span⟩ :: items,r.stop⟩ := by
  obtain ⟨items,stop⟩ := r
  rcases items with _ | ⟨⟨piece,span⟩,items⟩
  · exact Or.inr (Or.inl ⟨_,rfl,rfl⟩)
  cases piece with
  | stray c => exact Or.inl ⟨c,span,items,rfl⟩
  | token t =>
    refine Or.inr ?_
    cases operator : t.operator? with
    | none => exact Or.inl ⟨⟨t,span⟩,rfl,by rw [operator]; rfl⟩
    | some op =>
      have same : t = .operator op := by
        cases t <;> simp_all [Token.operator?]
      subst same
      cases joined : joins op with
      | false => exact Or.inl ⟨⟨.operator op,span⟩,rfl,by simp [Token.operator?,joined]⟩
      | true => exact Or.inr ⟨op,span,items,joined,rfl⟩

def raises : BinaryOp → Bool
  | .pow => true
  | _ => false

variable {limit : Nat} {inside : Nested → Reading (Expr α)}

section primary
variable [Numeral α] {span : Span} {items : List Item} {stop : Nat}

theorem primaryEnd : primary inside ⟨[],stop⟩ = .error ⟨.unexpectedEnd,[⟨stop,stop⟩]⟩ ⟨[],stop⟩ := rfl

theorem primaryStray {c : Char} :
    primary inside ⟨⟨.stray c,span⟩ :: items,stop⟩ = .error ⟨.unexpectedCharacter c,[span]⟩ ⟨items,stop⟩ := rfl

theorem primaryNumber {digits : String} :
    primary inside ⟨⟨.token (.number digits),span⟩ :: items,stop⟩ = number digits span ⟨items,stop⟩ := rfl

theorem primaryVariable {name : String} :
    primary inside ⟨⟨.token (.variable name),span⟩ :: items,stop⟩ = .ok (.var name) ⟨items,stop⟩ := rfl

theorem primaryFunction {name : String} :
    primary inside ⟨⟨.token (.function name),span⟩ :: items,stop⟩ =
      (inside .argument >>= call name span) ⟨items,stop⟩ := rfl

theorem primaryGroup :
    primary inside ⟨⟨.token .leftParen,span⟩ :: items,stop⟩ =
      (inside .group >>= fun e => expectClose span >>= fun _ => pure e) ⟨items,stop⟩ := rfl

theorem primaryMinus :
    primary inside ⟨⟨.token (.operator .sub),span⟩ :: items,stop⟩ =
      (inside .operand >>= fun e => pure (.unary .neg e)) ⟨items,stop⟩ := rfl

def literalCause (α : Type) [Numeral α] (digits : String) : LiteralFault → Cause
  | .unsupported => .unsupportedLiteral (Numeral.typeName α)
  | .invalid => .invalidNumber digits

theorem numberRead {digits : String} {value : α} {r : Remaining} (read : Numeral.ofLiteral digits = .ok value) :
    number digits span r = .ok (.const value) r := by
  simp only [number,read]
  rfl

theorem numberRefused {digits : String} {fault : LiteralFault} {r : Remaining}
    (refused : (Numeral.ofLiteral digits : Except LiteralFault α) = .error fault) :
    (number digits span : Reading (Expr α)) r = .error ⟨literalCause α digits fault,[span]⟩ r := by
  cases fault <;> simp only [number,refused] <;> rfl

end primary

theorem callKnown {name : String} {f : UnaryOp} {span : Span} {operand : Expr α} {r : Remaining}
    (known : UnaryOp.ofName? name = some f) : call name span operand r = .ok (.unary f operand) r := by
  simp only [call,known]
  rfl

theorem callUnknown {name : String} {span : Span} {operand : Expr α} {r : Remaining}
    (unknown : UnaryOp.ofName? name = none) :
    call name span operand r = .error ⟨.unknownFunction name (suggestions name),[span]⟩ r := by
  simp only [call,unknown]
  rfl

def powered (inside : Nested → Reading (Expr α)) (base : Expr α) : Reading (Expr α) := do
  let here ← peek
  match here.token with
  | .operator .pow => do
      advance
      let exponent ← inside .exponent
      return .binary .pow base exponent
  | _ => return base

theorem factorBase [Numeral α] : factor inside = primary inside >>= powered inside := rfl

theorem poweredStops {base : Expr α} {r : Remaining} (stops : Stops raises r) :
    powered inside base r = .ok base r := by
  obtain ⟨⟨token,span⟩,ahead,other⟩ := stops
  refine (bindRuns (peekAhead ahead)).trans ?_
  cases token with
  | operator op =>
    cases op with
    | pow => contradiction
    | _ => rfl
  | _ => rfl

theorem poweredRaises {base : Expr α} {span : Span} {items : List Item} {stop : Nat} :
    powered inside base ⟨⟨.token (.operator .pow),span⟩ :: items,stop⟩ =
      (inside .exponent >>= fun e => pure (.binary .pow base e)) ⟨items,stop⟩ := rfl

section chain
variable {joins : BinaryOp → Bool} {operand : Reading (Expr α)} {left : Expr α}

theorem chainStops {r : Remaining} (stops : Stops joins r) : chain limit joins operand left r = .ok left r := by
  obtain ⟨here,ahead,other⟩ := stops
  rw [chain,bindRuns (supplied ahead),other]
  rfl

theorem chainJoins {op : BinaryOp} {span : Span} {items : List Item} {stop : Nat} (joined : joins op = true) :
    chain limit joins operand left ⟨⟨.token (.operator op),span⟩ :: items,stop⟩ =
      (operand >>= fun right => if limit < (Expr.binary op left right).depth then fail (.nestingLimit limit) [span]
        else chain limit joins operand (.binary op left right)) ⟨items,stop⟩ := by
  have ahead : (⟨⟨.token (.operator op),span⟩ :: items,stop⟩ : Remaining).ahead? = some ⟨.operator op,span⟩ := rfl
  have chosen : (Token.operator op).operator?.filter joins = some op := by simp [Token.operator?,joined]
  rw [chain,bindRuns (supplied ahead),chosen]
  rfl

theorem chainStray {c : Char} {span : Span} {items : List Item} {stop : Nat} :
    chain limit joins operand left ⟨⟨.stray c,span⟩ :: items,stop⟩ =
      .error ⟨.unexpectedCharacter c,[span]⟩ ⟨items,stop⟩ := by
  rw [chain]
  rfl

end chain

theorem argumentGroup [Numeral α] {span : Span} {items : List Item} {stop : Nat} :
    argument limit inside ⟨⟨.token .leftParen,span⟩ :: items,stop⟩ =
      (expression limit inside >>= fun e => expectClose span >>= fun _ => pure e) ⟨items,stop⟩ := rfl

end Grammar
end SymbolicCalculus
