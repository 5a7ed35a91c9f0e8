import SymbolicCalculus.Derivative
import SymbolicCalculus.Evaluation
import SymbolicCalculus.Grammar
import SymbolicCalculus.Report
import SymbolicCalculus.Substitution

/-! Work on several expressions at once. A session holds expressions by name and one context of
values. Each step reads or changes one of them; a step that is refused changes nothing. -/
namespace SymbolicCalculus.Session

structure State (α : Type) where
  expressions : Bindings (Expr α)
  context : Bindings α

def State.fresh {α : Type} : State α := ⟨.empty,.empty⟩

inductive Step (α : Type) where
  | const (into : String) (value : α)
  | var (into name : String)
  | parse (into text : String) (extent : Extent)
  | reparse (into source : String)
  | join (op : BinaryOp) (into left right : String)
  | consume (op : BinaryOp) (into left right : String)
  | apply (f : UnaryOp) (times : Nat) (into source : String)
  | copy (into source : String)
  | derivative (into source name : String)
  | substitute (into source name : String) (value : α)
  | child (into source : String) (index : Nat)
  | inspect (source : String)
  | evaluate (source : String)
  | compare (left right : String)
  | drop (source : String)
  | expressions
  | bind (name : String) (value : α)
  | context (entries : List (String × α))
  | value (name : String)
  | values

inductive Answer (α : Type) where
  | stored (e : Expr α)
  | inspected (e : Expr α)
  | figure (f : Figure)
  | truth (b : Bool)
  | done
  | names (names : List String)
  | display (text : Option String)
  | listing (entries : List (String × String))

inductive Refusal where
  | failed (failure : Failure)
  | noSuchExpression (name : String)
  | noSuchChild (index : Nat)
  deriving DecidableEq, Repr

variable {α : Type}

def State.expression (s : State α) (name : String) : Except Refusal (Expr α) :=
  match s.expressions.value? name with
  | some e => .ok e
  | none => .error (.noSuchExpression name)

def State.store (s : State α) (into : String) (e : Expr α) : Answer α × State α :=
  (.stored e,{ s with expressions := s.expressions.bind into e })

def State.forget (s : State α) (name : String) : State α :=
  { s with expressions := s.expressions.unbind name }

theorem expressionForgotten (s : State α) (name other : String) : (s.forget name).expression other =
    if name = other then .error (.noSuchExpression other) else s.expression other := by
  unfold State.expression State.forget
  rw [Bindings.valueUnbind]
  by_cases same : name = other
  · rw [if_pos same,if_pos same]
  · rw [if_neg same,if_neg same]

theorem expressionStored (s : State α) (into : String) (e : Expr α) (name : String) :
    (s.store into e).2.expression name = if into = name then .ok e else s.expression name := by
  unfold State.expression State.store
  rw [Bindings.valueBind]
  by_cases same : into = name
  · rw [if_pos same,if_pos same]
  · rw [if_neg same,if_neg same]

def orFailed {β : Type} : Except Failure β → Except Refusal β
  | .ok value => .ok value
  | .error failure => .error (.failed failure)

def applied (f : UnaryOp) : Nat → Expr α → Expr α
  | 0,e => e
  | times+1,e => applied f times (.unary f e)

variable [Scalar α] [Numeral α] [Reported α] [BEq α]

def step (s : State α) : Step α → Except Refusal (Answer α × State α)
  | .const into value => return s.store into (.const value)
  | .var into name => return s.store into (.var name)
  | .parse into text extent => do
      let e ← orFailed (parse defaultLimit extent text)
      return s.store into e
  | .reparse into source => do
      let e ← s.expression source
      let again ← orFailed (parse defaultLimit .whole e.render)
      return s.store into again
  | .join op into left right => do
      let a ← s.expression left
      let b ← s.expression right
      return s.store into (.binary op a b)
  | .consume op into left right => do
      let a ← s.expression left
      let rest := s.forget left
      let b ← rest.expression right
      return (rest.forget right).store into (.binary op a b)
  | .apply f times into source => do
      let e ← s.expression source
      return s.store into (applied f times e)
  | .copy into source => do
      let e ← s.expression source
      return s.store into e
  | .derivative into source name => do
      let e ← s.expression source
      return s.store into (e.derivative name)
  | .substitute into source name value => do
      let e ← s.expression source
      return s.store into (e.substitute name value)
  | .child into source index => do
      let e ← s.expression source
      match e.children[index]? with
      | some part => return s.store into part
      | none => throw (.noSuchChild index)
  | .inspect source => do
      let e ← s.expression source
      return (.inspected e,s)
  | .evaluate source => do
      let e ← s.expression source
      let value ← orFailed (e.evaluate s.context)
      return (.figure (Reported.figure e value),s)
  | .compare left right => do
      let a ← s.expression left
      let b ← s.expression right
      return (.truth (a.same b),s)
  | .drop source => do
      let _ ← s.expression source
      return (.done,s.forget source)
  | .expressions => return (.names s.expressions.names,s)
  | .bind name value => return (.done,{ s with context := s.context.bind name value })
  | .context entries => return (.done,{ s with context := .ofList entries })
  | .value name => return (.display ((s.context.value? name).map Numeral.display),s)
  | .values => return (.listing (s.context.entries.map (fun entry => (entry.1,Numeral.display entry.2))),s)

section consuming
variable {s after : State α} {op : BinaryOp} {into left right : String} {answer : Answer α}

theorem consumeFound : step s (.consume op into left right) = .ok (answer,after) ↔
    left ≠ right ∧ ∃ a b, s.expression left = .ok a ∧ s.expression right = .ok b ∧
      answer = .stored (.binary op a b) ∧ after = (((s.forget left).forget right).store into (.binary op a b)).2 := by
  simp only [step,bind,Except.bind,pure,Except.pure]
  rw [expressionForgotten]
  cases s.expression left with
  | error refusal => simp
  | ok a =>
    by_cases same : left = right
    · simp [same]
    · cases s.expression right with
      | error refusal => simp [same]
      | ok b => simp [same,State.store,eq_comm]

/-- Two expressions that are joined by consuming them are different ones. Afterwards the result has its name, both
of them are gone unless the result has taken the name of one, and all others are there as before. -/
theorem consumedOnce (consumed : step s (.consume op into left right) = .ok (answer,after)) :
    left ≠ right ∧ ∃ a b, s.expression left = .ok a ∧ s.expression right = .ok b ∧
      answer = .stored (.binary op a b) ∧ after.context = s.context ∧
      ∀ name, after.expression name = if into = name then .ok (.binary op a b)
        else if name = left ∨ name = right then .error (.noSuchExpression name) else s.expression name := by
  obtain ⟨apart,a,b,first,second,rfl,rfl⟩ := consumeFound.mp consumed
  refine ⟨apart,a,b,first,second,rfl,rfl,fun name => ?_⟩
  rw [expressionStored,expressionForgotten,expressionForgotten]
  by_cases gone : name = left ∨ name = right
  · rcases gone with rfl | rfl <;> simp
  · have others : right ≠ name ∧ left ≠ name := by simpa [eq_comm,and_comm] using gone
    rw [if_neg others.1,if_neg others.2,if_neg gone]

end consuming

def run (s : State α) : List (Step α) → List (Except Refusal (Answer α))
  | [] => []
  | head :: rest => match step s head with
    | .ok (answer,after) => .ok answer :: run after rest
    | .error refusal => .error refusal :: run s rest

end SymbolicCalculus.Session
