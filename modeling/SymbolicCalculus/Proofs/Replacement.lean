import SymbolicCalculus.Evaluation
import SymbolicCalculus.Substitution

/-! Values put in for variables one after another, against the same values bound in a context. Where a value
has been put in the variable is gone, so of two values for a name the first one counts; of two bindings of a
name it is the last. -/
namespace SymbolicCalculus
variable {α : Type}

def Expr.substituteAll (e : Expr α) (values : List (String × α)) : Expr α :=
  values.foldl (fun e entry => e.substitute entry.1 entry.2) e

def Bindings.bindAll (b : Bindings α) (entries : List (String × α)) : Bindings α :=
  entries.foldl (fun b entry => b.bind entry.1 entry.2) b

theorem bindBehind (b : Bindings α) (entries : List (String × α)) (entry : String × α) :
    b.bindAll (entries ++ [entry]) = (b.bindAll entries).bind entry.1 entry.2 := by
  simp only [Bindings.bindAll,List.foldl_append,List.foldl_cons,List.foldl_nil]

variable [Scalar α]

theorem substitutedOnce (x : String) (value : α) (e : Expr α) (context : Bindings α) :
    (e.substitute x value).evaluate context = e.evaluate (context.bind x value) := by
  induction e with
  | const c => rfl
  | var name =>
    simp only [Expr.substitute]
    by_cases same : name = x
    · rw [if_pos same,Expr.evaluate,Expr.evaluate,Bindings.valueBind,if_pos same.symm]
    · rw [if_neg same,Expr.evaluate,Expr.evaluate,Bindings.valueBind,if_neg (Ne.symm same)]
  | binary op left right ihl ihr => rw [Expr.substitute,Expr.evaluate,Expr.evaluate,ihl,ihr]
  | unary f operand ih => rw [Expr.substitute,Expr.evaluate,Expr.evaluate,ih]

theorem substitutedInTurn (values : List (String × α)) (e : Expr α) (context : Bindings α) :
    (e.substituteAll values).evaluate context = e.evaluate (context.bindAll values.reverse) := by
  induction values generalizing e with
  | nil => rfl
  | cons entry rest ih =>
    calc (e.substituteAll (entry :: rest)).evaluate context
      _ = ((e.substitute entry.1 entry.2).substituteAll rest).evaluate context := rfl
      _ = (e.substitute entry.1 entry.2).evaluate (context.bindAll rest.reverse) := ih _
      _ = e.evaluate ((context.bindAll rest.reverse).bind entry.1 entry.2) := substitutedOnce _ _ _ _
      _ = e.evaluate (context.bindAll (entry :: rest).reverse) := by rw [List.reverse_cons,bindBehind]

/-- Putting values in and then evaluating is evaluating with the values bound, the first of them last. So a name
has the first value that was put in for it, whatever the context says, and all else is as in the context; the
outcome is the same also when it is a failure. -/
theorem substitutedAsBound (e : Expr α) (values : List (String × α)) (context : Bindings α) :
    (e.substituteAll values).evaluate context = e.evaluate (context.bindAll values.reverse) ∧
    ∀ name, (context.bindAll values.reverse).value? name =
      match values.find? (fun entry => entry.1 == name) with
      | some entry => some entry.2
      | none => context.value? name := by
  refine ⟨substitutedInTurn values e context,fun name => ?_⟩
  have bound := Bindings.valueBindAll context values.reverse name
  rw [List.reverse_reverse,valueIn] at bound
  refine bound.trans ?_
  cases values.find? (fun entry => entry.1 == name) <;> rfl

end SymbolicCalculus
