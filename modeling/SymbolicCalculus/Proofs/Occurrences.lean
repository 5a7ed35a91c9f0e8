import SymbolicCalculus.Derivative
import SymbolicCalculus.Proofs.Unbound
import SymbolicCalculus.Substitution

/-! The variables of a tree that has been changed step by step, by derivatives and by values put in for variables. No
step brings a name in, and one for which a value has been put in never comes back; so a context that was enough for
the first tree is enough for all that come of it. -/
namespace SymbolicCalculus
variable {α : Type}

theorem substituteOccurs (x : String) (value : α) (t : Expr α) :
    (t.substitute x value).occurrences = t.occurrences.filter (fun name => name != x) := by
  induction t with
  | const c => rfl
  | var name => by_cases same : name = x <;> simp [Expr.substitute,Expr.occurrences,same]
  | binary op left right ihl ihr => simp only [Expr.substitute,Expr.occurrences,ihl,ihr,List.filter_append]
  | unary f operand ih => exact ih

section rules
variable [Scalar α] {x : String} {t : Expr α}

theorem joinedOccurs {op : BinaryOp} {a b da db : Expr α} {name : String}
    (member : name ∈ (Expr.joinedDerivative op a b da db).occurrences) :
    (name ∈ a.occurrences ∨ name ∈ da.occurrences) ∨ name ∈ b.occurrences ∨ name ∈ db.occurrences := by
  cases op <;> simp only [Expr.joinedDerivative,Expr.ofNat,Expr.occurrences,List.mem_append] at member <;> grind

omit [Scalar α] in
theorem outerOccurs {f : UnaryOp} {a da : Expr α} {name : String}
    (member : name ∈ (Expr.outerDerivative f a da).occurrences) : name ∈ a.occurrences ∨ name ∈ da.occurrences := by
  cases f <;> grind [Expr.outerDerivative,Expr.occurrences]

theorem derivativeOccurs {name : String} (member : name ∈ (t.derivative x).occurrences) : name ∈ t.occurrences := by
  induction t with
  | const c => cases member
  | var other => cases member
  | binary op left right ihl ihr =>
    rcases joinedOccurs member with onLeft | onRight
    · exact List.mem_append_left _ (onLeft.elim id ihl)
    · exact List.mem_append_right _ (onRight.elim id ihr)
  | unary f operand ih => exact (outerOccurs member).elim id ih

end rules

inductive Change (α : Type) where
  | derivative (x : String)
  | substitution (x : String) (value : α)
  deriving DecidableEq, Repr

section changes
variable [Scalar α]

def Expr.change (t : Expr α) : Change α → Expr α
  | .derivative x => t.derivative x
  | .substitution x value => t.substitute x value

def Expr.changeAll (t : Expr α) (changes : List (Change α)) : Expr α := changes.foldl Expr.change t

variable {t : Expr α} {name : String}

theorem changeOccurs {change : Change α} (member : name ∈ (t.change change).occurrences) :
    name ∈ t.occurrences ∧ ∀ value, change ≠ .substitution name value := by
  cases change with
  | derivative x => exact ⟨derivativeOccurs member,fun _ same => by cases same⟩
  | substitution x value =>
    rw [Expr.change,substituteOccurs,List.mem_filter] at member
    obtain ⟨occurs,other⟩ := member
    refine ⟨occurs,fun _ same => ?_⟩
    cases same
    exact absurd rfl (bne_iff_ne.mp other)

theorem changesOccur {changes : List (Change α)} (member : name ∈ (t.changeAll changes).occurrences) :
    name ∈ t.occurrences ∧ ∀ value, .substitution name value ∉ changes := by
  induction changes generalizing t with
  | nil => exact ⟨member,fun _ => List.not_mem_nil⟩
  | cons change changes ih =>
    obtain ⟨before,later⟩ := ih member
    obtain ⟨occurs,here⟩ := changeOccurs before
    refine ⟨occurs,fun value among => ?_⟩
    rcases List.mem_cons.mp among with same | behind
    · exact here value same.symm
    · exact later value behind

/-- Names only leave. After any number of derivatives and substitutions, whatever their order, the variables of a tree
are among those that it had and that no value was put in for. So a context that binds the variables of the first
tree gives a value to each of the trees on the way, the last one included. -/
theorem namesOnlyLeave (t : Expr α) (changes : List (Change α)) :
    (∀ name ∈ (t.changeAll changes).names, name ∈ t.names ∧ ∀ value, .substitution name value ∉ changes) ∧
    ∀ context : Bindings α, (∀ name ∈ t.names, (context.value? name).isSome) →
      ∀ before, before <+: changes → ∃ value, (t.changeAll before).evaluate context = .ok value := by
  refine ⟨fun name member => ?_,fun context bound before _ => evaluateBound fun name member => ?_⟩
  · obtain ⟨occurs,kept⟩ := changesOccur (((t.changeAll changes).nameOccurs name).mp member)
    exact ⟨(t.nameOccurs name).mpr occurs,kept⟩
  · exact bound name ((t.nameOccurs name).mpr (changesOccur member).1)

end changes

theorem namesOnlyLeaveProduct :
    (∀ name ∈ ((Expr.binary .mul (.var "x") (.unary .sin (.var "y")) : Expr Float).changeAll
      [.derivative "x",.substitution "y" 3,.derivative "z"]).names, name ∈ ["x","y"] ∧ name ≠ "y") ∧
    ∃ value, ((Expr.binary .mul (.var "x") (.unary .sin (.var "y")) : Expr Float).changeAll
      [.derivative "x",.substitution "y" 3]).evaluate ((Bindings.empty.bind "x" 1).bind "y" 2) = .ok value := by
  let t : Expr Float := .binary .mul (.var "x") (.unary .sin (.var "y"))
  obtain ⟨kept,valued⟩ := namesOnlyLeave t [.derivative "x",.substitution "y" 3,.derivative "z"]
  have bound : ∀ name ∈ t.names, (((Bindings.empty.bind "x" (1 : Float)).bind "y" 2).value? name).isSome := by
    decide +kernel
  refine ⟨fun name member => ?_,valued _ bound _ ⟨[.derivative "z"],rfl⟩⟩
  obtain ⟨occurs,apart⟩ := kept name member
  have known : t.names = ["x","y"] := by decide +kernel
  exact ⟨known ▸ occurs,fun same => apart 3 (by simp [same])⟩

end SymbolicCalculus
