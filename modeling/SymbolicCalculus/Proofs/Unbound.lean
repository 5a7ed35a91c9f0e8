import SymbolicCalculus.Proofs.Values
import SymbolicCalculus.RealNumber

/-! What an evaluation reads of a context: the values of the variables of the tree. It fails where one of them has no
value, and the failure names the leftmost of these. -/
namespace SymbolicCalculus
variable {α : Type}

def Bindings.lacks (context : Bindings α) (name : String) : Bool := (context.value? name).isNone

theorem lacksNone {context : Bindings α} {names : List String} :
    names.find? context.lacks = none ↔ ∀ name ∈ names, (context.value? name).isSome := by
  simp [Bindings.lacks,Option.isSome_iff_ne_none]

theorem lacksFirst {context : Bindings α} {names : List String} {name : String} :
    names.find? context.lacks = some name ↔ ∃ before behind, names = before ++ name :: behind ∧
      (∀ other ∈ before, (context.value? other).isSome) ∧ context.value? name = none := by
  rw [List.find?_eq_some_iff_append]
  constructor
  · rintro ⟨lacking,before,behind,split,bound⟩
    exact ⟨before,behind,split,fun other member => by simpa [Bindings.lacks] using bound other member,
      Option.isNone_iff_eq_none.mp lacking⟩
  · rintro ⟨before,behind,split,bound,lacking⟩
    exact ⟨Option.isNone_iff_eq_none.mpr lacking,before,behind,split,
      fun other member => by simpa [Bindings.lacks] using bound other member⟩

variable [Scalar α] {t : Expr α} {context : Bindings α}

theorem evaluateBound (bound : ∀ name ∈ t.occurrences, (context.value? name).isSome) :
    ∃ value, t.evaluate context = .ok value := by
  induction t with
  | const value => exact ⟨value,rfl⟩
  | var name =>
    obtain ⟨value,found⟩ := Option.isSome_iff_exists.mp (bound name (List.mem_singleton_self name))
    exact ⟨value,evaluateVariable found⟩
  | binary op left right ihl ihr =>
    obtain ⟨a,first⟩ := ihl fun name member => bound name (List.mem_append_left _ member)
    obtain ⟨b,second⟩ := ihr fun name member => bound name (List.mem_append_right _ member)
    exact ⟨Scalar.binary op a b,evaluateBinary op first second⟩
  | unary f operand ih =>
    obtain ⟨a,value⟩ := ih bound
    exact ⟨Scalar.unary f a,evaluateUnary f value⟩

theorem evaluateUnbound {name : String} (first : t.occurrences.find? context.lacks = some name) :
    t.evaluate context = .error ⟨.unboundVariable name,[]⟩ := by
  induction t with
  | const => cases first
  | var other =>
    have lacking := List.find?_some first
    cases List.mem_singleton.mp (List.mem_of_find?_eq_some first)
    rw [Expr.evaluate,Option.isNone_iff_eq_none.mp lacking]
  | binary op left right ihl ihr =>
    rw [Expr.occurrences,List.find?_append] at first
    -- The right operand is reached only if nothing is missing on the left.
    cases here : left.occurrences.find? context.lacks with
    | some other =>
      rw [here,Option.some_or] at first
      cases first
      rw [Expr.evaluate,ihl here]
      rfl
    | none =>
      rw [here,Option.none_or] at first
      obtain ⟨a,value⟩ := evaluateBound (lacksNone.mp here)
      rw [Expr.evaluate,value,ihr first]
      rfl
  | unary f operand ih =>
    rw [Expr.evaluate,ih first]
    rfl

theorem evaluateAlike {other : Bindings α} (alike : ∀ name ∈ t.occurrences, other.value? name = context.value? name) :
    t.evaluate other = t.evaluate context := by
  induction t with
  | const => rfl
  | var name => rw [Expr.evaluate,Expr.evaluate,alike name (List.mem_singleton_self name)]
  | binary op left right ihl ihr =>
    have first := ihl fun name member => alike name (List.mem_append_left _ member)
    have second := ihr fun name member => alike name (List.mem_append_right _ member)
    rw [Expr.evaluate,Expr.evaluate,first,second]
  | unary f operand ih => rw [Expr.evaluate,Expr.evaluate,ih alike]

/-- A tree has a value exactly if the context binds all of its variables. Otherwise, and for no other reason, the
evaluation fails: the failure has no place in a text and names the leftmost variable that the context does not bind.
A context that has the same values for the variables of the tree gives the same outcome. -/
theorem unboundReported (t : Expr α) (context : Bindings α) :
    ((∃ value, t.evaluate context = .ok value) ↔ ∀ name ∈ t.names, (context.value? name).isSome) ∧
    (∀ failure, t.evaluate context = .error failure ↔ ∃ before name behind,
      t.occurrences = before ++ name :: behind ∧ (∀ other ∈ before, (context.value? other).isSome) ∧
      context.value? name = none ∧ failure = ⟨.unboundVariable name,[]⟩) ∧
    ∀ other : Bindings α, (∀ name ∈ t.names, other.value? name = context.value? name) →
      t.evaluate other = t.evaluate context := by
  simp only [t.nameOccurs]
  refine ⟨⟨?_,evaluateBound⟩,fun failure => ⟨?_,?_⟩,fun other alike => evaluateAlike alike⟩
  · rintro ⟨value,computed⟩
    rw [← lacksNone,Option.eq_none_iff_forall_ne_some]
    intro name first
    cases (evaluateUnbound first).symm.trans computed
  · intro failed
    cases first : t.occurrences.find? context.lacks with
    | none =>
      obtain ⟨value,computed⟩ := evaluateBound (lacksNone.mp first)
      cases computed.symm.trans failed
    | some name =>
      obtain ⟨before,behind,split,bound,lacking⟩ := lacksFirst.mp first
      cases (evaluateUnbound first).symm.trans failed
      exact ⟨before,name,behind,split,bound,lacking,rfl⟩
  · rintro ⟨before,name,behind,split,bound,lacking,rfl⟩
    exact evaluateUnbound (lacksFirst.mpr ⟨before,behind,split,bound,lacking⟩)

theorem unboundReportedExponent :
    (Expr.binary .add (.binary .pow (.var "y") (.var "x")) (.unary .sin (.var "a"))).evaluate
      (Bindings.empty.bind "y" (2 : Float)) = .error ⟨.unboundVariable "x",[]⟩ :=
  ((unboundReported _ _).2.1 _).mpr ⟨["y"],"x",["a"],rfl,by simp [Bindings.valueBind],by decide,rfl⟩

end SymbolicCalculus
