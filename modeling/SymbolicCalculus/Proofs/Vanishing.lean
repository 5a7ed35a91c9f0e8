import SymbolicCalculus.Proofs.DualNumbers
import SymbolicCalculus.Proofs.Nesting
import SymbolicCalculus.Proofs.Occurrences

/-! Where a derivative is zero. An exponent counts as a constant, so a variable that stands in exponents only is as
good as absent. Nothing is simplified, and zero is what comes out only when all the zeros in the derivative meet
copies that they make vanish. -/
namespace SymbolicCalculus
variable {α : Type}

namespace Expr

def standing : Expr α → List String
  | const _ => []
  | var name => [name]
  | binary .pow base _ => base.standing
  | binary _ left right => left.standing ++ right.standing
  | unary _ operand => operand.standing

theorem standingBinary {op : BinaryOp} {left right : Expr α} {x : String}
    (outside : x ∉ (binary op left right).standing) : x ∉ left.standing ∧ (op ≠ .pow → x ∉ right.standing) := by
  cases op <;> simp_all [standing]

theorem standingOccurs {t : Expr α} {name : String} (member : name ∈ t.standing) : name ∈ t.occurrences := by
  induction t with
  | const c => cases member
  | var other => exact member
  | binary op left right ihl ihr =>
    have either : name ∈ left.standing ∨ name ∈ right.standing := by
      cases op with
      | pow => exact Or.inl member
      | _ => exact List.mem_append.mp member
    exact List.mem_append.mpr (either.imp ihl ihr)
  | unary f operand ih => exact ih member

theorem partOccurs {t s : Expr α} (part : s ∈ t.parts) {name : String} (member : name ∈ s.occurrences) :
    name ∈ t.occurrences := by
  induction t with
  | const | var => exact List.mem_singleton.mp part ▸ member
  | binary op left right ihl ihr =>
    rcases List.mem_cons.mp part with same | below
    · exact same ▸ member
    · exact List.mem_append.mpr ((List.mem_append.mp below).imp ihl ihr)
  | unary f operand ih =>
    rcases List.mem_cons.mp part with same | below
    · exact same ▸ member
    · exact ih below

end Expr

/- Zero swallows what it is multiplied with, and stays zero among zeros. Nothing else is asked of the numbers. -/
class Absorbing (α : Type) [Scalar α] : Prop where
  zeroMul (a : α) : Scalar.binary .mul (Scalar.ofNat 0) a = Scalar.ofNat 0
  mulZero (a : α) : Scalar.binary .mul a (Scalar.ofNat 0) = Scalar.ofNat 0
  addZero : Scalar.binary .add (Scalar.ofNat 0) (Scalar.ofNat 0 : α) = Scalar.ofNat 0
  subZero : Scalar.binary .sub (Scalar.ofNat 0) (Scalar.ofNat 0 : α) = Scalar.ofNat 0
  negZero : Scalar.unary .neg (Scalar.ofNat 0 : α) = Scalar.ofNat 0

instance {R : Type} [Ring R] [Inv R] [Scalar R] [Exact R] : Absorbing R where
  zeroMul a := by rw [Exact.mul,Exact.ofNat,Nat.cast_zero,zero_mul]
  mulZero a := by rw [Exact.mul,Exact.ofNat,Nat.cast_zero,mul_zero]
  addZero := by rw [Exact.add,Exact.ofNat,Nat.cast_zero,add_zero]
  subZero := by rw [Exact.sub,Exact.ofNat,Nat.cast_zero,sub_zero]
  negZero := by rw [Exact.neg,Exact.ofNat,Nat.cast_zero,neg_zero]

section values
variable [Scalar α] {values : String → α} {x : String} {t : Expr α}

def Expr.Divisible (values : String → α) (t : Expr α) : Prop :=
  ∀ p q, .binary .div p q ∈ t.parts → Scalar.binary .div (Scalar.ofNat 0) (q.valueAt values) = Scalar.ofNat 0

section rules
variable {a b da db : Expr α}

theorem divisibleJoined {op : BinaryOp} (divisible : (Expr.joinedDerivative op a b da db).Divisible values) :
    da.Divisible values ∧ (op ≠ .pow → db.Divisible values) := by
  refine ⟨fun p q part => divisible p q ?_,fun other p q part => divisible p q ?_⟩
  · cases op <;> simp [Expr.joinedDerivative,Expr.parts,part]
  · cases op <;> simp_all [Expr.joinedDerivative,Expr.parts]

theorem divisibleOuter {f : UnaryOp} (divisible : (Expr.outerDerivative f a da).Divisible values) :
    da.Divisible values := by
  intro p q part
  refine divisible p q ?_
  cases f <;> simp [Expr.outerDerivative,Expr.parts,part]

variable [Absorbing α]

theorem joinedVanishes {op : BinaryOp} (divisible : (Expr.joinedDerivative op a b da db).Divisible values)
    (left : da.valueAt values = Scalar.ofNat 0) (right : op ≠ .pow → db.valueAt values = Scalar.ofNat 0) :
    (Expr.joinedDerivative op a b da db).valueAt values = Scalar.ofNat 0 := by
  cases op with
  | add => rw [Expr.joinedDerivative,Expr.valueAt,left,right (by simp),Absorbing.addZero]
  | sub => rw [Expr.joinedDerivative,Expr.valueAt,left,right (by simp),Absorbing.subZero]
  | mul =>
    have second := right (by simp)
    simp only [Expr.joinedDerivative,Expr.valueAt,left,second,Absorbing.zeroMul,Absorbing.mulZero,Absorbing.addZero]
  | div =>
    have second := right (by simp)
    have quotient := divisible _ _ List.mem_cons_self
    simp only [Expr.joinedDerivative,Expr.valueAt,left,second,Absorbing.zeroMul,Absorbing.mulZero,
      Absorbing.subZero] at quotient ⊢
    exact quotient
  | pow => rw [Expr.joinedDerivative,Expr.valueAt,left,Absorbing.mulZero]

theorem outerVanishes {f : UnaryOp} (divisible : (Expr.outerDerivative f a da).Divisible values)
    (operand : da.valueAt values = Scalar.ofNat 0) :
    (Expr.outerDerivative f a da).valueAt values = Scalar.ofNat 0 := by
  cases f with
  | neg => rw [Expr.outerDerivative,Expr.valueAt,operand,Absorbing.negZero]
  | ln =>
    rw [Expr.outerDerivative,Expr.valueAt,operand]
    exact divisible _ _ List.mem_cons_self
  | sin | cos | exp => rw [Expr.outerDerivative,Expr.valueAt,operand,Absorbing.mulZero]

end rules

variable [Absorbing α]

theorem derivativeVanishes (outside : x ∉ t.standing) (divisible : (t.derivative x).Divisible values) :
    (t.derivative x).valueAt values = Scalar.ofNat 0 := by
  induction t with
  | const c => rfl
  | var name =>
    have other : name ≠ x := fun same => outside (same ▸ List.mem_singleton_self name)
    rw [Expr.derivative,if_neg other]
    rfl
  | binary op left right ihl ihr =>
    obtain ⟨onLeft,onRight⟩ := Expr.standingBinary outside
    obtain ⟨first,second⟩ := divisibleJoined divisible
    exact joinedVanishes divisible (ihl onLeft first) fun other => ihr (onRight other) (second other)
  | unary f operand ih => exact outerVanishes divisible (ih outside (divisibleOuter divisible))

/-- A variable that stands in no place but exponents has the derivative zero, and so has one that does not occur at
all. This holds over all numbers whose zero absorbs, wherever the variables of the tree have values, if zero stays
zero over the denominators in the derivative. -/
theorem standsStill (t : Expr α) (x : String) (context : Bindings α) (outside : x ∉ t.standing)
    (bound : ∀ name ∈ t.names, (context.value? name).isSome)
    (divided : ∀ p q a, .binary .div p q ∈ (t.derivative x).parts → q.evaluate context = .ok a →
      Scalar.binary .div (Scalar.ofNat 0) a = Scalar.ofNat 0) :
    (t.derivative x).evaluate context = .ok (Scalar.ofNat 0) := by
  let values (name : String) : α := (context.value? name).getD (Scalar.ofNat 0)
  have valued : ∀ name ∈ (t.derivative x).occurrences, context.value? name = some (values name) := by
    intro name member
    obtain ⟨value,found⟩ := Option.isSome_iff_exists.mp (bound name ((t.nameOccurs name).mpr (derivativeOccurs member)))
    simp only [values,found,Option.getD_some]
  have divisible : (t.derivative x).Divisible values := by
    intro p q part
    refine divided p q _ part (evaluateAt fun name member => valued name ?_)
    exact Expr.partOccurs part (List.mem_append_right _ member)
  exact (evaluateAt valued).trans (congrArg Except.ok (derivativeVanishes outside divisible))

end values

theorem standsStillExponent :
    ((Expr.binary .div (.unary .sin (.binary .pow (.const 2) (.binary .mul (.var "x") (.var "x")))) (.var "y") :
      Expr ℚ).derivative "x").evaluate ((Bindings.empty.bind "x" 3).bind "y" 2) = .ok 0 := by
  let t : Expr ℚ :=
    .binary .div (.unary .sin (.binary .pow (.const 2) (.binary .mul (.var "x") (.var "x")))) (.var "y")
  let context : Bindings ℚ := (Bindings.empty.bind "x" 3).bind "y" 2
  have outside : "x" ∉ t.standing := by decide
  have bound : ∀ name ∈ t.names, (context.value? name).isSome := by decide +kernel
  exact standsStill t "x" context outside bound fun p q a _ _ => zero_div a

end SymbolicCalculus
