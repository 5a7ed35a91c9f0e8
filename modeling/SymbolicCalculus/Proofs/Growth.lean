import Mathlib.Algebra.GroupWithZero.Nat
import SymbolicCalculus.Derivative
import SymbolicCalculus.Proofs.Nesting
import SymbolicCalculus.RealNumber

/-! How much larger a derivative is than its tree. Every rule copies operands as they are, so each node of the tree
is paid for once for itself and again in each tree that it is copied with; the trees that are copied are those
below the nodes, and all their sizes together are at most the number of nodes times the depth. -/
namespace SymbolicCalculus
variable {α : Type}

namespace Expr

def load (t : Expr α) : Nat := (t.parts.map count).sum

theorem loadBinary (op : BinaryOp) (left right : Expr α) :
    (binary op left right).load = (binary op left right).count + left.load + right.load := by
  simp only [load,parts,List.map_cons,List.map_append,List.sum_cons,List.sum_append,Nat.add_assoc]

theorem loadUnary (f : UnaryOp) (operand : Expr α) : (unary f operand).load = (unary f operand).count + operand.load := by
  simp only [load,parts,List.map_cons,List.sum_cons]

theorem depthPositive (t : Expr α) : 1 ≤ t.depth := by
  cases t <;> simp [depth]

theorem loadBound (t : Expr α) : t.load ≤ t.count * t.depth := by
  -- A node is counted once in each part it stands in, and these lie on the way down to it.
  induction t with
  | const | var => simp [load,parts,count,depth]
  | binary op left right ihl ihr =>
    let below := max left.depth right.depth
    have onLeft : left.load ≤ left.count * below := Nat.le_trans ihl (Nat.mul_le_mul_left _ (Nat.le_max_left _ _))
    have onRight : right.load ≤ right.count * below := Nat.le_trans ihr (Nat.mul_le_mul_left _ (Nat.le_max_right _ _))
    calc (binary op left right).load
      _ = (binary op left right).count + left.load + right.load := loadBinary op left right
      _ ≤ (binary op left right).count + left.count * below + right.count * below := by omega
      _ ≤ (binary op left right).count + (left.count + right.count + 1) * below := by
        rw [Nat.add_mul,Nat.add_mul]
        omega
      _ = (binary op left right).count * (binary op left right).depth := by
        rw [depth,Nat.mul_add_one,Nat.add_comm]
        rfl
  | unary f operand ih =>
    calc (unary f operand).load
      _ = (unary f operand).count + operand.load := loadUnary f operand
      _ ≤ (unary f operand).count + (operand.count + 1) * operand.depth := by
        rw [Nat.add_mul]
        omega
      _ = (unary f operand).count * (unary f operand).depth := by
        rw [depth,Nat.mul_add_one,Nat.add_comm]
        rfl

end Expr

section rules
variable [Scalar α] (a b da db : Expr α)

theorem joinedDepth (op : BinaryOp) :
    (Expr.joinedDerivative op a b da db).depth ≤ max (max da.depth db.depth) (max a.depth b.depth + 1) + 3 := by
  have exponent := b.depthPositive
  cases op <;> simp only [Expr.joinedDerivative,Expr.ofNat,Expr.depth] <;> omega

omit [Scalar α] in
theorem outerDepth (f : UnaryOp) : (Expr.outerDerivative f a da).depth ≤ max da.depth (a.depth + 1) + 3 := by
  cases f <;> simp only [Expr.outerDerivative,Expr.depth] <;> omega

theorem joinedCount (op : BinaryOp) :
    (Expr.joinedDerivative op a b da db).count ≤ da.count + db.count + a.count + 2 * b.count + 6 := by
  cases op <;> simp only [Expr.joinedDerivative,Expr.ofNat,Expr.count] <;> omega

omit [Scalar α] in
theorem outerCount (f : UnaryOp) : (Expr.outerDerivative f a da).count ≤ da.count + a.count + 3 := by
  cases f <;> simp only [Expr.outerDerivative,Expr.count] <;> omega

variable {x : String} {t : Expr α}

theorem leafDerivative (leaf : t.depth = 1) : (t.derivative x).depth = 1 := by
  cases t with
  | const | var => rfl
  | binary op left right =>
    have positive := left.depthPositive
    simp only [Expr.depth] at leaf
    omega
  | unary f operand =>
    have positive := operand.depthPositive
    simp only [Expr.depth] at leaf
    omega

theorem derivativeDepth : (t.derivative x).depth + 1 ≤ 3 * t.depth := by
  induction t with
  | const | var => simp [Expr.derivative,Expr.ofNat,Expr.depth]
  | binary op left right ihl ihr =>
    have rule := joinedDepth left right (left.derivative x) (right.derivative x) op
    have positive := left.depthPositive
    simp only [Expr.derivative,Expr.depth]
    omega
  | unary f operand ih =>
    have rule := outerDepth operand (operand.derivative x) f
    have positive := operand.depthPositive
    simp only [Expr.derivative,Expr.depth]
    omega

theorem derivativeCount : (t.derivative x).count ≤ 4 * t.count + 2 * t.load := by
  induction t with
  | const | var =>
    simp only [Expr.derivative,Expr.ofNat,Expr.count]
    omega
  | binary op left right ihl ihr =>
    have rule := joinedCount left right (left.derivative x) (right.derivative x) op
    rw [Expr.loadBinary]
    simp only [Expr.derivative,Expr.count]
    omega
  | unary f operand ih =>
    have rule := outerCount operand (operand.derivative x) f
    rw [Expr.loadUnary]
    simp only [Expr.derivative,Expr.count]
    omega

end rules

def quotients : Nat → Expr α
  | 0 => .binary .pow (.var "x") (.var "x")
  | n+1 => .binary .div (quotients n) (.var "x")

theorem quotientsDepth (n : Nat) : (quotients n : Expr α).depth = n + 2 := by
  induction n with
  | zero => rfl
  | succ n ih =>
    simp only [quotients,Expr.depth,ih]
    omega

theorem quotientsDerivative [Scalar α] (x : String) (n : Nat) :
    ((quotients n : Expr α).derivative x).depth = 3 * n + 5 := by
  induction n with
  | zero => rfl
  | succ n ih =>
    simp only [quotients,Expr.derivative,Expr.joinedDerivative,Expr.ofNat,Expr.depth,quotientsDepth,ih]
    omega

/-- A derivative is of a size that can be told beforehand. A leaf has a leaf for its derivative; otherwise the
derivative is less than three times as deep as the tree, and for every depth there is a tree by which no less will
do, whatever the variable. It has no more than four nodes for each node of the tree, and two for each node and level. -/
theorem derivativeBounded [Scalar α] :
    (∀ (t : Expr α) (x : String), (t.depth = 1 → (t.derivative x).depth = 1) ∧
      (2 ≤ t.depth → (t.derivative x).depth ≤ 3 * t.depth - 1) ∧
      (t.derivative x).count ≤ 4 * t.count + 2 * t.count * t.depth) ∧
    ∀ d, 2 ≤ d → ∃ t : Expr α, t.depth = d ∧ ∀ x, (t.derivative x).depth = 3 * d - 1 := by
  refine ⟨fun t x => ⟨leafDerivative,fun _ => ?_,?_⟩,fun d enough => ?_⟩
  · exact Nat.le_sub_one_of_lt derivativeDepth
  · calc (t.derivative x).count
      _ ≤ 4 * t.count + 2 * t.load := derivativeCount
      _ ≤ 4 * t.count + 2 * (t.count * t.depth) := by
        have bound := t.loadBound
        omega
      _ = 4 * t.count + 2 * t.count * t.depth := by rw [Nat.mul_assoc]
  · obtain ⟨n,rfl⟩ := Nat.exists_eq_add_of_le' enough
    exact ⟨quotients n,quotientsDepth n,fun x => (quotientsDerivative x n).trans (by omega)⟩

theorem derivativeBoundedQuotient : 2 ≤ (quotients 1 : Expr Float).depth ∧
    ((quotients 1 : Expr Float).derivative "x").depth ≤ 8 ∧ ((quotients 1 : Expr Float).derivative "x").count ≤ 50 := by
  have bounds := derivativeBounded.1 (quotients 1 : Expr Float) "x"
  exact ⟨by decide,bounds.2.1 (by decide),bounds.2.2⟩

end SymbolicCalculus
