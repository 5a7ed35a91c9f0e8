import Mathlib.Data.List.Sort
import SymbolicCalculus.Proofs.Occurrences
import SymbolicCalculus.RealNumber

/-! A value put in for a variable takes the place of leaves and of nothing else. The tree keeps its operators, it loses
the one variable, and where the variable is gone there is no place left for another value. -/
namespace SymbolicCalculus
variable {α : Type}

namespace Expr

def shape : Expr α → Expr Unit
  | const _ => const ()
  | var _ => const ()
  | binary op left right => binary op left.shape right.shape
  | unary f operand => unary f operand.shape

theorem shapeDepth (t : Expr α) : t.shape.depth = t.depth := by
  induction t with
  | const | var => rfl
  | binary op left right ihl ihr => simp only [shape,depth,ihl,ihr]
  | unary f operand ih => simp only [shape,depth,ih]

theorem shapeCount (t : Expr α) : t.shape.count = t.count := by
  induction t with
  | const | var => rfl
  | binary op left right ihl ihr => simp only [shape,count,ihl,ihr]
  | unary f operand ih => simp only [shape,count,ih]

end Expr

section substitution
variable (x : String) (value : α) (t : Expr α)

theorem substituteShape : (t.substitute x value).shape = t.shape := by
  induction t with
  | const c => rfl
  | var name =>
    simp only [Expr.substitute]
    split <;> rfl
  | binary op left right ihl ihr => simp only [Expr.substitute,Expr.shape,ihl,ihr]
  | unary f operand ih => simp only [Expr.substitute,Expr.shape,ih]

theorem substituteNames : (t.substitute x value).names = t.names.filter (fun name => name != x) := by
  have left : (t.substitute x value).names.Pairwise (· < ·) := Bindings.namesIncreasing _
  have right : t.names.Pairwise (· < ·) := Bindings.namesIncreasing _
  -- Increasing lists with the same members are equal.
  refine left.eq_of_mem_iff (right.filter _) (fun name => ?_)
  rw [Expr.nameOccurs,substituteOccurs,List.mem_filter,List.mem_filter,Expr.nameOccurs]

variable {x t} {y : String}

theorem substituteAbsent (absent : x ∉ t.occurrences) : t.substitute x value = t := by
  induction t with
  | const c => rfl
  | var name =>
    have other : name ≠ x := fun same => absent (same ▸ List.mem_singleton_self name)
    simp only [Expr.substitute,if_neg other]
  | binary op left right ihl ihr =>
    obtain ⟨onLeft,onRight⟩ := not_or.mp (mt List.mem_append.mpr absent)
    simp only [Expr.substitute,ihl onLeft,ihr onRight]
  | unary f operand ih => simp only [Expr.substitute,ih absent]

theorem substituteSwaps (apart : x ≠ y) (other : α) :
    (t.substitute x value).substitute y other = (t.substitute y other).substitute x value := by
  induction t with
  | const c => rfl
  | var name =>
    by_cases first : name = x
    · have kept : name ≠ y := fun second => apart (first.symm.trans second)
      simp only [Expr.substitute,if_pos first,if_neg kept]
    · by_cases second : name = y
      · simp only [Expr.substitute,if_neg first,if_pos second]
      · simp only [Expr.substitute,if_neg first,if_neg second]
  | binary op left right ihl ihr => simp only [Expr.substitute,ihl,ihr]
  | unary f operand ih => simp only [Expr.substitute,ih]

theorem substituteTwice (other : α) : (t.substitute x value).substitute x other = t.substitute x value := by
  refine substituteAbsent other (fun occurs => ?_)
  rw [substituteOccurs,List.mem_filter] at occurs
  exact absurd rfl (bne_iff_ne.mp occurs.2)

end substitution

/-- A value put in for a variable only changes leaves. Every operator stays in its place, so depth and number of nodes
are what they were, and the variables are those of the tree but the one. Of two different variables it does not
matter which one comes first, and of two values for one variable it is the first that counts. -/
theorem leavesReplaced (t : Expr α) (x : String) (value : α) :
    (t.substitute x value).shape = t.shape ∧
    (t.substitute x value).depth = t.depth ∧ (t.substitute x value).count = t.count ∧
    (t.substitute x value).names = t.names.filter (fun name => name != x) ∧
    (∀ (y : String) (other : α), x ≠ y →
      (t.substitute x value).substitute y other = (t.substitute y other).substitute x value) ∧
    ∀ other : α, (t.substitute x value).substitute x other = t.substitute x value := by
  have same := substituteShape x value t
  refine ⟨same,?_,?_,substituteNames x value t,fun y other apart => substituteSwaps value apart other,
    substituteTwice value⟩
  · rw [← Expr.shapeDepth,same,Expr.shapeDepth]
  · rw [← Expr.shapeCount,same,Expr.shapeCount]

theorem leavesReplacedQuotient : "x" ≠ "y" ∧
    ((Expr.binary .div (.var "x") (.unary .ln (.var "y")) : Expr Float).substitute "x" 3).substitute "y" 2 =
      ((Expr.binary .div (.var "x") (.unary .ln (.var "y")) : Expr Float).substitute "y" 2).substitute "x" 3 := by
  have apart : "x" ≠ "y" := by decide
  obtain ⟨_,_,_,_,swaps,_⟩ := leavesReplaced (.binary .div (.var "x") (.unary .ln (.var "y")) : Expr Float) "x" 3
  exact ⟨apart,swaps "y" 2 apart⟩

end SymbolicCalculus
