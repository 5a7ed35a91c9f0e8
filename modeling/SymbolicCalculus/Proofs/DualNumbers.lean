import Mathlib.Algebra.DualNumber
import Mathlib.Algebra.CharZero.Defs
import Mathlib.Tactic.FieldSimp
import Mathlib.Tactic.Ring
import SymbolicCalculus.Proofs.Values

/-! The derivative against an algebraic one. Over the dual numbers a variable can be moved by an
infinitesimal `ε` with `ε * ε = 0`; what then stands at `ε` in the value of an expression is the value of
its derivative. -/
namespace SymbolicCalculus
open TrivSqZeroExt DualNumber

section dual
variable {K : Type} [Field K] [Scalar K]

def lift (f df : K → K) (a : DualNumber K) : DualNumber K := inl (f a.fst) + inr (df a.fst * a.snd)

open Classical in
noncomputable def dualPower (a e : DualNumber K) : DualNumber K :=
  if natural : ∃ n : ℕ, e = n then a ^ natural.choose else 0

noncomputable instance : Scalar (DualNumber K) where
  ofNat n := n
  binary
    | .add => fun a b => a + b
    | .sub => fun a b => a - b
    | .mul => fun a b => a * b
    | .div => fun a b => a * b⁻¹
    | .pow => dualPower
  unary
    | .neg => fun a => -a
    | .sin => lift (Scalar.unary .sin) (Scalar.unary .cos)
    | .cos => lift (Scalar.unary .cos) (fun a => -Scalar.unary .sin a)
    | .ln => lift (Scalar.unary .ln) (fun a => 1 / a)
    | .exp => lift (Scalar.unary .exp) (Scalar.unary .exp)

omit [Scalar K] in
theorem dualPowerNatural [CharZero K] (a : DualNumber K) (n : ℕ) : dualPower a n = a ^ n := by
  have natural : ∃ m : ℕ, (n : DualNumber K) = m := ⟨n,rfl⟩
  have same : n = natural.choose := by
    have equal := congrArg TrivSqZeroExt.fst natural.choose_spec
    simpa using equal
  rw [dualPower,dif_pos natural,← same]

instance [CharZero K] : Exact (DualNumber K) where
  ofNat _ := rfl
  add _ _ := rfl
  sub _ _ := rfl
  mul _ _ := rfl
  div _ _ _ := rfl
  pow := dualPowerNatural
  neg _ := rfl

end dual

def Bindings.map {α β : Type} (f : α → β) (b : Bindings α) : Bindings β :=
  ⟨b.entries.map (fun entry => (entry.1,f entry.2)),by
    unfold Increasing
    rw [List.pairwise_map]
    exact b.ordered⟩

theorem valueMap {α β : Type} (f : α → β) (b : Bindings α) (name : String) :
    (b.map f).value? name = (b.value? name).map f := by
  simp only [Bindings.value?,Bindings.map,valueIn,List.find?_map,Option.map_map]
  rfl

theorem absentBoth {α : Type} {op : BinaryOp} {s t : Expr α} {x : String}
    (absent : x ∉ (Expr.binary op s t).occurrences) : x ∉ s.occurrences ∧ x ∉ t.occurrences := by
  simpa [Expr.occurrences] using absent

section tangent
variable {K : Type} [Field K] [Scalar K] {context : Bindings K} {x : String} {x₀ : K}

def moved (context : Bindings K) (x : String) (x₀ : K) : Bindings (DualNumber K) :=
  (context.map inl).bind x (inl x₀ + ε)

/- No denominator and no argument of the logarithm is zero, and every exponent is a positive whole number
in which the variable does not occur. -/
def Expr.Regular (context : Bindings K) (x : String) : Expr K → Prop
  | const _ => True
  | var _ => True
  | binary op left right => left.Regular context x ∧ right.Regular context x ∧
      (op = .div → right.evaluate context ≠ .ok 0) ∧
      (op = .pow → x ∉ right.occurrences ∧ ∃ n : ℕ, 0 < n ∧ right.evaluate context = .ok (n : K))
  | unary f operand => operand.Regular context x ∧ (f = .ln → operand.evaluate context ≠ .ok 0)

/- The value of a tree and of its derivative, and that both are found together over the dual numbers. What
the variable does not occur in stands still. -/
structure Tangent (context : Bindings K) (x : String) (x₀ : K) (t : Expr K) (a da : K) : Prop where
  value : t.evaluate context = .ok a
  slope : (t.derivative x).evaluate context = .ok da
  dual : (t.map inl).evaluate (moved context x x₀) = .ok (inl a + inr da)
  still : x ∉ t.occurrences → da = 0

theorem functionTangent {f : UnaryOp} {s : Expr K} {a da : K} (df : K → K)
    (lifts : (Scalar.unary f : DualNumber K → DualNumber K) = lift (Scalar.unary f) df)
    (operand : Tangent context x x₀ s a da)
    (slope : ((Expr.unary f s).derivative x).evaluate context = .ok (df a * da)) :
    Tangent context x x₀ (.unary f s) (Scalar.unary f a) (df a * da) where
  value := evaluateUnary f operand.value
  slope := slope
  dual := by
    rw [Expr.map,evaluateUnary f operand.dual,lifts]
    simp [lift]
  still absent := by rw [operand.still absent,mul_zero]

variable [Exact K]

theorem constTangent (c : K) : Tangent context x x₀ (.const c) c 0 where
  value := rfl
  slope := by rw [Expr.derivative,evaluateNumber,Nat.cast_zero]
  dual := by simp [Expr.map,Expr.evaluate]
  still _ := rfl

theorem movedTangent (start : context.value? x = some x₀) : Tangent context x x₀ (.var x) x₀ 1 where
  value := evaluateVariable start
  slope := by rw [Expr.derivative,if_pos rfl,evaluateNumber,Nat.cast_one]
  dual := evaluateVariable (by rw [moved,Bindings.valueBind,if_pos rfl]; rfl)
  still absent := absurd (List.mem_singleton_self x) absent

theorem keptTangent {name : String} {a : K} (other : name ≠ x) (bound : context.value? name = some a) :
    Tangent context x x₀ (.var name) a 0 where
  value := evaluateVariable bound
  slope := by rw [Expr.derivative,if_neg other,evaluateNumber,Nat.cast_zero]
  dual := evaluateVariable (by rw [moved,Bindings.valueBind,if_neg (Ne.symm other),valueMap,bound]; simp)
  still _ := rfl

variable [CharZero K] {s t : Expr K} {a b da db : K}

theorem sumTangent (left : Tangent context x x₀ s a da) (right : Tangent context x x₀ t b db) :
    Tangent context x x₀ (.binary .add s t) (a + b) (da + db) where
  value := evaluateSum left.value right.value
  slope := evaluateSum left.slope right.slope
  dual := by
    rw [Expr.map,evaluateSum left.dual right.dual]
    congr 1
    ext <;> simp
  still absent := by
    obtain ⟨noLeft,noRight⟩ := absentBoth absent
    rw [left.still noLeft,right.still noRight,add_zero]

theorem differenceTangent (left : Tangent context x x₀ s a da) (right : Tangent context x x₀ t b db) :
    Tangent context x x₀ (.binary .sub s t) (a - b) (da - db) where
  value := evaluateDifference left.value right.value
  slope := evaluateDifference left.slope right.slope
  dual := by
    rw [Expr.map,evaluateDifference left.dual right.dual]
    congr 1
    ext <;> simp
  still absent := by
    obtain ⟨noLeft,noRight⟩ := absentBoth absent
    rw [left.still noLeft,right.still noRight,sub_zero]

theorem productTangent (left : Tangent context x x₀ s a da) (right : Tangent context x x₀ t b db) :
    Tangent context x x₀ (.binary .mul s t) (a * b) (da * b + a * db) where
  value := evaluateProduct left.value right.value
  slope := evaluateSum (evaluateProduct left.slope right.value) (evaluateProduct left.value right.slope)
  dual := by
    rw [Expr.map,evaluateProduct left.dual right.dual]
    congr 1
    ext
    · simp
    · simp
      ring
  still absent := by
    obtain ⟨noLeft,noRight⟩ := absentBoth absent
    rw [left.still noLeft,right.still noRight,zero_mul,mul_zero,add_zero]

theorem quotientTangent (left : Tangent context x x₀ s a da) (right : Tangent context x x₀ t b db) (nonzero : b ≠ 0) :
    Tangent context x x₀ (.binary .div s t) (a * b⁻¹) ((da * b - a * db) * (b ^ 2)⁻¹) where
  value := evaluateQuotient left.value right.value nonzero.isUnit
  slope := by
    have above := evaluateDifference (evaluateProduct left.slope right.value) (evaluateProduct left.value right.slope)
    have below := evaluatePower right.value (evaluateNumber 2)
    exact evaluateQuotient above below (nonzero.isUnit.pow 2)
  dual := by
    have unit : IsUnit (inl b + inr db : DualNumber K) := isUnit_iff_isUnit_fst.mpr (by simpa using nonzero)
    rw [Expr.map,evaluateQuotient left.dual right.dual unit]
    congr 1
    ext
    · simp
    · simp
      field_simp
      ring
  still absent := by
    obtain ⟨noLeft,noRight⟩ := absentBoth absent
    rw [left.still noLeft,right.still noRight,zero_mul,mul_zero,sub_zero,zero_mul]

theorem powerTangent {m : ℕ} (left : Tangent context x x₀ s a da) (right : Tangent context x x₀ t ((m + 1 : ℕ) : K) 0) :
    Tangent context x x₀ (.binary .pow s t) (a ^ (m + 1)) (((m + 1 : ℕ) : K) * a ^ m * da) where
  value := evaluatePower left.value right.value
  slope := by
    have lower : (Expr.binary .sub t (Expr.ofNat 1)).evaluate context = .ok (m : K) := by
      rw [evaluateDifference right.value (evaluateNumber 1)]
      simp
    exact evaluateProduct (evaluateProduct right.value (evaluatePower left.value lower)) left.slope
  dual := by
    have exponent : (t.map inl).evaluate (moved context x x₀) = .ok ((m + 1 : ℕ) : DualNumber K) := by
      rw [right.dual,inr_zero,add_zero,inl_natCast]
    rw [Expr.map,evaluatePower left.dual exponent]
    congr 1
    ext
    · simp
    · simp [mul_assoc]
  still absent := by rw [left.still (absentBoth absent).1,mul_zero]

theorem negationTangent (operand : Tangent context x x₀ s a da) : Tangent context x x₀ (.unary .neg s) (-a) (-da) where
  value := evaluateNegation operand.value
  slope := evaluateNegation operand.slope
  dual := by
    rw [Expr.map,evaluateNegation operand.dual]
    congr 1
    ext <;> simp
  still absent := by rw [operand.still absent,neg_zero]

theorem tangentExists (start : context.value? x = some x₀) (t : Expr K)
    (bound : ∀ name ∈ t.occurrences, ∃ value, context.value? name = some value) (regular : t.Regular context x) :
    ∃ a da, Tangent context x x₀ t a da := by
  induction t with
  | const c => exact ⟨c,0,constTangent c⟩
  | var name =>
    by_cases same : name = x
    · subst same
      exact ⟨x₀,1,movedTangent start⟩
    · obtain ⟨a,found⟩ := bound name (List.mem_singleton_self name)
      exact ⟨a,0,keptTangent same found⟩
  | binary op s t ihs iht =>
    obtain ⟨regularLeft,regularRight,denominator,exponent⟩ := regular
    obtain ⟨a,da,left⟩ := ihs (fun name member => bound name (List.mem_append_left _ member)) regularLeft
    obtain ⟨b,db,right⟩ := iht (fun name member => bound name (List.mem_append_right _ member)) regularRight
    cases op with
    | add => exact ⟨_,_,sumTangent left right⟩
    | sub => exact ⟨_,_,differenceTangent left right⟩
    | mul => exact ⟨_,_,productTangent left right⟩
    | div =>
      have nonzero : b ≠ 0 := by
        intro zero
        exact denominator rfl (by rw [right.value,zero])
      exact ⟨_,_,quotientTangent left right nonzero⟩
    | pow =>
      obtain ⟨absent,n,positive,natural⟩ := exponent rfl
      obtain ⟨m,rfl⟩ : ∃ m, n = m + 1 := ⟨n - 1,by omega⟩
      obtain rfl : b = ((m + 1 : ℕ) : K) := Except.ok.inj (right.value.symm.trans natural)
      obtain rfl : db = 0 := right.still absent
      exact ⟨_,_,powerTangent left right⟩
  | unary f s ih =>
    obtain ⟨regularOperand,argument⟩ := regular
    obtain ⟨a,da,operand⟩ := ih bound regularOperand
    cases f with
    | neg => exact ⟨_,_,negationTangent operand⟩
    | sin =>
      have slope := evaluateProduct (evaluateUnary .cos operand.value) operand.slope
      exact ⟨_,_,functionTangent (Scalar.unary .cos) rfl operand slope⟩
    | cos =>
      have slope := evaluateProduct (evaluateNegation (evaluateUnary .sin operand.value)) operand.slope
      exact ⟨_,_,functionTangent (fun a => -Scalar.unary .sin a) rfl operand slope⟩
    | ln =>
      have nonzero : a ≠ 0 := by
        intro zero
        exact argument rfl (by rw [operand.value,zero])
      have slope := evaluateQuotient operand.slope operand.value nonzero.isUnit
      rw [mul_comm,← one_div] at slope
      exact ⟨_,_,functionTangent (fun a => 1 / a) rfl operand slope⟩
    | exp =>
      have slope := evaluateProduct (evaluateUnary .exp operand.value) operand.slope
      exact ⟨_,_,functionTangent (Scalar.unary .exp) rfl operand slope⟩

end tangent

/-- Differentiation is correct. Over numbers with exact arithmetic, where an expression is regular and its
variables have values, it has a value, its derivative has a value, and moving the variable by the
infinitesimal adds the value of the derivative times the infinitesimal. -/
theorem derivativeExact {K : Type} [Field K] [CharZero K] [Scalar K] [Exact K] (t : Expr K) (x : String)
    (context : Bindings K) (x₀ : K) (start : context.value? x = some x₀)
    (bound : ∀ name ∈ t.occurrences, ∃ value, context.value? name = some value) (regular : t.Regular context x) :
    ∃ a da, t.evaluate context = .ok a ∧ (t.derivative x).evaluate context = .ok da ∧
      (t.map inl).evaluate (moved context x x₀) = .ok (inl a + da • ε) := by
  obtain ⟨a,da,tangent⟩ := tangentExists start t bound regular
  refine ⟨a,da,tangent.value,tangent.slope,?_⟩
  rw [tangent.dual,inr_eq_smul_eps]

instance : Scalar ℚ where
  ofNat n := n
  binary
    | .add => fun a b => a + b
    | .sub => fun a b => a - b
    | .mul => fun a b => a * b
    | .div => fun a b => a / b
    | .pow => fun a b => a ^ b.num.toNat
  unary
    | .neg => fun a => -a
    | .sin => fun a => a - a ^ 3 / 6
    | .cos => fun a => 1 - a ^ 2 / 2
    | .ln => fun a => a - 1
    | .exp => fun a => 1 + a + a ^ 2 / 2

instance : Exact ℚ where
  ofNat _ := rfl
  add _ _ := rfl
  sub _ _ := rfl
  mul _ _ := rfl
  div a b _ := div_eq_mul_inv a b
  pow a n := by simp [Scalar.binary]
  neg _ := rfl

theorem derivativeExactQuotient :
    (Expr.binary .div (.binary .pow (.var "x") (.const 3)) (.unary .ln (.var "x")) : Expr ℚ).Regular
      (Bindings.empty.bind "x" 3) "x" ∧
    ((Expr.binary .div (.binary .pow (.var "x") (.const 3)) (.unary .ln (.var "x")) : Expr ℚ).map inl).evaluate
      (moved (Bindings.empty.bind "x" 3) "x" 3) = .ok (inl (27 / 2) + (45 / 4 : ℚ) • ε) := by
  let t : Expr ℚ := .binary .div (.binary .pow (.var "x") (.const 3)) (.unary .ln (.var "x"))
  let context : Bindings ℚ := Bindings.empty.bind "x" 3
  have regular : t.Regular context "x" := by
    refine ⟨⟨trivial,trivial,by simp,fun _ => ⟨by decide,3,by decide,rfl⟩⟩,⟨trivial,fun _ => ?_⟩,fun _ => ?_,by simp⟩
    · decide +kernel
    · decide +kernel
  have bound : ∀ name ∈ t.occurrences, ∃ value, context.value? name = some value := by
    simp [t,context,Expr.occurrences,Bindings.valueBind]
  obtain ⟨a,da,value,slope,dual⟩ := derivativeExact t "x" context 3 (by decide +kernel) bound regular
  have valued : t.evaluate context = .ok (27 / 2) := by decide +kernel
  have sloped : (t.derivative "x").evaluate context = .ok (45 / 4) := by decide +kernel
  obtain rfl := Except.ok.inj (value.symm.trans valued)
  obtain rfl := Except.ok.inj (slope.symm.trans sloped)
  exact ⟨regular,dual⟩

end SymbolicCalculus
