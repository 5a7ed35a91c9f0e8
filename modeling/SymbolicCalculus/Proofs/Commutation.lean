import SymbolicCalculus.Proofs.Vanishing

/-! Derivatives taken in another order. A derivative and a value put in for another variable commute in the
tree itself. Two derivatives build trees of different shapes, and it is their values that agree. -/
namespace SymbolicCalculus

section trees
variable {α : Type} [Scalar α] {x y : String} {value : α}

def Expr.derivativeAll (e : Expr α) (names : List String) : Expr α :=
  names.foldl (fun e name => e.derivative name) e

theorem substituteJoined (op : BinaryOp) (a b da db : Expr α) :
    (Expr.joinedDerivative op a b da db).substitute x value =
      Expr.joinedDerivative op (a.substitute x value) (b.substitute x value) (da.substitute x value)
        (db.substitute x value) := by cases op <;> rfl

omit [Scalar α] in
theorem substituteOuter (f : UnaryOp) (a da : Expr α) :
    (Expr.outerDerivative f a da).substitute x value =
      Expr.outerDerivative f (a.substitute x value) (da.substitute x value) := by cases f <;> rfl

theorem substituteDerivative (other : y ≠ x) (e : Expr α) :
    (e.substitute x value).derivative y = (e.derivative y).substitute x value := by
  induction e with
  | const c => rfl
  | var name =>
    by_cases same : name = x
    · have kept : name ≠ y := fun here => other (here.symm.trans same)
      simp only [Expr.substitute,if_pos same,Expr.derivative,if_neg kept,Expr.ofNat]
    · simp only [Expr.substitute,if_neg same,Expr.derivative,Expr.ofNat]
  | binary op left right ihl ihr => simp only [Expr.substitute,Expr.derivative,substituteJoined,ihl,ihr]
  | unary f operand ih => simp only [Expr.substitute,Expr.derivative,substituteOuter,ih]

/-- A variable by which nothing is differentiated can be given its value before or after. The trees are the same,
node for node, whatever the derivatives have copied. -/
theorem substitutionCommutes (e : Expr α) (x : String) (value : α) (names : List String) (others : x ∉ names) :
    (e.substitute x value).derivativeAll names = (e.derivativeAll names).substitute x value := by
  induction names generalizing e with
  | nil => rfl
  | cons name names ih =>
    obtain ⟨apart,rest⟩ := List.ne_and_not_mem_of_not_mem_cons others
    calc (e.substitute x value).derivativeAll (name :: names)
      _ = ((e.substitute x value).derivative name).derivativeAll names := rfl
      _ = ((e.derivative name).substitute x value).derivativeAll names := by rw [substituteDerivative (Ne.symm apart)]
      _ = ((e.derivative name).derivativeAll names).substitute x value := ih _ rest
      _ = (e.derivativeAll (name :: names)).substitute x value := rfl

theorem substitutionCommutesTwice : "x" ∉ ["y","y"] ∧
    ((Expr.binary .mul (.var "x") (.var "y") : Expr ℚ).substitute "x" 3).derivativeAll ["y","y"] =
      .binary .add (.binary .add (.binary .mul (.const 0) (.var "y")) (.binary .mul (.const 0) (.const 1)))
        (.binary .add (.binary .mul (.const 0) (.const 1)) (.binary .mul (.const 3) (.const 0))) :=
  ⟨by decide,(substitutionCommutes _ "x" 3 ["y","y"] (by decide)).trans rfl⟩

end trees

section exponents
variable {α : Type} {x : String}

def Expr.Below (x : String) (t : Expr α) : Prop :=
  ∀ base exponent, .binary .pow base exponent ∈ t.parts → x ∉ exponent.occurrences

theorem belowBinary {op : BinaryOp} {s t : Expr α} (below : (Expr.binary op s t).Below x) :
    s.Below x ∧ t.Below x ∧ (op = .pow → x ∉ t.occurrences) := by
  refine ⟨fun base exponent part => ?_,fun base exponent part => ?_,?_⟩
  · exact below base exponent (List.mem_cons_of_mem _ (List.mem_append_left _ part))
  · exact below base exponent (List.mem_cons_of_mem _ (List.mem_append_right _ part))
  · rintro rfl
    exact below s t List.mem_cons_self

end exponents

/- The numbers of a field, where a quotient by zero is zero. Of the powers only the square and the first are
known, and of the functions nothing. -/
class ExactField (K : Type) [Field K] [Scalar K] : Prop where
  ofNat (n : ℕ) : (Scalar.ofNat n : K) = n
  add (a b : K) : Scalar.binary .add a b = a + b
  sub (a b : K) : Scalar.binary .sub a b = a - b
  mul (a b : K) : Scalar.binary .mul a b = a * b
  div (a b : K) : Scalar.binary .div a b = a / b
  square (a : K) : Scalar.binary .pow a 2 = a * a
  once (a : K) : Scalar.binary .pow a (2 - 1) = a
  neg (a : K) : Scalar.unary .neg a = -a

section mixed
variable {K : Type} [Field K] [Scalar K] [ExactField K] {values : String → K} {s t : Expr K} {x y : String}

@[simp] theorem valueNumber (n : ℕ) : (Expr.ofNat n : Expr K).valueAt values = n := ExactField.ofNat n

@[simp] theorem valueSum : (Expr.binary .add s t).valueAt values = s.valueAt values + t.valueAt values :=
  ExactField.add _ _

@[simp] theorem valueDifference : (Expr.binary .sub s t).valueAt values = s.valueAt values - t.valueAt values :=
  ExactField.sub _ _

@[simp] theorem valueProduct : (Expr.binary .mul s t).valueAt values = s.valueAt values * t.valueAt values :=
  ExactField.mul _ _

@[simp] theorem valueQuotient : (Expr.binary .div s t).valueAt values = s.valueAt values / t.valueAt values :=
  ExactField.div _ _

@[simp] theorem valueNegation : (Expr.unary .neg s).valueAt values = -s.valueAt values := ExactField.neg _

@[simp] theorem valueSquare : (Expr.binary .pow s (.ofNat 2)).valueAt values = s.valueAt values * s.valueAt values := by
  have two : (Expr.ofNat 2 : Expr K).valueAt values = 2 := (valueNumber 2).trans Nat.cast_ofNat
  rw [Expr.valueAt,two,ExactField.square]

@[simp] theorem valueOnce :
    (Expr.binary .pow s (.binary .sub (.ofNat 2) (.ofNat 1))).valueAt values = s.valueAt values := by
  have one : (Expr.binary .sub (.ofNat 2) (.ofNat 1) : Expr K).valueAt values = 2 - 1 := by simp
  rw [Expr.valueAt,one,ExactField.once]

instance : Absorbing K where
  zeroMul a := by rw [ExactField.mul,ExactField.ofNat,Nat.cast_zero,zero_mul]
  mulZero a := by rw [ExactField.mul,ExactField.ofNat,Nat.cast_zero,mul_zero]
  addZero := by rw [ExactField.add,ExactField.ofNat,Nat.cast_zero,add_zero]
  subZero := by rw [ExactField.sub,ExactField.ofNat,Nat.cast_zero,sub_zero]
  negZero := by rw [ExactField.neg,ExactField.ofNat,Nat.cast_zero,neg_zero]

theorem absentSlope (absent : x ∉ t.occurrences) : (t.derivative x).valueAt values = 0 := by
  have zero : (Scalar.ofNat 0 : K) = 0 := (ExactField.ofNat 0).trans Nat.cast_zero
  have divisible : (t.derivative x).Divisible values := fun p q _ => by rw [ExactField.div,zero,zero_div]
  exact (derivativeVanishes (fun member => absent (Expr.standingOccurs member)) divisible).trans zero

def Symmetric (values : String → K) (x y : String) (t : Expr K) : Prop :=
  ((t.derivative x).derivative y).valueAt values = ((t.derivative y).derivative x).valueAt values

theorem symmetricSum (left : Symmetric values x y s) (right : Symmetric values x y t) :
    Symmetric values x y (.binary .add s t) := by
  unfold Symmetric at *
  simp only [Expr.derivative,Expr.joinedDerivative,valueSum,left,right]

theorem symmetricDifference (left : Symmetric values x y s) (right : Symmetric values x y t) :
    Symmetric values x y (.binary .sub s t) := by
  unfold Symmetric at *
  simp only [Expr.derivative,Expr.joinedDerivative,valueDifference,left,right]

theorem symmetricProduct (left : Symmetric values x y s) (right : Symmetric values x y t) :
    Symmetric values x y (.binary .mul s t) := by
  unfold Symmetric at *
  simp only [Expr.derivative,Expr.joinedDerivative,valueSum,valueProduct,left,right]
  ring

theorem symmetricQuotient (left : Symmetric values x y s) (right : Symmetric values x y t) :
    Symmetric values x y (.binary .div s t) := by
  unfold Symmetric at *
  simp only [Expr.derivative,Expr.joinedDerivative,valueSum,valueDifference,valueProduct,valueQuotient,valueSquare,
    valueOnce,valueNumber,left,right]
  -- Both sides have the fourth power of the denominator below the line, so it may be zero.
  ring

theorem symmetricPower (base : Symmetric values x y s) (byX : (t.derivative x).valueAt values = 0)
    (byY : (t.derivative y).valueAt values = 0) : Symmetric values x y (.binary .pow s t) := by
  unfold Symmetric at *
  simp only [Expr.derivative,Expr.joinedDerivative,valueSum,valueProduct,valueDifference,base,byX,byY]
  ring

theorem symmetricApplied (f : UnaryOp) (operand : Symmetric values x y s) : Symmetric values x y (.unary f s) := by
  unfold Symmetric at *
  cases f with
  | neg => simp only [Expr.derivative,Expr.outerDerivative,valueNegation,operand]
  | sin | cos | exp =>
    simp only [Expr.derivative,Expr.outerDerivative,Expr.joinedDerivative,valueSum,valueProduct,valueNegation,operand]
    ring
  | ln =>
    simp only [Expr.derivative,Expr.outerDerivative,Expr.joinedDerivative,valueDifference,valueProduct,valueQuotient,
      valueSquare,operand]
    ring

theorem mixedSymmetric (byX : t.Below x) (byY : t.Below y) : Symmetric values x y t := by
  induction t with
  | const c => rfl
  | var name => rfl
  | binary op s t ihs iht =>
    obtain ⟨leftX,rightX,exponentX⟩ := belowBinary byX
    obtain ⟨leftY,rightY,exponentY⟩ := belowBinary byY
    have left := ihs leftX leftY
    have right := iht rightX rightY
    cases op with
    | add => exact symmetricSum left right
    | sub => exact symmetricDifference left right
    | mul => exact symmetricProduct left right
    | div => exact symmetricQuotient left right
    | pow => exact symmetricPower left (absentSlope (exponentX rfl)) (absentSlope (exponentY rfl))
  | unary f s ih =>
    have inner (z : String) (below : (Expr.unary f s).Below z) : s.Below z :=
      fun base exponent part => below base exponent (List.mem_cons_of_mem _ part)
    exact symmetricApplied f (ih (inner x byX) (inner y byY))

/-- Mixed second derivatives agree. Over a field, with whatever functions and powers as long as the square and the
first power are what they are called, two derivatives of a tree have one value in either order, if the variables
of the tree have values and the two names stand in none of its exponents. -/
theorem mixedDerivativesAgree (t : Expr K) (x y : String) (context : Bindings K)
    (bound : ∀ name ∈ t.names, (context.value? name).isSome)
    (still : ∀ base exponent, .binary .pow base exponent ∈ t.parts → x ∉ exponent.names ∧ y ∉ exponent.names) :
    ∃ value, ((t.derivative x).derivative y).evaluate context = .ok value ∧
      ((t.derivative y).derivative x).evaluate context = .ok value := by
  let values (name : String) : K := (context.value? name).getD 0
  have valued (a b : String) : ∀ name ∈ ((t.derivative a).derivative b).occurrences,
      context.value? name = some (values name) := by
    intro name member
    obtain ⟨value,found⟩ := Option.isSome_iff_exists.mp
      (bound name ((t.nameOccurs name).mpr (derivativeOccurs (derivativeOccurs member))))
    simp only [values,found,Option.getD_some]
  have below (z : String) (free : ∀ base exponent, .binary .pow base exponent ∈ t.parts → z ∉ exponent.names) :
      t.Below z := fun base exponent part member =>
    free base exponent part ((exponent.nameOccurs z).mpr member)
  have agree : Symmetric values x y t :=
    mixedSymmetric (below x fun base exponent part => (still base exponent part).1)
      (below y fun base exponent part => (still base exponent part).2)
  refine ⟨_,evaluateAt (valued x y),(evaluateAt (valued y x)).trans ?_⟩
  exact congrArg Except.ok agree.symm

end mixed

instance : ExactField ℚ where
  ofNat _ := rfl
  add _ _ := rfl
  sub _ _ := rfl
  mul _ _ := rfl
  div _ _ := rfl
  square a := (Exact.pow a 2).trans (pow_two a)
  once a := by
    have one : (2 : ℚ) - 1 = (1 : ℕ) := by norm_num
    rw [one,Exact.pow,pow_one]
  neg _ := rfl

theorem mixedDerivativesAgreeQuotient :
    (((Expr.binary .pow (.binary .div (.unary .sin (.var "x")) (.binary .sub (.var "x") (.var "y"))) (.var "n") :
      Expr ℚ).derivative "x").derivative "y").evaluate (((Bindings.empty.bind "x" 3).bind "y" 1).bind "n" 2) =
        .ok (57 / 32) ∧
    (((Expr.binary .pow (.binary .div (.unary .sin (.var "x")) (.binary .sub (.var "x") (.var "y"))) (.var "n") :
      Expr ℚ).derivative "y").derivative "x").evaluate (((Bindings.empty.bind "x" 3).bind "y" 1).bind "n" 2) =
        .ok (57 / 32) := by
  let t : Expr ℚ := .binary .pow (.binary .div (.unary .sin (.var "x")) (.binary .sub (.var "x") (.var "y"))) (.var "n")
  let context : Bindings ℚ := ((Bindings.empty.bind "x" 3).bind "y" 1).bind "n" 2
  have bound : ∀ name ∈ t.names, (context.value? name).isSome := by decide +kernel
  have still : ∀ base exponent, .binary .pow base exponent ∈ t.parts → "x" ∉ exponent.names ∧ "y" ∉ exponent.names := by
    intro base exponent part
    simp only [t,Expr.parts,List.cons_append,List.nil_append,List.mem_cons,List.not_mem_nil,Expr.binary.injEq,
      reduceCtorEq,false_and,or_false,true_and] at part
    obtain ⟨rfl,rfl⟩ := part
    decide
  obtain ⟨value,first,second⟩ := mixedDerivativesAgree t "x" "y" context bound still
  have known : ((t.derivative "x").derivative "y").evaluate context = .ok (57 / 32) := by decide +kernel
  cases first.symm.trans known
  exact ⟨first,second⟩

end SymbolicCalculus
