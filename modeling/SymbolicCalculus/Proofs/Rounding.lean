import Mathlib.Algebra.Group.Nat.Defs
import SymbolicCalculus.Binary64

/-! A number is found again from every fraction near it. Around each code there are two midpoints, halfway to
the codes beside it; what lies between them is rounded to the code, and so are they when the code is even.
Where the gap between neighbours doubles, what is below the number is rounded on the finer grid. -/
namespace SymbolicCalculus.Binary64

def mantissa (code : Nat) : Nat := code - scale code * Nat.pow 2 52

theorem codeScaled (code : Nat) : scale code * 2 ^ 52 + mantissa code = code := by
  unfold mantissa scale
  simp only [Nat.pow_eq]
  omega

theorem mantissaBound (code : Nat) : mantissa code < 2 ^ 53 := by
  unfold mantissa scale
  simp only [Nat.pow_eq]
  omega

theorem mantissaFull {code : Nat} (scaled : 0 < scale code) : 2 ^ 52 ≤ mantissa code := by
  unfold mantissa scale at *
  simp only [Nat.pow_eq] at *
  omega

theorem magnitudeScaled (code : Nat) : magnitude code = mantissa code * 2 ^ scale code := rfl

theorem scaleNext (code : Nat) :
    scale (code + 1) = scale code ∧ mantissa (code + 1) = mantissa code + 1 ∨
    scale (code + 1) = scale code + 1 ∧ mantissa (code + 1) = 2 ^ 52 ∧ mantissa code + 1 = 2 ^ 53 := by
  unfold mantissa scale
  simp only [Nat.pow_eq]
  omega

theorem magnitudeNext (code : Nat) : magnitude (code + 1) = (mantissa code + 1) * 2 ^ scale code := by
  rw [magnitudeScaled]
  rcases scaleNext code with ⟨scaled,counted⟩ | ⟨scaled,counted,full⟩
  · rw [scaled,counted]
  · rw [scaled,counted,full,Nat.pow_succ 2 (scale code)]
    omega

theorem magnitudeLess (code : Nat) : magnitude code < magnitude (code + 1) := by
  rw [magnitudeNext,magnitudeScaled]
  exact Nat.mul_lt_mul_of_pos_right (Nat.lt_succ_self _) (Nat.two_pow_pos _)

theorem midpointScaled (code : Nat) : magnitude code + magnitude (code + 1) = (2 * mantissa code + 1) * 2 ^ scale code := by
  rw [magnitudeNext,magnitudeScaled,← Nat.add_mul]
  congr 1
  omega

def Within (closed : Prop) (low high x : Nat) : Prop := low ≤ x ∧ x ≤ high ∧ (closed ∨ low < x ∧ x < high)

theorem withinScaled {closed : Prop} {low high x u : Nat} (some : 0 < u) :
    Within closed (low * u) (high * u) (x * u) ↔ Within closed low high x := by
  simp only [Within,Nat.mul_le_mul_right_iff some,Nat.mul_lt_mul_right some]

theorem roundedNear {n k m : Nat} (some : 0 < k) (near : Within (m % 2 = 0) (2 * (m * k)) (2 * (m * k) + 2 * k) (2 * n + k)) :
    roundHalfEven n k = m := by
  obtain ⟨above,below,tie⟩ := near
  have split := Nat.div_add_mod n k
  have less := Nat.mod_lt n some
  unfold roundHalfEven
  generalize n / k = q at *
  generalize n % k = r at *
  rw [Nat.mul_comm k q] at split
  have order : m < q ∨ m = q ∨ m = q + 1 ∨ q + 2 ≤ m := by omega
  rcases order with large | same | next | small
  · have product : (m + 1) * k ≤ q * k := Nat.mul_le_mul_right k large
    rw [Nat.add_mul] at product
    omega
  · subst same
    simp only
    split <;> omega
  · subst next
    rw [Nat.add_mul] at *
    simp only
    split <;> omega
  · have product : (q + 2) * k ≤ m * k := Nat.mul_le_mul_right k small
    rw [Nat.add_mul] at product
    omega

theorem scaleWithin {n d s : Nat} (some : 0 < d) (low : s = 0 ∨ 2 ^ 52 * (d * 2 ^ s) ≤ n)
    (high : n < 2 ^ 53 * (d * 2 ^ s)) : Nat.log2 (n / d) - 52 = s := by
  have binade (power : Nat) : 2 ^ power * (d * 2 ^ s) = 2 ^ (power + s) * d := by
    rw [Nat.pow_add,Nat.mul_assoc,Nat.mul_comm d]
  rw [binade] at low high
  have less : n / d < 2 ^ (53 + s) := (Nat.div_lt_iff_lt_mul some).mpr high
  have upper : Nat.log2 (n / d) < 53 + s := by
    by_cases empty : n / d = 0
    · rw [empty,Nat.log2_zero]
      omega
    · exact (Nat.log2_lt empty).mpr less
  rcases low with none | low
  · omega
  · have more : 2 ^ (52 + s) ≤ n / d := (Nat.le_div_iff_mul_le some).mpr low
    have filled : n / d ≠ 0 := Nat.ne_of_gt (Nat.lt_of_lt_of_le (Nat.two_pow_pos _) more)
    have lower : 52 + s ≤ Nat.log2 (n / d) := (Nat.le_log2 filled).mpr more
    omega

theorem nearestOn {n d s m : Nat} (some : 0 < d) (low : s = 0 ∨ 2 ^ 52 * (d * 2 ^ s) ≤ n)
    (high : n < 2 ^ 53 * (d * 2 ^ s))
    (near : Within (m % 2 = 0) (2 * (m * (d * 2 ^ s))) (2 * (m * (d * 2 ^ s)) + 2 * (d * 2 ^ s)) (2 * n + d * 2 ^ s))
    (finite : s * 2 ^ 52 + m ≤ infinite) : nearest n d = s * 2 ^ 52 + m := by
  have rounded := roundedNear (Nat.mul_pos some (Nat.two_pow_pos s)) near
  unfold nearest
  simp only [scaleWithin some low high,Nat.pow_eq,rounded]
  exact Nat.min_eq_left finite

theorem nearestBetween {before n d : Nat} (some : 0 < d) (finite : before + 1 < infinite)
    (between : Within ((before + 1) % 2 = 0) ((2 * mantissa before + 1) * (d * 2 ^ scale before))
      ((2 * mantissa (before + 1) + 1) * (d * 2 ^ scale (before + 1))) (2 * n)) :
    nearest n d = before + 1 := by
  obtain ⟨low,high,tie⟩ := between
  have whole := codeScaled (before + 1)
  have bound := mantissaBound (before + 1)
  have gap : 0 < d * 2 ^ scale before := Nat.mul_pos some (Nat.two_pow_pos _)
  rcases scaleNext before with ⟨scaled,counted⟩ | ⟨scaled,counted,full⟩
  · rw [scaled,counted] at whole high tie
    rw [counted] at bound
    have room : (mantissa before + 2) * (d * 2 ^ scale before) ≤ 2 ^ 53 * (d * 2 ^ scale before) :=
      Nat.mul_le_mul_right _ bound
    have grid : scale before = 0 ∨ 2 ^ 52 * (d * 2 ^ scale before) ≤ mantissa before * (d * 2 ^ scale before) :=
      (Nat.eq_zero_or_pos (scale before)).imp_right (fun some => Nat.mul_le_mul_right _ (mantissaFull some))
    have counts := Nat.add_one_mul (mantissa before) (d * 2 ^ scale before)
    rw [← whole]
    simp only [Nat.add_mul,Nat.mul_add,Nat.mul_assoc] at low high tie room
    exact nearestOn some (by omega) (by omega) ⟨by omega,by omega,by omega⟩ (by omega)
  -- Behind a full mantissa the gap doubles; just below the number the finer grid still holds.
  · have doubled : d * 2 ^ scale (before + 1) = 2 * (d * 2 ^ scale before) := by
      rw [scaled,Nat.pow_succ,Nat.mul_comm (2 ^ scale before),Nat.mul_left_comm]
    have last : mantissa before = 2 ^ 53 - 1 := by omega
    rw [last] at low
    rw [counted,doubled] at high
    by_cases short : n < 2 ^ 53 * (d * 2 ^ scale before)
    · have same : before + 1 = scale before * 2 ^ 52 + 2 ^ 53 := by omega
      rw [same]
      exact nearestOn some (by omega) short ⟨by omega,by omega,Or.inl rfl⟩ (by omega)
    · rw [← whole,counted]
      refine nearestOn some (Or.inr ?_) ?_ ⟨?_,?_,Or.inl rfl⟩ (by omega) <;> rw [doubled] <;> omega

theorem nearestAround {code n d : Nat} (some : 0 < d) (filled : 0 < code) (finite : code < infinite)
    (between : Within (code % 2 = 0) ((magnitude (code - 1) + magnitude code) * d)
      ((magnitude code + magnitude (code + 1)) * d) (2 * n)) : nearest n d = code := by
  obtain ⟨before,rfl⟩ : ∃ before, code = before + 1 := ⟨code - 1,by omega⟩
  have gaps (c : Nat) : (magnitude c + magnitude (c + 1)) * d = (2 * mantissa c + 1) * (d * 2 ^ scale c) := by
    rw [midpointScaled,Nat.mul_assoc,Nat.mul_comm d]
  rw [Nat.add_sub_cancel,gaps,gaps] at between
  exact nearestBetween some finite between

end SymbolicCalculus.Binary64
