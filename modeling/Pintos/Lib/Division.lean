import Mathlib

/-!
# Pintos.Lib.Division

Division by a divisor whose low part has been dropped.

For a divisor `d` and a unit `P`, `P * (d / P)` is `d` without what is below `P`.  A quotient by
it is not too small (`estimate_ge`), and it is too big by at most one (`estimate_le`) if the
dividend has two digits to the base `B = P * S` and `d / P` is at least half of the base.
-/

namespace Division

variable {B P S n d q : Nat}

theorem estimate_ge (hpos : 0 < d / P) : n / d ≤ n / (P * (d / P)) := by
  have hP : 0 < P := pos_of_ne_zero fun h => by simp [h] at hpos
  exact Nat.div_le_div_left (Nat.mul_div_le d P) (mul_pos hP hpos)

/-- What is dropped, once for each unit of the quotient, is no more than what is kept. -/
theorem dropped_le (hPS : P * S = B) (hn : n < B * B) (hv : B ≤ 2 * (d / P)) :
    (n / d + 1) * (d % P) ≤ P * (d / P) := by
  have hd : P * (d / P) + d % P = d := Nat.div_add_mod d P
  have hB : 0 < B := pos_of_ne_zero fun h => by simp [h] at hn
  have hP : 0 < P := pos_of_ne_zero fun h => by simp [h] at hPS; omega
  have hS : 0 < S := pos_of_ne_zero fun h => by simp [h] at hPS; omega
  have hmod : d % P + 1 ≤ P := Nat.mod_lt d hP
  have hdiv : n / d * d ≤ n := Nat.div_mul_le_self n d
  -- the quotient is small, as the divisor is big
  have hq : n / d + 1 ≤ 2 * S := by
    have hdB : P * B ≤ 2 * d := by
      calc P * B ≤ P * (2 * (d / P)) := Nat.mul_le_mul_left P hv
        _ = 2 * (P * (d / P)) := by ring
        _ ≤ 2 * d := by omega
    have hmul : n / d * P * B < 2 * S * P * B := by
      calc n / d * P * B = n / d * (P * B) := by ring
        _ ≤ n / d * (2 * d) := Nat.mul_le_mul_left _ hdB
        _ = 2 * (n / d * d) := by ring
        _ ≤ 2 * n := Nat.mul_le_mul_left 2 hdiv
        _ < 2 * (B * B) := by omega
        _ = 2 * S * P * B := by rw [← hPS]; ring
    exact Nat.lt_of_mul_lt_mul_right (Nat.lt_of_mul_lt_mul_right hmul)
  obtain ⟨r, rfl⟩ : ∃ r, P = r + 1 := ⟨P - 1, by omega⟩
  have hr : d % (r + 1) ≤ r := by omega
  -- `4 * r ≤ (r + 1) ^ 2`
  have hsquare : 4 * r ≤ (r + 1) * (r + 1) := by
    nlinarith [sq_nonneg ((r : ℤ) - 1)]
  have htwice : 2 * ((n / d + 1) * (d % (r + 1))) ≤ 2 * ((r + 1) * (d / (r + 1))) := by
    calc 2 * ((n / d + 1) * (d % (r + 1)))
        ≤ 2 * (2 * S * r) := Nat.mul_le_mul_left 2 (Nat.mul_le_mul hq hr)
      _ = 4 * r * S := by ring
      _ ≤ (r + 1) * (r + 1) * S := Nat.mul_le_mul_right S hsquare
      _ = (r + 1) * B := by rw [← hPS]; ring
      _ ≤ (r + 1) * (2 * (d / (r + 1))) := Nat.mul_le_mul_left _ hv
      _ = 2 * ((r + 1) * (d / (r + 1))) := by ring
  omega

/-- **The estimate is too big by at most one.** -/
theorem estimate_le (hPS : P * S = B) (hn : n < B * B) (hv : B ≤ 2 * (d / P)) :
    n / (P * (d / P)) ≤ n / d + 1 := by
  have hdropped := dropped_le hPS hn hv
  have hd : P * (d / P) + d % P = d := Nat.div_add_mod d P
  have hB : 0 < B := pos_of_ne_zero fun h => by simp [h] at hn
  have hP : 0 < P := pos_of_ne_zero fun h => by simp [h] at hPS; omega
  have hkept : 0 < P * (d / P) := mul_pos hP (by omega)
  have hlt : n < d * (n / d + 1) := Nat.lt_mul_div_succ n (by omega)
  refine Nat.lt_succ_iff.mp ((Nat.div_lt_iff_lt_mul hkept).mpr ?_)
  calc n < d * (n / d + 1) := hlt
    _ = (P * (d / P) + d % P) * (n / d + 1) := by rw [hd]
    _ = (P * (d / P)) * (n / d + 1) + (n / d + 1) * (d % P) := by ring
    _ ≤ (P * (d / P)) * (n / d + 1) + P * (d / P) := Nat.add_le_add_left hdropped _
    _ = (n / d + 1).succ * (P * (d / P)) := by rw [Nat.succ_eq_add_one]; ring

/-- **The correction**: an estimate that is right or too big by one. -/
theorem correct (hd : 0 < d) (hpos : 0 < q) (hge : n / d ≤ q) (hle : q ≤ n / d + 1) :
    (if n - (q - 1) * d < d then q - 1 else q) = n / d := by
  have hmod : d * (n / d) + n % d = n := Nat.div_add_mod n d
  have hlt := Nat.mod_lt n hd
  rcases Nat.lt_or_eq_of_le hle with hlt' | heq
  · obtain rfl : q = n / d := by omega
    obtain ⟨k, hk⟩ : ∃ k, n / d = k + 1 := ⟨n / d - 1, by omega⟩
    rw [hk] at hmod
    rw [if_neg]
    rw [hk, Nat.add_sub_cancel, mul_comm]
    rw [mul_add, mul_one] at hmod
    omega
  · rw [heq, Nat.add_sub_cancel, if_pos]
    rw [mul_comm]
    omega

end Division
