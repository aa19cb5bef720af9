import Mathlib

/-!
# Pintos.Lib.FirstFit

First-fit allocation of runs of `k` bits.  A bit array is a function; a *run*
is named by the index of its first bit.

When every run has been handed out by first fit, the set bits are whole blocks
of `k` bits that start at multiples of `k` (`Blocky`).  That is an invariant of
allocation and release, and under it the next run is aligned too
(`IsFirst.dvd`), so that two runs are equal or disjoint
(`disjoint_of_dvd`).
-/

namespace FirstFit

variable {bits : Nat → Bool} {n k i j : Nat} {v : Bool}

/-! ## runs -/

/-- The `k` bits from `i` on are clear. -/
def Clear (bits : Nat → Bool) (k i : Nat) : Prop := ∀ j, i ≤ j → j < i + k → bits j = false

instance (bits : Nat → Bool) (k i : Nat) : Decidable (Clear bits k i) :=
  inferInstanceAs (Decidable (∀ j, i ≤ j → j < i + k → bits j = false))

/-- `i` is the first of the `n` bits at which a run of `k` clear bits starts. -/
structure IsFirst (bits : Nat → Bool) (n k i : Nat) : Prop where
  fits : i + k ≤ n
  clear : Clear bits k i
  least : ∀ {j}, Clear bits k j → i ≤ j

/-- Where, from `start` on, runs of `k` bits `v` start among the `n` bits. -/
def runsFrom (bits : Nat → Bool) (v : Bool) (n k start : Nat) : Set Nat :=
  {i | start ≤ i ∧ i + k ≤ n ∧ ∀ j, i ≤ j → j < i + k → bits j = v}

theorem runsFrom_of_lt (h : n < i + k) : runsFrom bits v n k i = ∅ := by
  refine Set.eq_empty_iff_forall_notMem.mpr ?_
  rintro j ⟨hij, hj, -⟩
  omega

theorem runsFrom_succ (h : i ∉ runsFrom bits v n k i) :
    runsFrom bits v n k (i + 1) = runsFrom bits v n k i := by
  ext j
  refine and_congr_left fun hj => ⟨Nat.le_of_succ_le, fun hij => ?_⟩
  refine lt_of_le_of_ne hij ?_
  rintro rfl
  exact h ⟨hij, hj⟩

theorem IsFirst.of_isLeast (h : IsLeast (runsFrom bits false n k 0) i) : IsFirst bits n k i := by
  obtain ⟨⟨-, hfits, hclear⟩, hleast⟩ := h
  refine ⟨hfits, hclear, fun {j} hj => ?_⟩
  rcases lt_or_ge n (j + k) with hlt | hle
  · omega
  · exact hleast ⟨Nat.zero_le j, hle, hj⟩

theorem not_clear_of_runsFrom (h : runsFrom bits false n k 0 = ∅) (j : Nat) (hj : j + k ≤ n) :
    ¬ Clear bits k j :=
  fun hclear => Set.eq_empty_iff_forall_notMem.mp h j ⟨Nat.zero_le j, hj, hclear⟩

/-- The array after the run at `i` has been written. -/
def fill (bits : Nat → Bool) (k i : Nat) (v : Bool) : Nat → Bool := fun j =>
  if i ≤ j ∧ j < i + k then v else bits j

theorem fill_of_mem (hi : i ≤ j) (hj : j < i + k) : fill bits k i v j = v := if_pos ⟨hi, hj⟩

theorem fill_of_not_mem (h : j < i ∨ i + k ≤ j) : fill bits k i v j = bits j := if_neg (by omega)

theorem fill_zero : fill bits 0 i v = bits := by
  funext j
  exact fill_of_not_mem (by omega)

theorem fill_of_eq (h : bits j = v) : fill bits k i v j = v := by
  unfold fill
  split
  · rfl
  · exact h

theorem of_fill_true (h : fill bits k i true j = false) : bits j = false := by
  cases hj : bits j with
  | false => rfl
  | true => exact absurd (fill_of_eq hj) (Bool.not_eq_true _ ▸ h)

theorem Clear.of_fill {l d : Nat} (h : Clear (fill bits k i true) l d) : Clear bits l d :=
  fun x hle hlt => of_fill_true (h x hle hlt)

/-- A clear run that has been set and cleared. -/
theorem Clear.fill_undo (h : Clear bits k i) : fill (fill bits k i true) k i false = bits := by
  funext x
  by_cases hx : i ≤ x ∧ x < i + k
  · rw [fill_of_mem hx.1 hx.2, h x hx.1 hx.2]
  · rw [fill_of_not_mem (by omega), fill_of_not_mem (by omega)]

/-- The same when another run, clear after it, has been set in between. -/
theorem Clear.fill_undo_of_run {l d : Nat} (h : Clear bits k i)
    (hd : Clear (fill bits k i true) l d) :
    fill (fill (fill bits k i true) l d true) k i false = fill bits l d true := by
  funext x
  by_cases hx : i ≤ x ∧ x < i + k
  · have hout : x < d ∨ d + l ≤ x := by
      by_contra hin
      have hclear := hd x (by omega) (by omega)
      rw [fill_of_mem hx.1 hx.2] at hclear
      cases hclear
    rw [fill_of_mem hx.1 hx.2, fill_of_not_mem hout, h x hx.1 hx.2]
  · rw [fill_of_not_mem (by omega)]
    by_cases hd : d ≤ x ∧ x < d + l
    · rw [fill_of_mem hd.1 hd.2, fill_of_mem hd.1 hd.2]
    · rw [fill_of_not_mem (by omega), fill_of_not_mem (by omega), fill_of_not_mem (by omega)]

/-! ## blocks -/

theorem disjoint_of_dvd (hi : k ∣ i) (hj : k ∣ j) (hne : i ≠ j) : i + k ≤ j ∨ j + k ≤ i := by
  by_contra h
  have hij : i ≤ j := Nat.le_of_lt_add_of_dvd (by omega) hi hj
  have hji : j ≤ i := Nat.le_of_lt_add_of_dvd (by omega) hj hi
  omega

/-- The bits of a block are equal. -/
def Blocky (bits : Nat → Bool) (k : Nat) : Prop := ∀ i j, k ∣ i → i ≤ j → j < i + k → bits j = bits i

/-- The block that a bit belongs to. -/
theorem exists_block (hk : 0 < k) (j : Nat) : ∃ i, k ∣ i ∧ i ≤ j ∧ j < i + k := by
  refine ⟨k * (j / k), Nat.dvd_mul_right k _, Nat.mul_div_le j k, ?_⟩
  have h := Nat.lt_mul_div_succ j hk
  rwa [Nat.mul_succ] at h

theorem Blocky.fill (h : Blocky bits k) (hi : k ∣ i) : Blocky (fill bits k i v) k := by
  intro b j hb hbj hjb
  by_cases hbi : b = i
  · subst hbi
    rw [fill_of_mem hbj hjb, fill_of_mem (le_refl b) (by omega)]
  · have hdisj := disjoint_of_dvd hb hi hbi
    rw [fill_of_not_mem (by omega), fill_of_not_mem (by omega), h b j hb hbj hjb]

theorem Blocky.clear (h : Blocky bits k) (hi : k ∣ i) (hij : i ≤ j) (hj : j < i + k)
    (hc : bits j = false) : Clear bits k i := by
  intro l hil hl
  rw [h i l hi hil hl, ← h i j hi hij hj, hc]

/-- **First fit is aligned**: the first clear run of a block-wise array is a
block. -/
theorem IsFirst.dvd (h : IsFirst bits n k i) (hb : Blocky bits k) (hk : 0 < k) : k ∣ i := by
  obtain ⟨b, hdvd, hbi, hib⟩ := exists_block hk i
  have hclear : Clear bits k b :=
    hb.clear hdvd hbi hib (h.clear i (le_refl i) (Nat.lt_add_of_pos_right hk))
  have hle : i ≤ b := h.least hclear
  exact le_antisymm hle hbi ▸ hdvd

end FirstFit
