import Pintos.Lib.FirstFit

/-!
# Pintos.Lib.Runs

Runs of bits that have been handed out and not been given back.  A run is anything that
has a first bit and a length.

`Tiles` says that the set bits of an array are exactly the bits of such runs, and that the
runs are pairwise apart.  Handing out a clear run and giving back a run keep it
(`Tiles.cons`, `Tiles.erase`), and no run has a bit in common with a clear one
(`Tiles.clear_iff`).
-/

namespace FirstFit

open List

universe u

variable {ρ : Type u} {start len : ρ → Nat} {bits : Nat → Bool} {n i k : Nat} {r : ρ}
  {runs : List ρ}

/-- The runs have no bit in common. -/
def Apart (start len : ρ → Nat) (r q : ρ) : Prop :=
  start r + len r ≤ start q ∨ start q + len q ≤ start r

instance (start len : ρ → Nat) : Std.Symm (Apart start len) where
  symm := fun _ _ => Or.symm

/-- The set bits, of the first `n`, are those of the runs. -/
structure Tiles (start len : ρ → Nat) (bits : Nat → Bool) (n : Nat) (runs : List ρ) : Prop where
  pos : ∀ r ∈ runs, 0 < len r
  fits : ∀ r ∈ runs, start r + len r ≤ n
  apart : runs.Pairwise (Apart start len)
  set_iff : ∀ i < n, bits i = true ↔ ∃ r ∈ runs, start r ≤ i ∧ i < start r + len r

namespace Tiles

protected theorem nil (h : ∀ i < n, bits i = false) : Tiles start len bits n [] where
  pos := nofun
  fits := nofun
  apart := .nil
  set_iff := by
    intro i hi
    simp [h i hi]

section

variable (h : Tiles start len bits n runs)
include h

theorem nodup : runs.Nodup := by
  refine h.apart.imp_of_mem fun {r q} hr _ hapart heq => ?_
  subst heq
  have hpos := h.pos r hr
  unfold Apart at hapart
  omega

theorem set_of_mem (hr : r ∈ runs) (hle : start r ≤ i)
    (hlt : i < start r + len r) : bits i = true :=
  (h.set_iff i (Nat.lt_of_lt_of_le hlt (h.fits r hr))).mpr ⟨r, hr, hle, hlt⟩

theorem clear_iff (hfits : i + k ≤ n) :
    Clear bits k i ↔ ∀ r ∈ runs, ∀ j, start r ≤ j → j < start r + len r → ¬ (i ≤ j ∧ j < i + k) := by
  constructor
  · intro hclear r hr j hle hlt hin
    have hset := h.set_of_mem hr hle hlt
    rw [hclear j hin.1 hin.2] at hset
    cases hset
  · intro hout j hle hlt
    rw [Bool.eq_false_iff]
    intro hset
    obtain ⟨r, hr, hrle, hrlt⟩ := (h.set_iff j (by omega)).mp hset
    exact hout r hr j hrle hrlt ⟨hle, hlt⟩

/-- **A clear run is handed out.** -/
theorem cons (hpos : 0 < len r) (hfits : start r + len r ≤ n)
    (hclear : Clear bits (len r) (start r)) :
    Tiles start len (fill bits (len r) (start r) true) n (r :: runs) := by
  have hout := (h.clear_iff hfits).mp hclear
  constructor
  · intro q hq
    rcases mem_cons.mp hq with rfl | hq
    · exact hpos
    · exact h.pos q hq
  · intro q hq
    rcases mem_cons.mp hq with rfl | hq
    · exact hfits
    · exact h.fits q hq
  · refine pairwise_cons.mpr ⟨fun q hq => ?_, h.apart⟩
    have hqpos := h.pos q hq
    have hfirst := hout q hq (start q)
    have hsecond := hout q hq (start r)
    unfold Apart
    omega
  · intro i hi
    simp only [mem_cons, exists_eq_or_imp]
    by_cases hin : start r ≤ i ∧ i < start r + len r
    · rw [fill_of_mem hin.1 hin.2]
      exact iff_of_true rfl (.inl hin)
    · rw [fill_of_not_mem (by omega), h.set_iff i hi]
      exact (or_iff_right hin).symm

theorem apart_of_mem {q : ρ} (hr : r ∈ runs) (hq : q ∈ runs)
    (hne : r ≠ q) : Apart start len r q := h.apart.forall hr hq hne

end

/-- **A run is given back.** -/
theorem erase [BEq ρ] [LawfulBEq ρ] (h : Tiles start len bits n runs) (hr : r ∈ runs) :
    Tiles start len (fill bits (len r) (start r) false) n (runs.erase r) := by
  have hsub : ∀ q ∈ runs.erase r, q ∈ runs := fun q => mem_of_mem_erase
  constructor
  · exact fun q hq => h.pos q (hsub q hq)
  · exact fun q hq => h.fits q (hsub q hq)
  · exact h.apart.sublist erase_sublist
  · intro i hi
    by_cases hin : start r ≤ i ∧ i < start r + len r
    · rw [fill_of_mem hin.1 hin.2]
      refine iff_of_false (by simp) ?_
      rintro ⟨q, hq, hle, hlt⟩
      obtain ⟨hne, hq⟩ := h.nodup.mem_erase_iff.mp hq
      have hapart := h.apart_of_mem hq hr hne
      unfold Apart at hapart
      omega
    · rw [fill_of_not_mem (by omega), h.set_iff i hi]
      constructor
      · rintro ⟨q, hq, hle, hlt⟩
        have hne : q ≠ r := by
          rintro rfl
          exact hin ⟨hle, hlt⟩
        exact ⟨q, h.nodup.mem_erase_iff.mpr ⟨hne, hq⟩, hle, hlt⟩
      · rintro ⟨q, hq, hbits⟩
        exact ⟨q, hsub q hq, hbits⟩

end Tiles

end FirstFit
