import Mathlib

/-!
# Pintos.Lib.Simulation

Labelled transition systems, whose labels are what an observer sees of a step, and
forward simulation between two of them: every trace of the one is a trace of the other
(`Trace.simulate`).
-/

universe u v w

/-- A transition system: its initial states and its labelled steps. -/
structure Lts (σ : Type u) (α : Type v) where
  init : σ → Prop
  step : σ → α → σ → Prop

namespace Lts

variable {σ : Type u} {τ : Type w} {α : Type v} {m : Lts σ α} {n : Lts τ α} {R : σ → τ → Prop}
  {as : List α} {s : σ}

/-- A run from an initial state, with its labels in order. -/
inductive Trace (m : Lts σ α) : List α → σ → Prop
  | nil {s : σ} : m.init s → Trace m [] s
  | snoc {as : List α} {s s' : σ} {a : α} : Trace m as s → m.step s a s' → Trace m (as ++ [a]) s'

/-- Every step of `m` can be followed by a step of `n` with the same label. -/
structure Simulates (m : Lts σ α) (n : Lts τ α) (R : σ → τ → Prop) : Prop where
  init : ∀ s, m.init s → ∃ t, n.init t ∧ R s t
  step : ∀ s a s' t, R s t → m.step s a s' → ∃ t', n.step t a t' ∧ R s' t'

/-- **Forward simulation**: every trace of `m` is a trace of `n`. -/
theorem Trace.simulate (hsim : Simulates m n R) (h : m.Trace as s) : ∃ t, n.Trace as t ∧ R s t := by
  induction h with
  | nil h =>
    obtain ⟨t, ht, hr⟩ := hsim.init _ h
    exact ⟨t, .nil ht, hr⟩
  | snoc _ hstep ih =>
    obtain ⟨t, htrace, hr⟩ := ih
    obtain ⟨t', hstep', hr'⟩ := hsim.step _ _ _ t hr hstep
    exact ⟨t', htrace.snoc hstep', hr'⟩

end Lts
