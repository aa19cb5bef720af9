import Mathlib

/-!
# Pintos.Lib.Machine

Executable transition machines: a predicate of initial states and a partial
step function `σ → α → Option σ`.  The action `α` carries every choice that
is not the program's own (who runs next, what a caller passes, whether an
allocation succeeds), so one list of actions is one interleaving and a
concrete run is evaluated by the kernel.

Properties are stated of `ReachIn C`: the states of the runs whose steps all
meet a condition `C` on the state before the step and the action.  `Reach`
is the unconditional case.

* `ReachIn.invariant` — what holds initially and is kept by every permitted
  step holds of every state reached;
* `exists_reach_of_runFrom` / `exists_reachIn_of_runIn` — a concrete list of
  actions that evaluates to a state reaches it.
-/

universe u v

/-- A machine: its initial states and its partial step function. -/
structure Machine (σ : Type u) (α : Type v) where
  init : σ → Prop
  step : σ → α → Option σ

/-- A guarded step that has been taken. -/
theorem of_guard {σ : Type u} {p : Prop} [Decidable p] {s s' : σ}
    (h : (if p then some s else none) = some s') : p ∧ s = s' := by
  rwa [Option.ite_none_right_eq_some, Option.some.injEq] at h

namespace Machine

open Option

variable {σ : Type u} {α : Type v} {m : Machine σ α} {C : σ → α → Prop} {s s' : σ} {I : σ → Prop}
  {s₀ : σ} {as : List α} {a : α}

/-! ## runs -/

/-- Run a list of actions in order; `none` when one of them is not enabled. -/
def runFrom (m : Machine σ α) : σ → List α → Option σ
  | s, [] => some s
  | s, a :: as => (m.step s a).bind fun s' => m.runFrom s' as

/-- `runFrom` with every step checked against a decidable condition. -/
def runIn (m : Machine σ α) (C : σ → α → Prop) [∀ s a, Decidable (C s a)] :
    σ → List α → Option σ
  | s, [] => some s
  | s, a :: as => if C s a then (m.step s a).bind fun s' => m.runIn C s' as else none

/-- The states reached by runs whose steps all meet `C`. -/
inductive ReachIn (m : Machine σ α) (C : σ → α → Prop) : σ → Prop
  | init {s : σ} : m.init s → ReachIn m C s
  | step {s s' : σ} {a : α} : ReachIn m C s → C s a → m.step s a = some s' → ReachIn m C s'

/-- The states reached by any run. -/
abbrev Reach (m : Machine σ α) : σ → Prop := m.ReachIn fun _ _ => True

/-! ## invariants -/

/-- **Invariant rule**: an invariant kept by every permitted step holds of
every state reached. -/
theorem ReachIn.invariant (h : m.ReachIn C s) (hinit : ∀ s, m.init s → I s)
    (hstep : ∀ s a s', I s → C s a → m.step s a = some s' → I s') : I s := by
  induction h with
  | init h0 => exact hinit _ h0
  | step _ hC hs ih => exact hstep _ _ _ ih hC hs

/-- The same when the step is known to start in a state reached, so that what has
been proved of every run can be used. -/
theorem ReachIn.invariant_reach (h : m.ReachIn C s) (hinit : ∀ s, m.init s → I s)
    (hstep : ∀ s a s', m.ReachIn C s → I s → C s a → m.step s a = some s' → I s') : I s := by
  induction h with
  | init h0 => exact hinit _ h0
  | step hr hC hs ih => exact hstep _ _ _ hr ih hC hs

/-- A condition that every permitted step meets permits the same runs. -/
theorem ReachIn.mono {C' : σ → α → Prop} (h : m.ReachIn C s)
    (hC : ∀ s a s', C s a → m.step s a = some s' → C' s a) : m.ReachIn C' s := by
  induction h with
  | init h0 => exact .init h0
  | step _ hc hs ih => exact .step ih (hC _ _ _ hc hs) hs

/-! ## concrete runs -/

@[simp] theorem runFrom_nil (m : Machine σ α) (s : σ) : m.runFrom s [] = some s := rfl

theorem runFrom_cons (m : Machine σ α) (s : σ) (a : α) (as : List α) :
    m.runFrom s (a :: as) = (m.step s a).bind fun s' => m.runFrom s' as := rfl

theorem ReachIn.runIn [∀ s a, Decidable (C s a)] (h : m.ReachIn C s) (as : List α)
    (hrun : m.runIn C s as = some s') : m.ReachIn C s' := by
  induction as generalizing s with
  | nil =>
    simp only [Machine.runIn, some.injEq] at hrun
    exact hrun ▸ h
  | cons a as ih =>
    simp only [Machine.runIn] at hrun
    split at hrun
    · next hC =>
      obtain ⟨s₁, hs₁, hrest⟩ := bind_eq_some_iff.mp hrun
      exact ih (.step h hC hs₁) hrest
    · contradiction

theorem Reach.runFrom (h : m.Reach s) (as : List α) (hrun : m.runFrom s as = some s') :
    m.Reach s' := by
  induction as generalizing s with
  | nil =>
    simp only [runFrom_nil, some.injEq] at hrun
    exact hrun ▸ h
  | cons a as ih =>
    rw [runFrom_cons] at hrun
    obtain ⟨s₁, hs₁, hrest⟩ := bind_eq_some_iff.mp hrun
    exact ih (.step h trivial hs₁) hrest

/-- A list of actions that evaluates to a state with property `P` shows that
such a state is reached. -/
theorem exists_reach_of_runFrom (h0 : m.init s₀) (as : List α) (P : σ → Prop)
    [DecidablePred P] (hrun : (m.runFrom s₀ as).any (P ·) = true) :
    ∃ s, m.runFrom s₀ as = some s ∧ m.Reach s ∧ P s := by
  obtain ⟨s, hs, hp⟩ := (any_eq_true ..).mp hrun
  exact ⟨s, hs, Reach.runFrom (.init h0) as hs, of_decide_eq_true hp⟩

/-- The same for a run whose steps all meet `C`. -/
theorem exists_reachIn_of_runIn [∀ s a, Decidable (C s a)] (h0 : m.init s₀)
    (as : List α) (P : σ → Prop) [DecidablePred P] (hrun : (m.runIn C s₀ as).any (P ·) = true) :
    ∃ s, m.runIn C s₀ as = some s ∧ m.ReachIn C s ∧ P s := by
  obtain ⟨s, hs, hp⟩ := (any_eq_true ..).mp hrun
  exact ⟨s, hs, ReachIn.runIn (.init h0) as hs, of_decide_eq_true hp⟩

/-! ## the states and steps of one run -/

/-- The run of `as` from `s₀` passes through `s`. -/
def Visits (m : Machine σ α) (s₀ : σ) (as : List α) (s : σ) : Prop :=
  ∃ as₁ as₂, as = as₁ ++ as₂ ∧ m.runFrom s₀ as₁ = some s

/-- The run of `as` from `s₀` performs `a` in state `s`. -/
def Takes (m : Machine σ α) (s₀ : σ) (as : List α) (s : σ) (a : α) : Prop :=
  ∃ as₁ as₂, as = as₁ ++ a :: as₂ ∧ m.runFrom s₀ as₁ = some s

theorem runFrom_append (m : Machine σ α) (s : σ) (as bs : List α) :
    m.runFrom s (as ++ bs) = (m.runFrom s as).bind fun s' => m.runFrom s' bs := by
  induction as generalizing s with
  | nil => rfl
  | cons a as ih =>
    rw [List.cons_append, runFrom_cons, runFrom_cons, Option.bind_assoc]
    congr
    funext s'
    exact ih s'

/-- A step is taken in a state that the run passes through. -/
theorem Takes.visits (h : m.Takes s₀ as s a) : m.Visits s₀ as s := by
  obtain ⟨as₁, as₂, rfl, hs⟩ := h
  exact ⟨as₁, a :: as₂, rfl, hs⟩

/-- In a run that goes through, a step taken leads to a state visited. -/
theorem Takes.next (h : m.Takes s₀ as s a)
    (hrun : (m.runFrom s₀ as).isSome) : ∃ s', m.step s a = some s' ∧ m.Visits s₀ as s' := by
  obtain ⟨as₁, as₂, rfl, hs⟩ := h
  rw [runFrom_append, hs, bind_some, runFrom_cons] at hrun
  cases hstep : m.step s a with
  | none => rw [hstep] at hrun; contradiction
  | some s' =>
    refine ⟨s', rfl, as₁ ++ [a], as₂, by simp, ?_⟩
    rw [runFrom_append, hs, bind_some, runFrom_cons, hstep]
    rfl

/-- A run whose steps all meet `C` visits states in `ReachIn C`. -/
theorem Visits.reachIn (h : m.Visits s₀ as s) (h0 : m.init s₀)
    (hC : ∀ s a, m.Takes s₀ as s a → C s a) : m.ReachIn C s := by
  obtain ⟨as₁, as₂, rfl, hs⟩ := h
  induction as₁ using List.reverseRecOn generalizing s as₂ with
  | nil =>
    simp only [runFrom_nil, some.injEq] at hs
    exact hs ▸ .init h0
  | append_singleton as a ih =>
    rw [runFrom_append] at hs
    obtain ⟨s₁, hs₁, hlast⟩ := bind_eq_some_iff.mp hs
    obtain ⟨s₂, hs₂, hnil⟩ := bind_eq_some_iff.mp hlast
    simp only [runFrom_nil, some.injEq] at hnil
    subst hnil
    have hstep : C s₁ a := hC s₁ a ⟨as, as₂, by simp, hs₁⟩
    have hprev : m.ReachIn C s₁ := ih (a :: as₂) hs₁ (by simpa using hC)
    exact .step hprev hstep hs₂

end Machine
