import Pintos.Threads.Lock

/-!
# Pintos.Threads.LockNesting

Mutual exclusion with the re-entrant `lock_acquire`.

A thread is *inside* a lock from the return of its outermost `lock_acquire`
to its matching `lock_release`.  A nested `lock_acquire` returns at once, but
`lock_release` has no depth count: the inner release gives the lock away, a
second thread gets inside, and the outer release fails its assertion
(`nested_acquire_breaks_exclusion`).  When no thread acquires a lock it is
already inside, exclusion and the assertion hold in every state of every run
(`lock_exclusion_of_not_nested`).
-/

namespace Pintos

open Function LockSys

variable {τ ι : Type*} {s s' : LockSys τ ι} {t : τ} {l : ι}

/-- Between the outermost `lock_acquire` and the matching `lock_release`. -/
def LockSys.Inside (s : LockSys τ ι) (t : τ) (l : ι) : Prop := 1 ≤ s.depth t l

/-- At most one thread is inside each lock. -/
def MutualExclusion (s : LockSys τ ι) : Prop :=
  ∀ l t t', s.Inside t l → s.Inside t' l → t = t'

/-- A balanced call of `lock_release` passes
`ASSERT (lock_held_by_current_thread (lock))`. -/
def ReleaseAsserted (s : LockSys τ ι) : Prop :=
  ∀ t l, s.pc t = .outside → s.Inside t l → (s.lock l).holder = some t

/-- The calls of every thread are balanced, and locks are initialised once. -/
def Balanced (s : LockSys τ ι) : LockAct τ ι → Prop
  | .release t l => s.Inside t l
  | .init _ => False
  | _ => True

/-- No thread calls `lock_acquire` on a lock it is already inside. -/
def NotNested (s : LockSys τ ι) : LockAct τ ι → Prop
  | .acquire t l => ¬ s.Inside t l
  | _ => True

instance (s : LockSys τ ι) (a : LockAct τ ι) : Decidable (Balanced s a) := by
  rcases a with ⟨⟩ <;> simp only [Balanced, Inside] <;> infer_instance

instance (s : LockSys τ ι) (a : LockAct τ ι) : Decidable (NotNested s a) := by
  rcases a with ⟨⟩ <;> simp only [NotNested, Inside] <;> infer_instance

/-! ## nested calls break it -/

/-- Thread `0` acquires twice and releases once; thread `1` then acquires. -/
def nestedRun : List (LockAct Nat Unit) :=
  [.acquire 0 (), .run 0, .run 0, .run 0, .acquire 0 (),
   .release 0 (), .run 0, .run 0, .run 0,
   .acquire 1 (), .run 1, .run 1, .run 1]

/-- A balanced run with one nested acquire: both threads are inside the lock,
and the outer release of thread `0` would fail its assertion. -/
theorem nested_acquire_breaks_exclusion :
    ∃ s : LockSys Nat Unit, lockMachine.runIn Balanced lockBoot nestedRun = some s ∧
      lockMachine.ReachIn Balanced s ∧ ¬ MutualExclusion s ∧ ¬ ReleaseAsserted s := by
  obtain ⟨s, hrun, hs, h0, h1, hpc, hh⟩ := Machine.exists_reachIn_of_runIn (m := lockMachine)
    (C := Balanced) rfl nestedRun (fun s => 1 ≤ s.depth 0 () ∧ 1 ≤ s.depth 1 () ∧
      s.pc 0 = .outside ∧ (s.lock ()).holder = some 1) (by decide +kernel)
  refine ⟨s, hrun, hs, fun hme => ?_, fun hra => ?_⟩
  · have := hme () 0 1 h0 h1
    contradiction
  · have hh0 := hra 0 () hpc h0
    cases hh.symm.trans hh0

/-! ## without nesting it holds -/

/-- Without nesting, a thread is inside a lock exactly while it is the
recorded holder and has not called `lock_release`. -/
structure DepthInv (s : LockSys τ ι) : Prop where
  le_one : ∀ t l, s.depth t l ≤ 1
  inside_iff : ∀ t l, s.Inside t l ↔
    (s.lock l).holder = some t ∧ s.pc t ≠ .unlink l ∧ s.pc t ≠ .clear l

variable [DecidableEq τ] [DecidableEq ι]

omit [DecidableEq τ] [DecidableEq ι] in
theorem depthInv_boot : DepthInv (lockBoot : LockSys τ ι) where
  le_one _ _ := Nat.zero_le _
  inside_iff t l := by simp [Inside, lockBoot, lockInit]

/-- The statements inside the two calls change who is inside only when the
holder is recorded. -/
theorem DepthInv.lockMove (h : DepthInv s) (hi : ∀ l, LockInv s l) (hm : LockMove s t s') :
    DepthInv s' := by
  obtain ⟨hle, hin⟩ := h
  simp only [Inside] at hin
  cases hm with
  | link hpc hpush | unlink hpc hrem =>
    constructor
    · exact hle
    · intro t' l'
      simp only [Inside, setPc, update_apply, hin]
      grind
  | wait hpc hv | take hpc hv =>
    constructor
    · exact hle
    · intro t' l'
      simp only [Inside, setPc, setLock, update_apply, hin]
      grind
  | hold hpc =>
    next l =>
    -- the lock had no holder, so nobody was inside
    have hnone := (hi l).holder_own (.inl hpc)
    have hzero : s.depth t l = 0 := by
      have := hin t l
      simp only [hnone, reduceCtorEq, false_and, iff_false] at this
      omega
    constructor
    · intro t' l'
      have := hle t' l'
      simp only [setDepth, setPc, setLock, update_apply]
      grind
    · intro t' l'
      have := hin t' l'
      simp only [Inside, setDepth, setPc, setLock,
        update_apply]
      grind
  | clear hpc =>
    next l =>
    have hhold := (hi l).holder_release (.inr hpc)
    constructor
    · exact hle
    · intro t' l'
      simp only [Inside, setPc, setLock, update_apply, hin]
      grind
  | up hpc =>
    next l =>
    constructor
    · intro t' l'
      cases hw : (semaUp (s.lock l).semaphore).2 <;> exact hle t' l'
    · intro t' l'
      cases hw : (s.lock l).semaphore.waiters with
      | nil =>
        simp only [Inside, setPc, setLock, wake, semaUp, hw,
          update_apply, hin]
        grind
      | cons w ws =>
        have hwait : s.pc w = .waiting l := (hi l).waiting_iff.mp (by simp [hw])
        simp only [Inside, setPc, setLock, wake, semaUp, hw,
          update_apply, hin]
        grind

/-- **Step lemma**: balanced calls without nesting keep the invariant. -/
theorem DepthInv.step {a : LockAct τ ι} (h : DepthInv s) (hi : ∀ l, LockInv s l)
    (hB : Balanced s a) (hN : NotNested s a) (hs : lockStep s a = some s') : DepthInv s' := by
  cases a with
  | acquire t l =>
    obtain ⟨-, hpc, rfl⟩ := lockStep_acquire hs
    -- a holder outside the two calls is inside the lock, so this is no nested call
    have hh : (s.lock l).holder ≠ some t := fun hh =>
      hN ((h.inside_iff t l).mpr ⟨hh, by simp [hpc], by simp [hpc]⟩)
    rw [lockAcquire, if_neg hh]
    constructor
    · exact h.le_one
    · intro t' l'
      have := h.inside_iff t' l'
      simp only [Inside, setPc, update_apply] at this ⊢
      grind
  | release t l =>
    obtain ⟨-, hpc, hh, rfl⟩ := lockStep_release hs
    have hone := h.le_one t l
    constructor
    · intro t' l'
      have := h.le_one t' l'
      simp only [setDepth, setPc, update_apply]
      grind
    · intro t' l'
      have := h.inside_iff t' l'
      simp only [Inside, setDepth, setPc,
        update_apply] at this ⊢
      grind
  | run t => exact h.lockMove hi (lockStep_run hs).2
  | init l => exact absurd hB id
  | exit t =>
    obtain ⟨-, -, rfl⟩ := lockStep_exit hs
    exact ⟨h.le_one, h.inside_iff⟩

/-- **Exclusion without nesting**: in every run of balanced calls in which no
thread acquires a lock it is already inside, at most one thread is inside each
lock and no `lock_release` fails its assertion. -/
theorem lock_exclusion_of_not_nested (s : LockSys τ ι)
    (h : lockMachine.ReachIn (fun s a => Balanced s a ∧ NotNested s a) s) :
    MutualExclusion s ∧ ReleaseAsserted s := by
  have hinv : DepthInv s := by
    have hboth : (∀ l, LockInv s l) ∧ WaitersInv s ∧ DepthInv s := by
      refine h.invariant (I := fun s => (∀ l, LockInv s l) ∧ WaitersInv s ∧ DepthInv s)
        (fun s h0 => h0 ▸ ⟨fun _ => lockInv_boot, waitersInv_boot, depthInv_boot⟩) ?_
      intro s a s' ⟨hi, hw, hd⟩ hC hs
      have hunused : ∀ l, InitUnused l s a := by
        rintro l rfl
        exact absurd hC.1 id
      exact ⟨fun l => (hi l).step hw (hunused l) hs, hw.step hs, hd.step hi hC.1 hC.2 hs⟩
    exact hboth.2.2
  constructor
  · intro l t t' ht ht'
    have hh := ((hinv.inside_iff t l).mp ht).1
    have hh' := ((hinv.inside_iff t' l).mp ht').1
    exact Option.some.inj (hh.symm.trans hh')
  · exact fun t l _ hin => ((hinv.inside_iff t l).mp hin).1

/-- Thread `0` is inside, thread `1` waits for it. -/
theorem lock_exclusion_of_not_nested_contended :
    ∃ s : LockSys Nat Unit, s.Inside 0 () ∧ s.pc 1 = .waiting () ∧
      MutualExclusion s ∧ ReleaseAsserted s := by
  obtain ⟨s, -, hs, h0, h1⟩ := Machine.exists_reachIn_of_runIn (m := lockMachine)
    (C := fun s a => Balanced s a ∧ NotNested s a) rfl
    [.acquire 0 (), .acquire 1 (), .run 0, .run 1, .run 0, .run 1, .run 0]
    (fun s => 1 ≤ s.depth 0 () ∧ s.pc 1 = .waiting ()) (by decide +kernel)
  exact ⟨s, h0, h1, lock_exclusion_of_not_nested s hs⟩

end Pintos
