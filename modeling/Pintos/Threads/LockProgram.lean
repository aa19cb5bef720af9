import Pintos.Lib.Bracket
import Pintos.Threads.Lock

/-!
# Pintos.Threads.LockProgram

Threads that run kernel procedures over the locks of `Pintos.Threads.Lock`.

A thread has a stack of pending programs (`Bracket.Prog`).  Its next step is
the next statement of the `lock_acquire` or `lock_release` it is in, or else
the next operation of the program on top of its stack.  Everything the
locks do not decide (the result of `malloc`, of a table look-up, of a device)
is an answer that comes with the step.

`ProgInv.step` is the link between the rules of `Bracket.wp` and the locks: in
every run whose steps meet `permits`, what the rules say a thread holds is
what the locks record.
-/

namespace Pintos

open Bracket Function Option LockSys

variable {τ ι κ ρ : Type*} {Ans : ρ → Type}

/-- The locks, and what every thread still has to do. -/
structure ProgSys (τ ι κ : Type*) {ρ : Type*} (Ans : ρ → Type) where
  locks : LockSys τ ι
  stack : τ → List (Prog ι κ Ans)

open ProgSys

/-- A procedure entered from outside the modelled code, the next step of a
thread with the answer to whatever it asks, or `lock_init` by a thread that is
outside. -/
inductive ProgAct (τ ι κ : Type*) {ρ : Type*} (Ans : ρ → Type)
  | call (t : τ) (f : κ)
  | run (t : τ) (answer : ∀ q, Ans q)
  | init (t : τ) (l : ι)

section Steps

variable [DecidableEq τ] [DecidableEq ι] (body : κ → Prog ι κ Ans) (entry : κ → Bool)
  (reinit : ι → Bool)

/-- Replace the stack of `t`, with the locks after a step. -/
def ProgSys.next (s : ProgSys τ ι κ Ans) (t : τ) (ps : List (Prog ι κ Ans))
    (locks : LockSys τ ι) : ProgSys τ ι κ Ans :=
  ⟨locks, update s.stack t ps⟩

/-- The next operation of the program on top of `t`'s stack. -/
def progRun (s : ProgSys τ ι κ Ans) (t : τ) (answer : ∀ q, Ans q) :
    Option (ProgSys τ ι κ Ans) :=
  match s.stack t with
  | [] | .panic :: _ => none
  | .ret :: ps => some (s.next t ps s.locks)
  | .halt :: _ => (lockStep s.locks (.exit t)).map (s.next t [])
  | .acquire l k :: ps => (lockStep s.locks (.acquire t l)).map (s.next t (k :: ps))
  | .release l k :: ps => (lockStep s.locks (.release t l)).map (s.next t (k :: ps))
  | .call f k :: ps => some (s.next t (body f :: k :: ps) s.locks)
  | .ask q k :: ps => some (s.next t (k (answer q) :: ps) s.locks)

/-- The procedure that `t` calls in its next step. -/
def ProgSys.calls (s : ProgSys τ ι κ Ans) (t : τ) : Option κ :=
  if s.locks.pc t = .outside then
    match s.stack t with
    | .call f _ :: _ => some f
    | _ => none
  else
    none

/-- The lock that `t` releases in its next step. -/
def ProgSys.releases (s : ProgSys τ ι κ Ans) (t : τ) : Option ι :=
  if s.locks.pc t = .outside then
    match s.stack t with
    | .release l _ :: _ => some l
    | _ => none
  else
    none

/-- `t` is alive and in none of the procedures. -/
def ProgSys.Idle (s : ProgSys τ ι κ Ans) (t : τ) : Prop :=
  s.locks.live t = true ∧ s.locks.pc t = .outside ∧ (s.stack t).isEmpty = true

instance (s : ProgSys τ ι κ Ans) (t : τ) : Decidable (s.Idle t) :=
  inferInstanceAs (Decidable (_ ∧ _ ∧ _))

/-- The step function. -/
def progStep (s : ProgSys τ ι κ Ans) : ProgAct τ ι κ Ans → Option (ProgSys τ ι κ Ans)
  | .call t f => if entry f ∧ s.Idle t then some (s.next t [body f] s.locks) else none
  | .run t answer =>
    if s.locks.pc t = .outside then
      progRun body s t answer
    else
      (lockStep s.locks (.run t)).map (s.next t (s.stack t))
  | .init t l =>
    if reinit l ∧ s.Idle t then
      (lockStep s.locks (.init l)).map (s.next t (s.stack t))
    else
      none

/-- Threads running the procedures of `body`, which they enter through those
of `entry`, and initialising locks of `reinit`; at the start every lock is
initialised and every thread outside. -/
def progMachine : Machine (ProgSys τ ι κ Ans) (ProgAct τ ι κ Ans) where
  init s := s = ⟨lockBoot, fun _ => []⟩
  step := progStep body entry reinit

end Steps

section Inversion

variable [DecidableEq τ] [DecidableEq ι] {body : κ → Prog ι κ Ans} {entry : κ → Bool}
  {reinit : ι → Bool} {s s' : ProgSys τ ι κ Ans} {t : τ}

theorem progStep_call {f : κ} (hs : progStep body entry reinit s (.call t f) = some s') :
    entry f = true ∧ s.Idle t ∧ s' = s.next t [body f] s.locks := by
  obtain ⟨hc, rfl⟩ := of_guard hs
  exact ⟨hc.1, hc.2, rfl⟩

theorem progStep_init {l : ι} (hs : progStep body entry reinit s (.init t l) = some s') :
    reinit l = true ∧ s.Idle t ∧ ∃ locks, lockStep s.locks (.init l) = some locks ∧
      s' = s.next t (s.stack t) locks := by
  simp only [progStep] at hs
  split at hs
  · next hc =>
    obtain ⟨locks, hinit, heq⟩ := map_eq_some_iff.mp hs
    exact ⟨hc.1, hc.2, locks, hinit, heq.symm⟩
  · contradiction

end Inversion

/-! ## what a thread holds -/

/-- `t` has called `lock_acquire` on `l` and not yet `lock_release`. -/
def LockSys.Held (s : LockSys τ ι) (t : τ) (l : ι) : Prop :=
  ((s.lock l).holder = some t ∧ s.pc t ≠ .unlink l ∧ s.pc t ≠ .clear l) ∨
    s.pc t = .link l ∨ s.pc t = .down l ∨ s.pc t = .waiting l ∨ s.pc t = .own l

section Held

variable [DecidableEq τ] [DecidableEq ι] {s s' : LockSys τ ι} {t t' : τ} {l l' : ι}

omit [DecidableEq τ] [DecidableEq ι] in
/-- Outside the two calls, a thread holds the locks it is the holder of. -/
theorem held_iff_of_outside (hpc : s.pc t = .outside) :
    s.Held t l ↔ (s.lock l).holder = some t := by
  simp [Held, hpc]

theorem held_lockMove (hi : LockInv s l) (hw : WaitersInv s) (hm : LockMove s t s') :
    s'.Held t' l ↔ s.Held t' l := by
  obtain ⟨h1, h2, h3, h4, h5, h6, h7, h8⟩ := hi
  cases hm with
  | @up l₁ hpc =>
    cases hq : (s.lock l₁).semaphore.waiters with
    | nil =>
      simp only [Held, setPc, setLock, wake, semaUp, hq,
        update_apply]
      grind
    | cons w ws =>
      have hwait : s.pc w = .waiting l₁ := hw.waiting (by simp [hq])
      simp only [Held, setPc, setLock, wake, semaUp, hq,
        update_apply]
      grind
  | _ =>
    simp only [Held, setPc, setLock, setDepth,
      update_apply]
    grind

theorem held_acquire (hs : lockStep s (.acquire t l') = some s') :
    s'.Held t' l ↔ s.Held t' l ∨ t' = t ∧ l = l' := by
  obtain ⟨-, hpc, rfl⟩ := lockStep_acquire hs
  unfold lockAcquire
  split
  · next hh =>
    simp only [Held, setDepth]
    grind
  · simp only [Held, setPc, update_apply]
    grind

theorem held_release (hs : lockStep s (.release t l') = some s') :
    s'.Held t' l ↔ s.Held t' l ∧ ¬ (t' = t ∧ l = l') := by
  obtain ⟨-, hpc, hh, rfl⟩ := lockStep_release hs
  simp only [Held, setPc, setDepth, update_apply]
  grind

theorem held_init (hu : l = l' → s.Unused l) (hs : lockStep s (.init l') = some s') :
    s'.Held t' l ↔ s.Held t' l := by
  cases hs
  by_cases hl : l = l'
  · subst hl
    have hne : (s.lock l).holder ≠ some t' := fun hh => (hu rfl t').1 (.inr (.inl hh))
    simp [Held, setLock, lockInit, hne]
  · simp [Held, setLock, hl]

end Held

/-! ## every permitted step keeps the brackets -/

/-- The steps that a specification permits: only permitted procedures are
called, and a tracked lock is initialised only while it is not in use. -/
def permits [DecidableEq ι] (S : Spec ι κ) (s : ProgSys τ ι κ Ans) : ProgAct τ ι κ Ans → Prop
  | .call _ _ => True
  | .run t _ => ∀ f, s.calls t = some f → S.allowed f
  | .init _ l => S.tracked l = true → s.locks.Unused l

/-- What the rules say a thread holds is what the locks record. -/
structure ProgInv [DecidableEq ι] (S : Spec ι κ) (s : ProgSys τ ι κ Ans) : Prop where
  inv : ∀ l, S.tracked l = true → LockInv s.locks l
  waiters : WaitersInv s.locks
  plan : ∀ t, ∃ hs : List ι, hs.Nodup ∧
    (∀ l, l ∈ hs ↔ S.tracked l = true ∧ s.locks.Held t l) ∧ safe S (s.stack t) hs
  dead : ∀ t, s.locks.live t = false → s.stack t = [] ∧ s.locks.pc t = .outside

section Brackets

variable [DecidableEq ι] {S : Spec ι κ} {s s' : ProgSys τ ι κ Ans} {t : τ} {l : ι}

/-- A tracked lock that is about to be released is recorded as held by the
caller. -/
theorem ProgInv.holder_of_releases (h : ProgInv S s) (hl : S.tracked l = true)
    (hrel : s.releases t = some l) : (s.locks.lock l).holder = some t := by
  unfold releases at hrel
  split at hrel
  · next hpc =>
    split at hrel
    · next l' k ps hstack =>
      obtain rfl : l' = l := some.inj hrel
      obtain ⟨hs, -, hmem, hsafe⟩ := h.plan t
      rw [hstack] at hsafe
      simp only [safe, wp, hl, if_true] at hsafe
      exact (held_iff_of_outside hpc).mp ((hmem l').mp hsafe.1).2
    · contradiction
  · contradiction

theorem ProgInv.not_held_of_nil (h : ProgInv S s) (hl : S.tracked l = true)
    (hstack : s.stack t = []) : ¬ s.locks.Held t l := by
  obtain ⟨hs, -, hmem, hsafe⟩ := h.plan t
  rw [hstack] at hsafe
  intro hheld
  have hin := (hmem l).mpr ⟨hl, hheld⟩
  rw [show hs = [] from hsafe] at hin
  contradiction

theorem ProgInv.live_of_holder (h : ProgInv S s) (hl : S.tracked l = true)
    (hh : (s.locks.lock l).holder = some t) : s.locks.live t = true := by
  cases hlive : s.locks.live t with
  | true => rfl
  | false =>
    obtain ⟨hstack, hpc⟩ := h.dead t hlive
    exact absurd ((held_iff_of_outside hpc).mpr hh) (h.not_held_of_nil hl hstack)

theorem progInv_boot : ProgInv S (⟨lockBoot, fun _ => []⟩ : ProgSys τ ι κ Ans) where
  inv _ _ := lockInv_boot
  waiters := waitersInv_boot
  plan t := ⟨[], List.nodup_nil, fun l => by simp [Held, lockBoot, lockInit], rfl⟩
  dead t ht := by simp [lockBoot] at ht

variable [DecidableEq τ] {ps : List (Prog ι κ Ans)}

/-- A step that leaves the locks alone only has to keep the caller's stack
safe. -/
theorem ProgInv.next_same (h : ProgInv S s) (hlive : s.locks.live t = true)
    (hps : ∀ hs, safe S (s.stack t) hs → safe S ps hs) :
    ProgInv S (s.next t ps s.locks) where
  inv := h.inv
  waiters := h.waiters
  plan t' := by
    obtain ⟨hs, hnd, hmem, hsafe⟩ := h.plan t'
    refine ⟨hs, hnd, hmem, ?_⟩
    by_cases ht : t' = t
    · subst ht
      simpa [next] using hps hs hsafe
    · simpa [next, ht] using hsafe
  dead t' ht' := by
    have hne : t' ≠ t := by
      rintro rfl
      exact absurd (hlive.symm.trans ht') nofun
    simpa [next, hne] using h.dead t' ht'

/-- A lock step of `t` only has to keep the other threads' locks and leave `t`
with a plan for what it then holds. -/
theorem ProgInv.next_locks {a : LockAct τ ι} {locks : LockSys τ ι} (h : ProgInv S s)
    (hs : lockStep s.locks a = some locks) (ha : ∀ t', a ≠ .exit t')
    (hthread : ∀ t', a.thread = some t' → t' = t) (hlive : s.locks.live t = true)
    (hunused : ∀ l, S.tracked l = true → InitUnused l s.locks a)
    (hother : ∀ t' l, t' ≠ t → S.tracked l = true → (locks.Held t' l ↔ s.locks.Held t' l))
    (hself : ∃ hs : List ι, hs.Nodup ∧
      (∀ l, l ∈ hs ↔ S.tracked l = true ∧ locks.Held t l) ∧ safe S ps hs) :
    ProgInv S (s.next t ps locks) where
  inv l hl := (h.inv l hl).step h.waiters (hunused l hl) hs
  waiters := h.waiters.step hs
  plan t' := by
    by_cases ht : t' = t
    · subst ht
      simpa [next] using hself
    · obtain ⟨hs', hnd, hmem, hsafe⟩ := h.plan t'
      refine ⟨hs', hnd, fun l => ?_, by simpa [next, ht] using hsafe⟩
      rw [hmem]
      exact and_congr_right fun hl => (hother t' l ht hl).symm
  dead t' ht' := by
    have hlive' : s.locks.live t' = false := live_lockStep hs ha ▸ ht'
    have hne : t' ≠ t := by
      rintro rfl
      exact absurd (hlive.symm.trans hlive') nofun
    obtain ⟨hstack, hpc⟩ := h.dead t' hlive'
    refine ⟨by simpa [next, hne] using hstack, ?_⟩
    exact outside_lockStep h.waiters hs (fun heq => hne (hthread t' heq)) hpc

variable {body : κ → Prog ι κ Ans} {entry : κ → Bool} {reinit : ι → Bool}

/-- The operations of a program keep the brackets. -/
theorem ProgInv.progRun (h : ProgInv S s) (hS : S.Sound body) {answer : ∀ q, Ans q}
    (hC : permits S s (.run t answer)) (hpc : s.locks.pc t = .outside)
    (hs : progRun body s t answer = some s') : ProgInv S s' := by
  have hlive : s.stack t ≠ [] → s.locks.live t = true := fun hne => by
    cases hl : s.locks.live t with
    | true => rfl
    | false => exact absurd (h.dead t hl).1 hne
  obtain ⟨hs₀, hnd, hmem, hsafe⟩ := h.plan t
  unfold Pintos.progRun at hs
  split at hs
  · contradiction
  · contradiction
  · next ps hstack =>
    rw [← some.inj hs]
    refine h.next_same (hlive (by simp [hstack])) fun hs₁ hsafe₁ => ?_
    rwa [hstack] at hsafe₁
  · next ps hstack =>
    obtain ⟨locks, hexit, rfl⟩ := map_eq_some_iff.mp hs
    obtain ⟨-, -, rfl⟩ := lockStep_exit hexit
    rw [hstack] at hsafe
    have hnil : hs₀ = [] := hsafe
    refine ⟨fun l hl => (h.inv l hl).congr rfl rfl, ⟨h.waiters.waiting, h.waiters.nodup⟩,
      fun t' => ?_, fun t' ht' => ?_⟩
    · obtain ⟨hs', hnd', hmem', hsafe'⟩ := h.plan t'
      by_cases ht : t' = t
      · subst ht
        exact ⟨hs₀, hnd, hmem, by simpa [next, safe] using hnil⟩
      · exact ⟨hs', hnd', hmem', by simpa [next, ht] using hsafe'⟩
    · by_cases ht : t' = t
      · subst ht
        exact ⟨by simp [next], hpc⟩
      · have hdead := h.dead t' (by simpa [next, ht] using ht')
        exact ⟨by simpa [next, ht] using hdead.1, hdead.2⟩
  · next l k ps hstack =>
    obtain ⟨locks, hacq, rfl⟩ := map_eq_some_iff.mp hs
    rw [hstack] at hsafe
    refine h.next_locks hacq (by simp) (by simp [LockAct.thread]) (hlive (by simp [hstack]))
      (fun l' _ => nofun) (fun t' l' ht _ => ?_) ?_
    · rw [held_acquire hacq]
      simp [ht]
    · simp only [safe, wp] at hsafe
      split at hsafe
      · next hl =>
        refine ⟨l :: hs₀, List.nodup_cons.mpr ⟨hsafe.1, hnd⟩, fun l' => ?_, hsafe.2⟩
        rw [held_acquire hacq, List.mem_cons, hmem]
        grind
      · next hl =>
        refine ⟨hs₀, hnd, fun l' => ?_, hsafe⟩
        rw [held_acquire hacq, hmem]
        grind
  · next l k ps hstack =>
    obtain ⟨locks, hrel, rfl⟩ := map_eq_some_iff.mp hs
    rw [hstack] at hsafe
    refine h.next_locks hrel (by simp) (by simp [LockAct.thread]) (hlive (by simp [hstack]))
      (fun l' _ => nofun) (fun t' l' ht _ => ?_) ?_
    · rw [held_release hrel]
      simp [ht]
    · simp only [safe, wp] at hsafe
      split at hsafe
      · next hl =>
        refine ⟨hs₀.erase l, hnd.erase l, fun l' => ?_, hsafe.2⟩
        rw [held_release hrel, hnd.mem_erase_iff, hmem]
        grind
      · next hl =>
        refine ⟨hs₀, hnd, fun l' => ?_, hsafe⟩
        rw [held_release hrel, hmem]
        grind
  · next f k ps hstack =>
    rw [← some.inj hs]
    refine h.next_same (hlive (by simp [hstack])) fun hs₁ hsafe₁ => ?_
    rw [hstack] at hsafe₁
    exact safe_call hS (hC f (by simp [calls, hpc, hstack])) hsafe₁
  · next q k ps hstack =>
    rw [← some.inj hs]
    refine h.next_same (hlive (by simp [hstack])) fun hs₁ hsafe₁ => ?_
    rw [hstack] at hsafe₁
    exact hsafe₁ (answer q)

/-- **Step lemma**: every permitted step of a sound system keeps the brackets. -/
theorem ProgInv.step (h : ProgInv S s) (hS : S.Sound body)
    (hentry : ∀ f, entry f = true → S.pre f []) {a : ProgAct τ ι κ Ans}
    (hC : permits S s a) (hs : progStep body entry reinit s a = some s') : ProgInv S s' := by
  cases a with
  | call t f =>
    obtain ⟨hf, hidle, rfl⟩ := progStep_call hs
    refine h.next_same hidle.1 fun hs₁ hsafe₁ => ?_
    rw [List.isEmpty_iff.mp hidle.2.2] at hsafe₁
    rw [show hs₁ = [] from hsafe₁]
    exact safe_entry hS (hentry f hf)
  | run t answer =>
    simp only [progStep] at hs
    split at hs
    · next hpc => exact h.progRun hS hC hpc hs
    · obtain ⟨locks, hrun, rfl⟩ := map_eq_some_iff.mp hs
      obtain ⟨hlive, hm⟩ := lockStep_run hrun
      refine h.next_locks hrun (by simp) (by simp [LockAct.thread]) hlive (fun l' _ => nofun)
        (fun t' l _ hl => held_lockMove (h.inv l hl) h.waiters hm) ?_
      obtain ⟨hs₀, hnd, hmem, hsafe⟩ := h.plan t
      refine ⟨hs₀, hnd, fun l => ?_, hsafe⟩
      rw [hmem]
      exact and_congr_right fun hl => (held_lockMove (h.inv l hl) h.waiters hm).symm
  | init t l =>
    obtain ⟨-, hidle, locks, hinit, rfl⟩ := progStep_init hs
    have hunused : ∀ l', S.tracked l' = true → l' = l → s.locks.Unused l' := by
      rintro l' hl' rfl
      exact hC hl'
    have hheld : ∀ t' l', S.tracked l' = true →
        (locks.Held t' l' ↔ s.locks.Held t' l') := fun t' l' hl' =>
      held_init (hunused l' hl') hinit
    refine h.next_locks hinit (by simp) (by simp [LockAct.thread]) hidle.1
      (fun l' hl' ha => hunused l' hl' (by simpa using ha.symm))
      (fun t' l' _ hl' => hheld t' l' hl') ?_
    obtain ⟨hs₀, hnd, hmem, hsafe⟩ := h.plan t
    refine ⟨hs₀, hnd, fun l' => ?_, hsafe⟩
    rw [hmem]
    exact and_congr_right fun hl' => (hheld t l' hl').symm

/-- **Run lemma**: the brackets hold in every permitted run of a sound system. -/
theorem progInv_of_reachIn (hS : S.Sound body) (hentry : ∀ f, entry f = true → S.pre f [])
    (h : (progMachine body entry reinit).ReachIn (permits S) s) : ProgInv S s :=
  h.invariant (fun _ h0 => h0 ▸ progInv_boot) fun _ _ _ hi hC hs => hi.step hS hentry hC hs

end Brackets

end Pintos
