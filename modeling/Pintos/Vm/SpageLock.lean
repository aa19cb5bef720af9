import Pintos.Userprog.Exception

/-!
# Pintos.Vm.SpageLock

`spage_init` (`vm/page.c`) runs in every process that starts and initialises
the one global `spage_lock`.

A process that starts while another is inside `create_spage`, `lookup_spage`
or `spage_destroy` clears the holder under its feet, so its `lock_release`
fails the assertion, and empties the waiters list (`start_in_section_breaks_lock`).
When every process starts while the others are outside the paging code, no
lock in use is ever initialised (`spage_lock_safe_of_start_outside`).
-/

namespace Pintos

open Bracket

variable {τ : Type*} {s s' : VmSys τ} {t : τ}

/-- Every `lock_release (&spage_lock)` finds the caller recorded as holder, and
every thread that waits for the lock is on its waiters list. -/
structure SpageLockSafe (s : VmSys τ) : Prop where
  released : ∀ t, s.releases t = some .spage → (s.locks.lock .spage).holder = some t
  waiting : ∀ t, s.locks.pc t = .waiting .spage → t ∈ (s.locks.lock .spage).semaphore.waiters

/-- A process starts only while every process is outside the paging code. -/
def StartOutside (s : VmSys τ) : VmAct τ → Prop
  | .init _ _ => ∀ t, s.locks.pc t = .outside ∧ (s.stack t).isEmpty = true
  | _ => True

instance [Fintype τ] (s : VmSys τ) (a : VmAct τ) : Decidable (StartOutside s a) := by
  rcases a with ⟨⟩ <;> unfold StartOutside <;> infer_instance

/-! ## starting inside another process's section -/

/-- Process `0` is inside `create_spage`, process `1` waits in `lookup_spage`. -/
def sectionRun : List (VmAct Nat) :=
  [.call 0 (.createSpage false false)] ++ List.replicate 5 (.run 0 quiet) ++
    [.call 1 (.lookupSpage 0x08048000)] ++ List.replicate 3 (.run 1 quiet)

/-- The start of process `2` initialises the lock that process `0` holds and
process `1` waits for.  Afterwards the release of process `0` does not find it
recorded as holder, and process `1` waits on no list. -/
theorem start_in_section_breaks_lock :
    ∃ s s' : VmSys Nat, vmMachine.runFrom vmBoot sectionRun = some s ∧ vmMachine.Reach s ∧
      (s.locks.lock .spage).holder = some 0 ∧ s.locks.pc 1 = .waiting .spage ∧
      vmMachine.step s (.init 2 .spage) = some s' ∧
      (¬ ∀ t, s'.releases t = some .spage → (s'.locks.lock .spage).holder = some t) ∧
      (¬ ∀ t, s'.locks.pc t = .waiting .spage →
        t ∈ (s'.locks.lock .spage).semaphore.waiters) := by
  obtain ⟨s, hrun, hs, hh, hpc, hstep⟩ := Machine.exists_reach_of_runFrom (m := vmMachine) rfl
    sectionRun (fun s => (s.locks.lock .spage).holder = some 0 ∧ s.locks.pc 1 = .waiting .spage ∧
      (vmMachine.step s (.init 2 .spage)).map (fun s' =>
      decide (s'.releases 0 = some .spage ∧ (s'.locks.lock .spage).holder = none ∧
      s'.locks.pc 1 = .waiting .spage ∧ (s'.locks.lock .spage).semaphore.waiters = [])) = some true)
    (by decide +kernel)
  obtain ⟨s', hs', hp'⟩ := Option.map_eq_some_iff.mp hstep
  obtain ⟨hrel, hnone, hpc', hempty⟩ := of_decide_eq_true hp'
  refine ⟨s, s', hrun, hs, hh, hpc, hs', fun hall => ?_, fun hall => ?_⟩
  · have hh' := hall 0 hrel
    cases hh'.symm.trans hnone
  · have hin := hall 1 hpc'
    rw [hempty] at hin
    contradiction

/-! ## starting while the others are outside -/

/-- With only `spage_lock` tracked, every fatal call is made with empty hands. -/
theorem fatalFree_spage : FatalFree (fun l => l == .spage) (fun _ => True) fun hs => hs = [] where
  fatal _ _ _ _ hP := hP
  nil := rfl
  push l hs hl hP := by simp [vmSpec, Spec.push, hl, hP]

variable [DecidableEq τ]

/-- The brackets of `spage_lock`. -/
def spageSpec : Spec VmLock VmProc := vmSpec (fun l => l == .spage) fun _ => True

omit [DecidableEq τ] in
/-- With every process outside, the lock is not in use. -/
theorem unused_of_outside (h : ProgInv spageSpec s)
    (hout : ∀ t, s.locks.pc t = .outside ∧ (s.stack t).isEmpty = true) : s.locks.Unused .spage := by
  intro t
  obtain ⟨hpc, hstack⟩ := hout t
  refine ⟨?_, by simp [hpc]⟩
  rintro (hown | hh | hup)
  · simp [hpc] at hown
  · exact h.not_held_of_nil rfl (List.isEmpty_iff.mp hstack)
      ((held_iff_of_outside hpc).mpr hh)
  · simp [hpc] at hup

/-- **Run lemma**: the brackets of `spage_lock` hold in every run in which
processes start while the others are outside. -/
theorem progInv_of_startOutside (h : vmMachine.ReachIn StartOutside s) : ProgInv spageSpec s := by
  refine h.invariant (fun _ h0 => h0 ▸ progInv_boot) fun s a s' hi hC hs => ?_
  have hs : progStep vmBody VmProc.entry VmLock.reinit s a = some s' := hs
  refine hi.step (vmBody_sound fatalFree_spage) (fun f hf => vmSpec_pre_of_entry hf) ?_ hs
  cases a with
  | call t f => trivial
  | run t answer => exact fun _ _ => trivial
  | init t l =>
    intro hl
    obtain rfl : l = .spage := beq_iff_eq.mp hl
    exact unused_of_outside hi hC

/-- **`spage_lock` is safe**: in every run in which processes start only while
the others are outside the paging code, no process start finds the lock held
or waited for, every release finds its caller recorded as holder, and no
waiter is dropped. -/
theorem spage_lock_safe_of_start_outside (s : VmSys τ) (h : vmMachine.ReachIn StartOutside s) :
    SpageLockSafe s ∧
      ∀ t s', StartOutside s (.init t .spage) → vmMachine.step s (.init t .spage) = some s' →
        s.locks.Unused .spage := by
  have hinv := progInv_of_startOutside h
  refine ⟨⟨fun t hrel => hinv.holder_of_releases rfl hrel, fun t hpc => ?_⟩, ?_⟩
  · exact (hinv.inv .spage rfl).waiting_iff.mpr hpc
  · exact fun t s' hout _ => unused_of_outside hinv hout

/-- Process `2` has started between two sections; process `1` now holds the
lock and process `0` waits for it. -/
theorem spage_lock_safe_of_start_outside_contended :
    ∃ s : VmSys (Fin 3), (s.locks.lock .spage).holder = some 1 ∧
      s.locks.pc 0 = .waiting .spage ∧ SpageLockSafe s := by
  obtain ⟨s, -, hs, hh, hpc⟩ := Machine.exists_reachIn_of_runIn (m := vmMachine (τ := Fin 3))
    (C := StartOutside) rfl ([.call 0 (.createSpage false false)] ++
      List.replicate 10 (.run 0 quiet) ++ [.init 2 .spage, .call 1 (.lookupSpage 0x08048000)] ++
      List.replicate 4 (.run 1 quiet) ++ [.call 0 (.spageDestroy 0x08048000)] ++
      List.replicate 3 (.run 0 quiet))
    (fun s => (s.locks.lock .spage).holder = some 1 ∧ s.locks.pc 0 = .waiting .spage)
    (by decide +kernel)
  exact ⟨s, hh, hpc, (spage_lock_safe_of_start_outside s hs).1⟩

end Pintos
