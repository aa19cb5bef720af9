import Pintos.Lib.Except

/-!
# Pintos.Userprog.WaitLevel

The interrupt level in `process_wait` (`userprog/process.c`), through the `sema_down` of
`threads/synch.c` and the switches to other threads in it.

`sema_down` restores the level at which it is called, which is that of the `intr_disable` in
`process_wait`; a call that finds the child then returns without restoring its own.
-/

namespace Pintos.WaitLevel

/-- `enum intr_level`. -/
inductive IntrLevel
  | off
  | on
deriving DecidableEq

/-- Why a call does not return. -/
inductive NoReturn
  | panic
  | asleep

/-- A return from `thread_block`: the level at which the thread that switches back has called
`schedule`, and the value of the semaphore then. -/
structure Wake where
  level : IntrLevel
  value : Nat

/-- `struct child`, with the value of `child_sema` and the wake-ups that are to come. -/
structure Child where
  tid : Int
  exitStatus : Int
  value : Nat
  wakes : List Wake

/-- `thread_block`.  `schedule` asserts that interrupts are off, in both threads. -/
def threadBlock (level : IntrLevel) (wake : Wake) : Except NoReturn IntrLevel :=
  if level = .off ∧ wake.level = .off then .ok wake.level else .error .panic

/-- The loop of `sema_down`. -/
def semaLoop : Nat → List Wake → IntrLevel → Except NoReturn IntrLevel
  | 0, [], _ => .error .asleep
  | 0, wake :: wakes, level => do semaLoop wake.value wakes (← threadBlock level wake)
  | _ + 1, _, level => .ok level

/-- `sema_down`: the level after it. -/
def semaDown (child : Child) (oldLevel : IntrLevel) : Except NoReturn IntrLevel := do
  let _ ← semaLoop child.value child.wakes .off
  return oldLevel

/-- The loop of `process_wait`, with what is left of `child_list`. -/
def waitLoop (childTid : Int) (oldLevel : IntrLevel) :
    List Child → IntrLevel → Except NoReturn (Int × IntrLevel)
  | [], _ => .ok (-1, oldLevel)
  | child :: children, level =>
    if child.tid = childTid then do
      let level ← semaDown child level
      return (child.exitStatus, level)
    else
      waitLoop childTid oldLevel children level

/-- `process_wait`: what it returns, and the level then. -/
def processWait (children : List Child) (childTid : Int) (level : IntrLevel) :
    Except NoReturn (Int × IntrLevel) :=
  waitLoop childTid level children .off

theorem waitLoop_level {children : List Child} {childTid : Int} {oldLevel level : IntrLevel}
    {r : Int × IntrLevel} (hrun : waitLoop childTid oldLevel children level = .ok r) :
    r.2 = if ∃ child ∈ children, child.tid = childTid then level else oldLevel := by
  induction children with
  | nil =>
    cases hrun
    simp
  | cons child children ih =>
    unfold waitLoop at hrun
    split at hrun
    next htid =>
      obtain ⟨level', hdown, heq⟩ := bind_eq_ok hrun
      obtain ⟨_, -, hlevel⟩ := bind_eq_ok hdown
      cases hlevel
      cases heq
      simp [htid]
    next htid => simp [ih hrun, htid]

/-- **`process_wait` returns at the level at which it was called exactly when** that is with
interrupts off, or the child is not in the list. -/
theorem processWait_level_iff {children : List Child} {childTid : Int} {level : IntrLevel}
    {r : Int × IntrLevel} (hrun : processWait children childTid level = .ok r) :
    r.2 = level ↔ level = .off ∨ ∀ child ∈ children, child.tid ≠ childTid := by
  rw [waitLoop_level hrun]
  by_cases hmem : ∃ child ∈ children, child.tid = childTid
  · obtain ⟨child, hchild, htid⟩ := hmem
    have hnot : ¬ ∀ child ∈ children, child.tid ≠ childTid := fun h => h child hchild htid
    rw [if_pos ⟨child, hchild, htid⟩, or_iff_left hnot, eq_comm]
  · rw [if_neg hmem]
    exact iff_of_true rfl (.inr fun child hchild htid => hmem ⟨child, hchild, htid⟩)

/-- A child that has not exited yet, and one that is not there. -/
theorem processWait_level_asleep :
    processWait [⟨4, 7, 0, [⟨.off, 1⟩]⟩] 4 .on = .ok (7, .off) ∧
      ((.off : IntrLevel) = .on ↔ (.on : IntrLevel) = .off ∨
        ∀ child ∈ [(⟨4, 7, 0, [⟨.off, 1⟩]⟩ : Child)], child.tid ≠ 4) :=
  ⟨rfl, processWait_level_iff (r := (7, .off)) rfl⟩

/-- The child has exited: interrupts were on and stay off. -/
theorem processWait_leaves_off :
    ∃ r, processWait [⟨4, 7, 1, []⟩] 4 .on = .ok r ∧ r.2 ≠ .on := ⟨(7, .off), rfl, nofun⟩

end Pintos.WaitLevel
