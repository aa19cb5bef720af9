import Pintos.Threads.Lock

/-!
# Pintos.Threads.Condition

Condition variables (`threads/synch.c`, `struct condition`) under any interleaving of any number
of threads, which may also use the lock of the condition and other locks.

Interrupts stay on, so each statement is a step of its own:

```
cond_wait:       ASSERT, sema_init; list_push_back; lock_release; sema_down; lock_acquire
cond_signal:     ASSERT, list_empty, list_pop_front; sema_up
cond_broadcast:  list_empty; cond_signal; ...
```

The calls of `lock_release` and `lock_acquire` are those of `Pintos.Threads.Lock`, statement by
statement, and `sema_down` is one step for each pass of its loop.  Every waiting thread has a
semaphore of its own, on its stack; an element of `waiters` is named by its thread.
-/

namespace Pintos

open Function

variable {τ ι : Type*}

/-- The functions of a condition. -/
inductive CondFn
  | wait
  | signal
  | broadcast
deriving DecidableEq

/-- History of a call: the function, and what it found when it was called. -/
structure CondCall (τ : Type*) where
  fn : CondFn
  waiters : List τ
  since : τ → Nat
  released : τ → Nat

/-- The statement a thread is about to execute. -/
inductive CondPc (τ : Type*)
  | outside
  | init
  | push
  | release
  /-- a pass of `sema_down`, when `lock_release` has returned -/
  | down
  /-- blocked in `sema_down` -/
  | asleep
  | acquire
  /-- `cond_wait` returns when `lock_acquire` has returned -/
  | done
  /-- the test of the loop of `cond_broadcast` -/
  | test
  | pop
  | up (t : τ)
deriving DecidableEq

/-- A condition, its threads and all locks.  The last four fields are history: how many calls
of `cond_wait` there have been, when each waiting thread came, how often each thread has been
released by `sema_up`, and the last call of each thread. -/
structure CondSys (τ ι : Type*) where
  locks : LockSys τ ι
  waiters : List τ
  sema : τ → Semaphore τ
  pc : τ → CondPc τ
  clock : Nat
  since : τ → Nat
  released : τ → Nat
  call : τ → CondCall τ

/-- A call of a function of locks or the exit of a thread, a call of a function of the
condition, or the next statement of the call a thread is in. -/
inductive CondAct (τ ι : Type*)
  | lock (a : LockAct τ ι)
  | call (t : τ) (fn : CondFn)
  | run (t : τ)

namespace CondSys

variable [DecidableEq τ]

def setPc (s : CondSys τ ι) (t : τ) (pc : CondPc τ) : CondSys τ ι :=
  { s with pc := update s.pc t pc }

theorem setPc_self (s : CondSys τ ι) (t : τ) (pc : CondPc τ) : (s.setPc t pc).pc t = pc :=
  update_self ..

def setSema (s : CondSys τ ι) (t : τ) (sema : Semaphore τ) : CondSys τ ι :=
  { s with sema := update s.sema t sema }

/-- `thread_unblock` of the thread `sema_up` popped: it re-tests. -/
def wake (s : CondSys τ ι) : Option τ → CondSys τ ι
  | none => s
  | some t => s.setPc t .down

end CondSys

section Steps

variable [DecidableEq τ] [DecidableEq ι]

/-- The first statement of a function. -/
def CondFn.start : CondFn → CondPc τ
  | .wait => .init
  | .signal => .pop
  | .broadcast => .test

/-- The call of a function. -/
def condCall (s : CondSys τ ι) (t : τ) (fn : CondFn) : CondSys τ ι :=
  { s with
    pc := update s.pc t fn.start
    call := update s.call t ⟨fn, s.waiters, s.since, s.released⟩ }

/-- Where `cond_signal` returns to. -/
def CondSys.back (s : CondSys τ ι) (t : τ) : CondPc τ :=
  if (s.call t).fn = .broadcast then .test else .outside

/-- The next statement of the call that `t` is in; `none` is a kernel panic, or that the
thread is blocked. -/
def condRun (l : ι) (s : CondSys τ ι) (t : τ) : Option (CondSys τ ι) :=
  match s.pc t with
  | .outside | .asleep => none
  | .init =>
    if (s.locks.lock l).holder = some t then
      some ((s.setSema t (semaInit 0)).setPc t .push)
    else
      none
  | .push =>
    some (({ s with
      waiters := s.waiters ++ [t]
      clock := s.clock + 1
      since := update s.since t s.clock }).setPc t .release)
  | .release => (lockRelease s.locks t l).map fun locks => ({ s with locks }).setPc t .down
  | .down =>
    let pass := semaDownPass (s.sema t) t
    some ((s.setSema t pass.1).setPc t (if pass.2 then .acquire else .asleep))
  | .acquire => some (({ s with locks := lockAcquire s.locks t l }).setPc t .done)
  | .done => some (s.setPc t .outside)
  | .test => some (s.setPc t (if s.waiters = [] then .outside else .pop))
  | .pop =>
    if (s.locks.lock l).holder = some t then
      match s.waiters with
      | [] => some (s.setPc t (s.back t))
      | w :: ws => some (({ s with waiters := ws }).setPc t (.up w))
    else
      none
  | .up w =>
    let up := semaUp (s.sema w)
    some (((({ s with released := update s.released w (s.released w + 1) }).setSema w
      up.1).wake up.2).setPc t (s.back t))

/-- What a thread outside of the functions of the condition does with locks; the lock of the
condition has been initialised. -/
def CondSys.MayLock (l : ι) (s : CondSys τ ι) : LockAct τ ι → Prop
  | .acquire t _ | .release t _ | .exit t => s.pc t = .outside
  | .run _ => False
  | .init l' => l' ≠ l

instance (l : ι) (s : CondSys τ ι) (a : LockAct τ ι) : Decidable (s.MayLock l a) := by
  cases a <;> unfold CondSys.MayLock <;> infer_instance

/-- The step function.  The functions of the condition are called with its lock held. -/
def condStep (l : ι) (s : CondSys τ ι) : CondAct τ ι → Option (CondSys τ ι)
  | .lock a =>
    if s.MayLock l a then (lockStep s.locks a).map fun locks => { s with locks } else none
  | .call t fn =>
    if s.locks.live t ∧ s.locks.pc t = .outside ∧ s.pc t = .outside ∧
        (s.locks.lock l).holder = some t then
      some (condCall s t fn)
    else
      none
  | .run t =>
    if s.locks.live t then
      if s.locks.pc t = .outside then
        condRun l s t
      else
        (lockStep s.locks (.run t)).map fun locks => { s with locks }
    else
      none

/-- `cond_init`, with all locks initialised and no call in progress. -/
def condBoot : CondSys τ ι where
  locks := lockBoot
  waiters := []
  sema _ := semaInit 0
  pc _ := .outside
  clock := 0
  since _ := 0
  released _ := 0
  call _ := ⟨.wait, [], fun _ => 0, fun _ => 0⟩

/-- A condition with the lock `l` under any interleaving. -/
def condMachine (l : ι) : Machine (CondSys τ ι) (CondAct τ ι) where
  init s := s = condBoot
  step := condStep l

end Steps

end Pintos
