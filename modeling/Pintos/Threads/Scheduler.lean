import Pintos.Lib.Queues
import Pintos.Threads.Semaphore

/-!
# Pintos.Threads.Scheduler

The scheduler: `threads/thread.c`, `timer_sleep` and the timer interrupt of
`devices/timer.c`, the waiting of `devices/intq.c`, and the semaphores of
`threads/synch.c`, on one CPU.

Between `intr_disable` and the `intr_set_level` that ends it nothing can
interrupt, so such a section is one step.  Everywhere else the timer may
interrupt, which is an action of its own: it runs `timer_interrupt` and, at the
end of a time slice, the `thread_yield` of `intr_handler`.

The one `elem` of a thread serves `ready_list`, `blocked_list` and the waiters
lists of all semaphores.  The lists are sequences of threads here, which says
the same as the links as long as no `elem` is on two of them; a run is followed
up to the step that puts it there.

`timer_sleep` links the running thread into `blocked_list` with interrupts on.
A timer interrupt before it gets to `intr_disable` either pushes it on
`ready_list` too or unblocks it while it runs (`interrupted_sleep_breaks_lists`).
-/

namespace Pintos

open Function (update)

/-! ## the kernel's state -/

/-- A `struct thread *`. -/
abbrev Thread := Nat

/-- `initial_thread`. -/
def initialThread : Thread := 0

/-- `idle_thread`. -/
def idleThread : Thread := 1

/-- The semaphore of `tid_lock`. -/
def tidLock : Nat := 0

/-- `TIME_SLICE`. -/
def timeSlice : Nat := 4

/-- `enum thread_status`. -/
inductive ThreadStatus
  | running
  | ready
  | blocked
  | dying
deriving DecidableEq

/-- Where a thread is; `free` is outside the functions below.  `looping` says
that the thread has waited in `sema_down` and tests again, with interrupts off. -/
inductive ThreadPc
  | free
  | down (sema : Nat) (looping : Bool)
  | createDown (t : Thread) (looping : Bool)
  | createUp (t : Thread)
  | createUnblock (t : Thread)
  | sleepSet (estimate : Int)
  | sleepSearch
  | sleepInsert (before : Option Thread)
  | sleepBlock
  | idle
deriving DecidableEq

/-- The scheduler's state.  `status` and `blockedTicks` are fields of
`struct thread`, `none` for a page that holds no thread; `intrOn` is the
interrupt level at which a thread runs outside the sections with interrupts
off; `waiter` are the `struct thread *` of the interrupt queues.  `panic` is set
by `ASSERT (t->status == THREAD_BLOCKED)` in `thread_unblock`. -/
structure SchedSys where
  status : Thread → Option ThreadStatus
  blockedTicks : Thread → Int
  pc : Thread → ThreadPc
  intrOn : Thread → Bool
  cur : Thread
  readyList : List Thread
  blockedList : List Thread
  sema : Nat → Semaphore Thread
  waiter : Nat → Option Thread
  ticks : Int
  threadTicks : Nat
  panic : Bool

/-- A call made by the running thread, its next statement, or an interrupt: the
timer's, or a device's that ups a semaphore or signals an interrupt queue. -/
inductive SchedAct
  | create (t : Thread)
  | yield
  | semaDown (i : Nat)
  | semaTryDown (i : Nat)
  | semaUp (i : Nat)
  | sleep (ticks : Int)
  | wait (w : Nat)
  | signal (w : Nat)
  | exit
  | setLevel (on : Bool)
  | run
  | timer
  | intrSemaUp (i : Nat)
  | intrSignal (w : Nat)

def SchedSys.setPc (s : SchedSys) (pc : ThreadPc) : SchedSys :=
  { s with pc := update s.pc s.cur pc }

/-! ## switching threads -/

/-- `thread_schedule_tail`, on the new thread's stack: the page of a thread that
has exited is released. -/
def threadScheduleTail (s : SchedSys) (prev : Thread) : SchedSys :=
  let status := update s.status s.cur (some .running)
  { s with
    status :=
      if prev ≠ s.cur ∧ s.status prev = some .dying ∧ prev ≠ initialThread then
        update status prev none
      else
        status
    threadTicks := 0 }

/-- `schedule`, with `next_thread_to_run`. -/
def schedule (s : SchedSys) : SchedSys :=
  match s.readyList with
  | [] => threadScheduleTail { s with cur := idleThread } s.cur
  | t :: ts => threadScheduleTail { s with cur := t, readyList := ts } s.cur

/-- `thread_block`. -/
def threadBlock (s : SchedSys) : SchedSys :=
  schedule { s with status := update s.status s.cur (some .blocked) }

/-- `thread_unblock`. -/
def threadUnblock (s : SchedSys) (t : Thread) : SchedSys :=
  if s.status t = some .blocked then
    { s with
      readyList := s.readyList ++ [t]
      status := update s.status t (some .ready) }
  else
    { s with panic := true }

section

variable (s : SchedSys) (t : Thread)

@[simp] theorem threadUnblock_pc : (threadUnblock s t).pc = s.pc := by
  unfold threadUnblock; split <;> rfl

@[simp] theorem threadUnblock_cur : (threadUnblock s t).cur = s.cur := by
  unfold threadUnblock; split <;> rfl

@[simp] theorem threadUnblock_blockedList : (threadUnblock s t).blockedList = s.blockedList := by
  unfold threadUnblock; split <;> rfl

end

/-- `thread_yield`. -/
def threadYield (s : SchedSys) : SchedSys :=
  schedule { s with
    readyList := if s.cur = idleThread then s.readyList else s.readyList ++ [s.cur]
    status := update s.status s.cur (some .ready) }

/-- The last part of `thread_exit`. -/
def threadExit (s : SchedSys) : SchedSys :=
  schedule { s with status := update s.status s.cur (some .dying) }

/-- The first part of `thread_create`, which has got the page `t`. -/
def threadCreate (s : SchedSys) (t : Thread) : SchedSys :=
  { s with
    status := update s.status t (some .blocked)
    blockedTicks := update s.blockedTicks t 0
    pc := update (update s.pc t .free) s.cur (.createDown t false)
    intrOn := update s.intrOn t true }

/-! ## waiting -/

/-- A pass of `sema_down`; the thread goes on at `next` or has to test again at
`loop`. -/
def SchedSys.semaDown (s : SchedSys) (i : Nat) (next loop : ThreadPc) : SchedSys :=
  let pass := semaDownPass (s.sema i) s.cur
  if pass.2 then
    { s with sema := update s.sema i pass.1, pc := update s.pc s.cur next }
  else
    threadBlock { s with sema := update s.sema i pass.1, pc := update s.pc s.cur loop }

/-- `sema_up`. -/
def SchedSys.semaUp (s : SchedSys) (i : Nat) : SchedSys :=
  let up := Pintos.semaUp (s.sema i)
  let s := { s with sema := update s.sema i up.1 }
  up.2.elim s (threadUnblock s)

@[simp] theorem semaUp_pc (s : SchedSys) (i : Nat) : (s.semaUp i).pc = s.pc := by
  cases h : (s.sema i).waiters <;> simp [SchedSys.semaUp, semaUp_eq, h]

@[simp] theorem semaUp_cur (s : SchedSys) (i : Nat) : (s.semaUp i).cur = s.cur := by
  cases h : (s.sema i).waiters <;> simp [SchedSys.semaUp, semaUp_eq, h]

/-- `wait` of `intq.c`. -/
def intqWait (s : SchedSys) (w : Nat) : SchedSys :=
  threadBlock { s with waiter := update s.waiter w (some s.cur) }

/-- `signal` of `intq.c`. -/
def intqSignal (s : SchedSys) (w : Nat) : SchedSys :=
  match s.waiter w with
  | none => s
  | some t => { threadUnblock s t with waiter := update s.waiter w none }

/-! ## timer.c -/

/-- The search of `list_insert_ordered`: the first thread that wakes later. -/
def sleepPosition (s : SchedSys) : Option Thread :=
  s.blockedList.find? fun t => s.blockedTicks s.cur < s.blockedTicks t

/-- `list_insert` of `t` before an element, or before the list's end. -/
def insertBefore (before : Option Thread) (t : Thread) (l : List Thread) : List Thread :=
  match before with
  | none => l ++ [t]
  | some e => l.takeWhile (· ≠ e) ++ t :: l.dropWhile (· ≠ e)

/-- `repeated_check_blocked_list` on the rest of `blocked_list`. -/
def repeatedCheckBlockedList (s : SchedSys) : List Thread → SchedSys
  | [] => s
  | t :: ts =>
    if s.blockedTicks t ≤ s.ticks then
      let s := threadUnblock { s with blockedList := ts } t
      if s.panic then s else repeatedCheckBlockedList s ts
    else
      s

/-- `thread_tick`, and the `thread_yield` at the end of the interrupt that it
asks for. -/
def threadTick (s : SchedSys) : SchedSys :=
  let s := { s with threadTicks := s.threadTicks + 1 }
  if s.threadTicks ≥ timeSlice then threadYield s else s

/-- `timer_interrupt`. -/
def timerInterrupt (s : SchedSys) : SchedSys :=
  let s := repeatedCheckBlockedList { s with ticks := s.ticks + 1 } s.blockedList
  if s.panic then s else threadTick s

/-! ## the machine -/

/-- The next statement of the running thread.  A search whose result has been
taken off `blocked_list` since is not followed. -/
def schedRun (s : SchedSys) : Option SchedSys :=
  match s.pc s.cur with
  | .free => none
  | .down i _ => some (s.semaDown i .free (.down i true))
  | .createDown t _ => some (s.semaDown tidLock (.createUp t) (.createDown t true))
  | .createUp t => some ((s.semaUp tidLock).setPc (.createUnblock t))
  | .createUnblock t => some ((threadUnblock s t).setPc .free)
  | .sleepSet estimate =>
    some { s.setPc .sleepSearch with blockedTicks := update s.blockedTicks s.cur estimate }
  | .sleepSearch => some (s.setPc (.sleepInsert (sleepPosition s)))
  | .sleepInsert before =>
    if before.all (· ∈ s.blockedList) then
      some { s.setPc .sleepBlock with blockedList := insertBefore before s.cur s.blockedList }
    else
      none
  | .sleepBlock => some (threadBlock (s.setPc .free))
  | .idle => some (threadBlock s)

/-- Whether the CPU takes interrupts. -/
def SchedSys.intrEnabled (s : SchedSys) : Bool :=
  s.intrOn s.cur && match s.pc s.cur with
    | .down _ looping | .createDown _ looping => !looping
    | _ => true

/-- The step function; nothing happens after a panic. -/
def schedStep (s : SchedSys) (a : SchedAct) : Option SchedSys :=
  if s.panic then none else
  match a with
  | .create t => if s.pc s.cur = .free ∧ s.status t = none then some (threadCreate s t) else none
  | .yield => if s.pc s.cur = .free then some (threadYield s) else none
  | .semaDown i => if s.pc s.cur = .free then some (s.setPc (.down i false)) else none
  | .semaTryDown i =>
    if s.pc s.cur = .free then
      some { s with sema := update s.sema i (semaTryDown (s.sema i)).1 }
    else
      none
  | .semaUp i => if s.pc s.cur = .free then some (s.semaUp i) else none
  | .sleep n =>
    if s.pc s.cur = .free ∧ s.intrOn s.cur then some (s.setPc (.sleepSet (n + s.ticks))) else none
  | .wait w => if s.pc s.cur = .free ∧ ¬ s.intrOn s.cur then some (intqWait s w) else none
  | .signal w => if s.pc s.cur = .free ∧ ¬ s.intrOn s.cur then some (intqSignal s w) else none
  | .exit => if s.pc s.cur = .free then some (threadExit s) else none
  | .setLevel on =>
    if s.pc s.cur = .free then some { s with intrOn := update s.intrOn s.cur on } else none
  | .run => schedRun s
  | .timer => if s.intrEnabled then some (timerInterrupt s) else none
  | .intrSemaUp i => if s.intrEnabled then some (s.semaUp i) else none
  | .intrSignal w => if s.intrEnabled then some (intqSignal s w) else none

/-- `thread_start` has returned: the initial thread runs and the idle thread is
blocked.  `value` are the initial values of the semaphores. -/
def schedBoot (value : Nat → Nat) : SchedSys where
  status t := if t = initialThread then some .running else
    if t = idleThread then some .blocked else none
  blockedTicks _ := 0
  pc t := if t = idleThread then .idle else .free
  intrOn _ := true
  cur := initialThread
  readyList := []
  blockedList := []
  sema i := semaInit (value i)
  waiter _ := none
  ticks := 0
  threadTicks := 0
  panic := false

/-- The scheduler under any sequence of calls and interrupts. -/
def schedMachine (value : Nat → Nat) : Machine SchedSys SchedAct where
  init s := s = schedBoot value
  step := schedStep

/-! ## list discipline -/

/-- The lists that use the `elem` of `struct thread`. -/
inductive Queue
  | ready
  | blocked
  | waiters (i : Nat)
deriving DecidableEq

def SchedSys.queue (s : SchedSys) : Queue → List Thread
  | .ready => s.readyList
  | .blocked => s.blockedList
  | .waiters i => (s.sema i).waiters

/-- An `elem` is linked into at most one list, and once; the threads on
`ready_list` are those that are ready; and `thread_unblock` has been applied to
blocked threads only. -/
structure ListDiscipline (s : SchedSys) : Prop where
  nodup : ∀ q, (s.queue q).Nodup
  exclusive : ∀ t q q', t ∈ s.queue q → t ∈ s.queue q' → q = q'
  ready_iff : ∀ t, t ≠ idleThread → (t ∈ s.readyList ↔ s.status t = some .ready)
  unblock : s.panic = false

/-- In `timer_sleep`, from the start of `list_insert_ordered` to `intr_disable`. -/
def ThreadPc.inserting : ThreadPc → Bool
  | .sleepInsert _ | .sleepBlock => true
  | _ => false

/-- The timer does not interrupt a thread that is putting itself on
`blocked_list`. -/
def TimerOutside (s : SchedSys) : SchedAct → Prop
  | .timer => (s.pc s.cur).inserting = false
  | _ => True

instance (s : SchedSys) (a : SchedAct) : Decidable (TimerOutside s a) := by
  cases a <;> unfold TimerOutside <;> infer_instance

/-- The running thread calls `timer_sleep` and gets to the point before
`intr_disable`. -/
def goToSleep (n : Int) : List SchedAct := [.sleep n, .run, .run, .run]

/-- The initial thread creates thread `2` and goes to sleep; its time slice ends
before `intr_disable`. -/
def preemptedSleepRun : List SchedAct :=
  [.create 2, .run, .run, .run] ++ goToSleep 9 ++ [.timer, .timer, .timer, .timer]

/-- The initial thread goes to sleep for one tick, and the tick comes before
`intr_disable`. -/
def shortSleepRun : List SchedAct := goToSleep 1 ++ [.timer]

/-- The initial thread is on `ready_list` and on `blocked_list`; the running
thread is unblocked. -/
theorem interrupted_sleep_breaks_lists :
    (∃ s : SchedSys, (schedMachine fun _ => 1).runFrom (schedBoot fun _ => 1) preemptedSleepRun =
      some s ∧ (schedMachine fun _ => 1).Reach s ∧ ¬ ListDiscipline s) ∧
    ∃ s : SchedSys, (schedMachine fun _ => 1).runFrom (schedBoot fun _ => 1) shortSleepRun =
      some s ∧ (schedMachine fun _ => 1).Reach s ∧ ¬ ListDiscipline s := by
  constructor
  · obtain ⟨s, hrun, hs, hready, hblocked⟩ := Machine.exists_reach_of_runFrom
      (m := schedMachine fun _ => 1) rfl preemptedSleepRun
      (fun s => initialThread ∈ s.readyList ∧ initialThread ∈ s.blockedList) (by decide +kernel)
    exact ⟨s, hrun, hs, fun h => absurd (h.exclusive initialThread .ready .blocked hready hblocked)
      nofun⟩
  · obtain ⟨s, hrun, hs, hp⟩ := Machine.exists_reach_of_runFrom (m := schedMachine fun _ => 1) rfl
      shortSleepRun (fun s => s.panic = true) (by decide +kernel)
    refine ⟨s, hrun, hs, fun h => ?_⟩
    have hpanic := h.unblock
    rw [hp] at hpanic
    contradiction

end Pintos
