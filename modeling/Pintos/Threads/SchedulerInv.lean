import Pintos.Threads.Scheduler

/-!
# Pintos.Threads.SchedulerInv

Why the lists of the scheduler stay apart.  `Place` is the abstract picture:
every thread is at one place, and its place determines its status and the list
its `elem` is on.  `Placing` says that a state is described by such a picture;
one lemma for each section with interrupts off says how the picture changes, and
`SchedInv.step` puts them together.  When the timer stays out of the insertion
in `timer_sleep`, every state is described by a picture
(`list_discipline_of_timerOutside`).
-/

namespace Pintos

open List Option
open SchedSys (queue)
open Function (update update_self update_of_ne update_apply update_eq_self)

variable {s s' : SchedSys} {t u : Thread} {i w : Nat}

/-! ## places -/

/-- Where a thread is: on a list, `parked` in an interrupt queue, being created
by another thread, or in none of these.  `inserted` is the running thread when
it has put itself on `blocked_list`, `limbo` a blocked thread that is about to
be unblocked. -/
inductive Place
  | absent
  | running
  | inserted
  | ready
  | asleep
  | waiting (i : Nat)
  | parked (w : Nat)
  | newborn (creator : Thread)
  | limbo
  | dying
  | idle

namespace Place

/-- The list that the `elem` is on. -/
def queue : Place → Option Queue
  | .ready => some .ready
  | .asleep | .inserted => some .blocked
  | .waiting i => some (.waiters i)
  | _ => none

/-- The status, except for the idle thread. -/
@[grind]
def status : Place → Option ThreadStatus
  | .absent | .idle => none
  | .running | .inserted => some .running
  | .ready => some .ready
  | .asleep | .waiting _ | .parked _ | .newborn _ | .limbo => some .blocked
  | .dying => some .dying

theorem eq_dying {p : Place} (h : p.status = some .dying) : p = .dying := by
  cases p <;> simp [status] at h ⊢

theorem eq_ready {p : Place} (h : p.queue = some .ready) : p = .ready := by
  cases p <;> simp [queue] at h ⊢

theorem eq_waiting {p : Place} {i : Nat} (h : p.queue = some (.waiters i)) : p = .waiting i := by
  cases p <;> simp [queue] at h ⊢
  exact h

theorem eq_asleep_or_inserted {p : Place} (h : p.queue = some .blocked) :
    p = .asleep ∨ p = .inserted := by
  cases p <;> simp [queue] at h ⊢

theorem eq_absent {p : Place} (h : p.status = none) (hidle : p ≠ .idle) : p = .absent := by
  cases p <;> simp [status] at h hidle ⊢

theorem eq_running_or_inserted {p : Place} (h : p.status = some .running) :
    p = .running ∨ p = .inserted := by
  cases p <;> simp [status] at h ⊢

end Place

/-- The thread that a call of `thread_create` has not yet unblocked. -/
@[grind]
def ThreadPc.creating : ThreadPc → Option Thread
  | .createDown t _ | .createUp t | .createUnblock t => some t
  | _ => none

/-- The picture `place` describes the state. -/
@[grind cases eager]
structure Placing (place : Thread → Place) (s : SchedSys) : Prop where
  queues : Queues.Placed s.queue fun t => (place t).queue
  status : ∀ {t}, t ≠ idleThread → s.status t = (place t).status
  idle_iff : ∀ {t}, place t = .idle ↔ t = idleThread
  idle_live : s.status idleThread ≠ none ∧ s.status idleThread ≠ some .dying
  idle_pc : ∀ {t}, s.pc t = .idle ↔ t = idleThread
  waiter : ∀ {w t}, s.waiter w = some t → place t = .parked w
  newborn : ∀ {t u}, (s.pc t).creating = some u → place u = .newborn t
  inserted : ∀ {t}, s.pc t = .sleepBlock ↔ place t = .inserted
  calm : s.panic = false

/-- The running thread, which is the idle thread or at the place of a running
one; nobody else is. -/
def Current (place : Thread → Place) (s : SchedSys) : Prop :=
  ∀ t, (place t).status = some .running ↔ t = s.cur ∧ t ≠ idleThread

/-- **The invariant**: some picture describes the state. -/
def SchedInv (s : SchedSys) : Prop := ∃ place, Placing place s ∧ Current place s

variable {place : Thread → Place} {ts : List Thread} {old : ThreadPc}

theorem queue_update (place : Thread → Place) (t : Thread) (p : Place) :
    (fun u => (update place t p u).queue) = update (fun u => (place u).queue) t p.queue := by
  funext u
  rw [update_apply, update_apply]
  split <;> rfl

/-- The parts of the state that the picture does not speak of. -/
theorem Placing.frame (h : Placing place s) (hq : s'.queue = s.queue) (hs : s'.status = s.status)
    (hw : s'.waiter = s.waiter) (hpc : s'.pc = s.pc) (hp : s'.panic = s.panic) :
    Placing place s' where
  queues := by rw [hq]; exact h.queues
  status ht := by rw [hs]; exact h.status ht
  idle_iff := h.idle_iff
  idle_live := by rw [hs]; exact h.idle_live
  idle_pc := by rw [hpc]; exact h.idle_pc
  waiter := by rw [hw]; exact h.waiter
  newborn := by rw [hpc]; exact h.newborn
  inserted := by rw [hpc]; exact h.inserted
  calm := by rw [hp]; exact h.calm

theorem SchedInv.frame (h : SchedInv s) (hq : s'.queue = s.queue) (hs : s'.status = s.status)
    (hw : s'.waiter = s.waiter) (hpc : s'.pc = s.pc) (hp : s'.panic = s.panic)
    (hcur : s'.cur = s.cur) : SchedInv s' := by
  obtain ⟨place, h, hc⟩ := h
  exact ⟨place, h.frame hq hs hw hpc hp, fun t => by rw [hcur]; exact hc t⟩

theorem SchedInv.calm (h : SchedInv s) : s.panic = false := by
  obtain ⟨place, h, -⟩ := h
  exact h.calm

/-! ## the lists -/

theorem insertBefore_perm (before : Option Thread) (t : Thread) (l : List Thread) :
    (insertBefore before t l).Perm (t :: l) := by
  cases before with
  | none => exact perm_append_singleton t l
  | some e =>
    rw [insertBefore]
    refine perm_middle.trans (List.Perm.cons t ?_)
    rw [takeWhile_append_dropWhile]

section

variable (h : Placing place s)
include h

/-- Only the place of `t` changes, and neither is on a list. -/
theorem Placing.queues_off (ht : (place t).queue = none) {p : Place}
    (hp : p.queue = none) : Queues.Placed s.queue fun u => (update place t p u).queue := by
  have heq : update (fun u => (place u).queue) t p.queue = fun u => (place u).queue := by
    rw [hp, ← ht, update_eq_self]
  rw [queue_update, heq]
  exact h.queues

theorem Placing.queues_push (ht : (place t).queue = none) :
    Queues.Placed (queue { s with readyList := s.readyList ++ [t] })
      fun u => (update place t .ready u).queue := by
  rw [queue_update]
  refine h.queues.insert ht ?_ fun q hq => ?_
  · exact perm_append_singleton t s.readyList
  · cases q <;> first | contradiction | rfl

/-! ## switching threads -/

theorem Placing.release (ht : place t = .dying) :
    Placing (update place t .absent) { s with status := update s.status t none } := by
  have hq : Queues.Placed s.queue fun u => (update place t .absent u).queue :=
    h.queues_off (by rw [ht]; rfl) rfl
  constructor
  case queues => exact hq
  all_goals grind

theorem Placing.dispatch (ht : s.readyList = t :: ts) :
    Placing (update place t .running)
      { s with cur := t, readyList := ts, status := update s.status t (some .running) } := by
  have hplace : place t = .ready :=
    Place.eq_ready (h.queues.mem_iff.mp (show t ∈ s.readyList by simp [ht]))
  have hq : Queues.Placed (queue { s with readyList := ts })
      fun u => (update place t .running u).queue := by
    rw [queue_update]
    refine h.queues.pop (show s.queue .ready = t :: ts from ht) rfl fun q hq => ?_
    cases q <;> first | contradiction | rfl
  constructor
  case queues => exact hq
  all_goals grind

theorem Placing.dispatchIdle :
    Placing place
      { s with cur := idleThread, status := update s.status idleThread (some .running) } := by
  constructor
  case queues => exact h.queues
  all_goals grind

theorem Placing.scheduleTail (hc : Current place s) {status}
    (hs : s.status = update status s.cur (some .running)) (prev : Thread) :
    SchedInv (threadScheduleTail { s with status := status } prev) := by
  unfold threadScheduleTail
  by_cases hd : prev ≠ s.cur ∧ status prev = some .dying ∧ prev ≠ initialThread
  · simp only [if_pos hd, ← hs]
    have hstatus : s.status prev = some .dying := by
      rw [hs, update_of_ne hd.1, hd.2.1]
    have hidle : prev ≠ idleThread := fun he => h.idle_live.2 (he ▸ hstatus)
    have hplace : place prev = .dying := Place.eq_dying (h.status hidle ▸ hstatus)
    refine ⟨update place prev .absent, (h.release hplace).frame rfl rfl rfl rfl rfl, fun t => ?_⟩
    have hprev := hc prev
    rw [← hc t, update_apply]
    grind
  · simp only [if_neg hd, ← hs]
    exact ⟨place, h.frame rfl rfl rfl rfl rfl, hc⟩

/-- **Switch**: when the running thread has been put somewhere else, `schedule`
makes another one the running thread. -/
theorem Placing.schedule (hoff : ∀ t, (place t).status ≠ some .running) :
    SchedInv (schedule s) := by
  unfold Pintos.schedule
  split
  · next hr =>
    refine h.dispatchIdle.scheduleTail (fun t => ?_) rfl s.cur
    have ht := hoff t
    show (place t).status = some .running ↔ t = idleThread ∧ t ≠ idleThread
    grind
  · next t ts hr =>
    refine (h.dispatch hr).scheduleTail (fun u => ?_) rfl s.cur
    have hu := hoff u
    have hidle : t ≠ idleThread := by
      rintro rfl
      have hplace := h.idle_iff.mpr rfl
      have hready : (place idleThread).queue = some .ready :=
        h.queues.mem_iff.mp (show idleThread ∈ s.readyList by simp [hr])
      rw [hplace] at hready
      contradiction
    show (update place t .running u).status = some .running ↔ u = t ∧ u ≠ idleThread
    rw [update_apply]
    grind

end

/-! ## unblocking -/

/-- A thread that does not run moves to a place where it does not run. -/
theorem Current.update (hc : Current place s) {p : Place} (hold : (place t).status ≠ some .running)
    (hnew : p.status ≠ some .running) (hcur : s'.cur = s.cur) : Current (update place t p) s' := by
  intro u
  rw [hcur, ← hc u, update_apply]
  grind

theorem SchedInv.unblock (h : Placing place s) (hc : Current place s) (ht : place t = .limbo) :
    SchedInv (threadUnblock s t) := by
  have hidle : t ≠ idleThread := fun he => by
    have hplace := h.idle_iff.mpr he
    cases ht.symm.trans hplace
  have hstatus : s.status t = some .blocked := by rw [h.status hidle, ht]; rfl
  rw [threadUnblock, if_pos hstatus]
  have hq := h.queues_push (by rw [ht]; rfl)
  refine ⟨update place t .ready, ?_, hc.update (by rw [ht]; nofun) nofun rfl⟩
  constructor
  case queues => exact hq
  all_goals grind

theorem Placing.popWaiter (h : Placing place s) {v : Nat}
    (hw : (s.sema i).waiters = t :: ts) : place t = .waiting i ∧
    Placing (update place t .limbo)
      { s with sema := update s.sema i ⟨v, ts⟩ } := by
  have hplace : place t = .waiting i :=
    Place.eq_waiting (h.queues.mem_iff.mp (show t ∈ (s.sema i).waiters by simp [hw]))
  have hq : Queues.Placed (queue { s with sema := update s.sema i ⟨v, ts⟩ })
      fun u => (update place t .limbo u).queue := by
    rw [queue_update]
    refine h.queues.pop (show s.queue (.waiters i) = t :: ts from hw) ?_ fun q hq => ?_
    · simp [queue]
    · cases q with
      | ready => rfl
      | blocked => rfl
      | waiters j =>
        have hj : j ≠ i := fun he => hq (he ▸ rfl)
        simp [queue, hj]
  refine ⟨hplace, ?_⟩
  constructor
  case queues => exact hq
  all_goals grind

theorem Placing.popSleeper (h : Placing place s) (hb : s.blockedList = t :: ts)
    (hno : ∀ u, place u ≠ .inserted) : place t = .asleep ∧
    Placing (update place t .limbo) { s with blockedList := ts } := by
  have hplace : place t = .asleep := (Place.eq_asleep_or_inserted
    (h.queues.mem_iff.mp (show t ∈ s.blockedList by simp [hb]))).resolve_right (hno t)
  have hq : Queues.Placed (queue { s with blockedList := ts })
      fun u => (update place t .limbo u).queue := by
    rw [queue_update]
    refine h.queues.pop (show s.queue .blocked = t :: ts from hb) rfl fun q hq => ?_
    cases q <;> first | contradiction | rfl
  refine ⟨hplace, ?_⟩
  constructor
  case queues => exact hq
  all_goals grind

theorem Placing.clearWaiter (h : Placing place s) (hw : s.waiter w = some t) :
    Placing (update place t .limbo)
      { s with waiter := update s.waiter w none } := by
  have hplace := h.waiter hw
  have hq := h.queues_off (p := .limbo) (by rw [hplace]; rfl) rfl
  constructor
  case queues => exact hq
  all_goals grind

/-- The creator of `t` lets go of it. -/
theorem Placing.clearNewborn (h : Placing place s) (hpc : s.pc s.cur = .createUnblock t) :
    place t = .newborn s.cur ∧ Placing (update place t .limbo) (s.setPc .free) := by
  have hplace : place t = .newborn s.cur := h.newborn (by rw [hpc]; rfl)
  have hq := h.queues_off (p := .limbo) (by rw [hplace]; rfl) rfl
  refine ⟨hplace, ?_⟩
  unfold SchedSys.setPc
  constructor
  case queues => exact hq
  all_goals grind

/-! ## the sections with interrupts off -/

/-- The running thread moves on; it neither enters nor leaves the window of
`timer_sleep`, and it may only let go of a thread that it is creating. -/
theorem SchedInv.setPc (h : SchedInv s) {pc : ThreadPc} (hpc : s.pc s.cur = old)
    (hcreate : ∀ u, pc.creating = some u → old.creating = some u)
    (hsleep : pc ≠ .sleepBlock ∧ old ≠ .sleepBlock) (hidle : pc ≠ .idle ∧ old ≠ .idle) :
    SchedInv (s.setPc pc) := by
  obtain ⟨place, h, hc⟩ := h
  unfold SchedSys.setPc
  refine ⟨place, ?_, hc⟩
  constructor
  case queues => exact h.queues
  all_goals grind

theorem SchedInv.setValue (h : SchedInv s) {sema : Semaphore Thread}
    (hw : sema.waiters = (s.sema i).waiters) :
    SchedInv { s with sema := update s.sema i sema } := by
  obtain ⟨place, h, hc⟩ := h
  refine ⟨place, h.frame ?_ rfl rfl rfl rfl, hc⟩
  funext q
  cases q with
  | ready => rfl
  | blocked => rfl
  | waiters j =>
    simp only [queue, update_apply]
    split
    · next hj => rw [hw, hj]
    · rfl

theorem SchedInv.semaUp (h : SchedInv s) : SchedInv (s.semaUp i) := by
  obtain ⟨place, h, hc⟩ := h
  unfold SchedSys.semaUp
  rw [semaUp_eq]
  cases hw : (s.sema i).waiters with
  | nil => exact SchedInv.setValue ⟨place, h, hc⟩ (by rw [hw]; rfl)
  | cons t ts =>
    obtain ⟨hplace, hpop⟩ := h.popWaiter hw (v := ((s.sema i).value + 1) % uintSize)
    exact .unblock hpop (hc.update (by rw [hplace]; nofun) nofun rfl) (update_self ..)

theorem SchedInv.intqSignal (h : SchedInv s) : SchedInv (intqSignal s w) := by
  obtain ⟨place, h, hc⟩ := h
  unfold Pintos.intqSignal
  split
  · exact ⟨place, h, hc⟩
  · next t ht =>
    have hcomm : { threadUnblock s t with waiter := update s.waiter w none } =
        threadUnblock { s with waiter := update s.waiter w none } t := by
      unfold threadUnblock
      split <;> rfl
    rw [hcomm]
    exact .unblock (h.clearWaiter ht) (hc.update (by rw [h.waiter ht]; nofun) nofun rfl)
      (update_self ..)

theorem Current.cur (hc : Current place s) (hidle : s.cur ≠ idleThread) :
    (place s.cur).status = some .running := (hc s.cur).mpr ⟨rfl, hidle⟩

theorem Placing.cur_ne_idle (h : Placing place s) (hpc : s.pc s.cur ≠ .idle) :
    s.cur ≠ idleThread := fun he => hpc (h.idle_pc.mpr he)

/-- The running thread, which is outside the window of `timer_sleep`. -/
theorem Placing.running (h : Placing place s) (hc : Current place s) (hidle : s.cur ≠ idleThread)
    (hpc : s.pc s.cur ≠ .sleepBlock) : place s.cur = .running :=
  (Place.eq_running_or_inserted (hc.cur hidle)).resolve_right fun he => hpc (h.inserted.mpr he)

theorem Current.off (hc : Current place s) {p : Place} (hp : p.status ≠ some .running)
    (t : Thread) :
    (Function.update place s.cur p t).status ≠ some .running := by
  have ht := hc t
  rw [update_apply]
  grind

section

variable (h : SchedInv s)
include h

theorem SchedInv.cur_eq_idle (hpc : s.pc s.cur = .idle) : s.cur = idleThread := by
  obtain ⟨place, h, -⟩ := h
  exact h.idle_pc.mp hpc

theorem SchedInv.idleOff (hidle : s.cur = idleThread) {st : ThreadStatus} (hst : st ≠ .dying) :
    SchedInv (schedule { s with status := update s.status s.cur (some st) }) := by
  obtain ⟨place, h, hc⟩ := h
  have hoff : ∀ t, (place t).status ≠ some .running := fun t ht =>
    ((hc t).mp ht).2 (((hc t).mp ht).1.trans hidle)
  refine Placing.schedule (?_ : Placing place _) hoff
  constructor
  case queues => exact h.queues
  all_goals grind

theorem SchedInv.yield (hpc : s.pc s.cur ≠ .sleepBlock) : SchedInv (threadYield s) := by
  unfold threadYield
  by_cases hidle : s.cur = idleThread
  · simp only [if_pos hidle]
    exact h.idleOff hidle nofun
  · simp only [if_neg hidle]
    obtain ⟨place, h, hc⟩ := h
    have hplace := h.running hc hidle hpc
    have hq := h.queues_push (by rw [hplace]; rfl)
    refine Placing.schedule (?_ : Placing (update place s.cur .ready) _) (hc.off nofun)
    constructor
    case queues => exact hq
    all_goals grind

theorem SchedInv.semaDown {next loop : ThreadPc} (hpc : s.pc s.cur = old)
    (hcreate : next.creating = old.creating ∧ loop.creating = old.creating)
    (hsleep : next ≠ .sleepBlock ∧ loop ≠ .sleepBlock ∧ old ≠ .sleepBlock)
    (hidle : next ≠ .idle ∧ loop ≠ .idle ∧ old ≠ .idle) : SchedInv (s.semaDown i next loop) := by
  by_cases hv : (s.sema i).value = 0
  · simp only [SchedSys.semaDown, semaDownPass_wait hv]
    obtain ⟨place, h, hc⟩ := h
    have hcur := h.cur_ne_idle (hpc ▸ hidle.2.2)
    have hplace := h.running hc hcur (hpc ▸ hsleep.2.2)
    have hq : Queues.Placed (queue { s with
        sema := update s.sema i ⟨(s.sema i).value, (s.sema i).waiters ++ [s.cur]⟩ })
        fun u => (update place s.cur (.waiting i) u).queue := by
      rw [queue_update]
      refine h.queues.insert (by rw [hplace]; rfl) ?_ fun q hq => ?_
      · simp only [queue, update_self]
        exact perm_append_singleton s.cur (s.sema i).waiters
      · cases q with
        | ready => rfl
        | blocked => rfl
        | waiters j =>
          have hj : j ≠ i := fun he => hq (he ▸ rfl)
          simp [queue, hj]
    refine Placing.schedule (?_ : Placing (update place s.cur (.waiting i)) _) (hc.off nofun)
    constructor
    case queues => exact hq
    all_goals grind
  · simp only [SchedSys.semaDown, semaDownPass_take hv, if_true]
    exact (h.setPc hpc (by rw [hcreate.1]; exact fun _ => id) ⟨hsleep.1, hsleep.2.2⟩
      ⟨hidle.1, hidle.2.2⟩).setValue rfl

/-- `wait` of an interrupt queue; the thread that waited there before, if any, is
forgotten. -/
theorem SchedInv.intqWait (hpc : s.pc s.cur = .free) : SchedInv (intqWait s w) := by
  obtain ⟨place, h, hc⟩ := h
  have hcur := h.cur_ne_idle (by rw [hpc]; nofun)
  have hplace := h.running hc hcur (by rw [hpc]; nofun)
  have hq := h.queues_off (p := .parked w) (by rw [hplace]; rfl) rfl
  refine Placing.schedule (?_ : Placing (update place s.cur (.parked w)) _) (hc.off nofun)
  constructor
  case queues => exact hq
  all_goals grind

theorem SchedInv.exit (hpc : s.pc s.cur = .free) : SchedInv (threadExit s) := by
  obtain ⟨place, h, hc⟩ := h
  have hcur := h.cur_ne_idle (by rw [hpc]; nofun)
  have hplace := h.running hc hcur (by rw [hpc]; nofun)
  have hq := h.queues_off (p := .dying) (by rw [hplace]; rfl) rfl
  refine Placing.schedule (?_ : Placing (update place s.cur .dying) _) (hc.off nofun)
  constructor
  case queues => exact hq
  all_goals grind

theorem SchedInv.create (hpc : s.pc s.cur = .free) (ht : s.status t = none) :
    SchedInv (threadCreate s t) := by
  obtain ⟨place, h, hc⟩ := h
  have hidle : t ≠ idleThread := fun he => h.idle_live.1 (he ▸ ht)
  have hplace : place t = .absent := Place.eq_absent (h.status hidle ▸ ht)
    fun he => hidle (h.idle_iff.mp he)
  have hcur : s.cur ≠ t := by
    rintro rfl
    have hrun := hc.cur hidle
    rw [hplace] at hrun
    contradiction
  have hq := h.queues_off (p := .newborn s.cur) (by rw [hplace]; rfl) rfl
  refine ⟨update place t (.newborn s.cur), ?_, hc.update (by rw [hplace]; nofun) nofun rfl⟩
  unfold threadCreate
  constructor
  case queues => exact hq
  all_goals grind

theorem SchedInv.createUnblock (hpc : s.pc s.cur = .createUnblock t) :
    SchedInv ((threadUnblock s t).setPc .free) := by
  have hcomm : (threadUnblock s t).setPc .free = threadUnblock (s.setPc .free) t := by
    unfold threadUnblock SchedSys.setPc
    split <;> rfl
  obtain ⟨place, h, hc⟩ := h
  obtain ⟨hplace, hfree⟩ := h.clearNewborn hpc
  rw [hcomm]
  exact .unblock hfree (hc.update (by rw [hplace]; nofun) nofun rfl) (update_self ..)

theorem SchedInv.sleepInsert {before : Option Thread} (hpc : s.pc s.cur = .sleepInsert before) :
    SchedInv { s.setPc .sleepBlock with
      blockedList := insertBefore before s.cur s.blockedList } := by
  obtain ⟨place, h, hc⟩ := h
  have hcur := h.cur_ne_idle (by rw [hpc]; nofun)
  have hplace := h.running hc hcur (by rw [hpc]; nofun)
  have hq : Queues.Placed (queue { s with
      blockedList := insertBefore before s.cur s.blockedList })
      fun u => (update place s.cur .inserted u).queue := by
    rw [queue_update]
    refine h.queues.insert (by rw [hplace]; rfl) ?_ fun q hq => ?_
    · exact insertBefore_perm before s.cur s.blockedList
    · cases q <;> first | contradiction | rfl
  unfold SchedSys.setPc
  refine ⟨update place s.cur .inserted, ?_, fun t => ?_⟩
  · constructor
    case queues => exact hq
    all_goals grind
  · rw [← hc t, update_apply]
    grind

theorem SchedInv.sleepBlock (hpc : s.pc s.cur = .sleepBlock) :
    SchedInv (threadBlock (s.setPc .free)) := by
  obtain ⟨place, h, hc⟩ := h
  have hplace := h.inserted.mp hpc
  have hq : Queues.Placed s.queue fun u => (update place s.cur .asleep u).queue := by
    have heq : update (fun u => (place u).queue) s.cur (some .blocked) =
        fun u => (place u).queue := by
      rw [Function.update_eq_self_iff, hplace]
      rfl
    rw [queue_update, Place.queue, heq]
    exact h.queues
  unfold SchedSys.setPc
  refine Placing.schedule (?_ : Placing (update place s.cur .asleep) _) (hc.off nofun)
  constructor
  case queues => exact hq
  all_goals grind

/-! ## the timer interrupt -/

/-- The loop of `repeated_check_blocked_list`: each sleeper that is taken off
`blocked_list` was blocked. -/
theorem SchedInv.repeatedCheck (hpc : s.pc s.cur ≠ .sleepBlock) (l : List Thread)
    (hl : s.blockedList = l) :
    SchedInv (repeatedCheckBlockedList s l) ∧
      (repeatedCheckBlockedList s l).pc = s.pc ∧ (repeatedCheckBlockedList s l).cur = s.cur := by
  induction l generalizing s with
  | nil => exact ⟨h, rfl, rfl⟩
  | cons t ts ih =>
    rw [repeatedCheckBlockedList]
    split
    · obtain ⟨place, h, hc⟩ := h
      have hno : ∀ u, place u ≠ .inserted := fun u hu => by
        obtain ⟨rfl, -⟩ := (hc u).mp (by rw [hu]; rfl)
        exact hpc (h.inserted.mpr hu)
      obtain ⟨hplace, hpop⟩ := h.popSleeper hl hno
      have hun : SchedInv (threadUnblock { s with blockedList := ts } t) :=
        .unblock hpop (hc.update (by rw [hplace]; nofun) nofun rfl) (update_self ..)
      simp only [hun.calm, Bool.false_eq_true, if_false]
      obtain ⟨hinv, hpc', hcur'⟩ := ih hun (by simpa using hpc) (threadUnblock_blockedList _ _)
      exact ⟨hinv, hpc'.trans (threadUnblock_pc _ _), hcur'.trans (threadUnblock_cur _ _)⟩
    · exact ⟨h, rfl, rfl⟩

theorem SchedInv.tick (hpc : s.pc s.cur ≠ .sleepBlock) : SchedInv (threadTick s) := by
  have hcount : SchedInv { s with threadTicks := s.threadTicks + 1 } :=
    h.frame rfl rfl rfl rfl rfl rfl
  simp only [threadTick]
  split
  · exact hcount.yield hpc
  · exact hcount

theorem SchedInv.timer (hpc : s.pc s.cur ≠ .sleepBlock) : SchedInv (timerInterrupt s) := by
  have htick : SchedInv { s with ticks := s.ticks + 1 } := h.frame rfl rfl rfl rfl rfl rfl
  obtain ⟨hinv, hpc', hcur'⟩ := htick.repeatedCheck hpc s.blockedList rfl
  simp only [timerInterrupt]
  rw [if_neg (by rw [hinv.calm]; nofun)]
  exact hinv.tick (by rw [hpc', hcur']; exact hpc)

end

/-! ## the run -/

theorem schedInv_boot (value : Nat → Nat) : SchedInv (schedBoot value) := by
  let place : Thread → Place := fun t =>
    if t = initialThread then .running else if t = idleThread then .idle else .absent
  refine ⟨place, ?_, ?_⟩
  · constructor
    case queues =>
      refine Queues.placed_nil (fun q => ?_) fun t => ?_
      · cases q <;> rfl
      · simp only [place]
        split
        · rfl
        · split <;> rfl
    all_goals grind [schedBoot, initialThread, idleThread]
  · intro t
    simp only [place, schedBoot]
    grind [initialThread, idleThread]

theorem SchedInv.run (h : SchedInv s) (hs : schedRun s = some s') : SchedInv s' := by
  unfold schedRun at hs
  split at hs
  · contradiction
  · next hpc =>
    rw [← some.inj hs]
    exact h.semaDown hpc ⟨rfl, rfl⟩ ⟨nofun, nofun, nofun⟩ ⟨nofun, nofun, nofun⟩
  · next hpc =>
    rw [← some.inj hs]
    exact h.semaDown hpc ⟨rfl, rfl⟩ ⟨nofun, nofun, nofun⟩ ⟨nofun, nofun, nofun⟩
  · next hpc =>
    rw [← some.inj hs]
    rw [← semaUp_pc, ← semaUp_cur (i := tidLock)] at hpc
    exact h.semaUp.setPc hpc (fun u hu => hu) ⟨nofun, nofun⟩ ⟨nofun, nofun⟩
  · next hpc => exact some.inj hs ▸ h.createUnblock hpc
  · next hpc =>
    rw [← some.inj hs]
    have hset : SchedInv (s.setPc .sleepSearch) :=
      h.setPc hpc nofun ⟨nofun, nofun⟩ ⟨nofun, nofun⟩
    exact hset.frame rfl rfl rfl rfl rfl rfl
  · next hpc =>
    rw [← some.inj hs]
    exact h.setPc hpc nofun ⟨nofun, nofun⟩ ⟨nofun, nofun⟩
  · next hpc =>
    obtain ⟨-, rfl⟩ := of_guard hs
    exact h.sleepInsert hpc
  · next hpc => exact some.inj hs ▸ h.sleepBlock hpc
  · next hpc =>
    rw [← some.inj hs]
    exact h.idleOff (h.cur_eq_idle hpc) nofun

/-- **Step lemma**: a step that is not a timer interrupt in the window of
`timer_sleep` leaves a state with a picture. -/
theorem SchedInv.step {a : SchedAct} (h : SchedInv s) (hC : TimerOutside s a)
    (hs : schedStep s a = some s') : SchedInv s' := by
  unfold schedStep at hs
  rw [if_neg (by rw [h.calm]; nofun)] at hs
  cases a with
  | create t =>
    obtain ⟨hc, rfl⟩ := of_guard hs
    exact h.create hc.1 hc.2
  | yield =>
    obtain ⟨hpc, rfl⟩ := of_guard hs
    exact h.yield (by rw [hpc]; nofun)
  | semaDown i =>
    obtain ⟨hpc, rfl⟩ := of_guard hs
    exact h.setPc hpc nofun ⟨nofun, nofun⟩ ⟨nofun, nofun⟩
  | semaTryDown i =>
    obtain ⟨-, rfl⟩ := of_guard hs
    exact h.setValue (semaTryDown_waiters _)
  | sleep n =>
    obtain ⟨hc, rfl⟩ := of_guard hs
    exact h.setPc hc.1 nofun ⟨nofun, nofun⟩ ⟨nofun, nofun⟩
  | wait w =>
    obtain ⟨hc, rfl⟩ := of_guard hs
    exact h.intqWait hc.1
  | exit =>
    obtain ⟨hpc, rfl⟩ := of_guard hs
    exact h.exit hpc
  | setLevel on =>
    obtain ⟨-, rfl⟩ := of_guard hs
    exact h.frame rfl rfl rfl rfl rfl rfl
  | run => exact h.run hs
  | timer =>
    obtain ⟨-, rfl⟩ := of_guard hs
    refine h.timer fun hpc => ?_
    rw [TimerOutside, hpc] at hC
    contradiction
  | semaUp i | intrSemaUp i =>
    obtain ⟨-, rfl⟩ := of_guard hs
    exact h.semaUp
  | signal w | intrSignal w =>
    obtain ⟨-, rfl⟩ := of_guard hs
    exact h.intqSignal

/-- A picture keeps the lists apart. -/
theorem SchedInv.listDiscipline (h : SchedInv s) : ListDiscipline s := by
  obtain ⟨place, h, -⟩ := h
  refine ⟨h.queues.nodup, fun t q q' => h.queues.unique, fun t ht => ?_, h.calm⟩
  have hmem : t ∈ s.readyList ↔ (place t).queue = some .ready := h.queues.mem_iff (i := .ready)
  rw [hmem, h.status ht]
  cases place t <;> simp [Place.queue, Place.status]

/-- **List discipline**: in every run in which the timer does not interrupt a
thread that is putting itself on `blocked_list`, an `elem` is on one list at
most, `ready_list` holds the ready threads, and `thread_unblock` is applied to
blocked threads only. -/
theorem list_discipline_of_timerOutside (value : Nat → Nat) (s : SchedSys)
    (h : (schedMachine value).ReachIn TimerOutside s) : ListDiscipline s := by
  have hinv : SchedInv s := h.invariant (fun _ h0 => h0 ▸ schedInv_boot value)
    fun _ _ _ hi hC hs => hi.step hC hs
  exact hinv.listDiscipline

/-- The initial thread waits for a semaphore, thread `2` is preempted, thread `3`
goes to sleep, and thread `4` is ready. -/
theorem list_discipline_of_timerOutside_three_lists :
    ∃ s : SchedSys, s.readyList = [4] ∧ s.blockedList = [3] ∧ (s.sema 1).waiters = [0] ∧
      ListDiscipline s := by
  obtain ⟨s, -, hs, hready, hblocked, hwaiters⟩ := Machine.exists_reachIn_of_runIn
    (m := schedMachine fun i => if i = tidLock then 1 else 0) (C := TimerOutside) rfl
    ([.create 2, .run, .run, .run, .create 3, .run, .run, .run, .semaDown 1, .run, .timer, .timer,
      .timer, .timer] ++ goToSleep 9 ++ [.run, .create 4, .run, .run, .run])
    (fun s => s.readyList = [4] ∧ s.blockedList = [3] ∧ (s.sema 1).waiters = [0])
    (by decide +kernel)
  exact ⟨s, hready, hblocked, hwaiters, list_discipline_of_timerOutside _ s hs⟩

end Pintos
