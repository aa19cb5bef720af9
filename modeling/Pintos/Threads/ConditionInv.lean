import Pintos.Threads.Condition

/-!
# Pintos.Threads.ConditionInv

The invariant of a condition.

A thread in `cond_signal` or `cond_broadcast` holds the lock, so it is alone with the list
(`CondInv.alone`).  A thread in `cond_wait` is *pending* from `list_push_back` to the `sema_up`
on its semaphore: until then the value is 0, and after it is 1, wherever the thread is between
`lock_release` and `sema_down` (`CondSys.Stage`).
-/

namespace Pintos

open Function List Option CondSys

variable {τ ι : Type*}

/-! ## what a lock guarantees -/

/-- `t` is between two calls and holds `l`. -/
def LockSys.Holds (s : LockSys τ ι) (t : τ) (l : ι) : Prop :=
  s.pc t = .outside ∧ (s.lock l).holder = some t

/-- The statements of `lock_acquire`. -/
def LockPc.Acquires (l : ι) : LockPc ι → Prop
  | .link l' | .down l' | .waiting l' | .own l' => l' = l
  | .outside | .unlink _ | .clear _ | .up _ => False

/-- `t` is in `lock_acquire`, or it has returned. -/
def LockSys.Acquiring (s : LockSys τ ι) (t : τ) (l : ι) : Prop :=
  s.Holds t l ∨ (s.pc t).Acquires l

section Lock

variable [DecidableEq τ] [DecidableEq ι] {s s' : LockSys τ ι} {t : τ} {l : ι} {a : LockAct τ ι}

/-- What a thread knows about the lock and its own calls is still so. -/
structure LockSys.Keeps (s s' : LockSys τ ι) (l : ι) (t : τ) : Prop where
  holds : s.Holds t l → s'.Holds t l
  outside : s.pc t = .outside → s'.pc t = .outside
  acquiring : s.Acquiring t l → s'.Acquiring t l
  live : s'.live t = s.live t

omit [DecidableEq τ] [DecidableEq ι] in
theorem LockSys.Keeps.refl (s : LockSys τ ι) (l : ι) (t : τ) : s.Keeps s l t :=
  ⟨id, id, id, rfl⟩

/-- **A step of another thread** changes nothing that a thread relies on. -/
theorem LockInv.keeps (hinv : LockInv s l) (hw : WaitersInv s) (hs : lockStep s a = some s')
    (ha : a.thread ≠ some t) (hinit : a ≠ .init l) : s.Keeps s' l t := by
  have houtside := outside_lockStep hw hs ha
  have hholds : s.Holds t l → s'.Holds t l := fun hheld =>
    ⟨houtside hheld.1, hinv.holder_other hs ha hinit hheld.2⟩
  refine ⟨hholds, houtside, fun hacq => ?_, live_other hs ha⟩
  rcases hacq with hheld | hpc
  · exact .inl (hholds hheld)
  · right
    rcases lockStep_pc_other hs hw ha with heq | ⟨l', hwait, hdown⟩
    · rwa [heq]
    · rw [hwait] at hpc
      rwa [hdown]

theorem LockMove.acquiring (hm : LockMove s t s') (hacq : s.Acquiring t l)
    (hin : s.pc t ≠ .outside) : s'.Acquiring t l := by
  rcases hacq with hheld | hpc
  · exact absurd hheld.1 hin
  · cases hm with
    | link hpc' hpush | wait hpc' hv | take hpc' hv =>
      rw [hpc'] at hpc
      exact .inr (by rw [LockSys.setPc_self]; exact hpc)
    | @hold l' hpc' =>
      rw [hpc'] at hpc
      have hl : l' = l := hpc
      subst hl
      refine .inl ⟨update_self .., ?_⟩
      change (update s.lock l' { s.lock l' with holder := some t } l').holder = some t
      rw [update_self]
    | unlink hpc' hrem | clear hpc' | up hpc' => rw [hpc'] at hpc; exact hpc.elim

end Lock

/-! ## the invariant -/

/-- The statements at which the lock is held. -/
def CondPc.Inside : CondPc τ → Prop
  | .init | .push | .release | .test | .pop | .up _ => True
  | .outside | .down | .asleep | .acquire | .done => False

/-- The statements of `cond_signal` and `cond_broadcast`. -/
def CondPc.Signals : CondPc τ → Prop
  | .test | .pop | .up _ => True
  | _ => False

/-- The statements of `cond_wait` between `list_push_back` and the end of `sema_down`. -/
def CondPc.Waits : CondPc τ → Prop
  | .release | .down | .asleep => True
  | _ => False

/-- The thread that `cond_signal` has taken from the list. -/
def CondPc.popped : CondPc τ → List τ
  | .up w => [w]
  | _ => []

/-- It is a statement of the function. -/
def CondPc.Of (fn : CondFn) : CondPc τ → Prop
  | .outside => True
  | .init | .push | .release | .down | .asleep | .acquire | .done => fn = .wait
  | .test => fn = .broadcast
  | .pop | .up _ => fn ≠ .wait

/-- The thread waits and has not been released. -/
def CondSys.Pending (s : CondSys τ ι) (w : τ) : Prop := w ∈ s.waiters ∨ ∃ t, s.pc t = .up w

/-- Where a thread is in `cond_wait`: its semaphore has the permit if it has been released since
the call. -/
def CondSys.Stage (s : CondSys τ ι) (t : τ) : Prop :=
  match s.pc t with
  | .init => s.released t = (s.call t).released t
  | .push => s.sema t = ⟨0, []⟩ ∧ s.released t = (s.call t).released t
  | .release | .down =>
    (s.Pending t → s.sema t = ⟨0, []⟩ ∧ s.released t = (s.call t).released t) ∧
      (¬ s.Pending t → s.sema t = ⟨1, []⟩ ∧ s.released t = (s.call t).released t + 1)
  | .asleep => s.Pending t ∧ s.sema t = ⟨0, [t]⟩ ∧ s.released t = (s.call t).released t
  | .acquire | .done => s.released t = (s.call t).released t + 1
  | .outside | .test | .pop | .up _ => True

section Invariant

variable [DecidableEq τ]

/-- What a call of `cond_signal` or `cond_broadcast` has done: it has released `ds`. -/
structure CondSys.Progress (s : CondSys τ ι) (t : τ) (ds : List τ) : Prop where
  waiters : (s.call t).waiters = ds ++ ((s.pc t).popped ++ s.waiters)
  released : ∀ x, s.released x = (s.call t).released x + ds.count x
  first : (s.call t).fn = .signal → ds = []
  fifo : (s.call t).waiters.Pairwise fun w x => (s.call t).since w < (s.call t).since x

/-- The invariant of one thread. -/
structure CondThread (l : ι) (s : CondSys τ ι) (t : τ) : Prop where
  holds : (s.pc t).Inside → s.locks.Holds t l
  still : s.pc t = .asleep ∨ s.pc t = .acquire → s.locks.pc t = .outside
  acquiring : s.pc t = .done → s.locks.Acquiring t l
  fn : (s.pc t).Of (s.call t).fn
  stage : s.Stage t
  progress : (s.pc t).Signals → ∃ ds, s.Progress t ds

/-- **The invariant.**  The list has pending threads, in the order of their arrival. -/
structure CondInv (l : ι) (s : CondSys τ ι) : Prop where
  lock : LockInv s.locks l
  waits : WaitersInv s.locks
  live : ∀ t, s.pc t ≠ .outside → s.locks.live t = true
  thread : ∀ t, CondThread l s t
  pending : ∀ w, s.Pending w → (s.pc w).Waits
  popped : ∀ t w, s.pc t = .up w → w ∉ s.waiters
  fifo : s.waiters.Pairwise fun w x => s.since w < s.since x
  clock : ∀ w ∈ s.waiters, s.since w < s.clock

/-- The state after `sema_up` for `w` by `t`. -/
structure CondSys.Upped (s s' : CondSys τ ι) (t w : τ) : Prop where
  signaller : s'.pc t = s.back t
  waiter : s'.pc w = .release ∧ s.pc w = .release ∨ s'.pc w = .down
  pc : ∀ x, x ≠ t → x ≠ w → s'.pc x = s.pc x
  sema_self : s'.sema w = ⟨1, []⟩
  sema : ∀ x ≠ w, s'.sema x = s.sema x
  released_self : s'.released w = s.released w + 1
  released : ∀ x ≠ w, s'.released x = s.released x
  waiters : s'.waiters = s.waiters
  call : s'.call = s.call
  locks : s'.locks = s.locks
  since : s'.since = s.since
  clock : s'.clock = s.clock

variable {s s' : CondSys τ ι} {t t' w : τ} {l : ι} {pc : CondPc τ}

/-- The invariant of a thread at `pc`. -/
theorem CondThread.of_pc (hpc : s.pc t = pc) (hholds : pc.Inside → s.locks.Holds t l)
    (hstill : pc = .asleep ∨ pc = .acquire → s.locks.pc t = .outside)
    (hacquiring : pc = .done → s.locks.Acquiring t l) (hfn : pc.Of (s.call t).fn)
    (hstage : s.Stage t) (hprogress : pc.Signals → ∃ ds, s.Progress t ds) : CondThread l s t :=
  ⟨hpc ▸ hholds, hpc ▸ hstill, hpc ▸ hacquiring, hpc ▸ hfn, hstage, hpc ▸ hprogress⟩

theorem CondThread.of_quiet (hpc : s.pc t = pc) (hholds : pc.Inside → s.locks.Holds t l)
    (hfn : pc.Of (s.call t).fn) (hstage : s.Stage t)
    (hprogress : pc.Signals → ∃ ds, s.Progress t ds)
    (hne : pc ≠ .asleep ∧ pc ≠ .acquire ∧ pc ≠ .done) : CondThread l s t :=
  .of_pc hpc hholds (fun h => (h.elim hne.1 hne.2.1).elim) (fun h => absurd h hne.2.2) hfn hstage
    hprogress

theorem CondThread.of_outside (hpc : s.pc t = .outside) : CondThread l s t :=
  .of_quiet hpc False.elim trivial (by rw [Stage, hpc]; exact trivial) False.elim
    ⟨nofun, nofun, nofun⟩

/-- The invariant of a thread depends on what belongs to it, and in `cond_signal` on what
belongs to the condition. -/
theorem CondThread.congr (h : CondThread l s t) (hlocks : s.locks.Keeps s'.locks l t)
    (hpc : s'.pc t = s.pc t) (hcall : s'.call t = s.call t) (hsema : s'.sema t = s.sema t)
    (hreleased : s'.released t = s.released t) (hpending : s'.Pending t ↔ s.Pending t)
    (hsignals : (s.pc t).Signals → s'.waiters = s.waiters ∧ s'.released = s.released) :
    CondThread l s' t where
  holds := by rw [hpc]; exact fun hin => hlocks.holds (h.holds hin)
  still := by rw [hpc]; exact fun hin => hlocks.outside (h.still hin)
  acquiring := by rw [hpc]; exact fun hin => hlocks.acquiring (h.acquiring hin)
  fn := by rw [hpc, hcall]; exact h.fn
  stage := by
    have hstage := h.stage
    unfold Stage at *
    rwa [hpc, hcall, hsema, hreleased, hpending]
  progress := by
    rw [hpc]
    intro hin
    obtain ⟨hwaiters, hall⟩ := hsignals hin
    obtain ⟨ds, hp⟩ := h.progress hin
    refine ⟨ds, ?_, ?_, ?_, ?_⟩
    · rw [hcall, hpc, hwaiters]
      exact hp.waiters
    · rw [hcall, hall]
      exact hp.released
    · rw [hcall]
      exact hp.first
    · rw [hcall]
      exact hp.fifo

/-- Which threads are pending does not depend on statements other than `sema_up`. -/
theorem CondSys.pending_congr (hpc : s'.pc = update s.pc t pc) (hwaiters : s'.waiters = s.waiters)
    (hold : ∀ w, s.pc t ≠ .up w) (hnew : ∀ w, pc ≠ .up w) : s'.Pending w ↔ s.Pending w := by
  unfold Pending
  rw [hpc, hwaiters]
  refine or_congr_right (exists_congr fun t' => ?_)
  by_cases heq : t' = t
  · subst heq
    rw [update_self]
    exact ⟨fun h => absurd h (hnew w), fun h => absurd h (hold w)⟩
  · rw [update_of_ne heq]

omit [DecidableEq τ] in
theorem CondSys.MayLock.outside {a : LockAct τ ι} (hmay : s.MayLock l a) (ha : a.thread = some t) :
    s.pc t = .outside := by
  cases a with
  | acquire t' l' => exact some.inj ha ▸ hmay
  | release t' l' => exact some.inj ha ▸ hmay
  | run t' => exact hmay.elim
  | init l' => cases ha
  | exit t' => exact some.inj ha ▸ hmay

omit [DecidableEq τ] in
theorem CondPc.Signals.inside (h : pc.Signals) :
    pc.Inside ∧ pc ≠ .asleep ∧ pc ≠ .acquire ∧ pc ≠ .done := by
  cases pc with
  | test | pop | up w => exact ⟨trivial, nofun, nofun, nofun⟩
  | _ => exact h.elim

omit [DecidableEq τ] in
theorem CondSys.back_ne_up (s : CondSys τ ι) (t w : τ) : s.back t ≠ .up w := by
  unfold back
  split <;> exact nofun

namespace CondInv

section

variable (h : CondInv l s)
include h

/-- One thread at a time is at a statement at which the lock is held. -/
theorem alone (ht : (s.pc t).Inside) (ht' : (s.pc t').Inside) : t' = t := by
  have hheld := ((h.thread t).holds ht).2
  have hheld' := ((h.thread t').holds ht').2
  exact some.inj (hheld'.symm.trans hheld)

theorem not_signals (ht : (s.pc t).Inside) (hne : t' ≠ t) : ¬ (s.pc t').Signals := by
  exact fun hin => hne (h.alone ht hin.inside.1)

/-- A statement of a thread that holds the lock, for the other threads. -/
theorem others (ht : (s.pc t).Inside) (hne : t' ≠ t)
    (hlocks : s'.locks = s.locks) (hpc : s'.pc t' = s.pc t') (hcall : s'.call t' = s.call t')
    (hsema : s'.sema t' = s.sema t') (hreleased : s'.released t' = s.released t')
    (hpending : s'.Pending t' ↔ s.Pending t') : CondThread l s' t' :=
  (h.thread t').congr (hlocks ▸ .refl ..) hpc hcall hsema hreleased hpending
    fun hin => absurd hin (h.not_signals ht hne)

/-- A statement of a thread that holds the lock and changes the list. -/
theorem listed (hin : (s.pc t).Inside) (hlocks : s'.locks = s.locks)
    (hpc : s'.pc = update s.pc t pc) (hcall : s'.call = s.call) (hsema : s'.sema = s.sema)
    (hreleased : s'.released = s.released) (hpending : ∀ x ≠ t, s'.Pending x ↔ s.Pending x)
    (hself : s'.Pending t → pc.Waits) (hthread : s'.pc t = pc → CondThread l s' t)
    (hpopped : ∀ t' x, s'.pc t' = .up x → x ∉ s'.waiters)
    (hfifo : s'.waiters.Pairwise fun w x => s'.since w < s'.since x)
    (hclock : ∀ w ∈ s'.waiters, s'.since w < s'.clock) : CondInv l s' := by
  have hpct : s'.pc t = pc := by rw [hpc, update_self]
  have hother : ∀ t' ≠ t, s'.pc t' = s.pc t' := fun t' hne => by rw [hpc, update_of_ne hne]
  refine ⟨hlocks ▸ h.lock, hlocks ▸ h.waits, fun t' hin' => ?_, fun t' => ?_, fun x hx => ?_,
    hpopped, hfifo, hclock⟩
  · rw [hlocks]
    by_cases heq : t' = t
    · refine heq ▸ h.live t fun hout => ?_
      rwa [hout] at hin
    · exact h.live t' (hother t' heq ▸ hin')
  · by_cases heq : t' = t
    · exact heq ▸ hthread hpct
    · exact h.others hin heq hlocks (hother t' heq) (congrFun hcall t') (congrFun hsema t')
        (congrFun hreleased t') (hpending t' heq)
  · by_cases heq : x = t
    · subst heq
      rw [hpct]
      exact hself hx
    · rw [hother x heq]
      exact h.pending x ((hpending x heq).mp hx)

/-- A step that does not change the list, and that releases no thread. -/
theorem quiet (hpc : s'.pc = update s.pc t pc)
    (hup : ∀ w, s.pc t ≠ .up w ∧ pc ≠ .up w) (hwaits : (s.pc t).Waits → pc.Waits ∨ ¬ s.Pending t)
    (hwaiters : s'.waiters = s.waiters) (hsince : s'.since = s.since) (hclock : s'.clock = s.clock)
    (hreleased : s'.released = s.released) (hcall : ∀ t' ≠ t, s'.call t' = s.call t')
    (hsema : ∀ t' ≠ t, s'.sema t' = s.sema t') (hlock : LockInv s'.locks l)
    (hw : WaitersInv s'.locks) (hkeeps : ∀ t' ≠ t, s.locks.Keeps s'.locks l t')
    (hlive : pc ≠ .outside → s'.locks.live t = true)
    (hself : (∀ w, s'.Pending w ↔ s.Pending w) → s'.pc t = pc → CondThread l s' t) :
    CondInv l s' := by
  have hpending : ∀ w, s'.Pending w ↔ s.Pending w := fun w =>
    pending_congr hpc hwaiters (fun w => (hup w).1) fun w => (hup w).2
  have hself' : s'.pc t = pc := by rw [hpc, update_self]
  have hother : ∀ t' ≠ t, s'.pc t' = s.pc t' := fun t' hne => by
    rw [hpc, update_of_ne hne]
  refine ⟨hlock, hw, fun t' => ?_, fun t' => ?_, fun w hw => ?_, fun t' w hup' => ?_, ?_, ?_⟩
  · by_cases heq : t' = t
    · rwa [heq, hself']
    · rw [hother t' heq, (hkeeps t' heq).live]
      exact h.live t'
  · by_cases heq : t' = t
    · subst heq
      exact hself hpending hself'
    · exact (h.thread t').congr (hkeeps t' heq) (hother t' heq) (hcall t' heq) (hsema t' heq)
        (congrFun hreleased t') (hpending t') fun _ => ⟨hwaiters, hreleased⟩
  · rw [hpending] at hw
    have hwait := h.pending w hw
    by_cases heq : w = t
    · subst heq
      rw [hself']
      exact (hwaits hwait).resolve_right fun hnot => hnot hw
    · rwa [hother w heq]
  · rw [hwaiters]
    by_cases heq : t' = t
    · subst heq
      exact absurd (hself'.symm.trans hup') (hup w).2
    · exact h.popped t' w ((hother t' heq).symm.trans hup')
  · rw [hwaiters, hsince]
    exact h.fifo
  · rw [hwaiters, hsince, hclock]
    exact h.clock

end

/-! ## calls -/

variable {a : LockAct τ ι} {locks : LockSys τ ι} {fn : CondFn}

section

variable (h : CondInv l s)
include h

theorem call (hlive : s.locks.live t = true) (hout : s.pc t = .outside)
    (hheld : s.locks.Holds t l) :
    CondInv l (condCall s t fn) := by
  have hcall : (condCall s t fn).call t = ⟨fn, s.waiters, s.since, s.released⟩ :=
    update_self ..
  refine h.quiet rfl ?_ ?_ rfl rfl rfl rfl
    (fun t' hne => update_of_ne hne ..) (fun _ _ => rfl) h.lock h.waits
    (fun _ _ => .refl ..) (fun _ => hlive) fun _ hpc => ?_
  · intro w
    rw [hout]
    cases fn <;> exact ⟨nofun, nofun⟩
  · rw [hout]
    exact False.elim
  · refine .of_quiet hpc (fun _ => hheld) ?_ ?_ (fun _ => ⟨[], ?_, ?_, fun _ => rfl, ?_⟩)
      (by cases fn <;> exact ⟨nofun, nofun, nofun⟩)
    · rw [hcall]
      cases fn with
      | wait => rfl
      | signal => exact nofun
      | broadcast => rfl
    · rw [Stage, hpc, hcall]
      cases fn with
      | wait => rfl
      | signal => exact trivial
      | broadcast => exact trivial
    · rw [hpc, hcall]
      cases fn <;> rfl
    · rw [hcall]
      exact fun _ => rfl
    · rw [hcall]
      exact h.fifo

/-! ## cond_wait -/

theorem init (hpc : s.pc t = .init) : CondInv l ((s.setSema t (semaInit 0)).setPc t .push) := by
  have ht := h.thread t
  have hstage := ht.stage
  have hheld := ht.holds (hpc ▸ trivial)
  have hfn := ht.fn
  rw [Stage, hpc] at hstage
  rw [hpc] at hfn
  refine h.quiet rfl (fun w => ⟨hpc ▸ nofun, nofun⟩) (by rw [hpc]; exact False.elim) rfl rfl
    rfl rfl (fun _ _ => rfl) (fun t' hne => update_of_ne hne ..) h.lock h.waits
    (fun _ _ => .refl ..) (fun _ => h.live t (hpc ▸ nofun)) fun _ hpc' => ?_
  refine .of_quiet hpc' (fun _ => hheld) hfn ?_ False.elim ⟨nofun, nofun, nofun⟩
  rw [Stage, hpc']
  exact ⟨update_self .., hstage⟩

/-- `list_push_back`: from here on the thread is pending. -/
theorem push (hpc : s.pc t = .push) :
    CondInv l (({ s with
      waiters := s.waiters ++ [t]
      clock := s.clock + 1
      since := update s.since t s.clock }).setPc t .release) := by
  have ht := h.thread t
  have hstage := ht.stage
  have hin : (s.pc t).Inside := hpc ▸ trivial
  have hheld := ht.holds hin
  have hfn := ht.fn
  rw [Stage, hpc] at hstage
  rw [hpc] at hfn
  have hself : ¬ s.Pending t := fun hw => by
    have hwaits := h.pending t hw
    rwa [hpc] at hwaits
  have hsince : ∀ w ∈ s.waiters, update s.since t s.clock w = s.since w := fun w hw =>
    update_of_ne (ne_of_mem_of_not_mem hw fun hmem => hself (.inl hmem)) ..
  have hup : ∀ t' w, update s.pc t .release t' = .up w ↔ s.pc t' = .up w := by
    intro t' w
    by_cases heq : t' = t
    · rw [heq, update_self, hpc]
      exact ⟨nofun, nofun⟩
    · rw [update_of_ne heq]
  refine h.listed hin rfl rfl rfl rfl rfl (fun x hx => ?_) (fun _ => trivial) (fun hpc' => ?_)
    (fun t' x hx => ?_) ?_ fun w hw => ?_
  · simp only [Pending, setPc, mem_append, mem_singleton, hup, hx, or_false]
  · refine .of_quiet hpc' (fun _ => hheld) hfn ?_ False.elim ⟨nofun, nofun, nofun⟩
    rw [Stage, hpc']
    exact ⟨fun _ => hstage, fun hnot => absurd (.inl (mem_append_right _ mem_cons_self)) hnot⟩
  · have hx := (hup t' x).mp hx
    refine fun hmem => (mem_append.mp hmem).elim (h.popped t' x hx) fun hxt => ?_
    exact hself (.inr ⟨t', mem_singleton.mp hxt ▸ hx⟩)
  · refine pairwise_append.mpr ⟨?_, pairwise_singleton .., fun w hw x hx => ?_⟩
    · refine h.fifo.imp_of_mem fun {w x} hw hx hlt => ?_
      change update s.since t s.clock w < update s.since t s.clock x
      rwa [hsince w hw, hsince x hx]
    · rw [mem_singleton.mp hx]
      change update s.since t s.clock w < update s.since t s.clock t
      rw [hsince w hw, update_self]
      exact h.clock w hw
  · change update s.since t s.clock w < s.clock + 1
    rcases mem_append.mp hw with hw | hw
    · rw [hsince w hw]
      exact Nat.lt_succ_of_lt (h.clock w hw)
    · rw [mem_singleton.mp hw, update_self]
      exact Nat.lt_succ_self _

theorem down (hpc : s.pc t = .down) (hout : s.locks.pc t = .outside) :
    CondInv l ((s.setSema t (semaDownPass (s.sema t) t).1).setPc t
      (if (semaDownPass (s.sema t) t).2 then .acquire else .asleep)) := by
  have ht := h.thread t
  have hstage := ht.stage
  have hfn := ht.fn
  rw [Stage, hpc] at hstage
  rw [hpc] at hfn
  by_cases hpend : s.Pending t
  · obtain ⟨hsema, hreleased⟩ := hstage.1 hpend
    rw [hsema]
    refine h.quiet rfl (fun w => ⟨hpc ▸ nofun, nofun⟩) (fun _ => .inl trivial) rfl rfl
      rfl rfl (fun _ _ => rfl) (fun t' hne => update_of_ne hne ..) h.lock h.waits
      (fun _ _ => .refl ..) (fun _ => h.live t (hpc ▸ nofun)) fun hpending hpc' => ?_
    refine .of_pc hpc' False.elim (fun _ => hout) nofun hfn ?_ False.elim
    rw [Stage, hpc', hpending]
    exact ⟨hpend, update_self .., hreleased⟩
  · obtain ⟨hsema, hreleased⟩ := hstage.2 hpend
    rw [hsema]
    refine h.quiet rfl (fun w => ⟨hpc ▸ nofun, nofun⟩) (fun _ => .inr hpend) rfl rfl
      rfl rfl (fun _ _ => rfl) (fun t' hne => update_of_ne hne ..) h.lock h.waits
      (fun _ _ => .refl ..) (fun _ => h.live t (hpc ▸ nofun)) fun hpending hpc' => ?_
    refine .of_pc hpc' False.elim (fun _ => hout) nofun hfn ?_ False.elim
    rwa [Stage, hpc']

/-- A function returns, or `cond_broadcast` goes on. -/
theorem leave (hup : ∀ w, s.pc t ≠ .up w ∧ pc ≠ .up w) (hwaits : ¬ (s.pc t).Waits)
    (hpc : pc = .outside ∨ (s.pc t).Signals ∧ pc.Signals ∧ pc.Of (s.call t).fn) :
    CondInv l (s.setPc t pc) := by
  refine h.quiet rfl hup (fun hw => absurd hw hwaits) rfl rfl rfl rfl (fun _ _ => rfl)
    (fun _ _ => rfl) h.lock h.waits (fun _ _ => .refl ..) (fun hne => h.live t ?_)
    fun hpending hpc' => ?_
  · rcases hpc with heq | ⟨hold, -⟩
    · exact absurd heq hne
    · intro hout
      rwa [hout] at hold
  rcases hpc with rfl | ⟨hold, hnew, hfn⟩
  · exact .of_outside hpc'
  · have ht := h.thread t
    have hpop : ∀ pc : CondPc τ, (∀ w, pc ≠ .up w) → pc.popped = [] := by
      intro pc hne
      cases pc with
      | up w => exact absurd rfl (hne w)
      | _ => rfl
    obtain ⟨ds, hp⟩ := ht.progress hold
    refine .of_quiet hpc' (fun _ => ht.holds hold.inside.1) hfn ?_
      (fun _ => ⟨ds, ?_, hp.released, hp.first, hp.fifo⟩) hnew.inside.2
    · rw [Stage, hpc']
      cases pc with
      | test | pop | up w => exact trivial
      | _ => exact hnew.elim
    · have hw := hp.waiters
      rw [hpop _ fun w => (hup w).1] at hw
      rwa [hpc', hpop _ fun w => (hup w).2]

/-! ## cond_signal -/

theorem pop {ws : List τ} (hpc : s.pc t = .pop) (hcons : s.waiters = w :: ws) :
    CondInv l (({ s with waiters := ws }).setPc t (.up w)) := by
  have ht := h.thread t
  have hin : (s.pc t).Inside := hpc ▸ trivial
  have hheld := ht.holds hin
  have hfn := ht.fn
  obtain ⟨ds, hp⟩ := ht.progress (hpc ▸ trivial)
  rw [hpc] at hfn
  have hfifo := h.fifo
  rw [hcons] at hfifo
  obtain ⟨hfirst, hfifo'⟩ := pairwise_cons.mp hfifo
  have hnot : w ∉ ws := fun hmem => absurd (hfirst w hmem) (Nat.lt_irrefl _)
  -- the thread that is taken from the list is pending because of this statement
  have hup : ∀ t' x, update s.pc t (.up w) t' = .up x ↔ s.pc t' = .up x ∨ t' = t ∧ x = w := by
    intro t' x
    by_cases heq : t' = t
    · rw [heq, update_self, hpc]
      simp [eq_comm]
    · rw [update_of_ne heq]
      simp [heq]
  have hpending : ∀ x, Pending (({ s with waiters := ws }).setPc t (.up w)) x ↔
      s.Pending x := by
    intro x
    simp only [Pending, setPc, hup, hcons, mem_cons, exists_or, exists_eq_left]
    tauto
  refine h.listed hin rfl rfl rfl rfl rfl (fun x _ => hpending x) (fun hx => ?_) (fun hpc' => ?_)
    (fun t' x hx => ?_) hfifo' fun x hx => h.clock x (hcons ▸ mem_cons_of_mem w hx)
  · have hwaits := h.pending t ((hpending t).mp hx)
    rwa [hpc] at hwaits
  · refine .of_quiet hpc' (fun _ => hheld) hfn ?_
      (fun _ => ⟨ds, ?_, hp.released, hp.first, hp.fifo⟩) ⟨nofun, nofun, nofun⟩
    · rw [Stage, hpc']
      exact trivial
    · have hw := hp.waiters
      rw [hpc, hcons] at hw
      rwa [hpc']
  · rcases (hup t' x).mp hx with hx | ⟨-, rfl⟩
    · have hx' := h.popped t' x hx
      rw [hcons] at hx'
      exact fun hmem => hx' (mem_cons_of_mem w hmem)
    · exact hnot

/-- What a thread that has not been released knows. -/
theorem pending_stage (hw : s.Pending w) :
    (s.pc w = .asleep ∧ s.sema w = ⟨0, [w]⟩ ∨
      (s.pc w = .release ∨ s.pc w = .down) ∧ s.sema w = ⟨0, []⟩) ∧
      s.released w = (s.call w).released w ∧ (s.call w).fn = .wait := by
  have hwaits := h.pending w hw
  have hstage := (h.thread w).stage
  have hfn := (h.thread w).fn
  unfold Stage at hstage
  cases hpc : s.pc w with
  | release =>
    rw [hpc] at hstage hfn
    exact ⟨.inr ⟨.inl rfl, (hstage.1 hw).1⟩, (hstage.1 hw).2, hfn⟩
  | down =>
    rw [hpc] at hstage hfn
    exact ⟨.inr ⟨.inr rfl, (hstage.1 hw).1⟩, (hstage.1 hw).2, hfn⟩
  | asleep =>
    rw [hpc] at hstage hfn
    exact ⟨.inl ⟨rfl, hstage.2.1⟩, hstage.2.2, hfn⟩
  | _ => rw [hpc] at hwaits; exact hwaits.elim

theorem popped_ne (hpc : s.pc t = .up w) : w ≠ t := by
  rintro rfl
  have hwaits := h.pending w (.inr ⟨w, hpc⟩)
  rwa [hpc] at hwaits

/-- `sema_up`: wherever the thread is, it has the permit and is not blocked. -/
theorem upped (hpc : s.pc t = .up w) :
    s.Upped (((({ s with released := update s.released w (s.released w + 1) }).setSema w
      (semaUp (s.sema w)).1).wake (semaUp (s.sema w)).2).setPc t (s.back t)) t w := by
  have hwt := h.popped_ne hpc
  rcases (h.pending_stage (.inr ⟨t, hpc⟩)).1 with ⟨-, hsema⟩ | ⟨hw, hsema⟩
  · rw [hsema]
    exact ⟨update_self ..,
      .inr ((update_of_ne hwt ..).trans (update_self ..)),
      fun x hxt hxw => (update_of_ne hxt ..).trans (update_of_ne hxw ..),
      update_self .., fun x hx => update_of_ne hx .., update_self ..,
      fun x hx => update_of_ne hx .., rfl, rfl, rfl, rfl, rfl⟩
  · rw [hsema]
    have hpcw : ∀ x ≠ t, update s.pc t (s.back t) x = s.pc x := fun x hx =>
      update_of_ne hx ..
    refine ⟨update_self .., ?_, fun x hxt _ => hpcw x hxt,
      update_self .., fun x hx => update_of_ne hx .., update_self ..,
      fun x hx => update_of_ne hx .., rfl, rfl, rfl, rfl, rfl⟩
    rcases hw with hw | hw
    · exact .inl ⟨(hpcw w hwt).trans hw, hw⟩
    · exact .inr ((hpcw w hwt).trans hw)

theorem back_cases (hpc : s.pc t = .up w ∨ s.pc t = .pop) :
    s.back t = .test ∧ (s.call t).fn = .broadcast ∨
      s.back t = .outside ∧ (s.call t).fn = .signal := by
  have hfn : (s.call t).fn ≠ .wait := by
    have hfn := (h.thread t).fn
    rcases hpc with hpc | hpc
    · rwa [hpc] at hfn
    · rwa [hpc] at hfn
  unfold back
  cases hf : (s.call t).fn with
  | wait => exact absurd hf hfn
  | signal => exact .inr ⟨rfl, rfl⟩
  | broadcast => exact .inl ⟨rfl, rfl⟩

variable (hpc : s.pc t = .up w) (hu : s.Upped s' t w)
include hpc hu

theorem upped_no_up (t' x : τ) : s'.pc t' ≠ .up x := by
  intro hup
  by_cases heq : t' = t
  · rw [heq, hu.signaller] at hup
    exact s.back_ne_up t x hup
  · by_cases heq' : t' = w
    · rw [heq'] at hup
      rcases hu.waiter with ⟨hw, -⟩ | hw
      · cases hw.symm.trans hup
      · cases hw.symm.trans hup
    · rw [hu.pc t' heq heq'] at hup
      have hin : (s.pc t).Inside := hpc ▸ trivial
      have hin' : (s.pc t').Inside := hup ▸ trivial
      exact heq (h.alone hin hin')

theorem upped_not_pending : ¬ s'.Pending w := by
  rintro (hmem | ⟨t', hup⟩)
  · rw [hu.waiters] at hmem
    exact h.popped t w hpc hmem
  · exact h.upped_no_up hpc hu t' w hup

theorem upped_pending {x : τ} (hx : x ≠ w) : s'.Pending x ↔ s.Pending x := by
  unfold Pending
  rw [hu.waiters]
  refine or_congr_right ⟨fun ⟨t', hup⟩ => absurd hup (h.upped_no_up hpc hu t' x),
    fun ⟨t', hup⟩ => ?_⟩
  have hin : (s.pc t).Inside := hpc ▸ trivial
  have hin' : (s.pc t').Inside := hup ▸ trivial
  rw [h.alone hin hin', hpc] at hup
  cases hup
  exact absurd rfl hx

/-- The thread that calls `sema_up`. -/
theorem upped_signaller : CondThread l s' t := by
  have ht := h.thread t
  have hpct := hu.signaller
  obtain ⟨ds, hp⟩ := ht.progress (hpc ▸ trivial)
  rcases h.back_cases (.inl hpc) with ⟨hb, hf⟩ | ⟨hb, hf⟩
  · rw [hb] at hpct
    refine .of_quiet hpct (fun _ => hu.locks ▸ ht.holds (hpc ▸ trivial)) (hu.call ▸ hf) ?_
      (fun _ => ⟨ds ++ [w], ?_, fun x => ?_, ?_, ?_⟩) ⟨nofun, nofun, nofun⟩
    · rw [Stage, hpct]
      exact trivial
    · have hws := hp.waiters
      rw [hpc] at hws
      rw [hu.call, hpct, hu.waiters, hws, append_assoc]
      rfl
    · rw [hu.call, count_append]
      have hx := hp.released x
      by_cases hxw : x = w
      · rw [hxw, count_singleton_self, hu.released_self, ← hxw, hx, Nat.add_assoc]
      · rw [hu.released x hxw, hx, count_singleton, if_neg fun h => hxw (eq_of_beq h).symm,
          Nat.add_zero]
    · rw [hu.call, hf]
      exact nofun
    · rw [hu.call]
      exact hp.fifo
  · exact .of_outside (hpct.trans hb)

/-- The thread that is released. -/
theorem upped_waiter : CondThread l s' w := by
  obtain ⟨-, hbefore, hfn⟩ := h.pending_stage (.inr ⟨t, hpc⟩)
  have hstage : (s'.Pending w → s'.sema w = ⟨0, []⟩ ∧ s'.released w = (s'.call w).released w) ∧
      (¬ s'.Pending w → s'.sema w = ⟨1, []⟩ ∧ s'.released w = (s'.call w).released w + 1) := by
    refine ⟨fun hpend => absurd hpend (h.upped_not_pending hpc hu), fun _ => ⟨hu.sema_self, ?_⟩⟩
    rw [hu.released_self, hu.call, hbefore]
  rcases hu.waiter with ⟨hpcw, hrel⟩ | hpcw
  · refine .of_quiet hpcw (fun _ => hu.locks ▸ (h.thread w).holds (hrel ▸ trivial)) (hu.call ▸ hfn)
      ?_ False.elim ⟨nofun, nofun, nofun⟩
    rwa [Stage, hpcw]
  · refine .of_quiet hpcw False.elim (hu.call ▸ hfn) ?_ False.elim ⟨nofun, nofun, nofun⟩
    rwa [Stage, hpcw]

/-- `sema_up`: the thread is released. -/
theorem up : CondInv l s' := by
  refine ⟨?_, ?_, fun t' hin' => ?_, fun t' => ?_, fun x hx => ?_,
    fun t' x hup => absurd hup (h.upped_no_up hpc hu t' x), ?_, ?_⟩
  · rw [hu.locks]
    exact h.lock
  · rw [hu.locks]
    exact h.waits
  · rw [hu.locks]
    by_cases heq : t' = t
    · exact heq ▸ h.live t (hpc ▸ nofun)
    · by_cases heq' : t' = w
      · refine h.live t' fun hout => ?_
        have hwaits := h.pending w (.inr ⟨t, hpc⟩)
        rwa [← heq', hout] at hwaits
      · exact h.live t' (hu.pc t' heq heq' ▸ hin')
  · by_cases heq : t' = t
    · exact heq ▸ h.upped_signaller hpc hu
    · by_cases heq' : t' = w
      · exact heq' ▸ h.upped_waiter hpc hu
      · have hin : (s.pc t).Inside := hpc ▸ trivial
        exact h.others hin heq hu.locks (hu.pc t' heq heq') (congrFun hu.call t')
          (hu.sema t' heq') (hu.released t' heq') (h.upped_pending hpc hu heq')
  · have hxw : x ≠ w := by
      rintro rfl
      exact h.upped_not_pending hpc hu hx
    have hwaits := h.pending x ((h.upped_pending hpc hu hxw).mp hx)
    have hxt : x ≠ t := by
      rintro rfl
      rwa [hpc] at hwaits
    rwa [hu.pc x hxt hxw]
  · rw [hu.waiters, hu.since]
    exact h.fifo
  · rw [hu.waiters, hu.since, hu.clock]
    exact h.clock

end

/-! ## locks -/

variable [DecidableEq ι]

section

variable (h : CondInv l s)
include h

theorem lockCall (hmay : s.MayLock l a)
    (hs : lockStep s.locks a = some locks) : CondInv l { s with locks } := by
  have hinit : a ≠ .init l := by
    rintro rfl
    exact hmay rfl
  refine ⟨h.lock.step h.waits (fun heq => absurd heq hinit) hs, h.waits.step hs,
    fun t hin => ?_, fun t => ?_, h.pending, h.popped, h.fifo, h.clock⟩
  · have ha : a.thread ≠ some t := fun ha => hin (hmay.outside ha)
    exact (live_other hs ha).trans (h.live t hin)
  · by_cases ha : a.thread = some t
    · exact .of_outside (hmay.outside ha)
    · exact (h.thread t).congr (h.lock.keeps h.waits hs ha hinit) rfl rfl rfl rfl Iff.rfl
        fun _ => ⟨rfl, rfl⟩

theorem lockRun (hin : s.locks.pc t ≠ .outside)
    (hs : lockStep s.locks (.run t) = some locks) : CondInv l { s with locks } := by
  have hC : InitUnused l s.locks (.run t) := nofun
  have hlive : locks.live = s.locks.live := live_lockStep hs nofun
  refine ⟨h.lock.step h.waits hC hs, h.waits.step hs, fun t' => ?_, fun t' => ?_, h.pending,
    h.popped, h.fifo, h.clock⟩
  · dsimp only
    rw [hlive]
    exact h.live t'
  · have hkeeps : s.locks.Keeps locks l t' := by
      by_cases heq : t' = t
      · subst heq
        exact ⟨fun hheld => absurd hheld.1 hin, fun hout => absurd hout hin,
          fun hacq => (lockStep_run hs).2.acquiring hacq hin, congrFun hlive t'⟩
      · exact h.lock.keeps h.waits hs (fun h => heq (some.inj h).symm) nofun
    exact (h.thread t').congr hkeeps rfl rfl rfl rfl Iff.rfl fun _ => ⟨rfl, rfl⟩

theorem release (hpc : s.pc t = .release) (hs : lockStep s.locks (.release t l) = some locks) :
    CondInv l (({ s with locks }).setPc t .down) := by
  have ht := h.thread t
  have hstage := ht.stage
  have hfn := ht.fn
  rw [Stage, hpc] at hstage
  rw [hpc] at hfn
  have hC : InitUnused l s.locks (.release t l) := nofun
  refine h.quiet rfl (fun w => ⟨hpc ▸ nofun, nofun⟩) (fun _ => .inl trivial) rfl rfl
    rfl rfl (fun _ _ => rfl) (fun _ _ => rfl) (h.lock.step h.waits hC hs) (h.waits.step hs)
    (fun t' hne => h.lock.keeps h.waits hs (fun heq => hne (some.inj heq).symm) nofun)
    (fun _ => (congrFun (live_lockStep hs nofun) t).trans (h.live t (hpc ▸ nofun)))
    fun hpending hpc' => ?_
  refine .of_quiet hpc' False.elim hfn ?_ False.elim ⟨nofun, nofun, nofun⟩
  rwa [Stage, hpc', hpending]

omit h in
theorem acquiring_of_lockStep (hout : s.locks.pc t = .outside)
    (hs : lockStep s.locks (.acquire t l) = some locks) : locks.Acquiring t l := by
  obtain ⟨-, -, rfl⟩ := lockStep_acquire hs
  rw [lockAcquire]
  split
  · next hheld => exact .inl ⟨hout, hheld⟩
  · exact .inr (by rw [LockSys.setPc_self]; exact rfl)

theorem acquire (hpc : s.pc t = .acquire) (hs : lockStep s.locks (.acquire t l) = some locks) :
    CondInv l (({ s with locks }).setPc t .done) := by
  have ht := h.thread t
  have hstage := ht.stage
  have hfn := ht.fn
  have hout := ht.still (.inr hpc)
  rw [Stage, hpc] at hstage
  rw [hpc] at hfn
  have hC : InitUnused l s.locks (.acquire t l) := nofun
  refine h.quiet rfl (fun w => ⟨hpc ▸ nofun, nofun⟩) (by rw [hpc]; exact False.elim) rfl
    rfl rfl rfl (fun _ _ => rfl) (fun _ _ => rfl) (h.lock.step h.waits hC hs) (h.waits.step hs)
    (fun t' hne => h.lock.keeps h.waits hs (fun heq => hne (some.inj heq).symm) nofun)
    (fun _ => (congrFun (live_lockStep hs nofun) t).trans (h.live t (hpc ▸ nofun)))
    fun hpending hpc' => ?_
  refine .of_pc hpc' False.elim (fun h => h.elim nofun nofun) (fun _ => acquiring_of_lockStep hout hs) hfn ?_
    False.elim
  rwa [Stage, hpc']

/-! ## every run -/

theorem condRun (hlive : s.locks.live t = true) (hout : s.locks.pc t = .outside)
    (hs : condRun l s t = some s') : CondInv l s' := by
  unfold Pintos.condRun at hs
  cases hpc : s.pc t with
  | outside => rw [hpc] at hs; cases hs
  | asleep => rw [hpc] at hs; cases hs
  | init =>
    rw [hpc] at hs
    obtain ⟨-, rfl⟩ := of_guard hs
    exact h.init hpc
  | push =>
    rw [hpc] at hs
    exact some.inj hs ▸ h.push hpc
  | release =>
    rw [hpc] at hs
    obtain ⟨locks, hrel, rfl⟩ := map_eq_some_iff.mp hs
    refine h.release hpc ?_
    rwa [lockStep, if_pos ⟨hlive, hout⟩]
  | down =>
    rw [hpc] at hs
    exact some.inj hs ▸ h.down hpc hout
  | acquire =>
    rw [hpc] at hs
    refine some.inj hs ▸ h.acquire hpc ?_
    rw [lockStep, if_pos ⟨hlive, hout⟩]
  | done =>
    rw [hpc] at hs
    refine some.inj hs ▸ h.leave (fun w => by simp [hpc]) ?_ (.inl rfl)
    rw [hpc]
    exact id
  | test =>
    rw [hpc] at hs
    refine some.inj hs ▸ h.leave (fun w => ⟨by simp [hpc], ?_⟩) (by rw [hpc]; exact id) ?_
    · split <;> simp
    · have hfn := (h.thread t).fn
      rw [hpc] at hfn
      split
      · exact .inl rfl
      · refine .inr ⟨hpc ▸ trivial, trivial, ?_⟩
        change (s.call t).fn ≠ .wait
        simp [show (s.call t).fn = .broadcast from hfn]
  | pop =>
    rw [hpc] at hs
    dsimp only at hs
    split at hs
    · split at hs
      · next hnil =>
        refine some.inj hs ▸ h.leave (fun w => ⟨by simp [hpc], s.back_ne_up t w⟩)
          (by rw [hpc]; exact id) ?_
        rcases h.back_cases (w := t) (.inr hpc) with hb | hb
        · rw [hb.1, hb.2]
          exact .inr ⟨hpc ▸ trivial, trivial, rfl⟩
        · exact .inl hb.1
      · next w ws hcons => exact some.inj hs ▸ h.pop hpc hcons
    · cases hs
  | up w =>
    rw [hpc] at hs
    exact some.inj hs ▸ h.up hpc (h.upped hpc)

/-- **One step keeps the invariant.** -/
theorem step {a : CondAct τ ι} (hs : condStep l s a = some s') : CondInv l s' := by
  unfold condStep at hs
  cases a with
  | lock a =>
    dsimp only at hs
    split at hs
    · next hmay =>
      obtain ⟨locks, hstep, rfl⟩ := map_eq_some_iff.mp hs
      exact h.lockCall hmay hstep
    · cases hs
  | call t fn =>
    obtain ⟨hc, rfl⟩ := of_guard hs
    exact h.call hc.1 hc.2.2.1 ⟨hc.2.1, hc.2.2.2⟩
  | run t =>
    dsimp only at hs
    split at hs
    · next hlive =>
      split at hs
      · next hout => exact h.condRun hlive hout hs
      · next hin =>
        obtain ⟨locks, hstep, rfl⟩ := map_eq_some_iff.mp hs
        exact h.lockRun hin hstep
    · cases hs

end

end CondInv

theorem condInv_boot : CondInv l (condBoot : CondSys τ ι) where
  lock := lockInv_boot
  waits := waitersInv_boot
  live _ h := absurd rfl h
  thread _ := .of_outside rfl
  pending _ h := h.elim nofun nofun
  popped _ _ h := nomatch h
  fifo := .nil
  clock _ h := nomatch h

/-- **Run lemma**: the invariant holds in every run. -/
theorem condInv_of_reach [DecidableEq ι] (h : (condMachine l).Reach s) : CondInv l s :=
  h.invariant (fun _ h0 => h0 ▸ condInv_boot) fun _ _ _ hi _ hs => hi.step hs

end Invariant

end Pintos

