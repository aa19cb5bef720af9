import Pintos.Userprog.Process

/-!
# Pintos.Userprog.ProcessInv

What holds of the process tree and of its semaphores in every state of every
run, whatever the processes do: whose records a list holds (`TreeInv`), who is
on a waiters list (`BlockedInv`), and when a record has a permit (`NotifyInv`).
-/

namespace Pintos

open Function ProcPc ProcSys

variable {s s' : ProcSys} {a : ProcAct} {p q c w : Tid}

/-! ## phases -/

namespace ProcPc

/-- The child that a call of `process_execute` has created and not yet
registered. -/
@[simp]
def execChild : ProcPc → Option Tid
  | .execDown t | .execWait t => t
  | .execPush c => some c
  | _ => none

/-- The child that a call of `process_execute` is waiting for to report. -/
@[simp, grind]
def downChild : ProcPc → Option Tid
  | .execDown t | .execWait t => t
  | _ => none

/-- Between the `sema_init`s of `process_execute` and its `sema_up`. -/
@[simp]
def inExec : ProcPc → Bool
  | .execCreate | .execDown _ | .execWait _ | .execPush _ | .execUp _ => true
  | _ => false

/-- Loaded, and not yet past `sema_down (&parent->child_entry_sema)`. -/
@[simp, grind]
def awaiting : ProcPc → Bool
  | .passing | .entryDown | .entryWait => true
  | _ => false

/-- In `exit` or `thread_exit`, or terminated. -/
@[simp, grind]
def leaving : ProcPc → Bool
  | .exitFind _ | .exitUp | .exitFree | .exitClean | .exiting | .dead => true
  | _ => false

/-- Blocked in `sema_down`. -/
@[simp]
def blocked : ProcPc → Bool
  | .entryWait | .execWait _ | .waitBlocked _ => true
  | _ => false

/-- Blocked in `sema_down (&child_load_sema)`. -/
@[simp, grind]
def execWaiting : ProcPc → Bool
  | .execWait _ => true
  | _ => false

/-- The child that a call of `process_wait` has found. -/
@[simp]
def waitChild : ProcPc → Option Tid
  | .waitDown c | .waitBlocked c | .waitRemove c => some c
  | _ => none

end ProcPc

theorem execWaiting_iff {pc : ProcPc} : pc.execWaiting = true ↔ ∃ t, pc = .execWait t := by
  cases pc <;> simp

theorem downChild_eq_some {pc : ProcPc} :
    pc.downChild = some c ↔ pc = .execDown (some c) ∨ pc = .execWait (some c) := by
  cases pc <;> simp

theorem waitChild_eq_some {pc : ProcPc} :
    pc.waitChild = some c ↔ pc = .waitDown c ∨ pc = .waitBlocked c ∨ pc = .waitRemove c := by
  cases pc <;> simp

theorem execChild_of_downChild {pc : ProcPc} (h : pc.downChild = some c) :
    pc.execChild = some c := by
  rcases downChild_eq_some.mp h with rfl | rfl <;> rfl

theorem inExec_of_execChild {pc : ProcPc} (h : pc.execChild = some c) : pc.inExec = true := by
  cases pc <;> simp_all [execChild, inExec]

theorem execWaiting_of_not_blocked {pc : ProcPc} (h : pc.blocked = false) :
    pc.execWaiting = false := by
  cases pc <;> simp_all [blocked, execWaiting]

@[grind →] theorem not_awaiting_of_leaving {pc : ProcPc} (h : pc.leaving = true) :
    pc.awaiting = false := by
  cases pc <;> simp_all [leaving, awaiting]

theorem not_leaving_of_awaiting {pc : ProcPc} (h : pc.awaiting = true) : pc.leaving = false := by
  cases pc <;> simp_all [leaving, awaiting]

/-! ## waking -/

/-- About to test the value of a semaphore in `sema_down`. -/
def ProcPc.testing : ProcPc → Bool
  | .entryDown | .execDown _ | .waitDown _ => true
  | _ => false

/-- Waking leaves everybody alone who does not get to a test by it. -/
theorem woken_eq_iff {pc x : ProcPc} (hb : x.blocked = false) (ht : x.testing = false) :
    pc.woken = x ↔ pc = x := by
  cases pc <;> grind [woken, blocked, testing]

section

variable {pc : ProcPc}

@[grind =] theorem woken_eq_unborn : pc.woken = .unborn ↔ pc = .unborn := woken_eq_iff rfl rfl

@[grind =] theorem woken_eq_loading : pc.woken = .loading ↔ pc = .loading := woken_eq_iff rfl rfl

@[grind =] theorem woken_eq_execCreate : pc.woken = .execCreate ↔ pc = .execCreate :=
  woken_eq_iff rfl rfl

@[grind =] theorem woken_eq_execPush : pc.woken = .execPush c ↔ pc = .execPush c :=
  woken_eq_iff rfl rfl

@[grind =] theorem woken_eq_waitRemove : pc.woken = .waitRemove c ↔ pc = .waitRemove c :=
  woken_eq_iff rfl rfl

@[grind =] theorem woken_eq_exitFind {status : Int} :
    pc.woken = .exitFind status ↔ pc = .exitFind status :=
  woken_eq_iff rfl rfl

@[grind =] theorem woken_eq_exitUp : pc.woken = .exitUp ↔ pc = .exitUp := woken_eq_iff rfl rfl

@[grind =] theorem woken_eq_dead : pc.woken = .dead ↔ pc = .dead := woken_eq_iff rfl rfl

theorem woken_ne_of_blocked {x : ProcPc} (hx : x.blocked = true) : pc.woken ≠ x := by
  cases pc <;> grind [woken, blocked]

@[grind =] theorem woken_eq_execWait {t : Option Tid} : pc.woken = .execWait t ↔ False :=
  ⟨woken_ne_of_blocked rfl, False.elim⟩

@[grind =] theorem woken_eq_waitBlocked : pc.woken = .waitBlocked c ↔ False :=
  ⟨woken_ne_of_blocked rfl, False.elim⟩

@[simp, grind =] theorem woken_execChild : pc.woken.execChild = pc.execChild := by cases pc <;> rfl

@[simp, grind =] theorem woken_downChild : pc.woken.downChild = pc.downChild := by cases pc <;> rfl

@[simp, grind =] theorem woken_waitChild : pc.woken.waitChild = pc.waitChild := by cases pc <;> rfl

@[simp, grind =] theorem woken_inExec : pc.woken.inExec = pc.inExec := by cases pc <;> rfl

@[simp, grind =] theorem woken_awaiting : pc.woken.awaiting = pc.awaiting := by cases pc <;> rfl

@[simp, grind =] theorem woken_leaving : pc.woken.leaving = pc.leaving := by cases pc <;> rfl

end

/-! ## what a step does to the program counters -/

section Counters

variable {R : Tid → ProcPc → ProcPc → Prop} {pc : Tid → ProcPc} {x : ProcPc} {o : Option Tid}

/-- A relation between the old and the new program counters: one thread moves,
and it is enough to look at that thread. -/
theorem forall_moved (hrefl : ∀ t y, R t y y) (hp : R p (pc p) x) (t : Tid) :
    R t (pc t) (update pc p x t) := by
  by_cases ht : t = p
  · rwa [ht, update_self]
  · rw [update_of_ne ht]
    exact hrefl t _

/-- The same when the step also wakes a thread. -/
theorem forall_woken (hrefl : ∀ t y, R t y y) (hwoken : ∀ t y, R t y y.woken) (hp : R p (pc p) x)
    (t : Tid) : R t (pc t) (update (fun t => if o = some t then (pc t).woken else pc t) p x t) := by
  by_cases ht : t = p
  · rwa [ht, update_self]
  · rw [update_of_ne ht]
    split
    · exact hwoken t _
    · exact hrefl t _

end Counters

/-! ## the process tree -/

/-- Tids are handed out in order, and a record in a `child_list` is that of a
child of the list's owner. -/
@[grind cases eager]
structure TreeInv (s : ProcSys) : Prop where
  unborn : ∀ {t}, s.nextTid ≤ t → s.pc t = .unborn ∧ s.childList t = []
  born : ∀ {c p}, s.parent c = some p → c < s.nextTid
  mem_parent : ∀ {p c}, c ∈ s.childList p → s.parent c = some p
  nodup : ∀ p, (s.childList p).Nodup
  exec_child : ∀ {p c}, (s.pc p).execChild = some c → s.parent c = some p ∧ c ∉ s.childList p
  wait_child : ∀ {p c}, (s.pc p).waitChild = some c → c ∈ s.childList p

theorem treeInv_boot : TreeInv procBoot := by
  constructor <;> simp [procBoot] <;> grind [execChild, waitChild]

/-- Nobody is born, no call of `process_execute` gets another child, and a wait
that gets one finds it on the list. -/
@[simp]
def TreeInv.Kept (s : ProcSys) (t : Tid) (y x : ProcPc) : Prop :=
  (y = .unborn → x = .unborn) ∧ (∀ c, x.execChild = some c → y.execChild = some c) ∧
    ∀ c, x.waitChild = some c → y.waitChild = some c ∨ c ∈ s.childList t

theorem TreeInv.Kept.refl (t : Tid) (y : ProcPc) : TreeInv.Kept s t y y :=
  ⟨id, fun _ => id, fun _ => .inl⟩

theorem TreeInv.Kept.woken (t : Tid) (y : ProcPc) : TreeInv.Kept s t y y.woken := by
  refine ⟨woken_eq_unborn.mpr, fun c => ?_, fun c => ?_⟩
  · rw [woken_execChild]
    exact id
  · rw [woken_waitChild]
    exact .inl

section

variable (h : TreeInv s)
include h

/-- Steps that change neither the tree nor a list. -/
theorem TreeInv.congr (hn : s'.nextTid = s.nextTid) (hp : s'.parent = s.parent)
    (hl : s'.childList = s.childList) (hk : ∀ t, TreeInv.Kept s t (s.pc t) (s'.pc t)) :
    TreeInv s' where
  unborn ht := by
    rw [hn] at ht
    rw [hl]
    exact ⟨(hk _).1 (h.unborn ht).1, (h.unborn ht).2⟩
  born := by rw [hn, hp]; exact h.born
  mem_parent := by rw [hl, hp]; exact h.mem_parent
  nodup := by rw [hl]; exact h.nodup
  exec_child he := by rw [hl, hp]; exact h.exec_child ((hk _).2.1 _ he)
  wait_child he := by rw [hl]; exact ((hk _).2.2 _ he).elim h.wait_child id

theorem TreeInv.execCreate (hpc : s.pc p = .execCreate) : TreeInv (execCreate s p) := by
  constructor <;> simp only [Pintos.execCreate, update_apply] <;>
    grind [execChild, waitChild]

theorem TreeInv.execPush (hpc : s.pc p = .execPush c) : TreeInv (execPush s p c) := by
  constructor <;> simp only [Pintos.execPush, update_apply] <;>
    grind [execChild, waitChild]

theorem TreeInv.waitRemove (hpc : s.pc p = .waitRemove c) : TreeInv (waitRemove s p c) := by
  constructor <;> simp only [Pintos.waitRemove, update_apply] <;>
    grind [execChild, waitChild]

theorem TreeInv.exitFree (hpc : s.pc p = .exitFree) : TreeInv (exitFree s p) := by
  constructor <;> simp only [Pintos.exitFree, update_apply] <;>
    grind [execChild, waitChild]

theorem TreeInv.step (hm : ProcMove s a s') : TreeInv s' := by
  cases hm with
  | create hpc => exact h.execCreate hpc
  | execPush hpc => exact h.execPush hpc
  | waitRemove hpc => exact h.waitRemove hpc
  | exitFree hpc => exact h.exitFree hpc
  | execUp hpc | exitUp hpc hq hlive hmem =>
    refine h.congr rfl rfl rfl (forall_woken .refl .woken ?_)
    simp [hpc]
  | @load p q ok hpc hq hlive =>
    refine h.congr rfl rfl rfl (forall_woken .refl .woken ?_)
    cases ok <;> simp [hpc]
  | waitMiss hpc hmem => exact h.congr rfl rfl rfl fun t => .refl t _
  | waitHit hpc hmem =>
    refine h.congr rfl rfl rfl (forall_moved .refl ?_)
    simp [hpc, hmem]
  | die hpc =>
    refine h.congr rfl rfl rfl (forall_moved .refl ?_)
    rcases hpc with hpc | hpc | hpc <;>
      simp [hpc]
  | _ =>
    refine h.congr rfl rfl rfl (forall_moved .refl ?_)
    simp [‹s.pc _ = _›]

theorem TreeInv.downChild_unique (hc : (s.pc p).downChild = some c)
    (hq : s.parent c = some q) : p = q :=
  Option.some.inj ((h.exec_child (execChild_of_downChild hc)).1.symm.trans hq)

end

/-! ## blocked threads -/

/-- A thread on a waiters list is blocked on that semaphore, and is on the list
once.  On a `child_load_sema` only its owner waits. -/
@[grind cases eager]
structure BlockedInv (s : ProcSys) : Prop where
  entry : ∀ {w p}, w ∈ (s.childEntrySema p).waiters → s.pc w = .entryWait ∧ s.parent w = some p
  entry_nodup : ∀ p, (s.childEntrySema p).waiters.Nodup
  load : ∀ p, (s.childLoadSema p).waiters = if (s.pc p).execWaiting then [p] else []
  child : ∀ {w c}, w ∈ (s.childSema c).waiters ↔ s.pc w = .waitBlocked c
  child_nodup : ∀ c, (s.childSema c).waiters.Nodup

theorem blockedInv_boot : BlockedInv procBoot := by
  constructor <;> simp [procBoot, semaInit] <;> grind

/-- Nobody gets blocked, and nobody who is blocked moves. -/
@[simp]
def BlockedInv.Kept (_ : Tid) (y x : ProcPc) : Prop :=
  x = y ∨ y.blocked = false ∧ x.blocked = false

theorem BlockedInv.Kept.refl (t : Tid) (y : ProcPc) : BlockedInv.Kept t y y := .inl rfl

section

variable (h : BlockedInv s)
include h

/-- Steps that touch no waiters list. -/
theorem BlockedInv.congr (hp : s'.parent = s.parent)
    (he : ∀ p, (s'.childEntrySema p).waiters = (s.childEntrySema p).waiters)
    (hl : ∀ p, (s'.childLoadSema p).waiters = (s.childLoadSema p).waiters)
    (hc : ∀ c, (s'.childSema c).waiters = (s.childSema c).waiters)
    (hk : ∀ t, BlockedInv.Kept t (s.pc t) (s'.pc t)) : BlockedInv s' := by
  unfold BlockedInv.Kept at hk
  constructor <;> simp only [he, hl, hc, hp] <;> grind [blocked, execWaiting_of_not_blocked]

theorem BlockedInv.execInit (hpc : s.pc p = .execInit) : BlockedInv (execInit s p) := by
  constructor <;> simp only [Pintos.execInit, semaInit, update_apply] <;> grind

theorem BlockedInv.execCreate (ht : TreeInv s) (hpc : s.pc p = .execCreate) :
    BlockedInv (execCreate s p) := by
  have hunborn := @ht.unborn
  have hnone : ∀ w, s.pc w ≠ .waitBlocked s.nextTid := fun w hw =>
    absurd (ht.born (ht.mem_parent (ht.wait_child (by rw [hw]; rfl)))) (Nat.lt_irrefl _)
  constructor <;> simp only [Pintos.execCreate, semaInit, update_apply] <;> grind

theorem BlockedInv.execUp (hpc : s.pc p = .execUp c) : BlockedInv (execUp s p) := by
  cases hq : (s.childEntrySema p).waiters with
  | nil =>
    constructor <;> simp only [Pintos.execUp, semaUp, hq, setPc, wake,
      update_apply] <;> grind
  | cons w ws =>
    have hw : s.pc w = .entryWait := (h.entry (hq ▸ List.mem_cons_self)).1
    constructor <;> simp only [Pintos.execUp, semaUp, hq, setPc, wake,
      update_apply] <;> grind [woken]

theorem BlockedInv.reportLoad {ok : Bool} (hpc : s.pc p = .loading) :
    BlockedInv (reportLoad s p q ok) := by
  have hq := h.load q
  cases hw : (s.pc q).execWaiting with
  | false =>
    rw [hw] at hq
    constructor <;> simp only [Pintos.reportLoad, semaUp, hq, setPc, wake,
      update_apply] <;> grind
  | true =>
    obtain ⟨t, ht⟩ := execWaiting_iff.mp hw
    rw [hw] at hq
    constructor <;> simp only [Pintos.reportLoad, semaUp, hq, setPc, wake,
      update_apply] <;> grind [woken]

theorem BlockedInv.exitUp (hpc : s.pc p = .exitUp) : BlockedInv (exitUp s p) := by
  cases hq : (s.childSema p).waiters with
  | nil =>
    constructor <;> simp only [Pintos.exitUp, semaUp, hq, setPc, wake,
      update_apply] <;> grind
  | cons w ws =>
    have hw : s.pc w = .waitBlocked p := h.child.mp (hq ▸ List.mem_cons_self)
    constructor <;> simp only [Pintos.exitUp, semaUp, hq, setPc, wake,
      update_apply] <;> grind [woken]

omit h in
theorem waiters_update {f : Tid → Semaphore Tid} {v : Nat} (t : Tid) :
    (update f q ⟨v, (f q).waiters⟩ t).waiters = (f t).waiters := by
  by_cases ht : t = q
  · rw [ht, update_self]
  · rw [update_of_ne ht]

theorem BlockedInv.execBlock {t : Option Tid} (hpc : s.pc p = .execDown t) :
    BlockedInv { s with
      childLoadSema := update s.childLoadSema p
        ⟨(s.childLoadSema p).value, (s.childLoadSema p).waiters ++ [p]⟩
      pc := update s.pc p (.execWait t) } := by
  constructor <;> simp only [update_apply] <;> grind

theorem BlockedInv.entryBlock (hpc : s.pc p = .entryDown) (hq : s.parent p = some q) :
    BlockedInv { s with
      childEntrySema := update s.childEntrySema q
        ⟨(s.childEntrySema q).value, (s.childEntrySema q).waiters ++ [p]⟩
      pc := update s.pc p .entryWait } := by
  constructor <;> simp only [update_apply] <;> grind

theorem BlockedInv.waitBlock (hpc : s.pc p = .waitDown c) :
    BlockedInv { s with
      childSema := update s.childSema c
        ⟨(s.childSema c).value, (s.childSema c).waiters ++ [p]⟩
      pc := update s.pc p (.waitBlocked c) } := by
  constructor <;> simp only [update_apply] <;> grind

theorem BlockedInv.step (ht : TreeInv s) (hm : ProcMove s a s') : BlockedInv s' := by
  cases hm with
  | execInit hpc => exact h.execInit hpc
  | create hpc => exact h.execCreate ht hpc
  | execUp hpc => exact h.execUp hpc
  | load hpc hq hlive => exact h.reportLoad hpc
  | exitUp hpc hq hlive hmem => exact h.exitUp hpc
  | execBlock hpc hv => exact h.execBlock hpc
  | entryBlock hpc hq hlive hv => exact h.entryBlock hpc hq
  | waitBlock hpc hv => exact h.waitBlock hpc
  | execTake hpc hv hok | execReturn hpc hv hfail =>
    exact h.congr rfl (fun _ => rfl) waiters_update (fun _ => rfl)
      (forall_moved .refl (.inr ⟨by rw [hpc]; rfl, rfl⟩))
  | entryTake hpc hq hlive hv =>
    exact h.congr rfl waiters_update (fun _ => rfl) (fun _ => rfl)
      (forall_moved .refl (.inr ⟨by rw [hpc]; rfl, rfl⟩))
  | waitTake hpc hv =>
    exact h.congr rfl (fun _ => rfl) (fun _ => rfl) waiters_update
      (forall_moved .refl (.inr ⟨by rw [hpc]; rfl, rfl⟩))
  | waitMiss hpc hmem =>
    exact h.congr rfl (fun _ => rfl) (fun _ => rfl) (fun _ => rfl) fun t => .refl t _
  | die hpc =>
    refine h.congr rfl (fun _ => rfl) (fun _ => rfl) (fun _ => rfl) (forall_moved .refl (.inr ?_))
    rcases hpc with hpc | hpc | hpc <;> exact ⟨by rw [hpc]; rfl, rfl⟩
  | _ =>
    exact h.congr rfl (fun _ => rfl) (fun _ => rfl) (fun _ => rfl)
      (forall_moved .refl (.inr ⟨by rw [‹s.pc _ = _›]; rfl, rfl⟩))

end

/-! ## notification -/

/-- The semaphore of a record has a permit, and its waiter gets on, only once
the child has called `sema_up`, which it does in `exit`. -/
@[grind cases eager]
structure NotifyInv (s : ProcSys) : Prop where
  leaving : ∀ {c}, s.ups c ≠ 0 → (s.pc c).leaving = true
  permit : ∀ {c}, s.ups c = 0 → (s.childSema c).value = 0 ∧ ∀ p, s.pc p ≠ .waitRemove c
  blocked : ∀ {p c}, s.pc p = .waitBlocked c → (s.childSema c).value = 0

theorem notifyInv_boot : NotifyInv procBoot := by
  constructor <;> simp [procBoot, semaInit]; grind

/-- Only the parent waits on a record: it is the thread that `sema_up` pops. -/
theorem head?_childSema (ht : TreeInv s) (hb : BlockedInv s) (hw : s.pc w = .waitBlocked c) :
    (s.childSema c).waiters.head? = some w := by
  have hparent : ∀ {v}, v ∈ (s.childSema c).waiters → s.parent c = some v := fun hv =>
    ht.mem_parent (ht.wait_child (by rw [hb.child.mp hv]; rfl))
  have hmem : w ∈ (s.childSema c).waiters := hb.child.mpr hw
  cases hq : (s.childSema c).waiters with
  | nil => simp [hq] at hmem
  | cons v vs =>
    have hv : s.parent c = some v := hparent (by simp [hq])
    rw [List.head?_cons, ← hv, hparent hmem]

/-- Nobody comes back from `exit`, and no wait gets blocked or gets on. -/
@[simp]
def NotifyInv.Kept (_ : Tid) (y x : ProcPc) : Prop :=
  (y.leaving = true → x.leaving = true) ∧ (∀ c, x = .waitRemove c → y = .waitRemove c) ∧
    ∀ c, x = .waitBlocked c → y = .waitBlocked c

theorem NotifyInv.Kept.refl (t : Tid) (y : ProcPc) : NotifyInv.Kept t y y :=
  ⟨id, fun _ => id, fun _ => id⟩

theorem NotifyInv.Kept.woken (t : Tid) (y : ProcPc) : NotifyInv.Kept t y y.woken := by
  refine ⟨fun hy => ?_, fun c => woken_eq_waitRemove.mp, fun c hc => ?_⟩
  · rw [woken_leaving, hy]
  · exact (woken_eq_waitBlocked.mp hc).elim

section

variable (h : NotifyInv s)
include h

/-- Steps that touch no record's semaphore. -/
theorem NotifyInv.congr (hs : s'.childSema = s.childSema) (hu : s'.ups = s.ups)
    (hk : ∀ t, NotifyInv.Kept t (s.pc t) (s'.pc t)) : NotifyInv s' where
  leaving hc := (hk _).1 (h.leaving (hu ▸ hc))
  permit hc := by
    obtain ⟨hv, hp⟩ := h.permit (hu ▸ hc)
    exact ⟨by rw [hs, hv], fun p hpc => hp p ((hk p).2.1 _ hpc)⟩
  blocked hpc := by rw [hs, h.blocked ((hk _).2.2 _ hpc)]

theorem NotifyInv.execCreate (ht : TreeInv s) (hpc : s.pc p = .execCreate) :
    NotifyInv (execCreate s p) := by
  have hunborn := @ht.unborn
  have hnone : ∀ w, (s.pc w).waitChild ≠ some s.nextTid := fun w hw =>
    absurd (ht.born (ht.mem_parent (ht.wait_child hw))) (Nat.lt_irrefl _)
  constructor <;> simp only [Pintos.execCreate, semaInit, update_apply] <;>
    grind [waitChild]

theorem NotifyInv.waitTake (hpc : s.pc p = .waitDown c) (hv : (s.childSema c).value ≠ 0) :
    NotifyInv { s with
      childSema := update s.childSema c
        ⟨(s.childSema c).value - 1, (s.childSema c).waiters⟩
      pc := update s.pc p (.waitRemove c) } := by
  constructor <;> simp only [update_apply] <;> grind

theorem NotifyInv.waitBlock (hpc : s.pc p = .waitDown c) (hv : (s.childSema c).value = 0) :
    NotifyInv { s with
      childSema := update s.childSema c
        ⟨(s.childSema c).value, (s.childSema c).waiters ++ [p]⟩
      pc := update s.pc p (.waitBlocked c) } := by
  constructor <;> simp only [update_apply] <;> grind

theorem NotifyInv.exitUp (ht : TreeInv s) (hb : BlockedInv s) : NotifyInv (exitUp s p) := by
  have hwaiter := fun w => head?_childSema ht hb (c := p) (w := w)
  constructor <;> simp only [Pintos.exitUp, semaUp_eq, setPc, wake,
    update_apply] <;> grind

theorem NotifyInv.step (ht : TreeInv s) (hb : BlockedInv s)
    (hm : ProcMove s a s') : NotifyInv s' := by
  cases hm with
  | create hpc => exact h.execCreate ht hpc
  | waitTake hpc hv => exact h.waitTake hpc hv
  | waitBlock hpc hv => exact h.waitBlock hpc hv
  | exitUp hpc hq hlive hmem => exact h.exitUp ht hb
  | execUp hpc =>
    refine h.congr rfl rfl (forall_woken .refl .woken ?_)
    simp [hpc]
  | @load p q ok hpc hq hlive =>
    refine h.congr rfl rfl (forall_woken .refl .woken ?_)
    cases ok <;> simp [hpc]
  | waitMiss hpc hmem => exact h.congr rfl rfl fun t => .refl t _
  | die hpc =>
    refine h.congr rfl rfl (forall_moved .refl ?_)
    rcases hpc with hpc | hpc | hpc <;> simp [hpc]
  | _ =>
    refine h.congr rfl rfl (forall_moved .refl ?_)
    simp [‹s.pc _ = _›]

end

end Pintos



