import Pintos.Threads.Semaphore

/-!
# Pintos.Userprog.Process

Process creation, termination and waiting: `process_execute`, `start_process`
and `process_wait` (`userprog/process.c`), `exit` (`userprog/syscall.c`) and
`kill` (`userprog/exception.c`), for any tree of processes and any
interleaving.  Every semaphore operation and every update of a `child_list` is
a step of its own.

```
process_execute:  sema_inits; thread_create; sema_down load; push record; sema_up entry
start_process:    load; load_success and sema_up load; argument_passing; sema_down entry
process_wait:     find record; sema_down child; list_remove, return exit_status
exit:             find record, set exit_status; sema_up child; free records; clean up
```

A `struct child` is named by the tid of its child, and `child_list` is the list
of those names.  A process is *leaving* from its call of `exit` (or of
`thread_exit`) on.  Its page is released as soon as it has been switched away
from, so a process that is `dead` has no `struct thread`; a step that would
follow a pointer to it, or to a freed record, is not enabled.
-/

namespace Pintos

/-- `tid_t`. -/
abbrev Tid := Nat

/-- Where a process is.  `execDown` and `execWait` carry the tid that
`thread_create` returned, `none` for `TID_ERROR`. -/
inductive ProcPc
  | unborn
  | loading
  | passing
  | entryDown
  | entryWait
  | user
  | execInit
  | execCreate
  | execDown (child : Option Tid)
  | execWait (child : Option Tid)
  | execPush (child : Tid)
  | execUp (child : Tid)
  | waitDown (child : Tid)
  | waitBlocked (child : Tid)
  | waitRemove (child : Tid)
  | exitFind (status : Int)
  | exitUp
  | exitFree
  | exitClean
  | exiting
  | dead
deriving DecidableEq

/-- History: one return of `process_wait`, and whether a record was found. -/
structure WaitReturn where
  tid : Tid
  value : Int
  found : Bool
deriving DecidableEq

/-- The fields of every `struct thread` (`pc` to `loadSuccess`) and of every
`struct child` (`exitStatus`, `childSema`) that these functions use.  The rest
is history: the argument of a process's first call of `exit`, the returns of its
calls of `process_wait`, and the calls of `sema_up` on a record. -/
structure ProcSys where
  pc : Tid → ProcPc
  parent : Tid → Option Tid
  childList : Tid → List Tid
  childEntrySema : Tid → Semaphore Tid
  childLoadSema : Tid → Semaphore Tid
  loadSuccess : Tid → Bool
  exitStatus : Tid → Int
  childSema : Tid → Semaphore Tid
  nextTid : Tid
  exitArg : Tid → Option Int
  waits : Tid → List WaitReturn
  ups : Tid → Nat

/-- A call made by user code, the next statement of a process, or a choice of
its environment: whether `thread_create` and `load` succeed, and a call of
`exit (-1)` from kernel code (inside `load`, `argument_passing` or the clean-up
of `exit`). -/
inductive ProcAct
  | execute (p : Tid)
  | wait (p : Tid) (child : Tid)
  | exit (p : Tid) (status : Int)
  | kill (p : Tid)
  | run (p : Tid)
  | create (p : Tid) (ok : Bool)
  | load (p : Tid) (ok : Bool)
  | die (p : Tid)

open Function Option

def ProcSys.setPc (s : ProcSys) (p : Tid) (pc : ProcPc) : ProcSys :=
  { s with pc := update s.pc p pc }

/-- `thread_unblock` of a thread inside `sema_down`: it re-tests. -/
def ProcPc.woken : ProcPc → ProcPc
  | .entryWait => .entryDown
  | .execWait t => .execDown t
  | .waitBlocked c => .waitDown c
  | pc => pc

/-- The thread that `sema_up` popped, if any, goes back to its test. -/
def ProcSys.wake (s : ProcSys) (w : Option Tid) : ProcSys :=
  { s with pc := fun t => if w = some t then (s.pc t).woken else s.pc t }

/-- The parent of `p`, while its `struct thread` exists. -/
def ProcSys.liveParent (s : ProcSys) (p : Tid) : Option Tid :=
  (s.parent p).filter fun q => s.pc q ≠ .dead

/-! ## process_execute -/

/-- `sema_init` of the two handshake semaphores. -/
def execInit (s : ProcSys) (p : Tid) : ProcSys :=
  { s with
    childEntrySema := update s.childEntrySema p (semaInit 0)
    childLoadSema := update s.childLoadSema p (semaInit 0)
    pc := update s.pc p .execCreate }

/-- `thread_create` of `start_process`, with the record's `sema_init`. -/
def execCreate (s : ProcSys) (p : Tid) : ProcSys :=
  { s with
    parent := update s.parent s.nextTid (some p)
    childList := update s.childList s.nextTid []
    childSema := update s.childSema s.nextTid (semaInit 0)
    ups := update s.ups s.nextTid 0
    nextTid := s.nextTid + 1
    pc := update (update s.pc p (.execDown (some s.nextTid))) s.nextTid .loading }

/-- The tests after `sema_down (&child_load_sema)`: whether the load failed is
tested before whether there is a child at all. -/
def execCheck (loadSuccess : Bool) : Option Tid → ProcPc
  | some c => if loadSuccess then .execPush c else .user
  | none => .user

/-- A pass of `sema_down (&child_load_sema)`. -/
def execDown (s : ProcSys) (p : Tid) (t : Option Tid) : ProcSys :=
  let pass := semaDownPass (s.childLoadSema p) p
  { s with
    childLoadSema := update s.childLoadSema p pass.1
    pc := update s.pc p (if pass.2 then execCheck (s.loadSuccess p) t else .execWait t) }

/-- The fields of the record are set and it is pushed on `child_list`. -/
def execPush (s : ProcSys) (p c : Tid) : ProcSys :=
  { s with
    exitStatus := update s.exitStatus c (-1)
    childList := update s.childList p (s.childList p ++ [c])
    pc := update s.pc p (.execUp c) }

/-- `sema_up (&child_entry_sema)`. -/
def execUp (s : ProcSys) (p : Tid) : ProcSys :=
  let up := semaUp (s.childEntrySema p)
  ({ s with childEntrySema := update s.childEntrySema p up.1 }.wake up.2).setPc p .user

/-! ## start_process -/

/-- `load` has returned: `load_success` is set in the parent `q`, which is
woken. -/
def reportLoad (s : ProcSys) (p q : Tid) (ok : Bool) : ProcSys :=
  let up := semaUp (s.childLoadSema q)
  ({ s with
      loadSuccess := update s.loadSuccess q ok
      childLoadSema := update s.childLoadSema q up.1 }.wake up.2).setPc p
    (if ok then .passing else .exiting)

/-- A pass of `sema_down (&parent->child_entry_sema)`, the parent being `q`. -/
def entryDown (s : ProcSys) (p q : Tid) : ProcSys :=
  let pass := semaDownPass (s.childEntrySema q) p
  { s with
    childEntrySema := update s.childEntrySema q pass.1
    pc := update s.pc p (if pass.2 then .user else .entryWait) }

/-! ## process_wait -/

/-- The search of `process_wait`. -/
def waitFind (s : ProcSys) (p c : Tid) : ProcSys :=
  if c ∈ s.childList p then
    s.setPc p (.waitDown c)
  else
    { s with waits := update s.waits p (s.waits p ++ [⟨c, -1, false⟩]) }

/-- A pass of `sema_down (&thr_child->child_sema)`. -/
def waitDown (s : ProcSys) (p c : Tid) : ProcSys :=
  let pass := semaDownPass (s.childSema c) p
  { s with
    childSema := update s.childSema c pass.1
    pc := update s.pc p (if pass.2 then .waitRemove c else .waitBlocked c) }

/-- `list_remove`, and the return of `exit_status`. -/
def waitRemove (s : ProcSys) (p c : Tid) : ProcSys :=
  { s with
    childList := update s.childList p ((s.childList p).erase c)
    waits := update s.waits p (s.waits p ++ [⟨c, s.exitStatus c, true⟩])
    pc := update s.pc p .user }

/-! ## exit -/

/-- A call of `exit`. -/
def exitCall (s : ProcSys) (p : Tid) (status : Int) : ProcSys :=
  { s with
    exitArg := update s.exitArg p (s.exitArg p <|> some status)
    pc := update s.pc p (.exitFind status) }

/-- The own record was found in the parent's list. -/
def exitFound (s : ProcSys) (p : Tid) (status : Int) : ProcSys :=
  { s with
    exitStatus := update s.exitStatus p status
    pc := update s.pc p .exitUp }

/-- The search for the own record in the parent's list. -/
def exitFind (s : ProcSys) (p : Tid) (status : Int) : Option ProcSys :=
  match s.parent p with
  | none => some (s.setPc p .exitFree)
  | some q =>
    if s.pc q = .dead then
      none
    else if p ∈ s.childList q then
      some (exitFound s p status)
    else
      some (s.setPc p .exitFree)

/-- `sema_up (&thr_child->child_sema)`. -/
def exitUp (s : ProcSys) (p : Tid) : ProcSys :=
  let up := semaUp (s.childSema p)
  ({ s with
      childSema := update s.childSema p up.1
      ups := update s.ups p (s.ups p + 1) }.wake up.2).setPc p .exitFree

/-- The records of the process's own children are freed. -/
def exitFree (s : ProcSys) (p : Tid) : ProcSys :=
  { s with
    childList := update s.childList p []
    pc := update s.pc p .exitClean }

/-! ## the machine -/

/-- The next statement of `p`. -/
def procRun (s : ProcSys) (p : Tid) : Option ProcSys :=
  match s.pc p with
  | .execInit => some (execInit s p)
  | .execDown t => some (execDown s p t)
  | .execPush c => some (execPush s p c)
  | .execUp _ => some (execUp s p)
  | .passing => some (s.setPc p .entryDown)
  | .entryDown => (s.liveParent p).map (entryDown s p)
  | .waitDown c => some (waitDown s p c)
  | .waitRemove c => some (waitRemove s p c)
  | .exitFind status => exitFind s p status
  | .exitUp =>
    (s.liveParent p).bind fun q =>
      if p ∈ s.childList q then some (exitUp s p) else none
  | .exitFree => some (exitFree s p)
  | .exitClean => some (s.setPc p .exiting)
  | .exiting => some (s.setPc p .dead)
  | _ => none

/-- The step function.  The initial thread, which has no parent, neither exits
nor is killed. -/
def procStep (s : ProcSys) : ProcAct → Option ProcSys
  | .execute p => if s.pc p = .user then some (s.setPc p .execInit) else none
  | .wait p c => if s.pc p = .user then some (waitFind s p c) else none
  | .exit p status =>
    if s.pc p = .user ∧ s.parent p ≠ none then some (exitCall s p status) else none
  | .kill p =>
    if s.pc p = .user ∧ s.parent p ≠ none then some (s.setPc p .exiting) else none
  | .run p => procRun s p
  | .create p ok =>
    if s.pc p = .execCreate then
      some (if ok then execCreate s p else s.setPc p (.execDown none))
    else
      none
  | .load p ok =>
    if s.pc p = .loading then (s.liveParent p).map fun q => reportLoad s p q ok else none
  | .die p =>
    if s.pc p = .loading ∨ s.pc p = .passing ∨ s.pc p = .exitClean then
      some (exitCall s p (-1))
    else
      none

/-- Only the initial thread exists. -/
def procBoot : ProcSys where
  pc t := if t = 0 then .user else .unborn
  parent _ := none
  childList _ := []
  childEntrySema _ := semaInit 0
  childLoadSema _ := semaInit 0
  loadSuccess _ := false
  exitStatus _ := 0
  childSema _ := semaInit 0
  nextTid := 1
  exitArg _ := none
  waits _ := []
  ups _ := 0

/-- Processes under any interleaving. -/
def procMachine : Machine ProcSys ProcAct where
  init s := s = procBoot
  step := procStep

/-- `p` starts the process `c`, which gets into user code. -/
def spawn (p c : Tid) : List ProcAct :=
  [.execute p, .run p, .create p true, .load c true, .run p, .run p, .run p, .run c, .run c]

/-- `p` calls `exit`, notifies its parent and terminates. -/
def terminate (p : Tid) (status : Int) : List ProcAct :=
  .exit p status :: List.replicate 5 (.run p)

/-! ## what a step can do -/

/-- The effect of a step, one constructor for each kind; a pass of `sema_down`
either waits or takes the permit, and a search either finds a record or not. -/
inductive ProcMove (s : ProcSys) : ProcAct → ProcSys → Prop
  | execute {p : Tid} (hpc : s.pc p = .user) : ProcMove s (.execute p) (s.setPc p .execInit)
  | execInit {p : Tid} (hpc : s.pc p = .execInit) : ProcMove s (.run p) (execInit s p)
  | create {p : Tid} (hpc : s.pc p = .execCreate) : ProcMove s (.create p true) (execCreate s p)
  | createFail {p : Tid} (hpc : s.pc p = .execCreate) :
      ProcMove s (.create p false) (s.setPc p (.execDown none))
  | execTake {p c : Tid} (hpc : s.pc p = .execDown (some c))
      (hv : (s.childLoadSema p).value ≠ 0) (hok : s.loadSuccess p = true) :
      ProcMove s (.run p) { s with
        childLoadSema := update s.childLoadSema p
          ⟨(s.childLoadSema p).value - 1, (s.childLoadSema p).waiters⟩
        pc := update s.pc p (.execPush c) }
  | execReturn {p : Tid} {t : Option Tid} (hpc : s.pc p = .execDown t)
      (hv : (s.childLoadSema p).value ≠ 0) (hfail : s.loadSuccess p = false ∨ t = none) :
      ProcMove s (.run p) { s with
        childLoadSema := update s.childLoadSema p
          ⟨(s.childLoadSema p).value - 1, (s.childLoadSema p).waiters⟩
        pc := update s.pc p .user }
  | execBlock {p : Tid} {t : Option Tid} (hpc : s.pc p = .execDown t)
      (hv : (s.childLoadSema p).value = 0) :
      ProcMove s (.run p) { s with
        childLoadSema := update s.childLoadSema p
          ⟨(s.childLoadSema p).value, (s.childLoadSema p).waiters ++ [p]⟩
        pc := update s.pc p (.execWait t) }
  | execPush {p c : Tid} (hpc : s.pc p = .execPush c) : ProcMove s (.run p) (execPush s p c)
  | execUp {p c : Tid} (hpc : s.pc p = .execUp c) : ProcMove s (.run p) (execUp s p)
  | load {p q : Tid} {ok : Bool} (hpc : s.pc p = .loading) (hq : s.parent p = some q)
      (hlive : s.pc q ≠ .dead) : ProcMove s (.load p ok) (reportLoad s p q ok)
  | pass {p : Tid} (hpc : s.pc p = .passing) : ProcMove s (.run p) (s.setPc p .entryDown)
  | entryTake {p q : Tid} (hpc : s.pc p = .entryDown) (hq : s.parent p = some q)
      (hlive : s.pc q ≠ .dead) (hv : (s.childEntrySema q).value ≠ 0) :
      ProcMove s (.run p) { s with
        childEntrySema := update s.childEntrySema q
          ⟨(s.childEntrySema q).value - 1, (s.childEntrySema q).waiters⟩
        pc := update s.pc p .user }
  | entryBlock {p q : Tid} (hpc : s.pc p = .entryDown) (hq : s.parent p = some q)
      (hlive : s.pc q ≠ .dead) (hv : (s.childEntrySema q).value = 0) :
      ProcMove s (.run p) { s with
        childEntrySema := update s.childEntrySema q
          ⟨(s.childEntrySema q).value, (s.childEntrySema q).waiters ++ [p]⟩
        pc := update s.pc p .entryWait }
  | waitHit {p c : Tid} (hpc : s.pc p = .user) (hmem : c ∈ s.childList p) :
      ProcMove s (.wait p c) (s.setPc p (.waitDown c))
  | waitMiss {p c : Tid} (hpc : s.pc p = .user) (hmem : c ∉ s.childList p) :
      ProcMove s (.wait p c)
        { s with waits := update s.waits p (s.waits p ++ [⟨c, -1, false⟩]) }
  | waitTake {p c : Tid} (hpc : s.pc p = .waitDown c) (hv : (s.childSema c).value ≠ 0) :
      ProcMove s (.run p) { s with
        childSema := update s.childSema c ⟨(s.childSema c).value - 1, (s.childSema c).waiters⟩
        pc := update s.pc p (.waitRemove c) }
  | waitBlock {p c : Tid} (hpc : s.pc p = .waitDown c) (hv : (s.childSema c).value = 0) :
      ProcMove s (.run p) { s with
        childSema := update s.childSema c
          ⟨(s.childSema c).value, (s.childSema c).waiters ++ [p]⟩
        pc := update s.pc p (.waitBlocked c) }
  | waitRemove {p c : Tid} (hpc : s.pc p = .waitRemove c) :
      ProcMove s (.run p) (waitRemove s p c)
  | exit {p : Tid} {status : Int} (hpc : s.pc p = .user) (hp : s.parent p ≠ none) :
      ProcMove s (.exit p status) (exitCall s p status)
  | die {p : Tid} (hpc : s.pc p = .loading ∨ s.pc p = .passing ∨ s.pc p = .exitClean) :
      ProcMove s (.die p) (exitCall s p (-1))
  | kill {p : Tid} (hpc : s.pc p = .user) (hp : s.parent p ≠ none) :
      ProcMove s (.kill p) (s.setPc p .exiting)
  | found {p q : Tid} {status : Int} (hpc : s.pc p = .exitFind status)
      (hq : s.parent p = some q) (hlive : s.pc q ≠ .dead) (hmem : p ∈ s.childList q) :
      ProcMove s (.run p) (exitFound s p status)
  | missed {p : Tid} {status : Int} (hpc : s.pc p = .exitFind status)
      (hq : ∀ q, s.parent p = some q → s.pc q ≠ .dead ∧ p ∉ s.childList q) :
      ProcMove s (.run p) (s.setPc p .exitFree)
  | exitUp {p q : Tid} (hpc : s.pc p = .exitUp) (hq : s.parent p = some q)
      (hlive : s.pc q ≠ .dead) (hmem : p ∈ s.childList q) : ProcMove s (.run p) (exitUp s p)
  | exitFree {p : Tid} (hpc : s.pc p = .exitFree) : ProcMove s (.run p) (exitFree s p)
  | clean {p : Tid} (hpc : s.pc p = .exitClean) : ProcMove s (.run p) (s.setPc p .exiting)
  | done {p : Tid} (hpc : s.pc p = .exiting) : ProcMove s (.run p) (s.setPc p .dead)

variable {s s' : ProcSys} {a : ProcAct} {p q c : Tid} {t : Option Tid}

theorem liveParent_eq_some : s.liveParent p = some q ↔
    s.parent p = some q ∧ s.pc q ≠ .dead := by
  simp [ProcSys.liveParent, filter_eq_some_iff]

theorem procMove_execDown (hpc : s.pc p = .execDown t) : ProcMove s (.run p) (execDown s p t) := by
  by_cases hv : (s.childLoadSema p).value = 0
  · simp only [execDown, semaDownPass_wait hv]
    exact .execBlock hpc hv
  · simp only [execDown, semaDownPass_take hv, if_true]
    cases t with
    | none => exact .execReturn hpc hv (.inr rfl)
    | some c =>
      cases hok : s.loadSuccess p with
      | true => exact .execTake hpc hv hok
      | false => exact .execReturn hpc hv (.inl hok)

theorem procMove_entryDown (hpc : s.pc p = .entryDown) (hq : s.parent p = some q)
    (hlive : s.pc q ≠ .dead) : ProcMove s (.run p) (entryDown s p q) := by
  by_cases hv : (s.childEntrySema q).value = 0
  · simp only [entryDown, semaDownPass_wait hv]
    exact .entryBlock hpc hq hlive hv
  · simp only [entryDown, semaDownPass_take hv]
    exact .entryTake hpc hq hlive hv

theorem procMove_waitDown (hpc : s.pc p = .waitDown c) : ProcMove s (.run p) (waitDown s p c) := by
  by_cases hv : (s.childSema c).value = 0
  · simp only [waitDown, semaDownPass_wait hv]
    exact .waitBlock hpc hv
  · simp only [waitDown, semaDownPass_take hv]
    exact .waitTake hpc hv

theorem procMove_exitFind {status : Int} (hpc : s.pc p = .exitFind status)
    (hs : exitFind s p status = some s') : ProcMove s (.run p) s' := by
  unfold exitFind at hs
  split at hs
  · next hnone =>
    rw [← some.inj hs]
    exact .missed hpc (by simp [hnone])
  · next q hq =>
    split at hs
    · contradiction
    · next hlive =>
      split at hs
      · next hmem => exact some.inj hs ▸ .found hpc hq hlive hmem
      · next hmem =>
        rw [← some.inj hs]
        refine .missed hpc fun q' hq' => ?_
        obtain rfl : q = q' := some.inj (hq.symm.trans hq')
        exact ⟨hlive, hmem⟩

theorem procMove_of_procRun (hs : procRun s p = some s') : ProcMove s (.run p) s' := by
  unfold procRun at hs
  split at hs
  · next hpc => exact some.inj hs ▸ .execInit hpc
  · next t hpc => exact some.inj hs ▸ procMove_execDown hpc
  · next c hpc => exact some.inj hs ▸ .execPush hpc
  · next c hpc => exact some.inj hs ▸ .execUp hpc
  · next hpc => exact some.inj hs ▸ .pass hpc
  · next hpc =>
    obtain ⟨q, hq, rfl⟩ := map_eq_some_iff.mp hs
    obtain ⟨hpar, hlive⟩ := liveParent_eq_some.mp hq
    exact procMove_entryDown hpc hpar hlive
  · next c hpc => exact some.inj hs ▸ procMove_waitDown hpc
  · next c hpc => exact some.inj hs ▸ .waitRemove hpc
  · next status hpc => exact procMove_exitFind hpc hs
  · next hpc =>
    obtain ⟨q, hq, hup⟩ := bind_eq_some_iff.mp hs
    obtain ⟨hpar, hlive⟩ := liveParent_eq_some.mp hq
    obtain ⟨hmem, rfl⟩ := of_guard hup
    exact .exitUp hpc hpar hlive hmem
  · next hpc => exact some.inj hs ▸ .exitFree hpc
  · next hpc => exact some.inj hs ▸ .clean hpc
  · next hpc => exact some.inj hs ▸ .done hpc
  · contradiction

theorem procMove_of_procStep (hs : procStep s a = some s') : ProcMove s a s' := by
  cases a with
  | execute p =>
    obtain ⟨hpc, rfl⟩ := of_guard hs
    exact .execute hpc
  | wait p c =>
    simp only [procStep, waitFind] at hs
    obtain ⟨hpc, rfl⟩ := of_guard hs
    split
    · next hmem => exact .waitHit hpc hmem
    · next hmem => exact .waitMiss hpc hmem
  | exit p status =>
    obtain ⟨hc, rfl⟩ := of_guard hs
    exact .exit hc.1 hc.2
  | kill p =>
    obtain ⟨hc, rfl⟩ := of_guard hs
    exact .kill hc.1 hc.2
  | run p => exact procMove_of_procRun hs
  | create p ok =>
    obtain ⟨hpc, rfl⟩ := of_guard hs
    cases ok with
    | true => exact .create hpc
    | false => exact .createFail hpc
  | load p ok =>
    simp only [procStep] at hs
    split at hs
    · next hpc =>
      obtain ⟨q, hq, rfl⟩ := map_eq_some_iff.mp hs
      obtain ⟨hpar, hlive⟩ := liveParent_eq_some.mp hq
      exact .load hpc hpar hlive
    · contradiction
  | die p =>
    obtain ⟨hpc, rfl⟩ := of_guard hs
    exact .die hpc

end Pintos
