import Pintos.Userprog.Handshake

/-!
# Pintos.Userprog.ExitReport

Whether the death of a process gets into the record that its parent keeps.
`exit` stores the status and ups the record's semaphore; `kill` calls
`thread_exit` and does neither, and a child that calls `exit` before its record
has been pushed does not find it (`death_unreported`).  Where these do not
happen every death is reported exactly once (`death_reported_of_reports`).
-/

namespace Pintos

open Function ProcSys

variable {s s' : ProcSys} {a : ProcAct} {p q c : Tid} {ok : Bool}

/-! ## reported deaths -/

/-- A registered process that has terminated has its status in its record, has
upped the record's semaphore once, and its parent is not blocked on it. -/
def DeathReported (s : ProcSys) : Prop :=
  ∀ p c, c ∈ s.childList p → s.pc c = .dead → s.pc p ≠ .dead →
    s.exitStatus c = (s.exitArg c).getD (-1) ∧ s.ups c = 1 ∧ s.pc p ≠ .waitBlocked c

/-- The record of `c` is on its parent's list. -/
def ProcSys.registered (s : ProcSys) (c : Tid) : Bool :=
  (s.parent c).any fun p => c ∈ s.childList p

theorem mem_of_registered (h : s.registered c = true) (hp : s.parent c = some p) :
    c ∈ s.childList p := by
  rw [registered, hp] at h
  exact of_decide_eq_true h

/-- No process is killed by a CPU exception; a process that calls `exit` in
`argument_passing` has been registered; and `exit` is not called from inside
`exit`. -/
def Reports (s : ProcSys) : ProcAct → Prop
  | .kill _ => False
  | .die c => s.pc c ≠ .exitClean ∧ (s.pc c = .passing → s.registered c = true)
  | _ => True

instance (s : ProcSys) (a : ProcAct) : Decidable (Reports s a) := by
  rcases a with ⟨⟩ <;> unfold Reports <;> infer_instance

/-- A division by zero in user code. -/
def killRun : List ProcAct := spawn 0 1 ++ [.kill 1, .run 1]

/-- Process `1` finds its arguments too long and terminates before its parent
gets to push the record. -/
def earlyDeathRun : List ProcAct :=
  [.execute 0, .run 0, .create 0 true, .load 1 true, .die 1, .run 1, .run 1, .run 1, .run 1,
    .run 0, .run 0, .run 0]

/-- The clean-up at the end of `exit (7)` faults, which calls `exit (-1)`. -/
def exitTwiceRun : List ProcAct :=
  spawn 0 1 ++ [.exit 1 7, .run 1, .run 1, .run 1, .die 1, .run 1, .run 1, .run 1, .run 1, .run 1]

theorem unreported_of_run (run : List ProcAct)
    (hrun : (procMachine.runFrom procBoot run).any (fun s => 1 ∈ s.childList 0 ∧
      s.pc 1 = .dead ∧ s.pc 0 = .user ∧ s.ups 1 ≠ 1) = true) :
    ∃ s : ProcSys, procMachine.runFrom procBoot run = some s ∧ procMachine.Reach s ∧
      ¬ DeathReported s := by
  obtain ⟨s, hs, hreach, hmem, hdead, hpc, hups⟩ := Machine.exists_reach_of_runFrom rfl run _ hrun
  exact ⟨s, hs, hreach, fun hreported => hups (hreported 0 1 hmem hdead (by rw [hpc]; decide)).2.1⟩

/-- Process `1` is dead and registered; its record has not been upped, or has
been upped twice. -/
theorem death_unreported :
    (∃ s : ProcSys, procMachine.runFrom procBoot killRun = some s ∧ procMachine.Reach s ∧
      ¬ DeathReported s) ∧
    (∃ s : ProcSys, procMachine.runFrom procBoot earlyDeathRun = some s ∧ procMachine.Reach s ∧
      ¬ DeathReported s) ∧
    ∃ s : ProcSys, procMachine.runFrom procBoot exitTwiceRun = some s ∧ procMachine.Reach s ∧
      ¬ DeathReported s :=
  ⟨unreported_of_run killRun (by decide), unreported_of_run earlyDeathRun (by decide),
    unreported_of_run exitTwiceRun (by decide)⟩

/-! ## the child that is being registered -/

/-- A call of `process_execute` never gets to register a child that has called
`exit`: until the registration the child waits, and if the load has failed or
the child has died in it, the parent does not get there. -/
@[grind cases eager]
structure RegisterInv (s : ProcSys) : Prop where
  down : ∀ {p c}, (s.pc p).downChild = some c → s.pc c = .loading ∨ (s.pc c).awaiting = true ∨
    (s.pc c).leaving = true ∧ ((s.childLoadSema p).value = 0 ∨ s.loadSuccess p = false)
  push : ∀ {p c}, s.pc p = .execPush c → (s.pc c).awaiting = true

theorem registerInv_boot : RegisterInv procBoot := by
  constructor <;> simp [procBoot] <;> grind

/-- Nobody starts or stops waiting for a report, nobody gets to a registration,
and a child stays in the phase it is in. -/
@[simp]
def RegisterInv.Kept (_ : Tid) (y x : ProcPc) : Prop :=
  x.downChild = y.downChild ∧ (∀ c, x = .execPush c → y = .execPush c) ∧
    (y = .loading → x = .loading) ∧ (y.awaiting = true → x.awaiting = true) ∧
    (y.leaving = true → x.leaving = true)

theorem RegisterInv.Kept.refl (t : Tid) (y : ProcPc) : RegisterInv.Kept t y y :=
  ⟨rfl, fun _ => id, id, id, id⟩

theorem RegisterInv.Kept.woken (t : Tid) (y : ProcPc) : RegisterInv.Kept t y y.woken := by
  refine ⟨woken_downChild, fun c => woken_eq_execPush.mp, woken_eq_loading.mpr, ?_, ?_⟩
  · rw [woken_awaiting]
    exact id
  · rw [woken_leaving]
    exact id

section

variable (h : RegisterInv s) {sema : Tid → Semaphore Tid}
include h

/-- Steps outside the handshake. -/
theorem RegisterInv.congr (hd : s'.childLoadSema = s.childLoadSema)
    (hok : s'.loadSuccess = s.loadSuccess) (hk : ∀ t, RegisterInv.Kept t (s.pc t) (s'.pc t)) :
    RegisterInv s' where
  down hpc := by
    rw [(hk _).1] at hpc
    rw [hd, hok]
    obtain ⟨-, -, hload, hawait, hleave⟩ := hk _
    exact (h.down hpc).imp hload (.imp hawait (.imp_left hleave))
  push hpc := (hk _).2.2.2.1 (h.push ((hk _).2.1 _ hpc))

theorem RegisterInv.execInit (hpc : s.pc p = .execInit) : RegisterInv (execInit s p) := by
  constructor <;> simp only [Pintos.execInit, semaInit, update_apply] <;> grind

theorem RegisterInv.execCreate (ht : TreeInv s)
    (hpc : s.pc p = .execCreate) : RegisterInv (execCreate s p) := by
  have hunborn := @ht.unborn
  constructor <;> simp only [Pintos.execCreate, update_apply] <;> grind

/-- A call that gets past the tests finds its child waiting to be registered. -/
theorem RegisterInv.awaiting_of_execTake (hi : ProcInv s)
    (hpc : s.pc p = .execDown (some c)) (hv : (s.childLoadSema p).value ≠ 0)
    (hok : s.loadSuccess p = true) : (s.pc c).awaiting = true := by
  have hdown : (s.pc p).downChild = some c := by rw [hpc]; rfl
  rcases h.down hdown with hload | hawait | ⟨-, hzero | hfail⟩
  · have hparent := (hi.tree.exec_child (execChild_of_downChild hdown)).1
    exact absurd (hi.load.loading hparent hload).2 hv
  · exact hawait
  · exact absurd hzero hv
  · cases hok.symm.trans hfail

theorem RegisterInv.execTake (hpc : s.pc p = .execDown (some c))
    (hc : (s.pc c).awaiting = true) (hsema : ∀ r, r ≠ p → sema r = s.childLoadSema r) :
    RegisterInv { s with childLoadSema := sema, pc := update s.pc p (.execPush c) } := by
  constructor <;> simp only [update_apply] <;> grind

theorem RegisterInv.reportLoad (hi : ProcInv s) (hpc : s.pc p = .loading)
    (hq : s.parent p = some q) : RegisterInv (reportLoad s p q ok) := by
  have hexec : ∀ {r}, (s.pc r).downChild = some p → r = q := (hi.tree.downChild_unique · hq)
  have hdown := (hi.load.loading hq hpc).1
  constructor <;> simp only [Pintos.reportLoad, setPc, wake,
    update_apply] <;> grind

/-- A child that nobody is about to register may leave the handshake. -/
theorem RegisterInv.leave {x : ProcPc} {arg : Tid → Option Int}
    (hnone : ∀ r, (s.pc r).execChild ≠ some p) (hx : x = .user ∨ ∃ status, x = .exitFind status) :
    RegisterInv { s with
      childEntrySema := sema, exitArg := arg, pc := update s.pc p x } := by
  have hdown : ∀ r, (s.pc r).downChild ≠ some p := fun r hr =>
    hnone r (execChild_of_downChild hr)
  have hpush : ∀ r, s.pc r ≠ .execPush p := fun r hr => hnone r (by rw [hr]; rfl)
  have hx' : x.downChild = none ∧ ∀ c, x ≠ .execPush c := by
    rcases hx with rfl | ⟨status, rfl⟩ <;> simp
  constructor <;> simp only [update_apply] <;> grind

omit h in
theorem not_execChild_of_permit (hi : ProcInv s) (hq : s.parent p = some q)
    (hv : (s.childEntrySema q).value ≠ 0) (r : Tid) : (s.pc r).execChild ≠ some p := by
  intro hr
  obtain rfl : r = q := Option.some.inj ((hi.tree.exec_child hr).1.symm.trans hq)
  exact hv (hi.entry.zero (inExec_of_execChild hr))

omit h in
theorem not_execChild_of_registered (ht : TreeInv s) (hreg : s.registered p = true) (r : Tid) :
    (s.pc r).execChild ≠ some p := by
  intro hr
  obtain ⟨hparent, hmem⟩ := ht.exec_child hr
  exact hmem (mem_of_registered hreg hparent)

/-- A child that dies inside `load` leaves its parent waiting. -/
theorem RegisterInv.dieLoading (hi : ProcInv s) (hload : s.pc p = .loading) :
    RegisterInv (exitCall s p (-1)) := by
  have hzero : ∀ r, (s.pc r).downChild = some p → (s.childLoadSema r).value = 0 :=
    fun r hr => (hi.load.loading (hi.tree.exec_child (execChild_of_downChild hr)).1 hload).2
  constructor <;> simp only [exitCall, update_apply] <;> grind

theorem RegisterInv.step (hi : ProcInv s) (hC : Reports s a)
    (hm : ProcMove s a s') : RegisterInv s' := by
  cases hm with
  | kill hpc hp => exact absurd hC id
  | execInit hpc => exact h.execInit hpc
  | create hpc => exact h.execCreate hi.tree hpc
  | execTake hpc hv hok =>
    exact h.execTake hpc (h.awaiting_of_execTake hi hpc hv hok) fun r hr =>
      update_of_ne hr _ _
  | createFail hpc | execReturn hpc hv hfail | execBlock hpc hv =>
    constructor
    all_goals
      simp only [setPc, update_apply]
      grind
  | load hpc hq hlive => exact h.reportLoad hi hpc hq
  | entryTake hpc hq hlive hv =>
    exact h.leave (not_execChild_of_permit hi hq hv) (.inl rfl)
  | die hpc =>
    obtain ⟨hclean, hreg⟩ := hC
    rcases hpc with hload | hpass | hexit
    · exact h.dieLoading hi hload
    · exact h.leave (not_execChild_of_registered hi.tree (hreg hpass)) (.inr ⟨-1, rfl⟩)
    · exact absurd hexit hclean
  | execUp hpc | exitUp hpc hq hlive hmem =>
    refine h.congr rfl rfl (forall_woken .refl .woken ?_)
    simp [hpc]
  | waitMiss hpc hmem => exact h.congr rfl rfl fun t => .refl t _
  | _ =>
    refine h.congr rfl rfl (forall_moved .refl ?_)
    simp [‹s.pc _ = _›]

end

/-! ## the record -/

namespace ProcPc

/-- Past the notification of `exit`, or terminated without one. -/
@[simp, grind]
def gone : ProcPc → Bool
  | .exitFree | .exitClean | .exiting | .dead => true
  | _ => false

end ProcPc

@[simp, grind =] theorem woken_gone (pc : ProcPc) : pc.woken.gone = pc.gone := by
  cases pc <;> rfl

@[grind →] theorem not_gone_of_awaiting {pc : ProcPc} (h : pc.awaiting = true) :
    pc.gone = false := by
  cases pc <;> simp_all [ProcPc.awaiting, ProcPc.gone]

/-- How the status gets from the argument of `exit` into the record, and the
state of the record's semaphore. -/
@[grind cases eager]
structure ReportInv (s : ProcSys) : Prop where
  fresh : ∀ {c}, (s.pc c).leaving = false → s.exitArg c = none
  called : ∀ {c status}, s.pc c = .exitFind status → s.exitArg c = some status
  stored : ∀ {c}, s.pc c = .exitUp → s.exitArg c = some (s.exitStatus c)
  quiet : ∀ {c}, (s.pc c).gone = false → s.ups c = 0
  told : ∀ {p c}, c ∈ s.childList p → (s.pc c).gone = true →
    s.exitArg c = some (s.exitStatus c) ∧ s.ups c = 1 ∧
      ((s.childSema c).value = 1 ∨ s.pc p = .waitRemove c)

theorem reportInv_boot : ReportInv procBoot := by
  constructor <;> simp [procBoot]
  all_goals grind

/-- Everybody stays in the phase of `exit` they are in, and no wait that is about
to remove a record moves. -/
@[simp]
def ReportInv.Kept (_ : Tid) (y x : ProcPc) : Prop :=
  x.leaving = y.leaving ∧ (∀ status, x = .exitFind status → y = .exitFind status) ∧
    (x = .exitUp → y = .exitUp) ∧ x.gone = y.gone ∧ ∀ c, y = .waitRemove c → x = .waitRemove c

theorem ReportInv.Kept.refl (t : Tid) (y : ProcPc) : ReportInv.Kept t y y :=
  ⟨rfl, fun _ => id, id, rfl, fun _ => id⟩

theorem ReportInv.Kept.woken (t : Tid) (y : ProcPc) : ReportInv.Kept t y y.woken :=
  ⟨woken_leaving, fun _ => woken_eq_exitFind.mp, woken_eq_exitUp.mp, woken_gone y,
    fun _ => woken_eq_waitRemove.mpr⟩

section

variable (h : ReportInv s) {status : Int}
include h

/-- Steps that touch no record and no history. -/
theorem ReportInv.congr (hl : s'.childList = s.childList)
    (ha : s'.exitArg = s.exitArg) (hst : s'.exitStatus = s.exitStatus) (hu : s'.ups = s.ups)
    (hsema : s'.childSema = s.childSema) (hk : ∀ t, ReportInv.Kept t (s.pc t) (s'.pc t)) :
    ReportInv s' where
  fresh hc := by rw [ha, h.fresh ((hk _).1 ▸ hc)]
  called hc := by rw [ha, h.called ((hk _).2.1 _ hc)]
  stored hc := by rw [ha, hst, h.stored ((hk _).2.2.1 hc)]
  quiet hc := by rw [hu, h.quiet ((hk _).2.2.2.1 ▸ hc)]
  told hc hgone := by
    rw [hl] at hc
    rw [(hk _).2.2.2.1] at hgone
    rw [ha, hst, hu, hsema]
    exact (h.told hc hgone).imp_right (.imp_right (.imp_right ((hk _).2.2.2.2 _)))

theorem ReportInv.execCreate (ht : TreeInv s) (hpc : s.pc p = .execCreate) :
    ReportInv (execCreate s p) := by
  have hunborn := @ht.unborn
  have hborn := @ht.born
  have hmem := @ht.mem_parent
  constructor <;> simp only [Pintos.execCreate, update_apply] <;> grind

theorem ReportInv.execPush (hc : (s.pc c).awaiting = true)
    (hpc : s.pc p = .execPush c) : ReportInv (execPush s p c) := by
  constructor <;> simp only [Pintos.execPush, update_apply] <;> grind

theorem ReportInv.reportLoad (hmem : ∀ r, p ∉ s.childList r)
    (hpc : s.pc p = .loading) : ReportInv (reportLoad s p q ok) := by
  constructor <;> simp only [Pintos.reportLoad, setPc, wake,
    update_apply] <;> grind

theorem ReportInv.waitTake (ht : TreeInv s) (hpc : s.pc p = .waitDown c) :
    ReportInv { s with
      childSema := update s.childSema c
        ⟨(s.childSema c).value - 1, (s.childSema c).waiters⟩
      pc := update s.pc p (.waitRemove c) } := by
  have hmem := @ht.mem_parent
  have hwait : c ∈ s.childList p := ht.wait_child (by rw [hpc]; rfl)
  constructor <;> simp only [update_apply] <;> grind

theorem ReportInv.waitBlock (hpc : s.pc p = .waitDown c) :
    ReportInv { s with
      childSema := update s.childSema c
        ⟨(s.childSema c).value, (s.childSema c).waiters ++ [p]⟩
      pc := update s.pc p (.waitBlocked c) } := by
  constructor <;> simp only [update_apply] <;> grind

theorem ReportInv.waitRemove (ht : TreeInv s) (hpc : s.pc p = .waitRemove c) :
    ReportInv (waitRemove s p c) := by
  have hnodup := ht.nodup p
  have hmem := @ht.mem_parent
  constructor <;> simp only [Pintos.waitRemove, update_apply] <;> grind

theorem ReportInv.exitFree (hpc : s.pc p = .exitFree) : ReportInv (exitFree s p) := by
  constructor <;> simp only [Pintos.exitFree, update_apply] <;> grind

theorem ReportInv.exitCall (hpc : s.pc p = .user ∨ s.pc p = .loading ∨ s.pc p = .passing) :
    ReportInv (exitCall s p status) := by
  constructor <;> simp only [Pintos.exitCall, update_apply] <;> grind

theorem ReportInv.exitFound (hpc : s.pc p = .exitFind status) :
    ReportInv (exitFound s p status) := by
  constructor <;> simp only [Pintos.exitFound, update_apply] <;> grind

theorem ReportInv.exitUp (hn : NotifyInv s) (hpc : s.pc p = .exitUp) : ReportInv (exitUp s p) := by
  have hpermit := @hn.permit
  constructor <;> simp only [Pintos.exitUp, semaUp_eq, uintSize, setPc, wake,
    update_apply] <;> grind

theorem ReportInv.missed (ht : TreeInv s) (hpc : s.pc p = .exitFind status)
    (hq : ∀ q, s.parent p = some q → p ∉ s.childList q) : ReportInv (s.setPc p .exitFree) := by
  have hparent := @ht.mem_parent
  constructor <;> simp only [setPc, update_apply] <;> grind

theorem ReportInv.step (hi : ProcInv s) (hr : RegisterInv s) (hC : Reports s a)
    (hm : ProcMove s a s') : ReportInv s' := by
  cases hm with
  | kill hpc hp => exact absurd hC id
  | create hpc => exact h.execCreate hi.tree hpc
  | execPush hpc => exact h.execPush (hr.push hpc) hpc
  | load hpc hq hlive => exact h.reportLoad (fun r => hi.load.not_mem hi.tree hpc) hpc
  | waitTake hpc hv => exact h.waitTake hi.tree hpc
  | waitBlock hpc hv => exact h.waitBlock hpc
  | waitRemove hpc => exact h.waitRemove hi.tree hpc
  | exitFree hpc => exact h.exitFree hpc
  | exit hpc hp => exact h.exitCall (.inl hpc)
  | die hpc => exact h.exitCall (.inr (hpc.imp_right (Or.resolve_right · hC.1)))
  | found hpc hq hlive hmem => exact h.exitFound hpc
  | missed hpc hq => exact h.missed hi.tree hpc fun q hpar => (hq q hpar).2
  | exitUp hpc hq hlive hmem => exact h.exitUp hi.notify hpc
  | execUp hpc =>
    refine h.congr rfl rfl rfl rfl rfl (forall_woken .refl .woken ?_)
    simp [hpc]
  | waitMiss hpc hmem => exact h.congr rfl rfl rfl rfl rfl fun t => .refl t _
  | _ =>
    refine h.congr rfl rfl rfl rfl rfl (forall_moved .refl ?_)
    simp [‹s.pc _ = _›]

theorem ReportInv.gone_of_waitRemove (hn : NotifyInv s)
    (hpc : s.pc p = .waitRemove c) : (s.pc c).gone = true := by
  cases hgone : (s.pc c).gone with
  | true => rfl
  | false => exact absurd hpc ((hn.permit (h.quiet hgone)).2 p)

theorem ReportInv.not_gone_of_waitBlocked (hi : ProcInv s)
    (hpc : s.pc p = .waitBlocked c) : (s.pc c).gone = false := by
  cases hgone : (s.pc c).gone with
  | false => rfl
  | true =>
    have hmem : c ∈ s.childList p := hi.tree.wait_child (by rw [hpc]; rfl)
    rcases (h.told hmem hgone).2.2 with hone | hremove
    · rw [hi.notify.blocked hpc] at hone
      contradiction
    · cases hpc.symm.trans hremove

end

theorem registerInv_of_reachIn (h : procMachine.ReachIn Reports s) : RegisterInv s :=
  h.invariant_reach (fun _ h0 => h0 ▸ registerInv_boot)
    fun _ _ _ hr hi hC hs => hi.step (procInv_of_reachIn hr) hC (procMove_of_procStep hs)

/-- **Run lemma**: the records in every run that reports. -/
theorem reportInv_of_reachIn (h : procMachine.ReachIn Reports s) : ReportInv s :=
  h.invariant_reach (fun _ h0 => h0 ▸ reportInv_boot) fun _ _ _ hr hi hC hs =>
    hi.step (procInv_of_reachIn hr) (registerInv_of_reachIn hr) hC (procMove_of_procStep hs)

/-- **Every death is reported**: in every run without a kill, without a death in
`argument_passing` before the registration and without `exit` inside `exit`, a
registered process that has terminated has been reported exactly once. -/
theorem death_reported_of_reports (s : ProcSys) (h : procMachine.ReachIn Reports s) :
    DeathReported s := by
  have hi : ProcInv s := procInv_of_reachIn h
  have hreport : ReportInv s := reportInv_of_reachIn h
  intro p c hmem hdead hlive
  obtain ⟨hstatus, hups, -⟩ := hreport.told hmem (by rw [hdead]; rfl)
  refine ⟨by rw [hstatus]; rfl, hups, fun hblocked => ?_⟩
  have hgone := hreport.not_gone_of_waitBlocked hi hblocked
  rw [hdead] at hgone
  contradiction

/-- Process `1` has exited with `7` and process `2` has overflowed its stack
page after its registration. -/
theorem death_reported_of_reports_two_deaths :
    ∃ s : ProcSys, s.childList 0 = [1, 2] ∧ s.pc 1 = .dead ∧ s.pc 2 = .dead ∧
      s.exitArg 1 = some 7 ∧ DeathReported s := by
  obtain ⟨s, -, hs, hlist, hdead₁, hdead₂, harg⟩ := Machine.exists_reachIn_of_runIn
    (m := procMachine) (C := Reports) rfl
    (spawn 0 1 ++ [.execute 0, .run 0, .create 0 true, .load 2 true, .run 0, .run 0, .die 2] ++
      List.replicate 5 (.run 2) ++ terminate 1 7)
    (fun s => s.childList 0 = [1, 2] ∧ s.pc 1 = .dead ∧ s.pc 2 = .dead ∧ s.exitArg 1 = some 7)
    (by decide +kernel)
  exact ⟨s, hlist, hdead₁, hdead₂, harg, death_reported_of_reports s hs⟩

end Pintos


