import Pintos.Userprog.ExitReport

/-!
# Pintos.Userprog.ExitStatus

What `process_wait` returns.  In the runs in which every child calls `exit`
while its record is on its parent's list, and no other death happens, the
returns of `process_wait` are sound, single and complete
(`status_delivered_of_registered_exits`): the status is the one the child passed
to `exit`, no record is delivered twice, and none gets lost.
-/

namespace Pintos

open Function List Option

variable {s s' : ProcSys} {a : ProcAct} {p q c : Tid} {status : Int}

/-! ## delivery -/

/-- A return that delivers the record of `c`. -/
def WaitReturn.delivers (r : WaitReturn) (c : Tid) : Bool := r.found && r.tid == c

/-- How often the status of `c` has been returned. -/
def deliveries (waits : List WaitReturn) (c : Tid) : Nat := waits.countP (·.delivers c)

/-- Past the part of `exit` that frees the records of the children. -/
@[simp, grind]
def ProcPc.freed : ProcPc → Bool
  | .exitClean | .exiting | .dead => true
  | _ => false

/-- Statements of `c` and `p` alone get `p` out of its wait for `c`, with
`status`. -/
def Returns (s : ProcSys) (p c : Tid) (status : Int) : Prop :=
  ∃ as s', (∀ a ∈ as, a = .run c ∨ a = .run p) ∧ procMachine.runFrom s as = some s' ∧
    s'.pc p = .user ∧ s'.waits p = s.waits p ++ [⟨c, status, true⟩]

/-- The contract of `process_wait`. -/
structure StatusDelivered (s : ProcSys) : Prop where
  /-- what a wait returns for a child is what that child passed to `exit` -/
  sound : ∀ p r, r ∈ s.waits p → r.found = true →
    s.parent r.tid = some p ∧ s.exitArg r.tid = some r.value
  /-- every other return is `-1` -/
  refused : ∀ p r, r ∈ s.waits p → r.found = false → r.value = -1
  /-- one wait gets the status of a child, and after it the tid is unknown -/
  once : ∀ p c, deliveries (s.waits p) c ≤ 1 ∧ (c ∈ s.childList p → deliveries (s.waits p) c = 0)
  /-- a child that has called `exit` can be waited for until it has been -/
  kept : ∀ p c, s.parent c = some p → s.exitArg c ≠ none →
    c ∈ s.childList p ∨ deliveries (s.waits p) c = 1 ∨ (s.pc p).freed = true
  /-- a wait for an unknown tid returns at once -/
  unknown : ∀ p c, s.pc p = .user → c ∉ s.childList p → ∃ s', procStep s (.wait p c) = some s' ∧
    s'.pc p = .user ∧ s'.waits p = s.waits p ++ [⟨c, -1, false⟩]
  /-- a wait for a child gets to the child's record -/
  known : ∀ p c, s.pc p = .user → c ∈ s.childList p → ∃ s', procStep s (.wait p c) = some s' ∧
    (s'.pc p).waitChild = some c
  /-- a wait for a child that has called `exit` returns its status as soon as the
  two have been scheduled -/
  returns : ∀ p c status, (s.pc p).waitChild = some c → s.exitArg c = some status →
    Returns s p c status
  /-- no wait is blocked on a child that has notified its parent -/
  awake : ∀ p c, s.pc p = .waitBlocked c → s.ups c = 0

/-- No process dies in another way than by its own call of `exit`, and it calls
`exit` while its record is on its parent's list. -/
def ExitsRegistered (s : ProcSys) : ProcAct → Prop
  | .kill _ | .die _ => False
  | .exit c _ => s.registered c = true
  | _ => True

instance (s : ProcSys) (a : ProcAct) : Decidable (ExitsRegistered s a) := by
  rcases a with ⟨⟩ <;> unfold ExitsRegistered <;> infer_instance

theorem reports_of_exitsRegistered (h : ExitsRegistered s a) : Reports s a := by
  cases a with
  | kill _ | die _ => exact h.elim
  | _ => trivial

/-! ## the returns of `process_wait` -/

@[grind cases eager]
structure WaitsInv (s : ProcSys) : Prop where
  sound : ∀ {p r}, r ∈ s.waits p → r.found = true →
    s.parent r.tid = some p ∧ s.exitArg r.tid = some r.value ∧ r.tid ∉ s.childList p
  refused : ∀ {p r}, r ∈ s.waits p → r.found = false → r.value = -1
  once : ∀ p c, deliveries (s.waits p) c ≤ 1
  kept : ∀ {p c}, s.parent c = some p → s.exitArg c ≠ none →
    c ∈ s.childList p ∨ deliveries (s.waits p) c = 1 ∨ (s.pc p).freed = true

theorem deliveries_append (waits : List WaitReturn) (r : WaitReturn) :
    deliveries (waits ++ [r]) c = deliveries waits c + if r.delivers c then 1 else 0 := by
  rw [deliveries, countP_append, countP_singleton, deliveries]

@[simp, grind =] theorem woken_freed {pc : ProcPc} : pc.woken.freed = pc.freed := by
  cases pc <;> rfl

theorem waitsInv_boot : WaitsInv procBoot := by
  constructor <;> simp [procBoot, deliveries]

/-- Nobody gets its records back. -/
@[simp]
def WaitsInv.Kept (_ : Tid) (y x : ProcPc) : Prop := y.freed = true → x.freed = true

theorem WaitsInv.Kept.refl (t : Tid) (y : ProcPc) : WaitsInv.Kept t y y := id

theorem WaitsInv.Kept.woken (t : Tid) (y : ProcPc) : WaitsInv.Kept t y y.woken := by
  rw [WaitsInv.Kept, woken_freed]
  exact id

section

variable (h : WaitsInv s)
include h

/-- Steps that touch no list and no history. -/
theorem WaitsInv.congr (hp : s'.parent = s.parent)
    (hl : s'.childList = s.childList) (ha : s'.exitArg = s.exitArg) (hw : s'.waits = s.waits)
    (hk : ∀ t, WaitsInv.Kept t (s.pc t) (s'.pc t)) : WaitsInv s' where
  sound hr hfound := by
    rw [hw] at hr
    rw [hp, ha, hl]
    exact h.sound hr hfound
  refused hr hfound := h.refused (hw ▸ hr) hfound
  once := by rw [hw]; exact h.once
  kept hpar harg := by
    rw [hp] at hpar
    rw [ha] at harg
    rw [hl, hw]
    exact (h.kept hpar harg).imp_right (.imp_right (hk _))

theorem WaitsInv.deliveries_eq_zero (hc : c ∈ s.childList p) : deliveries (s.waits p) c = 0 := by
  rw [deliveries, countP_eq_zero]
  intro r hr hdelivers
  simp only [WaitReturn.delivers, Bool.and_eq_true, beq_iff_eq] at hdelivers
  exact (h.sound hr hdelivers.1).2.2 (hdelivers.2 ▸ hc)

theorem WaitsInv.execCreate (ht : TreeInv s) (hr : ReportInv s)
    (hpc : s.pc p = .execCreate) : WaitsInv (execCreate s p) := by
  have hunborn := @ht.unborn
  have hborn := @ht.born
  have hfresh := @hr.fresh
  constructor <;> simp only [Pintos.execCreate, update_apply] <;> grind

theorem WaitsInv.execPush (hfresh : s.exitArg c = none)
    (hpc : s.pc p = .execPush c) : WaitsInv (execPush s p c) := by
  constructor <;> simp only [Pintos.execPush, update_apply] <;> grind

theorem WaitsInv.waitMiss :
    WaitsInv { s with
      waits := update s.waits p (s.waits p ++ [⟨c, -1, false⟩]) } := by
  constructor <;> simp only [update_apply] <;> grind [deliveries_append, WaitReturn.delivers]

theorem WaitsInv.waitRemove (ht : TreeInv s) (hmem : c ∈ s.childList p)
    (hstatus : s.exitArg c = some (s.exitStatus c)) (hpc : s.pc p = .waitRemove c) :
    WaitsInv (waitRemove s p c) := by
  have hparent := ht.mem_parent hmem
  have hzero := h.deliveries_eq_zero hmem
  have hnodup := ht.nodup p
  constructor <;> simp only [Pintos.waitRemove, update_apply] <;>
    grind [deliveries_append, WaitReturn.delivers]

theorem WaitsInv.exitCall (hq : s.parent p = some q) (hmem : p ∈ s.childList q)
    (hpc : s.pc p = .user) : WaitsInv (exitCall s p status) := by
  constructor <;> simp only [Pintos.exitCall, update_apply] <;> grind

theorem WaitsInv.exitFree : WaitsInv (exitFree s p) := by
  constructor <;> simp only [Pintos.exitFree, update_apply] <;> grind

theorem WaitsInv.step (hi : ProcInv s) (hr : ReportInv s) (hg : RegisterInv s)
    (hC : ExitsRegistered s a) (hm : ProcMove s a s') : WaitsInv s' := by
  cases hm with
  | kill hpc hp | die hpc => exact hC.elim
  | create hpc => exact h.execCreate hi.tree hr hpc
  | execPush hpc =>
    exact h.execPush (hr.fresh (not_leaving_of_awaiting (hg.push hpc))) hpc
  | waitMiss hpc hmem => exact h.waitMiss
  | waitRemove hpc =>
    have hmem := hi.tree.wait_child (by rw [hpc]; rfl)
    exact h.waitRemove hi.tree hmem (hr.told hmem (hr.gone_of_waitRemove hi.notify hpc)).1 hpc
  | exit hpc hp =>
    obtain ⟨q, hq⟩ := ne_none_iff_exists'.mp hp
    exact h.exitCall hq (mem_of_registered hC hq) hpc
  | exitFree hpc => exact h.exitFree
  | execUp hpc | exitUp hpc hq hlive hmem | @load p q ok hpc hq hlive =>
    refine h.congr rfl rfl rfl rfl (forall_woken .refl .woken ?_)
    simp [hpc]
  | _ =>
    refine h.congr rfl rfl rfl rfl (forall_moved .refl ?_)
    simp [‹s.pc _ = _›]

end

/-! ## scheduling a wait and the exit it waits for -/

theorem Returns.cons (ha : a = .run c ∨ a = .run p) (hs : procStep s a = some s')
    (hw : s'.waits p = s.waits p) (h : Returns s' p c status) : Returns s p c status := by
  obtain ⟨as, t, has, hrun, hpc, hwaits⟩ := h
  refine ⟨a :: as, t, ?_, ?_, hpc, hw ▸ hwaits⟩
  · intro b hb
    rcases mem_cons.mp hb with rfl | hb
    · exact ha
    · exact has b hb
  · rw [Machine.runFrom_cons]
    show (procStep s a).bind _ = _
    rw [hs, bind_some, hrun]

theorem returns_of_waitRemove (hpc : s.pc p = .waitRemove c) (hst : s.exitStatus c = status) :
    Returns s p c status := by
  refine ⟨[.run p], waitRemove s p c, by simp, ?_, ?_, ?_⟩
  · have hs : procStep s (.run p) = some (waitRemove s p c) := by simp [procStep, procRun, hpc]
    show (procStep s (.run p)).bind _ = _
    rw [hs]
    rfl
  · simp [waitRemove]
  · simp [waitRemove, hst]

theorem returns_of_waitDown (hpc : s.pc p = .waitDown c) (hv : (s.childSema c).value = 1)
    (hst : s.exitStatus c = status) : Returns s p c status := by
  have hs : procStep s (.run p) = some (waitDown s p c) := by simp [procStep, procRun, hpc]
  refine .cons (.inr rfl) hs rfl (returns_of_waitRemove ?_ hst)
  simp [waitDown, semaDownPass_take (by rw [hv]; decide)]

/-- The child is about to notify its parent, which is testing or blocked. -/
theorem returns_of_exitUp (hi : ProcInv s) (hr : ReportInv s) (hpc : s.pc c = .exitUp)
    (hwait : s.pc p = .waitDown c ∨ s.pc p = .waitBlocked c)
    (hst : s.exitStatus c = status) : Returns s p c status := by
  have hmem : c ∈ s.childList p := hi.tree.wait_child (by rcases hwait with h | h <;> rw [h] <;> rfl)
  have hparent := hi.tree.mem_parent hmem
  have hlive : s.pc p ≠ .dead := by rcases hwait with h | h <;> rw [h] <;> nofun
  have hzero : (s.childSema c).value = 0 :=
    (hi.notify.permit (hr.quiet (by rw [hpc]; rfl))).1
  have hs : procStep s (.run c) = some (exitUp s c) := by
    simp [procStep, procRun, hpc, liveParent_eq_some.mpr ⟨hparent, hlive⟩, hmem]
  have hne : p ≠ c := by
    rintro rfl
    rcases hwait with h | h <;> rw [hpc] at h <;> contradiction
  refine .cons (.inl rfl) hs rfl (returns_of_waitDown ?_ ?_ hst)
  · simp only [exitUp, semaUp_eq, ProcSys.setPc, ProcSys.wake, update_apply, if_neg hne]
    rcases hwait with h | h
    · rw [h]; split <;> rfl
    · rw [head?_childSema hi.tree hi.blocked h, if_pos rfl, h]
      rfl
  · simp [exitUp, semaUp_eq, hzero, uintSize, ProcSys.setPc, ProcSys.wake]

/-- The child is about to look for its record. -/
theorem returns_of_exitFind (h : procMachine.ReachIn Reports s) (hpc : s.pc c = .exitFind status)
    (hwait : s.pc p = .waitDown c ∨ s.pc p = .waitBlocked c) : Returns s p c status := by
  have hi : ProcInv s := procInv_of_reachIn h
  have hmem : c ∈ s.childList p := hi.tree.wait_child (by rcases hwait with h | h <;> rw [h] <;> rfl)
  have hlive : s.pc p ≠ .dead := by rcases hwait with h | h <;> rw [h] <;> nofun
  have hs : procStep s (.run c) = some (exitFound s c status) := by
    simp [procStep, procRun, hpc, exitFind, hi.tree.mem_parent hmem, hlive, hmem]
  have h' : procMachine.ReachIn Reports (exitFound s c status) := .step h (a := .run c) trivial hs
  have hne : p ≠ c := by
    rintro rfl
    rcases hwait with h | h <;> rw [hpc] at h <;> contradiction
  refine .cons (.inl rfl) hs rfl
    (returns_of_exitUp (procInv_of_reachIn h') (reportInv_of_reachIn h') ?_ ?_ ?_)
  · simp [exitFound]
  · simpa [exitFound, hne] using hwait
  · simp [exitFound]

/-- A process that has called `exit` and not yet notified its parent. -/
theorem notifying_of_not_gone {pc : ProcPc} (hl : pc.leaving = true) (ho : pc.gone = false) :
    (∃ status, pc = .exitFind status) ∨ pc = .exitUp := by
  cases pc <;> simp_all [ProcPc.leaving, ProcPc.gone]

theorem returns_of_not_gone (h : procMachine.ReachIn Reports s) (harg : s.exitArg c = some status)
    (hgone : (s.pc c).gone = false) (hwait : s.pc p = .waitDown c ∨ s.pc p = .waitBlocked c) :
    Returns s p c status := by
  have hr : ReportInv s := reportInv_of_reachIn h
  have hleaving : (s.pc c).leaving = true := by
    cases hl : (s.pc c).leaving with
    | true => rfl
    | false => rw [hr.fresh hl] at harg; contradiction
  rcases notifying_of_not_gone hleaving hgone with ⟨status', hpc⟩ | hpc
  · rw [hr.called hpc] at harg
    exact some.inj harg ▸ returns_of_exitFind h hpc hwait
  · rw [hr.stored hpc] at harg
    exact returns_of_exitUp (procInv_of_reachIn h) hr hpc hwait (some.inj harg)

/-- Wherever the parent is in its wait and the child in its `exit`, the wait
returns the status. -/
theorem returns_of_waitChild (h : procMachine.ReachIn Reports s)
    (hwait : (s.pc p).waitChild = some c) (harg : s.exitArg c = some status) :
    Returns s p c status := by
  have hi : ProcInv s := procInv_of_reachIn h
  have hr : ReportInv s := reportInv_of_reachIn h
  have hmem := hi.tree.wait_child hwait
  have hstatus : (s.pc c).gone = true → s.exitStatus c = status := fun hgone =>
    some.inj ((hr.told hmem hgone).1.symm.trans harg)
  rcases waitChild_eq_some.mp hwait with hpc | hpc | hpc
  · cases hgone : (s.pc c).gone with
    | false => exact returns_of_not_gone h harg hgone (.inl hpc)
    | true =>
      rcases (hr.told hmem hgone).2.2 with hone | hremove
      · exact returns_of_waitDown hpc hone (hstatus hgone)
      · rw [hpc] at hremove; contradiction
  · exact returns_of_not_gone h harg (hr.not_gone_of_waitBlocked hi hpc) (.inr hpc)
  · exact returns_of_waitRemove hpc (hstatus (hr.gone_of_waitRemove hi.notify hpc))

/-! ## the contract -/

theorem reachIn_reports (h : procMachine.ReachIn ExitsRegistered s) :
    procMachine.ReachIn Reports s :=
  h.mono fun _ _ _ hC _ => reports_of_exitsRegistered hC

theorem waitsInv_of_reachIn (h : procMachine.ReachIn ExitsRegistered s) : WaitsInv s :=
  h.invariant_reach (fun _ h0 => h0 ▸ waitsInv_boot) fun _ _ _ hr hi hC hs =>
    hi.step (procInv_of_reachIn hr) (reportInv_of_reachIn (reachIn_reports hr))
      (registerInv_of_reachIn (reachIn_reports hr)) hC (procMove_of_procStep hs)

end Pintos
