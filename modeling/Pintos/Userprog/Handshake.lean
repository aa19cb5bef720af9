import Pintos.Userprog.ProcessInv

/-!
# Pintos.Userprog.Handshake

The two semaphores of `struct thread` through which `process_execute` and
`start_process` meet.  `LoadInv` and `EntryInv` are what they guarantee in every
run.

Both are re-initialised by every call of `process_execute`.  A second call
throws away the permit of a first child that has not entered yet, and a call
whose `thread_create` fails waits for a child that does not exist
(`handshake_loses_permit`).  A parent that starts its next child only when the
last one has entered loses nothing (`handshake_kept_of_staggered`).
-/

namespace Pintos

open Function List ProcPc ProcSys

variable {s s' : ProcSys} {a : ProcAct} {p q c : Tid} {ok : Bool}

/-! ## in every run -/

/-- `child_load_sema`: a child that is loading has its parent waiting for it, and
the permit is there only when it has reported. -/
@[grind cases eager]
structure LoadInv (s : ProcSys) : Prop where
  loading : ∀ {c p}, s.parent c = some p → s.pc c = .loading →
    (s.pc p).downChild = some c ∧ (s.childLoadSema p).value = 0
  fresh : ∀ {p}, s.pc p = .execCreate → (s.childLoadSema p).value = 0
  blocked : ∀ {p t}, s.pc p = .execWait t → (s.childLoadSema p).value = 0
  reported : ∀ {c p}, (s.pc p).downChild = some c → (s.pc c).awaiting = true →
    s.loadSuccess p = true

theorem loadInv_boot : LoadInv procBoot := by
  constructor <;> simp [procBoot, semaInit]; grind

/-- Nobody gets to the statements that `LoadInv` is about, and nobody who waits
for a report stops. -/
@[simp]
def LoadInv.Kept (_ : Tid) (y x : ProcPc) : Prop :=
  (x = .loading → y = .loading) ∧ (x = .execCreate → y = .execCreate) ∧
    (∀ c, x = .execWait c → y = .execWait c) ∧ x.downChild = y.downChild ∧
    (x.awaiting = true → y.awaiting = true)

theorem LoadInv.Kept.refl (t : Tid) (y : ProcPc) : LoadInv.Kept t y y :=
  ⟨id, id, fun _ => id, rfl, id⟩

theorem LoadInv.Kept.woken (t : Tid) (y : ProcPc) : LoadInv.Kept t y y.woken := by
  refine ⟨woken_eq_loading.mp, woken_eq_execCreate.mp, fun c hc => ?_, woken_downChild, fun hy => ?_⟩
  · exact (woken_eq_execWait.mp hc).elim
  · rw [← hy, woken_awaiting]

/-- Steps outside `process_execute` and the loading of a child. -/
theorem LoadInv.congr (h : LoadInv s) (hp : s'.parent = s.parent)
    (hok : s'.loadSuccess = s.loadSuccess) (hd : s'.childLoadSema = s.childLoadSema)
    (hk : ∀ t, LoadInv.Kept t (s.pc t) (s'.pc t)) : LoadInv s' where
  loading hpar hpc := by
    rw [(hk _).2.2.2.1, hd]
    exact h.loading (hp ▸ hpar) ((hk _).1 hpc)
  fresh hpc := by rw [hd, h.fresh ((hk _).2.1 hpc)]
  blocked hpc := by rw [hd, h.blocked ((hk _).2.2.1 _ hpc)]
  reported hpc hawait := by
    rw [(hk _).2.2.2.1] at hpc
    rw [hok, h.reported hpc ((hk _).2.2.2.2 hawait)]

theorem LoadInv.execInit (h : LoadInv s) (hpc : s.pc p = .execInit) : LoadInv (execInit s p) := by
  constructor <;> simp only [Pintos.execInit, semaInit, update_apply] <;> grind

theorem LoadInv.execCreate (h : LoadInv s) (ht : TreeInv s) (hpc : s.pc p = .execCreate) :
    LoadInv (execCreate s p) := by
  have hunborn := @ht.unborn
  constructor <;> simp only [Pintos.execCreate, update_apply] <;> grind

theorem LoadInv.reportLoad (h : LoadInv s) (ht : TreeInv s) (hb : BlockedInv s)
    (hpc : s.pc p = .loading) (hpar : s.parent p = some q) : LoadInv (reportLoad s p q ok) := by
  have hexec : ∀ {r}, (s.pc r).downChild = some p → r = q := (ht.downChild_unique · hpar)
  have hzero := (h.loading hpar hpc).2
  rcases downChild_eq_some.mp (h.loading hpar hpc).1 with hdown | hwait
  · have hq : (s.childLoadSema q).waiters = [] := by rw [hb.load, hdown]; rfl
    constructor <;> simp only [Pintos.reportLoad, semaUp_eq, hq, hzero, setPc,
      wake, update_apply] <;> grind
  · have hq : (s.childLoadSema q).waiters = [q] := by rw [hb.load, hwait]; rfl
    constructor <;> simp only [Pintos.reportLoad, semaUp_eq, hq, hzero, setPc,
      wake, update_apply] <;> grind

theorem LoadInv.step (h : LoadInv s) (ht : TreeInv s) (hb : BlockedInv s)
    (hm : ProcMove s a s') : LoadInv s' := by
  cases hm with
  | execInit hpc => exact h.execInit hpc
  | create hpc => exact h.execCreate ht hpc
  | load hpc hpar hlive => exact h.reportLoad ht hb hpc hpar
  | createFail hpc | execTake hpc hv hok | execReturn hpc hv hfail | execBlock hpc hv =>
    constructor
    all_goals
      simp only [setPc, update_apply]
      grind
  | execUp hpc | exitUp hpc hq hlive hmem =>
    refine h.congr rfl rfl rfl (forall_woken .refl .woken ?_)
    simp [hpc]
  | waitMiss hpc hmem => exact h.congr rfl rfl rfl fun t => .refl t _
  | die hpc =>
    refine h.congr rfl rfl rfl (forall_moved .refl ?_)
    rcases hpc with hpc | hpc | hpc <;>
      simp [hpc]
  | _ =>
    refine h.congr rfl rfl rfl (forall_moved .refl ?_)
    simp [‹s.pc _ = _›]

theorem LoadInv.not_mem (h : LoadInv s) (ht : TreeInv s) (hpc : s.pc c = .loading) :
    c ∉ s.childList p := fun hmem =>
  have hdown := (h.loading (ht.mem_parent hmem) hpc).1
  (ht.exec_child (execChild_of_downChild hdown)).2 hmem

/-- `child_entry_sema`: a child that has loaded is registered or about to be,
unless the parent has freed its records; there is no permit to enter before the
registration. -/
@[grind cases eager]
structure EntryInv (s : ProcSys) : Prop where
  zero : ∀ {p}, (s.pc p).inExec = true → (s.childEntrySema p).value = 0
  registered : ∀ {c p}, s.parent c = some p → (s.pc c).awaiting = true →
    c ∈ s.childList p ∨ (s.pc p).execChild = some c ∨
      (s.pc p).leaving = true ∧ s.childList p = []

theorem entryInv_boot : EntryInv procBoot := by
  constructor <;> simp [procBoot, semaInit]

/-- Nobody gets into `process_execute` or out of `load`, a call keeps its child,
and nobody comes back from `exit`. -/
@[simp]
def EntryInv.Kept (_ : Tid) (y x : ProcPc) : Prop :=
  (x.inExec = true → y.inExec = true) ∧ (x.awaiting = true → y.awaiting = true) ∧
    x.execChild = y.execChild ∧ (y.leaving = true → x.leaving = true)

theorem EntryInv.Kept.refl (t : Tid) (y : ProcPc) : EntryInv.Kept t y y := ⟨id, id, rfl, id⟩

theorem EntryInv.Kept.woken (t : Tid) (y : ProcPc) : EntryInv.Kept t y y.woken := by
  simp only [EntryInv.Kept, woken_inExec, woken_awaiting, woken_execChild, woken_leaving, imp_self,
    and_self]

section

variable (h : EntryInv s)
include h

/-- Steps that neither register a child nor let one enter. -/
theorem EntryInv.congr (hp : s'.parent = s.parent)
    (hl : s'.childList = s.childList) (he : s'.childEntrySema = s.childEntrySema)
    (hk : ∀ t, EntryInv.Kept t (s.pc t) (s'.pc t)) : EntryInv s' where
  zero hpc := by rw [he, h.zero ((hk _).1 hpc)]
  registered hpar hawait := by
    rw [hl, (hk _).2.2.1]
    exact (h.registered (hp ▸ hpar) ((hk _).2.1 hawait)).imp_right
      (.imp_right (.imp_left (hk _).2.2.2))

theorem EntryInv.execCreate (ht : TreeInv s) (hpc : s.pc p = .execCreate) :
    EntryInv (execCreate s p) := by
  have hunborn := @ht.unborn
  constructor <;> simp only [Pintos.execCreate, update_apply] <;>
    grind [execChild, inExec]

theorem EntryInv.execReturn {t : Option Tid} (hl : LoadInv s) (hpc : s.pc p = .execDown t)
    (hfail : s.loadSuccess p = false ∨ t = none) {sema : Tid → Semaphore Tid} :
    EntryInv { s with childLoadSema := sema, pc := update s.pc p .user } := by
  have hok := @hl.reported
  constructor <;> simp only [update_apply] <;>
    grind [execChild, inExec]

theorem EntryInv.reportLoad (hl : LoadInv s)
    (hpc : s.pc p = .loading) (hpar : s.parent p = some q) : EntryInv (reportLoad s p q ok) := by
  have hq := execChild_of_downChild (hl.loading hpar hpc).1
  constructor <;> simp only [Pintos.reportLoad, setPc, wake,
    update_apply] <;> grind [execChild, inExec]

theorem EntryInv.waitRemove (hn : NotifyInv s) (hpc : s.pc p = .waitRemove c) :
    EntryInv (waitRemove s p c) := by
  have hc : (s.pc c).leaving = true := hn.leaving fun hups => (hn.permit hups).2 p hpc
  constructor <;> simp only [Pintos.waitRemove, update_apply] <;>
    grind [execChild, inExec]

theorem EntryInv.execUp (hpc : s.pc p = .execUp c) : EntryInv (execUp s p) := by
  constructor <;> simp only [Pintos.execUp, setPc, wake, update_apply] <;>
    grind [execChild, inExec]

theorem EntryInv.step (ht : TreeInv s) (hl : LoadInv s) (hn : NotifyInv s)
    (hm : ProcMove s a s') : EntryInv s' := by
  cases hm with
  | create hpc => exact h.execCreate ht hpc
  | execUp hpc => exact h.execUp hpc
  | execReturn hpc hv hfail => exact h.execReturn hl hpc hfail
  | load hpc hpar hlive => exact h.reportLoad hl hpc hpar
  | waitRemove hpc => exact h.waitRemove hn hpc
  | execInit hpc | execPush hpc | exitFree hpc | entryTake hpc hq hlive hv
  | entryBlock hpc hq hlive hv =>
    constructor
    all_goals
      simp only [execInit, semaInit, execPush, exitFree, update_apply]
      grind [execChild, inExec]
  | exitUp hpc hq hlive hmem =>
    refine h.congr rfl rfl rfl (forall_woken .refl .woken ?_)
    simp [hpc]
  | waitMiss hpc hmem => exact h.congr rfl rfl rfl fun t => .refl t _
  | die hpc =>
    refine h.congr rfl rfl rfl (forall_moved .refl ?_)
    rcases hpc with hpc | hpc | hpc <;>
      simp [hpc]
  | _ =>
    refine h.congr rfl rfl rfl (forall_moved .refl ?_)
    simp [‹s.pc _ = _›]

end

/-- What holds in every run. -/
structure ProcInv (s : ProcSys) : Prop where
  tree : TreeInv s
  blocked : BlockedInv s
  notify : NotifyInv s
  load : LoadInv s
  entry : EntryInv s

theorem procInv_boot : ProcInv procBoot :=
  ⟨treeInv_boot, blockedInv_boot, notifyInv_boot, loadInv_boot, entryInv_boot⟩

/-- **Step lemma**: every step keeps the invariants of all runs. -/
theorem ProcInv.step (h : ProcInv s) (hm : ProcMove s a s') : ProcInv s' where
  tree := h.tree.step hm
  blocked := h.blocked.step h.tree hm
  notify := h.notify.step h.tree h.blocked hm
  load := h.load.step h.tree h.blocked hm
  entry := h.entry.step h.tree h.load h.notify hm

/-- **Run lemma**: the invariants of all runs. -/
theorem procInv_of_reachIn {C : ProcSys → ProcAct → Prop} (h : procMachine.ReachIn C s) :
    ProcInv s :=
  h.invariant (fun _ h0 => h0 ▸ procInv_boot) fun _ _ _ hi _ hs => hi.step (procMove_of_procStep hs)

theorem countP_le_one {α : Type*} {P : α → Bool} {l : List α} (hnd : l.Nodup)
    (h : ∀ x ∈ l, ∀ y ∈ l, P x = true → P y = true → x = y) : l.countP P ≤ 1 := by
  rw [countP_eq_length_filter]
  have hnd' := hnd.filter P
  cases hl : l.filter P with
  | nil => simp
  | cons x xs =>
    cases xs with
    | nil => simp
    | cons y ys =>
      have hx : x ∈ l ∧ P x = true := mem_filter.mp (by simp [hl])
      have hy : y ∈ l ∧ P y = true := mem_filter.mp (by simp [hl])
      rw [hl, h x hx.1 y hy.1 hx.2 hy.2] at hnd'
      simp at hnd'

/-! ## permits -/

/-- About to do the `sema_up` that follows a registration. -/
@[simp, grind]
def ProcPc.upping : ProcPc → Bool
  | .execUp _ => true
  | _ => false

/-- Every child that is registered and has not entered has a permit: one that
is there, or the one that its parent is about to add. -/
def EntryPermits (s : ProcSys) : Prop :=
  ∀ p, (s.childList p).countP (fun c => (s.pc c).awaiting) ≤
    (s.childEntrySema p).value + if (s.pc p).upping then 1 else 0

/-- A parent that is blocked on `child_load_sema` has a child that will up
it. -/
def LoadAnswered (s : ProcSys) : Prop :=
  ∀ p t, s.pc p = .execWait t → ∃ c, s.parent c = some p ∧ s.pc c = .loading

/-- A call of `process_execute` starts when every child registered before has
entered; `thread_create` succeeds; and no child dies inside `load`. -/
def Staggered (s : ProcSys) : ProcAct → Prop
  | .run p => s.pc p = .execInit → ∀ c ∈ s.childList p, (s.pc c).awaiting = false
  | .create _ ok => ok = true
  | .die c => s.pc c ≠ .loading
  | _ => True

instance (s : ProcSys) (a : ProcAct) : Decidable (Staggered s a) := by
  cases a <;> unfold Staggered <;> infer_instance

/-- The initial thread starts process `1` and registers it; before process `1`
enters, the next call of `process_execute` re-initialises the semaphores. -/
def secondExecRun : List ProcAct :=
  [.execute 0, .run 0, .create 0 true, .load 1 true, .run 0, .run 0, .run 0, .execute 0, .run 0]

/-- `thread_create` returns `TID_ERROR` and the parent waits. -/
def createFailsRun : List ProcAct := [.execute 0, .run 0, .create 0 false, .run 0]

/-- The permit of the first child is lost, and a parent without a child is
blocked. -/
theorem handshake_loses_permit :
    (∃ s : ProcSys, procMachine.runFrom procBoot secondExecRun = some s ∧
      procMachine.Reach s ∧ ¬ EntryPermits s) ∧
    ∃ s : ProcSys, procMachine.runFrom procBoot createFailsRun = some s ∧
      procMachine.Reach s ∧ ¬ LoadAnswered s := by
  constructor
  · obtain ⟨s, hrun, hs, hcount, hvalue, hpc⟩ := Machine.exists_reach_of_runFrom (m := procMachine)
      rfl secondExecRun (fun s => (s.childList 0).countP (fun c => (s.pc c).awaiting) = 1 ∧
        (s.childEntrySema 0).value = 0 ∧ s.pc 0 = .execCreate) (by decide +kernel)
    refine ⟨s, hrun, hs, fun hpermits => ?_⟩
    have h0 := hpermits 0
    rw [hcount, hvalue, hpc] at h0
    exact absurd h0 (by decide)
  · obtain ⟨s, hrun, hs, hpc, hnext⟩ := Machine.exists_reach_of_runFrom (m := procMachine) rfl
      createFailsRun (fun s => s.pc 0 = .execWait none ∧ s.nextTid = 1) (by decide +kernel)
    refine ⟨s, hrun, hs, fun hanswered => ?_⟩
    obtain ⟨c, hparent, hloading⟩ := hanswered 0 none hpc
    have hborn := (procInv_of_reachIn hs).tree.born hparent
    have hc : c = 0 := Nat.lt_one_iff.mp (hnext ▸ hborn)
    rw [hc, hpc] at hloading
    contradiction

/-! ## staggered calls -/

/-- Without overlapping calls at most one registered child has not entered, and
its permit is there or is about to be. -/
@[grind cases eager]
structure PermitInv (s : ProcSys) : Prop where
  permit : ∀ {p c}, c ∈ s.childList p → (s.pc c).awaiting = true →
    (s.childEntrySema p).value = 1 ∨ (s.pc p).upping = true
  unique : ∀ {p c c'}, c ∈ s.childList p → c' ∈ s.childList p → (s.pc c).awaiting = true →
    (s.pc c').awaiting = true → c = c'

@[simp, grind =] theorem woken_upping (pc : ProcPc) : pc.woken.upping = pc.upping := by
  cases pc <;> rfl

theorem permitInv_boot : PermitInv procBoot := by
  constructor <;> simp [procBoot]

/-- Only a thread that is on no list gets out of `load`. -/
@[simp]
def PermitInv.Kept (s : ProcSys) (t : Tid) (y x : ProcPc) : Prop :=
  (x.awaiting = true → y.awaiting = true ∨ ∀ p, t ∉ s.childList p) ∧
    (y.upping = true → x.upping = true)

theorem PermitInv.Kept.refl (t : Tid) (y : ProcPc) : PermitInv.Kept s t y y := ⟨.inl, id⟩

theorem PermitInv.Kept.woken (t : Tid) (y : ProcPc) : PermitInv.Kept s t y y.woken := by
  refine ⟨fun hy => .inl ?_, fun hy => ?_⟩
  · rw [← hy, woken_awaiting]
  · rw [woken_upping, hy]

theorem PermitInv.Kept.awaiting {t : Tid} {y x : ProcPc} (hk : PermitInv.Kept s t y x)
    (ht : t ∈ s.childList p) (hx : x.awaiting = true) : y.awaiting = true :=
  (hk.1 hx).resolve_right fun hnone => hnone p ht

/-- Steps that touch no list and no `child_entry_sema`. -/
theorem PermitInv.congr (h : PermitInv s) (hl : s'.childList = s.childList)
    (he : s'.childEntrySema = s.childEntrySema)
    (hk : ∀ t, PermitInv.Kept s t (s.pc t) (s'.pc t)) : PermitInv s' where
  permit hc hawait := by
    rw [hl] at hc
    rw [he]
    exact (h.permit hc ((hk _).awaiting hc hawait)).imp_right (hk _).2
  unique hc hc' hawait hawait' := by
    rw [hl] at hc hc'
    exact h.unique hc hc' ((hk _).awaiting hc hawait) ((hk _).awaiting hc' hawait')

theorem PermitInv.execUp (h : PermitInv s) (hzero : (s.childEntrySema p).value = 0) :
    PermitInv (execUp s p) := by
  constructor <;> simp only [Pintos.execUp, semaUp_eq, hzero, uintSize, setPc,
    wake, update_apply] <;> grind

/-- The permit that is taken is that of the only registered child that has not
entered. -/
theorem PermitInv.entryTake (h : PermitInv s) (he : EntryInv s) (hpc : s.pc p = .entryDown)
    (hq : s.parent p = some q) (hv : (s.childEntrySema q).value ≠ 0) :
    PermitInv { s with
      childEntrySema := update s.childEntrySema q
        ⟨(s.childEntrySema q).value - 1, (s.childEntrySema q).waiters⟩
      pc := update s.pc p .user } := by
  have hreg : p ∈ s.childList q ∨ s.childList q = [] := by
    rcases he.registered hq (by rw [hpc]; rfl) with hmem | hexec | ⟨-, hnil⟩
    · exact .inl hmem
    · exact absurd (he.zero (inExec_of_execChild hexec)) hv
    · exact .inr hnil
  constructor <;> simp only [update_apply] <;> grind

theorem PermitInv.step (h : PermitInv s) (hi : ProcInv s) (hC : Staggered s a)
    (hm : ProcMove s a s') : PermitInv s' := by
  cases hm with
  | execInit hpc =>
    constructor <;> simp only [Staggered, execInit, update_apply] at hC ⊢ <;> grind
  | create hpc | execPush hpc | waitRemove hpc | exitFree hpc | entryBlock hpc hq hlive hv =>
    have hzero := @hi.entry.zero
    constructor
    all_goals
      simp only [execCreate, execPush, waitRemove, exitFree, update_apply]
      grind [inExec]
  | execUp hpc => exact h.execUp (hi.entry.zero (by rw [hpc]; rfl))
  | entryTake hpc hq hlive hv => exact h.entryTake hi.entry hpc hq hv
  | @load p q ok hpc hq hlive =>
    have hmem : ∀ r, p ∉ s.childList r := fun r => hi.load.not_mem hi.tree hpc
    refine h.congr rfl rfl (forall_woken .refl .woken ⟨fun _ => .inr hmem, ?_⟩)
    simp [hpc]
  | exitUp hpc hq hlive hmem =>
    refine h.congr rfl rfl (forall_woken .refl .woken ?_)
    simp [hpc]
  | waitMiss hpc hmem => exact h.congr rfl rfl fun t => .refl t _
  | die hpc =>
    refine h.congr rfl rfl (forall_moved .refl ?_)
    rcases hpc with hpc | hpc | hpc <;>
      simp [hpc]
  | _ =>
    refine h.congr rfl rfl (forall_moved .refl ?_)
    simp [‹s.pc _ = _›]

/-- Waiting for the report of a child that was not created. -/
@[simp, grind]
def ProcPc.childless : ProcPc → Bool
  | .execDown none | .execWait none => true
  | _ => false

/-- A parent that waits for a report has a child, and the child is loading until
the permit is there. -/
@[grind cases eager]
structure AnswerInv (s : ProcSys) : Prop where
  created : ∀ p, (s.pc p).childless = false
  answered : ∀ {p c}, (s.pc p).downChild = some c → (s.childLoadSema p).value = 0 →
    s.pc c = .loading

@[simp, grind =] theorem woken_childless (pc : ProcPc) : pc.woken.childless = pc.childless := by
  cases pc with
  | execDown t | execWait t => cases t <;> rfl
  | _ => rfl

theorem answerInv_boot : AnswerInv procBoot := by
  constructor <;> simp [procBoot, semaInit] <;> grind

/-- Nobody starts or stops waiting for a report, and nobody stops loading. -/
@[simp]
def AnswerInv.Kept (_ : Tid) (y x : ProcPc) : Prop :=
  x.childless = y.childless ∧ x.downChild = y.downChild ∧ (y = .loading → x = .loading)

theorem AnswerInv.Kept.refl (t : Tid) (y : ProcPc) : AnswerInv.Kept t y y := ⟨rfl, rfl, id⟩

theorem AnswerInv.Kept.woken (t : Tid) (y : ProcPc) : AnswerInv.Kept t y y.woken :=
  ⟨woken_childless y, woken_downChild, woken_eq_loading.mpr⟩

/-- Steps outside `process_execute` and the loading of a child. -/
theorem AnswerInv.congr (h : AnswerInv s) (hd : s'.childLoadSema = s.childLoadSema)
    (hk : ∀ t, AnswerInv.Kept t (s.pc t) (s'.pc t)) : AnswerInv s' where
  created p := by rw [(hk p).1, h.created p]
  answered hpc hv := by
    rw [(hk _).2.1] at hpc
    rw [hd] at hv
    exact (hk _).2.2 (h.answered hpc hv)

theorem AnswerInv.execCreate (h : AnswerInv s) (ht : TreeInv s) (hpc : s.pc p = .execCreate) :
    AnswerInv (execCreate s p) := by
  have hunborn := @ht.unborn
  constructor <;> simp only [Pintos.execCreate, update_apply] <;> grind

theorem AnswerInv.reportLoad (h : AnswerInv s) (ht : TreeInv s) (hl : LoadInv s)
    (hpc : s.pc p = .loading) (hq : s.parent p = some q) : AnswerInv (reportLoad s p q ok) := by
  have hexec : ∀ {r}, (s.pc r).downChild = some p → r = q := (ht.downChild_unique · hq)
  have hzero := (hl.loading hq hpc).2
  constructor <;> simp only [Pintos.reportLoad, semaUp_eq, hzero, uintSize, setPc,
    wake, update_apply] <;> grind

theorem AnswerInv.step (h : AnswerInv s) (hi : ProcInv s) (hC : Staggered s a)
    (hm : ProcMove s a s') : AnswerInv s' := by
  cases hm with
  | createFail hpc => exact absurd hC nofun
  | create hpc => exact h.execCreate hi.tree hpc
  | load hpc hq hlive => exact h.reportLoad hi.tree hi.load hpc hq
  | execInit hpc | execTake hpc hv hok | execReturn hpc hv hfail | execBlock hpc hv =>
    constructor
    all_goals
      simp only [execInit, semaInit, update_apply]
      grind
  | execUp hpc | exitUp hpc hq hlive hmem =>
    refine h.congr rfl (forall_woken .refl .woken ?_)
    simp [hpc]
  | waitMiss hpc hmem => exact h.congr rfl fun t => .refl t _
  | die hpc =>
    refine h.congr rfl (forall_moved .refl ?_)
    rcases hpc with hpc | hpc | hpc
    · exact absurd hpc hC
    all_goals simp [hpc]
  | _ =>
    refine h.congr rfl (forall_moved .refl ?_)
    simp [‹s.pc _ = _›]

/-- **The handshake of staggered calls**: in every run in which a parent starts
its next child only when the registered ones have entered, in which
`thread_create` succeeds and no child dies inside `load`, no permit is lost and
no parent waits for a child that will not report. -/
theorem handshake_kept_of_staggered (s : ProcSys) (h : procMachine.ReachIn Staggered s) :
    EntryPermits s ∧ LoadAnswered s := by
  have hi : ProcInv s := procInv_of_reachIn h
  have hpermit : PermitInv s := h.invariant_reach (fun _ h0 => h0 ▸ permitInv_boot)
    fun _ _ _ hr hp hC hs => hp.step (procInv_of_reachIn hr) hC (procMove_of_procStep hs)
  have hanswer : AnswerInv s := h.invariant_reach (fun _ h0 => h0 ▸ answerInv_boot)
    fun _ _ _ hr ha hC hs => ha.step (procInv_of_reachIn hr) hC (procMove_of_procStep hs)
  constructor
  · intro p
    by_cases hc : ∃ c ∈ s.childList p, (s.pc c).awaiting = true
    · obtain ⟨c, hmem, hawait⟩ := hc
      have hone := countP_le_one (hi.tree.nodup p) (P := fun c => (s.pc c).awaiting)
        fun x hx y hy => hpermit.unique hx hy
      rcases hpermit.permit hmem hawait with hvalue | hup
      · rw [hvalue]; omega
      · rw [if_pos hup]; omega
    · rw [countP_eq_zero.mpr fun c hmem hawait => hc ⟨c, hmem, hawait⟩]
      exact Nat.zero_le _
  · intro p t hpc
    have hzero := hi.load.blocked hpc
    cases t with
    | none => exact absurd (hanswer.created p) (by rw [hpc]; decide)
    | some c =>
      have hdown : (s.pc p).downChild = some c := by rw [hpc]; rfl
      exact ⟨c, (hi.tree.exec_child (execChild_of_downChild hdown)).1,
        hanswer.answered hdown hzero⟩

/-- Process `2` is registered with process `1` and has not entered, and the
initial thread is blocked while process `3` loads. -/
theorem handshake_kept_of_staggered_two_parents :
    ∃ s : ProcSys, s.childList 1 = [2] ∧ s.pc 2 = .passing ∧ s.pc 0 = .execWait (some 3) ∧
      EntryPermits s ∧ LoadAnswered s := by
  obtain ⟨s, -, hs, hlist, hpassing, hpc⟩ := Machine.exists_reachIn_of_runIn (m := procMachine)
    (C := Staggered) rfl (spawn 0 1 ++
      [.execute 1, .run 1, .create 1 true, .load 2 true, .run 1, .run 1, .run 1, .execute 0, .run 0,
      .create 0 true, .run 0]) (fun s => s.childList 1 = [2] ∧ s.pc 2 = .passing ∧
      s.pc 0 = .execWait (some 3)) (by decide +kernel)
  exact ⟨s, hlist, hpassing, hpc, handshake_kept_of_staggered s hs⟩

end Pintos

