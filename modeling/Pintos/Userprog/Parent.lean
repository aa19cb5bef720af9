import Pintos.Userprog.Handshake

/-!
# Pintos.Userprog.Parent

The parent pointer of a process is set once, in `init_thread`, and no exit
path updates it.  When a process exits before one of its children, its page is
released and the child's `exit` follows the dangling pointer
(`parent_exits_first_dangles`).  When every process outlives its children, the
pointer that `exit` follows is always good (`parent_live_of_outlives`).
-/

namespace Pintos

open Function

variable {s s' : ProcSys} {a : ProcAct}

/-- Whenever `exit` is about to walk `parent->child_list`, the parent's
`struct thread` has not been released. -/
def ParentLive (s : ProcSys) : Prop :=
  ∀ c p status, s.pc c = .exitFind status → s.parent c = some p → s.pc p ≠ .dead

/-- No process is switched away from for good while one of its children has
not terminated. -/
def Outlives (s : ProcSys) : ProcAct → Prop
  | .run p => s.pc p = .exiting → ∀ c < s.nextTid, s.parent c = some p → s.pc c = .dead
  | _ => True

instance (s : ProcSys) (a : ProcAct) : Decidable (Outlives s a) := by
  rcases a with ⟨⟩ <;> unfold Outlives <;> infer_instance

/-- Process `1` starts process `2` and terminates; process `2` then calls
`exit`. -/
def parentFirstRun : List ProcAct :=
  spawn 0 1 ++ spawn 1 2 ++ terminate 1 0 ++ [.exit 2 0]

/-- The parent that process `2` is about to follow has been released. -/
theorem parent_exits_first_dangles :
    ∃ s : ProcSys, procMachine.runFrom procBoot parentFirstRun = some s ∧ procMachine.Reach s ∧
      ¬ ParentLive s := by
  obtain ⟨s, hrun, hs, hpc, hparent, hdead⟩ := Machine.exists_reach_of_runFrom (m := procMachine)
    rfl parentFirstRun (fun s => s.pc 2 = .exitFind 0 ∧ s.parent 2 = some 1 ∧ s.pc 1 = .dead)
    (by decide +kernel)
  exact ⟨s, hrun, hs, fun hlive => hlive 2 1 0 hpc hparent hdead⟩

/-- Processes that have terminated have no child that has not. -/
def OrphanFree (s : ProcSys) : Prop :=
  ∀ c p, s.parent c = some p → s.pc p = .dead → s.pc c = .dead

theorem orphanFree_boot : OrphanFree procBoot := by
  intro c p hp
  contradiction

/-- Whether a process has terminated stays as it is. -/
@[simp]
def OrphanFree.Kept (_ : Tid) (y x : ProcPc) : Prop := x = .dead ↔ y = .dead

theorem OrphanFree.Kept.refl (t : Tid) (y : ProcPc) : OrphanFree.Kept t y y := Iff.rfl

theorem OrphanFree.Kept.woken (t : Tid) (y : ProcPc) : OrphanFree.Kept t y y.woken := woken_eq_dead

theorem OrphanFree.congr (h : OrphanFree s) (hp : s'.parent = s.parent)
    (hk : ∀ t, OrphanFree.Kept t (s.pc t) (s'.pc t)) : OrphanFree s' := by
  intro c p hpar hdead
  rw [hp] at hpar
  exact (hk c).mpr (h c p hpar ((hk p).mp hdead))

/-- **Step lemma**: a process that terminates after its children leaves no
orphan. -/
theorem OrphanFree.step (h : OrphanFree s) (ht : TreeInv s) (hC : Outlives s a)
    (hm : ProcMove s a s') : OrphanFree s' := by
  cases hm with
  | create hpc =>
    have hunborn := @ht.unborn
    unfold OrphanFree at h ⊢
    simp only [execCreate, update_apply]
    grind
  | done hpc =>
    have hborn := @ht.born
    unfold OrphanFree at h ⊢
    simp only [Outlives, ProcSys.setPc, update_apply] at hC ⊢
    grind
  | execUp hpc | exitUp hpc hq hlive hmem =>
    refine h.congr rfl (forall_woken .refl .woken ?_)
    simp [hpc]
  | @load p q ok hpc hq hlive =>
    refine h.congr rfl (forall_woken .refl .woken ?_)
    cases ok <;> simp [hpc]
  | waitMiss hpc hmem => exact h.congr rfl fun t => .refl t _
  | die hpc =>
    refine h.congr rfl (forall_moved .refl ?_)
    rcases hpc with hpc | hpc | hpc <;> simp [hpc]
  | _ =>
    refine h.congr rfl (forall_moved .refl ?_)
    simp [‹s.pc _ = _›]

/-- **No dangling parent**: in every run in which no process terminates before
one of its children, the parent that `exit` walks has not been released. -/
theorem parent_live_of_outlives (s : ProcSys) (h : procMachine.ReachIn Outlives s) :
    ParentLive s := by
  have hfree : OrphanFree s := h.invariant_reach (fun _ h0 => h0 ▸ orphanFree_boot)
    fun _ _ _ hr hi hC hs => hi.step (procInv_of_reachIn hr).tree hC (procMove_of_procStep hs)
  intro c p status hpc hp hdead
  have hc := hfree c p hp hdead
  cases hpc.symm.trans hc

/-- Process `2` has terminated and its parent, process `1`, is in `exit`. -/
theorem parent_live_of_outlives_children_first :
    ∃ s : ProcSys, s.pc 2 = .dead ∧ s.pc 1 = .exitFind 7 ∧ ParentLive s := by
  obtain ⟨s, -, hs, hdead, hpc⟩ := Machine.exists_reachIn_of_runIn (m := procMachine)
    (C := Outlives) rfl (spawn 0 1 ++ spawn 1 2 ++ terminate 2 0 ++ [.exit 1 7])
    (fun s => s.pc 2 = .dead ∧ s.pc 1 = .exitFind 7) (by decide +kernel)
  exact ⟨s, hdead, hpc, parent_live_of_outlives s hs⟩

end Pintos
