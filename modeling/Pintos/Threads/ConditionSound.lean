import Pintos.Threads.ConditionInv

/-!
# Pintos.Threads.ConditionSound

Conditions lose no signal (`cond_signals`): `cond_signal` releases the thread that has waited
longest, `cond_broadcast` those that wait when it is called, and `cond_wait` returns after the
thread has been released once, with the lock held.
-/

namespace Pintos

open List Option CondSys

variable {τ ι : Type*} [DecidableEq τ] [DecidableEq ι] {s s' : CondSys τ ι} {t w : τ} {l : ι}

/-- The threads that a call has to release. -/
def CondCall.due (c : CondCall τ) : List τ :=
  match c.fn with
  | .wait => []
  | .signal => c.waiters.take 1
  | .broadcast => c.waiters

/-- `t` returns from its call. -/
def CondSys.Returns (s s' : CondSys τ ι) (t : τ) : Prop := s.pc t ≠ .outside ∧ s'.pc t = .outside

/-- What callers rely on. -/
structure CondSound (l : ι) (s : CondSys τ ι) : Prop where
  /-- `cond_signal` and `cond_broadcast` release the threads that are due, and no other thread -/
  signal : ∀ t s', condStep l s (.run t) = some s' → s.Returns s' t → (s.call t).fn ≠ .wait →
    (∀ x, s'.released x = (s.call t).released x + if x ∈ (s.call t).due then 1 else 0) ∧
      s'.waiters = (s.call t).waiters.drop (s.call t).due.length
  /-- they find the waiting threads in the order of their arrival -/
  fifo : ∀ t, (s.pc t).Signals → (s.call t).waiters.Pairwise fun w x =>
    (s.call t).since w < (s.call t).since x
  /-- they return when they are run -/
  returns : ∀ t, (s.pc t).Signals → ∃ n s', (condMachine l).runFrom s (.replicate n (.run t)) =
    some s' ∧ s'.pc t = .outside
  /-- a thread is in the list, or about to be released, as long as it has not been released -/
  pending : ∀ w, s.Pending w ↔ (s.pc w).Waits ∧ s.released w = (s.call w).released w
  /-- a thread that has been released is not blocked, and its semaphore has the permit -/
  permit : ∀ w, (s.pc w).Waits → ¬ s.Pending w → s.pc w ≠ .asleep ∧ s.sema w = ⟨1, []⟩
  /-- `cond_wait` returns after the thread has been released, with the lock held -/
  wait : ∀ t s', condStep l s (.run t) = some s' → s.Returns s' t → (s.call t).fn = .wait →
    s'.released t = (s.call t).released t + 1 ∧ s'.locks.Holds t l

namespace CondInv

/-- The statements after which a call returns. -/
theorem returns_cases (h : CondInv l s) (hs : condStep l s (.run t) = some s')
    (hret : s.Returns s' t) : s.locks.pc t = .outside ∧
      (s.pc t = .done ∧ s' = s.setPc t .outside ∨
        s.pc t = .test ∧ s.waiters = [] ∧ s' = s.setPc t .outside ∨
        s.pc t = .pop ∧ s.waiters = [] ∧ s.back t = .outside ∧ s' = s.setPc t .outside ∨
        ∃ w, s.pc t = .up w ∧ s.back t = .outside ∧ s.Upped s' t w) := by
  obtain ⟨hin, hout'⟩ := hret
  unfold condStep at hs
  dsimp only at hs
  split at hs
  · split at hs
    · next hout =>
      refine ⟨hout, ?_⟩
      unfold Pintos.condRun at hs
      have hself : ∀ (s₁ : CondSys τ ι) pc, s' = s₁.setPc t pc → pc = .outside := by
        rintro s₁ pc rfl
        exact (setPc_self s₁ t pc).symm.trans hout'
      cases hpc : s.pc t with
      | outside => exact absurd hpc hin
      | asleep => rw [hpc] at hs; cases hs
      | init =>
        rw [hpc] at hs
        dsimp only at hs
        split at hs
        · cases hself _ _ (some.inj hs).symm
        · cases hs
      | push | acquire =>
        rw [hpc] at hs
        cases hself _ _ (some.inj hs).symm
      | release =>
        rw [hpc] at hs
        obtain ⟨locks, -, heq⟩ := map_eq_some_iff.mp hs
        cases hself _ _ heq.symm
      | down =>
        rw [hpc] at hs
        have heq := hself _ _ (some.inj hs).symm
        split at heq
        · cases heq
        · cases heq
      | done =>
        rw [hpc] at hs
        exact .inl ⟨rfl, (some.inj hs).symm⟩
      | test =>
        rw [hpc] at hs
        dsimp only at hs
        split at hs
        · next hnil => exact .inr (.inl ⟨rfl, hnil, (some.inj hs).symm⟩)
        · cases hself _ _ (some.inj hs).symm
      | pop =>
        rw [hpc] at hs
        dsimp only at hs
        split at hs
        · split at hs
          · next hnil =>
            have hback := hself _ _ (some.inj hs).symm
            rw [hback] at hs
            exact .inr (.inr (.inl ⟨rfl, hnil, hback, (some.inj hs).symm⟩))
          · cases hself _ _ (some.inj hs).symm
        · cases hs
      | up w =>
        rw [hpc] at hs
        have hback := hself _ _ (some.inj hs).symm
        exact .inr (.inr (.inr ⟨w, rfl, hback, some.inj hs ▸ h.upped hpc⟩))
    · obtain ⟨locks, -, rfl⟩ := map_eq_some_iff.mp hs
      exact absurd hout' hin
  · cases hs

omit [DecidableEq ι] in
theorem call_nodup {ds : List τ} (hp : s.Progress t ds) : (s.call t).waiters.Nodup :=
  hp.fifo.imp fun {_ _} hlt heq => absurd (heq ▸ hlt) (Nat.lt_irrefl _)

theorem signal_returns (h : CondInv l s) (hs : condStep l s (.run t) = some s')
    (hret : s.Returns s' t) (hfn : (s.call t).fn ≠ .wait) :
    (∀ x, s'.released x = (s.call t).released x + if x ∈ (s.call t).due then 1 else 0) ∧
      s'.waiters = (s.call t).waiters.drop (s.call t).due.length := by
  have ht := h.thread t
  obtain ⟨-, ⟨hpc, -⟩ | ⟨hpc, hnil, rfl⟩ | ⟨hpc, hnil, hback, rfl⟩ | ⟨w, hpc, hback, hu⟩⟩ :=
    h.returns_cases hs hret
  · have hwait := ht.fn
    rw [hpc] at hwait
    exact absurd hwait hfn
  · -- the list is empty, so all have been released
    obtain ⟨ds, hp⟩ := ht.progress (hpc ▸ trivial)
    have hall := ht.fn
    have hws := hp.waiters
    rw [hpc] at hall hws
    rw [hnil] at hws
    have hds : (s.call t).waiters = ds := hws.trans (append_nil ds)
    have hdue : (s.call t).due = (s.call t).waiters := by
      rw [CondCall.due, show (s.call t).fn = .broadcast from hall]
    have hnodup := call_nodup hp
    rw [hdue]
    refine ⟨fun x => ?_, ?_⟩
    · rw [hds] at hnodup ⊢
      rw [← hnodup.count]
      exact hp.released x
    · rwa [drop_length]
  · obtain ⟨ds, hp⟩ := ht.progress (hpc ▸ trivial)
    have hone : (s.call t).fn = .signal :=
      ((h.back_cases (w := t) (.inr hpc)).resolve_left fun hb => nomatch hb.1.symm.trans hback).2
    have hds := hp.first hone
    subst hds
    have hws := hp.waiters
    rw [hpc, hnil] at hws
    have hempty : (s.call t).waiters = [] := hws
    have hdue : (s.call t).due = [] := by rw [CondCall.due, hone, hempty]; rfl
    rw [hdue, hempty]
    exact ⟨hp.released, hnil⟩
  · obtain ⟨ds, hp⟩ := ht.progress (hpc ▸ trivial)
    have hone : (s.call t).fn = .signal :=
      ((h.back_cases (.inl hpc)).resolve_left fun hb => nomatch hb.1.symm.trans hback).2
    have hds := hp.first hone
    subst hds
    have hws := hp.waiters
    rw [hpc] at hws
    have hcons : (s.call t).waiters = w :: s.waiters := hws
    have hdue : (s.call t).due = [w] := by rw [CondCall.due, hone, hcons]; rfl
    rw [hdue, hcons]
    refine ⟨fun x => ?_, hu.waiters⟩
    have hx : s.released x = (s.call t).released x := hp.released x
    by_cases hxw : x = w
    · rw [if_pos (mem_singleton.mpr hxw), ← hx, hxw, hu.released_self]
    · rw [if_neg fun hmem => hxw (mem_singleton.mp hmem), ← hx, hu.released x hxw]
      rfl

theorem wait_returns (h : CondInv l s) (hs : condStep l s (.run t) = some s')
    (hret : s.Returns s' t) (hfn : (s.call t).fn = .wait) :
    s'.released t = (s.call t).released t + 1 ∧ s'.locks.Holds t l := by
  have ht := h.thread t
  have hwait := ht.fn
  obtain ⟨hout, ⟨hpc, rfl⟩ | ⟨hpc, -⟩ | ⟨hpc, -⟩ | ⟨w, hpc, -⟩⟩ := h.returns_cases hs hret
  · have hstage := ht.stage
    rw [Stage, hpc] at hstage
    refine ⟨hstage, ?_⟩
    rcases ht.acquiring hpc with hheld | hacq
    · exact hheld
    · rw [hout] at hacq
      exact hacq.elim
  · rw [hpc, hfn] at hwait
    cases hwait
  · rw [hpc] at hwait
    exact absurd hfn hwait
  · rw [hpc] at hwait
    exact absurd hfn hwait

omit [DecidableEq ι] in
theorem released_of_not_pending (h : CondInv l s) (hw : (s.pc w).Waits) (hnot : ¬ s.Pending w) :
    s.pc w ≠ .asleep ∧ s.sema w = ⟨1, []⟩ ∧ s.released w = (s.call w).released w + 1 := by
  have hstage := (h.thread w).stage
  unfold Stage at hstage
  cases hpc : s.pc w with
  | release | down =>
    rw [hpc] at hstage
    exact ⟨nofun, hstage.2 hnot⟩
  | asleep =>
    rw [hpc] at hstage
    exact absurd hstage.1 hnot
  | _ => rw [hpc] at hw; exact hw.elim

/-! ## calls return -/

end CondInv

/-- A bound for the statements that a call of `cond_signal` or `cond_broadcast` still has. -/
def CondSys.rank (s : CondSys τ ι) (t : τ) : Nat :=
  match s.pc t with
  | .test => 3 * s.waiters.length + 1
  | .pop => if s.waiters = [] then 2 else 3 * s.waiters.length
  | .up _ => 3 * s.waiters.length + 2
  | _ => 0

namespace CondInv

theorem signals_run (h : CondInv l s) (hsig : (s.pc t).Signals) :
    ∃ s', condStep l s (.run t) = some s' ∧
      (s'.pc t = .outside ∨ (s'.pc t).Signals ∧ s'.rank t < s.rank t) := by
  have ht := h.thread t
  have hin : (s.pc t).Inside ∧ s.pc t ≠ .outside := by
    cases hpc : s.pc t with
    | test => exact ⟨trivial, nofun⟩
    | pop => exact ⟨trivial, nofun⟩
    | up w => exact ⟨trivial, nofun⟩
    | _ => rw [hpc] at hsig; exact hsig.elim
  have hheld := ht.holds hin.1
  have hstep : condStep l s (.run t) = Pintos.condRun l s t := by
    unfold condStep
    dsimp only
    rw [if_pos (h.live t hin.2), if_pos hheld.1]
  rw [hstep]
  unfold Pintos.condRun
  cases hpc : s.pc t with
  | test =>
    dsimp only
    by_cases hnil : s.waiters = []
    · rw [if_pos hnil]
      exact ⟨_, rfl, .inl (setPc_self ..)⟩
    · rw [if_neg hnil]
      refine ⟨_, rfl, .inr ?_⟩
      unfold rank
      rw [setPc_self, hpc]
      refine ⟨trivial, ?_⟩
      change (if s.waiters = [] then 2 else 3 * s.waiters.length) < 3 * s.waiters.length + 1
      rw [if_neg hnil]
      exact Nat.lt_succ_self _
  | pop =>
    dsimp only
    rw [if_pos hheld.2]
    cases hws : s.waiters with
    | nil =>
      refine ⟨_, rfl, ?_⟩
      unfold rank
      rw [setPc_self, hpc]
      rcases h.back_cases (w := t) (.inr hpc) with hb | hb
      · refine .inr ?_
        rw [hb.1, setPc]
        dsimp only
        rw [hws, if_pos rfl]
        exact ⟨trivial, Nat.lt_succ_self 1⟩
      · exact .inl hb.1
    | cons w ws =>
      refine ⟨_, rfl, .inr ?_⟩
      unfold rank
      rw [setPc_self, hpc, setPc]
      refine ⟨trivial, ?_⟩
      dsimp only
      rw [hws, if_neg (cons_ne_nil w ws), length_cons]
      omega
  | up w =>
    dsimp only
    refine ⟨_, rfl, ?_⟩
    have hu := h.upped hpc
    unfold rank
    rw [hu.signaller, hu.waiters, hpc]
    rcases h.back_cases (.inl hpc) with hb | hb
    · rw [hb.1]
      exact .inr ⟨trivial, Nat.lt_succ_self _⟩
    · exact .inl hb.1
  | _ => rw [hpc] at hsig; exact hsig.elim

theorem signals_return (h : CondInv l s) (hsig : (s.pc t).Signals) :
    ∃ n s', (condMachine l).runFrom s (.replicate n (.run t)) = some s' ∧ s'.pc t = .outside := by
  induction hrank : s.rank t using Nat.strongRecOn generalizing s with
  | _ r ih =>
    obtain ⟨s₁, hs₁, hout | ⟨hsig₁, hlt⟩⟩ := h.signals_run hsig
    · refine ⟨1, s₁, ?_, hout⟩
      exact congrArg (Option.bind · _) hs₁
    · obtain ⟨n, s', hrun, hout⟩ := ih (s₁.rank t) (hrank ▸ hlt) (h.step hs₁) hsig₁ rfl
      refine ⟨n + 1, s', ?_, hout⟩
      rw [replicate_succ, Machine.runFrom_cons]
      exact (congrArg (Option.bind · _) hs₁).trans hrun

end CondInv

/-- **Conditions lose no signal**, in every interleaving. -/
theorem cond_signals (h : (condMachine l).Reach s) : CondSound l s := by
  have hinv := condInv_of_reach h
  refine ⟨fun t s' => hinv.signal_returns, fun t hsig => ?_, fun t => hinv.signals_return,
    fun w => ⟨fun hw => ?_, fun ⟨hw, hreleased⟩ => ?_⟩, fun w hw hnot => ?_,
    fun t s' => hinv.wait_returns⟩
  · obtain ⟨ds, hp⟩ := (hinv.thread t).progress hsig
    exact hp.fifo
  · exact ⟨hinv.pending w hw, (hinv.pending_stage hw).2.1⟩
  · by_contra hnot
    have hmore := (hinv.released_of_not_pending hw hnot).2.2
    omega
  · have hpermit := hinv.released_of_not_pending hw hnot
    exact ⟨hpermit.1, hpermit.2.1⟩

/-- A thread is preempted between `lock_release` and `sema_down` in `cond_wait`, and another
thread calls `cond_signal`. -/
theorem cond_signals_preempted : ∃ s : CondSys Bool Unit, (condMachine ()).Reach s ∧
    s.pc true = .down ∧ s.released true = 1 ∧ CondSound () s := by
  obtain ⟨s, -, hreach, hpc, hreleased⟩ := Machine.exists_reach_of_runFrom
    (m := condMachine (τ := Bool) ()) rfl
    [.lock (.acquire true ()), .run true, .run true, .run true, .call true .wait, .run true,
      .run true, .run true, .run true, .run true, .run true, .lock (.acquire false ()),
      .run false, .run false, .run false, .call false .signal, .run false, .run false]
    (fun s => s.pc true = .down ∧ s.released true = 1) (by decide +kernel)
  exact ⟨s, hreach, hpc, hreleased, cond_signals hreach⟩

end Pintos
