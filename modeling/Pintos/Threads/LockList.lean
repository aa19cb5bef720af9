import Pintos.Kernel.ListOps
import Pintos.Threads.Lock

/-!
# Pintos.Threads.LockList

The per-thread `locks` lists.

`lock_acquire` links `lockElem` into the caller's list *before* `sema_down`.
From that statement on the list contains a lock whose holder is not the
thread, and when the lock is contended the one `lockElem` is moved out of the
holder's list while the holder's header elements still point to it.  So the
lists describe the held locks in every state of a run exactly when no
`lock_acquire` of the run gets past its ownership test
(`lock_lists_exact`, first part).

When every `lockElem` is linked at a moment at which the lock is free, the
lists are well formed throughout, and they contain exactly the held locks
whenever no call is in progress (`lock_lists_exact`, second part).
-/

namespace Pintos

open Dll Function List Option LockSys

variable {τ ι : Type*} {s s' : LockSys τ ι} {t t' : τ} {l l' : ι} {h' : Heap (LockNode τ ι)}
  {x : LockNode τ ι} {a : LockAct τ ι}

/-! ## the claim about the lists -/

/-- `t`'s `locks` list is well formed and contains exactly the locks that `P`
selects, each once. -/
def LocksOf (h : Heap (LockNode τ ι)) (t : τ) (P : ι → Prop) : Prop :=
  ∃ ls : List ι, IsList h (.head t) (.tail t) (ls.map .elem) ∧ ∀ l, l ∈ ls ↔ P l

/-- `x` is a node of the list of a live thread. -/
def LockSys.OnLiveList (s : LockSys τ ι) : LockNode τ ι → Prop
  | .head t | .tail t => s.live t = true
  | .elem l => ∃ t, s.live t = true ∧ (s.lock l).holder = some t

/-- Every live thread's list is well formed and contains exactly the locks it
holds, and every pointer in a `lockElem` leads to the list of a live thread. -/
structure LockLists (s : LockSys τ ι) : Prop where
  lists : ∀ t, s.live t = true → LocksOf s.links t fun l => (s.lock l).holder = some t
  pointers : ∀ l x, (s.links (.elem l)).prev = some x ∨ (s.links (.elem l)).next = some x →
    s.OnLiveList x

/-- Only calls, their statements and thread exits: no `lock_init`. -/
def NoInit : LockAct τ ι → Prop
  | .init _ => False
  | _ => True

/-! ## linking always breaks it -/

section Exact

variable [DecidableEq τ] [DecidableEq ι]

/-- After `list_push_back` the caller's list ends in the lock it wants. -/
theorem tail_prev_of_push {h : Heap (LockNode τ ι)} {e : LockNode τ ι}
    (hpush : listPushBack h x e = some h') : (h' x).prev = some e := by
  unfold listPushBack listInsert at hpush
  split at hpush
  · obtain ⟨p, -, rfl⟩ := map_eq_some_iff.mp hpush
    rw [insertBetween_prev, if_pos rfl]
  · contradiction

/-- The linking statement leaves the caller's list with a lock that the
caller does not hold. -/
theorem not_lockLists_of_link (hi : LockInv s l) (hpc : s.pc t = .link l)
    (hs : lockStep s (.run t) = some s') : ¬ LockLists s' := by
  intro hlists
  have hlive : s.live t = true := (lockStep_run hs).1
  have hholder : (s.lock l).holder ≠ some t := hi.holder_acquire (.inl hpc)
  simp only [lockStep, hlive, if_true, lockRun, hpc] at hs
  obtain ⟨links, hpush, rfl⟩ := map_eq_some_iff.mp hs
  obtain ⟨ls, hl, hmem⟩ := hlists.lists t hlive
  have hlast : (.elem l : LockNode τ ι) ∈ .head t :: ls.map .elem :=
    hl.chain.prev_mem (tail_prev_of_push hpush)
  have hin : l ∈ ls := by simpa using hlast
  exact hholder ((hmem l).mp hin)

/-- Thread `1` asks for the lock that thread `0` holds, thread `0` releases it,
and thread `1` gets it. -/
def contendedRun : List (LockAct Nat Unit) :=
  [.acquire 0 (), .run 0, .run 0, .run 0, .acquire 1 (), .run 1, .run 1,
   .release 0 (), .run 0, .run 0, .run 0, .run 1, .run 1]

/-- After a contended handover no call is in progress, thread `1` is the
holder and its list is empty, while the list of thread `0` still leads to the
lock: the one `lockElem` was moved to thread `1`'s list when thread `1` began
to wait, and taken out of it by the release. -/
theorem contended_handover_breaks_lists :
    ∃ s : LockSys Nat Unit, lockMachine.runFrom lockBoot contendedRun = some s ∧
      lockMachine.Reach s ∧ s.pc 0 = .outside ∧ s.pc 1 = .outside ∧
      (s.links (.head 0)).next = some (.elem ()) ∧ ¬ LockLists s := by
  obtain ⟨s, hrun, hs, hpc0, hpc1, hstale, hlive, hh, hempty⟩ := Machine.exists_reach_of_runFrom
    (m := lockMachine) rfl contendedRun
    (fun s => s.pc 0 = .outside ∧ s.pc 1 = .outside ∧ (s.links (.head 0)).next = some (.elem ()) ∧
      s.live 1 = true ∧ (s.lock ()).holder = some 1 ∧ (s.links (.head 1)).next = some (.tail 1))
    (by decide +kernel)
  refine ⟨s, hrun, hs, hpc0, hpc1, hstale, fun hlists => ?_⟩
  obtain ⟨ls, hl, hmem⟩ := hlists.lists 1 hlive
  cases ls with
  | nil =>
    have hin := (hmem ()).mpr hh
    contradiction
  | cons l ls =>
    have hfirst := hl.chain.1
    rw [hempty] at hfirst
    exact absurd (some.inj hfirst) nofun

/-- No lock is held and no `lockElem` was ever linked. -/
structure Untouched (s : LockSys τ ι) : Prop where
  links : s.links = (lockBoot : LockSys τ ι).links
  holder : ∀ l, (s.lock l).holder = none
  pc : ∀ t, s.pc t = .outside ∨ ∃ l, s.pc t = .link l

omit [DecidableEq τ] [DecidableEq ι] in
theorem Untouched.lockLists (h : Untouched s) : LockLists s where
  lists t _ := by
    refine ⟨[], ⟨?_, ?_, ?_, ?_⟩, ?_⟩
    · rw [h.links]; rfl
    · rw [h.links]; rfl
    · rw [h.links]; exact ⟨rfl, rfl⟩
    · simp
    · simp [h.holder]
  pointers l x hx := by
    rw [h.links] at hx
    simp [lockBoot] at hx

/-- As long as nothing is linked, nothing is held. -/
theorem Untouched.step (h : Untouched s) (hinit : NoInit a)
    (hlink : ∀ t l, a = .run t → s.pc t ≠ .link l) (hs : lockStep s a = some s') :
    Untouched s' := by
  cases a with
  | acquire t l =>
    obtain ⟨-, -, rfl⟩ := lockStep_acquire hs
    rw [lockAcquire, if_neg (by simp [h.holder])]
    refine ⟨h.links, h.holder, fun t' => ?_⟩
    by_cases ht : t' = t
    · subst ht; exact .inr ⟨l, by simp [setPc]⟩
    · simpa [setPc, ht] using h.pc t'
  | release t l =>
    obtain ⟨-, -, hh, -⟩ := lockStep_release hs
    rw [h.holder] at hh
    contradiction
  | run t =>
    rcases h.pc t with hpc | ⟨l, hpc⟩
    · simp only [lockStep, lockRun, hpc, ite_self] at hs
      contradiction
    · exact absurd hpc (hlink t l rfl)
  | init l => exact absurd hinit id
  | exit t =>
    obtain ⟨-, -, rfl⟩ := lockStep_exit hs
    exact { h with }

/-- Without a linking step, the lists are right in every state of a run. -/
theorem untouched_of_reachIn
    (h : lockMachine.ReachIn (fun s a => NoInit a ∧ ∀ t l, a = .run t → s.pc t ≠ .link l) s) :
    Untouched s :=
  h.invariant (fun _ h0 => h0 ▸ ⟨rfl, fun _ => rfl, fun _ => .inl rfl⟩)
    fun _ _ _ hu hC hs => hu.step hC.1 hC.2 hs

end Exact

/-! ## edits of one list -/

section Edits

variable {h : Heap (LockNode τ ι)} {P : τ → ι → Prop}

theorem LocksOf.congr {Q Q' : ι → Prop} (hl : LocksOf h t Q) (hQ : ∀ l, Q' l ↔ Q l) :
    LocksOf h t Q' := by
  obtain ⟨ls, hlist, hmem⟩ := hl
  exact ⟨ls, hlist, fun l => (hmem l).trans (hQ l).symm⟩

/-- Lists of different locks share no node. -/
theorem locks_lists {ls : τ → List ι} (hlist : ∀ t, IsList h (.head t) (.tail t) ((ls t).map .elem))
    (hmem : ∀ t l, l ∈ ls t ↔ P t l) (huniq : ∀ {t t' l}, P t l → P t' l → t = t') :
    Lists h .head .tail fun t => (ls t).map .elem := by
  refine ⟨hlist, fun t t' hne y hy hy' => ?_⟩
  simp only [cons_append, mem_cons, mem_append, List.mem_map, not_mem_nil, or_false, hmem] at hy hy'
  grind

variable [DecidableEq τ] [DecidableEq ι]

theorem LocksOf.push (hl : ∀ t, LocksOf h t (P t))
    (huniq : ∀ {t t' l}, P t l → P t' l → t = t') (hfree : ∀ t, ¬ P t l)
    (hpush : listPushBack h (.tail t) (.elem l) = some h') (t' : τ) :
    LocksOf h' t' fun l' => P t' l' ∨ t' = t ∧ l' = l := by
  choose ls hlist hmem using hl
  have hloose : Loose .head .tail (fun t => (ls t).map LockNode.elem) (.elem l) := fun t => by
    simp [hmem, hfree]
  obtain ⟨h'', hpush', H⟩ :=
    (locks_lists hlist hmem huniq).insert (i := t) (append_nil _).symm hloose rfl
  obtain rfl : h'' = h' := some.inj (hpush'.symm.trans hpush)
  have hlist' := H.isList t'
  by_cases ht : t' = t
  · subst ht
    rw [update_self] at hlist'
    exact ⟨ls t' ++ [l], by simpa using hlist', fun l' => by simp [hmem]⟩
  · rw [update_of_ne ht] at hlist'
    exact ⟨ls t', hlist', fun l' => by simp [hmem, ht]⟩

theorem LocksOf.remove {r : Heap (LockNode τ ι) × LockNode τ ι} (hl : ∀ t, LocksOf h t (P t))
    (huniq : ∀ {t t' l}, P t l → P t' l → t = t') (hP : P t l)
    (hrem : listRemove h (.elem l) = some r) (t' : τ) :
    LocksOf r.1 t' fun l' => P t' l' ∧ l' ≠ l := by
  choose ls hlist hmem using hl
  obtain ⟨xs, ys, hls⟩ := append_of_mem ((hmem t l).mpr hP)
  have hnd : (ls t).Nodup :=
    List.Nodup.of_map _ (nodup_append.mp (nodup_cons.mp (hlist t).nodup).2).1
  have hsplit : (ls t).map LockNode.elem = xs.map .elem ++ (.elem l : LockNode τ ι) :: ys.map .elem := by
    rw [hls, map_append, map_cons]
  obtain ⟨h', n, hrem', -, H, -⟩ := (locks_lists hlist hmem huniq).remove (i := t) hsplit
  obtain rfl : (h', n) = r := some.inj (hrem'.symm.trans hrem)
  have hlist' := H.isList t'
  by_cases ht : t' = t
  · subst ht
    rw [update_self, ← map_append] at hlist'
    refine ⟨xs ++ ys, hlist', fun l' => ?_⟩
    change _ ↔ P t' l' ∧ l' ≠ l
    rw [← hmem]
    grind
  · rw [update_of_ne ht] at hlist'
    refine ⟨ls t', hlist', fun l' => ?_⟩
    rw [hmem]
    exact ⟨fun hp => ⟨hp, fun heq => ht (huniq (heq ▸ hp) hP)⟩, And.left⟩

end Edits

/-! ## locks linked only while free -/

/-- `lockElem` is linked only while the lock is free and no other thread is
about to take it, a thread that exits holds nothing, and locks are initialised
once. -/
def Uncontended (s : LockSys τ ι) : LockAct τ ι → Prop
  | .run t => ∀ l, s.pc t = .link l →
      (s.lock l).semaphore.value = 1 ∧ ∀ t', s.pc t' ≠ .down l
  | .exit t => ∀ l, (s.lock l).holder ≠ some t
  | .init _ => False
  | _ => True

instance [Fintype τ] [Fintype ι] [DecidableEq τ] [DecidableEq ι] (s : LockSys τ ι)
    (a : LockAct τ ι) : Decidable (Uncontended s a) := by
  rcases a with ⟨⟩ <;> unfold Uncontended <;> infer_instance

/-- `t` has linked `l` and not yet unlinked it. -/
def LockSys.Linked (s : LockSys τ ι) (t : τ) (l : ι) : Prop :=
  ((s.lock l).holder = some t ∧ s.pc t ≠ .clear l) ∨ s.pc t = .down l ∨ s.pc t = .own l

/-- Every list contains exactly the locks its thread has linked, and the
thread between linking and taking a lock is alone with it. -/
structure LinkInv (s : LockSys τ ι) : Prop where
  lists : ∀ t, LocksOf s.links t (s.Linked t)
  inv : ∀ l, LockInv s l
  waiters : WaitersInv s
  down_free : ∀ {t t' l}, s.pc t = .down l → ¬ s.Owns t' l
  down_unique : ∀ {t t' l}, s.pc t = .down l → s.pc t' = .down l → t = t'
  not_waiting : ∀ t l, s.pc t ≠ .waiting l
  holder_live : ∀ {t l}, (s.lock l).holder = some t → s.live t = true

theorem LockSys.Linked.owns_or_down (h : s.Linked t l) : s.Owns t l ∨ s.pc t = .down l := by
  rcases h with ⟨hh, -⟩ | hd | ho
  · exact .inl (.inr (.inl hh))
  · exact .inr hd
  · exact .inl (.inl ho)

/-- A lock is linked into one list at most. -/
theorem LinkInv.linked_unique (h : LinkInv s) (ht : s.Linked t l) (ht' : s.Linked t' l) :
    t = t' := by
  -- either both own the lock, or one of them is about to take it, alone
  rcases ht.owns_or_down with ho | hd
  · rcases ht'.owns_or_down with ho' | hd'
    · exact (h.inv l).owner_unique ho ho'
    · exact absurd ho (h.down_free hd')
  · rcases ht'.owns_or_down with ho' | hd'
    · exact absurd ho' (h.down_free hd)
    · exact h.down_unique hd hd'

section Uncontended

variable [DecidableEq τ] [DecidableEq ι]

omit [DecidableEq τ] [DecidableEq ι] in
theorem linkInv_boot : LinkInv (lockBoot : LockSys τ ι) where
  lists t := by
    have hu : Untouched (lockBoot : LockSys τ ι) := ⟨rfl, fun _ => rfl, fun _ => .inl rfl⟩
    refine (hu.lockLists.lists t rfl).congr fun l => ?_
    simp [Linked, lockBoot, lockInit]
  inv _ := lockInv_boot
  waiters := waitersInv_boot
  down_free h := by simp [lockBoot] at h
  down_unique h := by simp [lockBoot] at h
  not_waiting := by simp [lockBoot]
  holder_live h := by simp [lockBoot, lockInit] at h

omit [DecidableEq τ] [DecidableEq ι] in
/-- For a statement that leaves the links alone, it is enough that the same
locks count as linked. -/
theorem LinkInv.lists_of_iff (h : LinkInv s) (hlinks : s'.links = s.links)
    (hlinked : ∀ t l, s'.Linked t l ↔ s.Linked t l) (t : τ) : LocksOf s'.links t (s'.Linked t) := by
  rw [hlinks]
  exact (h.lists t).congr (hlinked t)

theorem LinkInv.lockMove (h : LinkInv s) (ht : s.live t = true) (hC : Uncontended s (.run t))
    (hm : LockMove s t s') : LinkInv s' := by
  have hinv : ∀ l, LockInv s' l := fun l => (h.inv l).lockMove h.waiters hm
  have hwaiters : WaitersInv s' := h.waiters.lockMove hm
  obtain ⟨hlists, hi, hw, hfree, huniq, hwait, hlive⟩ := id h
  cases hm with
  | @link l links hpc hpush =>
    obtain ⟨hone, hno⟩ := hC l hpc
    have hown : ∀ t', ¬ s.Owns t' l := fun t' ho => by
      have := (hi l).value_owned ho
      omega
    have hunlinked : ∀ t', ¬ s.Linked t' l := fun t' ht' =>
      ht'.owns_or_down.elim (hown t') (hno t')
    have hpush' := LocksOf.push hlists h.linked_unique hunlinked hpush
    refine ⟨fun t' => ?_, hinv, hwaiters, ?_, ?_, ?_, hlive⟩
    · refine (hpush' t').congr fun l' => ?_
      simp only [Linked, setPc, update_apply]
      grind
    all_goals simp only [Owns, setPc, update_apply] at *; grind
  | @wait l hpc hv =>
    -- nobody owns the lock, so the permit is there
    have hone := (hi l).value_free fun t' => @hfree t t' l hpc
    omega
  | @take l hpc hv =>
    refine ⟨h.lists_of_iff rfl fun t' l' => ?_, hinv, hwaiters, ?_, ?_, ?_, ?_⟩
    all_goals
      simp only [Linked, Owns, setPc, setLock,
        update_apply] at *
      grind
  | @hold l hpc =>
    have hnone := (hi l).holder_own (.inl hpc)
    refine ⟨h.lists_of_iff rfl fun t' l' => ?_, hinv, hwaiters, ?_, ?_, ?_, ?_⟩
    all_goals
      simp only [Linked, Owns, setPc, setLock, setDepth,
        update_apply] at *
      grind
  | @unlink l r hpc hrem =>
    have hh := (hi l).holder_release (.inl hpc)
    have hlinked : s.Linked t l := .inl ⟨hh, by simp [hpc]⟩
    have hrem' := LocksOf.remove hlists h.linked_unique hlinked hrem
    refine ⟨fun t' => ?_, hinv, hwaiters, ?_, ?_, ?_, hlive⟩
    · refine (hrem' t').congr fun l' => ?_
      have honly : s.Linked t' l → t' = t := fun ht' => h.linked_unique ht' hlinked
      simp only [Linked, setPc, update_apply] at honly ⊢
      grind
    all_goals simp only [Owns, setPc, update_apply] at *; grind
  | @clear l hpc =>
    have hh := (hi l).holder_release (.inr hpc)
    refine ⟨h.lists_of_iff rfl fun t' l' => ?_, hinv, hwaiters, ?_, ?_, ?_, ?_⟩
    all_goals
      simp only [Linked, Owns, setPc, setLock,
        update_apply] at *
      grind
  | @up l hpc =>
    have hnone := (hi l).holder_own (.inr hpc)
    have hempty : (s.lock l).semaphore.waiters = [] :=
      eq_nil_iff_forall_not_mem.mpr fun t' ht' => hwait t' l ((hi l).waiting_iff.mp ht')
    simp only [semaUp, hempty, wake] at hinv hwaiters ⊢
    refine ⟨h.lists_of_iff rfl fun t' l' => ?_, hinv, hwaiters, ?_, ?_, ?_, ?_⟩
    all_goals
      simp only [Linked, Owns, setPc, setLock,
        update_apply] at *
      grind

/-- **Step lemma**: uncontended steps keep the lists. -/
theorem LinkInv.step (h : LinkInv s) (hC : Uncontended s a)
    (hs : lockStep s a = some s') : LinkInv s' := by
  have hunused : ∀ l, InitUnused l s a := by
    rintro l rfl
    exact absurd hC id
  have hinv : ∀ l, LockInv s' l := fun l => (h.inv l).step h.waiters (hunused l) hs
  have hwaiters : WaitersInv s' := h.waiters.step hs
  obtain ⟨hlists, hi, hw, hfree, huniq, hwait, hlive⟩ := id h
  cases a with
  | acquire t l =>
    obtain ⟨-, hpc, rfl⟩ := lockStep_acquire hs
    unfold lockAcquire at hinv hwaiters ⊢
    split
    · next hh =>
      simp only [if_pos hh] at hinv hwaiters
      exact ⟨hlists, hinv, hwaiters, hfree, huniq, hwait, hlive⟩
    · next hh =>
      simp only [if_neg hh] at hinv hwaiters
      refine ⟨h.lists_of_iff rfl fun t' l' => ?_, hinv, hwaiters, ?_, ?_, ?_, hlive⟩
      all_goals
        simp only [Linked, Owns, setPc, update_apply] at *
        grind
  | release t l =>
    obtain ⟨-, hpc, hh, rfl⟩ := lockStep_release hs
    refine ⟨h.lists_of_iff rfl fun t' l' => ?_, hinv, hwaiters, ?_, ?_, ?_, hlive⟩
    all_goals
      simp only [Linked, Owns, setPc, setDepth,
        update_apply] at *
      grind
  | run t =>
    obtain ⟨hlt, hm⟩ := lockStep_run hs
    exact h.lockMove hlt hC hm
  | init l => exact absurd hC id
  | exit t =>
    obtain ⟨-, -, rfl⟩ := lockStep_exit hs
    refine ⟨hlists, hinv, hwaiters, hfree, huniq, hwait, fun {t' l} hh => ?_⟩
    have hne : t' ≠ t := by
      rintro rfl
      exact hC l hh
    simpa [hne] using hlive hh

/-- **Run lemma**: in every uncontended run the lists contain exactly the
linked locks. -/
theorem linkInv_of_reachIn (h : lockMachine.ReachIn Uncontended s) : LinkInv s :=
  h.invariant (fun _ h0 => h0 ▸ linkInv_boot) fun _ _ _ hi hC hs => hi.step hC hs

omit [DecidableEq τ] [DecidableEq ι] in
theorem LinkInv.locksOf_holder (h : LinkInv s) (hout : ∀ t, s.pc t = .outside) (t : τ) :
    LocksOf s.links t fun l => (s.lock l).holder = some t :=
  (h.lists t).congr fun l => by simp [Linked, hout]

omit [DecidableEq τ] [DecidableEq ι] in
theorem LinkInv.onLiveList (h : LinkInv s) (hout : ∀ t, s.pc t = .outside)
    (hh : (s.lock l).holder = some t)
    (hx : (s.links (.elem l)).prev = some x ∨ (s.links (.elem l)).next = some x) :
    s.OnLiveList x := by
  obtain ⟨ls, hlist, hmem⟩ := h.locksOf_holder hout t
  have hlive : s.live t = true := h.holder_live hh
  obtain ⟨xs, ys, rfl⟩ := append_of_mem ((hmem l).mpr hh)
  have hchain := hlist.chain
  rw [map_append, map_cons, chain_append_cons] at hchain
  have hnode : x = .head t ∨ x = .tail t ∨ ∃ l' ∈ xs ++ l :: ys, x = .elem l' := by
    rcases hx with hx | hx
    · have := hchain.1.prev_mem hx
      grind
    · have := hchain.2.path.next_mem hx
      grind
  rcases hnode with rfl | rfl | ⟨l', hl', rfl⟩
  · exact hlive
  · exact hlive
  · exact ⟨t, hlive, (hmem l').mp hl'⟩

end Uncontended

/-! ## the exact conditions -/

variable [DecidableEq τ] [DecidableEq ι]

/-- **Lock lists.**  In a run of calls, statements and exits, the lists and
pointers are right in every state exactly when no `lock_acquire` gets past its
ownership test to the linking statement.  In every run that links a `lockElem`
only while its lock is free, in every state with no call in progress each
thread's list contains exactly the locks it holds and every held lock's
pointers lead to a live thread's list. -/
theorem lock_lists_exact :
    (∀ as : List (LockAct τ ι), (∀ a ∈ as, NoInit a) →
      (lockMachine.runFrom lockBoot as).isSome →
      ((∀ s, lockMachine.Visits lockBoot as s → LockLists s) ↔
        ∀ s t l, lockMachine.Takes lockBoot as s (.run t) → s.pc t ≠ .link l)) ∧
    (∀ s : LockSys τ ι, lockMachine.ReachIn Uncontended s → (∀ t, s.pc t = .outside) →
      (∀ t, LocksOf s.links t fun l => (s.lock l).holder = some t) ∧
      ∀ t l x, (s.lock l).holder = some t →
        (s.links (.elem l)).prev = some x ∨ (s.links (.elem l)).next = some x →
        s.OnLiveList x) := by
  constructor
  · intro as hinit hrun
    have hact : ∀ {s a}, lockMachine.Takes lockBoot as s a → NoInit a := by
      rintro s a ⟨as₁, as₂, rfl, -⟩
      exact hinit a (by simp)
    constructor
    · intro hall s t l htake hpc
      obtain ⟨s', hs, hvisit⟩ := htake.next hrun
      have hinv : LockInv s l := by
        refine lockInv_of_reachIn (htake.visits.reachIn rfl ?_)
        rintro s a htake' rfl
        exact absurd (hact htake') id
      exact not_lockLists_of_link hinv hpc hs (hall s' hvisit)
    · intro hno s hvisit
      have hreach := hvisit.reachIn (C := fun s a => NoInit a ∧ ∀ t l, a = .run t → s.pc t ≠ .link l)
        rfl fun s a htake => ⟨hact htake, fun t l ha => hno s t l (ha ▸ htake)⟩
      exact (untouched_of_reachIn hreach).lockLists
  · intro s hs hout
    have hinv := linkInv_of_reachIn hs
    exact ⟨hinv.locksOf_holder hout, fun t l x hh hx => hinv.onLiveList hout hh hx⟩

/-- One linking statement already breaks the lists; a handover without
contention leaves them right. -/
theorem lock_lists_exact_handover :
    (¬ ∀ s : LockSys (Fin 2) Unit,
      lockMachine.Visits lockBoot [.acquire 0 (), .run 0] s → LockLists s) ∧
    ∃ s : LockSys (Fin 2) Unit, (s.lock ()).holder = some 1 ∧
      ∀ t, LocksOf s.links t fun l => (s.lock l).holder = some t := by
  constructor
  · intro hall
    have hno := (lock_lists_exact.1 _ (by simp [NoInit]) (by decide)).mp hall
    exact hno _ 0 () ⟨[.acquire 0 ()], [], rfl, rfl⟩ rfl
  · obtain ⟨s, -, hs, hh, hout⟩ := Machine.exists_reachIn_of_runIn (m := lockMachine)
      (C := Uncontended) rfl [.acquire 0 (), .run 0, .run 0, .run 0, .release 0 (), .run 0, .run 0,
        .run 0, .acquire 1 (), .run 1, .run 1, .run 1]
      (fun s => (s.lock ()).holder = some 1 ∧ ∀ t : Fin 2, s.pc t = .outside) (by decide +kernel)
    exact ⟨s, hh, (lock_lists_exact.2 s hs hout).1⟩

end Pintos
