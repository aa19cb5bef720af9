import Pintos.Lib.Machine

/-!
# Pintos.Threads.Semaphore

Counting semaphores (`threads/synch.c`, `struct semaphore`).

`sema_down` runs with interrupts off, so one pass of its loop — the test of
`value` and either the decrement or `list_push_back` plus `thread_block` — is
one atomic step; a thread that blocked re-tests when it is scheduled again.
`sema_up` wakes the front waiter *and* increments `value`, so between the
wake-up and the re-test a newcomer may take the permit.

`semaMachine` interleaves any number of threads over one semaphore.  Its
`woken` list holds the threads that `sema_up` has unblocked and that have not
re-tested; `ups` and `downs` count the calls of `sema_up` and the completed
downs of the run so far.
-/

namespace Pintos

open List Option

variable {τ : Type*}

/-- `UINT_MAX + 1`: the value of a semaphore is an `unsigned`. -/
def uintSize : Nat := 2 ^ 32

/-- `struct semaphore`: the current value and the list of waiting threads. -/
structure Semaphore (τ : Type*) where
  value : Nat
  waiters : List τ
deriving DecidableEq, Repr

/-- `sema_init`. -/
def semaInit (value : Nat) : Semaphore τ := ⟨value, []⟩

/-- One pass of the loop of `sema_down` by `t`: `true` when the permit was
taken, `false` when `t` was pushed on `waiters` and has to block. -/
def semaDownPass (sema : Semaphore τ) (t : τ) : Semaphore τ × Bool :=
  if sema.value = 0 then
    ({ sema with waiters := sema.waiters ++ [t] }, false)
  else
    ({ sema with value := sema.value - 1 }, true)

/-- `sema_try_down`. -/
def semaTryDown (sema : Semaphore τ) : Semaphore τ × Bool :=
  if sema.value > 0 then ({ sema with value := sema.value - 1 }, true) else (sema, false)

/-- `sema_up`: the thread to unblock, if any thread waits. -/
def semaUp (sema : Semaphore τ) : Semaphore τ × Option τ :=
  match sema.waiters with
  | [] => ({ sema with value := (sema.value + 1) % uintSize }, none)
  | t :: ts => (⟨(sema.value + 1) % uintSize, ts⟩, some t)

theorem semaDownPass_wait {sema : Semaphore τ} (h : sema.value = 0) (t : τ) :
    semaDownPass sema t = (⟨sema.value, sema.waiters ++ [t]⟩, false) := by
  simp [semaDownPass, h]

theorem semaDownPass_take {sema : Semaphore τ} (h : sema.value ≠ 0) (t : τ) :
    semaDownPass sema t = (⟨sema.value - 1, sema.waiters⟩, true) := by
  simp [semaDownPass, h]

theorem semaUp_eq (sema : Semaphore τ) :
    semaUp sema = (⟨(sema.value + 1) % uintSize, sema.waiters.tail⟩, sema.waiters.head?) := by
  cases sema with
  | mk value waiters => cases waiters <;> rfl

theorem semaTryDown_waiters (sema : Semaphore τ) : (semaTryDown sema).1.waiters = sema.waiters := by
  unfold semaTryDown; split <;> rfl

/-! ## one semaphore, any number of threads -/

/-- A semaphore with the threads inside `sema_down` and the history of the
run. -/
structure SemaSys (τ : Type*) where
  sema : Semaphore τ
  /-- unblocked by `sema_up` and not yet back at the test of the loop -/
  woken : List τ
  ups : Nat
  downs : Nat

/-- The steps: a call of `sema_down`, the re-test of a woken thread, and the
calls of `sema_try_down` and `sema_up` (by a thread or an interrupt handler). -/
inductive SemaAct (τ : Type*)
  | down (t : τ)
  | retest (t : τ)
  | tryDown
  | up

/-- One pass of `sema_down` by `t`, counted when it completes. -/
def SemaSys.pass (s : SemaSys τ) (t : τ) : SemaSys τ :=
  { s with
    sema := (semaDownPass s.sema t).1
    downs := s.downs + (semaDownPass s.sema t).2.toNat }

/-- The step function.  A thread inside `sema_down` makes no second call, and
only a woken thread re-tests. -/
def semaStep [DecidableEq τ] (s : SemaSys τ) : SemaAct τ → Option (SemaSys τ)
  | .down t => if t ∈ s.sema.waiters ++ s.woken then none else some (s.pass t)
  | .retest t =>
    if t ∈ s.woken then some (({ s with woken := s.woken.erase t }).pass t) else none
  | .tryDown =>
    some { s with
      sema := (semaTryDown s.sema).1
      downs := s.downs + (semaTryDown s.sema).2.toNat }
  | .up =>
    some { s with
      sema := (semaUp s.sema).1
      woken := s.woken ++ (semaUp s.sema).2.toList
      ups := s.ups + 1 }

/-- All interleavings on a semaphore initialised to `v`. -/
def semaMachine [DecidableEq τ] (v : UInt32) : Machine (SemaSys τ) (SemaAct τ) where
  init s := s = ⟨semaInit v.toNat, [], 0, 0⟩
  step := semaStep

/-! ## the invariant -/

/-- `value` is the number of permits up to wrap-around, no thread is counted
twice, and a non-empty waiters list leaves no permit beyond those the woken
threads are coming for. -/
structure SemaInv (v : UInt32) (s : SemaSys τ) : Prop where
  lt : s.sema.value < uintSize
  mod : (s.sema.value + s.downs) % uintSize = (v.toNat + s.ups) % uintSize
  le : s.sema.value + s.downs ≤ v.toNat + s.ups
  nodup : (s.sema.waiters ++ s.woken).Nodup
  covered : s.sema.waiters ≠ [] → s.sema.value ≤ s.woken.length

variable {v : UInt32} {s : SemaSys τ}

theorem semaInv_init : SemaInv v (⟨semaInit v.toNat, [], 0, 0⟩ : SemaSys τ) where
  lt := v.toNat_lt
  mod := rfl
  le := Nat.le_refl _
  nodup := nodup_nil
  covered h := absurd rfl h

theorem SemaInv.pass {t : τ} (h : SemaInv v s) (ht : t ∉ s.sema.waiters ++ s.woken) :
    SemaInv v (s.pass t) := by
  by_cases h0 : s.sema.value = 0
  · have hpass : s.pass t =
        { s with sema := { s.sema with waiters := s.sema.waiters ++ [t] } } := by
      simp [SemaSys.pass, semaDownPass, h0]
    rw [hpass]
    refine ⟨h.lt, h.mod, h.le, ?_, fun _ => by simp [h0]⟩
    have hperm : (s.sema.waiters ++ [t] ++ s.woken).Perm (t :: (s.sema.waiters ++ s.woken)) := by
      rw [append_assoc]
      exact perm_middle
    exact hperm.nodup_iff.mpr (nodup_cons.mpr ⟨ht, h.nodup⟩)
  · have hpass : s.pass t =
        { s with sema := { s.sema with value := s.sema.value - 1 }, downs := s.downs + 1 } := by
      simp [SemaSys.pass, semaDownPass, h0]
    have hsum : s.sema.value - 1 + (s.downs + 1) = s.sema.value + s.downs := by omega
    rw [hpass]
    refine ⟨Nat.lt_of_le_of_lt (Nat.sub_le _ _) h.lt, ?_, ?_, h.nodup, fun hw => ?_⟩
    · rw [hsum]; exact h.mod
    · rw [hsum]; exact h.le
    · exact Nat.le_trans (Nat.sub_le _ _) (h.covered hw)

/-- The re-test of a woken thread: it leaves `woken`, and either takes a
permit or waits again. -/
theorem SemaInv.retest [DecidableEq τ] {t : τ} (h : SemaInv v s) (ht : t ∈ s.woken) :
    SemaInv v (({ s with woken := s.woken.erase t }).pass t) := by
  have hwoken : s.woken.Nodup := h.nodup.of_append_right
  have hlen : (s.woken.erase t).length + 1 = s.woken.length := by
    rw [length_erase_of_mem ht]
    have := length_pos_of_mem ht
    omega
  have hfresh : t ∉ s.sema.waiters ++ s.woken.erase t := by
    rw [mem_append, not_or]
    exact ⟨fun hw => (disjoint_of_nodup_append h.nodup) hw ht, hwoken.not_mem_erase⟩
  have hnodup : (s.sema.waiters ++ s.woken.erase t).Nodup :=
    h.nodup.sublist (List.Sublist.append_left erase_sublist _)
  by_cases h0 : s.sema.value = 0
  · exact SemaInv.pass ⟨h.lt, h.mod, h.le, hnodup, fun _ => by simp [h0]⟩ hfresh
  · have hpass : ({ s with woken := s.woken.erase t } : SemaSys τ).pass t =
        { s with
          sema := { s.sema with value := s.sema.value - 1 }
          woken := s.woken.erase t
          downs := s.downs + 1 } := by
      simp [SemaSys.pass, semaDownPass, h0]
    have hsum : s.sema.value - 1 + (s.downs + 1) = s.sema.value + s.downs := by omega
    rw [hpass]
    refine ⟨Nat.lt_of_le_of_lt (Nat.sub_le _ _) h.lt, ?_, ?_, hnodup, fun hw => ?_⟩
    · rw [hsum]; exact h.mod
    · rw [hsum]; exact h.le
    · -- the permit it takes is the one it was counted for
      have := h.covered hw
      simp only
      omega

theorem SemaInv.tryDown (h : SemaInv v s) :
    SemaInv v { s with
      sema := (semaTryDown s.sema).1
      downs := s.downs + (semaTryDown s.sema).2.toNat } := by
  by_cases hpos : s.sema.value > 0
  · have hsum : s.sema.value - 1 + (s.downs + 1) = s.sema.value + s.downs := by omega
    simp only [semaTryDown, if_pos hpos, Bool.toNat_true]
    refine ⟨Nat.lt_of_le_of_lt (Nat.sub_le _ _) h.lt, ?_, ?_, h.nodup, fun hw => ?_⟩
    · rw [hsum]; exact h.mod
    · rw [hsum]; exact h.le
    · exact Nat.le_trans (Nat.sub_le _ _) (h.covered hw)
  · simpa only [semaTryDown, if_neg hpos, Bool.toNat_false, Nat.add_zero] using h

/-- `sema_up`: the new permit is matched by the waiter it wakes, and when no
thread waits there is nothing to cover. -/
theorem SemaInv.up (h : SemaInv v s) :
    SemaInv v { s with
      sema := (semaUp s.sema).1
      woken := s.woken ++ (semaUp s.sema).2.toList
      ups := s.ups + 1 } := by
  have hlt : (s.sema.value + 1) % uintSize < uintSize := Nat.mod_lt _ (by decide)
  have hle : (s.sema.value + 1) % uintSize ≤ s.sema.value + 1 := Nat.mod_le _ _
  have hmod : ((s.sema.value + 1) % uintSize + s.downs) % uintSize =
      (v.toNat + (s.ups + 1)) % uintSize := by
    rw [Nat.mod_add_mod, show s.sema.value + 1 + s.downs = s.sema.value + s.downs + 1 by omega,
      ← Nat.mod_add_mod, h.mod, Nat.mod_add_mod, Nat.add_assoc]
  have hsum := h.le
  cases hw : s.sema.waiters with
  | nil =>
    simp only [semaUp, hw, toList_none, append_nil]
    refine ⟨hlt, hmod, by simp only; omega, ?_, fun hne => absurd rfl hne⟩
    rw [← hw]
    exact h.nodup
  | cons t ts =>
    have hcov : s.sema.value ≤ s.woken.length := h.covered (by simp [hw])
    simp only [semaUp, hw, toList_some]
    refine ⟨hlt, hmod, by simp only; omega, ?_, fun _ => ?_⟩
    · have hperm : (ts ++ (s.woken ++ [t])).Perm (s.sema.waiters ++ s.woken) := by
        rw [hw, cons_append, ← append_assoc]
        exact perm_append_singleton t (ts ++ s.woken)
      exact hperm.nodup_iff.mpr h.nodup
    · simp only [length_append, length_singleton]
      omega

theorem SemaInv.step [DecidableEq τ] {a : SemaAct τ} {s' : SemaSys τ} (h : SemaInv v s)
    (hs : semaStep s a = some s') : SemaInv v s' := by
  cases a with
  | down t =>
    simp only [semaStep] at hs
    split at hs
    · contradiction
    · next ht => exact some.inj hs ▸ h.pass ht
  | retest t =>
    obtain ⟨ht, rfl⟩ := of_guard hs
    exact h.retest ht
  | tryDown => exact some.inj hs ▸ h.tryDown
  | up => exact some.inj hs ▸ h.up

theorem semaInv_of_reach [DecidableEq τ] (h : (semaMachine v).Reach s) : SemaInv v s :=
  h.invariant (fun _ h0 => h0 ▸ semaInv_init) fun _ _ _ hi _ hs => hi.step hs

/-- **Conservation and no lost wake-up**: in every reachable state `value` is
the initial value plus the ups minus the completed downs, as long as that
count is below `2 ^ 32`; while a thread waits, every permit is matched by a
thread that was unblocked and has not re-tested; so a permit is never
available to a waiting thread with no woken thread coming for it. -/
theorem semaphore_conservation [DecidableEq τ] (v : UInt32) (s : SemaSys τ)
    (h : (semaMachine v).Reach s) :
    (v.toNat + s.ups < uintSize + s.downs → s.sema.value + s.downs = v.toNat + s.ups) ∧
    (s.sema.waiters ++ s.woken).Nodup ∧
    (s.sema.waiters ≠ [] → s.sema.value ≤ s.woken.length) ∧
    (s.sema.waiters ≠ [] → 0 < s.sema.value → ∃ t, t ∈ s.woken) := by
  have hi := semaInv_of_reach h
  refine ⟨fun hcount => ?_, hi.nodup, hi.covered, fun hw hpos => ?_⟩
  · -- both counts are below `2 ^ 32` and congruent
    have hle := hi.le
    have hlt := hi.lt
    have hmod := hi.mod
    simp only [uintSize] at hcount hlt hmod
    omega
  · exact exists_mem_of_length_pos (Nat.lt_of_lt_of_le hpos (hi.covered hw))

/-- A newcomer takes the permit of a woken thread, which waits again. -/
theorem semaphore_conservation_stolen_permit :
    ∃ s : SemaSys Nat, (semaMachine 0).Reach s ∧ s.sema.waiters = [1] ∧ s.ups = 1 ∧ s.downs = 1 ∧
      s.sema.value + s.downs = 0 + s.ups := by
  obtain ⟨s, -, hs, hw, hu, hd⟩ := Machine.exists_reach_of_runFrom (m := semaMachine 0) rfl
    [.down 1, .up, .down 2, .retest 1] (fun s => s.sema.waiters = [1] ∧ s.ups = 1 ∧ s.downs = 1)
    (by decide +kernel)
  refine ⟨s, hs, hw, hu, hd, (semaphore_conservation 0 s hs).1 ?_⟩
  rw [hu, hd]
  decide

end Pintos
