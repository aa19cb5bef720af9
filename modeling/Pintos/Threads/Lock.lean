import Pintos.Kernel.List
import Pintos.Threads.Semaphore

/-!
# Pintos.Threads.Lock

Locks (`threads/synch.c`, `struct lock`) under any interleaving of any number
of threads.  Interrupts stay on in `lock_acquire` and `lock_release`, so each
of their statements is a step of its own:

```
lock_acquire:  holder test; list_push_back; sema_down (pass by pass); holder = cur
lock_release:  ASSERT holder; list_remove; holder = NULL; sema_up
```

`lock_acquire` returns at once when the caller is the recorded holder; there
is no depth count.  `lockElem` is linked into the caller's `locks` list before
`sema_down`, so it lives in a heap of links shared by all threads and locks.

`LockInv` is what holds of a lock in every run in which it is not
re-initialised while a thread owns it or waits for it: its binary semaphore is
`0` exactly while one thread *owns* the lock, that is, has passed `sema_down`
and has not reached the matching `sema_up`.
-/

namespace Pintos

open Dll
open Function Option

variable {τ ι : Type*}

/-- `struct lock`, less `lockElem`. -/
structure Lock (τ : Type*) where
  holder : Option τ
  semaphore : Semaphore τ

/-- `lock_init`. -/
def lockInit : Lock τ := ⟨none, semaInit 1⟩

/-- The nodes of the `locks` lists: the headers of every thread's list and
every lock's `lockElem`. -/
inductive LockNode (τ ι : Type*)
  | head (t : τ)
  | tail (t : τ)
  | elem (l : ι)
deriving DecidableEq

/-- The statement a thread is about to execute. -/
inductive LockPc (ι : Type*)
  | outside
  | link (l : ι)
  | down (l : ι)
  | waiting (l : ι)
  | own (l : ι)
  | unlink (l : ι)
  | clear (l : ι)
  | up (l : ι)
deriving DecidableEq

/-- All locks and threads.  `depth` is history: how many calls of
`lock_acquire` by the thread have returned minus its calls of
`lock_release`. -/
structure LockSys (τ ι : Type*) where
  lock : ι → Lock τ
  links : Heap (LockNode τ ι)
  pc : τ → LockPc ι
  depth : τ → ι → Nat
  live : τ → Bool

/-- A call (with its first statement), the next statement of the call a
thread is in, `lock_init`, or the exit of a thread. -/
inductive LockAct (τ ι : Type*)
  | acquire (t : τ) (l : ι)
  | release (t : τ) (l : ι)
  | run (t : τ)
  | init (l : ι)
  | exit (t : τ)

namespace LockSys

variable [DecidableEq τ] [DecidableEq ι]

def setPc (s : LockSys τ ι) (t : τ) (pc : LockPc ι) : LockSys τ ι :=
  { s with pc := update s.pc t pc }

def setLock (s : LockSys τ ι) (l : ι) (lock : Lock τ) : LockSys τ ι :=
  { s with lock := update s.lock l lock }

def setDepth (s : LockSys τ ι) (t : τ) (l : ι) (n : Nat) : LockSys τ ι :=
  { s with depth := update s.depth t (update (s.depth t) l n) }

/-- `thread_unblock` of the thread `sema_up` popped: it re-tests. -/
def wake (s : LockSys τ ι) (l : ι) : Option τ → LockSys τ ι
  | none => s
  | some t => s.setPc t (.down l)

end LockSys

open LockSys

section Steps

variable [DecidableEq τ] [DecidableEq ι]

/-- `lock_acquire` up to its early return. -/
def lockAcquire (s : LockSys τ ι) (t : τ) (l : ι) : LockSys τ ι :=
  if (s.lock l).holder = some t then s.setDepth t l (s.depth t l + 1) else s.setPc t (.link l)

/-- `lock_release` up to its assertion; `none` is the kernel panic. -/
def lockRelease (s : LockSys τ ι) (t : τ) (l : ι) : Option (LockSys τ ι) :=
  if (s.lock l).holder = some t then
    some ((s.setDepth t l (s.depth t l - 1)).setPc t (.unlink l))
  else
    none

/-- The next statement of the call that `t` is in. -/
def lockRun (s : LockSys τ ι) (t : τ) : Option (LockSys τ ι) :=
  match s.pc t with
  | .outside | .waiting _ => none
  | .link l => (listPushBack s.links (.tail t) (.elem l)).map fun links =>
    ({ s with links := links }).setPc t (.down l)
  | .down l =>
    let pass := semaDownPass (s.lock l).semaphore t
    some ((s.setLock l { s.lock l with semaphore := pass.1 }).setPc t
      (if pass.2 then .own l else .waiting l))
  | .own l =>
    some (((s.setLock l { s.lock l with holder := some t }).setDepth t l
      (s.depth t l + 1)).setPc t .outside)
  | .unlink l => (listRemove s.links (.elem l)).map fun r =>
    ({ s with links := r.1 }).setPc t (.clear l)
  | .clear l => some ((s.setLock l { s.lock l with holder := none }).setPc t (.up l))
  | .up l =>
    let up := semaUp (s.lock l).semaphore
    some (((s.setLock l { s.lock l with semaphore := up.1 }).wake l up.2).setPc t .outside)

/-- The step function. -/
def lockStep (s : LockSys τ ι) : LockAct τ ι → Option (LockSys τ ι)
  | .acquire t l => if s.live t ∧ s.pc t = .outside then some (lockAcquire s t l) else none
  | .release t l => if s.live t ∧ s.pc t = .outside then lockRelease s t l else none
  | .run t => if s.live t then lockRun s t else none
  | .init l => some (s.setLock l lockInit)
  | .exit t =>
    if s.live t ∧ s.pc t = .outside then
      some { s with live := update s.live t false }
    else
      none

/-- Every lock initialised, every `locks` list empty, no call in progress. -/
def lockBoot : LockSys τ ι where
  lock _ := lockInit
  links
    | .head t => ⟨none, some (.tail t)⟩
    | .tail t => ⟨some (.head t), none⟩
    | .elem _ => ⟨none, none⟩
  pc _ := .outside
  depth _ _ := 0
  live _ := true

/-- Locks under any interleaving. -/
def lockMachine : Machine (LockSys τ ι) (LockAct τ ι) where
  init s := s = lockBoot
  step := lockStep

end Steps

/-! ## ownership -/

/-- `t` has passed `sema_down` on `l` and not yet reached its `sema_up`. -/
def LockSys.Owns (s : LockSys τ ι) (t : τ) (l : ι) : Prop :=
  s.pc t = .own l ∨ (s.lock l).holder = some t ∨ s.pc t = .up l

/-- No thread owns `l` or waits for it. -/
def LockSys.Unused (s : LockSys τ ι) (l : ι) : Prop :=
  ∀ t, ¬ s.Owns t l ∧ s.pc t ≠ .waiting l

/-- `lock_init` is applied to `l` only while it is not in use. -/
def InitUnused (l : ι) (s : LockSys τ ι) (a : LockAct τ ι) : Prop := a = .init l → s.Unused l

/-- The binary semaphore of `l` is consistent with its owner, and its waiters
are the threads blocked on it. -/
structure LockInv (s : LockSys τ ι) (l : ι) : Prop where
  owner_unique : ∀ {t t'}, s.Owns t l → s.Owns t' l → t = t'
  value_owned : ∀ {t}, s.Owns t l → (s.lock l).semaphore.value = 0
  value_free : (∀ t, ¬ s.Owns t l) → (s.lock l).semaphore.value = 1
  holder_own : ∀ {t}, s.pc t = .own l ∨ s.pc t = .up l → (s.lock l).holder = none
  holder_release : ∀ {t}, s.pc t = .unlink l ∨ s.pc t = .clear l → (s.lock l).holder = some t
  holder_acquire : ∀ {t}, s.pc t = .link l ∨ s.pc t = .down l ∨ s.pc t = .waiting l →
    (s.lock l).holder ≠ some t
  waiting_iff : ∀ {t}, t ∈ (s.lock l).semaphore.waiters ↔ s.pc t = .waiting l
  waiters_nodup : (s.lock l).semaphore.waiters.Nodup

/-- A thread on a waiters list is blocked there and is on it once.  This
survives any `lock_init`, which only ever empties a waiters list. -/
structure WaitersInv (s : LockSys τ ι) : Prop where
  waiting : ∀ {t l}, t ∈ (s.lock l).semaphore.waiters → s.pc t = .waiting l
  nodup : ∀ l, (s.lock l).semaphore.waiters.Nodup

/-! ## what a statement can do -/

section Moves

variable [DecidableEq τ] [DecidableEq ι]

/-- The effect of the next statement of `t`, one constructor for each
statement; a pass of `sema_down` either waits or takes the permit. -/
inductive LockMove (s : LockSys τ ι) (t : τ) : LockSys τ ι → Prop
  | link {l : ι} {links : Heap (LockNode τ ι)} (hpc : s.pc t = .link l)
      (hpush : listPushBack s.links (.tail t) (.elem l) = some links) :
      LockMove s t (({ s with links := links }).setPc t (.down l))
  | wait {l : ι} (hpc : s.pc t = .down l) (hv : (s.lock l).semaphore.value = 0) :
      LockMove s t ((s.setLock l { s.lock l with
        semaphore := (semaDownPass (s.lock l).semaphore t).1 }).setPc t (.waiting l))
  | take {l : ι} (hpc : s.pc t = .down l) (hv : (s.lock l).semaphore.value ≠ 0) :
      LockMove s t ((s.setLock l { s.lock l with
        semaphore := (semaDownPass (s.lock l).semaphore t).1 }).setPc t (.own l))
  | hold {l : ι} (hpc : s.pc t = .own l) :
      LockMove s t (((s.setLock l { s.lock l with holder := some t }).setDepth t l
        (s.depth t l + 1)).setPc t .outside)
  | unlink {l : ι} {r : Heap (LockNode τ ι) × LockNode τ ι} (hpc : s.pc t = .unlink l)
      (hrem : listRemove s.links (.elem l) = some r) :
      LockMove s t (({ s with links := r.1 }).setPc t (.clear l))
  | clear {l : ι} (hpc : s.pc t = .clear l) :
      LockMove s t ((s.setLock l { s.lock l with holder := none }).setPc t (.up l))
  | up {l : ι} (hpc : s.pc t = .up l) :
      LockMove s t (((s.setLock l { s.lock l with
        semaphore := (semaUp (s.lock l).semaphore).1 }).wake l
          (semaUp (s.lock l).semaphore).2).setPc t .outside)

theorem lockMove_of_lockRun {s s' : LockSys τ ι} {t : τ} (hs : lockRun s t = some s') :
    LockMove s t s' := by
  unfold lockRun at hs
  split at hs
  · contradiction
  · contradiction
  · next l hpc =>
    obtain ⟨links, hpush, rfl⟩ := map_eq_some_iff.mp hs
    exact .link hpc hpush
  · next l hpc =>
    have hs := some.inj hs
    subst hs
    by_cases hv : (s.lock l).semaphore.value = 0
    · have hfail : (semaDownPass (s.lock l).semaphore t).2 = false := by simp [semaDownPass, hv]
      rw [hfail]
      exact .wait hpc hv
    · have hok : (semaDownPass (s.lock l).semaphore t).2 = true := by simp [semaDownPass, hv]
      rw [hok]
      exact .take hpc hv
  · next l hpc => exact some.inj hs ▸ .hold hpc
  · next l hpc =>
    obtain ⟨r, hrem, rfl⟩ := map_eq_some_iff.mp hs
    exact .unlink hpc hrem
  · next l hpc => exact some.inj hs ▸ .clear hpc
  · next l hpc => exact some.inj hs ▸ .up hpc

end Moves

/-! ## every step keeps the invariant -/

variable {s s' : LockSys τ ι} {t : τ} {l l' : ι}

theorem lockInv_boot : LockInv (lockBoot : LockSys τ ι) l := by
  constructor <;> simp [lockBoot, lockInit, semaInit, Owns]

theorem LockInv.congr (h : LockInv s l) (hl : s'.lock l = s.lock l) (hp : s'.pc = s.pc) :
    LockInv s' l := by
  have hown : ∀ t, s'.Owns t l ↔ s.Owns t l := fun t => by
    simp only [Owns, hl, hp]
  obtain ⟨h1, h2, h3, h4, h5, h6, h7, h8⟩ := h
  constructor <;> simp only [hown, hl, hp] <;> assumption

section Invariant

variable [DecidableEq τ]

/-- Statements that change no lock: the caller moves between two points at
which it neither waits nor has the permit without being the holder. -/
theorem LockInv.move {pc : LockPc ι} (h : LockInv s l)
    (hold : s.pc t ≠ .own l ∧ s.pc t ≠ .up l ∧ s.pc t ≠ .waiting l)
    (hnew : pc ≠ .own l ∧ pc ≠ .up l ∧ pc ≠ .waiting l)
    (hrel : pc = .unlink l ∨ pc = .clear l → (s.lock l).holder = some t)
    (hacq : pc = .link l ∨ pc = .down l → (s.lock l).holder ≠ some t) :
    LockInv (s.setPc t pc) l := by
  have hown : ∀ t', (s.setPc t pc).Owns t' l ↔ s.Owns t' l := by
    intro t'
    simp only [Owns, setPc, update_apply]
    split
    · next heq => subst heq; simp [hold, hnew]
    · rfl
  constructor
  · simp only [hown]; exact h.owner_unique
  · simp only [hown]; exact h.value_owned
  · simp only [hown]; exact h.value_free
  · intro t' hpc
    simp only [setPc, update_apply] at hpc
    split at hpc
    · simp [hnew] at hpc
    · exact h.holder_own hpc
  · intro t' hpc
    simp only [setPc, update_apply] at hpc
    split at hpc
    · next heq => subst heq; exact hrel hpc
    · exact h.holder_release hpc
  · intro t' hpc
    simp only [setPc, update_apply] at hpc
    split at hpc
    · next heq => subst heq; exact hacq (by simpa [hnew] using hpc)
    · exact h.holder_acquire hpc
  · intro t'
    rw [show (s.setPc t pc).lock = s.lock from rfl, h.waiting_iff]
    simp only [setPc, update_apply]
    split
    · next heq => subst heq; simp [hold, hnew]
    · rfl
  · exact h.waiters_nodup

variable [DecidableEq ι]

section

variable (h : LockInv s l)
include h

theorem LockInv.frame {pc : LockPc ι} {lock : Lock τ} (hne : l ≠ l')
    (hold : ∀ l₁, s.pc t = .own l₁ ∨ s.pc t = .up l₁ ∨ s.pc t = .waiting l₁ → l₁ = l')
    (hnew : ∀ l₁, pc = .own l₁ ∨ pc = .up l₁ ∨ pc = .waiting l₁ ∨ pc = .unlink l₁ ∨
      pc = .clear l₁ ∨ pc = .link l₁ ∨ pc = .down l₁ → l₁ = l') :
    LockInv ((s.setLock l' lock).setPc t pc) l := by
  have hmove : LockInv (s.setPc t pc) l := by
    refine h.move ?_ ?_ ?_ ?_ <;> grind
  exact hmove.congr (by simp [setPc, setLock, hne]) rfl

/-- A pass of `sema_down` that finds the value `0` makes the caller wait. -/
theorem LockInv.wait (hpc : s.pc t = .down l) (h0 : (s.lock l).semaphore.value = 0) :
    LockInv ((s.setLock l { s.lock l with
      semaphore := (semaDownPass (s.lock l).semaphore t).1 }).setPc t (.waiting l)) l := by
  have hsema : (semaDownPass (s.lock l).semaphore t).1 =
      ⟨(s.lock l).semaphore.value, (s.lock l).semaphore.waiters ++ [t]⟩ := by
    simp [semaDownPass, h0]
  have hfresh : t ∉ (s.lock l).semaphore.waiters := by
    rw [h.waiting_iff, hpc]
    simp
  rw [hsema]
  obtain ⟨h1, h2, h3, h4, h5, h6, h7, h8⟩ := h
  simp only [Owns] at h1 h2 h3
  constructor <;> simp only [Owns, setPc, setLock, update_apply]
    <;> grind

/-- A pass that finds a permit takes it: the caller now owns the lock. -/
theorem LockInv.take (hpc : s.pc t = .down l) (h0 : (s.lock l).semaphore.value ≠ 0) :
    LockInv ((s.setLock l { s.lock l with
      semaphore := (semaDownPass (s.lock l).semaphore t).1 }).setPc t (.own l)) l := by
  have hsema : (semaDownPass (s.lock l).semaphore t).1 =
      ⟨(s.lock l).semaphore.value - 1, (s.lock l).semaphore.waiters⟩ := by
    simp [semaDownPass, h0]
  have hfree : ∀ t', ¬ s.Owns t' l := fun t' hown => h0 (h.value_owned hown)
  have hone : (s.lock l).semaphore.value = 1 := h.value_free hfree
  have hnone : (s.lock l).holder = none :=
    eq_none_iff_forall_ne_some.mpr fun t' ht' => hfree t' (.inr (.inl ht'))
  rw [hsema]
  obtain ⟨h1, h2, h3, h4, h5, h6, h7, h8⟩ := h
  simp only [Owns] at h1 h2 h3 hfree
  constructor <;> simp only [Owns, setPc, setLock, update_apply]
    <;> grind

theorem LockInv.hold (hpc : s.pc t = .own l) :
    LockInv ((s.setLock l { s.lock l with holder := some t }).setPc t .outside) l := by
  have hnone : (s.lock l).holder = none := h.holder_own (.inl hpc)
  obtain ⟨h1, h2, h3, h4, h5, h6, h7, h8⟩ := h
  simp only [Owns] at h1 h2 h3
  constructor <;> simp only [Owns, setPc, setLock, update_apply]
    <;> grind

theorem LockInv.clear (hpc : s.pc t = .clear l) :
    LockInv ((s.setLock l { s.lock l with holder := none }).setPc t (.up l)) l := by
  have hholder : (s.lock l).holder = some t := h.holder_release (.inr hpc)
  obtain ⟨h1, h2, h3, h4, h5, h6, h7, h8⟩ := h
  simp only [Owns] at h1 h2 h3
  constructor <;> simp only [Owns, setPc, setLock, update_apply]
    <;> grind

/-- `sema_up`: nobody owns the lock any more, and the woken thread re-tests. -/
theorem LockInv.up (hpc : s.pc t = .up l) :
    LockInv (((s.setLock l { s.lock l with
      semaphore := (semaUp (s.lock l).semaphore).1 }).wake l
        (semaUp (s.lock l).semaphore).2).setPc t .outside) l := by
  have hown : s.Owns t l := .inr (.inr hpc)
  have h0 : (s.lock l).semaphore.value = 0 := h.value_owned hown
  have hnone : (s.lock l).holder = none := h.holder_own (.inr hpc)
  cases hw : (s.lock l).semaphore.waiters with
  | nil =>
    have hsema : semaUp (s.lock l).semaphore = (⟨1, []⟩, none) := by
      simp [semaUp, hw, h0, uintSize]
    rw [hsema]
    obtain ⟨h1, h2, h3, h4, h5, h6, h7, h8⟩ := h
    simp only [Owns] at h1 h2 h3
    constructor <;> simp only [Owns, setPc, setLock, wake,
      update_apply] <;> grind
  | cons w ws =>
    have hsema : semaUp (s.lock l).semaphore = (⟨1, ws⟩, some w) := by
      simp [semaUp, hw, h0, uintSize]
    have hwait : s.pc w = .waiting l := h.waiting_iff.mp (by simp [hw])
    have hnd := h.waiters_nodup
    rw [hw] at hnd
    rw [hsema]
    obtain ⟨h1, h2, h3, h4, h5, h6, h7, h8⟩ := h
    simp only [Owns] at h1 h2 h3
    constructor <;> simp only [Owns, setPc, setLock, wake,
      update_apply] <;> grind

theorem LockInv.lockMove (hw : WaitersInv s) (hm : LockMove s t s') : LockInv s' l := by
  cases hm with
  | @link l' links hpc hpush =>
    have hs : LockInv (s.setPc t (.down l')) l := h.move (by simp [hpc]) (by simp) (by simp)
      fun hl => h.holder_acquire (.inl (by simpa [hpc] using hl))
    exact hs.congr rfl rfl
  | @wait l' hpc hv =>
    by_cases hl : l = l'
    · subst hl; exact h.wait hpc hv
    · exact h.frame hl (by simp [hpc]) (by simp)
  | @take l' hpc hv =>
    by_cases hl : l = l'
    · subst hl; exact h.take hpc hv
    · exact h.frame hl (by simp [hpc]) (by simp)
  | @hold l' hpc =>
    by_cases hl : l = l'
    · subst hl; exact (h.hold hpc).congr rfl rfl
    · exact (h.frame hl (by simp [hpc]) (by simp)).congr rfl rfl
  | @unlink l' r hpc hrem =>
    have hs : LockInv (s.setPc t (.clear l')) l := h.move (by simp [hpc]) (by simp)
      (fun hl => h.holder_release (.inl (by simpa [hpc] using hl))) (by simp)
    exact hs.congr rfl rfl
  | @clear l' hpc =>
    by_cases hl : l = l'
    · subst hl; exact h.clear hpc
    · exact h.frame hl (by simp [hpc]) (by simp)
  | @up l' hpc =>
    by_cases hl : l = l'
    · subst hl; exact h.up hpc
    · cases hq : (s.lock l').semaphore.waiters with
      | nil =>
        have hnone : (semaUp (s.lock l').semaphore).2 = none := by simp [semaUp, hq]
        rw [hnone]
        exact h.frame hl (by simp [hpc]) (by simp)
      | cons w ws =>
        -- the woken thread was blocked on the other lock
        have hsome : (semaUp (s.lock l').semaphore).2 = some w := by simp [semaUp, hq]
        have hwait : s.pc w = .waiting l' := hw.waiting (by simp [hq])
        have hne : t ≠ w := by
          rintro rfl
          simp [hpc] at hwait
        rw [hsome]
        refine LockInv.move (s := (s.setLock l' _).setPc w (.down l'))
          (h.frame hl (by simp [hwait]) (by simp)) ?_ (by simp) (by simp) (by simp)
        simp [setPc, setLock, hne, hpc, Ne.symm hl]

omit h in
theorem WaitersInv.lockMove (h : WaitersInv s) (hm : LockMove s t s') : WaitersInv s' := by
  obtain ⟨hw, hn⟩ := h
  cases hm with
  | wait hpc hv | take hpc hv =>
    constructor <;> simp only [setPc, setLock, semaDownPass, update_apply]
      <;> grind
  | up hpc =>
    next l =>
    cases hq : (s.lock l).semaphore.waiters with
    | nil =>
      constructor <;> simp only [setPc, setLock, wake, semaUp, hq,
        update_apply] <;> grind
    | cons w ws =>
      have hwait : s.pc w = .waiting l := hw (by simp [hq])
      have hnd : (w :: ws).Nodup := hq ▸ hn l
      constructor <;> simp only [setPc, setLock, wake, semaUp, hq,
        update_apply] <;> grind
  | _ =>
    constructor <;> simp only [setPc, setLock, setDepth,
      update_apply] <;> grind

omit [DecidableEq τ] in
theorem LockInv.init (hu : s.Unused l) : LockInv (s.setLock l lockInit) l := by
  have hvalue : (s.lock l).semaphore.value = 1 := h.value_free fun t => (hu t).1
  have hholder : (s.lock l).holder = none :=
    eq_none_iff_forall_ne_some.mpr fun t ht => (hu t).1 (.inr (.inl ht))
  have hwaiters : (s.lock l).semaphore.waiters = [] :=
    List.eq_nil_iff_forall_not_mem.mpr fun t ht => (hu t).2 (h.waiting_iff.mp ht)
  have hlock : s.lock l =
      ⟨(s.lock l).holder, (s.lock l).semaphore.value, (s.lock l).semaphore.waiters⟩ := rfl
  rw [hholder, hvalue, hwaiters] at hlock
  exact h.congr ((update_self ..).trans hlock.symm) rfl

end

/-- What a call can do up to its first statement. -/
theorem lockStep_acquire (hs : lockStep s (.acquire t l') = some s') :
    s.live t = true ∧ s.pc t = .outside ∧ s' = lockAcquire s t l' := by
  obtain ⟨hc, rfl⟩ := of_guard hs
  exact ⟨hc.1, hc.2, rfl⟩

theorem lockStep_release (hs : lockStep s (.release t l') = some s') :
    s.live t = true ∧ s.pc t = .outside ∧ (s.lock l').holder = some t ∧
      s' = (s.setDepth t l' (s.depth t l' - 1)).setPc t (.unlink l') := by
  simp only [lockStep, lockRelease] at hs
  split at hs
  · next hc =>
    obtain ⟨hh, rfl⟩ := of_guard hs
    exact ⟨hc.1, hc.2, hh, rfl⟩
  · contradiction

theorem lockStep_run (hs : lockStep s (.run t) = some s') : s.live t = true ∧ LockMove s t s' := by
  simp only [lockStep] at hs
  split at hs
  · next hlive => exact ⟨hlive, lockMove_of_lockRun hs⟩
  · contradiction

theorem lockStep_exit (hs : lockStep s (.exit t) = some s') :
    s.live t = true ∧ s.pc t = .outside ∧
      s' = { s with live := update s.live t false } := by
  obtain ⟨hc, rfl⟩ := of_guard hs
  exact ⟨hc.1, hc.2, rfl⟩

/-- **Step lemma**: every step keeps the invariant of a lock that it does not
initialise while in use. -/
theorem LockInv.step {a : LockAct τ ι} (h : LockInv s l) (hw : WaitersInv s)
    (hC : InitUnused l s a) (hs : lockStep s a = some s') : LockInv s' l := by
  cases a with
  | acquire t l' =>
    obtain ⟨-, hpc, rfl⟩ := lockStep_acquire hs
    unfold lockAcquire
    split
    · exact h.congr rfl rfl
    · next hh =>
      refine h.move (by simp [hpc]) (by simp) (by simp) fun hl => ?_
      simp only [LockPc.link.injEq, reduceCtorEq, or_false] at hl
      exact hl ▸ hh
  | release t l' =>
    obtain ⟨-, hpc, hh, rfl⟩ := lockStep_release hs
    have hm : LockInv (s.setPc t (.unlink l')) l := h.move (by simp [hpc]) (by simp)
      (fun hl => by
        simp only [LockPc.unlink.injEq, reduceCtorEq, or_false] at hl
        exact hl ▸ hh) (by simp)
    exact hm.congr rfl rfl
  | run t => exact h.lockMove hw (lockStep_run hs).2
  | init l' =>
    have hs := some.inj hs
    subst hs
    by_cases hl : l = l'
    · subst hl; exact h.init (hC rfl)
    · exact h.congr (by simp [setLock, hl]) rfl
  | exit t =>
    obtain ⟨-, -, rfl⟩ := lockStep_exit hs
    exact h.congr rfl rfl

theorem WaitersInv.step {a : LockAct τ ι} (h : WaitersInv s) (hs : lockStep s a = some s') :
    WaitersInv s' := by
  obtain ⟨hw, hn⟩ := id h
  cases a with
  | acquire t l' =>
    obtain ⟨-, hpc, rfl⟩ := lockStep_acquire hs
    unfold lockAcquire
    split
    · exact ⟨hw, hn⟩
    · constructor <;> simp only [setPc, update_apply] <;> grind
  | release t l' =>
    obtain ⟨-, hpc, hh, rfl⟩ := lockStep_release hs
    constructor <;> simp only [setPc, setDepth, update_apply] <;> grind
  | run t => exact h.lockMove (lockStep_run hs).2
  | init l' =>
    have hs := some.inj hs
    subst hs
    constructor <;> simp only [setLock, lockInit, semaInit, update_apply] <;>
      grind
  | exit t =>
    obtain ⟨-, -, rfl⟩ := lockStep_exit hs
    exact ⟨hw, hn⟩

omit [DecidableEq τ] [DecidableEq ι] in
theorem waitersInv_boot : WaitersInv (lockBoot : LockSys τ ι) := by
  constructor <;> simp [lockBoot, lockInit, semaInit]

/-- **Run lemma**: the invariant of a lock holds in every run that
re-initialises the lock only while it is unused. -/
theorem lockInv_of_reachIn (h : lockMachine.ReachIn (InitUnused l) s) : LockInv s l := by
  have hboth : LockInv s l ∧ WaitersInv s := by
    refine h.invariant (I := fun s => LockInv s l ∧ WaitersInv s)
      (fun _ h0 => h0 ▸ ⟨lockInv_boot, waitersInv_boot⟩) ?_
    exact fun s a s' hi hC hs => ⟨hi.1.step hi.2 hC hs, hi.2.step hs⟩
  exact hboth.1

/-! ## the other threads -/

/-- The thread that takes a step; `lock_init` is nobody's. -/
def LockAct.thread : LockAct τ ι → Option τ
  | .acquire t _ | .release t _ | .run t | .exit t => some t
  | .init _ => none

variable {t' : τ} {a : LockAct τ ι}

omit [DecidableEq ι] in
theorem LockSys.setPc_self (s : LockSys τ ι) (t : τ) (pc : LockPc ι) : (s.setPc t pc).pc t = pc :=
  update_self ..

/-- A statement of another thread leaves a thread where it is, or wakes it up. -/
theorem LockMove.pc_other (hm : LockMove s t s') (hw : WaitersInv s) (hne : t' ≠ t) :
    s'.pc t' = s.pc t' ∨ ∃ l, s.pc t' = .waiting l ∧ s'.pc t' = .down l := by
  cases hm with
  | link hpc hpush | wait hpc hv | take hpc hv | hold hpc | unlink hpc hrem | clear hpc =>
    exact .inl (update_of_ne hne ..)
  | @up l hpc =>
    rw [setPc]
    dsimp only
    rw [update_of_ne hne]
    cases hq : (s.lock l).semaphore.waiters with
    | nil =>
      rw [semaUp, hq]
      exact .inl rfl
    | cons w ws =>
      rw [semaUp, hq]
      by_cases heq : t' = w
      · subst heq
        have hwait : s.pc t' = .waiting l := hw.waiting (hq ▸ List.mem_cons_self ..)
        exact .inr ⟨l, hwait, update_self ..⟩
      · exact .inl (update_of_ne heq ..)

omit [DecidableEq τ] in
theorem LockSys.setLock_holder (sema : Semaphore τ) :
    ((s.setLock l' { s.lock l' with semaphore := sema }).lock l).holder = (s.lock l).holder := by
  rw [setLock]
  dsimp only
  by_cases hl : l = l'
  · rw [hl, update_self]
  · rw [update_of_ne hl]

omit [DecidableEq ι] in
theorem LockSys.wake_lock (o : Option τ) : (s.wake l' o).lock = s.lock := by
  cases o with
  | none => rfl
  | some t => rfl

theorem LockMove.holder (hm : LockMove s t s') (l : ι) :
    (s'.lock l).holder = (s.lock l).holder ∨ s.pc t = .own l ∨ s.pc t = .clear l := by
  cases hm with
  | link hpc hpush => exact .inl rfl
  | wait hpc hv | take hpc hv => exact .inl (setLock_holder _)
  | @hold l' hpc =>
    by_cases hl : l = l'
    · exact .inr (.inl (hl ▸ hpc))
    · exact .inl (congrArg Lock.holder (update_of_ne hl ..))
  | unlink hpc hrem => exact .inl rfl
  | @clear l' hpc =>
    by_cases hl : l = l'
    · exact .inr (.inr (hl ▸ hpc))
    · exact .inl (congrArg Lock.holder (update_of_ne hl ..))
  | up hpc =>
    refine .inl ?_
    rw [setPc]
    dsimp only
    rw [wake_lock, setLock_holder]

/-- A step of another thread leaves a thread where it is, or wakes it up. -/
theorem lockStep_pc_other (hs : lockStep s a = some s') (hw : WaitersInv s)
    (ha : a.thread ≠ some t) :
    s'.pc t = s.pc t ∨ ∃ l, s.pc t = .waiting l ∧ s'.pc t = .down l := by
  cases a with
  | acquire t' l' =>
    have hne : t ≠ t' := fun heq => ha (congrArg some heq.symm)
    obtain ⟨-, -, rfl⟩ := lockStep_acquire hs
    rw [lockAcquire]
    split
    · exact .inl rfl
    · exact .inl (update_of_ne hne ..)
  | release t' l' =>
    have hne : t ≠ t' := fun heq => ha (congrArg some heq.symm)
    obtain ⟨-, -, -, rfl⟩ := lockStep_release hs
    exact .inl (update_of_ne hne ..)
  | run t' => exact (lockStep_run hs).2.pc_other hw fun heq => ha (congrArg some heq.symm)
  | init l' =>
    cases hs
    exact .inl rfl
  | exit t' =>
    obtain ⟨-, -, rfl⟩ := lockStep_exit hs
    exact .inl rfl

/-- A step of another thread does not take the lock away. -/
theorem LockInv.holder_other (hinv : LockInv s l) (hs : lockStep s a = some s')
    (ha : a.thread ≠ some t) (hinit : a ≠ .init l) (hheld : (s.lock l).holder = some t) :
    (s'.lock l).holder = some t := by
  have hown : s.Owns t l := .inr (.inl hheld)
  cases a with
  | acquire t' l' =>
    obtain ⟨-, -, rfl⟩ := lockStep_acquire hs
    rw [lockAcquire]
    split
    · exact hheld
    · exact hheld
  | release t' l' =>
    obtain ⟨-, -, -, rfl⟩ := lockStep_release hs
    exact hheld
  | run t' =>
    have hne : t' ≠ t := fun heq => ha (congrArg some heq)
    rcases (lockStep_run hs).2.holder l with heq | hpc | hpc
    · exact heq.trans hheld
    · exact absurd (hinv.owner_unique (.inl hpc) hown) hne
    · have hheld' := hinv.holder_release (.inr hpc)
      exact absurd (some.inj (hheld'.symm.trans hheld)) hne
  | init l' =>
    have hl : l ≠ l' := fun heq => hinit (congrArg _ heq.symm)
    cases hs
    exact (congrArg Lock.holder (update_of_ne hl ..)).trans hheld
  | exit t' =>
    obtain ⟨-, -, rfl⟩ := lockStep_exit hs
    exact hheld

theorem outside_lockStep (hw : WaitersInv s) (hs : lockStep s a = some s')
    (ha : a.thread ≠ some t) (hpc : s.pc t = .outside) : s'.pc t = .outside := by
  rcases lockStep_pc_other hs hw ha with heq | ⟨l', hwait, -⟩
  · exact heq.trans hpc
  · cases hpc.symm.trans hwait

theorem live_lockStep (hs : lockStep s a = some s') (ha : ∀ t, a ≠ .exit t) : s'.live = s.live := by
  cases a with
  | acquire t₁ l₁ =>
    obtain ⟨-, -, rfl⟩ := lockStep_acquire hs
    unfold lockAcquire
    split <;> rfl
  | release t₁ l₁ =>
    obtain ⟨-, -, -, rfl⟩ := lockStep_release hs
    rfl
  | run t₁ =>
    cases (lockStep_run hs).2 with
    | @up l₁ hup => cases hq : (s.lock l₁).semaphore.waiters <;> simp only [semaUp, hq] <;> rfl
    | _ => rfl
  | init l₁ => exact some.inj hs ▸ rfl
  | exit t₁ => exact absurd rfl (ha t₁)

theorem live_other (hs : lockStep s a = some s') (ha : a.thread ≠ some t) :
    s'.live t = s.live t := by
  by_cases hexit : ∃ t', a = .exit t'
  · obtain ⟨t', rfl⟩ := hexit
    obtain ⟨-, -, rfl⟩ := lockStep_exit hs
    exact update_of_ne (fun heq => ha (congrArg some heq.symm)) ..
  · rw [live_lockStep hs fun t' heq => hexit ⟨t', heq⟩]

end Invariant

end Pintos

