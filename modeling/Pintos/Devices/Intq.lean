import Pintos.Lib.Machine

/-!
# Pintos.Devices.Intq

Interrupt queues (`devices/intq.c`).

The queue is a ring of 64 bytes of which one stays unused.  `Holds q bs` says that the ring
has the bytes `bs`, oldest first; `intq_fifo` follows them through any sequence of calls.

A thread that finds the queue empty acquires the lock before it waits.  It may have to sleep
for the lock, and `wait` asserts that the queue is still empty then (`intq_wait_fails`).
-/

namespace Pintos

open Function List

/-- `struct intq`, without its lock. -/
structure Intq (τ : Type*) where
  notFull : Option τ
  notEmpty : Option τ
  buf : Nat → UInt8
  head : Nat
  tail : Nat

namespace Intq

variable {τ : Type*} {q q' : Intq τ} {b : UInt8} {bs : List UInt8}

/-! ## the queue -/

/-- `INTQ_BUFSIZE`. -/
def bufsize : Nat := 64

def next (pos : Nat) : Nat := (pos + 1) % bufsize

/-- `intq_init`; `buf` is what the buffer has in it. -/
def init (buf : Nat → UInt8) : Intq τ := ⟨none, none, buf, 0, 0⟩

/-- `intq_empty`. -/
def empty (q : Intq τ) : Bool := q.head == q.tail

/-- `intq_full`. -/
def full (q : Intq τ) : Bool := next q.head == q.tail

/-- A byte is written to the ring. -/
def push (q : Intq τ) (byte : UInt8) : Intq τ :=
  { q with buf := update q.buf q.head byte, head := next q.head }

/-- A byte is taken out of the ring. -/
def pop (q : Intq τ) : Intq τ := { q with tail := next q.tail }

/-- `intq_putc` behind its loop, with the thread that `signal` unblocks; `none` when the
`ASSERT` of `signal` fails. -/
def putc (q : Intq τ) (byte : UInt8) : Option (Intq τ × Option τ) :=
  if (q.push byte).empty then none else some ({ q.push byte with notEmpty := none }, q.notEmpty)

/-- `intq_getc` behind its loop. -/
def getc (q : Intq τ) : Option (Intq τ × UInt8 × Option τ) :=
  if q.pop.full then none else some ({ q.pop with notFull := none }, q.buf q.tail, q.notFull)

/-! ## the ring -/

/-- The ring has these bytes. -/
structure Holds (q : Intq τ) (bs : List UInt8) : Prop where
  tail : q.tail < bufsize
  length : bs.length < bufsize
  head : q.head = (q.tail + bs.length) % bufsize
  byte : ∀ i (h : i < bs.length), q.buf ((q.tail + i) % bufsize) = bs[i]

theorem holds_init (buf : Nat → UInt8) : Holds (init buf : Intq τ) [] :=
  ⟨Nat.succ_pos 63, Nat.succ_pos 63, rfl, nofun⟩

theorem Holds.head_lt (h : Holds q bs) : q.head < bufsize := by
  rw [h.head]
  exact Nat.mod_lt _ (by decide)

theorem Holds.empty_iff (h : Holds q bs) : q.empty = true ↔ bs = [] := by
  have htail := h.tail
  have hlen := h.length
  rw [empty, beq_iff_eq, h.head, ← length_eq_zero_iff]
  unfold bufsize at *
  omega

theorem Holds.full_iff (h : Holds q bs) : q.full = true ↔ bs.length = 63 := by
  have htail := h.tail
  have hlen := h.length
  rw [full, beq_iff_eq, next, h.head]
  unfold bufsize at *
  omega

theorem Holds.push (h : Holds q bs) (hfull : q.full = false) (byte : UInt8) :
    Holds (q.push byte) (bs ++ [byte]) := by
  have htail := h.tail
  have hhead := h.head
  have hlen : bs.length < 63 := by
    have hne : bs.length ≠ 63 := fun heq => Bool.eq_false_iff.mp hfull (h.full_iff.mpr heq)
    have hlt := h.length
    unfold bufsize at hlt
    omega
  refine ⟨htail, ?_, ?_, fun i hi => ?_⟩
  · rw [length_append]
    exact Nat.succ_lt_succ hlen
  · simp only [Intq.push, next, hhead, length_append, length_singleton]
    unfold bufsize
    omega
  · rw [length_append, length_singleton] at hi
    by_cases hlast : i = bs.length
    · subst hlast
      simp [Intq.push, hhead]
    · have hold : i < bs.length := by omega
      have hne : (q.tail + i) % bufsize ≠ q.head := by
        rw [hhead]
        unfold bufsize at *
        omega
      simp only [Intq.push, update_of_ne hne, getElem_append_left hold]
      exact h.byte i hold

theorem Holds.pop (h : Holds q (b :: bs)) : q.buf q.tail = b ∧ Holds q.pop bs := by
  have hlen := h.length
  constructor
  · have hzero := h.byte 0 (Nat.succ_pos _)
    rwa [Nat.add_zero, Nat.mod_eq_of_lt h.tail] at hzero
  · refine ⟨Nat.mod_lt _ (by decide), Nat.lt_of_succ_lt hlen, ?_, fun i hi => ?_⟩
    · simp only [Intq.pop, h.head, next, length_cons]
      unfold bufsize
      omega
    · have hindex : (next q.tail + i) % bufsize = (q.tail + (i + 1)) % bufsize := by
        unfold next bufsize
        omega
      simp only [Intq.pop, hindex]
      exact h.byte (i + 1) (Nat.succ_lt_succ hi)

/-- **`intq_putc`** appends a byte to a queue that is not full. -/
theorem Holds.putc (h : Holds q bs) (hfull : q.full = false) (byte : UInt8) :
    q.putc byte = some ({ q.push byte with notEmpty := none }, q.notEmpty) ∧
      Holds { q.push byte with notEmpty := none } (bs ++ [byte]) := by
  have hpush := h.push hfull byte
  have hempty : ¬ (q.push byte).empty = true := by
    rw [hpush.empty_iff]
    exact append_ne_nil_of_right_ne_nil bs (cons_ne_nil byte [])
  exact ⟨if_neg hempty, hpush.tail, hpush.length, hpush.head, hpush.byte⟩

/-- **`intq_getc`** takes the oldest byte. -/
theorem Holds.getc (h : Holds q (b :: bs)) :
    q.getc = some ({ q.pop with notFull := none }, b, q.notFull) ∧
      Holds { q.pop with notFull := none } bs := by
  obtain ⟨rfl, hpop⟩ := h.pop
  have hlen := h.length
  have hfull : ¬ q.pop.full = true := by
    rw [hpop.full_iff]
    rw [length_cons] at hlen
    unfold bufsize at hlen
    omega
  exact ⟨if_neg hfull, hpop.tail, hpop.length, hpop.head, hpop.byte⟩

/-! ## sequences of calls -/

inductive Call
  | put (byte : UInt8)
  | get

/-- A queue with the bytes that have been put and those that have been got. -/
structure Run (τ : Type*) where
  q : Intq τ
  puts : List UInt8
  gets : List UInt8

/-- A call when the queue is not full, or not empty. -/
def step (r : Run τ) : Call → Option (Run τ)
  | .put byte =>
    if r.q.full then none
    else (r.q.putc byte).map fun (q, _) => ⟨q, r.puts ++ [byte], r.gets⟩
  | .get =>
    if r.q.empty then none else r.q.getc.map fun (q, byte, _) => ⟨q, r.puts, r.gets ++ [byte]⟩

def machine (τ : Type*) : Machine (Run τ) Call where
  init r := ∃ buf, r = ⟨init buf, [], []⟩
  step := step

/-- The bytes that are stored are those that have been put and not been got. -/
structure Fifo (r : Run τ) (bs : List UInt8) : Prop where
  order : r.puts = r.gets ++ bs
  inside : r.q.head < bufsize ∧ r.q.tail < bufsize
  bound : bs.length ≤ 63
  empty : r.q.empty = true ↔ bs.length = 0
  full : r.q.full = true ↔ bs.length = 63
  puts : r.q.full = false → ∀ byte, (step r (.put byte)).isSome = true
  gets : r.q.empty = false → (step r .get).isSome = true

theorem step_holds {r r' : Run τ} {c : Call} (horder : r.puts = r.gets ++ bs) (h : Holds r.q bs)
    (hs : step r c = some r') : ∃ bs', r'.puts = r'.gets ++ bs' ∧ Holds r'.q bs' := by
  cases c with
  | put byte =>
    obtain ⟨hfull, hs⟩ := Option.ite_none_left_eq_some.mp hs
    obtain ⟨hput, hholds⟩ := h.putc (Bool.eq_false_iff.mpr hfull) byte
    rw [hput] at hs
    cases hs
    exact ⟨_, by simp [horder], hholds⟩
  | get =>
    obtain ⟨hempty, hs⟩ := Option.ite_none_left_eq_some.mp hs
    cases bs with
    | nil => exact absurd (h.empty_iff.mpr rfl) hempty
    | cons b bs =>
      obtain ⟨hget, hholds⟩ := h.getc
      rw [hget] at hs
      cases hs
      exact ⟨bs, by simp [horder], hholds⟩

/-- **An interrupt queue is a FIFO of at most 63 bytes.** -/
theorem intq_fifo {r : Run τ} (h : (machine τ).Reach r) : ∃ bs, Fifo r bs := by
  obtain ⟨bs, horder, hholds⟩ := h.invariant
    (I := fun r => ∃ bs, r.puts = r.gets ++ bs ∧ Holds r.q bs)
    (by rintro _ ⟨buf, rfl⟩; exact ⟨[], rfl, holds_init buf⟩)
    fun _ _ _ ⟨bs, horder, hholds⟩ _ hs => step_holds horder hholds hs
  refine ⟨bs, horder, ⟨hholds.head_lt, hholds.tail⟩, Nat.le_of_lt_succ hholds.length,
    hholds.empty_iff.trans length_eq_zero_iff.symm, hholds.full_iff, ?_, ?_⟩
  · intro hfull byte
    obtain ⟨hput, -⟩ := hholds.putc hfull byte
    simp [step, hfull, hput]
  · intro hempty
    cases bs with
    | nil => cases hempty.symm.trans (hholds.empty_iff.mpr rfl)
    | cons b bs =>
      obtain ⟨hget, -⟩ := hholds.getc
      simp [step, hempty, hget]

/-- Three bytes are put and the first is got. -/
theorem intq_fifo_three :
    ∃ r bs, (machine Nat).Reach r ∧ r.gets = [7] ∧ bs = [8, 9] ∧ Fifo r bs := by
  obtain ⟨r, -, hr, hputs, hgets⟩ := Machine.exists_reach_of_runFrom (m := machine Nat)
    ⟨fun _ => 0, rfl⟩ [.put 7, .put 8, .get, .put 9] (fun r => r.puts = [7, 8, 9] ∧ r.gets = [7])
    (by decide +kernel)
  obtain ⟨bs, hfifo⟩ := intq_fifo hr
  have hbs : bs = [8, 9] := by
    have horder := hfifo.order
    rw [hputs, hgets] at horder
    exact (cons.inj horder).2.symm
  exact ⟨r, bs, hr, hgets, hbs, hfifo⟩

/-! ## readers -/

/-- Where a thread is in `intq_getc`: running or outside, asleep for the lock or woken up for
it, in `wait`, or unblocked by `signal`. -/
inductive Pc
  | out
  | acquiring
  | woken
  | waiting
  | signalled
deriving DecidableEq

/-- The readers of a queue; `value` and `waiters` are those of the lock's semaphore, and
`failed` says that an `ASSERT` has failed. -/
structure Readers (τ : Type*) where
  q : Intq τ
  holder : Option τ
  value : Nat
  waiters : List τ
  pc : τ → Pc
  failed : Bool

/-- The scheduler runs a thread in `intq_getc`, or an interrupt handler calls `intq_putc`. -/
inductive Event (τ : Type*)
  | call (t : τ)
  | run (t : τ)
  | put (byte : UInt8)

section

variable [DecidableEq τ]

namespace Readers

def setPc (s : Readers τ) (t : τ) (pc : Pc) : Readers τ := { s with pc := update s.pc t pc }

/-- `wait`, with the lock held. -/
def wait (s : Readers τ) (t : τ) : Readers τ :=
  if s.q.empty then { s with q := { s.q with notEmpty := some t } }.setPc t .waiting
  else { s with failed := true }

/-- `sema_down` in `lock_acquire`, and `wait` when it returns. -/
def semaDown (s : Readers τ) (t : τ) : Readers τ :=
  if s.value = 0 then { s with waiters := s.waiters ++ [t] }.setPc t .acquiring
  else { s with value := s.value - 1, holder := some t }.wait t

def lockAcquire (s : Readers τ) (t : τ) : Readers τ :=
  if s.holder = some t then s.wait t else s.semaDown t

def lockRelease (s : Readers τ) : Readers τ :=
  match s.waiters with
  | [] => { s with holder := none, value := s.value + 1 }
  | u :: us => { s with holder := none, value := s.value + 1, waiters := us }.setPc u .woken

/-- The loop of `intq_getc`; interrupts are off until the thread sleeps or returns. -/
def loop (s : Readers τ) (t : τ) : Readers τ :=
  if s.q.empty then s.lockAcquire t
  else
    match s.q.getc with
    | none => { s with failed := true }
    | some (q, _, _) => { s with q := q }.setPc t .out

end Readers

def readersStep (s : Readers τ) : Event τ → Option (Readers τ)
  | .call t => if s.pc t = .out then some (s.loop t) else none
  | .run t =>
    match s.pc t with
    | .woken => some ((s.setPc t .out).semaDown t)
    | .signalled => some ((s.setPc t .out).lockRelease.loop t)
    | _ => none
  | .put byte =>
    if s.q.full then none
    else
      match s.q.putc byte with
      | none => some { s with failed := true }
      | some (q, none) => some { s with q := q }
      | some (q, some u) => some ({ s with q := q }.setPc u .signalled)

/-- Any threads and interrupts, once the queue has been initialized. -/
def readers (τ : Type*) [DecidableEq τ] : Machine (Readers τ) (Event τ) where
  init s := ∃ buf, s = ⟨init buf, none, 1, [], fun _ => .out, false⟩
  step := readersStep

end

/-- No `ASSERT` has failed, one thread at most waits, it is the one that is recorded, and
the queue is empty then. -/
structure Safe (s : Readers τ) : Prop where
  asserts : s.failed = false
  recorded : ∀ t, s.pc t = .waiting ↔ s.q.notEmpty = some t
  empty : s.q.notEmpty.isSome = true → s.q.empty = true

/-- Two threads read and two bytes arrive: the second thread waits for the lock until the
first has taken one of them, and finds the other. -/
theorem intq_wait_fails : ∃ s, (readers Nat).Reach s ∧ ¬ Safe s := by
  obtain ⟨s, -, hs, hp⟩ := Machine.exists_reach_of_runFrom (m := readers Nat) ⟨fun _ => 0, rfl⟩
    [.call 0, .call 1, .put 7, .put 8, .run 0, .run 1] (fun s => s.failed) (by decide +kernel)
  exact ⟨s, hs, fun h => Bool.false_ne_true (h.asserts.symm.trans hp)⟩

/-- An interrupt puts a byte only when no thread sleeps for the lock, or one waits. -/
def Prompt (s : Readers τ) : Event τ → Prop
  | .put _ => (∀ t, s.pc t ≠ .acquiring ∧ s.pc t ≠ .woken) ∨ s.q.notEmpty.isSome = true
  | _ => True

/-- The thread holds the lock. -/
def Pc.holds (pc : Pc) : Prop := pc = .waiting ∨ pc = .signalled

/-- The thread sleeps for the lock. -/
def Pc.sleeps (pc : Pc) : Prop := pc = .acquiring ∨ pc = .woken

/-- The queue, the lock and where the threads are; while threads sleep for the lock there is
one byte at most. -/
structure Inv (s : Readers τ) (bs : List UInt8) : Prop where
  asserts : s.failed = false
  holds : Holds s.q bs
  empty : s.q.notEmpty.isSome = true → bs = []
  recorded : ∀ t, s.q.notEmpty = some t ↔ s.pc t = .waiting
  holder : ∀ t, s.holder = some t ↔ (s.pc t).holds
  value : s.value = if s.holder.isSome then 0 else 1
  nodup : s.waiters.Nodup
  waiters : ∀ t ∈ s.waiters, s.pc t = .acquiring
  sleepers : ∀ t, (s.pc t).sleeps → bs.length ≤ 1

/-- The holder of the lock has been told of the byte. -/
def Told (s : Readers τ) (bs : List UInt8) : Prop :=
  ∀ t, (s.pc t).sleeps → s.holder = none → bs = []

namespace Inv

variable {s : Readers τ} {t : τ}

theorem safe (h : Inv s bs) : Safe s :=
  ⟨h.asserts, fun t => (h.recorded t).symm, fun hsome => h.holds.empty_iff.mpr (h.empty hsome)⟩

theorem holder_ne (h : Inv s bs) (hpc : s.pc t = .out) : s.holder ≠ some t := by
  rw [Ne, h.holder, hpc]
  exact nofun

variable [DecidableEq τ]

section

variable (h : Inv s bs)
include h

/-- A thread moves and does not hold the lock, before or after. -/
theorem moved {pc : Pc} (pc' : Pc) (hpc : s.pc t = pc) (hold : ¬ pc.holds)
    (hnew : ¬ pc'.holds) (u : τ) : (s.q.notEmpty = some u ↔ (s.setPc t pc').pc u = .waiting) ∧
      (s.holder = some u ↔ ((s.setPc t pc').pc u).holds) := by
  rw [h.recorded, h.holder]
  simp only [Readers.setPc, update_apply]
  split
  · next heq =>
    rw [heq, hpc]
    exact ⟨iff_of_false (hold ∘ .inl) (hnew ∘ .inl), iff_of_false hold hnew⟩
  · exact ⟨.rfl, .rfl⟩

/-- No other thread is moved off the list of waiters. -/
theorem waiters_update {pc : Pc} (pc' : Pc) (hpc : s.pc t = pc)
    (hne : pc ≠ .acquiring) : ∀ u ∈ s.waiters, (s.setPc t pc').pc u = .acquiring := by
  intro u hu
  refine (update_of_ne ?_ ..).trans (h.waiters u hu)
  rintro rfl
  exact hne (hpc.symm.trans (h.waiters u hu))

theorem sleeps (hpc : s.pc t = .out) (hone : bs.length ≤ 1) :
    Inv ({ s with waiters := s.waiters ++ [t] }.setPc t .acquiring) bs := by
  have hmoved := h.moved .acquiring hpc nofun nofun
  refine { h with recorded := fun u => (hmoved u).1, holder := fun u => (hmoved u).2, nodup := ?_,
                  waiters := fun u hu => ?_, sleepers := fun u _ => hone }
  · refine nodup_append.mpr ⟨h.nodup, by simp, fun u hu v hv => ?_⟩
    rintro rfl
    cases hpc.symm.trans (mem_singleton.mp hv ▸ h.waiters u hu)
  · rcases mem_append.mp hu with hu | hu
    · exact h.waiters_update _ hpc nofun u hu
    · cases mem_singleton.mp hu
      exact update_self ..

omit h in
theorem waits (h : Inv s []) (hpc : s.pc t = .out) (hfree : s.holder = none) :
    Inv ({ s with value := s.value - 1, holder := some t }.wait t) [] := by
  have hnone : ∀ u, ¬ (s.pc u).holds := fun u hu => by
    rw [← h.holder, hfree] at hu
    cases hu
  rw [Readers.wait, if_pos (h.holds.empty_iff.mpr rfl)]
  refine ⟨h.asserts, ⟨h.holds.tail, h.holds.length, h.holds.head, h.holds.byte⟩, fun _ => rfl,
    fun u => ?_, fun u => ?_, ?_, h.nodup, fun u hu => ?_, fun u _ => Nat.zero_le 1⟩
  all_goals simp only [Readers.setPc, update_apply]
  · by_cases heq : u = t
    · simp [heq]
    · simpa [heq, Ne.symm heq] using fun hu => hnone u (.inl hu)
  · by_cases heq : u = t
    · simp [heq, Pc.holds]
    · simpa [heq, Ne.symm heq] using hnone u
  · simp [h.value, hfree]
  · simpa only [Readers.setPc, update_apply] using h.waiters_update .waiting hpc nofun u hu

/-- `sema_down` and `wait` of a thread that runs. -/
theorem semaDown (hpc : s.pc t = .out) (hone : bs.length ≤ 1)
    (hfree : s.holder = none → bs = []) : Inv (s.semaDown t) bs ∧ Told (s.semaDown t) bs := by
  have hvalue := h.value
  unfold Readers.semaDown
  split at hvalue
  · next hsome =>
    rw [if_pos hvalue]
    refine ⟨h.sleeps hpc hone, fun u _ hnone => ?_⟩
    rw [show s.holder = none from hnone] at hsome
    cases hsome
  · next hnone =>
    obtain rfl := hfree (Option.not_isSome_iff_eq_none.mp hnone)
    rw [if_neg (by omega)]
    exact ⟨h.waits hpc (Option.not_isSome_iff_eq_none.mp hnone), fun _ _ _ => rfl⟩

theorem loop (hpc : s.pc t = .out) : ∃ bs', Inv (s.loop t) bs' ∧ Told (s.loop t) bs' := by
  unfold Readers.loop
  cases bs with
  | nil =>
    rw [if_pos (h.holds.empty_iff.mpr rfl), Readers.lockAcquire, if_neg (h.holder_ne hpc)]
    exact ⟨[], h.semaDown hpc (Nat.zero_le 1) fun _ => rfl⟩
  | cons b bs =>
    obtain ⟨hget, hholds⟩ := h.holds.getc
    have hnone : s.q.notEmpty = none := by
      rw [← Option.not_isSome_iff_eq_none]
      exact fun hsome => cons_ne_nil b bs (h.empty hsome)
    have hlast : ∀ u, (s.pc u).sleeps → bs = [] := fun u hu =>
      length_eq_zero_iff.mp (Nat.le_zero.mp (Nat.le_of_succ_le_succ (h.sleepers u hu)))
    have hsame : update s.pc t .out = s.pc := by rw [← hpc, update_eq_self]
    rw [if_neg (by rw [h.holds.empty_iff]; exact nofun), hget]
    simp only [Readers.setPc, hsame]
    refine ⟨bs, { h with holds := hholds, empty := ?_, sleepers := ?_ }, fun u hu _ => hlast u hu⟩
    · intro hsome
      cases hsome.symm.trans (congrArg Option.isSome hnone)
    · intro u hu
      rw [hlast u hu]
      exact Nat.zero_le 1

/-- A thread that has been woken up runs. -/
theorem resume (hpc : s.pc t = .woken) : Inv (s.setPc t .out) bs := by
  have hmoved := h.moved .out hpc nofun nofun
  exact { h with recorded := fun u => (hmoved u).1, holder := fun u => (hmoved u).2,
                 waiters := h.waiters_update _ hpc nofun,
                 sleepers := fun _ _ => h.sleepers t (.inr hpc) }

/-- `thread_unblock` of the first waiter. -/
theorem wake {us : List τ} (hwaiters : s.waiters = t :: us) :
    Inv ({ s with waiters := us }.setPc t .woken) bs := by
  have hpc : s.pc t = .acquiring := h.waiters t (by rw [hwaiters]; exact mem_cons_self ..)
  have hmoved := h.moved .woken hpc nofun nofun
  have hnodup := hwaiters ▸ h.nodup
  refine { h with recorded := fun u => (hmoved u).1, holder := fun u => (hmoved u).2,
                  nodup := (nodup_cons.mp hnodup).2, waiters := fun u hu => ?_,
                  sleepers := fun _ _ => h.sleepers t (.inl hpc) }
  have hne : u ≠ t := fun heq => (nodup_cons.mp hnodup).1 (heq ▸ hu)
  exact (update_of_ne hne ..).trans (h.waiters u (by rw [hwaiters]; exact .tail _ hu))

/-- A thread that has been unblocked by `signal` runs and releases the lock. -/
theorem lockRelease (hpc : s.pc t = .signalled) :
    Inv (s.setPc t .out).lockRelease bs ∧ (s.setPc t .out).lockRelease.pc t = .out := by
  have hholder : s.holder = some t := (h.holder t).mpr (.inr hpc)
  have hinv : Inv { s.setPc t .out with holder := none, value := s.value + 1 } bs := by
    refine { h with recorded := fun u => ?_, holder := fun u => ?_, value := ?_,
                    waiters := h.waiters_update _ hpc nofun,
                    sleepers := fun u hu => ?_ }
    all_goals simp only [Readers.setPc, update_apply] at *
    · split
      · next heq => simp [heq, h.recorded, hpc]
      · exact h.recorded u
    · refine iff_of_false nofun ?_
      split
      · exact nofun
      · next hne =>
        intro hu
        cases hholder.symm.trans ((h.holder u).mpr hu)
        exact hne rfl
    · simp [h.value, hholder]
    · split at hu
      · exact absurd hu nofun
      · exact h.sleepers u hu
  cases hwaiters : s.waiters with
  | nil =>
    simp only [Readers.lockRelease, Readers.setPc, hwaiters] at hinv ⊢
    exact ⟨hinv, update_self ..⟩
  | cons u us =>
    have hne : t ≠ u := by
      rintro rfl
      cases hpc.symm.trans (h.waiters t (by rw [hwaiters]; exact mem_cons_self ..))
    simp only [Readers.lockRelease, Readers.setPc, hwaiters]
    exact ⟨hinv.wake hwaiters, (update_of_ne hne ..).trans (update_self ..)⟩

theorem put {s' : Readers τ} {byte : UInt8} (hC : Prompt s (.put byte))
    (hs : readersStep s (.put byte) = some s') : ∃ bs', Inv s' bs' ∧ Told s' bs' := by
  obtain ⟨hfull, hs⟩ := Option.ite_none_left_eq_some.mp hs
  obtain ⟨hput, hholds⟩ := h.holds.putc (Bool.eq_false_iff.mpr hfull) byte
  rw [hput] at hs
  cases hnot : s.q.notEmpty with
  | none =>
    rw [hnot] at hs
    cases hs
    have hawake : ∀ u, ¬ (s.pc u).sleeps := fun u hu => by
      rcases hC with hC | hC
      · exact hu.elim (hC u).1 (hC u).2
      · cases hC.symm.trans (congrArg Option.isSome hnot)
    refine ⟨bs ++ [byte], { h with holds := hholds, empty := nofun, recorded := fun u => ?_,
                                   sleepers := fun u hu => absurd hu (hawake u) },
      fun u hu => absurd hu (hawake u)⟩
    exact (hnot ▸ h.recorded u :)
  | some v =>
    rw [hnot] at hs
    cases hs
    obtain rfl := h.empty (congrArg Option.isSome hnot)
    have hpc := (h.recorded v).mp hnot
    have hholder : s.holder = some v := (h.holder v).mpr (.inl hpc)
    refine ⟨[byte], { h with holds := hholds, empty := nofun, recorded := fun u => ?_,
                             holder := fun u => ?_, sleepers := fun _ _ => Nat.le_refl 1,
                             waiters := h.waiters_update _ hpc nofun },
      fun u _ hnone => nomatch hholder.symm.trans hnone⟩
    all_goals simp only [Readers.setPc, update_apply]
    · refine iff_of_false nofun ?_
      split
      · exact nofun
      · next hne =>
        intro hu
        cases hnot.symm.trans ((h.recorded u).mpr hu)
        exact hne rfl
    · split
      · next heq => simp [heq, hholder, Pc.holds]
      · exact h.holder u

end

end Inv

variable {s s' : Readers τ} [DecidableEq τ]

theorem readersStep_inv {e : Event τ} (h : Inv s bs) (htold : Told s bs) (hC : Prompt s e)
    (hs : readersStep s e = some s') : ∃ bs', Inv s' bs' ∧ Told s' bs' := by
  cases e with
  | call t =>
    obtain ⟨hpc, rfl⟩ := of_guard hs
    exact h.loop hpc
  | run t =>
    simp only [readersStep] at hs
    split at hs
    · next hpc =>
      cases hs
      exact ⟨bs, (h.resume hpc).semaDown (update_self ..) (h.sleepers t (.inr hpc))
        (htold t (.inr hpc))⟩
    · next hpc =>
      cases hs
      obtain ⟨hinv, hout⟩ := h.lockRelease hpc
      exact hinv.loop hout
    · contradiction
  | put byte => exact h.put hC hs

/-- **Readers are safe in every run in which bytes do not arrive while a thread sleeps for
the lock**, except when the queue has a waiting thread. -/
theorem intq_safe_of_prompt (h : (readers τ).ReachIn Prompt s) : Safe s := by
  obtain ⟨bs, hinv, -⟩ := h.invariant (I := fun s => ∃ bs, Inv s bs ∧ Told s bs)
    (by
      rintro _ ⟨buf, rfl⟩
      exact ⟨[], ⟨rfl, holds_init buf, nofun, fun _ => iff_of_false nofun nofun,
        fun _ => iff_of_false nofun nofun, rfl, nodup_nil, nofun, nofun⟩, nofun⟩)
    fun _ _ _ ⟨_, hinv, htold⟩ hC hs => readersStep_inv hinv htold hC hs
  exact hinv.safe

instance (s : Readers Bool) : ∀ e, Decidable (Prompt s e) := by
  rintro ⟨⟩ <;> unfold Prompt <;> infer_instance

/-- Two threads wait for a byte; the first gets one and the second goes on waiting. -/
theorem intq_safe_of_prompt_two : ∃ s, (readers Bool).ReachIn Prompt s ∧
    s.q.notEmpty = some true ∧ Safe s := by
  obtain ⟨s, -, hs, hp⟩ := Machine.exists_reachIn_of_runIn (m := readers Bool) (C := Prompt)
    ⟨fun _ => 0, rfl⟩ [.call false, .call true, .put 7, .run false, .run true]
    (fun s => s.q.notEmpty = some true) (by decide +kernel)
  exact ⟨s, hs, hp, intq_safe_of_prompt hs⟩

end Intq

end Pintos

