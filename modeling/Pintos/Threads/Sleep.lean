import Pintos.Threads.SchedulerInv

/-!
# Pintos.Threads.Sleep

The sleepers: insertions into `blocked_list` by the `list_insert_ordered` of `timer_sleep`
(`devices/timer.c`) and calls of `unblock_thread_with_enough_ticks` (`threads/thread.c`), in
any order.

An insertion is one step here, with the `thread_block` behind it.  What a timer interrupt
between the two does is in `Pintos.Threads.Scheduler`.
-/

namespace Pintos.Sleep

open Function List Option

/-! ## the machine -/

/-- The scheduler's state, with the number of insertions and each thread's place among them. -/
structure SleepSys extends SchedSys where
  stamp : Thread → Nat
  count : Nat

/-- `list_insert_ordered` with `compare_thread`, of a thread that then blocks. -/
def insertOrdered (s : SchedSys) (t : Thread) (blockedTicks : Int) : SchedSys :=
  let s := { s with
    cur := t
    status := update s.status t (some .blocked)
    blockedTicks := update s.blockedTicks t blockedTicks }
  { s with blockedList := insertBefore (sleepPosition s) t s.blockedList }

/-- `unblock_thread_with_enough_ticks`. -/
def unblockThreadWithEnoughTicks (s : SchedSys) (ticks : Int) : SchedSys :=
  repeatedCheckBlockedList { s with ticks } s.blockedList

/-- A thread goes to sleep, the sleepers are checked, or the first thread of `ready_list` is
taken to run. -/
inductive SleepAct
  | insert (t : Thread) (blockedTicks : Int)
  | unblock (ticks : Int)
  | next

/-- A step.  A thread that goes to sleep is on neither list, and time passes between checks. -/
def SleepSys.step (s : SleepSys) : SleepAct → Option SleepSys
  | .insert t blockedTicks =>
    if t ∈ s.blockedList ∨ t ∈ s.readyList then
      none
    else
      some ⟨insertOrdered s.toSchedSys t blockedTicks, update s.stamp t s.count, s.count + 1⟩
  | .unblock ticks =>
    if s.ticks < ticks then
      some { s with toSchedSys := unblockThreadWithEnoughTicks s.toSchedSys ticks }
    else
      none
  | .next => some { s with readyList := s.readyList.tail }

/-- The machine, which begins without sleepers. -/
def sleepMachine : Machine SleepSys SleepAct where
  init s := s.blockedList = [] ∧ s.panic = false
  step := SleepSys.step

/-! ## order -/

variable {s s' : SleepSys} {t : Thread} {l : List Thread}

/-- `t` wakes before `u`: its deadline is earlier, or it has the same and was inserted before. -/
def SleepSys.Before (s : SleepSys) (t u : Thread) : Prop :=
  s.blockedTicks t < s.blockedTicks u ∨
    s.blockedTicks t = s.blockedTicks u ∧ s.stamp t < s.stamp u

structure SleepSys.Inv (s : SleepSys) : Prop where
  sorted : s.blockedList.Pairwise s.Before
  stamp_lt : ∀ t ∈ s.blockedList, s.stamp t < s.count
  blocked : ∀ t ∈ s.blockedList, s.status t = some .blocked
  panic : s.panic = false

theorem SleepSys.Inv.nodup (h : s.Inv) : s.blockedList.Nodup :=
  h.sorted.imp fun hbefore heq => by
    subst heq
    unfold SleepSys.Before at hbefore
    omega

/-- A list stays in order when an element is inserted before the first that is to come later. -/
theorem pairwise_insertBefore {R : Thread → Thread → Prop} {later : Thread → Bool}
    (hl : l.Pairwise R) (hnodup : l.Nodup)
    (hlater : ∀ a ∈ l, ∀ b ∈ l, later a = true → R a b → later b = true)
    (hbefore : ∀ a ∈ l, later a = false → R a t) (hafter : ∀ a ∈ l, later a = true → R t a) :
    (insertBefore (l.find? later) t l).Pairwise R := by
  induction l with
  | nil => exact pairwise_singleton R t
  | cons x xs ih =>
    obtain ⟨hx, hxs⟩ := pairwise_cons.mp hl
    obtain ⟨hxnot, hnodup'⟩ := nodup_cons.mp hnodup
    have hmem := fun {y} (hy : y ∈ xs) => mem_cons_of_mem x hy
    have hself : x ∈ x :: xs := mem_cons_self ..
    cases hlate : later x with
    | true =>
      have hinsert : insertBefore ((x :: xs).find? later) t (x :: xs) = t :: x :: xs := by
        simp [insertBefore, hlate]
      rw [hinsert]
      refine pairwise_cons.mpr ⟨fun y hy => hafter y hy ?_, hl⟩
      rcases mem_cons.mp hy with rfl | hy'
      · exact hlate
      · exact hlater x hself y hy hlate (hx y hy')
    | false =>
      have hinsert : insertBefore ((x :: xs).find? later) t (x :: xs) =
          x :: insertBefore (xs.find? later) t xs := by
        rw [find?_cons, hlate]
        cases hfind : xs.find? later with
        | none => rfl
        | some e =>
          have hne : x ≠ e := fun heq => hxnot (heq ▸ mem_of_find?_eq_some hfind)
          simp [insertBefore, hne]
      rw [hinsert]
      refine pairwise_cons.mpr ⟨fun y hy => ?_, ih hxs hnodup'
        (fun a ha b hb => hlater a (hmem ha) b (hmem hb)) (fun a ha => hbefore a (hmem ha))
        fun a ha => hafter a (hmem ha)⟩
      rcases mem_cons.mp ((insertBefore_perm _ t xs).mem_iff.mp hy) with rfl | hy
      · exact hbefore x hself hlate
      · exact hx y hy

theorem SleepSys.Inv.insert (h : s.Inv) (hnot : t ∉ s.blockedList) (blockedTicks : Int) :
    SleepSys.Inv ⟨insertOrdered s.toSchedSys t blockedTicks, update s.stamp t s.count,
      s.count + 1⟩ := by
  have hne : ∀ a ∈ s.blockedList, a ≠ t := fun a ha heq => hnot (heq ▸ ha)
  have hmem : ∀ a, a ∈ (insertOrdered s.toSchedSys t blockedTicks).blockedList →
      a = t ∨ a ∈ s.blockedList := fun a ha =>
    mem_cons.mp ((insertBefore_perm _ t s.blockedList).mem_iff.mp ha)
  refine ⟨pairwise_insertBefore (h.sorted.imp_of_mem fun {a b} ha hb hbefore => ?_) h.nodup ?_ ?_
    ?_, fun a ha => ?_, fun a ha => ?_, h.panic⟩
  all_goals
    simp only [SleepSys.Before, insertOrdered, update_self, decide_eq_true_eq,
      decide_eq_false_iff_not]
  · simpa [SleepSys.Before, hne a ha, hne b hb] using hbefore
  · intro a ha b hb
    simp only [ne_eq, hne a ha, hne b hb, not_false_eq_true, update_of_ne]
    omega
  · intro a ha
    have hlt := h.stamp_lt a ha
    simp only [ne_eq, hne a ha, not_false_eq_true, update_of_ne]
    omega
  · exact fun a ha hlt => .inl hlt
  · rcases hmem a ha with rfl | ha
    · simp
    · simpa [hne a ha] using Nat.lt_succ_of_lt (h.stamp_lt a ha)
  · rcases hmem a ha with rfl | ha
    · simp
    · simpa [hne a ha] using h.blocked a ha

/-! ## waking -/

/-- The threads of a list whose deadline has come are made ready, and the others are left. -/
def wake (s : SchedSys) (l : List Thread) : SchedSys :=
  { s with
    blockedList := l.filter fun t => s.ticks < s.blockedTicks t
    readyList := s.readyList ++ l.filter fun t => s.blockedTicks t ≤ s.ticks
    status := fun t => if t ∈ l ∧ s.blockedTicks t ≤ s.ticks then some .ready else s.status t }

theorem wake_eq_self {s : SchedSys} (hl : s.blockedList = l)
    (hall : ∀ t ∈ l, s.ticks < s.blockedTicks t) : wake s l = s := by
  have hkeep : l.filter (fun t => s.ticks < s.blockedTicks t) = s.blockedList :=
    (filter_eq_self.mpr fun t ht => decide_eq_true (hall t ht)).trans hl.symm
  have hnone : l.filter (fun t => s.blockedTicks t ≤ s.ticks) = [] :=
    filter_eq_nil_iff.mpr fun t ht => by simpa using hall t ht
  have hstatus : (fun t => if t ∈ l ∧ s.blockedTicks t ≤ s.ticks then some .ready
      else s.status t) = s.status :=
    funext fun t => if_neg fun ht => Int.not_le.mpr (hall t ht.1) ht.2
  rw [wake, hkeep, hnone, hstatus, append_nil]

/-- **`repeated_check_blocked_list`** on a list in the order of deadlines. -/
theorem repeatedCheckBlockedList_eq (s : SchedSys) (hl : s.blockedList = l) (hnodup : l.Nodup)
    (hsorted : l.Pairwise fun t u => s.blockedTicks t ≤ s.blockedTicks u)
    (hblocked : ∀ t ∈ l, s.status t = some .blocked) (hpanic : s.panic = false) :
    repeatedCheckBlockedList s l = wake s l := by
  induction l generalizing s with
  | nil => exact (wake_eq_self hl nofun).symm
  | cons t ts ih =>
    obtain ⟨ht, hts⟩ := pairwise_cons.mp hsorted
    obtain ⟨hnot, hnodup⟩ := nodup_cons.mp hnodup
    rw [repeatedCheckBlockedList]
    split
    · next hle =>
      have hun : threadUnblock { s with blockedList := ts } t =
          { s with
            blockedList := ts
            readyList := s.readyList ++ [t]
            status := update s.status t (some .ready) } :=
        if_pos (hblocked t (mem_cons_self ..))
      have hblocked' : ∀ u ∈ ts, update s.status t (some .ready) u = some .blocked := by
        intro u hu
        have hne : u ≠ t := fun heq => hnot (heq ▸ hu)
        rw [update_of_ne hne, hblocked u (mem_cons_of_mem t hu)]
      have hlt : ¬ s.ticks < s.blockedTicks t := Int.not_lt.mpr hle
      have hrest := ih (threadUnblock { s with blockedList := ts } t)
      rw [hun] at hrest ⊢
      dsimp only
      rw [if_neg (Bool.eq_false_iff.mp hpanic), hrest rfl hnodup hts hblocked' hpanic]
      simp only [wake, filter_cons, hle, hlt, decide_true, decide_false, if_true,
        Bool.false_eq_true, if_false, append_assoc, singleton_append]
      congr 1
      funext u
      by_cases hu : u = t
      · simp [hu, hnot, hle]
      · simp [hu]
    · next hgt =>
      refine (wake_eq_self hl fun u hu => ?_).symm
      rcases mem_cons.mp hu with rfl | hu
      · exact Int.not_le.mp hgt
      · exact Int.lt_of_lt_of_le (Int.not_le.mp hgt) (ht u hu)

theorem SleepSys.Inv.unblock (h : s.Inv) (ticks : Int) :
    unblockThreadWithEnoughTicks s.toSchedSys ticks =
      wake { s.toSchedSys with ticks } s.blockedList := by
  refine repeatedCheckBlockedList_eq _ rfl h.nodup (h.sorted.imp fun hbefore => ?_) h.blocked h.panic
  unfold SleepSys.Before at hbefore
  dsimp only
  omega

theorem sleepMachine_inv (h : sleepMachine.Reach s) : s.Inv := by
  refine h.invariant (fun s hinit => ?_) fun s a s' hinv _ hstep => ?_
  · have hnil : ∀ t, t ∉ s.blockedList := by simp [hinit.1]
    exact ⟨by simp [hinit.1], fun t ht => absurd ht (hnil t), fun t ht => absurd ht (hnil t),
      hinit.2⟩
  · cases a with
    | insert t blockedTicks =>
      obtain ⟨hnot, heq⟩ := ite_none_left_eq_some.mp hstep
      exact some.inj heq ▸ hinv.insert (fun ht => hnot (.inl ht)) blockedTicks
    | unblock ticks =>
      obtain ⟨-, heq⟩ := ite_none_right_eq_some.mp hstep
      cases heq
      rw [hinv.unblock]
      refine ⟨hinv.sorted.filter _, fun t ht => ?_, fun t ht => ?_, hinv.panic⟩
      · exact hinv.stamp_lt t (mem_of_mem_filter ht)
      · obtain ⟨hmem, hlt⟩ := mem_filter.mp ht
        have hnot : ¬ s.blockedTicks t ≤ ticks := Int.not_le.mpr (of_decide_eq_true hlt)
        exact (if_neg fun hw => hnot hw.2).trans (hinv.blocked t hmem)
    | next =>
      cases hstep
      exact { hinv with }

end Pintos.Sleep
