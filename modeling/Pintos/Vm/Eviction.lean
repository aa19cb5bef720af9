import Pintos.Threads.Vaddr
import Pintos.Vm.Program

/-!
# Pintos.Vm.Eviction

One page of a process, between its frame and its swap slot.

```
frame_evict:  8 × block_write (sector of the frame);  push the entry, clear the page-table entry
page_fault:   new frame, set the page-table entry, remove the entry;  8 × block_read
```

The process stores to the page whenever its page-table entry is present and it
is not in `page_fault` itself; `frame_evict` is run by another thread and may be
anywhere in between.  The entry is cleared after the copy, so a store to a sector
that has been written already is not in the slot.

The contents of a page are a function of the offset, with values in `V`.
-/

namespace Pintos.Eviction

open Function

variable {V : Type*}

/-! ## the page -/

/-- `evicting` and `reading` are the number of sectors that have been
transferred and the contents of the slot.  `swapTable` has the slots of the
page's entries in the order of the list.  History: `stored` is what the process
has stored last at each offset. -/
structure PageSys (V : Type*) where
  present : Bool
  frame : Nat → V
  swapTable : List (Nat → V)
  evicting : Option (Nat × (Nat → V))
  reading : Option (Nat × (Nat → V))
  stored : Nat → V

/-- `evict slot` is the start of `frame_evict` with a slot of these contents and
`fault frame` that of `page_fault` with a frame of these contents; `evictStep`
and `readStep` are their next steps. -/
inductive PageAct (V : Type*)
  | store (ofs : Nat) (v : V)
  | evict (slot : Nat → V)
  | evictStep
  | fault (frame : Nat → V)
  | readStep

/-- The transfer of one sector. -/
def copySector (i : Nat) (src dst : Nat → V) : Nat → V := fun ofs =>
  if ofs / blockSectorSize = i then src ofs else dst ofs

def pageStep (s : PageSys V) : PageAct V → Option (PageSys V)
  | .store ofs v =>
    if s.present ∧ s.reading.isNone ∧ ofs < pgsize then
      some { s with
        frame := update s.frame ofs v
        stored := update s.stored ofs v }
    else
      none
  | .evict slot =>
    if s.present ∧ s.evicting.isNone then some { s with evicting := some (0, slot) } else none
  | .evictStep =>
    match s.evicting with
    | none => none
    | some (i, slot) =>
      if i < sectorCount then
        some { s with evicting := some (i + 1, copySector i s.frame slot) }
      else
        some { s with
          swapTable := s.swapTable ++ [slot]
          present := false
          evicting := none }
  | .fault frame =>
    if s.present ∨ s.reading.isSome then
      none
    else
      match s.swapTable with
      | [] => none
      | slot :: rest =>
        some { s with
          present := true
          frame := frame
          swapTable := rest
          reading := some (0, slot) }
  | .readStep =>
    match s.reading with
    | none => none
    | some (i, slot) =>
      if i < sectorCount then
        some { s with frame := copySector i slot s.frame, reading := some (i + 1, slot) }
      else
        some { s with reading := none }

/-- A page that has just been mapped. -/
def mappedPage (contents : Nat → V) : PageSys V where
  present := true
  frame := contents
  swapTable := []
  evicting := none
  reading := none
  stored := contents

def pageMachine (V : Type*) : Machine (PageSys V) (PageAct V) where
  init s := ∃ contents, s = mappedPage contents
  step := pageStep

/-- When the process gets at the page it finds what it has stored. -/
def StoresKept (s : PageSys V) : Prop :=
  s.present = true → s.reading = none → ∀ ofs, ofs < pgsize → s.frame ofs = s.stored ofs

/-! ## a store that is lost -/

/-- The process stores to the first sector after it has been written to swap,
and faults the page in again. -/
def storeBehindCopy : List (PageAct Bool) :=
  [.evict fun _ => false, .evictStep, .store 0 true] ++ List.replicate 8 .evictStep ++
    [.fault fun _ => false] ++ List.replicate 9 .readStep

theorem store_lost_by_eviction : ∃ s : PageSys Bool,
    (pageMachine Bool).runFrom (mappedPage fun _ => false) storeBehindCopy = some s ∧
      (pageMachine Bool).Reach s ∧ s.present = true ∧ s.reading = none ∧ s.stored 0 = true ∧
      s.frame 0 = false ∧ ¬ StoresKept s := by
  obtain ⟨s, hrun, hs, hpresent, hreading, hstored, hframe⟩ := Machine.exists_reach_of_runFrom
    (m := pageMachine Bool) ⟨fun _ => false, rfl⟩ storeBehindCopy
    (fun s => s.present = true ∧ s.reading.isNone = true ∧ s.stored 0 = true ∧ s.frame 0 = false)
    (by decide +kernel)
  have hnone : s.reading = none := Option.isNone_iff_eq_none.mp hreading
  refine ⟨s, hrun, hs, hpresent, hnone, hstored, hframe, fun h => ?_⟩
  have hkept := h hpresent hnone 0 (by decide)
  rw [hstored, hframe] at hkept
  contradiction

/-! ## stores ahead of the copy -/

/-- While the page is being evicted the process only stores to sectors that have
not been written yet, and a page is not evicted while it is being read in. -/
def AheadOfCopy (s : PageSys V) : PageAct V → Prop
  | .store ofs _ => ∀ p ∈ s.evicting, p.1 ≤ ofs / blockSectorSize
  | .evict _ => s.reading.isNone = true
  | _ => True

instance (s : PageSys V) : ∀ a, Decidable (AheadOfCopy s a) := by
  rintro ⟨⟩ <;> unfold AheadOfCopy <;> infer_instance

/-- Two pages agree on the first `n` sectors. -/
def AgreeTo (n : Nat) (c d : Nat → V) : Prop :=
  ∀ ofs, ofs < pgsize → ofs / blockSectorSize < n → c ofs = d ofs

/-- Where the page is, and that it is what the process has stored. -/
inductive Kept : PageSys V → Prop
  | mapped {s : PageSys V} (hpresent : s.present = true) (hreading : s.reading = none)
      (hevicting : s.evicting = none) (htable : s.swapTable = [])
      (hframe : AgreeTo sectorCount s.frame s.stored) : Kept s
  | evicting {s : PageSys V} {i : Nat} {slot : Nat → V} (hpresent : s.present = true)
      (hreading : s.reading = none) (hevicting : s.evicting = some (i, slot))
      (htable : s.swapTable = []) (hframe : AgreeTo sectorCount s.frame s.stored)
      (hslot : AgreeTo i slot s.stored) : Kept s
  | evicted {s : PageSys V} {slot : Nat → V} (hpresent : s.present = false)
      (hreading : s.reading = none) (hevicting : s.evicting = none) (htable : s.swapTable = [slot])
      (hslot : AgreeTo sectorCount slot s.stored) : Kept s
  | reading {s : PageSys V} {i : Nat} {slot : Nat → V} (hpresent : s.present = true)
      (hreading : s.reading = some (i, slot)) (hevicting : s.evicting = none)
      (htable : s.swapTable = []) (hslot : AgreeTo sectorCount slot s.stored)
      (hframe : AgreeTo i s.frame slot) : Kept s

section Agree

variable {n i ofs : Nat} {b c d : Nat → V} {v : V}

theorem agreeTo_zero (c d : Nat → V) : AgreeTo 0 c d := fun _ _ h => absurd h (Nat.not_lt_zero _)

theorem AgreeTo.mono (h : AgreeTo n c d) (hi : i ≤ n) : AgreeTo i c d :=
  fun ofs hofs hlt => h ofs hofs (Nat.lt_of_lt_of_le hlt hi)

theorem AgreeTo.trans (h : AgreeTo n b c) (h' : AgreeTo n c d) : AgreeTo n b d :=
  fun ofs hofs hlt => (h ofs hofs hlt).trans (h' ofs hofs hlt)

theorem AgreeTo.all (h : AgreeTo sectorCount c d) (hofs : ofs < pgsize) : c ofs = d ofs := by
  refine h ofs hofs ?_
  rw [pgsize] at hofs
  rw [sectorCount, blockSectorSize]
  omega

/-- A store that both pages get. -/
theorem AgreeTo.update_both (h : AgreeTo n c d) : AgreeTo n (update c ofs v) (update d ofs v) := by
  intro o ho hlt
  by_cases heq : o = ofs
  · rw [heq, update_self, update_self]
  · rw [update_of_ne heq, update_of_ne heq, h o ho hlt]

theorem AgreeTo.update_right (h : AgreeTo n c d) (hofs : n ≤ ofs / blockSectorSize) :
    AgreeTo n c (update d ofs v) := by
  intro o ho hlt
  have heq : o ≠ ofs := by
    rintro rfl
    omega
  rw [update_of_ne heq, h o ho hlt]

theorem AgreeTo.copySector (h : AgreeTo i b d) (hall : AgreeTo sectorCount c d) :
    AgreeTo (i + 1) (copySector i c b) d := by
  intro o ho hlt
  unfold Eviction.copySector
  split
  · exact hall.all ho
  · next hne => exact h o ho (by omega)

end Agree

variable {s s' : PageSys V} {a : PageAct V}

theorem Kept.store {ofs : Nat} {v : V} (h : Kept s) (hc : AheadOfCopy s (.store ofs v))
    (hs : pageStep s (.store ofs v) = some s') : Kept s' := by
  obtain ⟨hguard, rfl⟩ := of_guard hs
  cases h with
  | mapped hpresent hreading hevicting htable hframe =>
    exact .mapped hpresent hreading hevicting htable hframe.update_both
  | evicting hpresent hreading hevicting htable hframe hslot =>
    have hahead := hc _ hevicting
    exact .evicting hpresent hreading hevicting htable hframe.update_both
      (hslot.update_right hahead)
  | evicted hpresent hreading hevicting htable hslot =>
    rw [hpresent] at hguard
    exact absurd hguard.1 Bool.false_ne_true
  | reading hpresent hreading hevicting htable hslot hframe =>
    rw [hreading] at hguard
    exact absurd hguard.2.1 Bool.false_ne_true

theorem Kept.evict {slot : Nat → V} (h : Kept s) (hc : AheadOfCopy s (.evict slot))
    (hs : pageStep s (.evict slot) = some s') : Kept s' := by
  obtain ⟨hguard, rfl⟩ := of_guard hs
  cases h with
  | mapped hpresent hreading hevicting htable hframe =>
    exact .evicting hpresent hreading rfl htable hframe (agreeTo_zero slot s.stored)
  | evicting hpresent hreading hevicting htable hframe hslot =>
    rw [hevicting] at hguard
    exact absurd hguard.2 Bool.false_ne_true
  | evicted hpresent hreading hevicting htable hslot =>
    rw [hpresent] at hguard
    exact absurd hguard.1 Bool.false_ne_true
  | reading hpresent hreading hevicting htable hslot hframe =>
    have hnone : s.reading.isNone = true := hc
    rw [hreading] at hnone
    exact absurd hnone Bool.false_ne_true

theorem Kept.evictStep (h : Kept s) (hs : pageStep s .evictStep = some s') : Kept s' := by
  simp only [pageStep] at hs
  cases h with
  | @evicting i slot hpresent hreading hevicting htable hframe hslot =>
    simp only [hevicting] at hs
    split at hs
    · cases hs
      exact .evicting hpresent hreading rfl htable hframe (hslot.copySector hframe)
    · next hi =>
      cases hs
      refine .evicted rfl hreading rfl ?_ (hslot.mono (Nat.le_of_not_lt hi))
      rw [htable, List.nil_append]
  | mapped _ _ hevicting | evicted _ _ hevicting | reading _ _ hevicting =>
    simp only [hevicting] at hs; contradiction

theorem Kept.fault {frame : Nat → V} (h : Kept s) (hs : pageStep s (.fault frame) = some s') :
    Kept s' := by
  simp only [pageStep] at hs
  cases h with
  | @evicted slot hpresent hreading hevicting htable hslot =>
    rw [if_neg (by simp [hpresent, hreading])] at hs
    simp only [htable] at hs
    cases hs
    exact .reading rfl rfl hevicting rfl hslot (agreeTo_zero frame slot)
  | mapped hpresent => simp [hpresent] at hs
  | evicting hpresent => simp [hpresent] at hs
  | reading hpresent => simp [hpresent] at hs

theorem Kept.readStep (h : Kept s) (hs : pageStep s .readStep = some s') : Kept s' := by
  simp only [pageStep] at hs
  cases h with
  | @reading i slot hpresent hreading hevicting htable hslot hframe =>
    simp only [hreading] at hs
    split at hs
    · cases hs
      exact .reading hpresent rfl hevicting htable hslot
        (hframe.copySector fun _ _ _ => rfl)
    · next hi =>
      cases hs
      exact .mapped hpresent rfl hevicting htable
        ((hframe.mono (Nat.le_of_not_lt hi)).trans hslot)
  | mapped _ hreading | evicting _ hreading | evicted _ hreading =>
    simp only [hreading] at hs; contradiction

/-- **Step lemma**. -/
theorem Kept.step (h : Kept s) (hc : AheadOfCopy s a) (hs : pageStep s a = some s') : Kept s' := by
  cases a with
  | store ofs v => exact h.store hc hs
  | evict slot => exact h.evict hc hs
  | evictStep => exact h.evictStep hs
  | fault frame => exact h.fault hs
  | readStep => exact h.readStep hs

theorem Kept.storesKept (h : Kept s) : StoresKept s := by
  intro hp hr ofs hofs
  cases h with
  | mapped hpresent hreading hevicting htable hframe => exact hframe.all hofs
  | evicting hpresent hreading hevicting htable hframe hslot => exact hframe.all hofs
  | evicted hpresent => rw [hp] at hpresent; contradiction
  | reading hpresent hreading => rw [hr] at hreading; contradiction

/-- **No store is lost** in the runs in which the process stores ahead of the copy. -/
theorem stores_kept_of_aheadOfCopy (s : PageSys V) (h : (pageMachine V).ReachIn AheadOfCopy s) :
    StoresKept s := by
  have hkept : Kept s := by
    refine h.invariant ?_ fun _ _ _ hk hc hs => hk.step hc hs
    rintro _ ⟨contents, rfl⟩
    exact .mapped rfl rfl rfl rfl fun _ _ _ => rfl
  exact hkept.storesKept

/-- A store to the last sector while the first has been written is found again. -/
theorem stores_kept_of_aheadOfCopy_last_sector :
    ∃ s : PageSys Bool, s.stored 4095 = true ∧ s.present = true ∧ s.reading.isNone = true ∧
      StoresKept s := by
  obtain ⟨s, -, hs, hstored, hpresent, hreading⟩ := Machine.exists_reachIn_of_runIn
    (m := pageMachine Bool) (C := AheadOfCopy) ⟨fun _ => false, rfl⟩
    ([.evict fun _ => false, .evictStep, .store 4095 true] ++ List.replicate 8 .evictStep ++
      [.fault fun _ => false] ++ List.replicate 9 .readStep)
    (fun s => s.stored 4095 = true ∧ s.present = true ∧ s.reading.isNone = true) (by decide +kernel)
  exact ⟨s, hstored, hpresent, hreading, stores_kept_of_aheadOfCopy s hs⟩

end Pintos.Eviction
