import Pintos.Kernel.Bitmap
import Pintos.Vm.Program

/-!
# Pintos.Vm.Swap

The swap device (`vm/swap.c`) with its two records of which slots are in use:
the bitmap `bmap` and the list `swap_table`.

```
write_to_swap:   [scan bmap, set 8 bits]; 8 × block_write;  frame_evict pushes the entry
read_from_swap:  lookup_swap; [clear 8 bits, remove the entry]; 8 × block_read
exit:            removes the entries of the process
```

A section in brackets holds `swap_lock`.  It is one step, as are a transfer of
one sector and an operation on `swap_table`; any number of threads are in these
functions at the same time.  A failed `ASSERT` and an access past the end of the
device stop the kernel: the step is not enabled.

Threads are values of `τ` and the contents of a sector are values of `S`.
-/

namespace Pintos.Swap

open FirstFit
open Function Option

variable {τ S : Type*}

/-! ## the device -/

/-- The swap device and its bitmap. -/
structure SwapDev (S : Type*) where
  blockSize : Nat
  bmap : Bitmap
  disk : Nat → S

/-- `init_swap_block` on a device of `blockSize` sectors. -/
def initSwapBlock (blockSize : Nat) (disk : Nat → S) : SwapDev S :=
  ⟨blockSize, bitmapCreate (blockSize * 4 % sizeTSize), disk⟩

/-- The section of `write_to_swap` under `swap_lock`.  `BITMAP_ERROR` is not
tested for. -/
def allocSlot (bmap : Bitmap) : Option (Bitmap × Nat) :=
  (bitmapScan bmap 0 sectorCount false).bind fun start =>
    (bitmapSetMultiple bmap start sectorCount true).map fun bmap => (bmap, start)

/-- `block_write` with its `check_sector`. -/
def blockWrite (d : SwapDev S) (sector : Nat) (data : S) : Option (SwapDev S) :=
  if sector < d.blockSize then some { d with disk := update d.disk sector data } else none

/-- `block_read` with its `check_sector`. -/
def blockRead (d : SwapDev S) (sector : Nat) : Option S :=
  if sector < d.blockSize then some (d.disk sector) else none

/-- The loop of `write_to_swap`, `left` sectors before its end: the device when
it is left, and whether that is by returning. -/
def writeSectors (d : SwapDev S) (start : Nat) (page : Nat → S) (i : Nat) : Nat → SwapDev S × Bool
  | 0 => (d, true)
  | left + 1 =>
    match blockWrite d (start + i) (page i) with
    | some d => writeSectors d start page (i + 1) left
    | none => (d, false)

/-- A whole call of `write_to_swap`: the device afterwards and what is returned,
`none` for a panic. -/
def writeToSwap (d : SwapDev S) (page : Nat → S) : SwapDev S × Option Nat :=
  match allocSlot d.bmap with
  | none => (d, none)
  | some (bmap, start) =>
    match writeSectors { d with bmap := bmap } start page 0 sectorCount with
    | (d, true) => (d, some start)
    | (d, false) => (d, none)

/-! ## threads -/

/-- `struct swap_entry`.  The rest is history: which entry it is, in the order of
creation, and the page that `write_to_swap` was given. -/
structure SwapEntry (τ S : Type*) where
  uspage : Nat
  tBlongsTo : τ
  blockSector : Nat
  id : Nat
  given : Nat → S

/-- Where a thread is: outside, in `frame_evict` with `i` sectors written, past
the `lookup_swap` of `read_from_swap`, or with `i` sectors read. -/
inductive SwapPc (τ S : Type*)
  | idle
  | writing (uspage : Nat) (owner : τ) (page : Nat → S) (start i : Nat)
  | found (e : SwapEntry τ S) (frame : Nat → S)
  | reading (start i : Nat) (frame given : Nat → S)

/-- History: what a call of `read_from_swap` has stored into its frame, and the
page that the entry was made of. -/
structure Returned (S : Type*) where
  stored : Nat → S
  given : Nat → S

structure SwapSys (τ S : Type*) extends SwapDev S where
  swapTable : List (SwapEntry τ S)
  pc : τ → SwapPc τ S
  live : τ → Bool
  nextId : Nat
  returned : List (Returned S)

/-- `evict t uspage owner page` is the start of a `write_to_swap` by `t` for a
frame of `owner`; `fault t uspage frame` is the `lookup_swap` of a
`read_from_swap` into a frame with these contents. -/
inductive SwapAct (τ S : Type*)
  | create (t : τ)
  | evict (t : τ) (uspage : Nat) (owner : τ) (page : Nat → S)
  | fault (t : τ) (uspage : Nat) (frame : Nat → S)
  | run (t : τ)
  | exit (t : τ)
  | kill (t : τ)

variable [DecidableEq τ]

def SwapSys.setPc (s : SwapSys τ S) (t : τ) (pc : SwapPc τ S) : SwapSys τ S :=
  { s with pc := update s.pc t pc }

/-- `lookup_swap`. -/
def lookupSwap (s : SwapSys τ S) (t : τ) (uspage : Nat) : Option (SwapEntry τ S) :=
  s.swapTable.find? fun e => e.uspage = uspage ∧ e.tBlongsTo = t

/-- The section of `read_from_swap` under `swap_lock`. -/
def releaseSlot (s : SwapSys τ S) (t : τ) (e : SwapEntry τ S) (frame : Nat → S) :
    Option (SwapSys τ S) :=
  (bitmapSetMultiple s.bmap e.blockSector sectorCount false).map fun bmap =>
    { s with
      bmap := bmap
      swapTable := s.swapTable.filter fun e' => e'.id ≠ e.id
      pc := update s.pc t (.reading e.blockSector 0 frame e.given) }

/-- The next step of `t`. -/
def swapRun (s : SwapSys τ S) (t : τ) : Option (SwapSys τ S) :=
  match s.pc t with
  | .idle => none
  | .writing uspage owner page start i =>
    if i < sectorCount then
      (blockWrite s.toSwapDev (start + i) (page i)).map fun d =>
        { s with
          toSwapDev := d
          pc := update s.pc t (.writing uspage owner page start (i + 1)) }
    else
      some { s with
        swapTable := s.swapTable ++ [⟨uspage, owner, start, s.nextId, page⟩]
        nextId := s.nextId + 1
        pc := update s.pc t .idle }
  | .found e frame => releaseSlot s t e frame
  | .reading start i frame given =>
    if i < sectorCount then
      (blockRead s.toSwapDev (start + i)).map fun data =>
        s.setPc t (.reading start (i + 1) (update frame i data) given)
    else
      some { s with
        returned := s.returned ++ [⟨frame, given⟩]
        pc := update s.pc t .idle }

/-- `t` is alive and outside these functions. -/
def SwapSys.idle (s : SwapSys τ S) (t : τ) : Bool :=
  match s.pc t with
  | .idle => s.live t
  | _ => false

def swapStep (s : SwapSys τ S) : SwapAct τ S → Option (SwapSys τ S)
  | .create t =>
    if s.live t = false then some { s with live := update s.live t true } else none
  | .evict t uspage owner page =>
    if s.idle t then
      (allocSlot s.bmap).map fun slot =>
        { s with
          bmap := slot.1
          pc := update s.pc t (.writing uspage owner page slot.2 0) }
    else
      none
  | .fault t uspage frame =>
    if s.idle t then (lookupSwap s t uspage).map fun e => s.setPc t (.found e frame) else none
  | .run t => swapRun s t
  | .exit t =>
    if s.idle t then
      some { s with
        swapTable := s.swapTable.filter fun e => e.tBlongsTo ≠ t
        live := update s.live t false }
    else
      none
  | .kill t =>
    if s.idle t then some { s with live := update s.live t false } else none

def swapBoot (blockSize : Nat) (disk : Nat → S) : SwapSys τ S where
  toSwapDev := initSwapBlock blockSize disk
  swapTable := []
  pc _ := .idle
  live _ := false
  nextId := 0
  returned := []

/-- Swapping on a device of `blockSize` sectors. -/
def swapMachine (τ S : Type*) [DecidableEq τ] (blockSize : Nat) :
    Machine (SwapSys τ S) (SwapAct τ S) where
  init s := ∃ disk, s = swapBoot blockSize disk
  step := swapStep

/-! ## what a step can do -/

/-- The effect of a step, one constructor for each kind. -/
inductive SwapMove (s : SwapSys τ S) : SwapAct τ S → SwapSys τ S → Prop
  | create {t : τ} (hlive : s.live t = false) :
      SwapMove s (.create t) { s with live := update s.live t true }
  | alloc {t owner : τ} {uspage start : Nat} {page : Nat → S} (hpc : s.pc t = .idle)
      (hlive : s.live t = true) (hfirst : IsFirst s.bmap.bits s.bmap.bitCnt sectorCount start) :
      SwapMove s (.evict t uspage owner page) { s with
        bmap := { s.bmap with bits := fill s.bmap.bits sectorCount start true }
        pc := update s.pc t (.writing uspage owner page start 0) }
  | write {t owner : τ} {uspage start i : Nat} {page : Nat → S}
      (hpc : s.pc t = .writing uspage owner page start i) (hi : i < sectorCount)
      (hdev : start + i < s.blockSize) :
      SwapMove s (.run t) { s with
        disk := update s.disk (start + i) (page i)
        pc := update s.pc t (.writing uspage owner page start (i + 1)) }
  | push {t owner : τ} {uspage start i : Nat} {page : Nat → S}
      (hpc : s.pc t = .writing uspage owner page start i) (hi : sectorCount ≤ i) :
      SwapMove s (.run t) { s with
        swapTable := s.swapTable ++ [⟨uspage, owner, start, s.nextId, page⟩]
        nextId := s.nextId + 1
        pc := update s.pc t .idle }
  | lookup {t : τ} {uspage : Nat} {frame : Nat → S} {e : SwapEntry τ S} (hpc : s.pc t = .idle)
      (hlive : s.live t = true) (hmem : e ∈ s.swapTable) (hown : e.tBlongsTo = t) :
      SwapMove s (.fault t uspage frame) (s.setPc t (.found e frame))
  | release {t : τ} {frame : Nat → S} {e : SwapEntry τ S} (hpc : s.pc t = .found e frame)
      (hle : e.blockSector + sectorCount ≤ s.bmap.bitCnt) :
      SwapMove s (.run t) { s with
        bmap := { s.bmap with bits := fill s.bmap.bits sectorCount e.blockSector false }
        swapTable := s.swapTable.filter fun e' => e'.id ≠ e.id
        pc := update s.pc t (.reading e.blockSector 0 frame e.given) }
  | read {t : τ} {start i : Nat} {frame given : Nat → S}
      (hpc : s.pc t = .reading start i frame given) (hi : i < sectorCount) :
      SwapMove s (.run t)
        (s.setPc t (.reading start (i + 1) (update frame i (s.disk (start + i))) given))
  | ret {t : τ} {start i : Nat} {frame given : Nat → S}
      (hpc : s.pc t = .reading start i frame given) (hi : sectorCount ≤ i) :
      SwapMove s (.run t) { s with
        returned := s.returned ++ [⟨frame, given⟩]
        pc := update s.pc t .idle }
  | exit {t : τ} (hpc : s.pc t = .idle) (hlive : s.live t = true) :
      SwapMove s (.exit t) { s with
        swapTable := s.swapTable.filter fun e => e.tBlongsTo ≠ t
        live := update s.live t false }
  | kill {t : τ} (hpc : s.pc t = .idle) (hlive : s.live t = true) :
      SwapMove s (.kill t) { s with live := update s.live t false }

variable {s s' : SwapSys τ S} {a : SwapAct τ S} {t : τ} {bmap : Bitmap} {start : Nat} {owner : τ}
  {uspage blockSize : Nat} {page : Nat → S} {d : SwapDev S}

/-- `write_to_swap` allocates the first free slot, or does not return. -/
theorem allocSlot_eq_some {slot : Bitmap × Nat} (hsize : bmap.bitCnt < sizeTSize)
    (h : allocSlot bmap = some slot) : IsFirst bmap.bits bmap.bitCnt sectorCount slot.2 ∧
      slot.1 = { bmap with bits := fill bmap.bits sectorCount slot.2 true } := by
  obtain ⟨i, hscan, hset⟩ := bind_eq_some_iff.mp h
  obtain ⟨b, hb, rfl⟩ := map_eq_some_iff.mp hset
  rcases bitmapScan_spec hsize sectorCount with ⟨k, hk, hfirst⟩ | ⟨herr, -⟩
  · obtain rfl : k = i := some.inj (hk.symm.trans hscan)
    exact ⟨hfirst, (bitmapSetMultiple_eq_some hb).2⟩
  · obtain rfl : bitmapError = i := some.inj (herr.symm.trans hscan)
    rw [bitmapSetMultiple_bitmapError hsize (by decide)] at hb
    contradiction

theorem allocSlot_of_isFirst (hsize : bmap.bitCnt < sizeTSize)
    (h : IsFirst bmap.bits bmap.bitCnt sectorCount start) :
    allocSlot bmap = some ({ bmap with bits := fill bmap.bits sectorCount start true }, start) := by
  rcases bitmapScan_spec hsize sectorCount with ⟨k, hk, hfirst⟩ | ⟨-, hnone⟩
  · obtain rfl : k = start := Nat.le_antisymm (hfirst.least h.clear) (h.least hfirst.clear)
    rw [allocSlot, hk, bind_some, bitmapSetMultiple_of_le hsize h.fits, map_some]
  · exact absurd h.clear (hnone start h.fits)

theorem allocSlot_eq_none (hsize : bmap.bitCnt < sizeTSize)
    (h : ∀ i, i + sectorCount ≤ bmap.bitCnt → ¬ Clear bmap.bits sectorCount i) :
    allocSlot bmap = none := by
  cases hslot : allocSlot bmap with
  | none => rfl
  | some slot =>
    have hfirst := (allocSlot_eq_some hsize hslot).1
    exact absurd hfirst.clear (h slot.2 hfirst.fits)

omit [DecidableEq τ] in
theorem idle_iff : s.idle t = true ↔ s.pc t = .idle ∧ s.live t = true := by
  unfold SwapSys.idle
  split
  · next hpc => simp [hpc]
  · next hpc =>
    refine ⟨nofun, fun h => ?_⟩
    exact absurd h.1 (by simpa using hpc)

theorem swapMove_of_swapRun (hs : swapRun s t = some s') : SwapMove s (.run t) s' := by
  unfold swapRun at hs
  split at hs
  · contradiction
  · next uspage owner page start i hpc =>
    split at hs
    · next hi =>
      obtain ⟨d, hd, rfl⟩ := map_eq_some_iff.mp hs
      unfold blockWrite at hd
      obtain ⟨hdev, rfl⟩ := of_guard hd
      exact .write hpc hi hdev
    · next hi =>
      rw [← some.inj hs]
      exact .push hpc (Nat.le_of_not_lt hi)
  · next e frame hpc =>
    obtain ⟨bmap, hb, rfl⟩ := map_eq_some_iff.mp hs
    obtain ⟨hle, rfl⟩ := bitmapSetMultiple_eq_some hb
    exact .release hpc (hle.resolve_left nofun)
  · next start i frame given hpc =>
    split at hs
    · next hi =>
      obtain ⟨data, hd, rfl⟩ := map_eq_some_iff.mp hs
      unfold blockRead at hd
      obtain ⟨-, rfl⟩ := of_guard hd
      exact .read hpc hi
    · next hi =>
      rw [← some.inj hs]
      exact .ret hpc (Nat.le_of_not_lt hi)

theorem swapMove_of_swapStep (hsize : s.bmap.bitCnt < sizeTSize) (hs : swapStep s a = some s') :
    SwapMove s a s' := by
  cases a with
  | create t =>
    obtain ⟨hlive, rfl⟩ := of_guard hs
    exact .create hlive
  | evict t uspage owner page =>
    simp only [swapStep] at hs
    split at hs
    · next hidle =>
      obtain ⟨hpc, hlive⟩ := idle_iff.mp hidle
      obtain ⟨slot, hslot, rfl⟩ := map_eq_some_iff.mp hs
      obtain ⟨hfirst, hb⟩ := allocSlot_eq_some hsize hslot
      rw [hb]
      exact .alloc hpc hlive hfirst
    · contradiction
  | fault t uspage frame =>
    simp only [swapStep] at hs
    split at hs
    · next hidle =>
      obtain ⟨hpc, hlive⟩ := idle_iff.mp hidle
      obtain ⟨e, he, rfl⟩ := map_eq_some_iff.mp hs
      have hown := List.find?_some he
      rw [decide_eq_true_eq] at hown
      exact .lookup hpc hlive (List.mem_of_find?_eq_some he) hown.2
    · contradiction
  | run t => exact swapMove_of_swapRun hs
  | exit t =>
    simp only [swapStep] at hs
    split at hs
    · next hidle =>
      obtain ⟨hpc, hlive⟩ := idle_iff.mp hidle
      exact some.inj hs ▸ .exit hpc hlive
    · contradiction
  | kill t =>
    simp only [swapStep] at hs
    split at hs
    · next hidle =>
      obtain ⟨hpc, hlive⟩ := idle_iff.mp hidle
      exact some.inj hs ▸ .kill hpc hlive
    · contradiction

/-! ## a call without interruption -/

/-- The loop of `write_to_swap` when no other thread runs. -/
theorem runFrom_writeSectors
    (left : Nat) : ∀ {s : SwapSys τ S} {i : Nat}, s.pc t = .writing uspage owner page start i →
      i + left = sectorCount → writeSectors s.toSwapDev start page i left = (d, true) →
      (swapMachine τ S blockSize).runFrom s (List.replicate left (.run t)) = some { s with
        toSwapDev := d
        pc := update s.pc t (.writing uspage owner page start sectorCount) } := by
  induction left with
  | zero =>
    intro s i hpc hi hw
    obtain rfl : i = sectorCount := hi
    obtain ⟨hd, -⟩ := Prod.mk.inj hw
    rw [← hpc, update_eq_self, ← hd]
    rfl
  | succ left ih =>
    intro s i hpc hi hw
    unfold writeSectors at hw
    split at hw
    · next d' hd' =>
      have hstep : swapStep s (.run t) = some { s with
          toSwapDev := d'
          pc := update s.pc t (.writing uspage owner page start (i + 1)) } := by
        simp only [swapStep, swapRun, hpc]
        rw [if_pos (by omega), hd', map_some]
      rw [List.replicate_succ, Machine.runFrom_cons]
      change (swapStep s (.run t)).bind _ = _
      rw [hstep, bind_some, ih (update_self ..) (by omega) hw,
        update_idem]
    · cases hw

/-- `write_to_swap` is the steps of one thread with none of another in between. -/
theorem runFrom_writeToSwap
    (hidle : s.idle t = true) (hw : writeToSwap s.toSwapDev page = (d, some start)) :
    (swapMachine τ S blockSize).runFrom s
      (.evict t uspage owner page :: List.replicate sectorCount (.run t)) = some { s with
        toSwapDev := d
        pc := update s.pc t (.writing uspage owner page start sectorCount) } := by
  unfold writeToSwap at hw
  split at hw
  · cases hw
  · next bmap first halloc =>
    split at hw
    · next d' hsectors =>
      cases hw
      have hstep : swapStep s (.evict t uspage owner page) = some { s with
          bmap := bmap
          pc := update s.pc t (.writing uspage owner page start 0) } := by
        simp only [swapStep]
        rw [if_pos hidle, halloc, map_some]
      rw [Machine.runFrom_cons]
      change (swapStep s (.evict t uspage owner page)).bind _ = _
      rw [hstep, bind_some,
        runFrom_writeSectors sectorCount (update_self ..) (Nat.zero_add _) hsectors,
        update_idem]
    · cases hw

end Pintos.Swap
