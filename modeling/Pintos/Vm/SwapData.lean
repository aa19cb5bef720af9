import Pintos.Vm.SwapSlots

/-!
# Pintos.Vm.SwapData

What comes back from the swap device.

`read_from_swap` gives its slot back before it reads it.  A slot that is in use
keeps its data, since only the eviction that has taken it writes to it
(`SlotInv`); a slot that has been given back keeps them as long as nobody takes
it again.  First fit takes the lowest free slot, so a slot that is being read is
safe from the evictions that start while a lower one is free (`LowerFree`), and
from no others.
-/

namespace Pintos.Swap

open FirstFit
open Function List

variable {τ S : Type*}

/-- The slot that a thread is reading. -/
def SwapPc.readSlot : SwapPc τ S → Option Nat
  | .reading start _ _ _ => some start
  | _ => none

/-- Every call of `read_from_swap` that has returned has stored the page that
`write_to_swap` was given for the entry. -/
def RoundTrip (s : SwapSys τ S) : Prop :=
  ∀ r ∈ s.returned, ∀ i, i < sectorCount → r.stored i = r.given i

/-- Thread `0` faults its page in while thread `1` evicts one of its own: thread
`1` takes the slot and writes over the page before it is read. -/
theorem read_overtaken_by_write : ∃ s : SwapSys (Fin 2) Bool,
    (swapMachine (Fin 2) Bool 16).runFrom (swapBoot 16 fun _ => false)
      ([.create 0, .create 1] ++ evictOwn 0 (fun _ => true) ++
        [.fault 0 0 fun _ => false, .run 0] ++ evictOwn 1 (fun _ => false) ++
        replicate 9 (.run 0)) = some s ∧
      (swapMachine (Fin 2) Bool 16).Reach s ∧ s.returned.length = 1 ∧
      (∀ r ∈ s.returned, ∀ i, i < sectorCount → r.given i = true ∧ r.stored i = false) ∧
      ¬ RoundTrip s := by
  obtain ⟨s, hrun, hs, hlen, hdata⟩ := Machine.exists_reach_of_runFrom
    (m := swapMachine (Fin 2) Bool 16) ⟨fun _ => false, rfl⟩
    ([.create 0, .create 1] ++ evictOwn 0 (fun _ => true) ++ [.fault 0 0 fun _ => false, .run 0] ++
      evictOwn 1 (fun _ => false) ++ replicate 9 (.run 0))
    (fun s => s.returned.length = 1 ∧ ∀ r ∈ s.returned, ∀ i : Nat,
      i < sectorCount → r.given i = true ∧ r.stored i = false) (by decide +kernel)
  refine ⟨s, hrun, hs, hlen, hdata, fun h => ?_⟩
  obtain ⟨r, hr⟩ := exists_mem_of_length_pos (hlen ▸ Nat.zero_lt_one)
  obtain ⟨hgiven, hstored⟩ := hdata r hr 0 (by decide +kernel)
  rw [h r hr 0 (by decide), hgiven] at hstored
  contradiction

/-! ## slots that are read are not taken -/

/-- `write_to_swap` is called while there is a free slot below each slot that is
being read. -/
def LowerFree (s : SwapSys τ S) : SwapAct τ S → Prop
  | .evict _ _ _ _ => ∀ t, ∀ k ∈ (s.pc t).readSlot, ∃ j, j < k ∧ Clear s.bmap.bits sectorCount j
  | _ => True

instance [Fintype τ] (s : SwapSys τ S) : ∀ a, Decidable (LowerFree s a) := by
  rintro ⟨⟩ <;> unfold LowerFree <;> infer_instance

/-- Where the data are: on the device for an entry, on the device up to the
sector written last for an eviction, and in the frame up to the sector read last
and on the device from there on for a `read_from_swap`. -/
structure DataInv (s : SwapSys τ S) : Prop where
  free : ∀ {t k}, (s.pc t).readSlot = some k → sectorCount ∣ k ∧ s.bmap.bits k = false
  entry : ∀ {e}, e ∈ s.swapTable → ∀ j, j < sectorCount → s.disk (e.blockSector + j) = e.given j
  writer : ∀ {t uspage owner page start i}, s.pc t = .writing uspage owner page start i →
    ∀ j, j < i → j < sectorCount → s.disk (start + j) = page j
  reader : ∀ {t start i frame given}, s.pc t = .reading start i frame given →
    ∀ j, j < sectorCount → (j < i → frame j = given j) ∧ (i ≤ j → s.disk (start + j) = given j)
  returned : RoundTrip s

variable {s s' : SwapSys τ S} {a : SwapAct τ S} {t owner : τ} {e : SwapEntry τ S}
  {blockSize start i k uspage : Nat} {page frame given : Nat → S}

theorem dataInv_boot (blockSize : Nat) (disk : Nat → S) :
    DataInv (swapBoot blockSize disk : SwapSys τ S) := by
  constructor <;> simp [swapBoot, SwapPc.readSlot, RoundTrip]

variable [DecidableEq τ]

/-- A thread gets to a place where it transfers nothing. -/
theorem DataInv.move (h : DataInv s) (t : τ) (x : SwapPc τ S) (hr : x.readSlot = none)
    (hw : x.writeSlot = none) : DataInv { s with pc := update s.pc t x } where
  free hk := by
    rcases of_update SwapPc.readSlot hk with ⟨-, hx⟩ | ⟨-, hk⟩
    · cases hr.symm.trans hx
    · exact h.free hk
  entry := h.entry
  writer hpc := by
    rcases pc_of_update hpc with ⟨-, hx⟩ | ⟨-, hpc⟩
    · rw [hx] at hw
      contradiction
    · exact h.writer hpc
  reader hpc := by
    rcases pc_of_update hpc with ⟨-, hx⟩ | ⟨-, hpc⟩
    · rw [hx] at hr
      contradiction
    · exact h.reader hpc
  returned := h.returned

omit [DecidableEq τ] in
/-- Fewer entries, and processes that come and go. -/
theorem DataInv.sublist (h : DataInv s) {l : List (SwapEntry τ S)} (hl : l.Sublist s.swapTable)
    (live : τ → Bool) : DataInv { s with swapTable := l, live := live } :=
  { h with entry := fun he => h.entry (hl.subset he) }

theorem DataInv.alloc (h : DataInv s)
    (hfree : ∀ t, ∀ k ∈ (s.pc t).readSlot, ∃ j, j < k ∧ Clear s.bmap.bits sectorCount j)
    (hslot : SlotInv blockSize s) (hfirst : IsFirst s.bmap.bits s.bmap.bitCnt sectorCount start) :
    DataInv { s with
      bmap := { s.bmap with bits := fill s.bmap.bits sectorCount start true }
      pc := update s.pc t (.writing uspage owner page start 0) } where
  free {t' k} hk := by
    rcases of_update SwapPc.readSlot hk with ⟨-, hx⟩ | ⟨-, hk⟩
    · contradiction
    · obtain ⟨hdvd, hclear⟩ := h.free hk
      obtain ⟨j, hjk, hj⟩ := hfree t' k hk
      have hle : start ≤ j := hfirst.least hj
      have hdisj := disjoint_of_dvd (hfirst.dvd hslot.blocky sectorCount_pos) hdvd (by omega)
      refine ⟨hdvd, ?_⟩
      rw [← hclear]
      exact fill_of_not_mem (by omega)
  entry := h.entry
  writer hpc := by
    rcases pc_of_update hpc with ⟨-, hx⟩ | ⟨-, hpc⟩
    · cases hx
      exact fun j hj => absurd hj (Nat.not_lt_zero j)
    · exact h.writer hpc
  reader hpc := by
    rcases pc_of_update hpc with ⟨-, hx⟩ | ⟨-, hpc⟩
    · cases hx
    · exact h.reader hpc
  returned := h.returned

theorem disk_update_of_ne (hstart : sectorCount ∣ start) (hk : sectorCount ∣ k) (hne : k ≠ start)
    (hi : i < sectorCount) {j : Nat} (hj : j < sectorCount) (disk : Nat → S) (data : S) :
    update disk (start + i) data (k + j) = disk (k + j) := by
  have hdisj := disjoint_of_dvd hk hstart hne
  exact update_of_ne (by omega) ..

theorem DataInv.write (h : DataInv s) (hslot : SlotInv blockSize s)
    (hpc : s.pc t = .writing uspage owner page start i) (hi : i < sectorCount) :
    DataInv { s with
      disk := update s.disk (start + i) (page i)
      pc := update s.pc t (.writing uspage owner page start (i + 1)) } := by
  have hmine : (s.pc t).writeSlot = some start := by rw [hpc]; rfl
  have huse := hslot.writer hmine
  constructor
  case free =>
    intro t' k hk
    rcases of_update SwapPc.readSlot hk with ⟨-, hx⟩ | ⟨-, hk⟩
    · contradiction
    · exact h.free hk
  case entry =>
    intro e he j hj
    rw [← h.entry he j hj]
    exact disk_update_of_ne huse.dvd (hslot.entry he).dvd (hslot.writer_entry hmine he) hi hj ..
  case writer =>
    intro t' uspage' owner' page' start' i' hpc' j hji hj
    rcases pc_of_update hpc' with ⟨-, hx⟩ | ⟨hne, hpc'⟩
    · cases hx
      by_cases hlast : j = i
      · rw [hlast]
        exact update_self ..
      · rw [← h.writer hpc j (by omega) hj]
        exact update_of_ne (by omega) ..
    · have htheirs : (s.pc t').writeSlot = some start' := by rw [hpc']; rfl
      rw [← h.writer hpc' j hji hj]
      refine disk_update_of_ne huse.dvd (hslot.writer htheirs).dvd (fun heq => ?_) hi hj ..
      rw [heq] at htheirs
      exact hne (hslot.writers htheirs hmine)
  case reader =>
    intro t' start' i' frame given hpc' j hj
    rcases pc_of_update hpc' with ⟨-, hx⟩ | ⟨-, hpc'⟩
    · cases hx
    · obtain ⟨hdvd, hclear⟩ := h.free (by rw [hpc']; rfl)
      obtain ⟨hframe, hdisk⟩ := h.reader hpc' j hj
      refine ⟨hframe, fun hij => ?_⟩
      rw [← hdisk hij]
      refine disk_update_of_ne huse.dvd hdvd (fun heq => ?_) hi hj ..
      rw [heq, huse.set] at hclear
      contradiction
  case returned => exact h.returned

theorem DataInv.push (h : DataInv s) (hpc : s.pc t = .writing uspage owner page start i)
    (hi : sectorCount ≤ i) :
    DataInv { s with
      swapTable := s.swapTable ++ [⟨uspage, owner, start, s.nextId, page⟩]
      nextId := s.nextId + 1
      pc := update s.pc t .idle } := by
  refine { h.move t .idle rfl rfl with entry := fun he j hj => ?_ }
  rcases mem_append.mp he with he | he
  · exact h.entry he j hj
  · rw [mem_singleton.mp he]
    exact h.writer hpc j (by omega) hj

theorem DataInv.release (h : DataInv s) (hslot : SlotInv blockSize s)
    (hpc : s.pc t = .found e frame) :
    DataInv { s with
      bmap := { s.bmap with bits := fill s.bmap.bits sectorCount e.blockSector false }
      swapTable := s.swapTable.filter fun e' => e'.id ≠ e.id
      pc := update s.pc t (.reading e.blockSector 0 frame e.given) } := by
  have hmem := (hslot.found hpc).1
  constructor
  case free =>
    intro t' k hk
    rcases of_update SwapPc.readSlot hk with ⟨-, hx⟩ | ⟨-, hk⟩
    · obtain rfl : e.blockSector = k := Option.some.inj hx
      exact ⟨(hslot.entry hmem).dvd,
        fill_of_mem le_rfl (Nat.lt_add_of_pos_right sectorCount_pos)⟩
    · obtain ⟨hdvd, hclear⟩ := h.free hk
      exact ⟨hdvd, ite_eq_left_iff.mpr fun _ => hclear⟩
  case entry => exact fun he => h.entry (mem_of_mem_filter he)
  case writer =>
    intro t' uspage owner page start i hpc'
    rcases pc_of_update hpc' with ⟨-, hx⟩ | ⟨-, hpc'⟩
    · cases hx
    · exact h.writer hpc'
  case reader =>
    intro t' start i frame' given hpc' j hj
    rcases pc_of_update hpc' with ⟨-, hx⟩ | ⟨-, hpc'⟩
    · cases hx
      exact ⟨fun hj0 => absurd hj0 (Nat.not_lt_zero j), fun _ => h.entry hmem j hj⟩
    · exact h.reader hpc' j hj
  case returned => exact h.returned

theorem DataInv.read (h : DataInv s) (hpc : s.pc t = .reading start i frame given) :
    DataInv (s.setPc t
      (.reading start (i + 1) (update frame i (s.disk (start + i))) given)) := by
  constructor
  case free =>
    intro t' k hk
    rcases of_update SwapPc.readSlot hk with ⟨-, hx⟩ | ⟨-, hk⟩
    · exact h.free (by rw [hpc]; exact hx)
    · exact h.free hk
  case entry => exact h.entry
  case writer =>
    intro t' uspage owner page start i hpc'
    rcases pc_of_update hpc' with ⟨-, hx⟩ | ⟨-, hpc'⟩
    · cases hx
    · exact h.writer hpc'
  case reader =>
    intro t' start' i' frame' given' hpc' j hj
    rcases pc_of_update hpc' with ⟨-, hx⟩ | ⟨-, hpc'⟩
    · cases hx
      obtain ⟨hframe, hdisk⟩ := h.reader hpc j hj
      refine ⟨fun hji => ?_, fun hij => hdisk (by omega)⟩
      by_cases hlast : j = i
      · rw [hlast, update_self]
        exact hlast ▸ hdisk hlast.ge
      · rw [update_of_ne hlast]
        exact hframe (by omega)
    · exact h.reader hpc' j hj
  case returned => exact h.returned

theorem DataInv.ret (h : DataInv s) (hpc : s.pc t = .reading start i frame given)
    (hi : sectorCount ≤ i) :
    DataInv { s with
      returned := s.returned ++ [⟨frame, given⟩]
      pc := update s.pc t .idle } := by
  refine { h.move t .idle rfl rfl with returned := fun r hr j hj => ?_ }
  rcases mem_append.mp hr with hr | hr
  · exact h.returned r hr j hj
  · rw [mem_singleton.mp hr]
    exact (h.reader hpc j hj).1 (by omega)

/-- **Step lemma**. -/
theorem DataInv.step (h : DataInv s) (hslot : SlotInv blockSize s) (hc : LowerFree s a)
    (hm : SwapMove s a s') : DataInv s' := by
  cases hm with
  | create hlive | kill hpc hlive => exact h.sublist (Sublist.refl _) _
  | alloc hpc hlive hfirst => exact h.alloc hc hslot hfirst
  | write hpc hi hdev => exact h.write hslot hpc hi
  | push hpc hi => exact h.push hpc hi
  | lookup hpc hlive hmem hown => exact h.move _ _ rfl rfl
  | release hpc hle => exact h.release hslot hpc
  | read hpc hi => exact h.read hpc
  | ret hpc hi => exact h.ret hpc hi
  | exit hpc hlive => exact h.sublist filter_sublist _

/-- **A page comes back as it was written** in every run in which evictions
start while there is a free slot below each slot that is being read. -/
theorem round_trip_of_lowerFree (blockSize : Nat) (s : SwapSys τ S)
    (h : (swapMachine τ S blockSize).ReachIn LowerFree s) : RoundTrip s := by
  have hinv := h.invariant (I := fun s => SlotInv blockSize s ∧ DataInv s) ?_ ?_
  · exact hinv.2.returned
  · rintro s ⟨disk, rfl⟩
    exact ⟨slotInv_boot blockSize disk, dataInv_boot blockSize disk⟩
  · intro s a s' hi hc hs
    have hm := swapMove_of_swapStep hi.1.bitCnt_lt hs
    exact ⟨hi.1.step hm, hi.2.step hi.1 hc hm⟩

/-- Thread `0` has two pages in swap and has got the lower one back.  Thread `1`
evicts a page of its own while the other one is read. -/
theorem round_trip_of_lowerFree_two :
    ∃ s : SwapSys (Fin 2) Bool, s.returned.length = 2 ∧ RoundTrip s := by
  obtain ⟨s, -, hs, hp⟩ := Machine.exists_reachIn_of_runIn (m := swapMachine (Fin 2) Bool 16)
    (C := LowerFree) ⟨fun _ => false, rfl⟩
    ([.create 0, .create 1] ++ evictOwn 0 (fun _ => true) ++ [.evict 0 1 0 fun _ => true] ++
      replicate 9 (.run 0) ++ [.fault 0 0 fun _ => false] ++ replicate 10 (.run 0) ++
      [.fault 0 1 fun _ => false, .run 0] ++ evictOwn 1 (fun _ => false) ++
      replicate 9 (.run 0)) (fun s => s.returned.length = 2) (by decide +kernel)
  exact ⟨s, hp, round_trip_of_lowerFree 16 s hs⟩

end Pintos.Swap
