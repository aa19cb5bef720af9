import Pintos.Vm.Swap

/-!
# Pintos.Vm.SwapSlots

Which slots of the swap device are in use.

In every run the slots of the entries of `swap_table`, and of the evictions under
way, are blocks of the bitmap that are set, each belonging to one of them
(`SlotInv`).  That every block that is set belongs to one of them is not true:
`exit` takes the entries of a process off the list and leaves their bits set.
It is true in the runs in which a process terminates with nothing in swap
(`OwnedInv`).

The bitmap has four bits for each sector of the device.  As long as there is a
free slot on the device the first one found is on it, and when the whole bitmap
is used up an `ASSERT` fails at once; in between `write_to_swap` marks and
writes a slot that is not there.
-/

namespace Pintos.Swap

open FirstFit SwapPc
open Function List Option

variable {τ S : Type*}

/-! ## slots in use -/

/-- The slot that a thread is writing. -/
def SwapPc.writeSlot : SwapPc τ S → Option Nat
  | .writing _ _ _ start _ => some start
  | _ => none

/-- A slot of the bitmap that is in use. -/
structure SwapDev.InUse (d : SwapDev S) (slot : Nat) : Prop where
  dvd : sectorCount ∣ slot
  le : slot + sectorCount ≤ d.bmap.bitCnt
  set : d.bmap.bits slot = true

/-- The slots of the entries and of the threads that write are in use, and each
belongs to one of them. -/
structure SlotInv (blockSize : Nat) (s : SwapSys τ S) : Prop where
  size : s.blockSize = blockSize ∧ s.bmap.bitCnt = blockSize * 4 % sizeTSize
  blocky : Blocky s.bmap.bits sectorCount
  entry : ∀ {e}, e ∈ s.swapTable → s.InUse e.blockSector
  writer : ∀ {t k}, (s.pc t).writeSlot = some k → s.InUse k
  entries : s.swapTable.Pairwise fun e e' => e.blockSector ≠ e'.blockSector
  writer_entry : ∀ {t k e}, (s.pc t).writeSlot = some k → e ∈ s.swapTable → e.blockSector ≠ k
  writers : ∀ {t t' k}, (s.pc t).writeSlot = some k → (s.pc t').writeSlot = some k → t = t'
  ids : s.swapTable.Pairwise fun e e' => e.id ≠ e'.id
  id_lt : ∀ {e}, e ∈ s.swapTable → e.id < s.nextId
  found : ∀ {t e frame}, s.pc t = .found e frame → e ∈ s.swapTable ∧ e.tBlongsTo = t

variable {s s' : SwapSys τ S} {a : SwapAct τ S} {t owner : τ} {e e' : SwapEntry τ S}
  {blockSize start i k uspage : Nat} {page frame given : Nat → S} {d : SwapDev S}

theorem slotInv_boot (blockSize : Nat) (disk : Nat → S) :
    SlotInv blockSize (swapBoot blockSize disk : SwapSys τ S) := by
  constructor <;> simp [swapBoot, initSwapBlock, bitmapCreate, Blocky, writeSlot]

theorem sectorCount_pos : 0 < sectorCount := by decide

section

variable (h : SlotInv blockSize s)
include h

theorem SlotInv.bitCnt_lt : s.bmap.bitCnt < sizeTSize := by
  rw [h.size.2]
  exact Nat.mod_lt _ (by decide)

omit h in
/-- A slot in use is not the free one that is found. -/
theorem SwapDev.InUse.ne (h : d.InUse k)
    (hfirst : IsFirst d.bmap.bits d.bmap.bitCnt sectorCount start) : k ≠ start := by
  rintro rfl
  have hclear := hfirst.clear k (le_refl k) (Nat.lt_add_of_pos_right sectorCount_pos)
  rw [h.set] at hclear
  contradiction

omit h in
theorem SwapDev.InUse.fill {v : Bool} (h : d.InUse k) (hdvd : sectorCount ∣ start)
    (hne : k ≠ start) : SwapDev.InUse { d with
      bmap := { d.bmap with bits := fill d.bmap.bits sectorCount start v } } k where
  dvd := h.dvd
  le := h.le
  set := by
    have hdisj := disjoint_of_dvd h.dvd hdvd hne
    have hpos := sectorCount_pos
    rw [← h.set]
    exact fill_of_not_mem (by omega)

/-- The entries of a list are told apart by their ids, and by their slots. -/
theorem SlotInv.eq_of_id (he : e ∈ s.swapTable) (he' : e' ∈ s.swapTable)
    (hid : e.id = e'.id) : e = e' := by
  have hsymm : Std.Symm fun e e' : SwapEntry τ S => e.id ≠ e'.id := ⟨fun _ _ => Ne.symm⟩
  by_contra hne
  exact h.ids.forall he he' hne hid

theorem SlotInv.eq_of_blockSector (he : e ∈ s.swapTable)
    (he' : e' ∈ s.swapTable) (hslot : e.blockSector = e'.blockSector) : e = e' := by
  have hsymm : Std.Symm fun e e' : SwapEntry τ S => e.blockSector ≠ e'.blockSector :=
    ⟨fun _ _ => Ne.symm⟩
  by_contra hne
  exact h.entries.forall he he' hne hslot

/-- Frame lemma: the invariant does not depend on the other fields. -/
theorem SlotInv.congr (disk : Nat → S) (live : τ → Bool) (returned : List (Returned S)) :
    SlotInv blockSize { s with disk := disk, live := live, returned := returned } :=
  { h with
    entry := fun he => { h.entry he with }
    writer := fun hk => { h.writer hk with } }

/-- What is left of the list after entries have been taken off. -/
theorem SlotInv.sublist (l : List (SwapEntry τ S))
    (hl : l.Sublist s.swapTable) (hf : ∀ {t e frame}, s.pc t = .found e frame → e ∈ l) :
    SlotInv blockSize { s with swapTable := l } :=
  { h with
    entry := fun he => h.entry (hl.subset he)
    entries := h.entries.sublist hl
    writer_entry := fun hk he => h.writer_entry hk (hl.subset he)
    ids := h.ids.sublist hl
    id_lt := fun he => h.id_lt (hl.subset he)
    found := fun hpc => ⟨hf hpc, (h.found hpc).2⟩ }

end

variable [DecidableEq τ] {pc : τ → SwapPc τ S} {x : SwapPc τ S} {t' : τ}

/-- What is read off the place of a thread after `t` has moved: either it is
`t`, or it was there before. -/
theorem of_update {β : Type*} (f : SwapPc τ S → β)
    {y : β} (h : f (update pc t x t') = y) : t' = t ∧ f x = y ∨ t' ≠ t ∧ f (pc t') = y := by
  by_cases ht : t' = t
  · rw [ht, update_self] at h
    exact .inl ⟨ht, h⟩
  · rw [update_of_ne ht] at h
    exact .inr ⟨ht, h⟩

theorem pc_of_update {y : SwapPc τ S}
    (h : update pc t x t' = y) : t' = t ∧ x = y ∨ t' ≠ t ∧ pc t' = y :=
  of_update id h

section

variable (h : SlotInv blockSize s)
include h

theorem SlotInv.move (t : τ) (x : SwapPc τ S)
    (hw : x.writeSlot = none ∨ x.writeSlot = (s.pc t).writeSlot)
    (hf : ∀ e frame, x = .found e frame → e ∈ s.swapTable ∧ e.tBlongsTo = t) :
    SlotInv blockSize { s with pc := update s.pc t x } := by
  have hold : ∀ {t' k}, (update s.pc t x t').writeSlot = some k →
      (s.pc t').writeSlot = some k := by
    intro t' k hk
    rcases of_update writeSlot hk with ⟨rfl, hx⟩ | ⟨-, hk⟩
    · rcases hw with hw | hw
      · cases hw.symm.trans hx
      · rw [← hw, hx]
    · exact hk
  refine { h with
    writer := fun hk => h.writer (hold hk)
    writer_entry := fun hk => h.writer_entry (hold hk)
    writers := fun hk hk' => h.writers (hold hk) (hold hk')
    found := fun {t' e frame} hpc => ?_ }
  rcases pc_of_update hpc with ⟨rfl, hx⟩ | ⟨-, hpc⟩
  · exact hf e frame hx
  · exact h.found hpc

theorem SlotInv.alloc (hfirst : IsFirst s.bmap.bits s.bmap.bitCnt sectorCount start) :
    SlotInv blockSize { s with
      bmap := { s.bmap with bits := fill s.bmap.bits sectorCount start true }
      pc := update s.pc t (.writing uspage owner page start 0) } := by
  have hdvd : sectorCount ∣ start := hfirst.dvd h.blocky sectorCount_pos
  have hne : ∀ {k}, s.InUse k → k ≠ start := fun hk => hk.ne hfirst
  have hkeep : ∀ {k}, s.InUse k → _ := fun hk => hk.fill (v := true) hdvd (hne hk)
  have hcases : ∀ {t' k}, (update s.pc t (.writing uspage owner page start 0) t').writeSlot
      = some k → t' = t ∧ k = start ∨ t' ≠ t ∧ (s.pc t').writeSlot = some k := by
    intro t' k hk
    rcases of_update writeSlot hk with ⟨ht, hx⟩ | hold
    · exact .inl ⟨ht, (some.inj hx).symm⟩
    · exact .inr hold
  refine { h with
    blocky := h.blocky.fill hdvd
    entry := fun he => hkeep (h.entry he)
    writer := fun {t' k} hk => ?_
    writer_entry := fun {t' k e} hk he => ?_
    writers := fun {t₁ t₂ k} hk₁ hk₂ => ?_
    found := fun {t' e frame} hpc => ?_ }
  · rcases hcases hk with ⟨-, rfl⟩ | ⟨-, hk⟩
    · exact ⟨hdvd, hfirst.fits, fill_of_mem (le_refl k) (Nat.lt_add_of_pos_right sectorCount_pos)⟩
    · exact hkeep (h.writer hk)
  · rcases hcases hk with ⟨-, rfl⟩ | ⟨-, hk⟩
    · exact hne (h.entry he)
    · exact h.writer_entry hk he
  · rcases hcases hk₁ with ⟨ht₁, hs₁⟩ | ⟨-, hk₁⟩
    · rcases hcases hk₂ with ⟨ht₂, -⟩ | ⟨-, hk₂⟩
      · rw [ht₁, ht₂]
      · exact absurd hs₁ (hne (h.writer hk₂))
    · rcases hcases hk₂ with ⟨-, hs₂⟩ | ⟨-, hk₂⟩
      · exact absurd hs₂ (hne (h.writer hk₁))
      · exact h.writers hk₁ hk₂
  · rcases pc_of_update hpc with ⟨-, hx⟩ | ⟨-, hpc⟩
    · contradiction
    · exact h.found hpc

theorem SlotInv.push (hpc : s.pc t = .writing uspage owner page start i) :
    SlotInv blockSize { s with
      swapTable := s.swapTable ++ [⟨uspage, owner, start, s.nextId, page⟩]
      nextId := s.nextId + 1
      pc := update s.pc t .idle } := by
  have hslot : (s.pc t).writeSlot = some start := by rw [hpc]; rfl
  have hidle : SlotInv blockSize { s with pc := update s.pc t .idle } :=
    h.move _ _ (.inl rfl) nofun
  have hother : ∀ {t' k}, (update s.pc t .idle t').writeSlot = some k → k ≠ start := by
    intro t' k hk hks
    rcases of_update writeSlot hk with ⟨-, hx⟩ | ⟨ht, hk⟩
    · contradiction
    · rw [hks] at hk
      exact ht (h.writers hk hslot)
  refine { hidle with
    entry := fun he => ?_
    entries := pairwise_append.mpr ⟨h.entries, pairwise_singleton _ _, fun e he e' he' => ?_⟩
    writer_entry := fun hk he => ?_
    ids := pairwise_append.mpr ⟨h.ids, pairwise_singleton _ _, fun e he e' he' => ?_⟩
    id_lt := fun he => ?_
    found := fun hf => ⟨mem_append_left _ (hidle.found hf).1, (hidle.found hf).2⟩ }
  · rcases mem_append.mp he with he | he
    · exact h.entry he
    · rw [mem_singleton.mp he]
      exact h.writer hslot
  · rw [mem_singleton.mp he']
    exact h.writer_entry hslot he
  · rcases mem_append.mp he with he | he
    · exact hidle.writer_entry hk he
    · rw [mem_singleton.mp he]
      exact (hother hk).symm
  · rw [mem_singleton.mp he']
    exact ne_of_lt (h.id_lt he)
  · rcases mem_append.mp he with he | he
    · exact Nat.lt_succ_of_lt (h.id_lt he)
    · rw [mem_singleton.mp he]
      exact Nat.lt_succ_self _

theorem SlotInv.release (hpc : s.pc t = .found e frame) :
    SlotInv blockSize { s with
      bmap := { s.bmap with bits := fill s.bmap.bits sectorCount e.blockSector false }
      swapTable := s.swapTable.filter fun e' => e'.id ≠ e.id
      pc := update s.pc t (.reading e.blockSector 0 frame e.given) } := by
  obtain ⟨hmem, hown⟩ := h.found hpc
  have hinuse := h.entry hmem
  have hmove : SlotInv blockSize { s with
      pc := update s.pc t (.reading e.blockSector 0 frame e.given) } :=
    h.move _ _ (.inl rfl) nofun
  have hsub := hmove.sublist (s.swapTable.filter fun e' => e'.id ≠ e.id)
    filter_sublist fun {t' e' frame'} hf => by
      rcases pc_of_update hf with ⟨-, hx⟩ | ⟨hne, hf⟩
      · contradiction
      obtain ⟨hmem', hown'⟩ := h.found hf
      refine mem_filter.mpr ⟨hmem', decide_eq_true fun hid => ?_⟩
      have heq := h.eq_of_id hmem' hmem hid
      exact hne (by rw [← hown', heq, hown])
  refine { hsub with
    blocky := h.blocky.fill hinuse.dvd
    entry := fun {e'} he' => ?_
    writer := fun hk =>
      (hmove.writer hk).fill hinuse.dvd (hmove.writer_entry hk hmem).symm }
  obtain ⟨hmem', hid⟩ := mem_filter.mp he'
  refine (h.entry hmem').fill hinuse.dvd fun hslot => ?_
  exact of_decide_eq_true hid (congrArg _ (h.eq_of_blockSector hmem' hmem hslot))

/-- **Step lemma**: what every step keeps. -/
theorem SlotInv.step (hm : SwapMove s a s') : SlotInv blockSize s' := by
  cases hm with
  | create hlive => exact h.congr _ _ _
  | alloc hpc hlive hfirst => exact h.alloc hfirst
  | @write t owner uspage start i page hpc hi hdev =>
    have hmove := h.move t (.writing uspage owner page start (i + 1))
      (.inr (by rw [hpc]; rfl)) nofun
    exact hmove.congr _ _ _
  | push hpc hi => exact h.push hpc
  | lookup hpc hlive hmem hown =>
    refine h.move _ _ (.inl rfl) fun e' frame' heq => ?_
    cases heq
    exact ⟨hmem, hown⟩
  | release hpc hle => exact h.release hpc
  | read hpc hi => exact h.move _ _ (.inl rfl) nofun
  | @ret t start i frame given hpc hi =>
    have hmove := h.move t .idle (.inl rfl) nofun
    exact hmove.congr _ _ _
  | @exit t hpc hlive =>
    have hsub := h.sublist (s.swapTable.filter fun e => e.tBlongsTo ≠ t) filter_sublist
      fun {t' e frame} hf => by
      obtain ⟨hmem, hown⟩ := h.found hf
      refine mem_filter.mpr ⟨hmem, decide_eq_true fun heq => ?_⟩
      rw [← heq, hown, hf] at hpc
      contradiction
    exact hsub.congr _ _ _
  | kill hpc hlive => exact h.congr _ _ _

end

/-- **Run lemma**: the slots in every run. -/
theorem slotInv_of_reachIn {C : SwapSys τ S → SwapAct τ S → Prop}
    (h : (swapMachine τ S blockSize).ReachIn C s) : SlotInv blockSize s :=
  h.invariant (fun _ ⟨disk, h0⟩ => h0 ▸ slotInv_boot blockSize disk) fun _ _ _ hi _ hs =>
    hi.step (swapMove_of_swapStep hi.bitCnt_lt hs)

/-! ## the bits and the entries -/

/-- No thread is between the allocation of a slot and the push of its entry. -/
def SwapSys.NoEviction (s : SwapSys τ S) : Prop := ∀ t, (s.pc t).writeSlot = none

/-- The sectors of the slot of an entry. -/
def SwapEntry.Covers (e : SwapEntry τ S) (sector : Nat) : Prop :=
  e.blockSector ≤ sector ∧ sector < e.blockSector + sectorCount

/-- The bitmap and the list agree, and a terminated process has no slot. -/
structure SlotsAccounted (s : SwapSys τ S) : Prop where
  exact : s.NoEviction →
    ∀ sector, s.bmap.bits sector = true ↔ ∃ e ∈ s.swapTable, e.Covers sector
  disjoint : s.swapTable.Pairwise fun e e' => ∀ sector, ¬ (e.Covers sector ∧ e'.Covers sector)
  freed : ∀ t, s.live t = false → ∀ e ∈ s.swapTable, e.tBlongsTo ≠ t

/-- Thread `t` evicts its page `0`. -/
def evictOwn (t : τ) (page : Nat → S) : List (SwapAct τ S) :=
  .evict t 0 t page :: replicate 9 (.run t)

/-! ## processes that leave nothing behind -/

/-- The owner of the frame that a thread evicts. -/
def SwapPc.evicts : SwapPc τ S → Option τ
  | .writing _ owner _ _ _ => some owner
  | _ => none

/-- A process terminates while it has nothing in swap and none of its frames is
being evicted, and the frames of a terminated process are not evicted. -/
def Settled (s : SwapSys τ S) : SwapAct τ S → Prop
  | .exit t => (∀ e ∈ s.swapTable, e.tBlongsTo ≠ t) ∧ ∀ t', (s.pc t').evicts ≠ some t
  | .kill t => (∀ e ∈ s.swapTable, e.tBlongsTo ≠ t) ∧ ∀ t', (s.pc t').evicts ≠ some t
  | .evict _ _ owner _ => s.live owner = true
  | _ => True

instance [Fintype τ] (s : SwapSys τ S) : ∀ a, Decidable (Settled s a) := by
  rintro ⟨⟩ <;> unfold Settled <;> infer_instance

/-- Every block that is set belongs to an entry or to an eviction, and these
belong to live processes. -/
structure OwnedInv (s : SwapSys τ S) : Prop where
  owned : ∀ {k}, sectorCount ∣ k → s.bmap.bits k = true →
    (∃ e ∈ s.swapTable, e.blockSector = k) ∨ ∃ t, (s.pc t).writeSlot = some k
  entry_live : ∀ {e}, e ∈ s.swapTable → s.live e.tBlongsTo = true
  evict_live : ∀ {t o}, (s.pc t).evicts = some o → s.live o = true

omit [DecidableEq τ] in
theorem ownedInv_boot (blockSize : Nat) (disk : Nat → S) :
    OwnedInv (swapBoot blockSize disk : SwapSys τ S) := by
  constructor <;> simp [swapBoot, initSwapBlock, bitmapCreate, evicts]

/-- A thread other than `t` that writes a slot still does. -/
theorem writeSlot_update (hw : (pc t).writeSlot = none ∨ x.writeSlot = (pc t).writeSlot)
    (h : ∃ t', (pc t').writeSlot = some k) : ∃ t', (update pc t x t').writeSlot = some k := by
  obtain ⟨t', hk⟩ := h
  refine ⟨t', ?_⟩
  by_cases ht : t' = t
  · rw [ht] at hk
    rcases hw with hw | hw
    · cases hw.symm.trans hk
    · rw [ht, update_self, hw, hk]
  · rw [update_of_ne ht, hk]

theorem OwnedInv.move (h : OwnedInv s) (t : τ) (x : SwapPc τ S)
    (hw : (s.pc t).writeSlot = none ∨ x.writeSlot = (s.pc t).writeSlot)
    (he : x.evicts = none ∨ x.evicts = (s.pc t).evicts) :
    OwnedInv { s with pc := update s.pc t x } where
  owned hdvd hset := (h.owned hdvd hset).imp_right (writeSlot_update hw)
  entry_live := h.entry_live
  evict_live hev := by
    rcases of_update evicts hev with ⟨-, hx⟩ | ⟨-, hold⟩
    · rcases he with he | he
      · cases he.symm.trans hx
      · exact h.evict_live (he ▸ hx)
    · exact h.evict_live hold

omit [DecidableEq τ] in
/-- Frame lemma: the invariant does not depend on the other fields. -/
theorem OwnedInv.congr (h : OwnedInv s) (disk : Nat → S) (nextId : Nat)
    (returned : List (Returned S)) :
    OwnedInv { s with disk := disk, nextId := nextId, returned := returned } :=
  { h with }

theorem OwnedInv.alloc (h : OwnedInv s) (hpc : s.pc t = .idle) (hlive : s.live owner = true)
    (hslot : SlotInv blockSize s) (hfirst : IsFirst s.bmap.bits s.bmap.bitCnt sectorCount start) :
    OwnedInv { s with
      bmap := { s.bmap with bits := fill s.bmap.bits sectorCount start true }
      pc := update s.pc t (.writing uspage owner page start 0) } where
  owned {k} hdvd hset := by
    by_cases hk : k = start
    · refine .inr ⟨t, ?_⟩
      rw [hk]
      exact congrArg _ (update_self ..)
    · have hstart : sectorCount ∣ start := hfirst.dvd hslot.blocky sectorCount_pos
      have hdisj := disjoint_of_dvd hdvd hstart hk
      have hpos := sectorCount_pos
      have hold : s.bmap.bits k = true := by
        rw [← hset]
        exact (fill_of_not_mem (by omega)).symm
      exact (h.owned hdvd hold).imp_right (writeSlot_update (.inl (by rw [hpc]; rfl)))
  entry_live := h.entry_live
  evict_live hev := by
    rcases of_update evicts hev with ⟨-, hx⟩ | ⟨-, hold⟩
    · rwa [← some.inj hx]
    · exact h.evict_live hold

theorem OwnedInv.push (h : OwnedInv s) (hpc : s.pc t = .writing uspage owner page start i) :
    OwnedInv { s with
      swapTable := s.swapTable ++ [⟨uspage, owner, start, s.nextId, page⟩]
      nextId := s.nextId + 1
      pc := update s.pc t .idle } where
  owned {k} hdvd hset := by
    rcases h.owned hdvd hset with ⟨e, he, hk⟩ | ⟨t', hk⟩
    · exact .inl ⟨e, mem_append_left _ he, hk⟩
    · by_cases ht : t' = t
      · rw [ht, hpc] at hk
        exact .inl ⟨_, mem_append_right _ (mem_singleton.mpr rfl), some.inj hk⟩
      · refine .inr ⟨t', ?_⟩
        rwa [← update_of_ne ht .idle s.pc] at hk
  entry_live he := by
    rcases mem_append.mp he with he | he
    · exact h.entry_live he
    · rw [mem_singleton.mp he]
      exact h.evict_live (by rw [hpc]; rfl)
  evict_live hev := by
    rcases of_update evicts hev with ⟨-, hx⟩ | ⟨-, hold⟩
    · contradiction
    · exact h.evict_live hold

theorem OwnedInv.release (h : OwnedInv s) (hslot : SlotInv blockSize s)
    (hpc : s.pc t = .found e frame) :
    OwnedInv { s with
      bmap := { s.bmap with bits := fill s.bmap.bits sectorCount e.blockSector false }
      swapTable := s.swapTable.filter fun e' => e'.id ≠ e.id
      pc := update s.pc t (.reading e.blockSector 0 frame e.given) } where
  owned {k} hdvd hset := by
    have hpos := sectorCount_pos
    have hk : k ≠ e.blockSector := by
      rintro rfl
      have hclear : fill s.bmap.bits sectorCount e.blockSector false e.blockSector = false :=
        fill_of_mem le_rfl (by omega)
      exact Bool.false_ne_true (hclear.symm.trans hset)
    have hdisj := disjoint_of_dvd hdvd (hslot.entry (hslot.found hpc).1).dvd hk
    have hold : s.bmap.bits k = true := by
      rw [← hset]
      exact (fill_of_not_mem (by omega)).symm
    rcases h.owned hdvd hold with ⟨e', he', hk'⟩ | hw
    · refine .inl ⟨e', mem_filter.mpr ⟨he', decide_eq_true fun hid => ?_⟩, hk'⟩
      rw [hslot.eq_of_id he' (hslot.found hpc).1 hid] at hk'
      exact hk hk'.symm
    · exact .inr (writeSlot_update (.inl (by rw [hpc]; rfl)) hw)
  entry_live he := h.entry_live (mem_of_mem_filter he)
  evict_live hev := by
    rcases of_update evicts hev with ⟨-, hx⟩ | ⟨-, hold⟩
    · contradiction
    · exact h.evict_live hold

theorem OwnedInv.leave (h : OwnedInv s) (hent : ∀ e ∈ s.swapTable, e.tBlongsTo ≠ t)
    (hev : ∀ t', (s.pc t').evicts ≠ some t) :
    OwnedInv { s with live := update s.live t false } where
  owned := h.owned
  entry_live he := by
    rw [← h.entry_live he]
    exact update_of_ne (hent _ he) ..
  evict_live {t' o} ho := by
    rw [← h.evict_live ho]
    refine update_of_ne ?_ ..
    rintro rfl
    exact hev t' ho

/-- **Step lemma**. -/
theorem OwnedInv.step (h : OwnedInv s) (hslot : SlotInv blockSize s) (hc : Settled s a)
    (hm : SwapMove s a s') : OwnedInv s' := by
  cases hm with
  | @create t hlive =>
    have hmono : ∀ {o}, s.live o = true → update s.live t true o = true := by
      intro o ho
      by_cases hot : o = t
      · rw [hot, update_self]
      · rw [update_of_ne hot, ho]
    exact ⟨h.owned, fun he => hmono (h.entry_live he), fun ho => hmono (h.evict_live ho)⟩
  | alloc hpc hlive hfirst => exact h.alloc hpc hc hslot hfirst
  | @write t owner uspage start i page hpc hi hdev =>
    have hmove := h.move t (.writing uspage owner page start (i + 1))
      (.inr (by rw [hpc]; rfl)) (.inr (by rw [hpc]; rfl))
    exact hmove.congr _ _ _
  | push hpc hi => exact h.push hpc
  | lookup hpc hlive hmem hown | read hpc hi =>
    exact h.move _ _ (.inl (by rw [hpc]; rfl)) (.inl rfl)
  | release hpc hle => exact h.release hslot hpc
  | @ret t start i frame given hpc hi =>
    have hmove := h.move t .idle (.inl (by rw [hpc]; rfl)) (.inl rfl)
    exact hmove.congr _ _ _
  | @exit t hpc hlive =>
    have hkeep : s.swapTable.filter (fun e => e.tBlongsTo ≠ t) = s.swapTable :=
      filter_eq_self.mpr fun e he => decide_eq_true (hc.1 e he)
    rw [hkeep]
    exact h.leave hc.1 hc.2
  | kill hpc hlive => exact h.leave hc.1 hc.2

/-- **Run lemma**: in every run in which processes leave nothing behind. -/
theorem ownedInv_of_settled (h : (swapMachine τ S blockSize).ReachIn Settled s) : OwnedInv s := by
  refine (h.invariant (I := fun s => SlotInv blockSize s ∧ OwnedInv s) ?_ ?_).2
  · rintro s ⟨disk, rfl⟩
    exact ⟨slotInv_boot blockSize disk, ownedInv_boot blockSize disk⟩
  · intro s a s' hi hc hs
    have hm := swapMove_of_swapStep hi.1.bitCnt_lt hs
    exact ⟨hi.1.step hm, hi.2.step hi.1 hc hm⟩

omit [DecidableEq τ] in
theorem SlotInv.not_covers (h : SlotInv blockSize s) (he : e ∈ s.swapTable)
    (he' : e' ∈ s.swapTable) (hne : e.blockSector ≠ e'.blockSector) (sector : Nat) :
    ¬ (e.Covers sector ∧ e'.Covers sector) := by
  rintro ⟨⟨hle, hlt⟩, hle', hlt'⟩
  have hdisj := disjoint_of_dvd (h.entry he).dvd (h.entry he').dvd hne
  omega

/-! ## the end of the device -/

/-- A run of the bitmap that `write_to_swap` may take. -/
def SwapDev.Free (d : SwapDev S) (start : Nat) : Prop :=
  start + sectorCount ≤ d.bmap.bitCnt ∧ Clear d.bmap.bits sectorCount start

/-- A slot that is allocated is on the device, and when none is free there the
call stops with the device and the bitmap unchanged. -/
structure WriteContained (d : SwapDev S) (page : Nat → S) : Prop where
  fits : ∀ slot, allocSlot d.bmap = some slot → slot.2 + sectorCount ≤ d.blockSize
  fails : (∀ start, d.Free start → d.blockSize < start + sectorCount) →
    writeToSwap d page = (d, none)

/-- The second page that is written to a device of twelve sectors: its slot is
marked, four sectors are written and the fifth is past the end. -/
theorem write_past_the_end : ∃ s : SwapSys (Fin 1) Bool,
    (swapMachine (Fin 1) Bool 12).runFrom (swapBoot 12 fun _ => false)
      (.create 0 :: evictOwn 0 fun _ => true) = some s ∧
      (swapMachine (Fin 1) Bool 12).Reach s ∧
      (∀ i, 8 ≤ i → i < 16 → s.bmap.bits i = false) ∧
      (∀ i, 8 ≤ i → i < 12 → s.disk i = false) ∧
      (writeToSwap s.toSwapDev fun _ => true).2 = none ∧
      (∀ i, 8 ≤ i → i < 16 → (writeToSwap s.toSwapDev fun _ => true).1.bmap.bits i = true) ∧
      (∀ i, 8 ≤ i → i < 12 → (writeToSwap s.toSwapDev fun _ => true).1.disk i = true) ∧
      ¬ WriteContained s.toSwapDev fun _ => true := by
  obtain ⟨s, hrun, hs, hclear, hdisk, hnone, hset, hwritten, hsize, halloc⟩ :=
    Machine.exists_reach_of_runFrom (m := swapMachine (Fin 1) Bool 12) ⟨fun _ => false, rfl⟩
    (.create 0 :: evictOwn 0 fun _ => true)
    (fun s => (∀ i : Nat, 8 ≤ i → i < 16 → s.bmap.bits i = false) ∧
      (∀ i : Nat, 8 ≤ i → i < 12 → s.disk i = false) ∧
      (writeToSwap s.toSwapDev fun _ => true).2 = none ∧
      (∀ i : Nat, 8 ≤ i → i < 16 → (writeToSwap s.toSwapDev fun _ => true).1.bmap.bits i = true) ∧
      (∀ i : Nat, 8 ≤ i → i < 12 → (writeToSwap s.toSwapDev fun _ => true).1.disk i = true) ∧
      s.blockSize = 12 ∧ (allocSlot s.bmap).map Prod.snd = some 8) (by decide +kernel)
  refine ⟨s, hrun, hs, hclear, hdisk, hnone, hset, hwritten, fun h => ?_⟩
  obtain ⟨slot, hslot, h8⟩ := map_eq_some_iff.mp halloc
  have hfits := h.fits slot hslot
  rw [h8, hsize] at hfits
  exact absurd hfits (by decide)

/-- The first free run, if there is a free one at all. -/
theorem exists_isFirst (hsize : d.bmap.bitCnt < sizeTSize) (h : d.Free start) :
    ∃ first, IsFirst d.bmap.bits d.bmap.bitCnt sectorCount first ∧ first ≤ start := by
  rcases bitmapScan_spec hsize sectorCount with ⟨first, -, hfirst⟩ | ⟨-, hnone⟩
  · exact ⟨first, hfirst, hfirst.least h.2⟩
  · exact absurd h.2 (hnone start h.1)

/-- **When writes stay on the device**: exactly as long as there is a free slot
on the device or no free run in the bitmap at all. -/
theorem write_contained_iff (blockSize : Nat) (s : SwapSys τ S) (page : Nat → S)
    (h : (swapMachine τ S blockSize).Reach s) :
    WriteContained s.toSwapDev page ↔
      (∃ start, s.Free start ∧ start + sectorCount ≤ s.blockSize) ∨ ∀ start, ¬ s.Free start := by
  have hsize : s.bmap.bitCnt < sizeTSize := (slotInv_of_reachIn h).bitCnt_lt
  constructor
  · intro hw
    by_cases hfree : ∃ start, s.Free start
    · obtain ⟨start, hstart⟩ := hfree
      obtain ⟨first, hfirst, -⟩ := exists_isFirst hsize hstart
      refine .inl ⟨first, ⟨hfirst.fits, hfirst.clear⟩, ?_⟩
      exact hw.fits _ (allocSlot_of_isFirst hsize hfirst)
    · exact .inr (not_exists.mp hfree)
  · rintro (⟨start, hstart, hdev⟩ | hnone)
    · refine ⟨fun slot hslot => ?_, fun hfull => ?_⟩
      · have hle := (allocSlot_eq_some hsize hslot).1.least hstart.2
        omega
      · exact absurd (hfull start hstart) (not_lt.mpr hdev)
    · have hpanic : allocSlot s.bmap = none :=
        allocSlot_eq_none hsize fun i hi hclear => hnone i ⟨hi, hclear⟩
      refine ⟨fun slot hslot => ?_, fun _ => ?_⟩
      · cases hpanic.symm.trans hslot
      · unfold writeToSwap
        rw [hpanic]

/-- The first of the two slots of a device is taken. -/
theorem write_contained_iff_second_slot :
    ∃ s : SwapSys (Fin 1) Bool, s.swapTable.length = 1 ∧
      WriteContained s.toSwapDev fun _ => true := by
  obtain ⟨s, -, hs, hlen, hcnt, hsize, hclear⟩ := Machine.exists_reach_of_runFrom
    (m := swapMachine (Fin 1) Bool 16) ⟨fun _ => false, rfl⟩ (.create 0 :: evictOwn 0 fun _ => true)
    (fun s => s.swapTable.length = 1 ∧ 16 ≤ s.bmap.bitCnt ∧ s.blockSize = 16 ∧ ∀ i : Nat,
      8 ≤ i → i < 16 → s.bmap.bits i = false) (by decide +kernel)
  exact ⟨s, hlen, (write_contained_iff 16 s _ hs).mpr (.inl ⟨8, ⟨hcnt, hclear⟩, hsize.ge⟩)⟩

end Pintos.Swap

