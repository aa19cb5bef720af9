import Pintos.Filesys.Ownership

/-!
# Pintos.Filesys.Operations

What each operation does to the names and the files, and that it keeps the invariant.

`names` is the directory as a map from names to inode sectors and `fileBytes` the data
of the inode in a sector.
-/

namespace Pintos.Fs

open Bytes FirstFit Device List
open Function List
open Option hiding or_assoc

variable {dev dev' : Device} {root : InodeDisk} {W : Nat → Prop} {i j k f a : Nat} {e : DirEntry}
  {name : CString} {st : Store} {L : Layout} {refs : List Nat} {s s' : FileSys} {β : Type}
  {sector file : Nat}

/-! ## names -/

/-- The sector that `lookup` finds. -/
def names (dev : Device) (root : InodeDisk) (name : CString) : Option Nat :=
  ((range root.entries).find? fun i => (slot dev root i).named name).map fun i =>
    (slot dev root i).inodeSector

theorem named_iff : e.named name = true ↔ e.inUse = true ∧ cstring e.name = name.val := by
  simp [DirEntry.named]

theorem Entries.named_inj (h : Entries dev root) (hi : i < root.entries) (hj : j < root.entries)
    (hni : (slot dev root i).named name = true) (hnj : (slot dev root j).named name = true) :
    i = j := by
  rw [named_iff] at hni hnj
  exact h.name_inj i j hi hj hni.1 hnj.1 (hni.2.trans hnj.2.symm)

theorem named_of_find
    (h : (range root.entries).find? (fun i => (slot dev root i).named name) = some i) :
    i < root.entries ∧ (slot dev root i).named name = true := by
  have hnamed := find?_some h
  exact ⟨mem_range.mp (mem_of_find?_eq_some h), hnamed⟩

theorem names_eq_some_iff (h : Entries dev root) :
    names dev root name = some f ↔
      ∃ i < root.entries, (slot dev root i).named name = true ∧
        (slot dev root i).inodeSector = f := by
  unfold names
  constructor
  · intro hsome
    obtain ⟨i, hfind, hsector⟩ := map_eq_some_iff.mp hsome
    exact ⟨i, (named_of_find hfind).1, (named_of_find hfind).2, hsector⟩
  · rintro ⟨i, hi, hnamed, hsector⟩
    cases hfind : (range root.entries).find? fun i => (slot dev root i).named name with
    | none => exact absurd hnamed (find?_eq_none.mp hfind i (mem_range.mpr hi))
    | some j =>
      obtain ⟨hj, hnj⟩ := named_of_find hfind
      obtain rfl := h.named_inj hj hi hnj hnamed
      rw [map_some, hsector]

theorem names_eq_none_iff :
    names dev root name = none ↔ ∀ i < root.entries, (slot dev root i).named name ≠ true := by
  simp only [names, map_eq_none_iff, find?_eq_none, mem_range]

/-- The entries that may have the name are the same. -/
theorem names_congr (h : ∀ i < root.entries, slot dev' root i = slot dev root i ∨
      (slot dev' root i).named name = false ∧ (slot dev root i).named name = false) :
    names dev' root name = names dev root name := by
  have hnamed : ∀ i ∈ range root.entries,
      (slot dev' root i).named name = (slot dev root i).named name := fun i hi =>
    (h i (mem_range.mp hi)).elim (congrArg (DirEntry.named name)) fun hnot =>
      hnot.1.trans hnot.2.symm
  unfold names
  rw [find?_congr hnamed]
  refine Option.map_congr fun i hfind => ?_
  obtain ⟨hi, hnamed⟩ := named_of_find hfind
  rcases h i hi with heq | ⟨-, hnot⟩
  · rw [heq]
  · cases hnot.symm.trans hnamed

theorem SameSlots.names (h : SameSlots dev dev' root) : names dev' root = names dev root :=
  funext fun _ => names_congr fun i hi => .inl (h i hi)

/-- A name of an entry in use has its sector. -/
theorem linked_of_names (h : names dev root name = some f) : Linked dev root f := by
  obtain ⟨i, hfind, hsector⟩ := map_eq_some_iff.mp h
  obtain ⟨hi, hnamed⟩ := named_of_find hfind
  exact ⟨i, hi, (named_iff.mp hnamed).1, hsector⟩

/-! ## adding an entry -/

/-- An entry is written in a free place. -/
structure Adds (dev : Device) (root : InodeDisk) (name : CString) (i : Nat) (e : DirEntry) :
    Prop where
  lt : i < root.entries
  free : (slot dev root i).inUse = false
  valid : e.Valid
  named : e.named name = true
  new : ∀ j < root.entries, (slot dev root j).named name ≠ true

namespace Adds

variable (h : Adds dev root name i e)
include h

theorem linked_iff : Linked (writeSlot dev root i e) root k ↔
    Linked dev root k ∨ k = e.inodeSector := by
  constructor
  · rintro ⟨j, hj, hused, hsector⟩
    by_cases hji : j = i
    · subst hji
      rw [slot_write_self h.valid] at hsector
      exact .inr hsector.symm
    · rw [slot_write_of_ne h.valid hji] at hused hsector
      exact .inl ⟨j, hj, hused, hsector⟩
  · rintro (⟨j, hj, hused, hsector⟩ | rfl)
    · have hji : j ≠ i := by
        rintro rfl
        rw [h.free] at hused
        contradiction
      rw [← slot_write_of_ne h.valid hji] at hused hsector
      exact ⟨j, hj, hused, hsector⟩
    · refine ⟨i, h.lt, ?_, ?_⟩
      · rw [slot_write_self h.valid]
        exact (named_iff.mp h.named).1
      · rw [slot_write_self h.valid]

/-- Entries in use are told apart by what the new entry shares with none of them. -/
theorem inj (g : DirEntry → β)
    (hold : ∀ j < root.entries, (slot dev root j).inUse = true → g (slot dev root j) ≠ g e)
    (hinj : SlotInj g dev root) : SlotInj g (writeSlot dev root i e) root := by
  intro j l hj hl hju hlu heq
  by_cases hji : j = i <;> by_cases hli : l = i
  · rw [hji, hli]
  · subst hji
    rw [slot_write_self h.valid, slot_write_of_ne h.valid hli] at heq
    rw [slot_write_of_ne h.valid hli] at hlu
    exact absurd heq.symm (hold l hl hlu)
  · subst hli
    rw [slot_write_self h.valid, slot_write_of_ne h.valid hji] at heq
    rw [slot_write_of_ne h.valid hji] at hju
    exact absurd heq (hold j hj hju)
  · rw [slot_write_of_ne h.valid hji] at hju heq
    rw [slot_write_of_ne h.valid hli] at hlu heq
    exact hinj j l hj hl hju hlu heq

theorem entries (he : Entries dev root) (hnew : ¬ Linked dev root e.inodeSector) :
    Entries (writeSlot dev root i e) root where
  sector_inj := h.inj (·.inodeSector) (fun j hj hused heq => hnew ⟨j, hj, hused, heq⟩) he.sector_inj
  name_inj := h.inj (fun e => cstring e.name) (fun j hj hused heq => h.new j hj
    (named_iff.mpr ⟨hused, heq.trans (named_iff.mp h.named).2⟩)) he.name_inj

/-- **The name is bound to the new sector**, and the others stay. -/
theorem names_eq (he : Entries dev root) (hnew : ¬ Linked dev root e.inodeSector) :
    names (writeSlot dev root i e) root =
      update (names dev root) name (some e.inodeSector) := by
  refine eq_update_iff.mpr ⟨?_, fun n hn => names_congr fun j _ => ?_⟩
  · rw [names_eq_some_iff (h.entries he hnew)]
    exact ⟨i, h.lt, by rw [slot_write_self h.valid]; exact ⟨h.named, rfl⟩⟩
  · by_cases hji : j = i
    · subst hji
      have hne : e.named n ≠ true := fun hnamed => hn (Subtype.ext
        ((named_iff.mp hnamed).2.symm.trans (named_iff.mp h.named).2))
      rw [slot_write_self h.valid]
      exact .inr ⟨by simpa using hne, by simp [DirEntry.named, h.free]⟩
    · exact .inl (slot_write_of_ne h.valid hji)

end Adds

/-- **`dir_add`** of a new name, with a free place. -/
theorem dirAdd_adds (hon : OnDevice dev root) (hadd : Addable name)
    (hname : (range root.entries).find? (fun i => (slot dev root i).named name) = none)
    (hfree : (range root.entries).find? (fun i => !(slot dev root i).inUse) = some i)
    (hsector : sector < 2 ^ 32) (stack : DirEntry) :
    ∃ e, Adds dev root name i e ∧ e.inodeSector = sector ∧
      dirAdd dev root false name sector (.plenty stack) = .ok (writeSlot dev root i e, true) := by
  have hlen : (slot dev root i).name.length = nameMax + 1 := (slot_valid dev root i).name
  have hunused := find?_some hfree
  have hnone := find?_eq_none.mp hname
  refine ⟨_, ⟨?_, ?_, ⟨?_, hsector⟩, ?_, ?_⟩, rfl, dirAdd_of_free hon hadd hname hfree⟩
  · exact mem_range.mp (mem_of_find?_eq_some hfree)
  · simpa using hunused
  · exact (length_strlcpy _ _ (by omega)).trans hlen
  · refine named_iff.mpr ⟨rfl, cstring_strlcpy ?_⟩
    have hle := hadd.2
    omega
  · exact fun j hj => hnone j (mem_range.mpr hj)

/-- **`dir_add`** writes an entry or nothing. -/
theorem dirAdd_cases (hon : OnDevice dev root)
    (hlen : root.length = direntSize * root.entries) (name : CString) (hsector : sector < 2 ^ 32)
    (stack : DirEntry) :
    (¬ (Addable name ∧ names dev root name = none ∧
        ((range root.entries).find? fun i => !(slot dev root i).inUse).isSome) ∧
      dirAdd dev root false name sector (.plenty stack) = .ok (dev, false)) ∨
    Addable name ∧ names dev root name = none ∧
      ((range root.entries).find? fun i => !(slot dev root i).inUse).isSome ∧
      ∃ i e, Adds dev root name i e ∧ e.inodeSector = sector ∧
        dirAdd dev root false name sector (.plenty stack) =
          .ok (writeSlot dev root i e, true) := by
  by_cases hadd : Addable name
  · cases hname : (range root.entries).find? fun i => (slot dev root i).named name with
    | some i =>
      refine .inl ⟨fun h => ?_, dirAdd_of_named hon (.inr (by rw [hname]; rfl))⟩
      cases hname.symm.trans (map_eq_none_iff.mp h.2.1)
    | none =>
      cases hfree : (range root.entries).find? fun i => !(slot dev root i).inUse with
      | none => exact .inl ⟨fun h => Bool.false_ne_true h.2.2, dirAdd_of_full hon hlen hfree⟩
      | some i =>
        exact .inr ⟨hadd, map_eq_none_iff.mpr hname, rfl, i,
          dirAdd_adds hon hadd hname hfree hsector stack⟩
  · exact .inl ⟨fun h => hadd h.1, dirAdd_of_named hon (.inl hadd)⟩

/-! ## removing an entry -/

/-- The device after entry `i` has been marked as free. -/
def eraseSlot (dev : Device) (root : InodeDisk) (i : Nat) : Device :=
  writeSlot dev root i { slot dev root i with inUse := false }

theorem slot_erase_self :
    slot (eraseSlot dev root i) root i = { slot dev root i with inUse := false } :=
  slot_write_self ⟨(slot_valid dev root i).name, (slot_valid dev root i).sector⟩

theorem slot_erase_of_ne (hne : j ≠ i) : slot (eraseSlot dev root i) root j = slot dev root j :=
  slot_write_of_ne ⟨(slot_valid dev root i).name, (slot_valid dev root i).sector⟩ hne

/-- An entry in use after the write is another one, and has not changed. -/
theorem slot_erase_inUse (h : (slot (eraseSlot dev root i) root j).inUse = true) :
    j ≠ i ∧ slot (eraseSlot dev root i) root j = slot dev root j := by
  have hne : j ≠ i := by
    rintro rfl
    rw [slot_erase_self] at h
    contradiction
  exact ⟨hne, slot_erase_of_ne hne⟩

theorem SlotInj.erase {g : DirEntry → β} (h : SlotInj g dev root) :
    SlotInj g (eraseSlot dev root i) root := by
  intro j l hj hl hju hlu heq
  rw [(slot_erase_inUse hju).2, (slot_erase_inUse hlu).2] at heq
  rw [(slot_erase_inUse hju).2] at hju
  rw [(slot_erase_inUse hlu).2] at hlu
  exact h j l hj hl hju hlu heq

theorem Entries.erase (h : Entries dev root) : Entries (eraseSlot dev root i) root :=
  ⟨SlotInj.erase (g := (·.inodeSector)) h.sector_inj,
    SlotInj.erase (g := fun e => cstring e.name) h.name_inj⟩

theorem linked_erase_iff (h : Entries dev root) (hi : i < root.entries)
    (hused : (slot dev root i).inUse = true) :
    Linked (eraseSlot dev root i) root k ↔
      Linked dev root k ∧ k ≠ (slot dev root i).inodeSector := by
  constructor
  · rintro ⟨j, hj, hju, hsector⟩
    obtain ⟨hne, heq⟩ := slot_erase_inUse hju
    rw [heq] at hju hsector
    refine ⟨⟨j, hj, hju, hsector⟩, fun hk => hne ?_⟩
    exact h.sector_inj j i hj hi hju hused (hsector.trans hk)
  · rintro ⟨⟨j, hj, hju, rfl⟩, hne⟩
    have hji : j ≠ i := fun heq => hne (heq ▸ rfl)
    rw [← slot_erase_of_ne hji] at hju ⊢
    exact ⟨j, hj, hju, rfl⟩

/-- **The name is unbound**, and the others stay. -/
theorem names_erase (h : Entries dev root) (hi : i < root.entries)
    (hnamed : (slot dev root i).named name = true) :
    names (eraseSlot dev root i) root = update (names dev root) name none := by
  refine eq_update_iff.mpr ⟨?_, fun n hn => names_congr fun j _ => ?_⟩
  · rw [names_eq_none_iff]
    intro j hj hnj
    obtain ⟨hne, heq⟩ := slot_erase_inUse (named_iff.mp hnj).1
    rw [heq] at hnj
    exact hne (h.named_inj hj hi hnj hnamed)
  · by_cases hji : j = i
    · subst hji
      have hne : (slot dev root j).named n ≠ true := fun hnj => hn (Subtype.ext
        ((named_iff.mp hnj).2.symm.trans (named_iff.mp hnamed).2))
      rw [slot_erase_self]
      exact .inr ⟨rfl, by simpa using hne⟩
    · exact .inl (slot_erase_of_ne hji)

/-! ## the invariant -/

namespace Inv

theorem root_apart (h : Inv L refs s) (hk : Held s L.root k) : ¬ L.root.Covers k := by
  have happart := h.owned.apart _ k held_root_dir hk
  rwa [h.root] at happart

/-- **An entry is added** for an inode whose sectors nobody has. -/
theorem link (h : Inv L refs s) (hadd : Adds s.dev L.root name i e)
    (hnew : ¬ Held s L.root e.inodeSector)
    (howned : Owned s.toStore fun k => Held s L.root k ∨ k = e.inodeSector) :
    Inv L refs { s with dev := writeSlot s.dev L.root i e } ∧
      ∀ k, Held { s with dev := writeSlot s.dev L.root i e } L.root k ↔
        Held s L.root k ∨ k = e.inodeSector := by
  have hoff : Off L.root.Covers s.dev (writeSlot s.dev L.root i e) :=
    off_writeSlot h.root_length_lt hadd.lt hadd.valid.name
  have hlinked : ∀ k, Linked (writeSlot s.dev L.root i e) L.root k ↔
      Linked s.dev L.root k ∨ k = e.inodeSector := fun k => hadd.linked_iff
  have hout : ∀ k, Held s L.root k ∨ k = e.inodeSector → ¬ L.root.Covers k := by
    intro k hk
    have happart := howned.apart rootDirSector k (.inl held_root_dir) hk
    rwa [h.root] at happart
  have hinode : ∀ k, Held s L.root k ∨ k = e.inodeSector →
      diskInode (writeSlot s.dev L.root i e) k = diskInode s.dev k :=
    fun k hk => hoff.diskInode_eq (hout k hk)
  have hheld : ∀ k, Held { s with dev := writeSlot s.dev L.root i e } L.root k ↔
      Held s L.root k ∨ k = e.inodeSector := by
    intro k
    unfold Held
    rw [hlinked k]
    simp only [or_assoc]
    rw [or_comm (a := k = e.inodeSector)]
  have hsound : Sound (s.withStore ⟨writeSlot s.dev L.root i e, s.freeMap⟩) (Held s L.root)
      L.mapInode (refs.erase L.mapInode) [] :=
    h.sound_erase.store hoff rfl (fun k hk => hout k (.inl hk)) fun _ _ _ _ hx => hx
  refine ⟨h.of_sound { hsound with
      owned := howned.off hoff rfl hout fun k _ x _ hx => hx
      held := fun a ha => .inl (hsound.held a ha) } (perm_cons_erase h.mapOpen).symm
    (Same.refl refs s).store (hinode _ (.inl held_free_map)) (hinode _ (.inl held_root_dir))
    (hadd.entries h.entries fun hlink => hnew hlink.held) (fun k hk => ?_)
    (fun k => (hheld k).mp) (fun a ha hr => ?_) fun a ha hr => ?_, hheld⟩
  · rcases (hlinked k).mp hk with hk | rfl
    · exact h.fixed k hk
    · exact ⟨fun heq => hnew (.inl heq), fun heq => hnew (.inr (.inl heq))⟩
  · exact (h.opened.kept a ha hr).imp id (Or.imp id fun hlink => (hlinked _).mpr (.inl hlink))
  · obtain ⟨hmap, hroot, hnot⟩ := h.opened.removed a ha hr
    refine ⟨hmap, hroot, fun hlink => ?_⟩
    rcases (hlinked _).mp hlink with hlink | heq
    · exact hnot hlink
    · exact hnew (heq ▸ h.opened.held ha)

end Inv

/-- The state after `dir_remove` has erased entry `i` and marked the inode at `a`. -/
abbrev FileSys.unlinked (s : FileSys) (root : InodeDisk) (i a : Nat) : FileSys :=
  inodeRemove { s with dev := eraseSlot s.dev root i } a

/-- An inode is marked as removed. -/
theorem unlinked_of_ne {b : Nat} (hb : b ≠ a) :
    (s.unlinked root i a).inodes b = s.inodes b := update_of_ne hb _ _

theorem unlinked_self :
    (s.unlinked root i a).inodes a = { s.inodes a with removed := true } := update_self ..

namespace Inv

section

variable (h : Inv L refs s) (hi : i < L.root.entries)
  (hused : (slot s.dev L.root i).inUse = true)
  (hsector : (s.inodes a).sector = (slot s.dev L.root i).inodeSector)
include h hi hused hsector

theorem linked_unlinked :
    Linked (s.unlinked L.root i a).dev L.root k ↔
      Linked s.dev L.root k ∧ k ≠ (s.inodes a).sector := by
  rw [hsector]
  exact linked_erase_iff h.entries hi hused

theorem held_unlinked (hk : Held (s.unlinked L.root i a) L.root k) : Held s L.root k := by
  rcases hk with rfl | rfl | hlink | ⟨b, hb, hr, rfl⟩
  · exact held_free_map
  · exact held_root_dir
  · exact ((h.linked_unlinked hi hused hsector).mp hlink).1.held
  · by_cases hba : b = a
    · subst hba
      rw [unlinked_self]
      exact Linked.held ⟨i, hi, hused, hsector.symm⟩
    · rw [unlinked_of_ne hba] at hr ⊢
      exact .inr (.inr (.inr ⟨b, hb, hr, rfl⟩))

/-- **An entry is removed** while its inode is open, and the inode is marked. -/
theorem unlink (ha : a ∈ s.openInodes) : Inv L refs (s.unlinked L.root i a) := by
  have ho := h.opened
  have hlink : Linked s.dev L.root (s.inodes a).sector := ⟨i, hi, hused, hsector.symm⟩
  have hlinked := fun k => h.linked_unlinked hi hused hsector (k := k)
  have hoff : Off L.root.Covers s.dev (eraseSlot s.dev L.root i) :=
    off_writeSlot h.root_length_lt hi (slot_valid s.dev L.root i).name
  have hinode : ∀ k, Held s L.root k →
      diskInode (s.unlinked L.root i a).dev k = diskInode s.dev k :=
    fun k hk => hoff.diskInode_eq (h.root_apart hk)
  have hp := perm_cons_erase h.mapOpen
  have hsound : Sound (s.withStore ⟨eraseSlot s.dev L.root i, s.freeMap⟩) (Held s L.root)
      L.mapInode (refs.erase L.mapInode) [] :=
    h.sound_erase.store hoff rfl (fun k => h.root_apart) fun _ _ _ _ hx => hx
  refine h.of_sound (hsound.inodeRemove (hp.mem_iff.mp ((ho.mem a).mp ha))) hp.symm
    (.of_update rfl rfl rfl rfl rfl : Same refs s (s.unlinked L.root i a))
    (hinode _ held_free_map) (hinode _ held_root_dir) h.entries.erase
    (fun k hk => h.fixed k ((hlinked k).mp hk).1) (fun k => h.held_unlinked hi hused hsector)
    (fun b hb hr => ?_) fun b hb hr => ?_
  · have hba : b ≠ a := by
      rintro rfl
      simp [unlinked_self] at hr
    rw [unlinked_of_ne hba] at hr ⊢
    rcases ho.kept b hb hr with heq | heq | hlink
    · exact .inl heq
    · exact .inr (.inl heq)
    · exact .inr (.inr ((hlinked _).mpr ⟨hlink, fun heq => hba (ho.inj b hb a ha heq)⟩))
  · by_cases hba : b = a
    · subst hba
      rw [unlinked_self]
      obtain ⟨hmap, hroot⟩ := h.fixed _ hlink
      exact ⟨hmap, hroot, fun hlink => ((hlinked _).mp hlink).2 rfl⟩
    · rw [unlinked_of_ne hba] at hr ⊢
      obtain ⟨hmap, hroot, hnot⟩ := ho.removed b hb hr
      exact ⟨hmap, hroot, fun hlink => hnot ((hlinked _).mp hlink).1⟩

end

end Inv

/-! ## sectors of no file -/

/-- **A write to the data of one inode changes no other.** -/
theorem Owned.fileBytes_eq {H : Nat → Prop} {l : Nat} (h : Owned st H) (hl : H l) (hk : H k)
    (hne : k ≠ l) (hoff : Off (diskInode st.dev l).Covers st.dev dev') :
    diskInode dev' k = diskInode st.dev k ∧ fileBytes dev' k = fileBytes st.dev k := by
  have hinode : diskInode dev' k = diskInode st.dev k := hoff.diskInode_eq (h.apart l k hl hk)
  refine ⟨hinode, ?_⟩
  rw [fileBytes, hinode]
  refine hoff.content_eq (diskInode_length_lt _ _) fun x hx hx' => ?_
  exact hne (h.disjoint k l x hk hl hx hx')

/-- The sector holds the free map or the directory, or is free. -/
def Scratch (L : Layout) (s : FileSys) (sector : Nat) : Prop :=
  L.map.Covers sector ∨ L.root.Covers sector ∨ s.freeMap.bits sector = false

/-- No inode has the sector. -/
structure Unowned (s : FileSys) (root : InodeDisk) (sector : Nat) : Prop where
  inode : ¬ Held s root sector
  data : ∀ k, Held s root k → ¬ (diskInode s.dev k).Covers sector

/-- The inode that has just been created is not linked. -/
theorem Unowned.created (hf : Unowned s L.root f)
    (howned : Owned st fun k => Held s L.root k ∨ k = f)
    (hslots : SameSlots s.dev st.dev L.root) : Unowned (s.withStore st) L.root f := by
  exact ⟨fun hk => hf.inode (hslots.held.mp hk),
    fun k hk => howned.apart k f (.inl (hslots.held.mp hk)) (.inr rfl)⟩

namespace Inv

section

variable (h : Inv L refs s)
include h

/-- **A write to sectors of no file changes no file.** -/
theorem fileBytes_eq (hoff : Off (Scratch L s) s.dev dev')
    (hk : Held s L.root k) (hmap : k ≠ freeMapSector) (hroot : k ≠ rootDirSector) :
    diskInode dev' k = diskInode s.dev k ∧ fileBytes dev' k = fileBytes s.dev k := by
  have hinode : diskInode dev' k = diskInode s.dev k := by
    refine hoff.diskInode_eq ?_
    rintro (hcov | hcov | hbit)
    · exact h.map_apart hk hcov
    · exact h.root_apart hk hcov
    · rw [h.owned.used k hk] at hbit
      contradiction
  refine ⟨hinode, ?_⟩
  rw [fileBytes, hinode]
  refine hoff.content_eq (diskInode_length_lt _ _) fun x hx => ?_
  rintro (hcov | hcov | hbit)
  · rw [← h.map] at hcov
    exact hmap (h.owned.disjoint k freeMapSector x hk held_free_map hx hcov)
  · rw [← h.root] at hcov
    exact hroot (h.owned.disjoint k rootDirSector x hk held_root_dir hx hcov)
  · rw [h.owned.dataUsed k x hk hx] at hbit
    contradiction

theorem unowned_of_free (hfree : s.freeMap.bits f = false) :
    Unowned s L.root f where
  inode hk := by
    rw [h.owned.used f hk] at hfree
    contradiction
  data k hk hcov := by
    rw [h.owned.dataUsed k f hk hcov] at hfree
    contradiction

/-! ## allocating an inode -/

/-- **`free_map_allocate`** of one sector. -/
theorem allocate :
    freeMapAllocate s 1 true = .ok (s, none) ∨
    ∃ f st, freeMapAllocate s 1 true = .ok (s.withStore st, some f) ∧
      Inv L refs (s.withStore st) ∧ Off L.map.Covers s.dev st.dev ∧
      f < s.freeMap.bitCnt ∧ s.freeMap.bits f = false ∧
      st.freeMap = { s.freeMap with bits := fill s.freeMap.bits 1 f true } := by
  rcases Store.freeMapAllocate_spec h.size h.mapFile_some 1 with ⟨f, b, hb, hfirst, halloc⟩ | ⟨halloc, -⟩
  · have hbitCnt : b.bitCnt = s.freeMap.bitCnt := by rw [hb]
    have hwritten : Off (MapSectors s.mapInode) s.dev (mapWritten s.dev b s.mapInode) :=
      off_mapWritten (hbitCnt ▸ h.mapFile_some)
    have hoff := hwritten.mono fun k hk => h.mapSectors_iff.mp hk
    refine .inr ⟨f, ⟨mapWritten s.dev b s.mapInode, b⟩, ?_, ?_, hoff, ?_, ?_, hb⟩
    · rw [Fs.freeMapAllocate, halloc]
      rfl
    · refine h.store hoff hbitCnt (fun k => h.map_apart) (fun k => h.map_root_disjoint) ?_
      intro k _ x _ hx
      rw [hb]
      exact fill_of_eq hx
    · exact hfirst.fits
    · exact hfirst.clear f (le_refl f) (Nat.lt_succ_self f)
  · refine .inl ?_
    rw [Fs.freeMapAllocate, halloc]
    rfl

/-- **`inode_create`** in a sector of no inode. -/
theorem create (hlt : f < s.freeMap.bitCnt) (hused : s.freeMap.bits f = true)
    (hf : Unowned s L.root f) {n : Nat} (hn : n < 2 ^ 31) :
    inodeCreate s f n true true = .ok (s, false) ∨
    ∃ st, inodeCreate s f n true true = .ok (s.withStore st, true) ∧
      Inv L refs (s.withStore st) ∧
      Owned st (fun k => Held s L.root k ∨ k = f) ∧
      Off (fun k => Scratch L s k ∨ k = f) s.dev st.dev ∧
      SameSlots s.dev st.dev L.root ∧
      st.freeMap.bitCnt = s.freeMap.bitCnt ∧ st.freeMap.bits f = true ∧
      fileBytes st.dev f = replicate n 0 := by
  rcases h.sound_erase.inodeCreate hlt hused hf.inode hf.data hn with
    hfail | ⟨st, hrun, hsound, hoff, hbitCnt, hbit, -, hbytes⟩
  · exact .inl hfail
  · rw [h.mapInode_data] at hoff
    -- what is written lies outside the inodes and the directory
    have hheld : ∀ l, Held s L.root l →
        ¬ (L.map.Covers l ∨ l = f ∨ s.freeMap.bits l = false) := by
      rintro l hl (hcov | rfl | hbit)
      · exact h.map_apart hl hcov
      · exact hf.inode hl
      · exact (h.unowned_of_free hbit).inode hl
    have hroot : ∀ x, L.root.Covers x →
        ¬ (L.map.Covers x ∨ x = f ∨ s.freeMap.bits x = false) := by
      rintro x hx (hcov | rfl | hbit)
      · exact h.map_root_disjoint hx hcov
      · exact hf.data rootDirSector held_root_dir (h.root.symm ▸ hx)
      · exact (h.unowned_of_free hbit).data rootDirSector held_root_dir (h.root.symm ▸ hx)
    refine .inr ⟨st, hrun, h.of_store hsound hoff hheld hroot fun _ => .inl, hsound.owned,
      hoff.mono ?_, hoff.sameSlots h.root_length_lt hroot, hbitCnt, hbit, hbytes⟩
    rintro x (hcov | rfl | hbit)
    · exact .inl (.inl hcov)
    · exact .inr rfl
    · exact .inl (.inr (.inr hbit))

/-! ## filesys_create -/

theorem sameSlots_of_map (hoff : Off L.map.Covers s.dev dev') :
    SameSlots s.dev dev' L.root :=
  hoff.sameSlots h.root_length_lt fun _ => h.map_root_disjoint

theorem root_data {dir : Nat} (hdir : dir ∈ refs)
    (hsector : (s.inodes dir).sector = rootDirSector) :
    (s.inodes dir).data = L.root ∧ (s.inodes dir).denied = false := by
  have hopen := (h.opened.mem dir).mpr hdir
  refine ⟨?_, ?_⟩
  · rw [h.opened.data dir hopen, hsector, h.root]
  · rw [Inode.denied, h.opened.allowed dir hopen]
    rfl

theorem lookup {dir : Nat} (hdir : dir ∈ refs) (hsector : (s.inodes dir).sector = rootDirSector)
    (name : CString) :
    Fs.lookup s.dev (s.inodes dir).data name (fun _ => true) =
      .ok (((range L.root.entries).find? fun i => (slot s.dev L.root i).named name).map fun i =>
        (slot s.dev L.root i, direntSize * i)) := by
  rw [(h.root_data hdir hsector).1]
  exact lookup_eq h.root_onDevice name

end

end Inv

/-- **What an operation changes**: the directory becomes `g`, only the sectors `new` get an
inode, and no sector of a file is written. -/
structure Changes (L : Layout) (refs : List Nat) (s s' : FileSys) (g : CString → Option Nat)
    (new : Nat → Prop) : Prop where
  inv : Inv L refs s'
  same : Same refs s s'
  off : Off (Scratch L s) s.dev s'.dev
  names : names s'.dev L.root = g
  held : ∀ k, Held s' L.root k → Held s L.root k ∨ new k

namespace Changes

protected theorem refl (h : Inv L refs s) :
    Changes L refs s s (Fs.names s.dev L.root) fun _ => False :=
  ⟨h, .refl _ _, .refl _ _, rfl, fun _ => .inl⟩

end Changes

/-- The root directory has been opened as `dir`. -/
structure RootOpen (L : Layout) (refs : List Nat) (s s₁ : FileSys) (dir : Nat) : Prop where
  inv : Inv L (dir :: refs) s₁
  same : Same refs s s₁
  store : s₁.toStore = s.toStore
  sector : (s₁.inodes dir).sector = rootDirSector
  held : ∀ k, Held s₁ L.root k ↔ Held s L.root k

namespace RootOpen

variable {g : CString → Option Nat} {new : Nat → Prop} {s₁ s₂ : FileSys} {dir : Nat}
  (ho : RootOpen L refs s s₁ dir)
include ho

theorem dev_eq : s₁.dev = s.dev := congrArg Store.dev ho.store

/-- The change between opening the directory and closing it. -/
theorem close (hinv : Inv L refs s) (h : Changes L (dir :: refs) s₁ s₂ g new) :
    ∃ s', inodeClose s₂ dir true true = .ok s' ∧ Changes L refs s s' g new ∧
      ∀ k, Held s₂ L.root k → k ≠ freeMapSector → k ≠ rootDirSector →
        fileBytes s'.dev k = fileBytes s₂.dev k := by
  obtain ⟨s', hclose, hinv', hsame', hoff, hheld'⟩ := h.inv.inodeClose hinv.mapOpen
  have hscratch : ∀ x, Scratch L s₁ x → Scratch L s x := by
    intro x hx
    unfold Scratch at hx ⊢
    rwa [ho.store] at hx
  refine ⟨s', hclose, ⟨hinv', ?_, ?_, ?_, ?_⟩, ?_⟩
  · have hmid : Same refs s₁ s₂ :=
      ⟨h.same.files, h.same.freeMapFile, h.same.next,
        fun a ha => h.same.sector a (mem_cons_of_mem _ ha)⟩
    exact (ho.same.trans hmid).trans hsame'
  · have hfirst := h.off.mono hscratch
    rw [ho.dev_eq] at hfirst
    exact hfirst.trans (hoff.mono fun x hx => .inl hx)
  · exact (h.inv.sameSlots_of_map hoff).names.trans h.names
  · intro k hk
    exact (h.held k (hheld' k hk)).imp (ho.held k).mp id
  · intro k hk hmap hroot
    exact (h.inv.fileBytes_eq (hoff.mono fun x hx => .inl hx) hk hmap hroot).2

theorem close_unchanged (hinv : Inv L refs s) :
    ∃ s', inodeClose s₁ dir true true = .ok s' ∧
      Changes L refs s s' (names s.dev L.root) fun _ => False := by
  have hchanges := Changes.refl ho.inv
  rw [ho.dev_eq] at hchanges
  obtain ⟨s', hclose, hchanges', -⟩ := ho.close hinv hchanges
  exact ⟨s', hclose, hchanges'⟩

theorem lookup_none (hnone : names s.dev L.root name = none) :
    Fs.lookup s₁.dev (s₁.inodes dir).data name (fun _ => true) = .ok none := by
  have hlookup := ho.inv.lookup mem_cons_self ho.sector name
  rw [ho.dev_eq, map_eq_none_iff.mp hnone] at hlookup
  rw [ho.dev_eq]
  exact hlookup

end RootOpen

namespace Inv

section

variable (h : Inv L refs s)
include h

/-- **`dir_open_root`.** -/
theorem dirOpenRoot (stack : DirEntry) :
    ∃ s₁ dir, dirOpenRoot s (.plenty stack) = .ok (s₁, some dir) ∧ RootOpen L refs s s₁ dir := by
  obtain ⟨s₁, dir, hopen, hinv, hsame, hstore, hsector, hheld⟩ := h.inodeOpen (.inr (.inl rfl))
  refine ⟨s₁, dir, ?_, hinv, hsame, hstore, hsector, hheld⟩
  have hopen' : Fs.inodeOpen s rootDirSector (Memory.plenty stack).rootInode = .ok (s₁, some dir) :=
    hopen
  rw [Fs.dirOpenRoot, hopen']
  rfl

omit h in
@[simp] theorem dirClose_plenty (s : FileSys) (dir : Nat) (stack : DirEntry) :
    dirClose s dir (.plenty stack) = Fs.inodeClose s dir true true := rfl

theorem release_new (hlt : f < s.freeMap.bitCnt)
    (hused : s.freeMap.bits f = true) (hf : Unowned s L.root f) :
    ∃ st, Fs.freeMapRelease s f 1 true = .ok (s.withStore st) ∧
      Inv L refs (s.withStore st) ∧ Off L.map.Covers s.dev st.dev := by
  refine h.freeMapRelease f 1 (Nat.succ_le_of_lt hlt) (fun x hle hx => ?_) fun k hk x hx hx' => ?_
  · obtain rfl : x = f := by omega
    exact hused
  · obtain rfl : x = f := by omega
    rcases hx with rfl | hx
    · exact hf.inode hk
    · exact hf.data k hk hx

omit h in
theorem undo (hst : Inv L refs (s.withStore st)) (hlt : f < st.freeMap.bitCnt)
    (hused : st.freeMap.bits f = true) (hf : Unowned (s.withStore st) L.root f)
    (hoff : Off (Scratch L s) s.dev st.dev) (hslots : SameSlots s.dev st.dev L.root) :
    ∃ s', Fs.freeMapRelease (s.withStore st) f 1 true = .ok s' ∧
      Changes L refs s s' (names s.dev L.root) fun _ => False := by
  obtain ⟨st', hrel, hinv, hoff'⟩ := hst.release_new hlt hused hf
  have hslots' : SameSlots st.dev st'.dev L.root := hst.sameSlots_of_map hoff'
  refine ⟨_, hrel, hinv, ⟨rfl, rfl, le_rfl, fun _ _ => rfl⟩, ?_, ?_, ?_⟩
  · exact hoff.trans (hoff'.mono fun x hx => .inl hx)
  · exact hslots'.names.trans hslots.names
  · intro k hk
    exact .inl (hslots.held.mp ((hst.held_store hoff' fun _ => hst.map_root_disjoint).mp hk))

theorem unowned_new (hfree : s.freeMap.bits f = false)
    (hoff : Off L.map.Covers s.dev st.dev) :
    Unowned (s.withStore st) L.root f := by
  have hheld := fun k => h.held_store hoff (fun _ => h.map_root_disjoint) (k := k)
  have hf := h.unowned_of_free hfree
  refine ⟨fun hk => hf.inode ((hheld f).mp hk), fun k hk => ?_⟩
  have hk := (hheld k).mp hk
  rw [hoff.diskInode_eq (h.map_apart hk)]
  exact hf.data k hk

/-- **`filesys_create`**, after the root directory has been opened. -/
theorem createIn {dir : Nat} (hdir : dir ∈ refs) (hsector : (s.inodes dir).sector = rootDirSector)
    (name : CString) (size : OffT) (hsize : 0 ≤ size.val) (stack : DirEntry) :
    (∃ s', createIn s dir name size (.plenty stack) = .ok (s', false) ∧
      Changes L refs s s' (names s.dev L.root) fun _ => False) ∨
    ∃ s' f, createIn s dir name size (.plenty stack) = .ok (s', true) ∧
      Changes L refs s s' (update (names s.dev L.root) name (some f)) (· = f) ∧
      names s.dev L.root name = none ∧ ¬ Held s L.root f ∧ Held s' L.root f ∧
      fileBytes s'.dev f = replicate size.val.toNat 0 := by
  obtain ⟨z, hz⟩ := size
  obtain ⟨n, rfl⟩ := Int.eq_ofNat_of_zero_le hsize
  have hn : n < 2 ^ 31 := by omega
  rcases h.allocate with halloc | ⟨f, st₁, halloc, hinv₁, hoff₁, hlt, hfree, hmap₁⟩
  · refine .inl ⟨s, ?_, .refl h⟩
    simp [Fs.createIn, halloc]
  · have hne : f ≠ 0 := by
      rintro rfl
      exact (h.unowned_of_free hfree).inode held_free_map
    have hf₁ := h.unowned_new hfree hoff₁
    have hlt₁ : f < st₁.freeMap.bitCnt := by
      rwa [hmap₁]
    have hused₁ : st₁.freeMap.bits f = true := by
      rw [hmap₁]
      exact fill_of_mem (le_refl f) (Nat.lt_succ_self f)
    have hslots₁ := h.sameSlots_of_map hoff₁
    rcases hinv₁.create hlt₁ hused₁ hf₁ hn with
      hcreate | ⟨st₂, hcreate, hinv₂, howned, hoff₂, hslots₂, hbitCnt₂, hused₂, hbytes⟩
    · obtain ⟨s', hundo, hchanges⟩ := hinv₁.undo hlt₁ hused₁ hf₁
        (hoff₁.mono fun x hx => .inl hx) hslots₁
      refine .inl ⟨s', ?_, hchanges⟩
      simp [Fs.createIn, halloc, hcreate, hne, hundo]
    · have hoff : Off (Scratch L s) s.dev st₂.dev := by
        refine (hoff₁.mono fun x hx => .inl hx).trans (hoff₂.mono ?_)
        rintro x ((hcov | hcov | hbit) | rfl)
        · exact .inl hcov
        · exact .inr (.inl hcov)
        · refine .inr (.inr ?_)
          rw [hmap₁] at hbit
          exact of_fill_true hbit
        · exact .inr (.inr hfree)
      have hslots : SameSlots s.dev st₂.dev L.root :=
        fun i hi => (hslots₂ i hi).trans (hslots₁ i hi)
      have hf₂ := hf₁.created howned hslots₂
      have hroot : (s.inodes dir).data = L.root ∧ (s.inodes dir).denied = false :=
        hinv₂.root_data hdir hsector
      have hlt₂ : f < st₂.freeMap.bitCnt := hbitCnt₂.symm ▸ hlt₁
      have hlt32 : f < 2 ^ 32 := lt_trans hlt₁ hinv₁.size
      rcases dirAdd_cases hinv₂.root_onDevice h.rootLength name hlt32 stack with
        ⟨-, hadd⟩ | ⟨-, -, -, i, e, hadds, rfl, hadd⟩
      · obtain ⟨s', hundo, hchanges⟩ := hinv₂.undo (s := s) hlt₂ hused₂ hf₂ hoff hslots
        refine .inl ⟨s', ?_, hchanges⟩
        simp [Fs.createIn, halloc, hcreate, hne, hroot.1, hroot.2, hadd, hundo]
      · have hnew : ¬ Held (s.withStore st₂) L.root e.inodeSector := hf₂.inode
        have howned₂ : Owned st₂ fun k => Held (s.withStore st₂) L.root k ∨
            k = e.inodeSector := howned.mono fun _ => Or.imp_left hslots₂.held.mp
        obtain ⟨hinv₃, hheld₃⟩ := hinv₂.link hadds hnew howned₂
        have hlinked : ¬ Linked st₂.dev L.root e.inodeSector := fun hlink => hnew hlink.held
        have hroot₃ : Off L.root.Covers st₂.dev (writeSlot st₂.dev L.root i e) :=
          off_writeSlot h.root_length_lt hadds.lt hadds.valid.name
        refine .inr ⟨_, e.inodeSector, ?_, ⟨hinv₃, ?_, ?_, ?_, ?_⟩, ?_, ?_, ?_, ?_⟩
        · simp [Fs.createIn, halloc, hcreate, hroot.1, hroot.2, hadd]
        · exact ⟨rfl, rfl, le_rfl, fun _ _ => rfl⟩
        · exact hoff.trans (hroot₃.mono fun x hx => .inr (.inl hx))
        · rw [← hslots.names]
          exact hadds.names_eq hinv₂.entries hlinked
        · intro k hk
          exact ((hheld₃ k).mp hk).imp hslots.held.mp id
        · rw [← hslots.names, names_eq_none_iff]
          exact hadds.new
        · exact fun hk => (h.unowned_of_free hfree).inode hk
        · exact (hheld₃ _).mpr (.inr rfl)
        · have hne : e.inodeSector ≠ rootDirSector := fun heq => hnew (.inr (.inl heq))
          have hroot₂ : diskInode st₂.dev rootDirSector = L.root := hinv₂.root
          have hoff₃ : Off (diskInode st₂.dev rootDirSector).Covers st₂.dev
              (writeSlot st₂.dev L.root i e) := by
            rwa [hroot₂]
          change fileBytes (writeSlot st₂.dev L.root i e) e.inodeSector =
            replicate (n : Int).toNat 0
          rw [Int.toNat_natCast, ← hbytes]
          exact (howned.fileBytes_eq (.inl held_root_dir) (.inr rfl) hne hoff₃).2

/-- **`filesys_create`.** -/
theorem filesysCreate (name : CString) (size : OffT) (hsize : 0 ≤ size.val) (stack : DirEntry) :
    (∃ s', filesysCreate s name size (.plenty stack) = .ok (s', false) ∧
      Changes L refs s s' (names s.dev L.root) fun _ => False) ∨
    ∃ s' f, filesysCreate s name size (.plenty stack) = .ok (s', true) ∧
      Changes L refs s s' (update (names s.dev L.root) name (some f)) (· = f) ∧
      names s.dev L.root name = none ∧ ¬ Held s L.root f ∧
      fileBytes s'.dev f = replicate size.val.toNat 0 := by
  obtain ⟨s₁, dir, hopen, ho⟩ := h.dirOpenRoot stack
  rcases ho.inv.createIn mem_cons_self ho.sector name size hsize stack with
    ⟨s₂, hcreate, hchanges⟩ | ⟨s₂, f, hcreate, hchanges, hnone, hnew, hheld, hbytes⟩
  · rw [ho.dev_eq] at hchanges
    obtain ⟨s', hclose, hchanges', -⟩ := ho.close h hchanges
    refine .inl ⟨s', ?_, hchanges'⟩
    simp [Fs.filesysCreate, hopen, hcreate, hclose]
  · rw [ho.dev_eq] at hchanges hnone
    have hnew' : ¬ Held s L.root f := fun hk => hnew ((ho.held f).mpr hk)
    obtain ⟨s', hclose, hchanges', hkeep⟩ := ho.close h hchanges
    refine .inr ⟨s', f, ?_, hchanges', hnone, hnew', ?_⟩
    · simp [Fs.filesysCreate, hopen, hcreate, hclose]
    · rw [hkeep f hheld (fun heq => hnew' (.inl heq)) (fun heq => hnew' (.inr (.inl heq))), hbytes]

/-- With a negative size, `filesys_create` fails for want of a sector or stops at the
`ASSERT` in `inode_create`. -/
theorem filesysCreate_neg (name : CString) (size : OffT) (hsize : size.val < 0) (stack : DirEntry) :
    (∃ s', Fs.filesysCreate s name size (.plenty stack) = .ok (s', false) ∧
      Changes L refs s s' (names s.dev L.root) fun _ => False) ∨
    Fs.filesysCreate s name size (.plenty stack) = .error .length := by
  obtain ⟨s₁, dir, hopen, ho⟩ := h.dirOpenRoot stack
  rcases ho.inv.allocate with halloc | ⟨f, st, halloc, -⟩
  · obtain ⟨s', hclose, hchanges⟩ := ho.close_unchanged h
    refine .inl ⟨s', ?_, hchanges⟩
    have hcreate : Fs.createIn s₁ dir name size (.plenty stack) = .ok (s₁, false) := by
      simp [Fs.createIn, halloc]
    simp [Fs.filesysCreate, hopen, hcreate, hclose]
  · refine .inr ?_
    have hlength : Fs.inodeCreate (s₁.withStore st) f size true true = .error .length := by
      simp only [Fs.inodeCreate, Store.inodeCreate, if_pos hsize]
      rfl
    have hcreate : Fs.createIn s₁ dir name size (.plenty stack) = .error .length := by
      simp only [Fs.createIn, plenty_map, plenty_inodeDisk, halloc, ok_bind, hlength]
      rfl
    simp only [Fs.filesysCreate, hopen, ok_bind, hcreate]
    rfl

/-! ## filesys_open -/

/-- **`filesys_open`** of a name that is not bound. -/
theorem filesysOpen_none (stack : DirEntry) (hnone : names s.dev L.root name = none) :
    ∃ s', filesysOpen s name (.plenty stack) = .ok (s', none) ∧
      Changes L refs s s' (names s.dev L.root) fun _ => False := by
  obtain ⟨s₁, dir, hopen, ho⟩ := h.dirOpenRoot stack
  obtain ⟨s', hclose, hchanges⟩ := ho.close_unchanged h
  refine ⟨s', ?_, hchanges⟩
  have hdirLookup : dirLookup s₁ dir name (.plenty stack) = .ok (s₁, none) := by
    simp [dirLookup, DirMemory.plenty, ho.lookup_none hnone]
  simp [Fs.filesysOpen, hopen, hdirLookup, hclose, fileOpen]

end

theorem newFile (h : Inv L (a :: refs) s) : Inv L (a :: refs) (s.pushFile ⟨a, 0, false⟩) := by
  have hset : Inv L (a :: refs) (s.setFile s.next ⟨a, 0, false⟩) :=
    h.setFile fun heq => absurd heq (ne_of_gt h.mapLt)
  exact { hset with
    mapLt := Nat.lt_succ_of_lt h.mapLt
    opened := { h.opened with lt := fun b hb => Nat.lt_succ_of_lt (h.opened.lt b hb) } }

end Inv

/-- What `filesys_open` of a name bound to sector `f` does. -/
structure Opens (L : Layout) (refs : List Nat) (s s' : FileSys) (file f : Nat) : Prop where
  inv : Inv L ((s'.files file).inode :: refs) s'
  ge : s.next ≤ file
  lt : file < s'.next
  next : s.next ≤ s'.next
  pos : (s'.files file).pos = 0
  allowed : (s'.files file).denyWrite = false
  target : (s'.inodes (s'.files file).inode).sector = f
  files : ∀ h, h ≠ file → s'.files h = s.files h
  sector : ∀ b ∈ refs, (s'.inodes b).sector = (s.inodes b).sector
  off : Off (Scratch L s) s.dev s'.dev
  names : names s'.dev L.root = names s.dev L.root
  held : ∀ k, Held s' L.root k → Held s L.root k

namespace Inv

/-- **`filesys_open`** of a name that is bound. -/
theorem filesysOpen_some (h : Inv L refs s) (stack : DirEntry)
    (hsome : names s.dev L.root name = some f) :
    ∃ s' file, filesysOpen s name (.plenty stack) = .ok (s', some file) ∧
      Opens L refs s s' file f := by
  obtain ⟨s₁, dir, hopen, hinv₁, hsame₁, hstore₁, hsector, hheld₁⟩ := h.dirOpenRoot stack
  have hdev : s₁.dev = s.dev := congrArg Store.dev hstore₁
  rw [← hdev] at hsome
  obtain ⟨i, hfind, hf⟩ := map_eq_some_iff.mp hsome
  have hlookup := hinv₁.lookup mem_cons_self hsector name
  rw [hfind] at hlookup
  obtain ⟨s₂, a, hopen₂, hinv₂, hsame₂, hstore₂, htarget, hheld₂⟩ :=
    hinv₁.inodeOpen (.inr (.inr (linked_of_names hsome)))
  obtain ⟨s₃, hclose, hinv₃, hsame₃, hoff₃, hheld₃⟩ :=
    (hinv₂.perm (Perm.swap dir a refs)).inodeClose (mem_cons_of_mem _ h.mapOpen)
  have hdev₂ : s₂.dev = s.dev := (congrArg Store.dev hstore₂).trans hdev
  have hself : (s₃.pushFile ⟨a, 0, false⟩).files s₃.next = ⟨a, 0, false⟩ := update_self ..
  have hnext : s.next ≤ s₃.next :=
    le_trans hsame₁.next (le_trans hsame₂.next hsame₃.next)
  refine ⟨s₃.pushFile ⟨a, 0, false⟩, s₃.next, ?_, ⟨?_, hnext, Nat.lt_succ_self _,
    Nat.le_succ_of_le hnext, ?_, ?_, ?_, ?_, ?_, ?_, ?_, ?_⟩⟩
  · have hdirLookup : dirLookup s₁ dir name (.plenty stack) = .ok (s₂, some a) := by
      simp [dirLookup, DirMemory.plenty, hlookup, hf, hopen₂]
    have hfile : fileOpen s₃ (some a) (.plenty stack) =
        .ok (s₃.pushFile ⟨a, 0, false⟩, some s₃.next) := rfl
    simp [Fs.filesysOpen, hopen, hdirLookup, hclose, hfile]
  · rw [hself]
    exact hinv₃.newFile
  · rw [hself]
  · rw [hself]
  · rw [hself]
    exact (hsame₃.sector a mem_cons_self).trans htarget
  · intro file hne
    change update s₃.files s₃.next _ file = _
    rw [update_of_ne hne, hsame₃.files, hsame₂.files, hsame₁.files]
  · intro b hb
    exact (hsame₃.sector b (mem_cons_of_mem _ hb)).trans
      ((hsame₂.sector b (mem_cons_of_mem _ hb)).trans (hsame₁.sector b hb))
  · exact hdev₂ ▸ hoff₃.mono fun x hx => .inl hx
  · exact (hinv₂.sameSlots_of_map hoff₃).names.trans (by rw [hdev₂])
  · intro k hk
    exact (hheld₁ k).mp ((hheld₂ k).mp (hheld₃ k hk))

/-! ## filesys_remove -/

/-- **`dir_remove`** of a name that is bound. -/
theorem dirRemove {dir : Nat} (h : Inv L (dir :: refs) s) (hmap : L.mapInode ∈ refs)
    (hsector : (s.inodes dir).sector = rootDirSector) (stack : DirEntry)
    (hsome : names s.dev L.root name = some f) :
    ∃ s', dirRemove s dir name (.plenty stack) = .ok (s', true) ∧
      Changes L (dir :: refs) s s' (update (names s.dev L.root) name none)
        fun _ => False := by
  obtain ⟨i, hfind, hf⟩ := map_eq_some_iff.mp hsome
  obtain ⟨hi, hnamed⟩ := named_of_find hfind
  have hused := (named_iff.mp hnamed).1
  have hlookup := h.lookup mem_cons_self hsector name
  rw [hfind] at hlookup
  obtain ⟨s₁, a, hopen, hinv₁, hsame₁, hstore₁, htarget, hheld₁⟩ :=
    h.inodeOpen (.inr (.inr (linked_of_names hsome)))
  have hdev : s₁.dev = s.dev := congrArg Store.dev hstore₁
  have hroot : (s₁.inodes dir).data = L.root ∧ (s₁.inodes dir).denied = false :=
    hinv₁.root_data (mem_cons_of_mem _ mem_cons_self)
      ((hsame₁.sector dir mem_cons_self).trans hsector)
  have ha : a ∈ s₁.openInodes := (hinv₁.opened.mem a).mpr mem_cons_self
  have hwrite : inodeWriteAt s₁.dev L.root false
      (DirEntry.encode ⟨f, (slot s.dev L.root i).name, false⟩) (direntSize * i) true =
      .ok (eraseSlot s₁.dev L.root i, direntSize) := by
    rw [← hf, ← hdev]
    exact inodeWriteAt_entry hinv₁.root_onDevice hi (slot_valid s₁.dev L.root i).name
  have hentry : (s₁.inodes a).sector = (slot s₁.dev L.root i).inodeSector := by
    rw [hdev, hf, htarget]
  rw [← hdev] at hused hnamed
  have hinv₂ := hinv₁.unlink hi hused hentry ha
  have hheld₂ := fun k => hinv₁.held_unlinked hi hused hentry (k := k)
  have hroot₂ : Off L.root.Covers s₁.dev (eraseSlot s₁.dev L.root i) :=
    off_writeSlot h.root_length_lt hi (slot_valid s₁.dev L.root i).name
  obtain ⟨s', hclose, hinv', hsame', hoff', hheld'⟩ :=
    hinv₂.inodeClose (mem_cons_of_mem _ hmap)
  have hsame₂ : Same (dir :: refs) s₁ (s₁.unlinked L.root i a) :=
    .of_update rfl rfl rfl rfl rfl
  refine ⟨s', ?_, hinv', (hsame₁.trans hsame₂).trans hsame', ?_, ?_, ?_⟩
  · simp [Fs.dirRemove, DirMemory.plenty, hlookup, hf, hopen, hroot, hwrite, hclose]
  · rw [← hdev]
    have hfirst : Off (Scratch L s) s₁.dev (eraseSlot s₁.dev L.root i) :=
      hroot₂.mono fun x hx => .inr (.inl hx)
    exact hfirst.trans (hoff'.mono fun x hx => .inl hx)
  · rw [(hinv₂.sameSlots_of_map hoff').names, ← hdev]
    exact names_erase hinv₁.entries hi hnamed
  · intro k hk
    exact .inl ((hheld₁ k).mp (hheld₂ k (hheld' k hk)))

/-- **`filesys_remove`.** -/
theorem filesysRemove (h : Inv L refs s) (name : CString) (stack : DirEntry) :
    ∃ s', filesysRemove s name (.plenty stack) = .ok (s', (names s.dev L.root name).isSome) ∧
      Changes L refs s s' (update (names s.dev L.root) name none) fun _ => False := by
  obtain ⟨s₁, dir, hopen, ho⟩ := h.dirOpenRoot stack
  cases hnames : names s.dev L.root name with
  | none =>
    have hremove : Fs.dirRemove s₁ dir name (.plenty stack) = .ok (s₁, false) := by
      simp [Fs.dirRemove, DirMemory.plenty, ho.lookup_none hnames]
    obtain ⟨s', hclose, hchanges⟩ := ho.close_unchanged h
    rw [← update_eq_self name (names s.dev L.root), hnames] at hchanges
    refine ⟨s', ?_, hchanges⟩
    simp [Fs.filesysRemove, hopen, hremove, hclose]
  | some f =>
    rw [← ho.dev_eq] at hnames
    obtain ⟨s₂, hremove, hchanges⟩ := ho.inv.dirRemove h.mapOpen ho.sector stack hnames
    rw [ho.dev_eq] at hchanges
    obtain ⟨s', hclose, hchanges', -⟩ := ho.close h hchanges
    refine ⟨s', ?_, hchanges'⟩
    simp [Fs.filesysRemove, hopen, hremove, hclose]

/-! ## files -/

/-- **`file_close`.** -/
theorem fileClose (h : Inv L ((s.files file).inode :: refs) s)
    (hmap : L.mapInode ∈ refs) (hdeny : (s.files file).denyWrite = false) :
    ∃ s', fileClose s file true true = .ok s' ∧
      Changes L refs s s' (names s.dev L.root) fun _ => False := by
  obtain ⟨s', hclose, hinv, hsame, hoff, hheld⟩ := h.inodeClose hmap
  refine ⟨s', ?_, hinv, hsame, hoff.mono fun x hx => .inl hx,
    (h.sameSlots_of_map hoff).names, fun k hk => .inl (hheld k hk)⟩
  simp [Fs.fileClose, fileAllowWrite, hdeny, hclose]

/-- The file is open, on an inode that is not the free map's or the directory's. -/
structure OnFile (refs : List Nat) (s : FileSys) (file f : Nat) : Prop where
  mem : (s.files file).inode ∈ refs
  sector : (s.inodes (s.files file).inode).sector = f
  notMap : f ≠ freeMapSector
  notRoot : f ≠ rootDirSector

theorem onFile_data (h : Inv L refs s) (hfile : OnFile refs s file f) :
    Held s L.root f ∧ (s.inodes (s.files file).inode).data = diskInode s.dev f ∧
      (s.inodes (s.files file).inode).denied = false := by
  have hopen := (h.opened.mem _).mpr hfile.mem
  refine ⟨hfile.sector ▸ h.opened.held hopen, ?_, ?_⟩
  · rw [h.opened.data _ hopen, hfile.sector]
  · rw [Inode.denied, h.opened.allowed _ hopen]
    rfl

end Inv

theorem length_content (dev : Device) (data : InodeDisk) :
    (content dev data).length = data.length :=
  length_read

/-- What `inode_read_at` reads, as a part of the contents. -/
theorem read_below (dev : Device) (data : InodeDisk) (size offset : Nat) :
    read dev.bytes (data.addr offset) (data.below size offset) =
      ((content dev data).drop offset).take size := by
  rw [read_eq_slice (below_fits ..), take_eq_take_iff, length_drop, length_content, InodeDisk.below]
  omega

theorem content_put (dev : Device) (data : InodeDisk) (buffer : List UInt8) (offset : Nat) :
    content (dev.put (data.addr offset) (buffer.take (data.below buffer.length offset))) data =
      patch (content dev data) offset (buffer.take (data.length - offset)) := by
  have htake : buffer.take (data.below buffer.length offset) =
      buffer.take (data.length - offset) := by
    rw [InodeDisk.below, take_eq_take_iff]
    omega
  rw [htake]
  refine content_write ?_
  rw [length_take]
  omega

namespace Inv

/-- **`file_read`.** -/
theorem fileRead (h : Inv L refs s) (hfile : OnFile refs s file f) (size : OffT) :
    fileRead s file size true =
      .ok (s.setFile file { s.files file with
          pos := (s.files file).pos +
            (((fileBytes s.dev f).drop (s.files file).pos).take size.val.toNat).length },
        ((fileBytes s.dev f).drop (s.files file).pos).take size.val.toNat) := by
  obtain ⟨hheld, hdata, -⟩ := h.onFile_data hfile
  rw [Fs.fileRead, hdata, inodeReadAt_eq (h.onDevice hheld), read_below]
  rfl

/-- **`file_write`** changes the bytes of its file and no others. -/
theorem fileWrite (h : Inv L refs s) (hfile : OnFile refs s file f) (buffer : List UInt8) :
    ∃ dev', fileWrite s file buffer true =
        .ok ({ s.setFile file { s.files file with
            pos := (s.files file).pos +
              min buffer.length ((fileBytes s.dev f).length - (s.files file).pos) } with
          dev := dev' }, min buffer.length ((fileBytes s.dev f).length - (s.files file).pos)) ∧
      Inv L refs { s with dev := dev' } ∧
      Off (diskInode s.dev f).Covers s.dev dev' ∧
      fileBytes dev' f = patch (fileBytes s.dev f) (s.files file).pos
        (buffer.take ((fileBytes s.dev f).length - (s.files file).pos)) := by
  obtain ⟨hheld, hdata, hdenied⟩ := h.onFile_data hfile
  have hlen : (fileBytes s.dev f).length = (diskInode s.dev f).length := length_content _ _
  have hoff := off_writeAt s.dev (diskInode_length_lt s.dev f) buffer (s.files file).pos
  have hinode : diskInode (s.dev.put ((diskInode s.dev f).addr (s.files file).pos)
      (buffer.take ((diskInode s.dev f).below buffer.length (s.files file).pos))) f =
      diskInode s.dev f := hoff.diskInode_eq (h.owned.apart f f hheld hheld)
  have hroot : ∀ x, L.root.Covers x → ¬ (diskInode s.dev f).Covers x := by
    intro x hx hcov
    rw [← h.root] at hx
    exact hfile.notRoot (h.owned.disjoint f rootDirSector x hheld held_root_dir hcov hx)
  refine ⟨_, ?_, ?_, hoff, ?_⟩
  · rw [Fs.fileWrite, hdata, hdenied, inodeWriteAt_eq (h.onDevice hheld), hlen]
    rfl
  · exact h.store hoff rfl (fun k hk => h.owned.apart f k hheld hk) hroot fun _ _ _ _ hx => hx
  · rw [fileBytes, hinode, content_put, ← length_content s.dev (diskInode s.dev f)]
    rfl

end Inv

end Pintos.Fs

