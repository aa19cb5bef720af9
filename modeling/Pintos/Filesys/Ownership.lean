import Pintos.Filesys.Inodes

/-!
# Pintos.Filesys.Ownership

Who owns which sector.

`Held s root k` says that sector `k` has an inode that is in use: the free map's, the
root directory's, one that an entry of the directory names, or one that has been removed
and is still open.  `Owned` says that these sectors and the data extents of their inodes
are marked in the free map and do not overlap; `Inv` adds what the directory and the
open inodes have to do with it.  `refs` lists the references to open inodes, so that an
inode is open once for each time it is in the list.
-/

namespace Pintos.Fs

open Bytes FirstFit
open Function List Option

/-! ## the directory -/

/-- An entry in use names the sector. -/
def Linked (dev : Device) (root : InodeDisk) (sector : Nat) : Prop :=
  ∃ i < root.entries, (slot dev root i).inUse = true ∧ (slot dev root i).inodeSector = sector

/-- The entries in use have different names and different sectors. -/
structure Entries (dev : Device) (root : InodeDisk) : Prop where
  sector_inj : ∀ i j, i < root.entries → j < root.entries → (slot dev root i).inUse = true →
    (slot dev root j).inUse = true →
    (slot dev root i).inodeSector = (slot dev root j).inodeSector → i = j
  name_inj : ∀ i j, i < root.entries → j < root.entries → (slot dev root i).inUse = true →
    (slot dev root j).inUse = true →
    cstring (slot dev root i).name = cstring (slot dev root j).name → i = j

/-- Entries in use differ in `g`. -/
def SlotInj {β : Type} (g : DirEntry → β) (dev : Device) (root : InodeDisk) : Prop :=
  ∀ i j, i < root.entries → j < root.entries → (slot dev root i).inUse = true →
    (slot dev root j).inUse = true → g (slot dev root i) = g (slot dev root j) → i = j

/-- The directory has the same entries. -/
def SameSlots (dev dev' : Device) (root : InodeDisk) : Prop :=
  ∀ i < root.entries, slot dev' root i = slot dev root i

variable {dev dev' : Device} {root : InodeDisk} {W : Nat → Prop} {i k f : Nat} {e : DirEntry}

theorem slot_covers (h : root.length < 2 ^ 31) (hi : i < root.entries) {x : Nat}
    (hle : root.addr (direntSize * i) ≤ x) (hlt : x < root.addr (direntSize * i) + direntSize) :
    root.Covers (x / blockSectorSize) := by
  have hend := direntSize_mul_le hi
  unfold InodeDisk.addr at hle hlt
  refine InodeDisk.covers_addr h ?_ ?_
  all_goals
    unfold InodeDisk.addr
    omega

theorem Device.Off.sameSlots (h : Off W dev dev') (hlen : root.length < 2 ^ 31)
    (hout : ∀ k, root.Covers k → ¬ W k) : SameSlots dev dev' root := by
  intro i hi
  rw [slot, h.read_eq fun x hle hlt => hout _ (slot_covers hlen hi hle hlt), slot]

theorem off_writeSlot (hlen : root.length < 2 ^ 31) (hi : i < root.entries)
    (he : e.name.length = nameMax + 1) : Device.Off root.Covers dev (writeSlot dev root i e) := by
  refine .put fun x hle hlt => slot_covers hlen hi hle ?_
  rwa [DirEntry.length_encode he] at hlt

theorem SameSlots.linked (h : SameSlots dev dev' root) :
    Linked dev' root f ↔ Linked dev root f :=
  exists_congr fun i => and_congr_right fun hi => by rw [h i hi]

theorem SameSlots.entries (h : SameSlots dev dev' root) (he : Entries dev root) :
    Entries dev' root := by
  constructor
  · intro i j hi hj
    rw [h i hi, h j hj]
    exact he.sector_inj i j hi hj
  · intro i j hi hj
    rw [h i hi, h j hj]
    exact he.name_inj i j hi hj

/-- A directory with no entry in use. -/
theorem entries_of_unused (h : ∀ i < root.entries, (slot dev root i).inUse = false) :
    Entries dev root := by
  constructor <;>
  · intro i j hi _ hused
    cases (h i hi).symm.trans hused

theorem not_linked_of_unused (h : ∀ i < root.entries, (slot dev root i).inUse = false) :
    ¬ Linked dev root k := by
  rintro ⟨i, hi, hused, -⟩
  cases (h i hi).symm.trans hused

/-! ## open inodes -/

/-- The sector has an inode that is in use. -/
def Held (s : FileSys) (root : InodeDisk) (sector : Nat) : Prop :=
  sector = freeMapSector ∨ sector = rootDirSector ∨ Linked s.dev root sector ∨
    ∃ a ∈ s.openInodes, (s.inodes a).removed = true ∧ (s.inodes a).sector = sector

/-- The inodes in `open_inodes`, with the references to them. -/
structure Opened (s : FileSys) (root : InodeDisk) (refs : List Nat) : Prop where
  nodup : s.openInodes.Nodup
  lt : ∀ a ∈ s.openInodes, a < s.next
  inj : ∀ a ∈ s.openInodes, ∀ b ∈ s.openInodes,
    (s.inodes a).sector = (s.inodes b).sector → a = b
  kept : ∀ a ∈ s.openInodes, (s.inodes a).removed = false →
    (s.inodes a).sector = freeMapSector ∨ (s.inodes a).sector = rootDirSector ∨
      Linked s.dev root (s.inodes a).sector
  removed : ∀ a ∈ s.openInodes, (s.inodes a).removed = true →
    (s.inodes a).sector ≠ freeMapSector ∧ (s.inodes a).sector ≠ rootDirSector ∧
      ¬ Linked s.dev root (s.inodes a).sector
  data : ∀ a ∈ s.openInodes, (s.inodes a).data = diskInode s.dev (s.inodes a).sector
  allowed : ∀ a ∈ s.openInodes, (s.inodes a).denyWriteCnt = 0
  count : ∀ a ∈ s.openInodes, (s.inodes a).openCnt = refs.count a
  mem : ∀ a, a ∈ s.openInodes ↔ a ∈ refs

/-- What stays the same from formatting on. -/
structure Layout where
  map : InodeDisk
  root : InodeDisk
  mapFile : Nat
  mapInode : Nat

/-- The invariant of the file system. -/
structure Inv (L : Layout) (refs : List Nat) (s : FileSys) : Prop where
  size : s.freeMap.bitCnt < sizeTSize
  sectors : s.freeMap.bitCnt = s.dev.sectors
  mapFile : s.freeMapFile = some L.mapFile
  mapInode : (s.files L.mapFile).inode = L.mapInode
  mapLt : L.mapFile < s.next
  mapOpen : L.mapInode ∈ refs
  mapSector : (s.inodes L.mapInode).sector = freeMapSector
  map : diskInode s.dev freeMapSector = L.map
  root : diskInode s.dev rootDirSector = L.root
  mapLength : L.map.length = byteCnt s.freeMap.bitCnt
  rootLength : L.root.length = direntSize * L.root.entries
  entries : Entries s.dev L.root
  fixed : ∀ k, Linked s.dev L.root k → k ≠ freeMapSector ∧ k ≠ rootDirSector
  owned : Owned s.toStore (Held s L.root)
  opened : Opened s L.root refs

variable {L : Layout} {refs refs' : List Nat} {s s' : FileSys} {st : Store} {H : Nat → Prop} {a : Nat}

theorem held_free_map : Held s root freeMapSector := .inl rfl

theorem held_root_dir : Held s root rootDirSector := .inr (.inl rfl)

theorem SameSlots.held (h : SameSlots s.dev st.dev root) :
    Held (s.withStore st) root k ↔ Held s root k := by
  unfold Held
  rw [h.linked]

theorem Linked.held (h : Linked s.dev root f) : Held s root f := .inr (.inr (.inl h))

theorem Opened.held (h : Opened s root refs) (ha : a ∈ s.openInodes) :
    Held s root (s.inodes a).sector := by
  cases hr : (s.inodes a).removed with
  | true => exact .inr (.inr (.inr ⟨a, ha, hr, rfl⟩))
  | false =>
    rcases h.kept a ha hr with heq | heq | hlink
    · exact .inl heq
    · exact .inr (.inl heq)
    · exact hlink.held

namespace Inv

section

variable (h : Inv L refs s)
include h

theorem root_length_lt : L.root.length < 2 ^ 31 :=
  h.root ▸ diskInode_length_lt _ _

theorem mapInode_mem : L.mapInode ∈ s.openInodes :=
  (h.opened.mem _).mpr h.mapOpen

theorem mapInode_data : (s.inodes L.mapInode).data = L.map := by
  rw [h.opened.data _ h.mapInode_mem, h.mapSector, h.map]

end

theorem perm (h : Inv L refs s) (hp : refs.Perm refs') : Inv L refs' s := by
  have ho := h.opened
  refine { h with mapOpen := hp.mem_iff.mp h.mapOpen, opened := { ho with count := ?_, mem := ?_ } }
  · intro a ha
    rw [ho.count a ha, hp.count_eq]
  · intro a
    rw [ho.mem a, hp.mem_iff]

/-- **The file system with its root directory is a sound inode layer.** -/
theorem sound (h : Inv L (L.mapInode :: refs) s) :
    Sound s (Held s L.root) L.mapInode refs [] where
  size := h.size
  sectors := h.sectors
  mapFile := ⟨L.mapFile, h.mapFile, h.mapInode⟩
  mapSector := h.mapSector
  mapAllowed := not_mem_nil
  mapLength := by rw [h.mapInode_data, h.mapLength]
  owned := h.owned
  balanced := ⟨h.opened.nodup, h.opened.lt, h.opened.mem, h.opened.count,
    fun a ha => h.opened.allowed a ha, fun _ => Nat.zero_le _⟩
  inj := h.opened.inj
  held := fun _ ha => h.opened.held ha
  data := h.opened.data

section

variable (h : Inv L refs s) {refs₀ refs₁ : List Nat}
include h

theorem sound_erase : Sound s (Held s L.root) L.mapInode (refs.erase L.mapInode) [] :=
  (h.perm (perm_cons_erase h.mapOpen)).sound

theorem mapInode_eq : s.mapInode = some (s.inodes L.mapInode) := h.sound_erase.mapInode_eq

theorem isMapFile : MapFile s.dev s.freeMap.bitCnt (s.inodes L.mapInode) := h.sound_erase.isMapFile

theorem mapFile_some : ∀ inode, s.mapInode = some inode → MapFile s.dev s.freeMap.bitCnt inode := by
  intro inode heq
  rw [h.mapInode_eq, some.injEq] at heq
  exact heq ▸ h.isMapFile

theorem mapSectors_iff : MapSectors s.mapInode k ↔ L.map.Covers k := by
  rw [MapSectors, h.mapInode_eq]
  constructor
  · rintro ⟨inode, heq, hcov⟩
    rw [some.injEq] at heq
    rwa [← heq, h.mapInode_data] at hcov
  · intro hcov
    exact ⟨_, rfl, h.mapInode_data.symm ▸ hcov⟩

/-- No inode is in a sector of the free map's data. -/
theorem map_apart (hk : Held s L.root k) : ¬ L.map.Covers k := by
  have happart := h.owned.apart _ k held_free_map hk
  rwa [h.map] at happart

theorem map_root_disjoint (hk : L.root.Covers k) : ¬ L.map.Covers k := by
  intro hmap
  have heq := h.owned.disjoint freeMapSector rootDirSector k held_free_map held_root_dir
  rw [h.map, h.root] at heq
  exact absurd (heq hmap hk) (by decide)

theorem onDevice (hk : Held s L.root k) : OnDevice s.dev (diskInode s.dev k) :=
  h.sound_erase.onDevice hk

theorem root_onDevice : OnDevice s.dev L.root :=
  h.root ▸ h.onDevice held_root_dir

theorem held_store (hoff : Device.Off W s.dev st.dev) (hroot : ∀ k, L.root.Covers k → ¬ W k) :
    Held (s.withStore st) L.root k ↔ Held s L.root k :=
  (hoff.sameSlots h.root_length_lt hroot).held

/-- The invariant from that of the inode layer and what the directory has to do with it. -/
theorem of_sound (hsound : Sound s' H L.mapInode refs₀ [])
    (hp : (L.mapInode :: refs₀).Perm refs') (hsame : Same refs₁ s s')
    (hmap : diskInode s'.dev freeMapSector = diskInode s.dev freeMapSector)
    (hroot : diskInode s'.dev rootDirSector = diskInode s.dev rootDirSector)
    (hentries : Entries s'.dev L.root)
    (hfixed : ∀ k, Linked s'.dev L.root k → k ≠ freeMapSector ∧ k ≠ rootDirSector)
    (hH : ∀ k, Held s' L.root k → H k)
    (hkept : ∀ a ∈ s'.openInodes, (s'.inodes a).removed = false →
      (s'.inodes a).sector = freeMapSector ∨ (s'.inodes a).sector = rootDirSector ∨
        Linked s'.dev L.root (s'.inodes a).sector)
    (hremoved : ∀ a ∈ s'.openInodes, (s'.inodes a).removed = true →
      (s'.inodes a).sector ≠ freeMapSector ∧ (s'.inodes a).sector ≠ rootDirSector ∧
        ¬ Linked s'.dev L.root (s'.inodes a).sector) : Inv L refs' s' where
  size := hsound.size
  sectors := hsound.sectors
  mapFile := hsame.freeMapFile.trans h.mapFile
  mapInode := by rw [hsame.files]; exact h.mapInode
  mapLt := Nat.lt_of_lt_of_le h.mapLt hsame.next
  mapOpen := hp.mem_iff.mp mem_cons_self
  mapSector := hsound.mapSector
  map := hmap.trans h.map
  root := hroot.trans h.root
  mapLength := by rw [← hsound.mapLength, hsound.map_data, hmap, h.map]
  rootLength := h.rootLength
  entries := hentries
  fixed := hfixed
  owned := hsound.owned.mono hH
  opened := {
    nodup := hsound.balanced.nodup
    lt := hsound.balanced.lt
    inj := hsound.inj
    kept := hkept
    removed := hremoved
    data := hsound.data
    allowed := hsound.balanced.denyWriteCnt
    count := fun a ha => by rw [hsound.balanced.openCnt a ha, hp.count_eq]
    mem := fun a => (hsound.balanced.mem a).trans hp.mem_iff }

/-- The same when the directory has not changed. -/
theorem of_sameSlots (hsound : Sound s' H L.mapInode refs₀ [])
    (hp : (L.mapInode :: refs₀).Perm refs') (hsame : Same refs₁ s s')
    (hoff : Device.Off W s.dev s'.dev) (hout : ∀ k, Held s L.root k → ¬ W k)
    (hroot : ∀ k, L.root.Covers k → ¬ W k) (hH : ∀ k, Held s' L.root k → H k)
    (hkept : ∀ a ∈ s'.openInodes, (s'.inodes a).removed = false →
      (s'.inodes a).sector = freeMapSector ∨ (s'.inodes a).sector = rootDirSector ∨
        Linked s.dev L.root (s'.inodes a).sector)
    (hsub : RemovedSub s' s) : Inv L refs' s' := by
  have hslots := hoff.sameSlots h.root_length_lt hroot
  refine h.of_sound hsound hp hsame (hoff.diskInode_eq (hout _ held_free_map))
    (hoff.diskInode_eq (hout _ held_root_dir)) (hslots.entries h.entries)
    (fun k hk => h.fixed k (hslots.linked.mp hk)) hH (fun a ha hr => ?_) fun a ha hr => ?_
  · rw [hslots.linked]
    exact hkept a ha hr
  · obtain ⟨ha', hr', hsector⟩ := hsub a ha hr
    rw [hslots.linked, ← hsector]
    exact h.opened.removed a ha' hr'

/-- The same when the device and the free map change. -/
theorem of_store (hsound : Sound (s.withStore st) H L.mapInode (refs.erase L.mapInode) [])
    (hoff : Device.Off W s.dev st.dev) (hout : ∀ k, Held s L.root k → ¬ W k)
    (hroot : ∀ k, L.root.Covers k → ¬ W k) (hH : ∀ k, Held s L.root k → H k) :
    Inv L refs (s.withStore st) :=
  h.of_sameSlots hsound (perm_cons_erase h.mapOpen).symm
    (Same.refl refs s).store hoff hout hroot
    (fun k hk => hH k ((h.held_store hoff hroot).mp hk)) h.opened.kept fun _ ha hr => ⟨ha, hr, rfl⟩

/-- **Writing outside the directory and the sectors of the inodes** keeps the invariant,
when the bits of the inodes stay. -/
theorem store (hoff : Device.Off W s.dev st.dev)
    (hbitCnt : st.freeMap.bitCnt = s.freeMap.bitCnt)
    (hheld : ∀ k, Held s L.root k → ¬ W k) (hroot : ∀ k, L.root.Covers k → ¬ W k)
    (hbits : ∀ k, Held s L.root k → ∀ x, x = k ∨ (diskInode s.dev k).Covers x →
      s.freeMap.bits x = true → st.freeMap.bits x = true) :
    Inv L refs (s.withStore st) :=
  h.of_store (h.sound_erase.store hoff hbitCnt hheld hbits) hoff hheld hroot fun _ => id

end

end Inv

theorem Inv.setFile {file : Nat} {fl : File} (h : Inv L refs s)
    (hfile : file = L.mapFile → fl.inode = L.mapInode) : Inv L refs (s.setFile file fl) := by
  refine { h with mapInode := ?_, opened := { h.opened with } }
  change (update s.files file fl L.mapFile).inode = L.mapInode
  by_cases heq : L.mapFile = file
  · subst heq
    rw [update_self]
    exact hfile rfl
  · rw [update_of_ne heq]
    exact h.mapInode

/-! ## opening and closing an inode -/

theorem RemovedSub.held (hsub : RemovedSub s' s) (hdev : s'.dev = s.dev) (h : Held s' root k) :
    Held s root k := by
  rcases h with heq | heq | hlink | ⟨a, ha, hr, hsector⟩
  · exact .inl heq
  · exact .inr (.inl heq)
  · exact (hdev ▸ hlink : Linked s.dev root k).held
  · obtain ⟨ha', hr', heq⟩ := hsub a ha hr
    exact .inr (.inr (.inr ⟨a, ha', hr', heq.trans hsector⟩))

namespace Inv

/-- **`inode_open`**, of a sector with an inode that has not been removed. -/
theorem inodeOpen (h : Inv L refs s)
    (hk : k = freeMapSector ∨ k = rootDirSector ∨ Linked s.dev L.root k) :
    ∃ s' a, inodeOpen s k true = .ok (s', some a) ∧ Inv L (a :: refs) s' ∧ Same refs s s' ∧
      s'.toStore = s.toStore ∧ (s'.inodes a).sector = k ∧
      ∀ l, Held s' L.root l ↔ Held s L.root l := by
  have hheld : Held s L.root k := by
    rcases hk with rfl | rfl | hlink
    exacts [held_free_map, held_root_dir, hlink.held]
  have hp := perm_cons_erase h.mapOpen
  obtain ⟨s', a, hrun, hsound, -, hsame, hsub, hsup, hstore, hsector⟩ := h.sound_erase.inodeOpen hheld
  have hdev : s'.dev = s.dev := congrArg Store.dev hstore
  have hsame' : Same refs s s' := { hsame with sector := fun b hb => hsame.sector b (hp.mem_iff.mp hb) }
  refine ⟨s', a, hrun, ?_, hsame', hstore, hsector,
    fun l => ⟨hsub.held hdev, hsup.held hdev.symm⟩⟩
  refine h.of_sameSlots (W := fun _ => False) hsound ((List.Perm.swap ..).trans (hp.symm.cons a))
    hsame' (hdev ▸ .refl _ _) (fun _ _ => id) (fun _ _ => id) (fun _ hk => hsub.held hdev hk)
    (fun b hb hr => ?_) hsub
  rcases hsound.held b hb with heq | heq | hlink | ⟨c, hc, hrc, hsc⟩
  · exact .inl heq
  · exact .inr (.inl heq)
  · exact .inr (.inr hlink)
  · -- the removed inode would be the one at `b`
    obtain ⟨hc', hrc', hsc'⟩ := hsup c hc hrc
    cases hsound.inj c hc' b hb (hsc'.trans hsc)
    cases hrc'.symm.trans hr

/-- **`free_map_release`** of sectors that no inode has. -/
theorem freeMapRelease (h : Inv L refs s) (sector cnt : Nat)
    (hfits : sector + cnt ≤ s.freeMap.bitCnt)
    (hset : ∀ x, sector ≤ x → x < sector + cnt → s.freeMap.bits x = true)
    (hfree : ∀ k, Held s L.root k → ∀ x, x = k ∨ (diskInode s.dev k).Covers x →
      ¬ (sector ≤ x ∧ x < sector + cnt)) :
    ∃ st, freeMapRelease s sector cnt true = .ok (s.withStore st) ∧
      Inv L refs (s.withStore st) ∧ Device.Off L.map.Covers s.dev st.dev := by
  obtain ⟨st, hrel, hoff, hmap⟩ :=
    freeMapRelease_run sector cnt h.size h.mapInode_eq h.isMapFile hfits hset
  rw [h.mapInode_data] at hoff
  refine ⟨st, hrel, h.store hoff (by rw [hmap]) (fun k => h.map_apart)
    (fun k => h.map_root_disjoint) fun k hk x hx hbit => ?_, hoff⟩
  have hout := hfree k hk x hx
  rw [hmap]
  exact (fill_of_not_mem (by omega)).trans hbit

end Inv

namespace Inv

/-- **`inode_close`**; the last opener of a removed inode releases its sectors. -/
theorem inodeClose (h : Inv L (a :: refs) s) (hmap : L.mapInode ∈ refs) :
    ∃ s', inodeClose s a true true = .ok s' ∧ Inv L refs s' ∧ Same refs s s' ∧
      Device.Off L.map.Covers s.dev s'.dev ∧ ∀ k, Held s' L.root k → Held s L.root k := by
  have ho := h.opened
  have ha : a ∈ s.openInodes := (ho.mem a).mpr mem_cons_self
  have hp := perm_cons_erase hmap
  obtain ⟨s', H, hrun, hsound, -, hdropped, -, hsame, hsub, hoff⟩ :=
    (h.perm ((hp.cons a).trans (.swap ..))).sound.inodeClose (Nat.zero_le _)
  rw [h.mapInode_data] at hoff
  have hslots := hoff.sameSlots h.root_length_lt fun _ => h.map_root_disjoint
  have hsame' : Same refs s s' := { hsame with sector := fun b hb => hsame.sector b (hp.mem_iff.mp hb) }
  have hheld : ∀ k, Held s' L.root k → Held s L.root k := by
    rintro k (heq | heq | hlink | ⟨b, hb, hr, hsector⟩)
    · exact .inl heq
    · exact .inr (.inl heq)
    · exact (hslots.linked.mp hlink).held
    · obtain ⟨hb', hr', hsector'⟩ := hsub.removedSub b hb hr
      exact .inr (.inr (.inr ⟨b, hb', hr', hsector'.trans hsector⟩))
  refine ⟨s', hrun, ?_, hsame', hoff, hheld⟩
  refine h.of_sameSlots hsound hp.symm hsame hoff (fun _ => h.map_apart)
    (fun _ => h.map_root_disjoint) (fun k hk => ?_) (fun b hb hr => ?_) hsub.removedSub
  · rcases hdropped k (hheld k hk) with hk' | ⟨rfl, hr, hlast⟩
    · exact hk'
    · -- nobody has the sector of a removed inode after its last reference is gone
      have hnot := ho.removed a ha hr
      rcases hk with heq | heq | hlink | ⟨b, hb, -, hsector⟩
      · exact absurd heq hnot.1
      · exact absurd heq hnot.2.1
      · exact absurd (hslots.linked.mp hlink) hnot.2.2
      · obtain ⟨hb', -, hsector'⟩ := hsub b hb
        cases ho.inj b hb' a ha (hsector'.trans hsector)
        exact absurd ((hsound.balanced.mem a).mp hb) hlast
  · obtain ⟨hb', hremoved, hsector⟩ := hsub b hb
    rw [← hsector]
    exact ho.kept b hb' (hremoved.trans hr)

end Inv

end Pintos.Fs
