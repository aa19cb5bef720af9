import Pintos.Filesys.Operations

/-!
# Pintos.Filesys.Format

`filesys_init (true)`: the invariant holds on a device that has just been formatted, and
the directory is empty (`filesysInit_inv`).

The free map is written to its own file while the sectors of that file are being
allocated, and read back at the end; `bitmapOfBytes_bitmapBytes` is the round trip.
-/

namespace Pintos.Fs

open Bytes FirstFit Function List FileSys

variable {dev dev' : Device} {b : Bitmap} {junk : Nat → Bool} {stack : DirEntry} {s s' : FileSys}
  {k n sectors : Nat}

/-! ## the free map -/

theorem freeMapInit_ok (hsize : sectors < sizeTSize) (h : freeMapInit sectors junk = .ok b) :
    b.bitCnt = sectors ∧ sectors + 31 < sizeTSize ∧ 1 < sectors ∧
      b.bits freeMapSector = true ∧ b.bits rootDirSector = true := by
  have hset : bitmapSetMultiple ⟨sectors, junk⟩ 0 sectors false =
      some ⟨sectors, fill junk sectors 0 false⟩ :=
    bitmapSetMultiple_of_le hsize (le_of_eq (zero_add _))
  unfold freeMapInit at h
  split at h
  · cases h
  · next hbytes =>
    rw [hset] at h
    by_cases hone : 1 < sectors
    · have hzero : 0 < sectors := by omega
      simp [bitmapAssert, bitmapSet, freeMapSector, rootDirSector, hzero, hone] at h
      subst h
      refine ⟨rfl, ?_, hone, ?_, ?_⟩
      · unfold byteCnt elemCnt at hbytes
        unfold sizeTSize at hsize hbytes ⊢
        omega
      · simp [freeMapSector, update]
      · simp [rootDirSector]
    · by_cases hzero : 0 < sectors
      · simp [bitmapAssert, bitmapSet, freeMapSector, rootDirSector, hzero, hone] at h
      · simp [bitmapAssert, bitmapSet, freeMapSector, hzero] at h
        cases h

/-- The inode of the free-map file, open once. -/
def mapInodeOf (data : InodeDisk) : Inode := ⟨freeMapSector, 1, false, 0, data⟩

/-- The free-map file has been opened. -/
abbrev FileSys.mapOpened (s : FileSys) : FileSys :=
  { (s.pushInode (mapInodeOf (diskInode s.dev freeMapSector))).pushFile
      ⟨s.next, 0, false⟩ with freeMapFile := some (s.next + 1) }

theorem openMapFile_eq (s : FileSys) (stack : DirEntry) (hopen : s.openInodes = [])
    (hlt : freeMapSector < s.dev.sectors) :
    openMapFile s (.plenty stack) = .ok (s.mapOpened,
      mapInodeOf (diskInode s.dev freeMapSector)) := by
  have hread := blockRead_of_lt hlt
  have hinode : inodeOpen s freeMapSector true =
      .ok (s.pushInode (mapInodeOf (diskInode s.dev freeMapSector)),
        some s.next) := by
    simp [inodeOpen, hopen, hread, mapInodeOf, diskInode]
  have hfile : fileOpen (s.pushInode (mapInodeOf (diskInode s.dev freeMapSector)))
      (some s.next) (.plenty stack) =
      .ok ((s.pushInode (mapInodeOf (diskInode s.dev freeMapSector))).pushFile
        ⟨s.next, 0, false⟩, some (s.next + 1)) := rfl
  simp [openMapFile, hinode, hfile]

/-- **The invariant of a device with the two fixed inodes only.** -/
theorem inv_mapOpened (hopen : s.openInodes = []) (hsize : s.freeMap.bitCnt < sizeTSize)
    (hsectors : s.freeMap.bitCnt = s.dev.sectors)
    (howned : Owned s.toStore fun k => k = freeMapSector ∨ k = rootDirSector)
    (hmap : (diskInode s.dev freeMapSector).length = byteCnt s.freeMap.bitCnt)
    (hroot : (diskInode s.dev rootDirSector).length =
      direntSize * (diskInode s.dev rootDirSector).entries)
    (hfree : ∀ i < (diskInode s.dev rootDirSector).entries,
      (slot s.dev (diskInode s.dev rootDirSector) i).inUse = false) :
    Inv ⟨diskInode s.dev freeMapSector, diskInode s.dev rootDirSector, s.next + 1, s.next⟩ [s.next]
      s.mapOpened := by
  have hself : s.mapOpened.inodes s.next =
      ⟨freeMapSector, 1, false, 0, diskInode s.dev freeMapSector⟩ := update_self ..
  have hmem : ∀ a, a ∈ s.mapOpened.openInodes ↔ a = s.next := by
    intro a
    simp [hopen]
  have hheld : ∀ k, Held s.mapOpened (diskInode s.dev rootDirSector) k →
      k = freeMapSector ∨ k = rootDirSector := by
    rintro k (heq | heq | hlink | ⟨a, ha, hr, -⟩)
    · exact .inl heq
    · exact .inr heq
    · exact absurd hlink (not_linked_of_unused hfree)
    · rw [(hmem a).mp ha, hself] at hr
      cases hr
  have hfile : s.mapOpened.files (s.next + 1) = ⟨s.next, 0, false⟩ := update_self ..
  constructor
  · exact hsize
  · exact hsectors
  · rfl
  · rw [hfile]
  · exact Nat.lt_succ_self _
  · exact mem_cons_self
  · rw [hself]
  · rfl
  · rfl
  · exact hmap
  · exact hroot
  · exact entries_of_unused hfree
  · exact fun k hk => absurd hk (not_linked_of_unused hfree)
  · exact howned.mono hheld
  · constructor
    · simp [hopen]
    · intro a ha
      rw [(hmem a).mp ha]
      exact Nat.lt_succ_of_lt (Nat.lt_succ_self _)
    · intro a ha c hc _
      rw [(hmem a).mp ha, (hmem c).mp hc]
    · intro a ha _
      rw [(hmem a).mp ha, hself]
      exact .inl rfl
    · intro a ha hr
      rw [(hmem a).mp ha, hself] at hr
      cases hr
    · intro a ha
      rw [(hmem a).mp ha, hself]
    · intro a ha
      rw [(hmem a).mp ha, hself]
    · intro a ha
      rw [(hmem a).mp ha, hself]
      simp
    · intro a
      rw [hmem a, mem_singleton]

/-! ## do_format -/

theorem slot_unused {root : InodeDisk} {i : Nat}
    (hzeros : content dev root = replicate root.length 0) (hi : i < root.entries) :
    (slot dev root i).inUse = false := by
  have hread : read dev.bytes (root.addr (direntSize * i)) direntSize =
      replicate direntSize 0 := by
    have hle := direntSize_mul_le hi
    have hpart := take_drop_read (m := dev.bytes) (a := root.addr 0) hle
    have haddr : root.addr 0 + direntSize * i = root.addr (direntSize * i) := by
      unfold InodeDisk.addr
      omega
    rw [← content, hzeros, drop_replicate, take_replicate, haddr] at hpart
    rw [← hpart]
    congr 1
    omega
  rw [slot, hread]
  rfl

/-- `inode_create` of the free-map file. -/
theorem Creates.mapFile {H : Nat → Prop} {st : Store} (hsectors : b.bitCnt = dev.sectors)
    (hc : Creates none freeMapSector (byteCnt b.bitCnt) H ⟨dev, b⟩ st) :
    MapFile st.dev st.freeMap.bitCnt (mapInodeOf (diskInode st.dev freeMapSector)) := by
  refine ⟨rfl, ?_, ?_⟩
  · rw [hc.bitCnt]
    exact hc.length
  · have hfits := hc.owned.fits freeMapSector (.inr rfl)
    rw [hc.bitCnt] at hfits
    rw [hc.off.sectors]
    exact hfits.trans_eq hsectors

theorem freeMapCreate_spec (stack : DirEntry) (hsize : b.bitCnt < sizeTSize)
    (hsectors : b.bitCnt = dev.sectors) (hlt : freeMapSector < b.bitCnt)
    (hused : b.bits freeMapSector = true) :
    (∃ st, Creates none freeMapSector (byteCnt b.bitCnt) (fun _ => False) ⟨dev, b⟩ st ∧
      freeMapCreate (.boot dev b) (.plenty stack) =
        .ok ((boot st.dev st.freeMap).mapOpened.withStore ⟨mapWritten st.dev st.freeMap
          (some (mapInodeOf (diskInode st.dev freeMapSector))), st.freeMap⟩)) ∨
    freeMapCreate (.boot dev b) (.plenty stack) = .error .format := by
  have hnone : Owned ⟨dev, b⟩ fun _ => False := ⟨nofun, nofun, nofun, nofun, nofun, nofun⟩
  have hbitCnt : (boot dev b).freeMap.bitCnt = b.bitCnt := rfl
  rcases hnone.inodeCreate none hsize hsectors nofun hlt hused id nofun (byteCnt_lt b.bitCnt) with
    heq | ⟨st, heq, hc⟩
  · refine .inr ?_
    have hcreate : inodeCreate (.boot dev b) freeMapSector (byteCnt b.bitCnt) true true =
        .ok (.boot dev b, false) := by
      rw [inodeCreate, boot, mapInode, Option.map_none, heq]
      rfl
    simp [freeMapCreate, hbitCnt, hcreate]
    rfl
  · refine .inl ⟨st, hc, ?_⟩
    have hcreate : inodeCreate (.boot dev b) freeMapSector (byteCnt b.bitCnt) true true =
        .ok (.boot st.dev st.freeMap, true) := by
      rw [inodeCreate, boot, mapInode, Option.map_none, heq]
      rfl
    have hlt' : freeMapSector < st.dev.sectors := by
      rw [hc.off.sectors]
      exact hlt.trans_eq hsectors
    have hopened := openMapFile_eq (.boot st.dev st.freeMap) stack rfl hlt'
    simp only [freeMapCreate, hbitCnt, plenty_inodeDisk, plenty_map, hcreate, hopened, ok_bind]
    change (bitmapWrite st.dev st.freeMap (mapInodeOf (diskInode st.dev freeMapSector)) true >>= _)
      = _
    rw [bitmapWrite_eq (hc.mapFile hsectors)]
    rfl

theorem freeMapClose_mapOpened (s : FileSys) (st : Store) (stack : DirEntry) :
    freeMapClose (s.mapOpened.withStore st) (.plenty stack) =
      .ok ((s.mapOpened.withStore st).dropInode s.next) := by
  have hfile : (s.mapOpened.withStore st).files (s.next + 1) = ⟨s.next, 0, false⟩ :=
    update_self ..
  have hinode : (s.mapOpened.withStore st).inodes s.next =
      mapInodeOf (diskInode s.dev freeMapSector) := update_self ..
  have hallow : fileAllowWrite (s.mapOpened.withStore st) (s.next + 1) =
      .ok (s.mapOpened.withStore st) := by
    simp [fileAllowWrite]
  change fileClose (s.mapOpened.withStore st) (s.next + 1) true true = _
  rw [fileClose, hallow, ok_bind, hfile, inodeClose, hinode]
  rfl

theorem freeMapOpen_eq (s : FileSys) (stack : DirEntry) (hopen : s.openInodes = [])
    (hlt : freeMapSector < s.dev.sectors) (hon : OnDevice s.dev (diskInode s.dev freeMapSector))
    (hlen : (diskInode s.dev freeMapSector).length = byteCnt s.freeMap.bitCnt) :
    freeMapOpen s (.plenty stack) = .ok (s.withStore ⟨s.dev, bitmapOfBytes s.freeMap.bitCnt
      (content s.dev (diskInode s.dev freeMapSector))⟩).mapOpened := by
  have hbelow : (diskInode s.dev freeMapSector).below (byteCnt s.freeMap.bitCnt) 0 =
      (diskInode s.dev freeMapSector).length := by
    rw [InodeDisk.below, hlen, Nat.sub_zero, Nat.min_self]
  have hread : inodeReadAt s.dev (diskInode s.dev freeMapSector) (byteCnt s.freeMap.bitCnt) 0 true =
      .ok (content s.dev (diskInode s.dev freeMapSector)) := by
    rw [inodeReadAt_eq hon, hbelow, content]
  simp only [freeMapOpen, openMapFile_eq s stack hopen hlt, ok_bind, plenty_map]
  change (inodeReadAt s.dev (diskInode s.dev freeMapSector) (byteCnt s.freeMap.bitCnt) 0 true >>= _)
    = _
  rw [hread, ok_bind, if_pos ((length_content _ _).trans hlen)]
  rfl

/-- The two fixed inodes on a device that has been formatted. -/
structure Fixed (st : Store) (m r : InodeDisk) : Prop where
  map : diskInode st.dev freeMapSector = m
  root : diskInode st.dev rootDirSector = r
  mapBytes : content st.dev m = bitmapBytes st.freeMap
  rootBytes : content st.dev r = replicate r.length 0
  owned : Owned st fun k => k = freeMapSector ∨ k = rootDirSector

theorem doFormat_spec (stack : DirEntry) (hsize : b.bitCnt < sizeTSize)
    (hsectors : b.bitCnt = dev.sectors) (hlt : 1 < b.bitCnt)
    (hmap : b.bits freeMapSector = true) (hroot : b.bits rootDirSector = true) :
    (∃ m r s, doFormat (.boot dev b) (.plenty stack) = .ok s ∧ s.openInodes = [] ∧
      Fixed s.toStore m r ∧ m.length = byteCnt b.bitCnt ∧ r.length = 16 * direntSize ∧
      s.freeMap.bitCnt = b.bitCnt ∧ s.dev.sectors = dev.sectors) ∨
    doFormat (.boot dev b) (.plenty stack) = .error .format := by
  rcases freeMapCreate_spec stack hsize hsectors (Nat.lt_of_succ_lt hlt) hmap with
    ⟨st, hc, hcreate⟩ | herr
  · obtain ⟨M, hM⟩ : ∃ M, M = mapInodeOf (diskInode st.dev freeMapSector) := ⟨_, rfl⟩
    obtain ⟨dev₂, hdev₂⟩ : ∃ d, d = mapWritten st.dev st.freeMap (some M) := ⟨_, rfl⟩
    have hfile : MapFile st.dev st.freeMap.bitCnt M := hM ▸ hc.mapFile hsectors
    have hoff : Device.Off M.data.Covers st.dev dev₂ := hdev₂ ▸ hfile.off
    have hsectors₂ : dev₂.sectors = dev.sectors := hoff.sectors.trans hc.off.sectors
    have hout : ∀ k, False ∨ k = freeMapSector → ¬ M.data.Covers k := by
      intro k hk
      rw [hM]
      exact hc.owned.apart _ k (.inr rfl) hk
    have howned : Owned ⟨dev₂, st.freeMap⟩ fun k => False ∨ k = freeMapSector :=
      hc.owned.off hoff rfl hout fun _ _ _ _ hx => hx
    have hdata : M.data = diskInode dev₂ freeMapSector := by
      rw [hoff.diskInode_eq (hout _ (.inr rfl)), hM]
      rfl
    have hmapInode : ((boot st.dev st.freeMap).mapOpened.withStore
        ⟨dev₂, st.freeMap⟩).mapInode = some M := by
      rw [hM]
      rfl
    rw [← hM, ← hdev₂] at hcreate
    have hfree : ∀ l, False ∨ l = freeMapSector → ¬ (diskInode dev₂ l).Covers rootDirSector := by
      rintro l (hl | rfl) hcov
      · exact hl
      · rw [← hdata, hM] at hcov
        cases hroot.symm.trans (hc.fresh _ hcov)
    have hfile₂ : ∀ inode, some M = some inode → MapFile dev₂ st.freeMap.bitCnt inode ∧
        ∃ q, (False ∨ q = freeMapSector) ∧ inode.data = diskInode dev₂ q := by
      intro inode heq
      cases heq
      exact ⟨⟨hfile.allowed, hfile.length, hoff.sectors.symm ▸ hfile.fits⟩, _, .inr rfl, hdata⟩
    rcases howned.inodeCreate (some M) (hc.bitCnt ▸ hsize)
      (hc.bitCnt.trans (hsectors.trans hsectors₂.symm)) hfile₂ (hc.bitCnt ▸ hlt)
      (hc.bits _ hroot) (by decide) hfree (show 16 * direntSize < 2 ^ 31 by decide) with
      heq | ⟨st₂, heq, hc₂⟩
    · refine .inr ?_
      have hcreate₂ : inodeCreate ((boot st.dev st.freeMap).mapOpened.withStore
          ⟨dev₂, st.freeMap⟩) rootDirSector (16 * direntSize : Nat) true true =
          .ok ((boot st.dev st.freeMap).mapOpened.withStore ⟨dev₂, st.freeMap⟩, false) := by
        rw [inodeCreate, hmapInode, heq]
        rfl
      simp only [doFormat, hcreate, ok_bind, plenty_inodeDisk, plenty_map, hcreate₂]
      rfl
    · have hcreate₂ : inodeCreate ((boot st.dev st.freeMap).mapOpened.withStore
          ⟨dev₂, st.freeMap⟩) rootDirSector (16 * direntSize : Nat) true true =
          .ok ((boot st.dev st.freeMap).mapOpened.withStore st₂, true) := by
        rw [inodeCreate, hmapInode, heq]
        rfl
      have hclose := freeMapClose_mapOpened (.boot st.dev st.freeMap) st₂ stack
      refine .inl ⟨M.data, diskInode st₂.dev rootDirSector,
        ((boot st.dev st.freeMap).mapOpened.withStore st₂).dropInode 0, ?_, rfl,
        ⟨?_, rfl, hc₂.map M rfl, ?_, hc₂.owned.mono fun k hk => hk.imp_left .inr⟩, ?_, hc₂.length,
        hc₂.bitCnt.trans hc.bitCnt, hc₂.off.sectors.trans hsectors₂⟩
      · simp only [doFormat, hcreate, ok_bind, plenty_inodeDisk, plenty_map, hcreate₂]
        exact hclose
      · rw [hdata]
        exact hc₂.off.diskInode_eq (hc₂.out _ (.inr rfl))
      · rw [hc₂.length]
        exact hc₂.zeros
      · rw [hM]
        exact hc.length
  · refine .inr ?_
    rw [doFormat, herr]
    rfl

/-! ## filesys_init -/

/-- **A device that has been formatted.** -/
theorem filesysInit_inv (hsize : dev.sectors < sizeTSize)
    (h : filesysInit dev junk (.plenty stack) = .ok s) :
    ∃ L, Inv L [L.mapInode] s ∧ ∀ k, ¬ Linked s.dev L.root k := by
  unfold filesysInit at h
  cases hinit : freeMapInit dev.sectors junk with
  | error e =>
    rw [hinit] at h
    cases h
  | ok b =>
    obtain ⟨hbitCnt, hsize31, hlt, hmap, hroot⟩ := freeMapInit_ok hsize hinit
    rw [hinit, ok_bind] at h
    rcases doFormat_spec stack (hbitCnt ▸ hsize) hbitCnt (hbitCnt.symm ▸ hlt) hmap hroot with
      ⟨m, r, s₁, hformat, hopen, hfixed, hm, hr, hbitCnt₁, hsectors₁⟩ | herr
    · have hlt₀ : freeMapSector < s₁.dev.sectors := by
        rw [hsectors₁]
        exact Nat.lt_of_succ_lt hlt
      have hlength : (diskInode s₁.dev freeMapSector).length = byteCnt s₁.freeMap.bitCnt := by
        rw [hfixed.map, hm, hbitCnt₁]
      have hsectors : s₁.freeMap.bitCnt = s₁.dev.sectors := by
        rw [hbitCnt₁, hsectors₁, hbitCnt]
      -- the free map comes back from its file as it was written there
      obtain ⟨F, hF⟩ : ∃ F, F = bitmapOfBytes s₁.freeMap.bitCnt
          (content s₁.dev (diskInode s₁.dev freeMapSector)) := ⟨_, rfl⟩
      have hFcnt : F.bitCnt = s₁.freeMap.bitCnt := by
        rw [hF]
        rfl
      have hread : ∀ x < s₁.freeMap.bitCnt, F.bits x = s₁.freeMap.bits x := by
        intro x hx
        rw [hF, hfixed.map, hfixed.mapBytes]
        exact bitmapOfBytes_bitmapBytes (by rw [hbitCnt₁, hbitCnt]; exact hsize31) hx
      have howned : Owned ⟨s₁.dev, F⟩ fun k => k = freeMapSector ∨ k = rootDirSector := by
        refine hfixed.owned.off (.refl (fun _ => False) _) hFcnt (fun k _ => id) ?_
        intro k hk x hx hused
        have hlt : x < s₁.freeMap.bitCnt := by
          rcases hx with rfl | hx
          · exact hfixed.owned.lt x hk
          · exact hx.2.trans_le (hfixed.owned.fits k hk)
        exact (hread x hlt).trans hused
      have hon : OnDevice s₁.dev (diskInode s₁.dev freeMapSector) := by
        refine .of_fits (hlength ▸ byteCnt_lt _) ?_
        rw [← hsectors]
        exact hfixed.owned.fits _ (.inl rfl)
      have hfree : ∀ i < r.entries, (slot s₁.dev r i).inUse = false :=
        fun i hi => slot_unused hfixed.rootBytes hi
      have hroot₁ : diskInode s₁.dev rootDirSector = r := hfixed.root
      rw [hformat, ok_bind, freeMapOpen_eq s₁ stack hopen hlt₀ hon hlength, ← hF] at h
      cases h
      refine ⟨_, inv_mapOpened hopen ?_ ?_ howned ?_ ?_ ?_, ?_⟩
      · rwa [hFcnt, hbitCnt₁, hbitCnt]
      · exact hFcnt.trans hsectors
      · exact hlength.trans (congrArg byteCnt hFcnt.symm)
      · rw [hroot₁, InodeDisk.entries, hr]
        decide
      · rwa [hroot₁]
      · rw [hroot₁]
        exact fun k => not_linked_of_unused hfree
    · rw [herr] at h
      cases h

end Pintos.Fs
