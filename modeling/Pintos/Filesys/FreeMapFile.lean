import Pintos.Filesys.Effects

/-!
# Pintos.Filesys.FreeMapFile

The copy of the free map on the device (`filesys/free-map.c`).

The map is written to its file as it lies in memory whenever it changes, and
`free_map_open` reads it from there when the kernel boots.  The sectors of the file are
allocated from the map itself, and its inode is in a sector that no data of the file is in
(`HoldsMap`), so that no write of the map makes the file unreadable.  In every state that
is reached the map that a reboot would load is the map in memory (`free_map_survives`).
-/

namespace Pintos.Fs

open Bytes FirstFit

/-! ## the machine -/

/-- `free_map_init` and `free_map_create`, on a device that is being formatted. -/
def mapFormat (dev : Device) (junk : Nat → Bool) (memory : Memory) : Except Assertion FileSys := do
  let freeMap ← freeMapInit dev.sectors junk
  freeMapCreate (.boot dev freeMap) memory

/-- `free_map_init` and `free_map_open`, when the kernel boots. -/
def mapBoot (dev : Device) (junk : Nat → Bool) (memory : Memory) : Except Assertion FileSys := do
  let freeMap ← freeMapInit dev.sectors junk
  freeMapOpen (.boot dev freeMap) memory

/-- The device has a free-map file. -/
structure HoldsMap (dev : Device) : Prop where
  length : (diskInode dev freeMapSector).length = byteCnt dev.sectors
  fits : (diskInode dev freeMapSector).start +
    bytesToSectors (diskInode dev freeMapSector).length ≤ dev.sectors
  outside : ¬ (diskInode dev freeMapSector).Covers freeMapSector

/-- A sector of the free map: that of the inode or one of the file. -/
def MapSector (dev : Device) (sector : Nat) : Prop :=
  sector = freeMapSector ∨ (diskInode dev freeMapSector).Covers sector

instance (dev : Device) (sector : Nat) : Decidable (MapSector dev sector) := by
  unfold MapSector InodeDisk.Covers
  infer_instance

/-- A call of a function of the free map, a write to another sector or a reboot. -/
inductive MapOp
  | allocate (cnt : Nat)
  | release (sector cnt : Nat)
  | write (sector : Nat) (buffer : List UInt8)
  | reboot (junk : Nat → Bool)

/-- One step. -/
def mapExec (memory : Memory) (s : FileSys) : MapOp → Except Assertion FileSys
  | .allocate cnt => do
      let (s, _) ← freeMapAllocate s cnt (memory.map 0)
      return s
  | .release sector cnt => freeMapRelease s sector cnt (memory.map 0)
  | .write sector buffer => do
      let dev ← blockWrite s.dev sector buffer
      return { s with dev }
  | .reboot junk => mapBoot s.dev junk memory

/-- A write is to a sector that is not of the free map, and of the size of a sector. -/
def MapOp.Legal (s : FileSys) : MapOp → Prop
  | .write sector buffer => ¬ MapSector s.dev sector ∧ buffer.length = blockSectorSize
  | _ => True

instance (s : FileSys) (op : MapOp) : Decidable (op.Legal s) := by
  cases op <;> unfold MapOp.Legal <;> infer_instance

/-- The free map is created on a device, or opened on one that has a free-map file. -/
def MapStarted (memory : Memory) (s : FileSys) : Prop :=
  ∃ dev junk, dev.sectors < sizeTSize ∧
    (mapFormat dev junk memory = .ok s ∨ HoldsMap dev ∧ mapBoot dev junk memory = .ok s)

/-- Any sequence of calls that return. -/
def mapMachine (memory : Memory) : Machine FileSys MapOp where
  init := MapStarted memory
  step := fun s op => if op.Legal s then (mapExec memory s op).toOption else none

/-! ## booting -/

variable {dev dev' : Device} {b : Bitmap} {junk : Nat → Bool} {stack : DirEntry} {s s' : FileSys}
  {op : MapOp} {k cnt sectors : Nat} {W : Nat → Prop}

theorem freeMapInit_eq (hsize : sectors + 31 < sizeTSize) (hone : 1 < sectors)
    (junk : Nat → Bool) : ∃ b, freeMapInit sectors junk = .ok b ∧ b.bitCnt = sectors := by
  have hbytes : ¬ (byteCnt sectors = 0 ∧ sectors ≠ 0) := by
    unfold byteCnt elemCnt
    rw [Nat.mod_eq_of_lt hsize]
    omega
  have hset : bitmapSetMultiple ⟨sectors, junk⟩ 0 sectors false =
      some ⟨sectors, fill junk sectors 0 false⟩ :=
    bitmapSetMultiple_of_le (lt_of_le_of_lt (Nat.le_add_right _ _) hsize)
      (le_of_eq (zero_add _))
  have hzero : 0 < sectors := by omega
  rw [freeMapInit, if_neg hbytes, hset]
  simp only [bitmapAssert, ok_bind, bitmapSet, freeMapSector, rootDirSector, hzero, hone, if_pos]
  exact ⟨_, rfl, rfl⟩

/-- A write to other sectors keeps the file. -/
theorem HoldsMap.off (h : HoldsMap dev) (hoff : Device.Off W dev dev') (hout : ¬ W freeMapSector) :
    HoldsMap dev' := by
  have hinode := hoff.diskInode_eq hout
  constructor
  · rw [hinode, hoff.sectors]
    exact h.length
  · rw [hinode, hoff.sectors]
    exact h.fits
  · rw [hinode]
    exact h.outside

/-- The map that is on the device. -/
def storedMap (dev : Device) : Bitmap :=
  bitmapOfBytes dev.sectors (content dev (diskInode dev freeMapSector))

/-- **`free_map_open` loads the map that is on the device.** -/
theorem mapBoot_eq (h : HoldsMap dev) (hsize : dev.sectors + 31 < sizeTSize)
    (hone : 1 < dev.sectors) (junk : Nat → Bool) (stack : DirEntry) :
    ∃ s, mapBoot dev junk (.plenty stack) = .ok s ∧ s.toStore = ⟨dev, storedMap dev⟩ ∧
      s.mapInode = some (mapInodeOf (diskInode dev freeMapSector)) := by
  obtain ⟨b, hinit, hb⟩ := freeMapInit_eq hsize hone junk
  have hlen : (diskInode dev freeMapSector).length = byteCnt b.bitCnt := hb ▸ h.length
  have hon : OnDevice dev (diskInode dev freeMapSector) :=
    .of_fits (diskInode_length_lt _ _) h.fits
  have hopen := freeMapOpen_eq (.boot dev b) stack rfl (Nat.lt_of_succ_lt hone) hon hlen
  rw [mapBoot, hinit, ok_bind, hopen]
  refine ⟨_, rfl, ?_, rfl⟩
  change (⟨dev, bitmapOfBytes b.bitCnt _⟩ : Store) = _
  rw [hb]
  rfl

/-! ## the invariant -/

/-- The map in memory is that in the file, and `free_map_file` is the file. -/
structure MapInv (s : FileSys) : Prop where
  size : s.dev.sectors + 31 < sizeTSize
  one : 1 < s.dev.sectors
  bitCnt : s.freeMap.bitCnt = s.dev.sectors
  holds : HoldsMap s.dev
  file : ∃ inode, s.mapInode = some inode ∧ inode.denyWriteCnt = 0 ∧
    inode.data = diskInode s.dev freeMapSector
  same : ∀ i < s.dev.sectors, (storedMap s.dev).bits i = s.freeMap.bits i

namespace MapInv

theorem bitCnt_lt (h : MapInv s) : s.freeMap.bitCnt < sizeTSize := by
  have hsize := h.size
  rw [h.bitCnt]
  omega

theorem mapFile (h : MapInv s) :
    ∃ inode, s.mapInode = some inode ∧ inode.data = diskInode s.dev freeMapSector ∧
      MapFile s.dev s.freeMap.bitCnt inode := by
  obtain ⟨inode, hinode, hallowed, hdata⟩ := h.file
  refine ⟨inode, hinode, hdata, hallowed, ?_, ?_⟩
  · rw [hdata, h.bitCnt]
    exact h.holds.length
  · rw [hdata]
    exact h.holds.fits

/-- **A map that has been written to the file is there.** -/
theorem mapWritten (h : MapInv s) (hb : b.bitCnt = s.freeMap.bitCnt) :
    MapInv (s.withStore ⟨mapWritten s.dev b s.mapInode, b⟩) := by
  obtain ⟨inode, hinode, hdata, hfile⟩ := h.mapFile
  obtain ⟨-, -, hallowed, -⟩ := h.file
  rw [← hb] at hfile
  have hoff := hfile.off
  have hout : ¬ inode.data.Covers freeMapSector := hdata ▸ h.holds.outside
  have hkept := hoff.diskInode_eq hout
  have hcontent : content (Fs.mapWritten s.dev b (some inode))
      (diskInode (Fs.mapWritten s.dev b (some inode)) freeMapSector) = bitmapBytes b := by
    rw [hkept, ← hdata, hfile.content_eq]
  have hsectors : (Fs.mapWritten s.dev b (some inode)).sectors = s.dev.sectors := hoff.sectors
  have hmap : (s.withStore ⟨Fs.mapWritten s.dev b (some inode), b⟩).mapInode = some inode := hinode
  have hbitCnt : b.bitCnt = s.dev.sectors := hb.trans h.bitCnt
  rw [hinode]
  constructor
  · exact hsectors.symm ▸ h.size
  · exact hsectors.symm ▸ h.one
  · exact hbitCnt.trans hsectors.symm
  · exact h.holds.off hoff hout
  · exact ⟨inode, hmap, hfile.allowed, hdata.trans hkept.symm⟩
  · intro i hi
    have hlt : i < b.bitCnt := hbitCnt ▸ hsectors ▸ hi
    have hsize : b.bitCnt + 31 < sizeTSize := hbitCnt ▸ h.size
    change (bitmapOfBytes (Fs.mapWritten s.dev b (some inode)).sectors (content _ _)).bits i = b.bits i
    rw [hcontent, hsectors, ← hbitCnt]
    exact bitmapOfBytes_bitmapBytes hsize hlt

theorem of_boot (hdev : HoldsMap dev) (hsize : dev.sectors + 31 < sizeTSize)
    (hone : 1 < dev.sectors) (hboot : mapBoot dev junk (.plenty stack) = .ok s) : MapInv s := by
  obtain ⟨s₁, heq, hstore, hfile⟩ := mapBoot_eq hdev hsize hone junk stack
  cases heq.symm.trans hboot
  have hs : s.dev = dev := congrArg Store.dev hstore
  have hm : s.freeMap = storedMap dev := congrArg Store.freeMap hstore
  constructor
  · rwa [hs]
  · rwa [hs]
  · rw [hm, hs]
    rfl
  · rwa [hs]
  · rw [hs]
    exact ⟨_, hfile, rfl, rfl⟩
  · intro i _
    rw [hm, hs]

end MapInv

/-! ## the steps -/

theorem mapFormat_inv (hsize : dev.sectors < sizeTSize)
    (h : mapFormat dev junk (.plenty stack) = .ok s) : MapInv s := by
  obtain ⟨b, hinit, hcreate⟩ := bind_eq_ok h
  obtain ⟨hbitCnt, hsize31, hone, hused, -⟩ := freeMapInit_ok hsize hinit
  rcases freeMapCreate_spec stack (hbitCnt ▸ hsize) hbitCnt (hbitCnt ▸ Nat.lt_of_succ_lt hone) hused
    with ⟨st, hc, heq⟩ | herr
  · have hsectors : st.dev.sectors = dev.sectors := hc.off.sectors
    have hcnt : st.freeMap.bitCnt = st.dev.sectors := (hc.bitCnt.trans hbitCnt).trans hsectors.symm
    have hfile := hc.mapFile hbitCnt
    have hholds : HoldsMap st.dev :=
      ⟨hcnt ▸ hfile.length, hfile.fits, hc.owned.apart _ _ (.inr rfl) (.inr rfl)⟩
    -- the file holds zeros before the map is written, so it is compared with a map of zeros
    have hzeros : MapInv ((FileSys.boot st.dev (storedMap st.dev)).mapOpened) := by
      refine ⟨hsectors.symm ▸ hsize31, hsectors.symm ▸ hone, rfl, hholds, ?_, fun _ _ => rfl⟩
      exact ⟨_, rfl, rfl, rfl⟩
    cases heq.symm.trans hcreate
    exact hzeros.mapWritten hcnt
  · cases herr.symm.trans hcreate

theorem freeMapRelease_written (h : MapInv s) (hrelease : freeMapRelease s k cnt true = .ok s') :
    ∃ b, b.bitCnt = s.freeMap.bitCnt ∧ s' = s.withStore ⟨mapWritten s.dev b s.mapInode, b⟩ := by
  obtain ⟨st, hst, hs'⟩ := bind_eq_ok hrelease
  obtain ⟨fm, hfm, hst⟩ := bind_eq_ok hst
  obtain ⟨inode, hinode, -, hfile⟩ := h.mapFile
  have hbitCnt : fm.bitCnt = s.freeMap.bitCnt := by rw [eq_of_freeMapRelease hfm]
  rw [hinode] at hst
  dsimp only at hst
  rw [bitmapWrite_eq (b := fm) (hbitCnt ▸ hfile)] at hst
  cases hst
  cases hs'
  exact ⟨fm, hbitCnt, by rw [hinode]⟩

theorem freeMapAllocate_written (h : MapInv s) {sector : Option Nat}
    (hallocate : freeMapAllocate s cnt true = .ok (s', sector)) :
    s' = s ∨
      ∃ b, b.bitCnt = s.freeMap.bitCnt ∧ s' = s.withStore ⟨mapWritten s.dev b s.mapInode, b⟩ := by
  obtain ⟨inode, hinode, -, hfile⟩ := h.mapFile
  have hfiles : ∀ i, s.mapInode = some i → MapFile s.toStore.dev s.toStore.freeMap.bitCnt i := by
    intro i hi
    cases hinode.symm.trans hi
    exact hfile
  obtain ⟨⟨st, r⟩, hst, hs'⟩ := bind_eq_ok hallocate
  cases hs'
  rcases Store.freeMapAllocate_spec h.bitCnt_lt hfiles cnt with
    ⟨k, b, hb, -, heq⟩ | ⟨heq, -⟩
  · cases heq.symm.trans hst
    exact .inr ⟨b, by rw [hb], rfl⟩
  · cases heq.symm.trans hst
    exact .inl rfl

/-- **One step keeps the invariant.** -/
theorem MapInv.exec (h : MapInv s) (hlegal : op.Legal s)
    (hexec : mapExec (.plenty stack) s op = .ok s') : MapInv s' := by
  cases op with
  | allocate cnt =>
    obtain ⟨⟨s₁, r⟩, hallocate, hs'⟩ := bind_eq_ok hexec
    cases hs'
    rcases freeMapAllocate_written h hallocate with rfl | ⟨b, hb, rfl⟩
    · exact h
    · exact h.mapWritten hb
  | release sector cnt =>
    obtain ⟨b, hb, rfl⟩ := freeMapRelease_written h hexec
    exact h.mapWritten hb
  | write sector buffer =>
    obtain ⟨hout, hlen⟩ := hlegal
    obtain ⟨dev, hwrite, hs'⟩ := bind_eq_ok hexec
    cases hs'
    unfold blockWrite at hwrite
    split at hwrite
    · cases hwrite
      have hoff : Device.Off (fun x => x = sector) s.dev
          (s.dev.put (sector * blockSectorSize) buffer) := by
        refine .put fun x hle hlt => ?_
        unfold blockSectorSize at *
        omega
      have hzero : ¬ freeMapSector = sector := fun heq => hout (.inl heq.symm)
      have hinode := hoff.diskInode_eq hzero
      refine ⟨h.size, h.one, h.bitCnt, h.holds.off hoff hzero, ?_, ?_⟩
      · obtain ⟨inode, hfile, hallowed, hdata⟩ := h.file
        exact ⟨inode, hfile, hallowed, hdata.trans hinode.symm⟩
      · intro i hi
        have hcontent := hoff.content_eq (diskInode_length_lt s.dev freeMapSector)
          fun x hcov heq => hout (.inr (heq ▸ hcov))
        rw [← h.same i hi]
        change (bitmapOfBytes s.dev.sectors (content (s.dev.put (sector * blockSectorSize) buffer)
          (diskInode (s.dev.put (sector * blockSectorSize) buffer) freeMapSector))).bits i = _
        rw [hinode, hcontent]
        rfl
    · cases hwrite
  | reboot junk => exact .of_boot h.holds h.size h.one hexec

theorem MapStarted.inv (h : MapStarted (.plenty stack) s) : MapInv s := by
  obtain ⟨dev, junk, hsize, hformat | ⟨hdev, hboot⟩⟩ := h
  · exact mapFormat_inv hsize hformat
  · obtain ⟨b, hinit, -⟩ := bind_eq_ok hboot
    obtain ⟨-, hsize31, hone, -⟩ := freeMapInit_ok hsize hinit
    exact .of_boot hdev hsize31 hone hboot

theorem mapMachine_reach_inv (h : (mapMachine (.plenty stack)).Reach s) : MapInv s := by
  refine h.invariant (fun _ => MapStarted.inv) ?_
  intro s op s' hinv _ hstep
  simp only [mapMachine] at hstep
  split at hstep
  · next hlegal => exact hinv.exec hlegal (eq_ok_of_toOption hstep)
  · cases hstep

/-- **The free map survives a reboot**: in every state reached, what `free_map_open` would
load from the device is the map in memory, bit for bit. -/
theorem free_map_survives (h : (mapMachine (.plenty stack)).Reach s) (junk : Nat → Bool) :
    ∃ s', mapBoot s.dev junk (.plenty stack) = .ok s' ∧
      s'.freeMap.bitCnt = s.freeMap.bitCnt ∧
      ∀ i < s.freeMap.bitCnt, s'.freeMap.bits i = s.freeMap.bits i := by
  have hinv := mapMachine_reach_inv h
  obtain ⟨s', hboot, hstore, -⟩ := mapBoot_eq hinv.holds hinv.size hinv.one junk stack
  have hmap : s'.freeMap = storedMap s.dev := congrArg Store.freeMap hstore
  refine ⟨s', hboot, ?_, ?_⟩
  · rw [hmap, hinv.bitCnt]
    rfl
  · intro i hi
    rw [hmap]
    exact hinv.same i (hinv.bitCnt ▸ hi)

/-- A run on the small device: two sectors are allocated, the first is released, and the map
is loaded again with the second marked. -/
theorem free_map_survives_small :
    ∃ s, (mapMachine (.plenty blankEntry)).Reach s ∧
      (s.freeMap.bits 3 = false ∧ s.freeMap.bits 4 = true) ∧
      ∃ s', mapBoot s.dev (fun _ => true) (.plenty blankEntry) = .ok s' ∧
        s'.freeMap.bitCnt = s.freeMap.bitCnt ∧
        ∀ i < s.freeMap.bitCnt, s'.freeMap.bits i = s.freeMap.bits i := by
  have hrun : ((mapFormat smallDevice (fun _ => true) (.plenty blankEntry)).toOption.bind fun s =>
      (mapMachine (.plenty blankEntry)).runFrom s
        [.allocate 2, .release 3 1, .reboot fun _ => true]).map
      (fun s => !s.freeMap.bits 3 && s.freeMap.bits 4) = some true := by
    decide +kernel
  obtain ⟨s, hs, hbits⟩ := Option.map_eq_some_iff.mp hrun
  obtain ⟨s₀, hformat, hsteps⟩ := Option.bind_eq_some_iff.mp hs
  have hreach : (mapMachine (.plenty blankEntry)).Reach s :=
    Machine.Reach.runFrom (.init ⟨smallDevice, fun _ => true, by decide, .inl ?_⟩) _ hsteps
  · refine ⟨s, hreach, ?_, free_map_survives hreach fun _ => true⟩
    simpa using hbits
  · exact eq_ok_of_toOption hformat

end Pintos.Fs
