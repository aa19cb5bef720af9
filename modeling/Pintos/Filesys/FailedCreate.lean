import Pintos.Filesys.Effects

/-!
# Pintos.Filesys.FailedCreate

What a `filesys_create` that fails does to the free map, with any of its allocations of
memory failing.

`filesys_create` releases the sector of the inode when it fails, and nothing else: when
`inode_create` has succeeded and `dir_add` fails, the data sectors stay marked and no
file has them (`failed_create_marks`).
-/

namespace Pintos.Fs

open FirstFit Function List

variable {dev : Device} {b : Bitmap} {data : InodeDisk} {inode : Inode} {st st' : Store}
  {s s' : FileSys} {memory : Memory} {cnt k : Nat} {m : Bool} {a : Nat} {dir : Option Nat}
  {s₁ : FileSys}

/-! ## writing the free map without memory -/

/-- The free map can be written when there is memory for a bounce buffer, or when it needs
none. -/
def MapWritable (bitCnt : Nat) (memory : Bool) : Prop :=
  memory = true ∨ byteCnt bitCnt % blockSectorSize = 0

instance (bitCnt : Nat) (memory : Bool) : Decidable (MapWritable bitCnt memory) :=
  inferInstanceAs (Decidable (_ ∨ _))

theorem bitmapWrite_memory (h : MapFile dev b.bitCnt inode) (memory : Bool) :
    ∃ dev', bitmapWrite dev b inode memory = .ok (dev', MapWritable b.bitCnt memory) ∧
      dev'.sectors = dev.sectors := by
  cases memory with
  | true =>
    refine ⟨mapWritten dev b (some inode), ?_, sectors_mapWritten _ _ _⟩
    rw [bitmapWrite_eq h]
    simp [MapWritable]
  | false =>
    have hon : OnDevice dev inode.data := .of_fits h.length_lt h.fits
    have hdeny : decide (inode.denyWriteCnt ≠ 0) = false := by simp [h.allowed]
    have hwritten : inode.data.written false (byteCnt b.bitCnt) 0 =
        byteCnt b.bitCnt / blockSectorSize * blockSectorSize := by
      simp [InodeDisk.written, InodeDisk.below, h.length]
    have hdiv : byteCnt b.bitCnt / blockSectorSize * blockSectorSize = byteCnt b.bitCnt ↔
        byteCnt b.bitCnt % blockSectorSize = 0 := by
      have hmod := Nat.div_add_mod' (byteCnt b.bitCnt) blockSectorSize
      omega
    refine ⟨dev.put (inode.data.addr 0)
      ((bitmapBytes b).take (inode.data.written false (byteCnt b.bitCnt) 0)), ?_, rfl⟩
    rw [bitmapWrite, hdeny, inodeWriteAt, if_neg Bool.false_ne_true, writeLoop_eq hon le_rfl,
      length_bitmapBytes]
    simp [MapWritable, hwritten, hdiv]

/-- There are `cnt` free sectors in a row. -/
def HasRun (b : Bitmap) (cnt : Nat) : Prop := ∃ k, k + cnt ≤ b.bitCnt ∧ Clear b.bits cnt k

/-- The map with the sectors `k`, …, `k + cnt - 1` marked. -/
abbrev Bitmap.mark (b : Bitmap) (cnt k : Nat) : Bitmap := { b with bits := fill b.bits cnt k true }

/-- **`free_map_allocate`**, with or without memory. -/
theorem Store.freeMapAllocate_memory (hsize : st.freeMap.bitCnt < sizeTSize)
    (hfile : MapFile st.dev st.freeMap.bitCnt inode) (cnt : Nat) (memory : Bool) :
    ∃ dev', dev'.sectors = st.dev.sectors ∧
      ((MapWritable st.freeMap.bitCnt memory ∧ ∃ k, IsFirst st.freeMap.bits st.freeMap.bitCnt cnt k ∧
        st.freeMapAllocate (some inode) cnt memory = .ok (⟨dev', Bitmap.mark st.freeMap cnt k⟩, some k)) ∨
      ¬ (MapWritable st.freeMap.bitCnt memory ∧ HasRun st.freeMap cnt) ∧
        st.freeMapAllocate (some inode) cnt memory = .ok (⟨dev', st.freeMap⟩, none)) := by
  rcases bitmapScanAndFlip_spec hsize cnt with ⟨k, hflip, hfirst, hne⟩ | ⟨hflip, hnone⟩
  · obtain ⟨dev', hwrite, hsectors⟩ := @bitmapWrite_memory st.dev (Bitmap.mark st.freeMap cnt k) inode
      hfile memory
    refine ⟨dev', hsectors, ?_⟩
    by_cases hmap : MapWritable st.freeMap.bitCnt memory
    · refine .inl ⟨hmap, k, hfirst, ?_⟩
      simp [freeMapAllocate, hflip, bitmapAssert, hne, hwrite, hmap]
    · have hundo : bitmapSetMultiple (Bitmap.mark st.freeMap cnt k) k cnt false =
          some { st.freeMap with bits := fill (fill st.freeMap.bits cnt k true) cnt k false } :=
        bitmapSetMultiple_of_le hsize hfirst.fits
      rw [hfirst.clear.fill_undo] at hundo
      refine .inr ⟨fun h => hmap h.1, ?_⟩
      simp [freeMapAllocate, hflip, bitmapAssert, hne, hwrite, hmap, hundo]
  · refine ⟨st.dev, rfl, .inr ⟨?_, ?_⟩⟩
    · rintro ⟨-, k, hk, hclear⟩
      exact hnone k hk hclear
    · simp [freeMapAllocate, hflip, bitmapAssert]

/-! ## filesys_create -/

/-- The sectors that are marked. -/
def used (b : Bitmap) : Set Nat := { sector | sector < b.bitCnt ∧ b.bits sector = true }

/-- A file system with its free map open: sector 0 is marked, the map can be written to its
file, and the root directory has not been removed. -/
structure FileSys.Valid (s : FileSys) : Prop where
  size : s.freeMap.bitCnt < sizeTSize
  marked : s.freeMap.bits freeMapSector = true
  map : ∃ file, s.freeMapFile = some file ∧ (s.files file).inode < s.next ∧
    MapFile s.dev s.freeMap.bitCnt (s.inodes (s.files file).inode)
  root : ∀ a ∈ s.openInodes, (s.inodes a).sector = rootDirSector → (s.inodes a).removed = false

/-- The inode of the root directory is open, or there is memory to open it. -/
def RootOpens (s : FileSys) (m : Bool) : Prop :=
  (∃ a ∈ s.openInodes, (s.inodes a).sector = rootDirSector) ∨ m = true

/-- The root directory can be opened. -/
structure OpensRoot (s : FileSys) (memory : Memory) : Prop where
  inode : RootOpens s memory.rootInode
  dir : memory.dir = true

/-- The sectors of the inode and of the data can be allocated. -/
structure Allocates (b : Bitmap) (initialSize : OffT) (memory : Memory) : Prop where
  inodeWritten : MapWritable b.bitCnt (memory.map 0)
  inodeDisk : memory.inodeDisk = true
  /-- There is a free sector, and next to the first one that is free enough in a row. -/
  room : ∃ k, IsFirst b.bits b.bitCnt 1 k ∧
    HasRun (Bitmap.mark b 1 k) (bytesToSectors initialSize.val)
  dataWritten : MapWritable b.bitCnt (memory.map 1)

/-- Every state of a run with enough memory is one. -/
theorem Inv.valid {L : Layout} {refs : List Nat} (h : Inv L refs s) : s.Valid where
  size := h.size
  marked := h.owned.used _ held_free_map
  map := by
    refine ⟨L.mapFile, h.mapFile, ?_, ?_⟩
    · rw [h.mapInode]
      exact h.opened.lt _ h.mapInode_mem
    · rw [h.mapInode]
      exact h.isMapFile
  root := by
    intro a ha hsector
    cases hr : (s.inodes a).removed with
    | false => rfl
    | true => exact absurd hsector (h.opened.removed a ha hr).2.1

section

variable (hsize : s.freeMap.bitCnt < sizeTSize) {initialSize : OffT}
include hsize

theorem inodeCreate_memory {map created : Bool}
    (hmap : s.mapInode = some inode) (hfile : MapFile s.dev s.freeMap.bitCnt inode)
    (h : inodeCreate s k initialSize.val m map = .ok (s', created)) :
    s'.inodes = s.inodes ∧
      (created = false ∧ s'.freeMap = s.freeMap ∧
        ¬ (m = true ∧ HasRun s.freeMap (bytesToSectors initialSize.val) ∧
          MapWritable s.freeMap.bitCnt map) ∨
      created = true ∧ m = true ∧ MapWritable s.freeMap.bitCnt map ∧
        ∃ d, IsFirst s.freeMap.bits s.freeMap.bitCnt (bytesToSectors initialSize.val) d ∧
          s'.freeMap = Bitmap.mark s.freeMap (bytesToSectors initialSize.val) d) := by
  obtain ⟨⟨st, success⟩, hst, heq⟩ := bind_eq_ok h
  cases heq
  refine ⟨rfl, ?_⟩
  rw [hmap] at hst
  unfold Store.inodeCreate at hst
  split at hst
  · cases hst
  · cases m with
    | false =>
      cases hst
      exact .inl ⟨rfl, rfl, nofun⟩
    | true =>
      obtain ⟨dev', -, ⟨hwritable, d, hfirst, halloc⟩ | ⟨hnone, halloc⟩⟩ :=
        Store.freeMapAllocate_memory hsize hfile (bytesToSectors initialSize.val) map
      · rw [if_pos rfl] at hst
        dsimp only at hst
        rw [halloc, ok_bind] at hst
        obtain ⟨dev₁, -, hst⟩ := bind_eq_ok hst
        obtain ⟨dev₂, -, heq⟩ := bind_eq_ok hst
        cases heq
        exact .inr ⟨rfl, rfl, hwritable, d, hfirst, rfl⟩
      · rw [if_pos rfl] at hst
        dsimp only at hst
        rw [halloc, ok_bind] at hst
        cases hst
        exact .inl ⟨rfl, rfl, fun hcan => hnone ⟨hcan.2.2, hcan.2.1⟩⟩

omit hsize in
theorem cleanup (hk : k ≠ 0) {success : Bool} (h : (if !success && k ≠ 0 then do
        let s ← freeMapRelease s k 1 m
        return (s, false)
      else
        return (s, success)) = (.ok (s', false) : Except Assertion (FileSys × Bool))) :
    s'.inodes = s.inodes ∧
      s'.freeMap = { s.freeMap with bits := fill s.freeMap.bits 1 k false } := by
  cases success with
  | true => cases h
  | false =>
    rw [if_pos (by simp [hk])] at h
    obtain ⟨s₁, hrelease, heq⟩ := bind_eq_ok h
    cases heq
    obtain ⟨st, hst, heq⟩ := bind_eq_ok hrelease
    cases heq
    exact ⟨rfl, Store.freeMap_of_freeMapRelease hst⟩

/-- **What a creation that fails leaves behind**: the data sectors, if they were allocated. -/
theorem createIn_failed {dir : Nat} {name : CString}
    (hmarked : s.freeMap.bits freeMapSector = true) (hmap : s.mapInode = some inode)
    (hfile : MapFile s.dev s.freeMap.bitCnt inode)
    (h : createIn s dir name initialSize memory = .ok (s', false)) :
    s'.inodes = s.inodes ∧
      (¬ Allocates s.freeMap initialSize memory ∧ s'.freeMap = s.freeMap ∨
      Allocates s.freeMap initialSize memory ∧ ∃ d,
        d + bytesToSectors initialSize.val ≤ s.freeMap.bitCnt ∧
        Clear s.freeMap.bits (bytesToSectors initialSize.val) d ∧
        s'.freeMap = Bitmap.mark s.freeMap (bytesToSectors initialSize.val) d) := by
  obtain ⟨dev', hsectors, ⟨hwritable, k, hfirst, halloc⟩ | ⟨hnone, halloc⟩⟩ :=
    Store.freeMapAllocate_memory hsize hfile 1 (memory.map 0)
  · have heq : freeMapAllocate s 1 (memory.map 0) =
        .ok (s.withStore ⟨dev', Bitmap.mark s.freeMap 1 k⟩, some k) := by
      rw [freeMapAllocate, hmap, halloc]
      rfl
    have hclear : s.freeMap.bits k = false := hfirst.clear k le_rfl (Nat.lt_succ_self _)
    have hk : k ≠ 0 := by
      rintro rfl
      exact absurd (hclear.symm.trans hmarked) Bool.false_ne_true
    rw [createIn, heq, ok_bind] at h
    obtain ⟨⟨s₂, created⟩, hcreate, h⟩ := bind_eq_ok h
    have hfile₁ : MapFile dev' s.freeMap.bitCnt inode :=
      ⟨hfile.allowed, hfile.length, hsectors.symm ▸ hfile.fits⟩
    obtain ⟨hinodes, hcases⟩ := inodeCreate_memory
      (s := s.withStore ⟨dev', Bitmap.mark s.freeMap 1 k⟩) hsize hmap hfile₁ hcreate
    have hfirst_eq : ∀ {l}, IsFirst s.freeMap.bits s.freeMap.bitCnt 1 l → l = k :=
      fun hl => le_antisymm (hl.least hfirst.clear) (hfirst.least hl.clear)
    rcases hcases with ⟨rfl, hfree, hnone⟩ | ⟨rfl, hdisk, hwritten, d, hrun, hfree⟩
    · have hclean := cleanup hk h
      refine ⟨hclean.1.trans hinodes, .inl ⟨fun hcan => ?_, ?_⟩⟩
      · obtain ⟨l, hl, hroom⟩ := hcan.room
        rw [hfirst_eq hl] at hroom
        exact hnone ⟨hcan.inodeDisk, hroom, hcan.dataWritten⟩
      · rw [hclean.2, hfree]
        exact congrArg (Bitmap.mk _) hfirst.clear.fill_undo
    · obtain ⟨⟨dev₃, success⟩, -, h⟩ := bind_eq_ok h
      have hclean := cleanup (s := { s₂ with dev := dev₃ }) hk h
      refine ⟨hclean.1.trans hinodes, .inr ⟨?_, d, hrun.fits, hrun.clear.of_fill, ?_⟩⟩
      · exact ⟨hwritable, hdisk, ⟨k, hfirst, d, hrun.fits, hrun.clear⟩, hwritten⟩
      · rw [hclean.2]
        rw [hfree]
        exact congrArg (Bitmap.mk _) (hfirst.clear.fill_undo_of_run hrun.clear)
  · have heq : freeMapAllocate s 1 (memory.map 0) = .ok (s.withStore ⟨dev', s.freeMap⟩, none) := by
      rw [freeMapAllocate, hmap, halloc]
      rfl
    rw [createIn, heq, ok_bind] at h
    cases h
    refine ⟨rfl, .inl ⟨fun hcan => ?_, rfl⟩⟩
    obtain ⟨k, hfirst, -⟩ := hcan.room
    exact hnone ⟨hcan.inodeWritten, k, hfirst.fits, hfirst.clear⟩

end

theorem inodeClose_kept {m₁ m₂ : Bool} (hremoved : (s.inodes a).removed = false)
    (h : inodeClose s a m₁ m₂ = .ok s') : s'.toStore = s.toStore := by
  unfold inodeClose at h
  dsimp only at h
  rw [hremoved, if_neg Bool.false_ne_true] at h
  split at h
  · cases h
    rfl
  · cases h
    rfl

/-- The free map can be written to its file. -/
def FileSys.MapOpen (s : FileSys) : Prop :=
  ∃ inode, s.mapInode = some inode ∧ MapFile s.dev s.freeMap.bitCnt inode

theorem FileSys.Valid.mapOpen (hv : s.Valid) : s.MapOpen := by
  obtain ⟨file, hfile, -, hmap⟩ := hv.map
  refine ⟨s.inodes (s.files file).inode, ?_, hmap⟩
  rw [FileSys.mapInode, hfile]
  rfl

/-- Opening another inode does not change that. -/
theorem FileSys.MapOpen.setInode {i : Inode} (h : s.MapOpen)
    (hi : ∀ file, s.freeMapFile = some file → (s.files file).inode = a →
      i.denyWriteCnt = (s.inodes a).denyWriteCnt ∧ i.data = (s.inodes a).data) :
    (s.setInode a i).MapOpen := by
  obtain ⟨inode, hinode, hmap⟩ := h
  unfold FileSys.mapInode at hinode
  obtain ⟨file, hfile, rfl⟩ := Option.map_eq_some_iff.mp hinode
  refine ⟨(s.setInode a i).inodes (s.files file).inode, ?_, ?_⟩
  · rw [FileSys.mapInode, hfile]
    rfl
  · change MapFile _ _ (update s.inodes a i (s.files file).inode)
    by_cases heq : (s.files file).inode = a
    · obtain ⟨hdeny, hdata⟩ := hi file hfile heq
      rw [heq] at hmap
      rw [heq, update_self]
      exact ⟨hdeny.trans hmap.allowed, hdata.symm ▸ hmap.length, hdata.symm ▸ hmap.fits⟩
    · rwa [update_of_ne heq]

theorem inodeOpen_root (hv : s.Valid) (h : inodeOpen s rootDirSector m = .ok (s₁, dir)) :
    s₁.toStore = s.toStore ∧ s₁.MapOpen ∧ (dir = none ∧ ¬ RootOpens s m ∨
      ∃ a, dir = some a ∧ RootOpens s m ∧ (s₁.inodes a).removed = false) := by
  unfold inodeOpen at h
  split at h
  · next a hfind =>
    cases h
    have hmem : a ∈ s.openInodes := mem_of_find?_eq_some hfind
    have hsector : (s.inodes a).sector = rootDirSector := by
      have hp := find?_some hfind
      exact of_decide_eq_true hp
    refine ⟨rfl, hv.mapOpen.setInode fun _ _ _ => ⟨rfl, rfl⟩,
      .inr ⟨a, rfl, .inl ⟨a, hmem, hsector⟩, ?_⟩⟩
    change (update s.inodes a _ a).removed = false
    rw [update_self]
    exact hv.root a hmem hsector
  · next hfind =>
    have hclosed : ¬ ∃ a ∈ s.openInodes, (s.inodes a).sector = rootDirSector := by
      rintro ⟨a, hmem, hsector⟩
      exact find?_eq_none.mp hfind a hmem (decide_eq_true hsector)
    cases m with
    | false =>
      cases h
      exact ⟨rfl, hv.mapOpen, .inl ⟨rfl, fun hopens => hopens.elim hclosed nofun⟩⟩
    | true =>
      obtain ⟨bs, -, heq⟩ := bind_eq_ok h
      cases heq
      refine ⟨rfl, ?_, .inr ⟨s.next, rfl, .inr rfl, ?_⟩⟩
      · obtain ⟨file, hfile, hlt, -⟩ := hv.map
        have hopen : (s.setInode s.next ⟨rootDirSector, 1, false, 0, .decode bs⟩).MapOpen := by
          refine hv.mapOpen.setInode fun file' hfile' heq => ?_
          rw [hfile, Option.some.injEq] at hfile'
          exact absurd (hfile' ▸ heq) hlt.ne
        exact hopen
      · change (update s.inodes s.next _ s.next).removed = false
        rw [update_self]

theorem dirOpenRoot_memory (hv : s.Valid) (h : dirOpenRoot s memory = .ok (s₁, dir)) :
    s₁.toStore = s.toStore ∧ (dir = none ∧ ¬ OpensRoot s memory ∨
      ∃ a, dir = some a ∧ OpensRoot s memory ∧ s₁.MapOpen ∧ (s₁.inodes a).removed = false) := by
  obtain ⟨⟨s₂, inode⟩, hopen, h⟩ := bind_eq_ok h
  obtain ⟨hstore, hmap, ⟨rfl, hnot⟩ | ⟨a, rfl, hopens, hremoved⟩⟩ := inodeOpen_root hv hopen
  · cases h
    exact ⟨hstore, .inl ⟨rfl, fun ho => hnot ho.inode⟩⟩
  · dsimp only at h
    split at h
    · next hdir =>
      cases h
      exact ⟨hstore, .inr ⟨a, rfl, ⟨hopens, hdir⟩, hmap, hremoved⟩⟩
    · next hdir =>
      obtain ⟨s₃, hclose, heq⟩ := bind_eq_ok h
      cases heq
      exact ⟨(inodeClose_kept hremoved hclose).trans hstore,
        .inl ⟨rfl, fun ho => hdir ho.dir⟩⟩

theorem used_mark_eq_iff {d : Nat} (hfits : d + cnt ≤ b.bitCnt) (hclear : Clear b.bits cnt d) :
    used (Bitmap.mark b cnt d) = used b ↔ cnt = 0 := by
  constructor
  · intro heq
    by_contra hne
    have hmem : d ∈ used (Bitmap.mark b cnt d) :=
      ⟨show d < b.bitCnt by omega, fill_of_mem le_rfl (by omega)⟩
    rw [heq] at hmem
    exact absurd hmem.2 (ne_of_eq_of_ne (hclear d le_rfl (by omega)) nofun)
  · rintro rfl
    have hbits : fill b.bits 0 d true = b.bits := by
      funext x
      exact fill_of_not_mem (by omega)
    rw [Bitmap.mark, hbits]

/-- **A `filesys_create` that fails leaves the set of marked sectors alone exactly when** the
file has no data sectors, or the root directory, the sector of the inode or the data could not
be had. -/
theorem failed_create_marks {name : CString} {initialSize : OffT} (hv : s.Valid)
    (h : filesysCreate s name initialSize memory = .ok (s', false)) :
    used s'.freeMap = used s.freeMap ↔
      bytesToSectors initialSize.val = 0 ∨
        ¬ (OpensRoot s memory ∧ Allocates s.freeMap initialSize memory) := by
  obtain ⟨⟨s₁, dir⟩, hopen, h⟩ := bind_eq_ok h
  obtain ⟨hstore, ⟨rfl, hnot⟩ | ⟨a, rfl, hopens, hmap, hremoved⟩⟩ := dirOpenRoot_memory hv hopen
  · cases h
    rw [hstore]
    exact ⟨fun _ => .inr fun hcan => hnot hcan.1, fun _ => rfl⟩
  · obtain ⟨⟨s₂, success⟩, hcreate, h⟩ := bind_eq_ok h
    obtain ⟨s₃, hclose, heq⟩ := bind_eq_ok h
    cases heq
    obtain ⟨inode, hinode, hfile⟩ := hmap
    obtain ⟨hinodes, hcases⟩ := createIn_failed (by rw [hstore]; exact hv.size)
      (by rw [hstore]; exact hv.marked) hinode hfile hcreate
    have hstore₃ : s'.toStore = s₂.toStore := by
      refine inodeClose_kept ?_ hclose
      rw [hinodes]
      exact hremoved
    rw [hstore₃]
    rw [hstore] at hcases
    rcases hcases with ⟨hnot, hsame⟩ | ⟨hcan, d, hfits, hclear, hmark⟩
    · rw [hsame]
      exact ⟨fun _ => .inr fun hcan => hnot hcan.2, fun _ => rfl⟩
    · rw [hmark, used_mark_eq_iff hfits hclear]
      exact ⟨.inl, fun hor => hor.resolve_right fun hnot => hnot ⟨hopens, hcan⟩⟩

/-- A name that exists: no sector is lost with an empty file. -/
theorem failed_create_marks_empty :
    ∃ s s', s.Valid ∧
      filesysCreate s ⟨[97], by decide⟩ ⟨0, by decide⟩ (.plenty blankEntry) = .ok (s', false) ∧
      used s'.freeMap = used s.freeMap := by
  have hrun : ∃ s, (machine (.plenty blankEntry)).Reach s ∧
      (match filesysCreate s.fs ⟨[97], by decide⟩ ⟨0, by decide⟩ (.plenty blankEntry) with
      | .ok (_, false) => true
      | _ => false) = true :=
    exists_reach_of_runSmall [.create ⟨[97], by decide⟩ ⟨600, by decide⟩] _ (by decide +kernel)
  obtain ⟨s, hreach, hp⟩ := hrun
  obtain ⟨L, hinv⟩ := reach_inv hreach
  split at hp
  · next s' heq =>
    have hvalid := hinv.fs.valid
    exact ⟨s.fs, s', hvalid, heq, (failed_create_marks hvalid heq).mpr (.inl (by decide))⟩
  · cases hp

/-- Creating a file of 600 bytes under a name that exists marks two sectors that belong to no
file. -/
theorem failed_create_loses_sectors :
    ∃ s s', s.Valid ∧
      filesysCreate s ⟨[97], by decide⟩ ⟨600, by decide⟩ (.plenty blankEntry) = .ok (s', false) ∧
      used s'.freeMap ≠ used s.freeMap := by
  have hrun : ∃ s, (machine (.plenty blankEntry)).Reach s ∧
      (match filesysCreate s.fs ⟨[97], by decide⟩ ⟨600, by decide⟩ (.plenty blankEntry) with
      | .ok (s', false) => s'.freeMap.bitCnt = 8 && s'.freeMap.bits 6 && !s.fs.freeMap.bits 6
      | _ => false) = true :=
    exists_reach_of_runSmall [.create ⟨[97], by decide⟩ ⟨0, by decide⟩] _ (by decide +kernel)
  obtain ⟨s, hreach, hp⟩ := hrun
  obtain ⟨L, hinv⟩ := reach_inv hreach
  split at hp
  · next s' heq =>
    refine ⟨s.fs, s', hinv.fs.valid, heq, fun hused => ?_⟩
    simp only [Bool.and_eq_true, decide_eq_true_eq, Bool.not_eq_true'] at hp
    have hmem : 6 ∈ used s'.freeMap := ⟨by rw [hp.1.1]; decide, hp.1.2⟩
    rw [hused] at hmem
    exact absurd hmem.2 (ne_of_eq_of_ne hp.2 nofun)
  · cases hp

end Pintos.Fs

