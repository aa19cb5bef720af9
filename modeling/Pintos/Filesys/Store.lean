import Pintos.Filesys.InodeData

/-!
# Pintos.Filesys.Store

The device together with its free map (`filesys/free-map.c`), and `inode_create`
(`filesys/inode.c`).

The free map is kept in memory and in a file.  `free_map_allocate` takes the first run
of free sectors (`freeMapAllocate_spec`), `free_map_release` gives a run back
(`freeMapRelease_eq`), and both write the whole map to its file.  `inode_create` writes
an inode and a data extent of zeros (`inodeCreate_spec`).  A function writes to the
sectors that it names and to no others (`Device.Off`).
-/

namespace Pintos.Fs

open Bytes FirstFit List InodeDisk

/-! ## inodes on the device -/

/-- `INODE_MAGIC`. -/
def inodeMagic : Nat := 0x494e4f44

namespace InodeDisk

/-- The inode as the bytes of a sector. -/
def encode (data : InodeDisk) : List UInt8 :=
  le32 data.start ++ le32 data.length ++ le32 inodeMagic ++ replicate 500 0

/-- The bytes of a sector as an inode; no byte is below a negative length. -/
def decode (bs : List UInt8) : InodeDisk where
  start := ofLe (bs.take 4)
  length := (toInt32 (ofLe ((bs.drop 4).take 4))).toNat

/-- The sectors of the data, as `bytes_to_sectors` counts them. -/
def Covers (data : InodeDisk) (sector : Nat) : Prop :=
  data.start ≤ sector ∧ sector < data.start + bytesToSectors data.length

end InodeDisk

/-- The inode in a sector. -/
def diskInode (dev : Device) (sector : Nat) : InodeDisk :=
  .decode (read dev.bytes (sector * blockSectorSize) blockSectorSize)

/-- The data of an inode. -/
def content (dev : Device) (data : InodeDisk) : List UInt8 :=
  read dev.bytes (data.addr 0) data.length

/-- `struct inode`. -/
structure Inode where
  sector : Nat
  openCnt : Int
  removed : Bool
  denyWriteCnt : Int
  data : InodeDisk

/-! ## the free map and its file -/

/-- The elements of a bitmap, as bytes. -/
def bitmapBytes (b : Bitmap) : List UInt8 :=
  (range (byteCnt b.bitCnt)).map fun j =>
    UInt8.ofNat (Nat.ofBits fun i : Fin 8 => b.bits (8 * j + i))

/-- The bitmap after its elements have been read; `last_mask` clears what is behind its
last bit. -/
def bitmapOfBytes (bitCnt : Nat) (bs : List UInt8) : Bitmap where
  bitCnt := bitCnt
  bits := fun i => i < bitCnt && (bs.getD (i / 8) 0).toNat.testBit (i % 8)

/-- `bitmap_write` to the file of an inode; `memory` when there is memory for the bounce
buffer. -/
def bitmapWrite (dev : Device) (b : Bitmap) (inode : Inode) (memory : Bool) :
    Except Assertion (Device × Bool) := do
  let (dev, written) ←
    inodeWriteAt dev inode.data (inode.denyWriteCnt ≠ 0) (bitmapBytes b) 0 memory
  return (dev, written = byteCnt b.bitCnt)

/-- `fs_device` and `free_map`. -/
structure Store where
  dev : Device
  freeMap : Bitmap

namespace Store

/-- `free_map_allocate`; `file` is the inode of `free_map_file`, unless that is `NULL`. -/
def freeMapAllocate (st : Store) (file : Option Inode) (cnt : Nat) (memory : Bool) :
    Except Assertion (Store × Option Nat) := do
  let (freeMap, sector) ← bitmapAssert (bitmapScanAndFlip st.freeMap 0 cnt false)
  if sector = bitmapError then
    return ({ st with freeMap }, none)
  else
    match file with
    | none => return ({ st with freeMap }, some sector)
    | some inode =>
      let (dev, written) ← bitmapWrite st.dev freeMap inode memory
      if written then
        return (⟨dev, freeMap⟩, some sector)
      else
        let freeMap ← bitmapAssert (bitmapSetMultiple freeMap sector cnt false)
        return (⟨dev, freeMap⟩, none)

/-- `free_map_release`. -/
def freeMapRelease (st : Store) (file : Option Inode) (sector cnt : Nat) (memory : Bool) :
    Except Assertion Store := do
  let freeMap ← Pintos.freeMapRelease st.freeMap sector cnt
  match file with
  | none => .error .file
  | some inode =>
    let (dev, _) ← bitmapWrite st.dev freeMap inode memory
    return ⟨dev, freeMap⟩

/-- `inode_create`; `memory` when `calloc` succeeds, `map` when there is memory for
writing the free map. -/
def inodeCreate (st : Store) (file : Option Inode) (sector : Nat) (length : Int)
    (memory map : Bool) : Except Assertion (Store × Bool) := do
  if length < 0 then
    throw .length
  else if memory then
    let sectors := bytesToSectors length
    let (st, start) ← st.freeMapAllocate file sectors map
    match start with
    | none => return (st, false)
    | some start =>
      let dev ← blockWrite st.dev sector (encode ⟨start, length.toNat⟩)
      let dev ← (range sectors).foldlM
        (fun dev i => blockWrite dev (start + i) (replicate blockSectorSize 0)) dev
      return ({ st with dev }, true)
  else
    return (st, false)

end Store

/-! ## writing to some sectors -/

/-- The device after `bs` has been written from byte `a` on. -/
abbrev Device.put (dev : Device) (a : Nat) (bs : List UInt8) : Device :=
  { dev with bytes := write dev.bytes a bs }

/-- `dev'` differs from `dev` in the sectors `W` only. -/
structure Device.Off (W : Nat → Prop) (dev dev' : Device) : Prop where
  sectors : dev'.sectors = dev.sectors
  bytes : ∀ x, ¬ W (x / blockSectorSize) → dev'.bytes x = dev.bytes x

variable {dev dev' dev'' : Device} {data : InodeDisk} {W W' : Nat → Prop} {sector a n cnt : Nat}
  {bs : List UInt8}

namespace Device.Off

protected theorem refl (W : Nat → Prop) (dev : Device) : Off W dev dev := ⟨rfl, fun _ _ => rfl⟩

theorem trans (h : Off W dev dev') (h' : Off W dev' dev'') : Off W dev dev'' :=
  ⟨h'.sectors.trans h.sectors, fun x hx => (h'.bytes x hx).trans (h.bytes x hx)⟩

theorem mono (h : Off W dev dev') (hsub : ∀ k, W k → W' k) : Off W' dev dev' :=
  ⟨h.sectors, fun x hx => h.bytes x fun hw => hx (hsub _ hw)⟩

/-- A write to bytes of the sectors `W`. -/
theorem put (h : ∀ x, a ≤ x → x < a + bs.length → W (x / blockSectorSize)) :
    Off W dev (dev.put a bs) := by
  refine ⟨rfl, fun x hx => ?_⟩
  rcases Nat.lt_or_ge x a with hlt | hge
  · exact write_of_lt hlt
  · exact write_of_le (Nat.le_of_not_lt fun hlt => hx (h x hge hlt))

theorem read_eq (h : Off W dev dev') (hout : ∀ x, a ≤ x → x < a + n → ¬ W (x / blockSectorSize)) :
    read dev'.bytes a n = read dev.bytes a n :=
  read_congr fun i hi => h.bytes _ (hout _ (by omega) (by omega))

theorem diskInode_eq (h : Off W dev dev') (hout : ¬ W sector) :
    diskInode dev' sector = diskInode dev sector := by
  rw [diskInode, h.read_eq, diskInode]
  intro x hle hlt
  have hdiv : x / blockSectorSize = sector := by
    unfold blockSectorSize at hle hlt ⊢
    omega
  rwa [hdiv]

end Device.Off

/-! ## extents -/

theorem toInt32_of_lt (h : n < 2 ^ 31) : toInt32 n = n := by
  unfold toInt32
  rw [if_pos (by omega)]
  omega

theorem sectors_le_bytesToSectors (h : data.length < 2 ^ 31) :
    data.sectors ≤ bytesToSectors data.length := by
  unfold sectors bytesToSectors toInt32 blockSectorSize
  have hsign : Int.sign (512 : Nat) = 1 := rfl
  rw [Int.tdiv_eq_ediv, hsign]
  split <;> split <;> omega

theorem InodeDisk.covers_addr (h : data.length < 2 ^ 31) {x : Nat} (hle : data.addr 0 ≤ x)
    (hlt : x < data.addr 0 + data.length) : data.Covers (x / blockSectorSize) := by
  have hsectors := sectors_le_bytesToSectors h
  unfold addr at hle hlt
  unfold sectors at hsectors
  unfold Covers
  unfold blockSectorSize at *
  omega

theorem OnDevice.of_fits (h : data.length < 2 ^ 31)
    (hfits : data.start + bytesToSectors data.length ≤ dev.sectors) : OnDevice dev data := by
  have hsectors := sectors_le_bytesToSectors h
  unfold OnDevice
  omega

/-- **`inode_write_at` writes to the extent of the inode.** -/
theorem off_writeAt (dev : Device) (h : data.length < 2 ^ 31) (buffer : List UInt8) (offset : Nat) :
    Device.Off data.Covers dev
      (dev.put (data.addr offset) (buffer.take (data.below buffer.length offset))) := by
  refine .put fun x hle hlt => ?_
  simp only [length_take] at hlt
  refine covers_addr h ?_ ?_
  · unfold addr at hle ⊢
    omega
  · unfold addr InodeDisk.below at *
    omega

theorem Device.Off.content_eq (h : Off W dev dev') (hlen : data.length < 2 ^ 31)
    (hout : ∀ k, data.Covers k → ¬ W k) : content dev' data = content dev data :=
  h.read_eq fun _ hle hlt => hout _ (covers_addr hlen hle hlt)

/-! ## the codecs -/

theorem InodeDisk.length_encode : data.encode.length = blockSectorSize := by
  simp only [encode, length_append, length_le32, length_replicate]
  rfl

theorem InodeDisk.decode_length_lt (bs : List UInt8) : (decode bs).length < 2 ^ 31 := by
  simp only [decode, toInt32]
  split <;> omega

theorem diskInode_length_lt (dev : Device) (sector : Nat) :
    (diskInode dev sector).length < 2 ^ 31 := decode_length_lt _

theorem InodeDisk.decode_encode (hstart : data.start < 2 ^ 32) (hlen : data.length < 2 ^ 31) :
    decode data.encode = data := by
  have htake : data.encode.take 4 = le32 data.start := by
    simp only [encode, append_assoc]
    exact take_left' length_le32
  have hdrop : (data.encode.drop 4).take 4 = le32 data.length := by
    simp only [encode, append_assoc]
    rw [drop_left' length_le32]
    exact take_left' length_le32
  rw [decode, htake, hdrop, ofLe_le32 hstart, ofLe_le32 (by omega), toInt32_of_lt hlen,
    Int.toNat_natCast]

theorem length_bitmapBytes (b : Bitmap) : (bitmapBytes b).length = byteCnt b.bitCnt := by
  simp [bitmapBytes]

/-- **The map that has been written is read back.** -/
theorem bitmapOfBytes_bitmapBytes {b : Bitmap} {i : Nat} (hsize : b.bitCnt + 31 < sizeTSize)
    (hi : i < b.bitCnt) : (bitmapOfBytes b.bitCnt (bitmapBytes b)).bits i = b.bits i := by
  have hbyte : i / 8 < (range (byteCnt b.bitCnt)).length := by
    rw [length_range, byteCnt, elemCnt, Nat.mod_eq_of_lt hsize]
    omega
  have hlt : (Nat.ofBits fun j : Fin 8 => b.bits (8 * (i / 8) + j)) < 2 ^ 8 := Nat.ofBits_lt_two_pow _
  have hget : ((bitmapBytes b).getD (i / 8) 0).toNat =
      Nat.ofBits fun j : Fin 8 => b.bits (8 * (i / 8) + j) := by
    rw [bitmapBytes, getD_eq_getElem _ _ (by simpa using hbyte), getElem_map,
      getElem_range, UInt8.toNat_ofNat', Nat.mod_eq_of_lt hlt]
  have hmod : i % 8 < 8 := Nat.mod_lt _ (by omega)
  change (decide (i < b.bitCnt) && _) = _
  rw [hget, Nat.testBit_ofBits_lt _ _ hmod, decide_eq_true hi, Bool.true_and]
  congr 1
  change 8 * (i / 8) + i % 8 = i
  omega

/-! ## writing the free map -/

/-- The free map can be written to the file of `inode`. -/
structure MapFile (dev : Device) (bitCnt : Nat) (inode : Inode) : Prop where
  allowed : inode.denyWriteCnt = 0
  length : inode.data.length = byteCnt bitCnt
  fits : inode.data.start + bytesToSectors inode.data.length ≤ dev.sectors

/-- The device after the free map has been written to its file, if it has one. -/
def mapWritten (dev : Device) (b : Bitmap) : Option Inode → Device
  | none => dev
  | some inode => dev.put (inode.data.addr 0) (bitmapBytes b)

/-- The sectors of the file. -/
def MapSectors (file : Option Inode) (sector : Nat) : Prop :=
  ∃ inode, file = some inode ∧ inode.data.Covers sector

variable {st : Store} {b : Bitmap} {inode : Inode} {file : Option Inode} {bitCnt : Nat} {length : Int}

theorem byteCnt_lt (bitCnt : Nat) : byteCnt bitCnt < 2 ^ 31 := by
  unfold byteCnt elemCnt sizeTSize
  omega

theorem MapFile.length_lt (h : MapFile dev bitCnt inode) : inode.data.length < 2 ^ 31 :=
  h.length ▸ byteCnt_lt bitCnt

theorem bitmapWrite_eq (h : MapFile dev b.bitCnt inode) :
    bitmapWrite dev b inode true = .ok (mapWritten dev b (some inode), true) := by
  have hon : OnDevice dev inode.data := .of_fits h.length_lt h.fits
  have hdeny : decide (inode.denyWriteCnt ≠ 0) = false := by simp [h.allowed]
  have hbelow : inode.data.below (bitmapBytes b).length 0 = (bitmapBytes b).length := by
    rw [InodeDisk.below, length_bitmapBytes, h.length, Nat.sub_zero, Nat.min_self]
  rw [bitmapWrite, hdeny, inodeWriteAt_eq hon, hbelow, take_length]
  simp [length_bitmapBytes, mapWritten]

theorem sectors_mapWritten (dev : Device) (b : Bitmap) (file : Option Inode) :
    (mapWritten dev b file).sectors = dev.sectors := by
  cases file <;> rfl

theorem MapFile.off (h : MapFile dev b.bitCnt inode) :
    Device.Off inode.data.Covers dev (mapWritten dev b (some inode)) := by
  refine .put fun x hle hlt => covers_addr h.length_lt hle ?_
  rwa [h.length, ← length_bitmapBytes]

theorem MapFile.content_eq (h : MapFile dev b.bitCnt inode) :
    content (mapWritten dev b (some inode)) inode.data = bitmapBytes b := by
  rw [content, h.length, ← length_bitmapBytes]
  exact read_write_self

theorem off_mapWritten (h : ∀ inode, file = some inode → MapFile dev b.bitCnt inode) :
    Device.Off (MapSectors file) dev (mapWritten dev b file) := by
  cases file with
  | none => exact .refl _ _
  | some inode => exact (h inode rfl).off.mono fun _ hx => ⟨inode, rfl, hx⟩

namespace Store

/-- **`free_map_allocate` takes the first free run**, and nothing when there is none. -/
theorem freeMapAllocate_spec (hsize : st.freeMap.bitCnt < sizeTSize)
    (hfile : ∀ inode, file = some inode → MapFile st.dev st.freeMap.bitCnt inode) (cnt : Nat) :
    (∃ k b, b = { st.freeMap with bits := fill st.freeMap.bits cnt k true } ∧
      IsFirst st.freeMap.bits st.freeMap.bitCnt cnt k ∧
      st.freeMapAllocate file cnt true = .ok (⟨mapWritten st.dev b file, b⟩, some k)) ∨
    st.freeMapAllocate file cnt true = .ok (st, none) ∧
      ∀ j, j + cnt ≤ st.freeMap.bitCnt → ¬ Clear st.freeMap.bits cnt j := by
  rcases bitmapScanAndFlip_spec hsize cnt with ⟨k, hflip, hfirst, hne⟩ | ⟨hflip, hnone⟩
  · refine .inl ⟨k, _, rfl, hfirst, ?_⟩
    cases file with
    | none => simp [freeMapAllocate, hflip, bitmapAssert, hne, mapWritten]
    | some inode =>
      have hwrite := bitmapWrite_eq (b := { st.freeMap with
        bits := fill st.freeMap.bits cnt k true }) (hfile inode rfl)
      simp [freeMapAllocate, hflip, bitmapAssert, hne, hwrite]
  · refine .inr ⟨?_, hnone⟩
    simp [freeMapAllocate, hflip, bitmapAssert]

/-- **`free_map_release` of sectors that are in use.** -/
theorem freeMapRelease_eq (hsize : st.freeMap.bitCnt < sizeTSize)
    (hfile : MapFile st.dev st.freeMap.bitCnt inode) (hfits : sector + cnt ≤ st.freeMap.bitCnt)
    (hset : ∀ i, sector ≤ i → i < sector + cnt → st.freeMap.bits i = true) :
    st.freeMapRelease (some inode) sector cnt true =
      .ok ⟨mapWritten st.dev { st.freeMap with bits := fill st.freeMap.bits cnt sector false }
        (some inode), { st.freeMap with bits := fill st.freeMap.bits cnt sector false }⟩ := by
  have hwrite := bitmapWrite_eq (b := { st.freeMap with
    bits := fill st.freeMap.bits cnt sector false }) hfile
  simp [freeMapRelease, freeMapRelease_ok hsize hfits hset, hwrite]

theorem freeMap_of_freeMapRelease {st' : Store} {memory : Bool}
    (h : st.freeMapRelease file sector cnt memory = .ok st') :
    st'.freeMap = { st.freeMap with bits := fill st.freeMap.bits cnt sector false } := by
  obtain ⟨fm, hfm, h⟩ := bind_eq_ok h
  obtain rfl := eq_of_freeMapRelease hfm
  split at h
  · cases h
  · obtain ⟨⟨dev, written⟩, -, h⟩ := bind_eq_ok h
    cases h
    rfl

end Store

/-! ## inode_create -/

theorem foldlM_zeros {start : Nat} (h : start + n ≤ dev.sectors) :
    (range n).foldlM
        (fun dev i => blockWrite dev (start + i) (replicate blockSectorSize 0)) dev =
      .ok (dev.put (start * blockSectorSize) (replicate (n * blockSectorSize) 0)) := by
  induction n with
  | zero =>
    rw [Nat.zero_mul, replicate_zero, Device.put, write_nil]
    rfl
  | succ n ih =>
    have hlt : start + n <
        (dev.put (start * blockSectorSize) (replicate (n * blockSectorSize) 0)).sectors := h
    rw [range_succ, foldlM_append, ih (by omega), ok_bind, foldlM_cons,
      blockWrite_of_lt hlt, ok_bind, Nat.succ_mul, ← replicate_append_replicate, Device.put, Device.put,
      write_append, length_replicate, Nat.add_mul]
    rfl

/-- What `inode_create` leaves behind when it has written `data` to `sector`. -/
structure Created (sector : Nat) (data : InodeDisk) (dev dev' : Device) : Prop where
  off : Device.Off (fun k => k = sector ∨ data.Covers k) dev dev'
  inode : diskInode dev' sector = data
  content : content dev' data = replicate data.length 0

theorem created_put (hstart : data.start < 2 ^ 32) (hlength : data.length < 2 ^ 31)
    (hout : ¬ data.Covers sector) :
    Created sector data dev ((dev.put (sector * blockSectorSize) data.encode).put
      (data.start * blockSectorSize)
      (replicate (bytesToSectors data.length * blockSectorSize) 0)) := by
  have hinode : Device.Off (fun k => k = sector) dev
      (dev.put (sector * blockSectorSize) data.encode) := by
    refine .put fun x hle hlt => ?_
    rw [length_encode] at hlt
    unfold blockSectorSize at *
    omega
  have hzeros : Device.Off data.Covers (dev.put (sector * blockSectorSize) data.encode)
      ((dev.put (sector * blockSectorSize) data.encode).put (data.start * blockSectorSize)
        (replicate (bytesToSectors data.length * blockSectorSize) 0)) := by
    refine .put fun x hle hlt => ?_
    rw [length_replicate] at hlt
    unfold Covers
    unfold blockSectorSize at *
    omega
  refine ⟨?_, ?_, ?_⟩
  · exact (hinode.mono fun _ => .inl).trans (hzeros.mono fun _ => .inr)
  · have hread : read (write dev.bytes (sector * blockSectorSize) data.encode)
        (sector * blockSectorSize) blockSectorSize = data.encode := by
      rw [← data.length_encode]
      exact read_write_self
    rw [hzeros.diskInode_eq hout, diskInode, hread, decode_encode hstart hlength]
  · have hsectors := sectors_le_bytesToSectors hlength
    unfold sectors at hsectors
    unfold Fs.content addr
    rw [read_write_of_subset (by omega) (by
      rw [length_replicate]
      unfold blockSectorSize at *
      omega)]
    unfold blockSectorSize at *
    rw [drop_replicate, take_replicate]
    congr 1
    omega

/-- **`inode_create` writes an inode and zeros**, in a free run of sectors; it fails when
there is none. -/
theorem Store.inodeCreate_spec (st : Store) (file : Option Inode)
    (hsize : st.freeMap.bitCnt < sizeTSize) (hdev : st.freeMap.bitCnt = st.dev.sectors)
    (hfile : ∀ inode, file = some inode → MapFile st.dev st.freeMap.bitCnt inode)
    (hsector : sector < st.dev.sectors) (hused : st.freeMap.bits sector = true)
    (hlength : n < 2 ^ 31) :
    (∃ k b dev', b = { st.freeMap with bits := fill st.freeMap.bits (bytesToSectors n) k true } ∧
      IsFirst st.freeMap.bits st.freeMap.bitCnt (bytesToSectors n) k ∧
      Created sector ⟨k, n⟩ (mapWritten st.dev b file) dev' ∧
      st.inodeCreate file sector n true true = .ok (⟨dev', b⟩, true)) ∨
    st.inodeCreate file sector n true true = .ok (st, false) := by
  have hpos : ¬ (n : Int) < 0 := by omega
  rcases freeMapAllocate_spec hsize hfile (bytesToSectors n) with
    ⟨k, b, hb, hfirst, halloc⟩ | ⟨halloc, -⟩
  · have hfits : k + bytesToSectors n ≤ ((mapWritten st.dev b file).put
        (sector * blockSectorSize) (encode ⟨k, n⟩)).sectors := by
      rw [sectors_mapWritten, ← hdev]
      exact hfirst.fits
    have hout : ¬ (⟨k, n⟩ : InodeDisk).Covers sector := by
      rintro ⟨hle, hlt⟩
      rw [hfirst.clear sector hle hlt] at hused
      contradiction
    have hinode : blockWrite (mapWritten st.dev b file) sector (encode ⟨k, n⟩) =
        .ok ((mapWritten st.dev b file).put (sector * blockSectorSize)
          (encode ⟨k, n⟩)) :=
      blockWrite_of_lt ((sectors_mapWritten st.dev b file).symm ▸ hsector)
    have hzeros := foldlM_zeros hfits
    have hstart : k < 2 ^ 32 := by
      unfold sizeTSize at hsize
      have hle := hfirst.fits
      omega
    refine .inl ⟨k, b, _, hb, hfirst, created_put hstart hlength hout, ?_⟩
    rw [inodeCreate, if_neg hpos, if_pos rfl]
    simp only [halloc, ok_bind, Int.toNat_natCast, hinode, hzeros, pure_eq_ok]
  · refine .inr ?_
    rw [inodeCreate, if_neg hpos, if_pos rfl]
    simp only [halloc, ok_bind, pure_eq_ok]

end Pintos.Fs
