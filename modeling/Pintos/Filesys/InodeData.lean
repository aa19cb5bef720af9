import Pintos.Filesys.Inode
import Pintos.Lib.Bytes

/-!
# Pintos.Filesys.InodeData

The data of an inode (`filesys/inode.c`): `inode_read_at` and `inode_write_at` on a
block device.

An inode has `length` bytes in consecutive sectors from `start` on.  Both functions
go through it sector by sector, with a bounce buffer for a part of a sector.  When
the extent is on the device and there is memory for the bounce buffer, they read and
write the range of bytes that lies below the length (`inodeReadAt_eq`,
`inodeWriteAt_eq`).
-/

namespace Pintos.Fs

open Bytes

/-! ## the device -/

/-- A block device and its contents, sector after sector. -/
structure Device where
  sectors : Nat
  bytes : Nat → UInt8

/-- `block_read`. -/
def blockRead (dev : Device) (sector : Nat) : Except Assertion (List UInt8) :=
  if sector < dev.sectors then
    .ok (read dev.bytes (sector * blockSectorSize) blockSectorSize)
  else
    .error .sector

/-- `block_write` of a buffer of one sector. -/
def blockWrite (dev : Device) (sector : Nat) (buffer : List UInt8) : Except Assertion Device :=
  if sector < dev.sectors then
    .ok { dev with bytes := write dev.bytes (sector * blockSectorSize) buffer }
  else
    .error .sector

/-! ## inode_read_at and inode_write_at -/

/-- `struct inode_disk`.  A length is below `2 ^ 31`. -/
structure InodeDisk where
  start : Nat
  length : Nat
deriving DecidableEq

/-- `byte_to_sector`. -/
def byteToSector (data : InodeDisk) (pos : Nat) : Nat :=
  if pos < data.length then data.start + pos / blockSectorSize else 2 ^ 32 - 1

/-- The bytes to copy in one round: what is left of the request, of the inode and of the
sector. -/
def chunkSize (data : InodeDisk) (size offset : Nat) : Nat :=
  min size (min (data.length - offset) (blockSectorSize - offset % blockSectorSize))

/-- The round needs the bounce buffer, and there is no memory for it. -/
def noBounce (offset chunk : Nat) (memory : Bool) : Bool :=
  !(offset % blockSectorSize = 0 && chunk = blockSectorSize) && !memory

/-- The loop of `inode_read_at`. -/
def readLoop (dev : Device) (data : InodeDisk) (memory : Bool) :
    Nat → Nat → Nat → Except Assertion (List UInt8)
  | 0, _, _ => .ok []
  | fuel + 1, size, offset =>
    let chunk := chunkSize data size offset
    if chunk = 0 || noBounce offset chunk memory then
      .ok []
    else do
      let bounce ← blockRead dev (byteToSector data offset)
      let rest ← readLoop dev data memory fuel (size - chunk) (offset + chunk)
      return (bounce.drop (offset % blockSectorSize)).take chunk ++ rest

/-- `inode_read_at`: the bytes that it reads; `memory` when there is memory for the bounce
buffer. -/
def inodeReadAt (dev : Device) (data : InodeDisk) (size offset : Nat) (memory : Bool) :
    Except Assertion (List UInt8) :=
  readLoop dev data memory size size offset

/-- What a round of `inode_write_at` writes to its sector. -/
def sectorBuffer (dev : Device) (data : InodeDisk) (offset : Nat) (chunk : List UInt8) :
    Except Assertion (List UInt8) :=
  let sectorOfs := offset % blockSectorSize
  if sectorOfs = 0 && chunk.length = blockSectorSize then
    .ok chunk
  else if sectorOfs > 0 || chunk.length < blockSectorSize - sectorOfs then do
    let bounce ← blockRead dev (byteToSector data offset)
    return patch bounce sectorOfs chunk
  else
    .ok (patch (List.replicate blockSectorSize 0) sectorOfs chunk)

/-- The loop of `inode_write_at`, with the bytes that are left of the buffer. -/
def writeLoop (data : InodeDisk) (memory : Bool) :
    Nat → Device → List UInt8 → Nat → Except Assertion (Device × Nat)
  | 0, dev, _, _ => .ok (dev, 0)
  | fuel + 1, dev, buffer, offset =>
    let chunk := chunkSize data buffer.length offset
    if chunk = 0 || noBounce offset chunk memory then
      .ok (dev, 0)
    else do
      let sector ← sectorBuffer dev data offset (buffer.take chunk)
      let dev ← blockWrite dev (byteToSector data offset) sector
      let (dev, written) ← writeLoop data memory fuel dev (buffer.drop chunk) (offset + chunk)
      return (dev, chunk + written)

/-- `inode_write_at`: the device and the number of bytes written; `deny` when
`deny_write_cnt` is not zero. -/
def inodeWriteAt (dev : Device) (data : InodeDisk) (deny : Bool) (buffer : List UInt8)
    (offset : Nat) (memory : Bool) : Except Assertion (Device × Nat) :=
  if deny then .ok (dev, 0) else writeLoop data memory buffer.length dev buffer offset

/-! ## what they do -/

/-- The number of sectors that an inode needs. -/
def InodeDisk.sectors (data : InodeDisk) : Nat :=
  (data.length + blockSectorSize - 1) / blockSectorSize

/-- The extent is on the device. -/
def OnDevice (dev : Device) (data : InodeDisk) : Prop := data.start + data.sectors ≤ dev.sectors

/-- The number of bytes of a request that lie below the length. -/
def InodeDisk.below (data : InodeDisk) (size offset : Nat) : Nat := min size (data.length - offset)

/-- The number of bytes that `inode_write_at` writes: whole sectors when there is no memory for the
bounce buffer. -/
def InodeDisk.written (data : InodeDisk) (memory : Bool) (size offset : Nat) : Nat :=
  if memory then data.below size offset
  else if offset % blockSectorSize = 0 then
    data.below size offset / blockSectorSize * blockSectorSize
  else 0

/-- The address of a byte of an inode on the device. -/
def InodeDisk.addr (data : InodeDisk) (offset : Nat) : Nat :=
  data.start * blockSectorSize + offset

variable {dev : Device} {data : InodeDisk} {size offset fuel sector chunk : Nat} {memory : Bool}
  {buffer bs : List UInt8}

theorem blockRead_of_lt (h : sector < dev.sectors) :
    blockRead dev sector = .ok (read dev.bytes (sector * blockSectorSize) blockSectorSize) :=
  if_pos h

theorem blockWrite_of_lt (h : sector < dev.sectors) :
    blockWrite dev sector buffer =
      .ok { dev with bytes := write dev.bytes (sector * blockSectorSize) buffer } :=
  if_pos h

theorem OnDevice.byteToSector_lt (h : OnDevice dev data) (hlt : offset < data.length) :
    byteToSector data offset < dev.sectors := by
  unfold OnDevice InodeDisk.sectors at h
  rw [byteToSector, if_pos hlt]
  unfold blockSectorSize at h ⊢
  omega

/-- A round that copies something is below the length and stays in its sector. -/
theorem chunkSize_pos (h : chunkSize data size offset ≠ 0) :
    offset < data.length ∧ chunkSize data size offset ≤ size ∧
      offset % blockSectorSize + chunkSize data size offset ≤ blockSectorSize ∧
      chunkSize data size offset ≤ data.length - offset := by
  unfold chunkSize at h ⊢
  have hmod : offset % blockSectorSize < blockSectorSize := Nat.mod_lt _ (by decide)
  omega

theorem below_eq_zero (h : chunkSize data size offset = 0) : data.below size offset = 0 := by
  unfold chunkSize at h
  unfold InodeDisk.below
  have hmod : offset % blockSectorSize < blockSectorSize := Nat.mod_lt _ (by decide)
  omega

theorem below_add (h : chunkSize data size offset ≠ 0) :
    data.below size offset = chunkSize data size offset +
      data.below (size - chunkSize data size offset) (offset + chunkSize data size offset) := by
  have hchunk := chunkSize_pos h
  unfold InodeDisk.below
  omega

theorem byteToSector_addr (hlt : offset < data.length) :
    byteToSector data offset * blockSectorSize + offset % blockSectorSize = data.addr offset := by
  rw [byteToSector, if_pos hlt, InodeDisk.addr, Nat.add_mul, Nat.add_assoc,
    Nat.div_add_mod' offset blockSectorSize]

theorem noBounce_true : noBounce offset chunk true = false := by simp [noBounce]

/-- **`inode_read_at` reads the part of the range that lies below the length.** -/
theorem readLoop_eq (h : OnDevice dev data) (hfuel : size ≤ fuel) :
    readLoop dev data true fuel size offset =
      .ok (read dev.bytes (data.addr offset) (data.below size offset)) := by
  induction fuel generalizing size offset with
  | zero =>
    obtain rfl : size = 0 := by omega
    simp [readLoop, InodeDisk.below]
  | succ fuel ih =>
    by_cases hchunk : chunkSize data size offset = 0
    · rw [below_eq_zero hchunk]
      simp [readLoop, hchunk]
    · obtain ⟨hlt, hsize, hsector, hleft⟩ := chunkSize_pos hchunk
      have hrest := @ih (size - chunkSize data size offset)
        (offset + chunkSize data size offset) (by omega)
      have hdrop := take_drop_read (m := dev.bytes)
        (a := byteToSector data offset * blockSectorSize) hsector
      rw [byteToSector_addr hlt] at hdrop
      rw [below_add hchunk, read_append, readLoop]
      simp [hchunk, noBounce_true, blockRead_of_lt (h.byteToSector_lt hlt), hrest, hdrop,
        InodeDisk.addr, Nat.add_assoc]

theorem inodeReadAt_eq (h : OnDevice dev data) (size offset : Nat) :
    inodeReadAt dev data size offset true =
      .ok (read dev.bytes (data.addr offset) (data.below size offset)) :=
  readLoop_eq h (le_refl size)

theorem write_sectorBuffer (hlt : offset < data.length)
    (hsector : offset % blockSectorSize + bs.length ≤ blockSectorSize)
    (hdev : byteToSector data offset < dev.sectors) :
    ∃ buffer, sectorBuffer dev data offset bs = .ok buffer ∧
      write dev.bytes (byteToSector data offset * blockSectorSize) buffer =
        write dev.bytes (data.addr offset) bs := by
  have haddr := byteToSector_addr hlt
  simp only [sectorBuffer]
  split
  · next hfull =>
    simp only [Bool.and_eq_true, decide_eq_true_eq] at hfull
    refine ⟨bs, rfl, ?_⟩
    rw [← haddr, hfull.1, Nat.add_zero]
  · split
    · refine ⟨_, by rw [blockRead_of_lt hdev, ok_bind, pure_eq_ok], ?_⟩
      rw [write_patch hsector, haddr]
    · next hfull hpart =>
      simp only [Bool.and_eq_true, Bool.or_eq_true, decide_eq_true_eq, not_and, not_or] at hfull hpart
      have hofs : offset % blockSectorSize = 0 := by omega
      exact absurd (by omega) (hfull hofs)

theorem written_eq_zero
    (h : chunkSize data size offset = 0 ∨ noBounce offset (chunkSize data size offset) memory) :
    data.written memory size offset = 0 := by
  cases memory with
  | true => exact below_eq_zero (h.resolve_right (by simp [noBounce]))
  | false =>
    simp only [noBounce, Bool.not_false, Bool.and_true, Bool.not_eq_true', Bool.and_eq_false_iff,
      decide_eq_false_iff_not] at h
    unfold InodeDisk.written InodeDisk.below
    unfold chunkSize blockSectorSize at *
    grind

theorem written_add (h : chunkSize data size offset ≠ 0)
    (hbounce : noBounce offset (chunkSize data size offset) memory = false) :
    data.written memory size offset = chunkSize data size offset + data.written memory
      (size - chunkSize data size offset) (offset + chunkSize data size offset) := by
  have hadd := below_add h
  cases memory with
  | true => exact hadd
  | false =>
    have hfull : offset % blockSectorSize = 0 ∧ chunkSize data size offset = blockSectorSize := by
      simpa [noBounce] using hbounce
    rw [hfull.2] at hadd ⊢
    simp only [InodeDisk.written, hadd, Nat.add_mod_right, hfull.1, Bool.false_eq_true, if_true,
      if_false]
    unfold blockSectorSize
    omega

/-- A round of `inode_write_at`, in the sector of its offset. -/
theorem writeLoop_round (hchunk : chunkSize data buffer.length offset ≠ 0)
    (hbounce : noBounce offset (chunkSize data buffer.length offset) memory = false)
    (hdev : byteToSector data offset < dev.sectors) :
    writeLoop data memory (fuel + 1) dev buffer offset = (writeLoop data memory fuel
      { dev with
        bytes := write dev.bytes (data.addr offset)
          (buffer.take (chunkSize data buffer.length offset)) }
      (buffer.drop (chunkSize data buffer.length offset))
      (offset + chunkSize data buffer.length offset)).map fun r =>
        (r.1, chunkSize data buffer.length offset + r.2) := by
  obtain ⟨hlt, hsize, hsector, -⟩ := chunkSize_pos hchunk
  have hlen := List.length_take_of_le hsize
  obtain ⟨sector, hbuffer, hwrite⟩ := write_sectorBuffer hlt
    (Nat.le_trans (Nat.le_of_eq (congrArg _ hlen)) hsector) hdev
  simp only [writeLoop, hchunk, hbounce, decide_false, Bool.or_self, Bool.false_eq_true, if_false,
    hbuffer, ok_bind, blockWrite_of_lt hdev, hwrite]
  rfl

/-- **`inode_write_at` writes the part of the buffer that lies below the length**, if there is
memory for the bounce buffer. -/
theorem writeLoop_eq (h : OnDevice dev data) (hfuel : buffer.length ≤ fuel) :
    writeLoop data memory fuel dev buffer offset =
      .ok ({ dev with
        bytes := write dev.bytes (data.addr offset)
          (buffer.take (data.written memory buffer.length offset)) },
        data.written memory buffer.length offset) := by
  induction fuel generalizing dev buffer offset with
  | zero =>
    obtain rfl : buffer = [] := List.length_eq_zero_iff.mp (by omega)
    have hzero : data.written memory ([] : List UInt8).length offset = 0 :=
      written_eq_zero (.inl (Nat.zero_min _))
    rw [hzero]
    simp [writeLoop]
  | succ fuel ih =>
    by_cases hstop : chunkSize data buffer.length offset = 0 ∨
        noBounce offset (chunkSize data buffer.length offset) memory
    · rw [written_eq_zero hstop]
      simp [writeLoop, hstop]
    · obtain ⟨hchunk, hbounce⟩ := not_or.mp hstop
      rw [Bool.not_eq_true] at hbounce
      obtain ⟨hlt, hsize, -⟩ := chunkSize_pos hchunk
      have hlen := List.length_take_of_le hsize
      have hon : ∀ bytes, OnDevice ⟨dev.sectors, bytes⟩ data := fun _ => h
      rw [writeLoop_round hchunk hbounce (h.byteToSector_lt hlt), ih (hon _) (by simp; omega),
        written_add hchunk hbounce, List.take_add, write_append, hlen, List.length_drop]
      simp only [InodeDisk.addr, Nat.add_assoc]
      rfl

theorem inodeWriteAt_eq (h : OnDevice dev data) (buffer : List UInt8) (offset : Nat) :
    inodeWriteAt dev data false buffer offset true =
      .ok ({ dev with
        bytes := write dev.bytes (data.addr offset)
          (buffer.take (data.below buffer.length offset)) }, data.below buffer.length offset) :=
  writeLoop_eq h le_rfl

end Pintos.Fs
