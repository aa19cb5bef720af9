import Pintos.Kernel.Bitmap
import Pintos.Lib.Except
import Pintos.Threads.Vaddr

/-!
# Pintos.Filesys.Inode

The free map (`filesys/free-map.c`) and `inode_create` (`filesys/inode.c`).  A
failed `ASSERT` or `PANIC` is an error that says which one.

The free map has one bit for each sector of the file system device.  No matter
what is asked of them, these functions keep the `ASSERT`s of the bitmap and stay
on the device (`freeMapAllocate_ok`, `inodeCreate_ok`); only a negative length is
an error.
-/

namespace Pintos

open FirstFit

/-- The `ASSERT`s and `PANIC`s. -/
inductive Assertion
  /-- an `ASSERT` of `lib/kernel/bitmap.c` -/
  | bitmap
  /-- `check_sector` -/
  | sector
  /-- `bitmap_all (free_map, sector, cnt)` in `free_map_release` -/
  | freeMap
  /-- `length >= 0` in `inode_create` -/
  | length
  /-- `new_pos >= 0` in `file_seek` -/
  | newPos
  /-- `src != NULL` in `strlcpy` -/
  | src
  /-- a null string in `strlen`, `strcmp` or `lookup` -/
  | string
  /-- a `PANIC` of `free_map_init`, `free_map_create`, `free_map_open` or `do_format` -/
  | format
  /-- `file` is a null pointer in `bitmap_write` -/
  | file
  /-- an `ASSERT` of `inode_deny_write` or `inode_allow_write` -/
  | denyWrite
deriving DecidableEq

/-- A function of the bitmap, whose `ASSERT`s are `none`. -/
def bitmapAssert {α : Type} : Option α → Except Assertion α
  | some a => .ok a
  | none => .error .bitmap

/-! ## the free map -/

/-- `free_map_allocate`: the map and the first sector; `written` when
`bitmap_write` succeeds. -/
def freeMapAllocate (freeMap : Bitmap) (cnt : Nat) (written : Bool) :
    Except Assertion (Bitmap × Option Nat) := do
  let (freeMap, sector) ← bitmapAssert (bitmapScanAndFlip freeMap 0 cnt false)
  if sector = bitmapError then
    return (freeMap, none)
  else if written then
    return (freeMap, some sector)
  else
    let freeMap ← bitmapAssert (bitmapSetMultiple freeMap sector cnt false)
    return (freeMap, none)

/-- `free_map_release`. -/
def freeMapRelease (freeMap : Bitmap) (sector cnt : Nat) : Except Assertion Bitmap := do
  let clear ← bitmapAssert (bitmapContains freeMap sector cnt false)
  if clear then
    throw .freeMap
  else
    bitmapAssert (bitmapSetMultiple freeMap sector cnt false)

/-! ## inode_create -/

/-- A 32-bit word as an `int`. -/
def toInt32 (w : Nat) : Int := if w % 2 ^ 32 < 2 ^ 31 then w % 2 ^ 32 else w % 2 ^ 32 - 2 ^ 32

/-- `bytes_to_sectors`, with the sum an `off_t` and the result a `size_t`. -/
def bytesToSectors (size : Int) : Nat :=
  ((toInt32 ((size + blockSectorSize - 1) % 2 ^ 32).toNat).tdiv blockSectorSize % 2 ^ 32).toNat

/-- `block_write` on the file system device. -/
def fsBlockWrite (freeMap : Bitmap) (sector : Nat) : Except Assertion Unit :=
  if sector < freeMap.bitCnt then .ok () else .error .sector

/-- `inode_create`; `memory` when `calloc` succeeds.  The device has as many
sectors as the free map has bits. -/
def inodeCreate (freeMap : Bitmap) (sector : Nat) (length : Int) (memory written : Bool) :
    Except Assertion (Bitmap × Bool) := do
  if length < 0 then
    throw .length
  else if memory then
    let sectors := bytesToSectors length
    let (freeMap, start) ← freeMapAllocate freeMap sectors written
    match start with
    | none => return (freeMap, false)
    | some start =>
      fsBlockWrite freeMap sector
      (List.range sectors).forM fun i => fsBlockWrite freeMap (start + i)
      return (freeMap, true)
  else
    return (freeMap, false)

/-! ## no other assertion fails -/

/-- `fm'` has the size of `fm` and every bit that `fm` has. -/
structure Bitmap.Extends (fm' fm : Bitmap) : Prop where
  bitCnt : fm'.bitCnt = fm.bitCnt
  bits : ∀ i, fm.bits i = true → fm'.bits i = true

variable {fm : Bitmap} {cnt sector : Nat} {length : Int}

/-- The sectors `s`, …, `s + cnt - 1`, which were free in `fm`, are allocated in `fm'`. -/
structure Allocated (fm fm' : Bitmap) (cnt s : Nat) : Prop where
  fits : s + cnt ≤ fm.bitCnt
  clear : Clear fm.bits cnt s
  set : ∀ i, s ≤ i → i < s + cnt → fm'.bits i = true

/-- `free_map_allocate` fails no `ASSERT`, and what it allocates was free. -/
theorem freeMapAllocate_ok (hsize : fm.bitCnt < sizeTSize) (cnt : Nat) (written : Bool) :
    ∃ r, freeMapAllocate fm cnt written = .ok r ∧ r.1.Extends fm ∧
      ∀ s, r.2 = some s → Allocated fm r.1 cnt s := by
  rcases bitmapScanAndFlip_spec hsize cnt with ⟨k, hflip, hfirst, hne⟩ | ⟨hflip, -⟩
  · have hkeep : ∀ i, fm.bits i = true → fill fm.bits cnt k true i = true := fun _ => fill_of_eq
    cases written with
    | true =>
      refine ⟨({ fm with bits := fill fm.bits cnt k true }, some k), ?_, ⟨rfl, hkeep⟩, ?_⟩
      · simp [freeMapAllocate, hflip, bitmapAssert, hne]
      · rintro s hs
        cases hs
        exact ⟨hfirst.fits, hfirst.clear, fun i hi hlt => fill_of_mem hi hlt⟩
    | false =>
      have hundo : bitmapSetMultiple { fm with bits := fill fm.bits cnt k true } k cnt false =
          some { fm with bits := fill (fill fm.bits cnt k true) cnt k false } :=
        bitmapSetMultiple_of_le hsize hfirst.fits
      refine ⟨({ fm with bits := fill (fill fm.bits cnt k true) cnt k false }, none), ?_,
        ⟨rfl, fun i hi => ?_⟩, nofun⟩
      · simp [freeMapAllocate, hflip, bitmapAssert, hne, hundo]
      · have hout : i < k ∨ k + cnt ≤ i := by
          by_contra hin
          have hclear := hfirst.clear i (by omega) (by omega)
          cases hi.symm.trans hclear
        change fill (fill fm.bits cnt k true) cnt k false i = true
        rw [fill_of_not_mem hout, fill_of_not_mem hout, hi]
  · refine ⟨(fm, none), ?_, ⟨rfl, fun i hi => hi⟩, nofun⟩
    simp [freeMapAllocate, hflip, bitmapAssert]

theorem forM_fsBlockWrite {start : Nat} (h : start + cnt ≤ fm.bitCnt) :
    (List.range cnt).forM (fun i => fsBlockWrite fm (start + i)) = .ok () := by
  suffices ∀ is : List Nat, (∀ i ∈ is, i < cnt) →
      is.forM (fun i => fsBlockWrite fm (start + i)) = .ok () from
    this _ fun i hi => List.mem_range.mp hi
  intro is his
  induction is with
  | nil => rfl
  | cons i is ih =>
    have hi : start + i < fm.bitCnt := by
      have := his i List.mem_cons_self
      omega
    have hhead : fsBlockWrite fm (start + i) = .ok () := if_pos hi
    rw [List.forM, hhead]
    exact ih fun j hj => his j (List.mem_cons_of_mem _ hj)

/-- `inode_create` fails no assertion but its own. -/
theorem inodeCreate_ok (hsize : fm.bitCnt < sizeTSize) (hsector : sector < fm.bitCnt)
    (hlength : 0 ≤ length) (memory written : Bool) :
    ∃ r, inodeCreate fm sector length memory written = .ok r ∧ r.1.Extends fm := by
  unfold inodeCreate
  rw [if_neg (Int.not_lt.mpr hlength)]
  cases memory with
  | false => exact ⟨(fm, false), rfl, rfl, fun _ h => h⟩
  | true =>
    obtain ⟨⟨fm', start⟩, halloc, hext, hstart⟩ :=
      freeMapAllocate_ok hsize (bytesToSectors length) written
    cases start with
    | none => exact ⟨(fm', false), by simp [halloc], hext⟩
    | some start =>
      have hfits := (hstart start rfl).fits
      rw [← hext.bitCnt] at hfits hsector
      refine ⟨(fm', true), ?_, hext⟩
      have hinode : fsBlockWrite fm' sector = .ok () := if_pos hsector
      simp [halloc, hinode, forM_fsBlockWrite hfits, bind, Except.bind, pure, Except.pure]

theorem freeMapRelease_ok (hsize : fm.bitCnt < sizeTSize) (hfits : sector + cnt ≤ fm.bitCnt)
    (hset : ∀ i, sector ≤ i → i < sector + cnt → fm.bits i = true) :
    freeMapRelease fm sector cnt = .ok { fm with bits := fill fm.bits cnt sector false } := by
  have hcontains : bitmapContains fm sector cnt false = some false := by
    obtain ⟨found, heq, hiff⟩ := bitmapContains_spec hsize hfits
    cases found with
    | false => exact heq
    | true =>
      obtain ⟨j, hj, hlt, hbit⟩ := hiff.mp rfl
      rw [hset j hj hlt] at hbit
      contradiction
  simp [freeMapRelease, hcontains, bitmapSetMultiple_of_le hsize hfits, bitmapAssert]

theorem eq_of_freeMapRelease {fm' : Bitmap} (h : freeMapRelease fm sector cnt = .ok fm') :
    fm' = { fm with bits := fill fm.bits cnt sector false } := by
  obtain ⟨clear, -, h⟩ := bind_eq_ok h
  split at h
  · cases h
  · cases hset : bitmapSetMultiple fm sector cnt false with
    | none =>
      rw [hset] at h
      cases h
    | some b =>
      rw [hset] at h
      cases h
      exact (bitmapSetMultiple_eq_some hset).2

end Pintos
