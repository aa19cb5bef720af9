import Pintos.Filesys.InodeData

/-!
# Pintos.Filesys.Directory

Directories (`filesys/directory.c`): entries of 20 bytes in the data of an inode.

`slot dev data i` is the entry at place `i`.  With memory for the bounce buffers,
`lookup` finds the first entry in use with the name (`lookup_eq`), and `dir_add` writes
the first free entry (`dirAdd_of_free`); the other places keep their entries
(`slot_write_self`, `slot_write_of_ne`).
-/

namespace Pintos.Fs

open Bytes List InodeDisk

/-! ## entries -/

/-- `NAME_MAX`. -/
def nameMax : Nat := 14

/-- `sizeof (struct dir_entry)`. -/
def direntSize : Nat := 20

/-- A null-terminated string, without its end. -/
abbrev CString : Type := { bs : List UInt8 // (0 : UInt8) ∉ bs }

/-- The string in an array. -/
def cstring (bs : List UInt8) : List UInt8 := bs.takeWhile (· ≠ 0)

/-- `strlcpy`, for an array that is not empty. -/
def strlcpy (dst src : List UInt8) : List UInt8 :=
  patch dst 0 (src.take (min src.length (dst.length - 1)) ++ [0])

/-- `struct dir_entry`, with the whole array `name`. -/
structure DirEntry where
  inodeSector : Nat
  name : List UInt8
  inUse : Bool
deriving DecidableEq

namespace DirEntry

/-- The entry as bytes. -/
def encode (e : DirEntry) : List UInt8 :=
  le32 e.inodeSector ++ e.name ++ [if e.inUse then 1 else 0]

/-- Bytes as an entry. -/
def decode (bs : List UInt8) : DirEntry where
  inodeSector := ofLe (bs.take 4)
  name := (bs.drop 4).take (nameMax + 1)
  inUse := bs.getD (direntSize - 1) 0 ≠ 0

/-- The entry is in use and has the name. -/
def named (name : CString) (e : DirEntry) : Bool := e.inUse && cstring e.name = name.val

/-- The array has its length, and the sector is a 32-bit number. -/
structure Valid (e : DirEntry) : Prop where
  name : e.name.length = nameMax + 1
  sector : e.inodeSector < 2 ^ 32

end DirEntry

open DirEntry

/-! ## lookup, dir_add -/

/-- The outcomes of the allocations of bounce buffers, by entry, and the contents of an
uninitialized `struct dir_entry`. -/
structure DirMemory where
  lookup : Nat → Bool
  slot : Nat → Bool
  entry : Bool
  stack : DirEntry

/-- The loop of `lookup`. -/
def lookupFrom (dev : Device) (data : InodeDisk) (name : CString) (memory : Nat → Bool) :
    Nat → Nat → Except Assertion (Option (DirEntry × Nat))
  | 0, _ => .ok none
  | fuel + 1, i => do
      let bs ← inodeReadAt dev data direntSize (direntSize * i) (memory i)
      if bs.length = direntSize then
        let e := decode bs
        if e.named name then
          return some (e, direntSize * i)
        else
          lookupFrom dev data name memory fuel (i + 1)
      else
        return none

/-- The number of entries. -/
def InodeDisk.entries (data : InodeDisk) : Nat := data.length / direntSize

/-- `lookup`: the entry and its offset. -/
def lookup (dev : Device) (data : InodeDisk) (name : CString) (memory : Nat → Bool) :
    Except Assertion (Option (DirEntry × Nat)) :=
  lookupFrom dev data name memory (data.entries + 1) 0

/-- The loop of `dir_add` over the entries, with the last entry that it has read. -/
def freeSlotFrom (dev : Device) (data : InodeDisk) (memory : Nat → Bool) :
    Nat → Nat → DirEntry → Except Assertion (DirEntry × Nat)
  | 0, i, e => .ok (e, direntSize * i)
  | fuel + 1, i, e => do
      let bs ← inodeReadAt dev data direntSize (direntSize * i) (memory i)
      if bs.length = direntSize then
        let e := decode bs
        if e.inUse then
          freeSlotFrom dev data memory fuel (i + 1) e
        else
          return (e, direntSize * i)
      else
        return (e, direntSize * i)

/-- `dir_add`, on the inode of the directory. -/
def dirAdd (dev : Device) (data : InodeDisk) (deny : Bool) (name : CString) (inodeSector : Nat)
    (memory : DirMemory) : Except Assertion (Device × Bool) :=
  if name.val = [] ∨ name.val.length > nameMax then
    .ok (dev, false)
  else do
    match ← lookup dev data name memory.lookup with
    | some _ => return (dev, false)
    | none =>
      let (e, ofs) ← freeSlotFrom dev data memory.slot (data.entries + 1) 0 memory.stack
      let e : DirEntry := ⟨inodeSector, strlcpy e.name name.val, true⟩
      let (dev, written) ← inodeWriteAt dev data deny e.encode ofs memory.entry
      return (dev, written = direntSize)

/-! ## the codec -/

variable {dev dev' : Device} {data : InodeDisk} {name : CString} {e : DirEntry} {i j k fuel : Nat}
  {bs : List UInt8}

theorem DirEntry.length_encode (h : e.name.length = nameMax + 1) :
    e.encode.length = direntSize := by
  simp [encode, h, nameMax, direntSize]

/-- **Round trip.** -/
theorem DirEntry.decode_encode (h : e.Valid) : decode e.encode = e := by
  obtain ⟨sector, name, inUse⟩ := e
  obtain ⟨hname, hsector⟩ := h
  simp only at hname hsector
  have htake : (encode ⟨sector, name, inUse⟩).take 4 = le32 sector := by
    rw [encode, append_assoc]
    exact take_left' length_le32
  have hdrop : ((encode ⟨sector, name, inUse⟩).drop 4).take (nameMax + 1) = name := by
    rw [encode, append_assoc, drop_left' length_le32]
    exact take_left' hname
  have hlast : (encode ⟨sector, name, inUse⟩).getD (direntSize - 1) 0 = if inUse then 1 else 0 := by
    have hlen : (le32 sector ++ name).length = direntSize - 1 := by
      simp [hname, nameMax, direntSize]
    rw [encode, getD_append_right _ _ _ _ (le_of_eq hlen), hlen, Nat.sub_self]
    rfl
  simp only [decode, htake, hdrop, hlast, ofLe_le32 hsector]
  cases inUse <;> rfl

theorem length_strlcpy (dst src : List UInt8) (h : 0 < dst.length) :
    (strlcpy dst src).length = dst.length := by
  unfold strlcpy
  rw [length_patch]
  simp
  omega

theorem cstring_strlcpy {dst : List UInt8} (h : name.val.length < dst.length) :
    cstring (strlcpy dst name.val) = name.val := by
  have hmin : min name.val.length (dst.length - 1) = name.val.length := by omega
  rw [strlcpy, hmin, take_length, patch, take_zero, nil_append, append_assoc,
    cstring, takeWhile_append_of_pos]
  · simp
  · intro b hb
    exact decide_eq_true fun hzero => name.property (hzero ▸ hb)

/-! ## places -/

/-- The entry at place `i`. -/
def slot (dev : Device) (data : InodeDisk) (i : Nat) : DirEntry :=
  .decode (read dev.bytes (data.addr (direntSize * i)) direntSize)

theorem slot_valid (dev : Device) (data : InodeDisk) (i : Nat) : (slot dev data i).Valid where
  name := by simp [slot, decode, nameMax, direntSize]
  sector := by
    have hlen : ((read dev.bytes (data.addr (direntSize * i)) direntSize).take 4).length = 4 := by
      simp [direntSize]
    simp only [slot, decode]
    generalize (read dev.bytes (data.addr (direntSize * i)) direntSize).take 4 = bs at hlen
    match bs, hlen with
    | [b₀, b₁, b₂, b₃], _ =>
      simp only [ofLe]
      have h₀ := b₀.toNat_lt
      have h₁ := b₁.toNat_lt
      have h₂ := b₂.toNat_lt
      have h₃ := b₃.toNat_lt
      omega

theorem direntSize_mul_le (h : i < data.entries) : direntSize * i + direntSize ≤ data.length := by
  unfold entries direntSize at h
  unfold direntSize
  omega

theorem below_of_lt_entries (h : i < data.entries) :
    data.below direntSize (direntSize * i) = direntSize := by
  have hle := direntSize_mul_le h
  unfold InodeDisk.below
  omega

theorem below_entries : data.below direntSize (direntSize * data.entries) < direntSize := by
  unfold InodeDisk.below entries direntSize
  omega

section

variable (h : OnDevice dev data) {sector : Nat} {stack : DirEntry}
include h

theorem inodeReadAt_entry (hi : i < data.entries) :
    inodeReadAt dev data direntSize (direntSize * i) true =
      .ok (read dev.bytes (data.addr (direntSize * i)) direntSize) := by
  rw [inodeReadAt_eq h, below_of_lt_entries hi]

theorem lookupFrom_eq (hi : i + k = data.entries) (hfuel : k < fuel) :
    lookupFrom dev data name (fun _ => true) fuel i =
      .ok (((range' i k).find? fun i => (slot dev data i).named name).map fun i =>
        (slot dev data i, direntSize * i)) := by
  induction k generalizing i fuel with
  | zero =>
    obtain ⟨fuel, rfl⟩ := Nat.exists_eq_add_of_lt hfuel
    obtain rfl : i = data.entries := hi
    have hne : data.below direntSize (direntSize * data.entries) ≠ direntSize :=
      ne_of_lt below_entries
    simp [lookupFrom, inodeReadAt_eq h, hne]
  | succ k ih =>
    obtain ⟨fuel, rfl⟩ := Nat.exists_eq_add_of_lt hfuel
    have hrest := @ih (i + 1) (k + 1 + fuel) (by omega) (by omega)
    rw [lookupFrom, inodeReadAt_entry h (by omega), ok_bind, length_read, if_pos rfl,
      range'_succ, find?_cons]
    change (if (slot dev data i).named name then _ else _) = _
    cases hnamed : (slot dev data i).named name with
    | true => rfl
    | false => exact hrest

/-- **`lookup` finds the first entry in use with the name.** -/
theorem lookup_eq (name : CString) :
    lookup dev data name (fun _ => true) =
      .ok (((range data.entries).find? fun i => (slot dev data i).named name).map fun i =>
        (slot dev data i, direntSize * i)) := by
  rw [lookup, lookupFrom_eq h (Nat.zero_add _) (Nat.lt_succ_self _), range_eq_range']

theorem freeSlotFrom_eq (hi : i + k = data.entries) (hfuel : k < fuel) (e : DirEntry) :
    ∃ e', freeSlotFrom dev data (fun _ => true) fuel i e = .ok
      (match (range' i k).find? fun i => !(slot dev data i).inUse with
        | some i => (slot dev data i, direntSize * i)
        | none => (e', direntSize * data.entries)) := by
  induction k generalizing i fuel e with
  | zero =>
    obtain ⟨fuel, rfl⟩ := Nat.exists_eq_add_of_lt hfuel
    obtain rfl : i = data.entries := hi
    have hne : data.below direntSize (direntSize * data.entries) ≠ direntSize :=
      ne_of_lt below_entries
    exact ⟨e, by simp [freeSlotFrom, inodeReadAt_eq h, hne]⟩
  | succ k ih =>
    obtain ⟨fuel, rfl⟩ := Nat.exists_eq_add_of_lt hfuel
    obtain ⟨e', hrest⟩ := @ih (i + 1) (k + 1 + fuel) (by omega) (by omega) (slot dev data i)
    refine ⟨e', ?_⟩
    rw [freeSlotFrom, inodeReadAt_entry h (by omega), ok_bind, length_read, if_pos rfl,
      range'_succ, find?_cons]
    change (if (slot dev data i).inUse then _ else _) = _
    cases hused : (slot dev data i).inUse with
    | true => exact hrest
    | false => rfl

/-! ## writing an entry -/

/-- The device after an entry has been written. -/
def writeSlot (dev : Device) (data : InodeDisk) (i : Nat) (e : DirEntry) : Device :=
  { dev with bytes := write dev.bytes (data.addr (direntSize * i)) e.encode }

theorem inodeWriteAt_entry (hi : i < data.entries) (he : e.name.length = nameMax + 1) :
    inodeWriteAt dev data false e.encode (direntSize * i) true =
      .ok (writeSlot dev data i e, direntSize) := by
  have hlen := length_encode he
  rw [inodeWriteAt_eq h, hlen, below_of_lt_entries hi, take_of_length_le (le_of_eq hlen)]
  rfl

omit h in
theorem slot_write_self (he : e.Valid) : slot (writeSlot dev data i e) data i = e := by
  have hlen := length_encode he.name
  have hread : read (write dev.bytes (data.addr (direntSize * i)) e.encode)
      (data.addr (direntSize * i)) direntSize = e.encode := by
    rw [← hlen]
    exact read_write_self
  rw [slot, writeSlot, hread, decode_encode he]

omit h in
theorem slot_write_of_ne (he : e.Valid) (hne : j ≠ i) :
    slot (writeSlot dev data i e) data j = slot dev data j := by
  have hlen := length_encode he.name
  have hdisj : data.addr (direntSize * j) + direntSize ≤ data.addr (direntSize * i) ∨
      data.addr (direntSize * i) + e.encode.length ≤ data.addr (direntSize * j) := by
    rw [hlen]
    unfold addr direntSize
    omega
  rw [slot, writeSlot, read_write_of_disjoint hdisj, slot]

/-- The allocations of bounce buffers succeed. -/
def DirMemory.plenty (stack : DirEntry) : DirMemory := ⟨fun _ => true, fun _ => true, true, stack⟩

/-- The name can be added: it is neither empty nor too long. -/
def Addable (name : CString) : Prop := name.val ≠ [] ∧ name.val.length ≤ nameMax

/-- **`dir_add` with a free entry.** -/
theorem dirAdd_of_free (hname : Addable name)
    (hnew : (range data.entries).find? (fun i => (slot dev data i).named name) = none)
    (hfree : (range data.entries).find? (fun i => !(slot dev data i).inUse) = some i) :
    dirAdd dev data false name sector (.plenty stack) =
      .ok (writeSlot dev data i ⟨sector, strlcpy (slot dev data i).name name.val, true⟩, true) := by
  have hi : i < data.entries := mem_range.mp (mem_of_find?_eq_some hfree)
  have hlen : (strlcpy (slot dev data i).name name.val).length = nameMax + 1 := by
    rw [length_strlcpy _ _ (by rw [(slot_valid dev data i).name]; exact Nat.succ_pos _),
      (slot_valid dev data i).name]
  obtain ⟨e', hslot⟩ := freeSlotFrom_eq h (Nat.zero_add _) (Nat.lt_succ_self _) stack
  rw [← range_eq_range', hfree] at hslot
  unfold Addable at hname
  rw [dirAdd, if_neg (by rintro (heq | hlt); exacts [hname.1 heq, by omega])]
  have hwrite := inodeWriteAt_entry
    (e := ⟨sector, strlcpy (slot dev data i).name name.val, true⟩) h hi hlen
  simp [DirMemory.plenty, lookup_eq h, hnew, hslot, hwrite]

theorem dirAdd_of_named (hold : ¬ Addable name ∨
      ((range data.entries).find? fun i => (slot dev data i).named name).isSome = true) :
    dirAdd dev data false name sector (.plenty stack) = .ok (dev, false) := by
  rw [dirAdd]
  split
  · rfl
  · next hname =>
    have hadd : Addable name := by
      unfold Addable
      exact ⟨fun heq => hname (.inl heq), by omega⟩
    obtain ⟨i, hi⟩ := Option.isSome_iff_exists.mp (hold.resolve_left (not_not_intro hadd))
    simp [DirMemory.plenty, lookup_eq h, hi]

theorem dirAdd_of_full (hlength : data.length = direntSize * data.entries)
    (hfull : (range data.entries).find? (fun i => !(slot dev data i).inUse) = none) :
    dirAdd dev data false name sector (.plenty stack) = .ok (dev, false) := by
  rw [dirAdd]
  split
  · rfl
  · cases hnew : (range data.entries).find? fun i => (slot dev data i).named name with
    | some i => simp [DirMemory.plenty, lookup_eq h, hnew]
    | none =>
      obtain ⟨e', hslot⟩ := freeSlotFrom_eq h (Nat.zero_add _) (Nat.lt_succ_self _) stack
      rw [← range_eq_range', hfull] at hslot
      have hbelow : ∀ size, data.below size (direntSize * data.entries) = 0 := by
        intro size
        unfold InodeDisk.below
        omega
      have hwrite : ∀ buffer, inodeWriteAt dev data false buffer (direntSize * data.entries) true =
          .ok (dev, 0) := by
        intro buffer
        rw [inodeWriteAt_eq h, hbelow, take_zero, write_nil]
      have hne : 0 ≠ direntSize := by decide
      simp [DirMemory.plenty, lookup_eq h, hnew, hslot, hwrite, hne]

end

end Pintos.Fs

