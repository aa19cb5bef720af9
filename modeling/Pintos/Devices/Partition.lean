import Mathlib

/-!
# Pintos.Devices.Partition

Block devices (`devices/block.c`) and the partitions found on them (`devices/partition.c`).

A partition is a block device whose driver adds the first sector of the partition and hands
the access to the device below.  Sectors are words and their sums may wrap; what
`found_partition` lets through does not (`partition_contained`).
-/

namespace Pintos

/-- `enum block_type`. -/
inductive BlockType
  | kernel
  | filesys
  | scratch
  | swap
  | raw
  | foreign
  deriving DecidableEq

/-- `struct block` with its driver: a disk, or a partition of a block device with its first
sector and the number in its name. -/
inductive Block
  | disk (type : BlockType) (size : UInt32)
  | partition (type : BlockType) (size : UInt32) (block : Block) (start : UInt32) (partNr : Nat)
  deriving DecidableEq

namespace Block

variable {b p q : Block} {w : Bool} {k l s t : UInt32}

/-- `block_type`. -/
def type : Block → BlockType
  | disk type _ => type
  | partition type .. => type

/-- `block_size`. -/
def size : Block → UInt32
  | disk _ size => size
  | partition _ size .. => size

/-! ## access -/

/-- What `block_read`, or `block_write` for `write`, does not panic on: `check_sector`, and
for a write that the device is not a foreign one. -/
def accepts (write : Bool) (b : Block) (sector : UInt32) : Bool :=
  decide (sector < b.size) && !(write && b.type == .foreign)

/-- `block_read` and `block_write`, down through `partition_read` and `partition_write`: the
sector of the disk; `none` for a panic. -/
def access (write : Bool) : Block → UInt32 → Option UInt32
  | disk type size, sector =>
    if (disk type size).accepts write sector then some sector else none
  | partition type size block start partNr, sector =>
    if (partition type size block start partNr).accepts write sector then
      block.access write (start + sector)
    else none

def blockRead : Block → UInt32 → Option UInt32 := access false

def blockWrite : Block → UInt32 → Option UInt32 := access true

theorem lt_size_of_accepts (h : b.accepts w k) : k.toNat < b.size.toNat := by
  simp only [accepts, Bool.and_eq_true, decide_eq_true_eq] at h
  exact h.1

/-- Different sectors of a device are different sectors of the disk. -/
theorem eq_of_access {w' : Bool} (hk : b.access w k = some s) (hl : b.access w' l = some s) :
    k = l := by
  induction b generalizing k l with
  | disk type size =>
    simp only [access, Option.ite_none_right_eq_some, Option.some.injEq] at hk hl
    rw [hk.2, hl.2]
  | partition type size block start partNr ih =>
    simp only [access, Option.ite_none_right_eq_some] at hk hl
    exact UInt32.add_right_inj start |>.mp (ih hk.2 hl.2)

/-! ## partitions -/

/-- The type that `found_partition` gives. -/
def typeOf (partType : UInt8) : BlockType :=
  if partType = 0x20 then .kernel else if partType = 0x21 then .filesys
  else if partType = 0x22 then .scratch else if partType = 0x23 then .swap else .foreign

/-- `found_partition`: the device that is registered, if any. -/
def foundPartition (b : Block) (partType : UInt8) (start size : UInt32) (partNr : Nat) :
    Option Block :=
  if b.size ≤ start then none
  else if start + size < start ∨ b.size < start + size then none
  else some (partition (typeOf partType) size b start partNr)

/-- The sectors of a partition on the device below. -/
def extent (start size : UInt32) : Set Nat := Set.Ico start.toNat (start.toNat + size.toNat)

variable {partType : UInt8} {start size : UInt32} {partNr : Nat}

theorem foundPartition_cases (h : b.foundPartition partType start size partNr = some p) :
    p = partition (typeOf partType) size b start partNr ∧
      start.toNat + size.toNat ≤ b.size.toNat := by
  unfold foundPartition at h
  split at h
  · contradiction
  split at h
  · contradiction
  next hend =>
    rw [UInt32.lt_iff_toNat_lt, UInt32.lt_iff_toNat_lt, UInt32.toNat_add] at hend
    have hstart := start.toNat_lt
    have hsize := size.toNat_lt
    exact ⟨(Option.some.inj h).symm, by omega⟩

/-- An access to a partition is one to the device below, inside the extent. -/
theorem access_partition (h : b.foundPartition partType start size partNr = some p)
    (hk : p.access w k = some s) : b.access w (start + k) = some s ∧
      (start + k).toNat = start.toNat + k.toNat ∧ (start + k).toNat ∈ extent start size := by
  obtain ⟨rfl, hend⟩ := foundPartition_cases h
  simp only [access, Option.ite_none_right_eq_some] at hk
  have hlt := lt_size_of_accepts hk.1
  have hsize := b.size.toNat_lt
  have hadd : (start + k).toNat = start.toNat + k.toNat := by
    rw [UInt32.toNat_add]
    simp only [Block.size] at hlt
    omega
  refine ⟨hk.2, hadd, ?_⟩
  rw [hadd]
  exact ⟨Nat.le_add_right .., Nat.add_lt_add_left hlt _⟩

/-- **Partition containment**: what is accepted on a partition goes to a sector of its extent,
without wrapping, and the extent is inside the device; accesses to two partitions of a device
with disjoint extents never meet. -/
theorem partition_contained (h : b.foundPartition partType start size partNr = some p) :
    (∀ w k s, p.access w k = some s → b.access w (start + k) = some s ∧
      (start + k).toNat = start.toNat + k.toNat ∧ (start + k).toNat ∈ extent start size ∧
      start.toNat + size.toNat ≤ b.size.toNat) ∧
    ∀ partType' start' size' partNr' q,
      b.foundPartition partType' start' size' partNr' = some q →
      Disjoint (extent start size) (extent start' size') →
      ∀ w k s w' k' s', p.access w k = some s → q.access w' k' = some s' → s ≠ s' := by
  constructor
  · intro w k s hk
    obtain ⟨hb, hadd, hmem⟩ := access_partition h hk
    exact ⟨hb, hadd, hmem, (foundPartition_cases h).2⟩
  · rintro partType' start' size' partNr' q hq hdis w k s w' k' s' hp hk' rfl
    obtain ⟨hb, -, hmem⟩ := access_partition h hp
    obtain ⟨hb', -, hmem'⟩ := access_partition hq hk'
    rw [← eq_of_access hb hb'] at hmem'
    exact Set.disjoint_left.mp hdis hmem hmem'

/-- A file system of 10 sectors at the end of a disk of 100; its last sector is the disk's. -/
theorem partition_contained_end :
    let p := partition .filesys 10 (disk .raw 100) 90 1
    (disk .raw 100).foundPartition 0x21 90 10 1 = some p ∧ p.blockRead 9 = some 99 ∧
      (90 + 9 : UInt32).toNat ∈ extent 90 10 := by
  have h : (disk .raw 100).foundPartition 0x21 90 10 1 =
      some (partition .filesys 10 (disk .raw 100) 90 1) := by decide
  have hread : (partition .filesys 10 (disk .raw 100) 90 1).blockRead 9 = some 99 := by decide
  exact ⟨h, hread, ((partition_contained h).1 false 9 99 hread).2.2.1⟩

end Block

end Pintos
