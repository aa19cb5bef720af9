import Mathlib

/-!
# Pintos.Threads.Vaddr

Virtual addresses (`threads/vaddr.h`).  An address is a number; the user part of
the address space is below `PHYS_BASE`.
-/

namespace Pintos

/-- `PGSIZE`. -/
def pgsize : Nat := 4096

/-- `PHYS_BASE`. -/
def physBase : Nat := 0xc0000000

/-- `pg_ofs`. -/
def pgOfs (va : Nat) : Nat := va % pgsize

/-- `pg_no`. -/
def pgNo (va : Nat) : Nat := va / pgsize

/-- `pg_round_down`. -/
def pgRoundDown (va : Nat) : Nat := va - pgOfs va

/-- `is_user_vaddr`. -/
def isUserVaddr (vaddr : Nat) : Bool := vaddr < physBase

/-- `ptov`; `none` when its `ASSERT` fails. -/
def ptov (paddr : Nat) : Option Nat := if paddr < physBase then some (paddr + physBase) else none

/-- `vtop`; `none` when its `ASSERT` fails. -/
def vtop (vaddr : Nat) : Option Nat := if isUserVaddr vaddr then none else some (vaddr - physBase)

theorem ptov_eq_some {paddr vaddr : Nat} (h : ptov paddr = some vaddr) :
    vaddr = paddr + physBase := by
  unfold ptov at h
  split at h
  · cases h
    rfl
  · cases h

/-- `BLOCK_SECTOR_SIZE`. -/
def blockSectorSize : Nat := 512

end Pintos
