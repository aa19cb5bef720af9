import Pintos.Threads.Palloc

/-!
# Pintos.Threads.Pte

Entries of page directories and page tables (`threads/pte.h`).

An entry is a 32-bit word with the address of a page and flags beside it.  `Pte` is what
is read from an entry, and the lemmas about `pteView` say what each way of writing one
does to it.  The two indices of an address are those of its page
(`pgNo_eq_iff`).
-/

namespace Pintos

/-! ## the model -/

/-- `uint32_t`. -/
abbrev Word : Type := BitVec 32

/-- `pt_no`. -/
def ptNo (va : Nat) : Nat := (va &&& 0x3ff000) >>> 12

/-- `pd_no`. -/
def pdNo (va : Nat) : Nat := va >>> 22

/-- `PTE_ADDR`. -/
def pteAddr : Word := 0xfffff000

/-- `PTE_P`. -/
def pteP : Word := 0x1

/-- `PTE_W`. -/
def pteW : Word := 0x2

/-- `PTE_U`. -/
def pteU : Word := 0x4

/-- `PTE_A`. -/
def pteA : Word := 0x20

/-- `PTE_D`. -/
def pteD : Word := 0x40

/-- The `ASSERT`s on pages and their entries. -/
inductive PteAssert
  /-- the address is not that of a page -/
  | pgOfs
  /-- `is_user_vaddr` -/
  | userVaddr
  /-- `is_kernel_vaddr`, of `vtop` -/
  | kernelVaddr
  /-- the `ASSERT` of `ptov` -/
  | physical
  /-- the page is not in memory -/
  | ram
  /-- the entry of a page table is not present -/
  | present
  /-- the page is present already -/
  | mapped
  /-- the directory is `init_page_dir` -/
  | initPageDir
deriving DecidableEq

/-- `pde_create`. -/
def pdeCreate (pt : Nat) : Except PteAssert Word := do
  if pgOfs pt ≠ 0 then
    throw .pgOfs
  else
    let paddr ← require .kernelVaddr (vtop pt)
    return BitVec.ofNat 32 paddr ||| pteU ||| pteP ||| pteW

/-- `pde_get_pt`. -/
def pdeGetPt (pde : Word) : Except PteAssert Nat :=
  if pde &&& pteP = 0 then .error .present else require .physical (ptov (pde &&& pteAddr).toNat)

/-- `pte_create_kernel`. -/
def pteCreateKernel (page : Nat) (writable : Bool) : Except PteAssert Word := do
  if pgOfs page ≠ 0 then
    throw .pgOfs
  else
    let paddr ← require .kernelVaddr (vtop page)
    return BitVec.ofNat 32 paddr ||| pteP ||| if writable then pteW else 0

/-- `pte_create_user`. -/
def pteCreateUser (page : Nat) (writable : Bool) : Except PteAssert Word := do
  let pte ← pteCreateKernel page writable
  return pte ||| pteU

/-- `pte_get_page`. -/
def pteGetPage (pte : Word) : Except PteAssert Nat := require .physical (ptov (pte &&& pteAddr).toNat)

/-! ## indices -/

variable {va vb page pt : Nat} {w : Word} {writable : Bool} {ramKb : Nat} {m flags : Word}

theorem pdNo_eq (va : Nat) : pdNo va = va / 4194304 := Nat.shiftRight_eq_div_pow va 22

theorem ptNo_eq (va : Nat) : ptNo va = va / 4096 % 1024 := by
  have hand := Nat.and_two_pow_sub_one_eq_mod (va >>> 12) 10
  rw [Nat.shiftRight_eq_div_pow] at hand
  rwa [ptNo, Nat.shiftRight_and_distrib, Nat.shiftRight_eq_div_pow]

theorem ptNo_lt (va : Nat) : ptNo va < 1024 := by
  rw [ptNo_eq]
  omega

/-- **The two indices of an address are those of its page.** -/
theorem pgNo_eq_iff : pgNo va = pgNo vb ↔ pdNo va = pdNo vb ∧ ptNo va = ptNo vb := by
  rw [pdNo_eq, pdNo_eq, ptNo_eq, ptNo_eq]
  unfold pgNo pgsize
  omega

theorem pdNo_lt_of_user (h : isUserVaddr va = true) : pdNo va < pdNo physBase := by
  rw [isUserVaddr, decide_eq_true_eq] at h
  rw [pdNo_eq, pdNo_eq]
  unfold physBase at *
  omega

theorem pdNo_physBase : pdNo physBase = 768 := by decide

/-! ## pages of memory -/

/-- The kernel address of a page of memory. -/
structure IsPage (ramKb page : Nat) : Prop where
  aligned : pgsize ∣ page
  kernel : physBase ≤ page
  ram : (page - physBase) / pgsize < initRamPages ramKb

namespace IsPage

theorem vtop_eq (h : IsPage ramKb page) : vtop page = some (page - physBase) := by
  have hkernel := h.kernel
  rw [vtop, if_neg]
  rw [isUserVaddr, decide_eq_true_eq]
  omega

theorem sub_lt (h : IsPage ramKb page) : page - physBase < 67108864 := by
  have hram := h.ram
  have hle := initRamPages_le ramKb
  unfold pgsize at hram
  omega

theorem dvd_sub (h : IsPage ramKb page) : pgsize ∣ page - physBase := by
  have haligned := h.aligned
  unfold pgsize physBase at *
  omega

theorem pgOfs_eq (h : IsPage ramKb page) : pgOfs page = 0 := Nat.mod_eq_zero_of_dvd h.aligned

theorem ptov_sub (h : IsPage ramKb page) : ptov (page - physBase) = some page := by
  have hlt := h.sub_lt
  have hkernel := h.kernel
  rw [ptov, if_pos]
  · rw [Nat.sub_add_cancel hkernel]
  · unfold physBase at *
    omega

end IsPage

/-! ## flags beside an address -/

theorem ofNat_and_eq_zero (h : pgsize ∣ page) (hm : (0xfff : Word) &&& m = m) :
    BitVec.ofNat 32 page &&& m = 0#32 := by
  have hlow : BitVec.ofNat 32 page &&& 0xfff = 0#32 := by
    apply BitVec.eq_of_toNat_eq
    have hand := Nat.and_two_pow_sub_one_eq_mod (page % 2 ^ 32) 12
    rw [BitVec.toNat_and, BitVec.toNat_ofNat]
    refine hand.trans ?_
    unfold pgsize at h
    change page % 2 ^ 32 % 2 ^ 12 = 0
    omega
  rw [← hm, ← BitVec.and_assoc, hlow, BitVec.zero_and]

theorem ofNat_and_pteAddr (h : pgsize ∣ page) :
    BitVec.ofNat 32 page &&& pteAddr = BitVec.ofNat 32 page := by
  have hsplit : (pteAddr ||| 0xfff : Word) = BitVec.allOnes 32 := by decide
  have hlow : BitVec.ofNat 32 page &&& 0xfff = 0#32 := ofNat_and_eq_zero h (by decide)
  have hall : BitVec.ofNat 32 page &&& (pteAddr ||| 0xfff) = BitVec.ofNat 32 page := by
    rw [hsplit, BitVec.and_allOnes]
  rwa [BitVec.and_or_distrib_left, hlow, BitVec.or_zero] at hall

/-- The address in an entry that has been made from an address and flags. -/
theorem or_and_pteAddr (h : pgsize ∣ page) (hflags : flags &&& pteAddr = 0#32) :
    (BitVec.ofNat 32 page ||| flags) &&& pteAddr = BitVec.ofNat 32 page := by
  rw [BitVec.and_or_distrib_right, ofNat_and_pteAddr h, hflags, BitVec.or_zero]

theorem or_and_flag (h : pgsize ∣ page) (hm : (0xfff : Word) &&& m = m) :
    (BitVec.ofNat 32 page ||| flags) &&& m = flags &&& m := by
  rw [BitVec.and_or_distrib_right, ofNat_and_eq_zero h hm, BitVec.zero_or]

theorem toNat_ofNat_sub (h : IsPage ramKb page) :
    (BitVec.ofNat 32 (page - physBase)).toNat = page - physBase := by
  have hlt := h.sub_lt
  rw [BitVec.toNat_ofNat]
  exact Nat.mod_eq_of_lt (by omega)

/-! ## directory entries -/

/-- The entry for a page table. -/
def pdeWord (pt : Nat) : Word := BitVec.ofNat 32 (pt - physBase) ||| (pteU ||| pteP ||| pteW)

theorem pdeCreate_eq (h : IsPage ramKb pt) : pdeCreate pt = .ok (pdeWord pt) := by
  rw [pdeCreate, if_neg (not_not_intro h.pgOfs_eq), h.vtop_eq]
  simp only [require, ok_bind, pure_eq_ok, pdeWord, BitVec.or_assoc]

theorem pdeWord_present (h : IsPage ramKb pt) : pdeWord pt &&& pteP ≠ 0 := by
  have hflag : pdeWord pt &&& pteP = (pteU ||| pteP ||| pteW) &&& pteP :=
    or_and_flag h.dvd_sub (by decide)
  rw [hflag]
  decide

theorem pdeWord_ne_zero (h : IsPage ramKb pt) : pdeWord pt ≠ 0 := by
  intro hzero
  have hpresent := pdeWord_present h
  rw [hzero] at hpresent
  exact hpresent BitVec.zero_and

theorem pdeGetPt_pdeWord (h : IsPage ramKb pt) : pdeGetPt (pdeWord pt) = .ok pt := by
  have hflag : pdeWord pt &&& pteP = (pteU ||| pteP ||| pteW) &&& pteP :=
    or_and_flag h.dvd_sub (by decide)
  have haddr : pdeWord pt &&& pteAddr = BitVec.ofNat 32 (pt - physBase) :=
    or_and_pteAddr h.dvd_sub (by decide)
  rw [pdeGetPt, hflag, if_neg (by decide), haddr, toNat_ofNat_sub h, h.ptov_sub]
  rfl

/-! ## table entries -/

/-- What is read from an entry of a page table. -/
structure Pte where
  present : Bool
  writable : Bool
  accessed : Bool
  dirty : Bool
  addr : Word
deriving DecidableEq

/-- The entry as it is read. -/
def pteView (w : Word) : Pte :=
  ⟨w &&& pteP != 0, w &&& pteW != 0, w &&& pteA != 0, w &&& pteD != 0, w &&& pteAddr⟩

/-- The entry for a page of a user process. -/
def pteWord (page : Nat) (writable : Bool) : Word :=
  BitVec.ofNat 32 (page - physBase) ||| (pteP ||| (if writable then pteW else 0) ||| pteU)

theorem pteCreateUser_eq (h : IsPage ramKb page) (writable : Bool) :
    pteCreateUser page writable = .ok (pteWord page writable) := by
  rw [pteCreateUser, pteCreateKernel, if_neg (not_not_intro h.pgOfs_eq), h.vtop_eq]
  simp only [require, ok_bind, pure_eq_ok, pteWord, BitVec.or_assoc]

/-- **A new entry** is present and neither accessed nor dirty. -/
theorem pteView_pteWord (h : IsPage ramKb page) (writable : Bool) :
    pteView (pteWord page writable) =
      ⟨true, writable, false, false, BitVec.ofNat 32 (page - physBase)⟩ := by
  have hdvd := h.dvd_sub
  have hflag : ∀ m : Word, (0xfff : Word) &&& m = m → pteWord page writable &&& m =
      (pteP ||| (if writable then pteW else 0) ||| pteU) &&& m := fun m => or_and_flag hdvd
  have haddr : pteWord page writable &&& pteAddr = BitVec.ofNat 32 (page - physBase) := by
    refine or_and_pteAddr hdvd ?_
    cases writable <;> decide
  rw [pteView, hflag pteP (by decide), hflag pteW (by decide), hflag pteA (by decide),
    hflag pteD (by decide), haddr]
  cases writable <;> rfl

theorem pteView_zero : pteView 0 = ⟨false, false, false, false, 0⟩ := by decide

theorem and_not_and_self (w m : Word) : w &&& ~~~m &&& m = 0#32 := by
  rw [BitVec.and_assoc, BitVec.and_comm _ m, BitVec.and_not_self]
  exact BitVec.and_zero

theorem or_and_self_ne_zero (hm : m ≠ 0#32) : (w ||| m) &&& m ≠ 0#32 := by
  intro hzero
  have hbits : m &&& ((w ||| m) &&& m) = m := by
    rw [BitVec.and_or_distrib_right, BitVec.and_self, BitVec.and_or_distrib_left, BitVec.and_self]
    ext i hi
    simp
  rw [hzero, BitVec.and_zero] at hbits
  exact hm hbits.symm

/-- A flag that is set or cleared has the value then, and the other bits are as they were. -/
theorem flag_and_self (hm : m ≠ 0#32) (value : Bool) :
    ((if value then w ||| m else w &&& ~~~m) &&& m != 0) = value := by
  cases value with
  | false =>
    rw [if_neg Bool.false_ne_true, and_not_and_self]
    rfl
  | true => exact bne_iff_ne.mpr (or_and_self_ne_zero hm)

theorem flag_and {f : Word} (h : ~~~m &&& f = f ∧ m &&& f = 0#32) (value : Bool) :
    (if value then w ||| m else w &&& ~~~m) &&& f = w &&& f := by
  cases value with
  | false => rw [if_neg Bool.false_ne_true, BitVec.and_assoc, h.1]
  | true => rw [if_pos rfl, BitVec.and_or_distrib_right, h.2, BitVec.or_zero]

theorem pteView_setPresent (w : Word) (present : Bool) :
    pteView (if present then w ||| pteP else w &&& ~~~pteP) = { pteView w with present } := by
  rw [pteView, flag_and_self (by decide), flag_and (by decide), flag_and (by decide),
    flag_and (by decide), flag_and (by decide)]
  rfl

theorem pteView_setDirty (w : Word) (dirty : Bool) :
    pteView (if dirty then w ||| pteD else w &&& ~~~pteD) = { pteView w with dirty } := by
  rw [pteView, flag_and_self (by decide), flag_and (by decide), flag_and (by decide),
    flag_and (by decide), flag_and (by decide)]
  rfl

theorem pteView_setAccessed (w : Word) (accessed : Bool) :
    pteView (if accessed then w ||| pteA else w &&& ~~~pteA) = { pteView w with accessed } := by
  rw [pteView, flag_and_self (by decide), flag_and (by decide), flag_and (by decide),
    flag_and (by decide), flag_and (by decide)]
  rfl

end Pintos
