import Pintos.Kernel.Bitmap
import Pintos.Lib.Except
import Pintos.Lib.Machine
import Pintos.Lib.Runs
import Pintos.Threads.Vaddr

/-!
# Pintos.Threads.Palloc

The page allocator (`threads/palloc.c`).

Memory above 1 MB is divided into the kernel pool and the user pool.  A pool begins with
its bitmap, which has one bit for each of the pages behind it.  `threads/start.S` finds at
most 64 MB of memory, so that no address wraps around.

The state of the machine has, beside the pools, the runs of pages that have been returned
and not been freed, by the pool that was asked for.  In every state reached the bits of a
pool are the pages of its runs (`Pool.Holds`), and from that follows what the callers rely
on (`palloc_safe`).
-/

namespace Pintos

open FirstFit Function

/-! ## the model -/

/-- `init_ram_pages`, as `start.S` computes it from the size of memory in kB. -/
def initRamPages (ramKb : Nat) : Nat := min ramKb 0x10000 / 4

/-- `struct pool`; `block` is the address of the bitmap. -/
structure Pool where
  usedMap : Bitmap
  block : Nat
  base : Nat

/-- The end of the pool. -/
def Pool.stop (p : Pool) : Nat := p.base + pgsize * p.usedMap.bitCnt

/-- The two pools. -/
structure Palloc where
  kernelPool : Pool
  userPool : Pool

/-- The pool of the pages for `PAL_USER` or the other pages. -/
def Palloc.pool (p : Palloc) (user : Bool) : Pool := if user then p.userPool else p.kernelPool

/-- The bitmap of a pool is replaced. -/
def Palloc.setMap (p : Palloc) (user : Bool) (usedMap : Bitmap) : Palloc :=
  if user then
    { p with userPool := { p.userPool with usedMap } }
  else
    { p with kernelPool := { p.kernelPool with usedMap } }

/-- `enum palloc_flags`. -/
structure PallocFlags where
  assert : Bool
  zero : Bool
  user : Bool

/-- The ways to panic. -/
inductive PallocPanic
  /-- there is no room for the bitmap in a pool -/
  | noMemory
  /-- an `ASSERT` of `ptov` -/
  | ptov
  /-- an `ASSERT` of a function of the bitmap -/
  | bitmap
  /-- there are no pages and the caller has set `PAL_ASSERT` -/
  | outOfPages
  /-- an address inside a page is freed -/
  | pgOfs
  /-- a page of neither pool is freed -/
  | notReached
deriving DecidableEq

/-- `init_pool`; `junk` is in the memory of the bitmap. -/
def initPool (base pageCnt : Nat) (junk : Nat → Bool) : Except PallocPanic Pool := do
  let bmPages := (bitmapBufSize pageCnt + pgsize - 1) / pgsize
  if bmPages > pageCnt then
    throw .noMemory
  else
    let usedMap ← require .bitmap (bitmapCreateInBuf (pageCnt - bmPages) (bmPages * pgsize) junk)
    return ⟨usedMap, base, base + bmPages * pgsize⟩

/-- `palloc_init` on a machine with `ramKb` kB of memory. -/
def pallocInit (ramKb userPageLimit : Nat) (junk : Bool → Nat → Bool) :
    Except PallocPanic Palloc := do
  let freeStart ← require .ptov (ptov (1024 * 1024))
  let freeEnd ← require .ptov (ptov (initRamPages ramKb * pgsize))
  let freePages := (freeEnd - freeStart) / pgsize
  let userPages := if freePages / 2 > userPageLimit then userPageLimit else freePages / 2
  let kernelPages := freePages - userPages
  let kernelPool ← initPool freeStart kernelPages (junk false)
  let userPool ← initPool (freeStart + kernelPages * pgsize) userPages (junk true)
  return ⟨kernelPool, userPool⟩

/-- `palloc_get_multiple`; 0 is a null pointer. -/
def pallocGetMultiple (p : Palloc) (flags : PallocFlags) (pageCnt : Nat) :
    Except PallocPanic (Palloc × Nat) := do
  if pageCnt = 0 then
    return (p, 0)
  else
    let pool := p.pool flags.user
    let (usedMap, pageIdx) ← require .bitmap (bitmapScanAndFlip pool.usedMap 0 pageCnt false)
    let pages := if pageIdx ≠ bitmapError then pool.base + pgsize * pageIdx else 0
    if pages = 0 ∧ flags.assert then
      throw .outOfPages
    else
      return (p.setMap flags.user usedMap, pages)

/-- `page_from_pool`. -/
def pageFromPool (pool : Pool) (page : Nat) : Bool :=
  decide (pgNo page ≥ pgNo pool.base) && decide (pgNo page < pgNo pool.base + pool.usedMap.bitCnt)

/-- The end of `palloc_free_multiple`, in the pool that the pages are from. -/
def freeIn (p : Palloc) (user : Bool) (pages pageCnt : Nat) : Except PallocPanic Palloc := do
  let pool := p.pool user
  let usedMap ←
    require .bitmap (bitmapSetMultiple pool.usedMap (pgNo pages - pgNo pool.base) pageCnt false)
  return p.setMap user usedMap

/-- `palloc_free_multiple`. -/
def pallocFreeMultiple (p : Palloc) (pages pageCnt : Nat) : Except PallocPanic Palloc :=
  if pgOfs pages ≠ 0 then
    .error .pgOfs
  else if pages = 0 ∨ pageCnt = 0 then
    .ok p
  else if pageFromPool p.kernelPool pages then
    freeIn p false pages pageCnt
  else if pageFromPool p.userPool pages then
    freeIn p true pages pageCnt
  else
    .error .notReached

/-! ## the machine -/

/-- A run of pages: the address of the first and their number. -/
structure PageRun where
  pages : Nat
  cnt : Nat
deriving DecidableEq

/-- The pools and the runs that have been returned and not been freed, by the pool that they
were asked of. -/
structure PallocState where
  palloc : Palloc
  runs : Bool → List PageRun

/-- A call. -/
inductive PallocOp
  | get (flags : PallocFlags) (pageCnt : Nat)
  | free (user : Bool) (run : PageRun)

/-- One call; what is freed has been returned before. -/
def PallocState.step (s : PallocState) : PallocOp → Option PallocState
  | .get flags pageCnt =>
    match pallocGetMultiple s.palloc flags pageCnt with
    | .ok (palloc, pages) =>
      some ⟨palloc, if pages = 0 then s.runs else
        update s.runs flags.user (⟨pages, pageCnt⟩ :: s.runs flags.user)⟩
    | .error _ => none
  | .free user run =>
    if run ∈ s.runs user then
      match pallocFreeMultiple s.palloc run.pages run.cnt with
      | .ok palloc => some ⟨palloc, update s.runs user ((s.runs user).erase run)⟩
      | .error _ => none
    else
      none

/-- Any sequence of calls after `palloc_init`, with more than 1 MB of memory. -/
def pallocMachine : Machine PallocState PallocOp where
  init := fun s => s.runs = (fun _ => []) ∧
    ∃ ramKb userPageLimit junk, 1024 < ramKb ∧ pallocInit ramKb userPageLimit junk = .ok s.palloc
  step := PallocState.step

/-! ## the pools -/

variable {p p' : Palloc} {pool : Pool} {s s' : PallocState} {flags : PallocFlags} {user : Bool}
  {run : PageRun} {runs : List PageRun} {base pageCnt ramKb limit : Nat} {junk : Nat → Bool}

theorem pool_setMap (p : Palloc) (user : Bool) (usedMap : Bitmap) :
    (p.setMap user usedMap).pool user = { p.pool user with usedMap } := by
  cases user <;> rfl

theorem setMap_self (p : Palloc) (user : Bool) : p.setMap user (p.pool user).usedMap = p := by
  cases user <;> rfl

theorem pool_setMap_not (p : Palloc) (user : Bool) (usedMap : Bitmap) :
    (p.setMap user usedMap).pool (!user) = p.pool (!user) := by
  cases user <;> rfl

/-- Where the pools are: above 1 MB, first the kernel pool and then the user pool, each
behind its bitmap. -/
structure Palloc.Layout (p : Palloc) : Prop where
  low : physBase + 1024 * 1024 = p.kernelPool.block
  storage : ∀ user, (p.pool user).block + bitmapBufSize (p.pool user).usedMap.bitCnt ≤
    (p.pool user).base
  aligned : ∀ user, pgsize ∣ (p.pool user).base
  between : p.kernelPool.stop = p.userPool.block
  high : p.userPool.stop ≤ physBase + 64 * 1024 * 1024

/-- The number of the first page of a run, in its pool. -/
def Pool.index (pool : Pool) (run : PageRun) : Nat := (run.pages - pool.base) / pgsize

/-- The pages of the runs are those that are marked in the bitmap. -/
structure Pool.Holds (pool : Pool) (runs : List PageRun) : Prop where
  tiles : Tiles pool.index PageRun.cnt pool.usedMap.bits pool.usedMap.bitCnt runs
  address : ∀ run ∈ runs, run.pages = pool.base + pgsize * pool.index run

/-- The invariant. -/
structure PallocState.Inv (s : PallocState) : Prop where
  layout : s.palloc.Layout
  holds : ∀ user, (s.palloc.pool user).Holds (s.runs user)

theorem elemCnt_mono {m n : Nat} (h : m ≤ n) (hn : n + 31 < sizeTSize) : elemCnt m ≤ elemCnt n := by
  unfold elemCnt
  rw [Nat.mod_eq_of_lt (by omega), Nat.mod_eq_of_lt hn]
  omega

/-- **`init_pool`**: all pages are free, and the bitmap is in front of them. -/
theorem initPool_ok (hsize : pageCnt + 31 < sizeTSize) (hbase : pgsize ∣ base)
    (h : initPool base pageCnt junk = .ok pool) :
    pool.block = base ∧ pool.block + bitmapBufSize pool.usedMap.bitCnt ≤ pool.base ∧
      pgsize ∣ pool.base ∧ pool.stop = base + pgsize * pageCnt ∧
      pool.usedMap.bitCnt ≤ pageCnt ∧ ∀ i < pool.usedMap.bitCnt, pool.usedMap.bits i = false := by
  unfold initPool at h
  obtain ⟨bm, hbm⟩ : ∃ bm, bm = (bitmapBufSize pageCnt + pgsize - 1) / pgsize := ⟨_, rfl⟩
  rw [← hbm] at h
  by_cases hroom : bm > pageCnt
  · rw [if_pos hroom] at h
    cases h
  · rw [if_neg hroom] at h
    have hmono : bitmapBufSize (pageCnt - bm) ≤ bitmapBufSize pageCnt :=
      Nat.add_le_add_left (Nat.mul_le_mul_left 4 (elemCnt_mono (Nat.sub_le _ _) hsize)) 8
    have hblock : bitmapBufSize pageCnt ≤ bm * pgsize := by
      unfold pgsize at *
      omega
    have hcnt : pageCnt - bm < sizeTSize := by omega
    have hset : bitmapSetMultiple ⟨pageCnt - bm, junk⟩ 0 (pageCnt - bm) false =
        some ⟨pageCnt - bm, fill junk (pageCnt - bm) 0 false⟩ :=
      bitmapSetMultiple_of_le hcnt (le_of_eq (Nat.zero_add _))
    rw [bitmapCreateInBuf, if_pos (le_trans hmono hblock), hset] at h
    cases h
    refine ⟨rfl, ?_, ?_, ?_, Nat.sub_le _ _, ?_⟩
    · exact Nat.add_le_add_left (le_trans hmono hblock) base
    · exact Nat.dvd_add hbase (Nat.dvd_mul_left _ _)
    · change base + bm * pgsize + pgsize * (pageCnt - bm) = base + pgsize * pageCnt
      rw [Nat.add_assoc, Nat.mul_comm bm, ← Nat.mul_add]
      congr 2
      omega
    · intro i hi
      exact fill_of_mem (Nat.zero_le i) ((Nat.zero_add (pageCnt - bm)).symm ▸ hi)

theorem initRamPages_le (ramKb : Nat) : initRamPages ramKb ≤ 16384 := by
  unfold initRamPages
  omega

theorem le_initRamPages (h : 1024 < ramKb) : 256 ≤ initRamPages ramKb := by
  unfold initRamPages
  omega

/-- **`palloc_init`**: the pools lie one behind the other and all pages are free. -/
theorem pallocInit_ok {junk : Bool → Nat → Bool} (hram : 1024 < ramKb)
    (h : pallocInit ramKb limit junk = .ok p) : p.Layout ∧ ∀ user, (p.pool user).Holds [] := by
  have hle := initRamPages_le ramKb
  have hge := le_initRamPages hram
  obtain ⟨freeStart, hstart, h⟩ := bind_eq_ok h
  obtain ⟨freeEnd, hend, h⟩ := bind_eq_ok h
  have hstart := ptov_eq_some (require_eq_ok hstart)
  have hend := ptov_eq_some (require_eq_ok hend)
  have hfree : (freeEnd - freeStart) / pgsize = initRamPages ramKb - 256 := by
    unfold pgsize at *
    omega
  have hdvd : pgsize ∣ freeStart := by
    unfold pgsize physBase at *
    omega
  dsimp only at h
  rw [hfree] at h
  obtain ⟨userPages, huserPages⟩ : ∃ n, n = if (initRamPages ramKb - 256) / 2 > limit then limit
      else (initRamPages ramKb - 256) / 2 := ⟨_, rfl⟩
  have huser : userPages ≤ initRamPages ramKb - 256 := by
    rw [huserPages]
    split <;> omega
  rw [← huserPages] at h
  obtain ⟨kernelPool, hkernelPool, h⟩ := bind_eq_ok h
  obtain ⟨userPool, huserPool, h⟩ := bind_eq_ok h
  cases h
  have hsize : ∀ n, n ≤ initRamPages ramKb → n + 31 < sizeTSize := by
    unfold sizeTSize
    omega
  obtain ⟨kblock, kstorage, kbase, kstop, -, kfree⟩ :=
    initPool_ok (hsize _ (by omega)) hdvd hkernelPool
  obtain ⟨ublock, ustorage, ubase, ustop, -, ufree⟩ :=
    initPool_ok (hsize _ (by omega)) (Nat.dvd_add hdvd (Nat.dvd_mul_left _ _)) huserPool
  refine ⟨⟨?_, ?_, ?_, ?_, ?_⟩, ?_⟩
  · rw [kblock, hstart, Nat.add_comm]
  · intro user
    cases user with
    | false => exact kstorage
    | true => exact ustorage
  · intro user
    cases user with
    | false => exact kbase
    | true => exact ubase
  · rw [kstop, ublock, Nat.mul_comm pgsize]
  · rw [ustop]
    unfold pgsize
    omega
  · intro user
    refine ⟨.nil ?_, nofun⟩
    cases user with
    | false => exact kfree
    | true => exact ufree

/-! ## the calls -/

namespace Palloc.Layout

theorem bitCnt_lt (h : p.Layout) (user : Bool) : (p.pool user).usedMap.bitCnt < sizeTSize := by
  have hk : p.kernelPool.block + bitmapBufSize p.kernelPool.usedMap.bitCnt ≤ p.kernelPool.base :=
    h.storage false
  have hu : p.userPool.block + bitmapBufSize p.userPool.usedMap.bitCnt ≤ p.userPool.base :=
    h.storage true
  have hbetween := h.between
  have hhigh := h.high
  have hlow := h.low
  unfold Pool.stop at hbetween hhigh
  unfold pgsize at hbetween hhigh
  unfold physBase at hlow hhigh
  unfold sizeTSize
  cases user with
  | false =>
    change p.kernelPool.usedMap.bitCnt < 2 ^ 32
    omega
  | true =>
    change p.userPool.usedMap.bitCnt < 2 ^ 32
    omega

theorem base_pos (h : p.Layout) (user : Bool) : 0 < (p.pool user).base := by
  have hk : p.kernelPool.block + bitmapBufSize p.kernelPool.usedMap.bitCnt ≤ p.kernelPool.base :=
    h.storage false
  have hu : p.userPool.block + bitmapBufSize p.userPool.usedMap.bitCnt ≤ p.userPool.base :=
    h.storage true
  unfold bitmapBufSize at hk hu
  cases user with
  | false =>
    change 0 < p.kernelPool.base
    omega
  | true =>
    change 0 < p.userPool.base
    omega

theorem setMap (h : p.Layout) {usedMap : Bitmap}
    (hcnt : usedMap.bitCnt = (p.pool user).usedMap.bitCnt) : (p.setMap user usedMap).Layout := by
  cases user with
  | false =>
    have hstop : (p.setMap false usedMap).kernelPool.stop = p.kernelPool.stop :=
      congrArg (fun n => p.kernelPool.base + pgsize * n) hcnt
    refine ⟨h.low, ?_, ?_, hstop.trans h.between, h.high⟩
    · intro user
      cases user with
      | false => exact (congrArg bitmapBufSize hcnt) ▸ h.storage false
      | true => exact h.storage true
    · intro user
      cases user with
      | false => exact h.aligned false
      | true => exact h.aligned true
  | true =>
    have hstop : (p.setMap true usedMap).userPool.stop = p.userPool.stop :=
      congrArg (fun n => p.userPool.base + pgsize * n) hcnt
    refine ⟨h.low, ?_, ?_, h.between, hstop.symm ▸ h.high⟩
    · intro user
      cases user with
      | false => exact h.storage false
      | true => exact (congrArg bitmapBufSize hcnt) ▸ h.storage true
    · intro user
      cases user with
      | false => exact h.aligned false
      | true => exact h.aligned true

end Palloc.Layout

/-- **`palloc_get_multiple`** takes the first free run of pages, and fails when there is
none. -/
theorem pallocGetMultiple_spec (h : p.Layout) (flags : PallocFlags) (hcnt : 0 < pageCnt) :
    (∃ k, IsFirst (p.pool flags.user).usedMap.bits (p.pool flags.user).usedMap.bitCnt pageCnt k ∧
      pallocGetMultiple p flags pageCnt = .ok (p.setMap flags.user
        { (p.pool flags.user).usedMap with
          bits := fill (p.pool flags.user).usedMap.bits pageCnt k true },
        (p.pool flags.user).base + pgsize * k)) ∨
    (∀ j, j + pageCnt ≤ (p.pool flags.user).usedMap.bitCnt →
      ¬ Clear (p.pool flags.user).usedMap.bits pageCnt j) ∧
    pallocGetMultiple p flags pageCnt =
      if flags.assert then .error .outOfPages else .ok (p, 0) := by
  have hbase := h.base_pos flags.user
  unfold pallocGetMultiple
  rw [if_neg (Nat.ne_of_gt hcnt)]
  dsimp only
  rcases bitmapScanAndFlip_spec (h.bitCnt_lt flags.user) pageCnt with
    ⟨k, hflip, hfirst, hne⟩ | ⟨hflip, hnone⟩
  · refine .inl ⟨k, hfirst, ?_⟩
    have hpages : ¬ ((p.pool flags.user).base + pgsize * k = 0 ∧ flags.assert = true) := by omega
    rw [hflip, require, ok_bind]
    dsimp only
    rw [if_pos hne, if_neg hpages]
    rfl
  · refine .inr ⟨hnone, ?_⟩
    rw [hflip, require, ok_bind]
    dsimp only
    rw [if_neg (not_not_intro rfl), setMap_self]
    cases flags.assert <;> rfl

theorem Pool.Holds.pgNo_sub (h : pool.Holds runs) (hdvd : pgsize ∣ pool.base) (hrun : run ∈ runs) :
    pgNo run.pages - pgNo pool.base = pool.index run := by
  have haddress := h.address run hrun
  unfold pgNo
  unfold pgsize at *
  omega

theorem Pool.Holds.pageFromPool (h : pool.Holds runs) (hdvd : pgsize ∣ pool.base)
    (hrun : run ∈ runs) : pageFromPool pool run.pages = true := by
  have haddress := h.address run hrun
  have hfits := h.tiles.fits run hrun
  have hpos := h.tiles.pos run hrun
  unfold Pintos.pageFromPool
  rw [Bool.and_eq_true, decide_eq_true_eq, decide_eq_true_eq]
  unfold pgNo
  unfold pgsize at *
  omega

theorem Palloc.Layout.not_pageFromPool (h : p.Layout) {page : Nat}
    (hpage : p.userPool.base ≤ page) :
    Pintos.pageFromPool p.kernelPool page = false := by
  have hu : p.userPool.block + bitmapBufSize p.userPool.usedMap.bitCnt ≤ p.userPool.base :=
    h.storage true
  have hbetween := h.between
  have hdvd : pgsize ∣ p.kernelPool.base := h.aligned false
  unfold Pintos.pageFromPool
  rw [Bool.and_eq_false_iff, decide_eq_false_iff_not, decide_eq_false_iff_not]
  right
  unfold Pool.stop at hbetween
  unfold pgNo
  unfold pgsize at *
  omega

/-- **`palloc_free_multiple`** of a run gives its pages back to its pool. -/
theorem pallocFreeMultiple_eq (h : s.Inv) (hrun : run ∈ s.runs user) :
    pallocFreeMultiple s.palloc run.pages run.cnt = .ok (s.palloc.setMap user
      { (s.palloc.pool user).usedMap with
        bits := fill (s.palloc.pool user).usedMap.bits run.cnt ((s.palloc.pool user).index run)
          false }) := by
  have hholds := h.holds user
  have hdvd := h.layout.aligned user
  have haddress := hholds.address run hrun
  have hpos : 0 < run.cnt := hholds.tiles.pos run hrun
  have hbase := h.layout.base_pos user
  have hofs : ¬ pgOfs run.pages ≠ 0 := by
    unfold pgOfs
    unfold pgsize at *
    omega
  have hset : bitmapSetMultiple (s.palloc.pool user).usedMap ((s.palloc.pool user).index run)
      run.cnt false = some { (s.palloc.pool user).usedMap with
        bits := fill (s.palloc.pool user).usedMap.bits run.cnt ((s.palloc.pool user).index run)
          false } :=
    bitmapSetMultiple_of_le (h.layout.bitCnt_lt user) (hholds.tiles.fits run hrun)
  have hfree : freeIn s.palloc user run.pages run.cnt = .ok (s.palloc.setMap user
      { (s.palloc.pool user).usedMap with
        bits := fill (s.palloc.pool user).usedMap.bits run.cnt ((s.palloc.pool user).index run)
          false }) := by
    unfold freeIn
    dsimp only
    rw [hholds.pgNo_sub hdvd hrun, hset]
    rfl
  rw [pallocFreeMultiple, if_neg hofs, if_neg (by omega)]
  have hfrom := hholds.pageFromPool hdvd hrun
  cases user with
  | false =>
    have hfrom : pageFromPool s.palloc.kernelPool run.pages = true := hfrom
    rw [if_pos hfrom, hfree]
  | true =>
    have hle : s.palloc.userPool.base ≤ run.pages := by
      rw [haddress]
      exact Nat.le_add_right _ _
    have hfrom : pageFromPool s.palloc.userPool run.pages = true := hfrom
    rw [if_neg (by rw [h.layout.not_pageFromPool hle]; decide), if_pos hfrom, hfree]

/-! ## the invariant -/

theorem Pool.Holds.get {k : Nat} (h : pool.Holds runs) (hcnt : 0 < pageCnt)
    (hfirst : IsFirst pool.usedMap.bits pool.usedMap.bitCnt pageCnt k) :
    Pool.Holds { pool with usedMap :=
      { pool.usedMap with bits := fill pool.usedMap.bits pageCnt k true } }
      (⟨pool.base + pgsize * k, pageCnt⟩ :: runs) := by
  have hindex : pool.index ⟨pool.base + pgsize * k, pageCnt⟩ = k := by
    unfold Pool.index
    dsimp only
    unfold pgsize
    omega
  constructor
  · have htiles := h.tiles.cons hcnt
      (hindex.symm ▸ hfirst.fits) (hindex.symm ▸ hfirst.clear)
    rwa [hindex] at htiles
  · intro run hrun
    rcases List.mem_cons.mp hrun with rfl | hrun
    · exact congrArg (fun i => pool.base + pgsize * i) hindex.symm
    · exact h.address run hrun

theorem Pool.Holds.free (h : pool.Holds runs) (hrun : run ∈ runs) :
    Pool.Holds { pool with usedMap :=
      { pool.usedMap with bits := fill pool.usedMap.bits run.cnt (pool.index run) false } }
      (runs.erase run) :=
  ⟨h.tiles.erase hrun, fun q hq => h.address q (List.mem_of_mem_erase hq)⟩

theorem PallocState.Inv.setMap (h : s.Inv) {usedMap : Bitmap}
    (hcnt : usedMap.bitCnt = (s.palloc.pool user).usedMap.bitCnt)
    (hholds : Pool.Holds { s.palloc.pool user with usedMap } runs) :
    Inv ⟨s.palloc.setMap user usedMap, update s.runs user runs⟩ := by
  refine ⟨h.layout.setMap hcnt, fun v => ?_⟩
  dsimp only
  by_cases hv : v = user
  · subst hv
    rwa [pool_setMap, update_self]
  · have hnot : v = !user := by
      cases v <;> cases user <;> first | rfl | exact absurd rfl hv
    rw [update_of_ne hv, hnot, pool_setMap_not, ← hnot]
    exact h.holds v

/-- **One call keeps the invariant.** -/
theorem PallocState.Inv.step (h : s.Inv) {op : PallocOp} (hstep : s.step op = some s') :
    s'.Inv := by
  cases op with
  | get flags pageCnt =>
    rcases Nat.eq_zero_or_pos pageCnt with rfl | hcnt
    · cases hstep
      exact h
    · unfold PallocState.step at hstep
      dsimp only at hstep
      rcases pallocGetMultiple_spec h.layout flags hcnt with ⟨k, hfirst, heq⟩ | ⟨-, heq⟩
      · have hbase := h.layout.base_pos flags.user
        rw [heq] at hstep
        dsimp only at hstep
        rw [if_neg (by omega)] at hstep
        cases hstep
        exact h.setMap rfl ((h.holds flags.user).get hcnt hfirst)
      · rw [heq] at hstep
        cases hassert : flags.assert with
        | true =>
          rw [hassert] at hstep
          cases hstep
        | false =>
          rw [hassert] at hstep
          cases hstep
          exact h
  | free user run =>
    unfold PallocState.step at hstep
    dsimp only at hstep
    split at hstep
    · next hrun =>
      rw [pallocFreeMultiple_eq h hrun] at hstep
      cases hstep
      exact h.setMap rfl ((h.holds user).free hrun)
    · cases hstep

theorem pallocMachine_inv (h : pallocMachine.Reach s) : s.Inv := by
  refine h.invariant ?_ fun s op s' hinv _ hstep => hinv.step hstep
  rintro s ⟨hruns, ramKb, limit, junk, hram, hinit⟩
  obtain ⟨hlayout, hholds⟩ := pallocInit_ok hram hinit
  refine ⟨hlayout, fun user => ?_⟩
  rw [hruns]
  exact hholds user

/-! ## what the callers rely on -/

/-- The bytes from `a` to `b` and those of a run have no byte in common. -/
def PageRun.Outside (run : PageRun) (a b : Nat) : Prop := run.pages + pgsize * run.cnt ≤ a ∨ b ≤ run.pages

/-- The run has no page among the `cnt` pages of the pool from page `i` on. -/
def PageRun.Misses (run : PageRun) (pool : Pool) (i cnt : Nat) : Prop :=
  run.Outside (pool.base + pgsize * i) (pool.base + pgsize * (i + cnt))

/-- **What holds of the runs outstanding.** -/
structure PallocState.Safe (s : PallocState) : Prop where
  /-- the runs are pairwise disjoint -/
  apart : (s.runs false ++ s.runs true).Pairwise fun run q => run.Outside q.pages (q.pages + pgsize * q.cnt)
  /-- a run is aligned and in the pool that was asked for -/
  inPool : ∀ user, ∀ run ∈ s.runs user, pgOfs run.pages = 0 ∧ 0 < run.cnt ∧
    (s.palloc.pool user).base ≤ run.pages ∧ run.pages + pgsize * run.cnt ≤ (s.palloc.pool user).stop
  /-- and not in the memory of a bitmap -/
  storage : ∀ user, ∀ run ∈ s.runs user, ∀ v,
    run.Outside (s.palloc.pool v).block
      ((s.palloc.pool v).block + bitmapBufSize (s.palloc.pool v).usedMap.bitCnt)
  /-- the pools are disjoint -/
  pools : s.palloc.kernelPool.block ≤ s.palloc.kernelPool.stop ∧
    s.palloc.kernelPool.stop ≤ s.palloc.userPool.block ∧
    s.palloc.userPool.block ≤ s.palloc.userPool.stop
  /-- a request fails only when every group of pages of that length has a page in a run -/
  full : ∀ flags pageCnt, 0 < pageCnt →
    (pallocGetMultiple s.palloc flags pageCnt = .error .outOfPages ∨
      ∃ p', pallocGetMultiple s.palloc flags pageCnt = .ok (p', 0)) →
    ∀ i, i + pageCnt ≤ (s.palloc.pool flags.user).usedMap.bitCnt →
      ∃ run ∈ s.runs flags.user, ¬ run.Misses (s.palloc.pool flags.user) i pageCnt
  /-- a run that is freed goes back to its pool, and nothing else changes -/
  freed : ∀ user, ∀ run ∈ s.runs user, pallocFreeMultiple s.palloc run.pages run.cnt =
    .ok (s.palloc.setMap user { (s.palloc.pool user).usedMap with
      bits := fill (s.palloc.pool user).usedMap.bits run.cnt ((s.palloc.pool user).index run) false })

namespace PallocState.Inv

theorem inPool (h : s.Inv) (hrun : run ∈ s.runs user) :
    pgOfs run.pages = 0 ∧ 0 < run.cnt ∧ (s.palloc.pool user).base ≤ run.pages ∧
      run.pages + pgsize * run.cnt ≤ (s.palloc.pool user).stop := by
  have hholds := h.holds user
  have haddress := hholds.address run hrun
  have hfits := hholds.tiles.fits run hrun
  have hdvd := h.layout.aligned user
  refine ⟨?_, hholds.tiles.pos run hrun, ?_, ?_⟩
  · unfold pgOfs
    unfold pgsize at *
    omega
  · omega
  · unfold Pool.stop
    unfold pgsize at *
    omega

theorem apart (h : s.Inv) (user : Bool) :
    (s.runs user).Pairwise fun run q => run.Outside q.pages (q.pages + pgsize * q.cnt) := by
  have hholds := h.holds user
  refine hholds.tiles.apart.imp_of_mem fun {run q} hrun hq hapart => ?_
  have haddress := hholds.address run hrun
  have haddress' := hholds.address q hq
  unfold Apart at hapart
  unfold PageRun.Outside
  unfold pgsize at *
  omega

theorem full (h : s.Inv) {i : Nat} (hcnt : 0 < pageCnt)
    (hfail : pallocGetMultiple s.palloc flags pageCnt = .error .outOfPages ∨
      ∃ p', pallocGetMultiple s.palloc flags pageCnt = .ok (p', 0))
    (hi : i + pageCnt ≤ (s.palloc.pool flags.user).usedMap.bitCnt) :
    ∃ run ∈ s.runs flags.user, ¬ run.Misses (s.palloc.pool flags.user) i pageCnt := by
  have hholds := h.holds flags.user
  have hbase := h.layout.base_pos flags.user
  rcases pallocGetMultiple_spec h.layout flags hcnt with ⟨k, -, heq⟩ | ⟨hnone, -⟩
  · -- the call has returned a run
    rw [heq] at hfail
    rcases hfail with herr | ⟨p', hok⟩
    · cases herr
    · have hzero := congrArg Prod.snd (Except.ok.inj hok)
      omega
  · have hclear := mt (hholds.tiles.clear_iff hi).mpr (hnone i hi)
    simp only [not_forall, not_not] at hclear
    obtain ⟨run, hrun, j, hle, hlt, hin⟩ := hclear
    refine ⟨run, hrun, ?_⟩
    have haddress := hholds.address run hrun
    unfold PageRun.Misses PageRun.Outside
    unfold pgsize at *
    omega

theorem safe (h : s.Inv) : s.Safe := by
  have hk : s.palloc.kernelPool.block + bitmapBufSize s.palloc.kernelPool.usedMap.bitCnt ≤
      s.palloc.kernelPool.base := h.layout.storage false
  have hu : s.palloc.userPool.block + bitmapBufSize s.palloc.userPool.usedMap.bitCnt ≤
      s.palloc.userPool.base := h.layout.storage true
  have hbetween := h.layout.between
  have hkstop : s.palloc.kernelPool.base ≤ s.palloc.kernelPool.stop := Nat.le_add_right _ _
  have hustop : s.palloc.userPool.base ≤ s.palloc.userPool.stop := Nat.le_add_right _ _
  constructor
  · refine List.pairwise_append.mpr ⟨h.apart false, h.apart true, fun run hrun q hq => ?_⟩
    obtain ⟨-, -, -, hend⟩ := h.inPool hrun
    obtain ⟨-, -, hstart, -⟩ := h.inPool hq
    change _ ≤ s.palloc.kernelPool.stop at hend
    change s.palloc.userPool.base ≤ _ at hstart
    unfold PageRun.Outside
    omega
  · exact fun user run hrun => h.inPool hrun
  · intro user run hrun v
    obtain ⟨-, -, hstart, hend⟩ := h.inPool hrun
    unfold PageRun.Outside
    cases user with
    | false =>
      change s.palloc.kernelPool.base ≤ _ at hstart
      change _ ≤ s.palloc.kernelPool.stop at hend
      cases v with
      | false => exact .inr (le_trans hk hstart)
      | true => exact .inl (le_trans hend (le_of_eq hbetween))
    | true =>
      change s.palloc.userPool.base ≤ _ at hstart
      refine .inr (le_trans ?_ hstart)
      cases v with
      | false =>
        change s.palloc.kernelPool.block + bitmapBufSize s.palloc.kernelPool.usedMap.bitCnt ≤ _
        omega
      | true => exact hu
  · omega
  · exact fun flags pageCnt hcnt hfail i hi => h.full hcnt hfail hi
  · exact fun user run hrun => pallocFreeMultiple_eq h hrun

end PallocState.Inv

/-- **The page allocator**: in every state reached the runs outstanding are disjoint, in
their pools and outside the bitmaps, requests fail only for lack of pages, and what is
freed goes back to its pool. -/
theorem palloc_safe (h : pallocMachine.Reach s) : s.Safe := (pallocMachine_inv h).safe

/-- 2 MB of memory: two kernel pages and a user page are taken, the kernel pages are freed
and one of them is taken again. -/
theorem palloc_safe_run :
    ∃ s, pallocMachine.Reach s ∧ s.runs false = [⟨0xc0101000, 1⟩] ∧
      s.runs true = [⟨0xc0181000, 1⟩] ∧ s.Safe := by
  have hrun : ((pallocInit 2048 1000 fun _ _ => true).toOption.bind fun p =>
      pallocMachine.runFrom ⟨p, fun _ => []⟩
        [.get ⟨true, false, false⟩ 2, .get ⟨true, true, true⟩ 1, .free false ⟨0xc0101000, 2⟩,
          .get ⟨false, false, false⟩ 1]).map
      (fun s => decide (s.runs false = [⟨0xc0101000, 1⟩] ∧ s.runs true = [⟨0xc0181000, 1⟩])) =
        some true := by
    decide +kernel
  obtain ⟨s, hs, hruns⟩ := Option.map_eq_some_iff.mp hrun
  obtain ⟨p, hinit, hsteps⟩ := Option.bind_eq_some_iff.mp hs
  have hreach : pallocMachine.Reach s :=
    .runFrom (.init ⟨rfl, 2048, 1000, _, by decide, eq_ok_of_toOption hinit⟩) _ hsteps
  obtain ⟨hkernel, huser⟩ := of_decide_eq_true hruns
  exact ⟨s, hreach, hkernel, huser, palloc_safe hreach⟩

end Pintos
