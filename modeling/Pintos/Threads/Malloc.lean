import Pintos.Kernel.ListMem
import Pintos.Threads.Palloc

/-!
# Pintos.Threads.Malloc

The block allocator (`threads/malloc.c`).

A request is rounded up to the size of a descriptor, whose free blocks are in a list.  The
links of that list are in the blocks themselves, and each page of blocks, an arena, begins
with a header that has the number of its free blocks.  All of this is in memory byte by byte:
headers, links and the descriptors, which are below the pools of pages.

The machine also has the owners of blocks, who write to them, and the other users of the page
allocator, who write to their pages.
-/

namespace Pintos

open Bytes ListMem Function

/-! ## the functions -/

/-- `sizeof (struct arena)`: `magic`, `desc` and `free_cnt`. -/
def arenaSize : Nat := 12

/-- `ARENA_MAGIC`. -/
def arenaMagic : Nat := 0x9a548eed

/-- `sizeof (struct desc)`: `block_size`, `blocks_per_arena`, `free_list` and `lock`. -/
def descSize : Nat := 56

/-- The ways to panic. -/
inductive MallocPanic
  /-- there are more sizes than elements of `descs` -/
  | descCnt
  /-- the address of an arena is null -/
  | null
  /-- an arena does not begin with `ARENA_MAGIC` -/
  | magic
  /-- an address is not that of a block of its arena -/
  | blockOfs
  /-- there are not so many blocks in an arena -/
  | idx
  /-- more blocks of an arena are free than it has -/
  | freeCnt
  /-- an `ASSERT` of a function of the list -/
  | list
  /-- a panic of the page allocator -/
  | palloc (e : PallocPanic)
  /-- a page fault behind the end of memory -/
  | fault
deriving DecidableEq

/-- Memory, the page allocator and the descriptors: the address of `descs`, and `desc_cnt`. -/
structure Kheap where
  mem : Memory
  pages : PallocState
  descs : Nat
  descCnt : Nat

namespace Kheap

/-- The address of a descriptor. -/
def desc (k : Kheap) (i : Nat) : Nat := k.descs + descSize * i

/-- The address of the list of free blocks of a descriptor. -/
def freeList (d : Nat) : Nat := d + 8

/-- The loop of `malloc_init`; `fuel` is more than the number of its steps. -/
def initDescs : Nat → Kheap → Nat → Except MallocPanic Kheap
  | 0, k, _ => .ok k
  | fuel + 1, k, blockSize =>
    if blockSize < pgsize / 2 then
      let d := k.desc k.descCnt
      if k.descCnt + 1 > 10 then
        .error .descCnt
      else
        let m := setWord k.mem d blockSize
        let m := setWord m (d + 4) ((pgsize - arenaSize) / blockSize)
        let m := ListMem.listInit m (freeList d)
        initDescs fuel { k with mem := m, descCnt := k.descCnt + 1 } (blockSize * 2)
    else
      .ok k

/-- `malloc_init`. -/
def mallocInit (k : Kheap) : Except MallocPanic Kheap := initDescs 32 k 16

/-- `palloc_get_multiple (0, pageCnt)`. -/
def pallocGet (k : Kheap) (pageCnt : Nat) : Except MallocPanic (Kheap × Nat) :=
  match pallocGetMultiple k.pages.palloc ⟨false, false, false⟩ pageCnt with
  | .error e => .error (.palloc e)
  | .ok (palloc, pages) =>
    .ok ({ k with pages := ⟨palloc, if pages = 0 then k.pages.runs else
      update k.pages.runs false (⟨pages, pageCnt⟩ :: k.pages.runs false)⟩ }, pages)

/-- `memset`, which faults behind the end of memory. -/
def memset (k : Kheap) (p n : Nat) (c : UInt8) : Except MallocPanic Kheap :=
  if p + n > k.pages.palloc.userPool.stop then
    .error .fault
  else
    .ok { k with mem := setRange k.mem p n c }

/-- `memcpy`. -/
def memcpy (k : Kheap) (dst src n : Nat) : Except MallocPanic Kheap :=
  if dst + n > k.pages.palloc.userPool.stop ∨ src + n > k.pages.palloc.userPool.stop then
    .error .fault
  else
    .ok { k with mem := copyRange k.mem dst src n }

/-- `palloc_free_multiple`, which fills the pages with `0xcc`. -/
def pallocFree (k : Kheap) (pages pageCnt : Nat) : Except MallocPanic Kheap :=
  match pallocFreeMultiple k.pages.palloc pages pageCnt with
  | .error e => .error (.palloc e)
  | .ok palloc =>
    let k := { k with pages := ⟨palloc, update k.pages.runs false
      ((k.pages.runs false).erase ⟨pages, pageCnt⟩)⟩ }
    if pages = 0 ∨ pageCnt = 0 then .ok k else k.memset pages (pgsize * pageCnt) 0xcc

end Kheap

/-- `block_to_arena`. -/
def blockToArena (m : Memory) (b : Nat) : Except MallocPanic Nat :=
  let a := pgRoundDown b
  if a = 0 then
    .error .null
  else if word m a ≠ arenaMagic then
    .error .magic
  else if ¬ (word m (a + 4) = 0 ∨
      (pgOfs b + sizeTSize - arenaSize) % sizeTSize % word m (word m (a + 4)) = 0) then
    .error .blockOfs
  else if ¬ (word m (a + 4) ≠ 0 ∨ pgOfs b = arenaSize) then
    .error .blockOfs
  else
    .ok a

/-- `arena_to_block`. -/
def arenaToBlock (m : Memory) (a idx : Nat) : Except MallocPanic Nat :=
  if a = 0 then
    .error .null
  else if word m a ≠ arenaMagic then
    .error .magic
  else if ¬ idx < word m (word m (a + 4) + 4) then
    .error .idx
  else
    .ok (a + arenaSize + idx * word m (word m (a + 4)))

/-- The header of an arena is written. -/
def setArena (m : Memory) (a desc freeCnt : Nat) : Memory :=
  setWord (setWord (setWord m a arenaMagic) (a + 4) desc) (a + 8) freeCnt

/-- A function of the list for every block of an arena, one after the other. -/
def forBlocks (op : Memory → Nat → Option Memory) (m : Memory) (a n : Nat) :
    Except MallocPanic Memory :=
  (List.range n).foldlM (fun m i => arenaToBlock m a i >>= fun b => require .list (op m b)) m

namespace Kheap

/-- The smallest descriptor for a size. -/
def findDesc (k : Kheap) (size : Nat) : Option Nat :=
  ((List.range k.descCnt).map k.desc).find? fun d => decide (word k.mem d ≥ size)

/-- A new arena for a descriptor, unless there is no page for it. -/
def newArena (k : Kheap) (d : Nat) : Except MallocPanic (Kheap × Bool) := do
  let (k, a) ← k.pallocGet 1
  if a = 0 then
    return (k, false)
  else
    let n := word k.mem (d + 4)
    let m ← forBlocks (fun m b => ListMem.listPushBack m (freeList d) b) (setArena k.mem a d n) a n
    return ({ k with mem := m }, true)

/-- A block is taken from the list of free blocks. -/
def takeBlock (k : Kheap) (d : Nat) : Except MallocPanic (Kheap × Nat) := do
  let (m, b) ← require .list (listPopFront k.mem (freeList d))
  let a ← blockToArena m b
  return ({ k with mem := setWord m (a + 8) ((word m (a + 8) + sizeTSize - 1) % sizeTSize) }, b)

/-- `malloc` for a size of a descriptor. -/
def mallocSmall (k : Kheap) (d : Nat) : Except MallocPanic (Kheap × Nat) :=
  if listEmpty k.mem (freeList d) then do
    let (k, success) ← k.newArena d
    if success then k.takeBlock d else return (k, 0)
  else
    k.takeBlock d

/-- `malloc` for a size that is too big for any descriptor. -/
def mallocBig (k : Kheap) (size : Nat) : Except MallocPanic (Kheap × Nat) := do
  let pageCnt := (size + arenaSize + pgsize - 1) % sizeTSize / pgsize
  let (k, a) ← k.pallocGet pageCnt
  if a = 0 then
    return (k, 0)
  else
    return ({ k with mem := setArena k.mem a 0 pageCnt }, a + arenaSize)

/-- `malloc`; 0 is a null pointer. -/
def malloc (k : Kheap) (size : Nat) : Except MallocPanic (Kheap × Nat) :=
  if size = 0 then
    .ok (k, 0)
  else
    match k.findDesc size with
    | none => k.mallocBig size
    | some d => k.mallocSmall d

/-- `calloc`. -/
def calloc (k : Kheap) (a b : Nat) : Except MallocPanic (Kheap × Nat) := do
  let size := a * b % sizeTSize
  if size < a ∨ size < b then
    return (k, 0)
  else
    let (k, p) ← k.malloc size
    if p ≠ 0 then
      let k ← k.memset p size 0
      return (k, p)
    else
      return (k, p)

/-- `block_size`. -/
def blockSize (k : Kheap) (block : Nat) : Except MallocPanic Nat := do
  let a ← blockToArena k.mem block
  let d := word k.mem (a + 4)
  return if d ≠ 0 then word k.mem d else
    (pgsize * word k.mem (a + 8) + sizeTSize - pgOfs block) % sizeTSize

/-- A block is put into the list of free blocks. -/
def freeBlock (k : Kheap) (a d p : Nat) : Except MallocPanic Kheap := do
  let k ← k.memset p (word k.mem d) 0xcc
  let m ← require .list (listPushFront k.mem (freeList d) p)
  let m := setWord m (a + 8) ((word m (a + 8) + 1) % sizeTSize)
  if word m (a + 8) ≥ word m (d + 4) then
    if word m (a + 8) ≠ word m (d + 4) then
      throw .freeCnt
    else
      let m ← forBlocks ListMem.listRemove m a (word m (d + 4))
      Kheap.pallocFree { k with mem := m } a 1
  else
    return { k with mem := m }

/-- `free`. -/
def free (k : Kheap) (p : Nat) : Except MallocPanic Kheap := do
  if p ≠ 0 then
    let a ← blockToArena k.mem p
    let d := word k.mem (a + 4)
    if d ≠ 0 then k.freeBlock a d p else k.pallocFree a (word k.mem (a + 8))
  else
    return k

/-- `realloc`. -/
def realloc (k : Kheap) (oldBlock newSize : Nat) : Except MallocPanic (Kheap × Nat) := do
  if newSize = 0 then
    let k ← k.free oldBlock
    return (k, 0)
  else
    let (k, newBlock) ← k.malloc newSize
    if oldBlock ≠ 0 ∧ newBlock ≠ 0 then
      let oldSize ← k.blockSize oldBlock
      let k ← k.memcpy newBlock oldBlock (min newSize oldSize)
      let k ← k.free oldBlock
      return (k, newBlock)
    else
      return (k, newBlock)

end Kheap

/-! ## the machine -/

/-- The state, with the blocks that have been returned and not been freed, and the runs of
pages of other users of the page allocator. -/
structure MallocState where
  heap : Kheap
  live : List Nat
  others : Bool → List PageRun

/-- A step of the machine. -/
inductive MallocOp
  | malloc (size : Nat)
  | calloc (a b : Nat)
  | realloc (oldBlock newSize : Nat)
  | free (p : Nat)
  /-- the owner of a block writes to it -/
  | write (p ofs : Nat) (v : UInt8)
  /-- another user takes, frees or writes to pages -/
  | getPages (flags : PallocFlags) (pageCnt : Nat)
  | freePages (user : Bool) (run : PageRun)
  | writePage (user : Bool) (run : PageRun) (ofs : Nat) (v : UInt8)

namespace MallocState

/-- The blocks after a call has returned a block or null. -/
def returned (p : Nat) (live : List Nat) : List Nat := if p = 0 then live else p :: live

/-- What callers may ask for: sizes are of type `size_t`, and only blocks that have been
returned are freed and written to, up to their size. -/
def Legal (s : MallocState) : MallocOp → Prop
  | .malloc size => size < sizeTSize
  | .calloc a b => a < sizeTSize ∧ b < sizeTSize
  | .realloc oldBlock newSize => (oldBlock = 0 ∨ oldBlock ∈ s.live) ∧ newSize < sizeTSize
  | .free p => p = 0 ∨ p ∈ s.live
  | .write p ofs _ => p ∈ s.live ∧ ofs < (s.heap.blockSize p).toOption.getD 0
  | .getPages _ _ => True
  | .freePages user run => run ∈ s.others user
  | .writePage user run ofs _ => run ∈ s.others user ∧ ofs < pgsize * run.cnt

/-- A step, if it does not panic. -/
def exec (s : MallocState) : MallocOp → Except MallocPanic MallocState
  | .malloc size => do
      let (heap, p) ← s.heap.malloc size
      return { s with heap, live := returned p s.live }
  | .calloc a b => do
      let (heap, p) ← s.heap.calloc a b
      return { s with heap, live := returned p s.live }
  | .realloc oldBlock newSize => do
      let (heap, p) ← s.heap.realloc oldBlock newSize
      return { s with heap, live :=
        if p ≠ 0 ∨ newSize = 0 then returned p (s.live.erase oldBlock) else s.live }
  | .free p => do
      let heap ← s.heap.free p
      return { s with heap, live := s.live.erase p }
  | .write p ofs v => .ok { s with heap := { s.heap with mem := setRange s.heap.mem (p + ofs) 1 v } }
  | .getPages flags pageCnt =>
    match pallocGetMultiple s.heap.pages.palloc flags pageCnt with
    | .error e => .error (.palloc e)
    | .ok (palloc, pages) =>
      if pages = 0 then
        .ok { s with heap := { s.heap with pages := ⟨palloc, s.heap.pages.runs⟩ } }
      else
        .ok { s with
          heap := { s.heap with pages := ⟨palloc, update s.heap.pages.runs flags.user
            (⟨pages, pageCnt⟩ :: s.heap.pages.runs flags.user)⟩ }
          others := update s.others flags.user
            (⟨pages, pageCnt⟩ :: s.others flags.user) }
  | .freePages user run =>
    match pallocFreeMultiple s.heap.pages.palloc run.pages run.cnt with
    | .error e => .error (.palloc e)
    | .ok palloc => .ok { s with
        heap := { s.heap with pages := ⟨palloc, update s.heap.pages.runs user
          ((s.heap.pages.runs user).erase run)⟩ }
        others := update s.others user ((s.others user).erase run) }
  | .writePage _ run ofs v =>
    .ok { s with heap := { s.heap with mem := setRange s.heap.mem (run.pages + ofs) 1 v } }

instance (s : MallocState) (op : MallocOp) : Decidable (s.Legal op) := by
  cases op <;> unfold MallocState.Legal <;> infer_instance

/-- A step that callers may take and that does not panic. -/
def step (s : MallocState) (op : MallocOp) : Option MallocState :=
  if s.Legal op then (s.exec op).toOption else none

end MallocState

/-- Any sequence of calls after `palloc_init` and `malloc_init`; `descs` is in the memory
below 1 MB. -/
def mallocMachine : Machine MallocState MallocOp where
  init := fun s => s.live = [] ∧ s.others = (fun _ => []) ∧ ∃ k : Kheap,
    (∃ ramKb userPageLimit junk, 1024 < ramKb ∧
      pallocInit ramKb userPageLimit junk = .ok k.pages.palloc) ∧
    k.pages.runs = (fun _ => []) ∧ 0 < k.descs ∧ k.descs + descSize * 10 ≤ physBase + 1024 * 1024 ∧
    k.descCnt = 0 ∧ k.mallocInit = .ok s.heap
  step := MallocState.step

end Pintos
