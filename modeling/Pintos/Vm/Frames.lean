import Pintos.Kernel.Bitmap
import Pintos.Vm.FrameTable

/-!
# Pintos.Vm.Frames

The frames of all processes: who allocates, maps and frees them.

```
frame_create:  malloc, palloc_get_page;  frame_evict, palloc_get_page;  push
frame_evict:   choose a frame (eviction_lock);  copy it to swap;  frame_delete
page_fault:    swap-in, stack growth or the pages of a file: frame_create;  install_page
munmap:        clear the entry, lookup_frame;  frame_delete
exit:          munmap, clear the entries of the spages;  frame_delete for each own frame;  thread_exit
kill, failed load:  thread_exit
thread_exit:   pagedir_destroy
```

What stands between two semicolons is one step, and any number of threads are
anywhere in these functions.  A failed `ASSERT` stops the kernel: the step is not
enabled.  The pages of the user pool are named by their index in its bitmap.  A
frame that has been freed keeps its fields until `malloc` hands it out again.

The table itself is that of `Pintos.Vm.FrameTable`; the contents of pages and the
swap slots are those of `Pintos.Vm.Eviction` and `Pintos.Vm.Swap`.
-/

namespace Pintos.Frames

open FrameTable (TableNode FrameSys)
open Function Option

variable {τ φ : Type*}

/-! ## the state -/

/-- A page-table entry that is present. -/
structure Pte where
  upage : Nat
  kpage : Nat
  writable : Bool
deriving DecidableEq

/-- `struct spage`. -/
structure Spage where
  upage : Nat
  fileSp : Option Nat
  kpage : Option Nat
  readBytes : UInt32
  zeroBytes : UInt32
  writable : Bool
deriving DecidableEq

/-- Where a process takes a page fault: in `load`, in user mode or a system call, in the
part of `exit` that goes over the files. -/
inductive Base
  | loading
  | running
  | exiting
deriving DecidableEq

/-- Who calls `frame_create`, and for which page.  For the loop of `page_fault` over the
pages of a file: `s_page->upage`, its flag, the bytes that are left and `upage_grow`. -/
inductive Caller
  | swapIn (upage : Nat)
  | growStack (upage : Nat)
  | loadPages (spage : Nat) (writable : Bool) (readBytes zeroBytes : UInt32) (upage : Nat)
  | setupStack
deriving DecidableEq

/-- The page. -/
def Caller.upage : Caller → Nat
  | .swapIn upage | .growStack upage | .loadPages _ _ _ _ upage => upage
  | .setupStack => physBase - pgsize

/-- Where a thread is. -/
inductive Pc (φ : Type*)
  | unborn
  | base (b : Base)
  /-- before `frame_create` -/
  | wanting (b : Base) (c : Caller)
  /-- the first `palloc_get_page` has failed -/
  | full (b : Base) (c : Caller) (f : φ)
  /-- in `frame_evict` -/
  | copying (b : Base) (c : Caller) (f victim : φ)
  /-- before the second `palloc_get_page` -/
  | evicted (b : Base) (c : Caller) (f : φ)
  /-- before the `list_push_back` of `frame_create` -/
  | pushing (b : Base) (c : Caller) (f : φ)
  /-- `frame_create` has returned -/
  | created (b : Base) (c : Caller) (f : φ)
  /-- before `read_from_swap` -/
  | swapping (b : Base) (upage : Nat)
  /-- before the `frame_delete` of `munmap` -/
  | unmapping (b : Base) (f : φ)
  /-- in the loop of `exit` over the table, with `frame_e` -/
  | sweeping (e : Option (TableNode φ))
  /-- in `thread_exit` -/
  | exited
  | dead

/-- The frames, the user pool and the page directories.  `mallocd` are the frames that
`malloc` has handed out.  History: `palloc_free_page` has been called on a page that was
free. -/
structure FrameMem (τ φ : Type*) extends FrameSys φ τ where
  kpage : φ → Option Nat
  mallocd : φ → Bool
  usedMap : Bitmap
  pagedir : τ → Option (List Pte)
  doubleFree : Bool

/-- The processes.  History: the flag with which `load` or `page_fault` has mapped a page
that did not come from swap. -/
structure FramesSys (τ φ : Type*) extends FrameMem τ φ where
  spageTable : τ → List Spage
  swapTable : List (τ × Nat)
  pageFaultLock : Option τ
  evictionLock : Option τ
  pc : τ → Pc φ
  mappedAs : τ → Nat → Option Bool

variable [DecidableEq τ]

/-! ## pages -/

/-- `palloc_get_page (PAL_USER)`. -/
def pallocGetPage (usedMap : Bitmap) : Option (Bitmap × Option Nat) :=
  (bitmapScanAndFlip usedMap 0 1 false).map fun r =>
    (r.1, if r.2 = bitmapError then none else some r.2)

/-- `palloc_free_page`; a null pointer is ignored. -/
def pallocFreePage (m : FrameMem τ φ) : Option Nat → Option (FrameMem τ φ)
  | none => some m
  | some page =>
    (bitmapSetMultiple m.usedMap page 1 false).map fun usedMap =>
      { m with usedMap := usedMap, doubleFree := m.doubleFree || !m.usedMap.bits page }

/-- `pagedir_get_page`. -/
def pagedirGetPage (pd : List Pte) (upage : Nat) : Option Pte :=
  pd.find? fun e => e.upage = upage

/-- `pagedir_clear_page`. -/
def pagedirClearPage (pd : List Pte) (upage : Nat) : List Pte :=
  pd.filter fun e => e.upage ≠ upage

/-- `install_page`; `table` when there is a page table or memory for one.  The last two
`ASSERT`s are those of `pagedir_set_page`. -/
def installPage (m : FrameMem τ φ) (t : τ) (upage : Nat) (kpage : Option Nat)
    (writable table : Bool) : Option (FrameMem τ φ × Bool) :=
  (m.pagedir t).bind fun pd =>
    if isUserVaddr upage = false then
      none
    else if (pagedirGetPage pd upage).isSome then
      some (m, false)
    else if upage % pgsize ≠ 0 then
      none
    else
      kpage.bind fun page =>
        if table then
          some ({ m with
            pagedir := update m.pagedir t (some (⟨upage, page, writable⟩ :: pd)) }, true)
        else
          some (m, false)

/-- `frame_delete`. -/
def frameDelete [DecidableEq φ] (m : FrameMem τ φ) (f : φ) : Option (FrameMem τ φ) :=
  (m.pagedir (m.ownerThread f)).bind fun pd =>
    (pallocFreePage { m with
        pagedir := update m.pagedir (m.ownerThread f)
          (some (pagedirClearPage pd (m.upage f))) } (m.kpage f)).bind fun m =>
      (FrameTable.frameDelete m.toFrameSys f).map fun table =>
        { m with toFrameSys := table, mallocd := update m.mallocd f false }

/-! ## supplemental pages -/

def FramesSys.setPc (s : FramesSys τ φ) (t : τ) (pc : Pc φ) : FramesSys τ φ :=
  { s with pc := update s.pc t pc }

/-- `exit`; a lock that the thread holds stays with it. -/
def FramesSys.exit (s : FramesSys τ φ) (t : τ) : FramesSys τ φ := s.setPc t (.base .exiting)

/-- `page_fault` returns. -/
def FramesSys.faultReturn (s : FramesSys τ φ) (t : τ) (b : Base) : FramesSys τ φ :=
  { s with pageFaultLock := none }.setPc t (.base b)

/-- `install_page` for a page that does not come from swap. -/
def mapPage (s : FramesSys τ φ) (t : τ) (upage : Nat) (kpage : Option Nat)
    (writable table : Bool) : Option (FramesSys τ φ × Bool) :=
  (installPage s.toFrameMem t upage kpage writable table).map fun r =>
    if r.2 then
      ({ s with
        toFrameMem := r.1
        mappedAs := update s.mappedAs t
          (update (s.mappedAs t) upage (some writable)) }, true)
    else
      (s, false)

/-- `lookup_spage`. -/
def lookupSpage (s : FramesSys τ φ) (t : τ) (upage : Nat) : Option Spage :=
  (s.spageTable t).find? fun sp => sp.upage = upage

/-- The entries whose page `create_spage` shares. -/
def Spage.shares (new sp : Spage) : Bool := sp.fileSp = new.fileSp && !sp.writable

/-- `hash_insert` leaves an entry with the same key alone. -/
def hashInsert (pages : List Spage) (new : Spage) : List Spage :=
  if pages.any fun sp => sp.upage = new.upage then pages else pages ++ [new]

/-- `create_spage`: the state, and whether it returns; otherwise it calls `exit`.  The
`kpage` of `new` is what `malloc` has left there.  `shared` is the place in the table of
the entry that the iterator finds. -/
def createSpage (s : FramesSys τ φ) (t : τ) (new : Spage) (malloc : Bool) (shared : Option Nat)
    (table : Bool) : Option (FramesSys τ φ × Bool) :=
  let insert := fun sp =>
    { s with spageTable := update s.spageTable t (hashInsert (s.spageTable t) sp) }
  if malloc = false then
    some (s, false)
  else if new.fileSp.isSome && !new.writable then
    match shared with
    | none =>
      if (hashInsert (s.spageTable t) new).any new.shares then none else some (insert new, true)
    | some i =>
      match (hashInsert (s.spageTable t) new)[i]? with
      | none => none
      | some sp =>
        if new.shares sp then
          let s := insert { new with kpage := sp.kpage }
          if sp.kpage.isSome then mapPage s t new.upage sp.kpage false table else some (s, true)
        else
          none
  else
    some (insert new, true)

/-- The entry of a stack page. -/
def stackSpage (upage : Nat) (kpage : Option Nat) : Spage :=
  ⟨upage, none, kpage, 0, 0, false⟩

/-- `s_page->kpage = frame->kpage`. -/
def setSpageKpage (s : FramesSys τ φ) (t : τ) (upage : Nat) (kpage : Option Nat) :
    FramesSys τ φ :=
  { s with
    spageTable := update s.spageTable t
      ((s.spageTable t).map fun sp => if sp.upage = upage then { sp with kpage := kpage } else sp) }

/-! ## page_fault -/

/-- The loop of `page_fault` over the pages of a file. -/
def loadLoop (s : FramesSys τ φ) (t : τ) (b : Base) (spage : Nat) (writable : Bool)
    (readBytes zeroBytes : UInt32) (upage : Nat) : FramesSys τ φ :=
  if readBytes > 0 || zeroBytes > 0 then
    s.setPc t (.wanting b (.loadPages spage writable readBytes zeroBytes upage))
  else
    s.faultReturn t b

/-- `PHYS_BASE - num * PGSIZE`. -/
def stackBottom (num : Int) : Nat := ((physBase - num * pgsize) % 2 ^ 32 : Int).toNat

/-- `page_fault` once the page is not brought in from swap.  A fault at a present page of
the process is fatal; `kill` stops the kernel unless it is the user's. -/
def faultInPage (s : FramesSys τ φ) (t : τ) (b : Base) (upage : Nat)
    (notPresent nearStack inSyscall : Bool) : Option (FramesSys τ φ) :=
  match lookupSpage s t upage with
  | none =>
    if nearStack then
      some (s.setPc t (.wanting b (.growStack (stackBottom s.num))))
    else
      some (s.exit t)
  | some sp =>
    if notPresent then
      -- file_seek asserts that there is a file
      if sp.fileSp.isSome then
        some (loadLoop s t b sp.upage sp.writable sp.readBytes sp.zeroBytes sp.upage)
      else
        none
    else if inSyscall then
      some (s.exit t)
    else if b = .running then
      some (s.setPc t .exited)
    else
      none

/-- `page_fault`; `nearStack` when `fault_addr >= f->esp - 32 && !for_stack_growth`. -/
def pageFault (s : FramesSys τ φ) (t : τ) (b : Base) (faultAddr : Nat)
    (notPresent nearStack inSyscall : Bool) : Option (FramesSys τ φ) :=
  let upage := faultAddr / pgsize * pgsize
  if isUserVaddr faultAddr = false ∨ faultAddr < 0x08048000 then
    some (s.exit t)
  else if (t, upage) ∈ s.swapTable then
    (s.pagedir t).bind fun pd =>
      if (pagedirGetPage pd upage).isNone then
        some (s.setPc t (.wanting b (.swapIn upage)))
      else
        faultInPage { s with swapTable := s.swapTable.erase (t, upage) } t b upage notPresent
          nearStack inSyscall
  else
    faultInPage s t b upage notPresent nearStack inSyscall

variable [DecidableEq φ]

/-! ## frames -/

/-- `frame_create` to the first `palloc_get_page`, with the frame that `malloc` returns. -/
def frameCreate (s : FramesSys τ φ) (t : τ) (b : Base) (c : Caller) :
    Option φ → Option (FramesSys τ φ)
  | none => some (s.exit t)
  | some f =>
    if s.mallocd f then
      none
    else
      (pallocGetPage s.usedMap).map fun r =>
        { s with
          upage := update s.upage f c.upage
          ownerThread := update s.ownerThread f t
          kpage := update s.kpage f r.2
          mallocd := update s.mallocd f true
          usedMap := r.1
          pc := update s.pc t (if r.2.isSome then .pushing b c f else .full b c f) }

/-- `frame_evict` to the choice of the frame; `malloc` when there is memory for the
`struct swap_entry`. -/
def frameEvict (s : FramesSys τ φ) (t : τ) (b : Base) (c : Caller) (f : φ) (malloc : Bool)
    (fuel : Nat) : Option (FramesSys τ φ) :=
  if s.evictionLock.isSome then
    none
  else
    (FrameTable.getFrameToEvict s.toFrameSys).bind fun r =>
      if malloc then
        r.2.bind fun v =>
          (FrameTable.evictLoop fuel r.1 v).map fun r =>
            { s with
              toFrameSys := r.1
              evictionLock := some t
              pc := update s.pc t (.copying b c f r.2) }
      else
        some ({ s with toFrameSys := r.1, evictionLock := some t }.exit t)

/-- The rest of `frame_evict`. -/
def evictFrame (s : FramesSys τ φ) (t : τ) (b : Base) (c : Caller) (f v : φ) :
    Option (FramesSys τ φ) :=
  (frameDelete s.toFrameMem v).map fun m =>
    { s with
      toFrameMem := m
      swapTable := s.swapTable ++ [(s.ownerThread v, s.upage v)]
      evictionLock := none }.setPc t (.evicted b c f)

/-- The second `palloc_get_page` of `frame_create`. -/
def pallocAgain (s : FramesSys τ φ) (t : τ) (b : Base) (c : Caller) (f : φ) :
    Option (FramesSys τ φ) :=
  (pallocGetPage s.usedMap).map fun r =>
    { s with kpage := update s.kpage f r.2, usedMap := r.1 }.setPc t (.pushing b c f)

/-- The end of `frame_create`. -/
def pushFrame (s : FramesSys τ φ) (t : τ) (b : Base) (c : Caller) (f : φ) :
    Option (FramesSys τ φ) :=
  (listPushBack s.heap .tail (.frame f)).map fun h =>
    { s with heap := h, created := update s.created f true }.setPc t (.created b c f)

/-! ## after frame_create -/

/-- What the callers do when `install_page` has failed or the file was too short. -/
def freeAndExit (s : FramesSys τ φ) (t : τ) (kpage : Option Nat) : Option (FramesSys τ φ) :=
  (pallocFreePage s.toFrameMem kpage).map fun m => { s with toFrameMem := m }.exit t

/-- The swap-in of `page_fault`, which does not look at the result of `install_page`. -/
def swapIn (s : FramesSys τ φ) (t : τ) (b : Base) (upage : Nat) (f : φ) (table : Bool) :
    Option (FramesSys τ φ) :=
  (installPage s.toFrameMem t upage (s.kpage f) true table).map fun r =>
    { s with toFrameMem := r.1 }.setPc t (.swapping b upage)

/-- The stack growth of `page_fault`.  The page is the one that `frame_create` was called
for: `num` does not change while `page_fault_lock` is held. -/
def growStack (s : FramesSys τ φ) (t : τ) (b : Base) (upage : Nat) (f : φ)
    (table malloc : Bool) : Option (FramesSys τ φ) :=
  if (s.kpage f).isNone then
    some (s.faultReturn t b)
  else if s.num > 2048 then
    some (s.exit t)
  else
    (mapPage s t upage (s.kpage f) true table).bind fun r =>
      if r.2 then
        (createSpage r.1 t (stackSpage upage (s.kpage f)) malloc none true).map fun r =>
          if r.2 then { r.1 with num := r.1.num + 1 }.faultReturn t b else r.1.exit t
      else
        freeAndExit r.1 t (s.kpage f)

/-- `setup_stack`; `load` fails when it does. -/
def setupStack (s : FramesSys τ φ) (t : τ) (f : φ) (table malloc : Bool) :
    Option (FramesSys τ φ) :=
  if (s.kpage f).isNone then
    some (s.setPc t .exited)
  else
    (mapPage s t (physBase - pgsize) (s.kpage f) true table).bind fun r =>
      if r.2 then
        (createSpage r.1 t (stackSpage (physBase - pgsize) (s.kpage f)) malloc none true).map fun r =>
          if r.2 then r.1.setPc t (.base .running) else r.1.exit t
      else
        (pallocFreePage r.1.toFrameMem (s.kpage f)).map fun m =>
          { r.1 with toFrameMem := m }.setPc t .exited

/-- A round of the loop of `page_fault`; `read` when `file_read` returns all the bytes. -/
def loadPage (s : FramesSys τ φ) (t : τ) (b : Base) (f : φ) (spage : Nat) (writable : Bool)
    (readBytes zeroBytes : UInt32) (upage : Nat) (read table : Bool) :
    Option (FramesSys τ φ) :=
  let pageReadBytes := if readBytes < 4096 then readBytes else 4096
  let pageZeroBytes := 4096 - pageReadBytes
  let s := setSpageKpage s t spage (s.kpage f)
  if (s.kpage f).isNone then
    some (s.exit t)
  else if read then
    (mapPage s t upage (s.kpage f) writable table).bind fun r =>
      if r.2 then
        some (loadLoop r.1 t b spage writable (readBytes - pageReadBytes)
          (zeroBytes - pageZeroBytes) (upage + pgsize))
      else
        freeAndExit r.1 t (s.kpage f)
  else
    freeAndExit s t (s.kpage f)

/-- What the caller of `frame_create` does next. -/
def useFrame (s : FramesSys τ φ) (t : τ) (b : Base) (f : φ) (read table malloc : Bool) :
    Caller → Option (FramesSys τ φ)
  | .swapIn upage => swapIn s t b upage f table
  | .growStack upage => growStack s t b upage f table malloc
  | .setupStack => setupStack s t f table malloc
  | .loadPages spage writable readBytes zeroBytes upage =>
    loadPage s t b f spage writable readBytes zeroBytes upage read table

/-! ## munmap and exit -/

/-- `munmap` to its `lookup_frame`. -/
def munmap (s : FramesSys τ φ) (t : τ) (b : Base) (upage fuel : Nat) : Option (FramesSys τ φ) :=
  (s.pagedir t).bind fun pd =>
    (FrameTable.lookupFrame fuel s.toFrameSys upage).map fun o =>
      let s := { s with
        pagedir := update s.pagedir t (some (pagedirClearPage pd upage))
        spageTable := update s.spageTable t
          ((s.spageTable t).filter fun sp => sp.upage ≠ upage) }
      match o with
      | some f => if s.ownerThread f = t then s.setPc t (.unmapping b f) else s.setPc t (.base b)
      | none => s.setPc t (.base b)

/-- The loop of `exit` over the supplemental pages. -/
def clearSpages (s : FramesSys τ φ) (t : τ) : Option (FramesSys τ φ) :=
  (s.pagedir t).map fun pd =>
    { s with
      pagedir := update s.pagedir t
        (some (pd.filter fun e => (s.spageTable t).all fun sp => sp.upage ≠ e.upage)) }.setPc t
      (.sweeping (s.heap .head).next)

/-- A round of the loop of `exit` over the table. -/
def sweepFrame (s : FramesSys τ φ) (t : τ) : Option (TableNode φ) → Option (FramesSys τ φ)
  | none | some .tail =>
    some ({ s with swapTable := s.swapTable.filter fun e => e.1 ≠ t }.setPc t .exited)
  | some .head => none
  | some (.frame f) =>
    (if s.ownerThread f = t then frameDelete s.toFrameMem f else some s.toFrameMem).map fun m =>
      { s with toFrameMem := m }.setPc t (.sweeping (s.heap (.frame f)).next)

/-- `process_exit`. -/
def processExit (s : FramesSys τ φ) (t : τ) : Option (FramesSys τ φ) :=
  match s.pagedir t with
  | none => some (s.setPc t .dead)
  | some pd =>
    (pd.foldlM (fun m e => pallocFreePage m (some e.kpage))
      { s.toFrameMem with pagedir := update s.pagedir t none }).map fun m =>
        { s with toFrameMem := m }.setPc t .dead

/-! ## the machine -/

/-- The steps; what is not the thread's own choice is in the arguments. -/
inductive FramesAct (τ φ : Type*)
  | start (t : τ) (pagedirCreate : Bool)
  | createSpage (t : τ) (new : Spage) (malloc : Bool) (shared : Option Nat) (table : Bool)
  | setupStack (t : τ)
  | loadFailed (t : τ)
  | fault (t : τ) (faultAddr : Nat) (notPresent nearStack inSyscall : Bool)
  | frameCreate (t : τ) (f : Option φ)
  | frameEvict (t : τ) (malloc : Bool) (fuel : Nat)
  | evictFrame (t : τ)
  | pallocAgain (t : τ)
  | pushFrame (t : τ)
  | useFrame (t : τ) (read table malloc : Bool)
  | readFromSwap (t : τ)
  | munmap (t : τ) (upage fuel : Nat)
  | unmapFrame (t : τ)
  | exit (t : τ)
  | clearSpages (t : τ)
  | sweepFrame (t : τ)
  | kill (t : τ)
  | processExit (t : τ)
  | setAccessed (t : τ) (upage : Nat) (accessed : Bool)

/-- The next step of a thread whose place fits. -/
def framesStep (s : FramesSys τ φ) : FramesAct τ φ → Option (FramesSys τ φ)
  | .start t pagedirCreate =>
    match s.pc t with
    | .unborn =>
      if pagedirCreate then
        some ({ s with pagedir := update s.pagedir t (some []) }.setPc t (.base .loading))
      else
        some (s.setPc t .exited)
    | _ => none
  | .createSpage t new malloc shared table =>
    match s.pc t with
    | .base b =>
      -- load_segment, or mmap, whose pages are writable
      if new.fileSp.isSome ∧ (b = .loading ∨ b = .running ∧ new.writable = true) then
        (createSpage s t new malloc shared table).map fun r => if r.2 then r.1 else r.1.exit t
      else
        none
    | _ => none
  | .setupStack t =>
    match s.pc t with
    | .base .loading => some (s.setPc t (.wanting .loading .setupStack))
    | _ => none
  | .loadFailed t =>
    match s.pc t with
    | .base .loading => some (s.setPc t .exited)
    | _ => none
  | .fault t faultAddr notPresent nearStack inSyscall =>
    match s.pc t with
    | .base b =>
      if s.pageFaultLock.isSome then
        none
      else
        pageFault { s with pageFaultLock := some t } t b faultAddr notPresent nearStack inSyscall
    | _ => none
  | .frameCreate t f =>
    match s.pc t with
    | .wanting b c => frameCreate s t b c f
    | _ => none
  | .frameEvict t malloc fuel =>
    match s.pc t with
    | .full b c f => frameEvict s t b c f malloc fuel
    | _ => none
  | .evictFrame t =>
    match s.pc t with
    | .copying b c f v => evictFrame s t b c f v
    | _ => none
  | .pallocAgain t =>
    match s.pc t with
    | .evicted b c f => pallocAgain s t b c f
    | _ => none
  | .pushFrame t =>
    match s.pc t with
    | .pushing b c f => pushFrame s t b c f
    | _ => none
  | .useFrame t read table malloc =>
    match s.pc t with
    | .created b c f => useFrame s t b f read table malloc c
    | _ => none
  | .readFromSwap t =>
    match s.pc t with
    | .swapping b upage =>
      some ({ s with swapTable := s.swapTable.erase (t, upage) }.faultReturn t b)
    | _ => none
  | .munmap t upage fuel =>
    match s.pc t with
    | .base .running => munmap s t .running upage fuel
    | .base .exiting => munmap s t .exiting upage fuel
    | _ => none
  | .unmapFrame t =>
    match s.pc t with
    | .unmapping b f =>
      (frameDelete s.toFrameMem f).map fun m => { s with toFrameMem := m }.setPc t (.base b)
    | _ => none
  | .exit t =>
    match s.pc t with
    | .base .running => some (s.exit t)
    | _ => none
  | .clearSpages t =>
    match s.pc t with
    | .base .exiting => clearSpages s t
    | _ => none
  | .sweepFrame t =>
    match s.pc t with
    | .sweeping e => sweepFrame s t e
    | _ => none
  | .kill t =>
    match s.pc t with
    | .base .running => some (s.setPc t .exited)
    | _ => none
  | .processExit t =>
    match s.pc t with
    | .exited => processExit s t
    | _ => none
  | .setAccessed t upage b =>
    some { s with accessed := FrameTable.pagedirSetAccessed s.accessed t upage b }

/-- After `frame_init` and `syscall_init`, before the first process, with a user pool of
`userPages` pages. -/
def framesBoot (s₀ : FrameSys φ τ) (userPages : Nat) : FramesSys τ φ where
  toFrameSys := { FrameTable.frameInit s₀ with num := 2 }
  kpage _ := none
  mallocd _ := false
  usedMap := bitmapCreate userPages
  pagedir _ := none
  spageTable _ := []
  swapTable := []
  pageFaultLock := none
  evictionLock := none
  pc _ := .unborn
  doubleFree := false
  mappedAs _ _ := none

/-- All processes on a machine with a user pool of any size. -/
def framesMachine (τ φ : Type*) [DecidableEq τ] [DecidableEq φ] :
    Machine (FramesSys τ φ) (FramesAct τ φ) where
  init s := ∃ s₀ userPages, userPages < sizeTSize ∧ s = framesBoot s₀ userPages
  step := framesStep

/-! ## what the functions do -/

section Functions

variable {m : FrameMem τ φ} {s : FramesSys τ φ} {t : τ} {upage : Nat} {kpage : Option Nat}
  {writable table malloc : Bool} {new : Spage} {shared : Option Nat} {r : FrameMem τ φ × Bool}

omit [DecidableEq φ]

/-- `install_page` leaves everything as it is, or adds an entry. -/
theorem installPage_cases (h : installPage m t upage kpage writable table = some r) :
    r = (m, false) ∨ ∃ pd page, m.pagedir t = some pd ∧ kpage = some page ∧
      pagedirGetPage pd upage = none ∧
      r = ({ m with
        pagedir := update m.pagedir t (some (⟨upage, page, writable⟩ :: pd)) }, true) := by
  obtain ⟨pd, hpd, h⟩ := bind_eq_some_iff.mp h
  split at h
  · contradiction
  · split at h
    · exact .inl (some.inj h).symm
    · next hget =>
      split at h
      · contradiction
      · obtain ⟨page, hpage, h⟩ := bind_eq_some_iff.mp h
        split at h
        · refine .inr ⟨pd, page, hpd, hpage, ?_, (some.inj h).symm⟩
          simpa using hget
        · exact .inl (some.inj h).symm

theorem installPage_eq_true (htable : table = true)
    (habsent : ∀ pd ∈ m.pagedir t, (pagedirGetPage pd upage).isNone = true)
    (h : installPage m t upage kpage writable table = some r) : r.2 = true := by
  subst htable
  obtain ⟨pd, hpd, h⟩ := bind_eq_some_iff.mp h
  have hnone := habsent pd hpd
  split at h
  · contradiction
  · split at h
    · next hsome =>
      rw [← not_isSome, hsome] at hnone
      contradiction
    · split at h
      · contradiction
      · obtain ⟨page, -, h⟩ := bind_eq_some_iff.mp h
        exact congrArg Prod.snd (some.inj h).symm

theorem mapPage_cases {r : FramesSys τ φ × Bool}
    (h : mapPage s t upage kpage writable table = some r) :
    ∃ r', installPage s.toFrameMem t upage kpage writable table = some r' ∧ r.2 = r'.2 ∧
      (r'.2 = false → r.1 = s) ∧
      (r'.2 = true → r.1 = { s with
        toFrameMem := r'.1
        mappedAs := update s.mappedAs t
          (update (s.mappedAs t) upage (some writable)) }) := by
  obtain ⟨r', hr', h⟩ := map_eq_some_iff.mp h
  refine ⟨r', hr', ?_⟩
  split at h
  · next htrue =>
    rw [← h]
    exact ⟨htrue.symm, fun hfalse => absurd (htrue.symm.trans hfalse) nofun, fun _ => rfl⟩
  · next htrue =>
    rw [← h]
    exact ⟨(Bool.eq_false_iff.mpr htrue).symm, fun _ => rfl, fun h => absurd h htrue⟩

/-- `create_spage` changes the supplemental pages only, unless it shares a page. -/
theorem createSpage_cases {r : FramesSys τ φ × Bool}
    (h : createSpage s t new malloc shared table = some r) :
    (∃ pages, r.1 = { s with spageTable := pages }) ∨
      new.fileSp.isSome = true ∧ new.writable = false ∧
        ∃ i sp pages, shared = some i ∧ (hashInsert (s.spageTable t) new)[i]? = some sp ∧
          sp.kpage.isSome = true ∧
          mapPage { s with spageTable := pages } t new.upage sp.kpage false table = some r := by
  unfold createSpage at h
  split at h
  · exact .inl ⟨s.spageTable, by rw [← some.inj h]⟩
  · split at h
    · next hfile =>
      simp only [Bool.and_eq_true, Bool.not_eq_true'] at hfile
      split at h
      · split at h
        · contradiction
        · exact .inl ⟨_, by rw [← some.inj h]⟩
      · next i =>
        split at h
        · contradiction
        · next sp hsp =>
          split at h
          · split at h
            · next hkpage => exact .inr ⟨hfile.1, hfile.2, i, sp, _, rfl, hsp, hkpage, h⟩
            · exact .inl ⟨_, by rw [← some.inj h]⟩
          · contradiction
    · exact .inl ⟨_, by rw [← some.inj h]⟩

end Functions

end Pintos.Frames
