import Pintos.Threads.LockProgram

/-!
# Pintos.Vm.Program

The paging code as lock programs: `vm/page.c`, `vm/frame.c` and `vm/swap.c`.

Each C function that runs to its end inside its caller is a Lean function on
the program that follows it, which gets the C function's result.  What the
function finds in memory (allocation results, the contents of the page, frame
and swap tables, the global `num`) is asked of the environment; addresses,
error codes and byte counts are computed on.

A branch that calls `exit (EXIT_FAIL)` does not come back (`die`), and neither
does a kernel access through a null pointer, which is a page fault at an
address below the user region (`nullFault`).
-/

namespace Pintos

open Bracket

/-! ## locks, procedures and questions -/

/-- The global locks of the paging code. -/
inductive VmLock
  | spage
  | pageFault
  | filesys
  | eviction
  | frame
  | swap
  | block
deriving DecidableEq

/-- What the page fault handler reads from `CR2` and the interrupt frame. -/
structure Fault where
  faultAddr : UInt32
  esp : UInt32
  errorCode : UInt32
  cs : UInt32
deriving DecidableEq

/-- The fields of a `struct spage` that decide what is done. -/
structure Spage where
  hasFile : Bool
  readBytes : UInt32
  zeroBytes : UInt32
  hasLoadIn : Bool

/-- The fields of a `struct fileWithFd` that decide what is done. -/
structure FileWithFd where
  hasFile : Bool
  ownTid : Bool
  addr : UInt32
  mmaped : Bool
  dirty : Bool

/-- The procedures that are entered from user code or from one another. -/
inductive VmProc
  | createSpage (file writable : Bool)
  | lookupSpage (upage : UInt32)
  | spageDestroy (upage : UInt32)
  | loadPages (readBytes zeroBytes : UInt32)
  | pageFault (f : Fault)
  | kill (cs : UInt32)
  | munmap (mapping : Int)
  | exit (status : Int)
  | load (segments : List Bool)
  | openFile
  | processExecute

/-- What the code finds out from its environment. -/
inductive VmQuery
  | malloc
  | pallocGetPage
  | getFrameToEvict
  | bitmapScan
  | lookupSwap (upage : UInt32)
  | pagedirGetPage (upage : UInt32)
  | hashFind (upage : UInt32)
  | shareInstall
  | forStackGrowth
  | num
  | installPage
  | fileRead
  | fileOpen
  | inSyscall
  | lookupFrame (upage : UInt32)
  | fileFds (mapping : Int)
  | dirtyFds
  | framesOwned
  | faults

/-- The answers. -/
def VmQuery.Ans : VmQuery → Type
  | .hashFind _ => Option Spage
  | .num => Int
  | .fileFds _ => List FileWithFd
  | .dirtyFds => List Int
  | .framesOwned => Nat
  | .faults => List Fault
  | _ => Bool

abbrev VmProg := Prog VmLock VmProc VmQuery.Ans

/-- A call that does not return. -/
def fatal (f : VmProc) : VmProg := .call f .halt

/-- `exit (EXIT_FAIL)`. -/
def die : VmProg := fatal (.exit (-1))

/-- A kernel access through a null pointer. -/
def nullFault : Fault := ⟨0, 0, 0, 0x08⟩

/-- Kernel code reads or writes user memory; every access may fault. -/
def touch (k : VmProg) : VmProg :=
  .ask .faults fun fs : List Fault => fs.foldr (fun f k => .call (.pageFault f) k) k

/-! ## vm/page.c -/

/-- `create_spage`; `file` is the `file != NULL` test. -/
def createSpage (file writable : Bool) (k : VmProg) : VmProg :=
  .ask .malloc fun newPage : Bool =>
    if newPage then
      .acquire .spage <| .release .spage <|
        if file && !writable then
          .ask .shareInstall fun installed : Bool => if installed then k else die
        else
          k
    else
      die

/-- `lookup_spage`. -/
def lookupSpage (upage : UInt32) (k : Option Spage → VmProg) : VmProg :=
  .acquire .spage <| .ask (.hashFind upage) fun e : Option Spage => .release .spage (k e)

/-- `spage_destroy`. -/
def spageDestroy (upage : UInt32) (k : VmProg) : VmProg :=
  lookupSpage upage fun
    | none => k
    | some _ => .acquire .spage <| .release .spage k

/-! ## vm/swap.c -/

/-- The loop that moves the sectors of a page one by one. -/
def blockIo : Nat → VmProg → VmProg
  | 0, k => k
  | n + 1, k => .acquire .block <| .release .block <| blockIo n k

/-- `SECTOR_COUNT`: a page of 4096 bytes in sectors of 512. -/
def sectorCount : Nat := 4096 / 512

/-- `write_to_swap`; with no free slot, `bitmap_set_multiple` panics. -/
def writeToSwap (k : VmProg) : VmProg :=
  .acquire .swap <| .ask .bitmapScan fun found : Bool =>
    if found then .release .swap (blockIo sectorCount k) else .panic

/-- `read_from_swap`. -/
def readFromSwap (k : VmProg) : VmProg :=
  .acquire .swap <| .release .swap <| blockIo sectorCount k

/-! ## vm/frame.c -/

/-- `frame_delete`. -/
def frameDelete (k : VmProg) : VmProg := .acquire .frame <| .release .frame k

/-- `frame_evict`.  The search for a victim takes no lock; it may come back
with a null pointer, which is dereferenced after the `malloc` test. -/
def frameEvict (k : VmProg) : VmProg :=
  .acquire .eviction <| .ask .getFrameToEvict fun victim : Bool =>
    .ask .malloc fun swapEntry : Bool =>
      if swapEntry then
        if victim then
          writeToSwap <| frameDelete <| .release .eviction k
        else
          fatal (.pageFault nullFault)
      else
        die

/-- The end of `frame_create`. -/
def framePush (k : VmProg) : VmProg := .acquire .frame <| .release .frame k

/-- `frame_create`; the result is whether `kpage` is not null. -/
def frameCreate (k : Bool → VmProg) : VmProg :=
  .ask .malloc fun f : Bool =>
    if f then
      .ask .pallocGetPage fun kpage : Bool =>
        if kpage then
          framePush (k true)
        else
          .acquire .filesys <| frameEvict <| .release .filesys <|
            .ask .pallocGetPage fun kpage : Bool => framePush (k kpage)
    else
      die

/-! ## the brackets of the paging code -/

/-- The address test at the top of `page_fault`. -/
def Fault.badAddr (f : Fault) : Bool :=
  !(f.faultAddr < 0xc0000000) || f.faultAddr == 0 || f.faultAddr ≥ 0xc0000000 ||
    f.faultAddr < 0x08048000

/-- A call of this procedure may come back: it is not an exit, not a kill, and
not a fault at an address that is never handled. -/
def VmProc.returns : VmProc → Bool
  | .exit _ | .kill _ => false
  | .pageFault f => !f.badAddr
  | _ => true

/-- The specification that tracks the given locks and permits the given calls:
only the loop of `page_fault` is called with a lock held. -/
def vmSpec (tracked : VmLock → Bool) (allowed : VmProc → Prop) : Spec VmLock VmProc where
  tracked := tracked
  allowed := allowed
  pre
    | .loadPages _ _, hs => hs = if tracked .pageFault then [.pageFault] else []
    | _, hs => hs = []

/-- Procedures that never come back are called, if at all, with empty hands:
`P` is what is known of the tracked locks outside the sections of
`spage_lock`. -/
structure FatalFree (tracked : VmLock → Bool) (allowed : VmProc → Prop)
    (P : List VmLock → Prop) : Prop where
  fatal : ∀ f hs, f.returns = false → allowed f → P hs → hs = []
  nil : P []
  push : ∀ l hs, l ≠ .spage → P hs → P ((vmSpec tracked allowed).push l hs)

section Brackets

variable {tracked : VmLock → Bool} {allowed : VmProc → Prop} {P : List VmLock → Prop}
  {Q : List VmLock → Prop} {hs : List VmLock} {k : VmProg}

section

variable (hS : FatalFree tracked allowed P) {upage : UInt32}
include hS

theorem wp_fatal (hP : P hs) {f : VmProc}
    (hf : f.returns = false) : wp (vmSpec tracked allowed) (fatal f) Q hs := by
  intro hallowed
  have hnil : hs = [] := hS.fatal f hs hf hallowed hP
  refine ⟨?_, hnil⟩
  cases f with
  | loadPages => contradiction
  | _ => exact hnil

theorem wp_die (hP : P hs) : wp (vmSpec tracked allowed) die Q hs :=
  wp_fatal hS hP rfl

theorem wp_nullFault (hP : P hs) :
    wp (vmSpec tracked allowed) (fatal (.pageFault nullFault)) Q hs :=
  wp_fatal hS hP (by decide)

omit hS in
theorem wp_touch (hnil : hs = []) (hk : wp (vmSpec tracked allowed) k Q hs) :
    wp (vmSpec tracked allowed) (touch k) Q hs := by
  intro fs
  induction fs with
  | nil => exact hk
  | cons f fs ih => exact fun _ => ⟨hnil, ih⟩

theorem wp_createSpage (hP : P hs) {file writable : Bool}
    (hl : (vmSpec tracked allowed).Fresh .spage hs) (hk : wp (vmSpec tracked allowed) k Q hs) :
    wp (vmSpec tracked allowed) (createSpage file writable k) Q hs := by
  intro newPage
  cases newPage with
  | false => exact wp_die hS hP
  | true =>
    refine wp_section hl ?_
    split
    · intro installed
      cases installed with
      | false => exact wp_die hS hP
      | true => exact hk
    · exact hk

omit hS in
theorem wp_lookupSpage {k : Option Spage → VmProg} (hl : (vmSpec tracked allowed).Fresh .spage hs)
    (hk : ∀ e, wp (vmSpec tracked allowed) (k e) Q hs) :
    wp (vmSpec tracked allowed) (lookupSpage upage k) Q hs :=
  wp_acquire hl fun e => wp_release (hk e)

omit hS in
theorem wp_spageDestroy (hl : (vmSpec tracked allowed).Fresh .spage hs)
    (hk : wp (vmSpec tracked allowed) k Q hs) :
    wp (vmSpec tracked allowed) (spageDestroy upage k) Q hs := by
  refine wp_lookupSpage hl fun e => ?_
  cases e with
  | none => exact hk
  | some page => exact wp_section hl hk

omit hS in
theorem wp_blockIo (n : Nat) (hl : (vmSpec tracked allowed).Fresh .block hs)
    (hk : wp (vmSpec tracked allowed) k Q hs) : wp (vmSpec tracked allowed) (blockIo n k) Q hs := by
  induction n with
  | zero => exact hk
  | succ n ih => exact wp_section hl ih

omit hS in
theorem wp_readFromSwap (hl : (vmSpec tracked allowed).Fresh .swap hs)
    (hb : (vmSpec tracked allowed).Fresh .block hs) (hk : wp (vmSpec tracked allowed) k Q hs) :
    wp (vmSpec tracked allowed) (readFromSwap k) Q hs :=
  wp_section hl (wp_blockIo _ hb hk)

omit hS in
theorem wp_writeToSwap (hl : (vmSpec tracked allowed).Fresh .swap hs)
    (hb : (vmSpec tracked allowed).Fresh .block hs) (hk : wp (vmSpec tracked allowed) k Q hs) :
    wp (vmSpec tracked allowed) (writeToSwap k) Q hs := by
  refine wp_acquire hl fun found => ?_
  cases found with
  | false => trivial
  | true => exact wp_release (wp_blockIo _ hb hk)

/-- The locks that `frame_create` takes, except `filesys_lock`. -/
def evictLocks : List VmLock := [.eviction, .frame, .swap, .block]

theorem wp_frameEvict (hP : P hs) (hl : ∀ l ∈ evictLocks, (vmSpec tracked allowed).Fresh l hs)
    (hk : wp (vmSpec tracked allowed) k Q hs) :
    wp (vmSpec tracked allowed) (frameEvict k) Q hs := by
  have hP' := hS.push .eviction hs nofun hP
  refine wp_acquire (hl _ (by decide)) fun victim swapEntry => ?_
  cases swapEntry with
  | false => exact wp_die hS hP'
  | true =>
    cases victim with
    | false => exact wp_nullFault hS hP'
    | true =>
      refine wp_writeToSwap ((hl _ (by decide)).push nofun) ((hl _ (by decide)).push nofun) ?_
      exact wp_section ((hl _ (by decide)).push nofun) (wp_release hk)

theorem wp_frameCreate (hP : P hs) {k : Bool → VmProg}
    (hl : ∀ l ∈ .filesys :: evictLocks, (vmSpec tracked allowed).Fresh l hs)
    (hk : ∀ kpage, wp (vmSpec tracked allowed) (k kpage) Q hs) :
    wp (vmSpec tracked allowed) (frameCreate k) Q hs := by
  intro f
  cases f with
  | false => exact wp_die hS hP
  | true =>
    intro kpage
    cases kpage with
    | true => exact wp_section (hl _ (by decide)) (hk true)
    | false =>
      refine wp_acquire (hl _ (by decide)) ?_
      refine wp_frameEvict hS (hS.push .filesys hs nofun hP) (fun l hl' => ?_) ?_
      · refine (hl l (List.mem_cons_of_mem _ hl')).push ?_
        rintro rfl
        exact absurd hl' (by decide)
      · exact wp_release fun kpage => wp_section (hl _ (by decide)) (hk kpage)

end

end Brackets

end Pintos

