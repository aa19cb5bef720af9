import Pintos.Vm.Program

/-!
# Pintos.Userprog.Exception

`page_fault` and `kill` (`userprog/exception.c`), with the process code that
takes the same locks: `exit`, `munmap` and `open` (`userprog/syscall.c`),
`load` and `process_execute` (`userprog/process.c`).

Every branch of `page_fault` that gives up calls `exit` or `kill` with
`page_fault_lock` held, and the thread dies as its recorded holder
(`fatal_fault_orphans_lock`).  While every fault is handled, the four locks of
the fault path are only ever held by live threads
(`holders_live_of_faults_handled`).
-/

namespace Pintos

open Bracket

/-! ## page_fault -/

namespace Fault

/-- `pg_round_down (fault_addr)`. -/
def upage (f : Fault) : UInt32 := f.faultAddr &&& 0xfffff000

/-- `not_present`: bit `PF_P` of the error code is clear. -/
def notPresent (f : Fault) : Bool := f.errorCode &&& 0x1 == 0

/-- `user`: bit `PF_U` of the error code is set. -/
def user (f : Fault) : Bool := f.errorCode &&& 0x4 != 0

/-- `fault_addr >= f->esp - 32`. -/
def nearStack (f : Fault) : Bool := f.faultAddr ≥ f.esp - 32

end Fault

/-- The loop of `page_fault` that reads the pages of a file. -/
def loadPages (readBytes zeroBytes : UInt32) : VmProg :=
  if readBytes > 0 || zeroBytes > 0 then
    let pageReadBytes := if readBytes < 4096 then readBytes else 4096
    let pageZeroBytes := 4096 - pageReadBytes
    frameCreate fun kpage =>
      if kpage then
        .ask .fileRead fun read : Bool =>
          if read then
            .ask .installPage fun installed : Bool =>
              if installed then
                .call (.loadPages (readBytes - pageReadBytes) (zeroBytes - pageZeroBytes)) .ret
              else
                die
          else
            die
      else
        die
  else
    .ret

/-- `page_fault` for a page that has no `struct spage`: stack growth. -/
def growStack (f : Fault) : VmProg :=
  .ask .forStackGrowth fun growing : Bool =>
    if f.nearStack && !growing then
      frameCreate fun kpage =>
        if kpage then
          .ask .num fun num : Int =>
            if num > 2048 then
              die
            else
              .ask .installPage fun success : Bool =>
                if success then
                  createSpage false false <| .release .pageFault .ret
                else
                  die
        else
          .release .pageFault .ret
    else
      die

/-- `page_fault` once the page is not brought in from swap. -/
def faultInPage (f : Fault) : VmProg :=
  lookupSpage f.upage fun
    | none => growStack f
    | some page =>
      if f.notPresent then
        -- file_seek asserts that there is a file
        if page.hasFile then
          .call (.loadPages page.readBytes page.zeroBytes) <| .release .pageFault .ret
        else
          .panic
      else
        .ask .inSyscall fun inSyscall : Bool =>
          if inSyscall then die else fatal (.kill f.cs)

/-- `page_fault`. -/
def pageFault (f : Fault) : VmProg :=
  .acquire .pageFault <|
    if f.badAddr then
      die
    else
      .ask (.lookupSwap f.upage) fun inSwap : Bool =>
        if inSwap then
          .ask (.pagedirGetPage f.upage) fun mapped : Bool =>
            if mapped then
              readFromSwap (faultInPage f)
            else
              frameCreate fun kpage =>
                -- install_page asserts that kpage is a kernel address
                if kpage then readFromSwap <| .release .pageFault .ret else .panic
        else
          faultInPage f

/-- `kill`, by the code segment of the interrupt frame. -/
def kill (cs : UInt32) : VmProg :=
  if cs = 0x1b then .halt else if cs = 0x08 then .panic else .halt

/-! ## exit, munmap and the users of filesys_lock -/

/-- The loop of `munmap` over the descriptors with the given number. -/
def munmapFds : List FileWithFd → VmProg
  | [] => .ret
  | fd :: fds =>
    if !fd.hasFile || !fd.ownTid || fd.addr == 0 then
      .ret
    else
      let unmap :=
        (if fd.dirty then id else touch) <| spageDestroy fd.addr <|
          .ask (.lookupFrame fd.addr) fun own : Bool =>
            if own then frameDelete (munmapFds fds) else munmapFds fds
      if fd.mmaped then
        lookupSpage fd.addr fun
          | none => fatal (.pageFault nullFault)
          | some page =>
            if page.hasLoadIn then
              unmap
            else
              lookupSpage fd.addr fun
                | none => fatal (.pageFault nullFault)
                | some _ => touch unmap
      else
        unmap

/-- The loop of `exit` over the frame table. -/
def deleteFrames : Nat → VmProg → VmProg
  | 0, k => k
  | n + 1, k => frameDelete (deleteFrames n k)

/-- `exit`: the mappings of dirty pages are written back, the frames deleted,
and the thread ends. -/
def exit : VmProg :=
  .ask .dirtyFds fun fds : List Int =>
    fds.foldr (fun fd k => .call (.munmap fd) k) <|
      .ask .framesOwned fun n : Nat => deleteFrames n .halt

/-- `setup_stack`. -/
def setupStack : VmProg :=
  frameCreate fun kpage =>
    if kpage then
      .ask .installPage fun success : Bool => if success then createSpage false false .ret else .ret
    else
      .ret

/-- `load`: `load_segment` records each segment and touches its first page. -/
def load (segments : List Bool) : VmProg :=
  .acquire .filesys <| .release .filesys <| .ask .fileOpen fun opened : Bool =>
    if opened then
      segments.foldr (fun writable k => createSpage true writable (touch k)) setupStack
    else
      .ret

/-- The code of every procedure. -/
def vmBody : VmProc → VmProg
  | .createSpage file writable => createSpage file writable .ret
  | .lookupSpage upage => lookupSpage upage fun _ => .ret
  | .spageDestroy upage => spageDestroy upage .ret
  | .loadPages readBytes zeroBytes => loadPages readBytes zeroBytes
  | .pageFault f => pageFault f
  | .kill cs => kill cs
  | .munmap mapping => .ask (.fileFds mapping) munmapFds
  | .exit _ => exit
  | .load segments => load segments
  | .openFile => touch <| .acquire .filesys <| .release .filesys .ret
  | .processExecute => .acquire .filesys <| .release .filesys .ret

/-- Every procedure but the loop of `page_fault` is entered by system calls,
exceptions or a process start. -/
def VmProc.entry : VmProc → Bool
  | .loadPages _ _ => false
  | _ => true

/-- `spage_init` initialises `spage_lock` in every process that starts. -/
def VmLock.reinit (l : VmLock) : Bool := l == .spage

abbrev VmSys (τ : Type*) := ProgSys τ VmLock VmProc VmQuery.Ans

abbrev VmAct (τ : Type*) := ProgAct τ VmLock VmProc VmQuery.Ans

/-- Processes running the paging code. -/
def vmMachine {τ : Type*} [DecidableEq τ] : Machine (VmSys τ) (VmAct τ) :=
  progMachine vmBody VmProc.entry VmLock.reinit

/-- No call in progress. -/
def vmBoot {τ : Type*} : VmSys τ := ⟨lockBoot, fun _ => []⟩

/-! ## the brackets of every procedure -/

section Brackets

variable {tracked : VmLock → Bool} {allowed : VmProc → Prop} {P : List VmLock → Prop}
  {Q : List VmLock → Prop}

/-- Inside `page_fault` every other lock may be taken. -/
theorem fresh_pageFault {l : VmLock} (hl : l ≠ .pageFault) :
    (vmSpec tracked allowed).Fresh l ((vmSpec tracked allowed).push .pageFault []) :=
  fresh_nil.push hl

theorem fresh_evictLocks {l : VmLock} (hl : l ∈ .filesys :: evictLocks) :
    (vmSpec tracked allowed).Fresh l ((vmSpec tracked allowed).push .pageFault []) :=
  fresh_pageFault fun heq => absurd (heq ▸ hl) (by decide)

section

variable (hS : FatalFree tracked allowed P) {f : Fault}
include hS

theorem wp_loadPages {readBytes zeroBytes : UInt32}
    (hQ : Q ((vmSpec tracked allowed).push .pageFault [])) :
    wp (vmSpec tracked allowed) (loadPages readBytes zeroBytes) Q
      ((vmSpec tracked allowed).push .pageFault []) := by
  have hP := hS.push .pageFault [] nofun hS.nil
  unfold loadPages
  split
  · refine wp_frameCreate hS hP (fun l => fresh_evictLocks) fun kpage => ?_
    cases kpage with
    | false => exact wp_die hS hP
    | true =>
      intro read
      cases read with
      | false => exact wp_die hS hP
      | true =>
        intro installed
        cases installed with
        | false => exact wp_die hS hP
        | true => exact fun _ => ⟨rfl, hQ⟩
  · exact hQ

theorem wp_growStack (hQ : Q []) :
    wp (vmSpec tracked allowed) (growStack f) Q ((vmSpec tracked allowed).push .pageFault []) := by
  have hP := hS.push .pageFault [] nofun hS.nil
  have hret : wp (vmSpec tracked allowed) (.release .pageFault .ret : VmProg) Q
      ((vmSpec tracked allowed).push .pageFault []) := wp_release hQ
  intro growing
  show wp _ (if _ then _ else _) Q _
  split
  · refine wp_frameCreate hS hP (fun l => fresh_evictLocks) fun kpage => ?_
    cases kpage with
    | false => exact hret
    | true =>
      intro (num : Int)
      show wp _ (if num > 2048 then _ else _) Q _
      split
      · exact wp_die hS hP
      · intro success
        cases success with
        | false => exact wp_die hS hP
        | true => exact wp_createSpage hS hP (fresh_pageFault (by decide)) hret
  · exact wp_die hS hP

theorem wp_faultInPage (hQ : Q []) :
    wp (vmSpec tracked allowed) (faultInPage f) Q
      ((vmSpec tracked allowed).push .pageFault []) := by
  have hP := hS.push .pageFault [] nofun hS.nil
  refine wp_lookupSpage (fresh_pageFault (by decide)) fun e => ?_
  cases e with
  | none => exact wp_growStack hS hQ
  | some page =>
    show wp _ (if _ then _ else _) Q _
    split
    · split
      · exact fun _ => ⟨rfl, wp_release hQ⟩
      · trivial
    · intro inSyscall
      cases inSyscall with
      | true => exact wp_die hS hP
      | false => exact wp_fatal hS hP rfl

theorem wp_pageFault (hQ : Q []) : wp (vmSpec tracked allowed) (pageFault f) Q [] := by
  have hP := hS.push .pageFault [] nofun hS.nil
  refine wp_acquire fresh_nil ?_
  split
  · exact wp_die hS hP
  · intro inSwap
    cases inSwap with
    | false => exact wp_faultInPage hS hQ
    | true =>
      intro mapped
      cases mapped with
      | true =>
        exact wp_readFromSwap (fresh_pageFault (by decide)) (fresh_pageFault (by decide))
          (wp_faultInPage hS hQ)
      | false =>
        refine wp_frameCreate hS hP (fun l => fresh_evictLocks) fun kpage => ?_
        cases kpage with
        | false => trivial
        | true =>
          exact wp_readFromSwap (fresh_pageFault (by decide)) (fresh_pageFault (by decide))
            (wp_release hQ)

theorem wp_munmapFds (fds : List FileWithFd) (hQ : Q []) :
    wp (vmSpec tracked allowed) (munmapFds fds) Q [] := by
  induction fds with
  | nil => exact hQ
  | cons fd fds ih =>
    unfold munmapFds
    split
    · exact hQ
    · have hframe : wp (vmSpec tracked allowed) (spageDestroy fd.addr <|
          .ask (.lookupFrame fd.addr) fun own : Bool =>
            if own then frameDelete (munmapFds fds) else munmapFds fds) Q [] := by
        refine wp_spageDestroy fresh_nil fun own => ?_
        cases own with
        | true => exact wp_section fresh_nil ih
        | false => exact ih
      have hunmap : wp (vmSpec tracked allowed) ((if fd.dirty then id else touch) <|
          spageDestroy fd.addr <| .ask (.lookupFrame fd.addr) fun own : Bool =>
            if own then frameDelete (munmapFds fds) else munmapFds fds) Q [] := by
        split
        · exact hframe
        · exact wp_touch rfl hframe
      show wp _ (if _ then _ else _) Q _
      split
      · refine wp_lookupSpage fresh_nil fun e => ?_
        cases e with
        | none => exact wp_nullFault hS hS.nil
        | some page =>
          show wp _ (if _ then _ else _) Q _
          split
          · exact hunmap
          · refine wp_lookupSpage fresh_nil fun e => ?_
            cases e with
            | none => exact wp_nullFault hS hS.nil
            | some _ => exact wp_touch rfl hunmap
      · exact hunmap

end

theorem wp_exit : wp (vmSpec tracked allowed) exit Q [] := by
  intro fds
  induction fds with
  | nil =>
    intro n
    induction n with
    | zero => rfl
    | succ n ih => exact wp_section fresh_nil ih
  | cons fd fds ih => exact fun _ => ⟨rfl, ih⟩

theorem wp_load (hS : FatalFree tracked allowed P) (segments : List Bool) (hQ : Q []) :
    wp (vmSpec tracked allowed) (load segments) Q [] := by
  refine wp_section fresh_nil fun opened => ?_
  cases opened with
  | false => exact hQ
  | true =>
    induction segments with
    | nil =>
      refine wp_frameCreate hS hS.nil (fun _ _ => fresh_nil) fun kpage => ?_
      cases kpage with
      | false => exact hQ
      | true =>
        intro success
        cases success with
        | false => exact hQ
        | true => exact wp_createSpage hS hS.nil fresh_nil hQ
    | cons writable segments ih =>
      exact wp_createSpage hS hS.nil fresh_nil (wp_touch rfl ih)

/-- Every procedure gives back the locks it was called with. -/
theorem vmBody_sound (hS : FatalFree tracked allowed P) :
    (vmSpec tracked allowed).Sound vmBody := by
  intro f hs hpre
  cases f with
  | loadPages readBytes zeroBytes =>
    obtain rfl : hs = (vmSpec tracked allowed).push .pageFault [] := hpre
    exact wp_loadPages hS rfl
  | createSpage file writable =>
    obtain rfl : hs = [] := hpre
    exact wp_createSpage hS hS.nil fresh_nil rfl
  | lookupSpage upage =>
    obtain rfl : hs = [] := hpre
    exact wp_lookupSpage fresh_nil fun _ => rfl
  | spageDestroy upage =>
    obtain rfl : hs = [] := hpre
    exact wp_spageDestroy fresh_nil rfl
  | pageFault f =>
    obtain rfl : hs = [] := hpre
    exact wp_pageFault hS rfl
  | kill cs =>
    obtain rfl : hs = [] := hpre
    show wp _ (kill cs) _ _
    unfold kill
    split
    · rfl
    · split
      · trivial
      · rfl
  | munmap mapping =>
    obtain rfl : hs = [] := hpre
    exact fun fds => wp_munmapFds hS fds rfl
  | exit status =>
    obtain rfl : hs = [] := hpre
    exact wp_exit
  | load segments =>
    obtain rfl : hs = [] := hpre
    exact wp_load hS segments rfl
  | openFile =>
    obtain rfl : hs = [] := hpre
    exact wp_touch rfl (wp_section fresh_nil rfl)
  | processExecute =>
    obtain rfl : hs = [] := hpre
    exact wp_section fresh_nil rfl

theorem vmSpec_pre_of_entry {f : VmProc} (hf : f.entry = true) :
    (vmSpec tracked allowed).pre f [] := by
  cases f with
  | loadPages => contradiction
  | _ => rfl

end Brackets

/-! ## orphaned locks -/

variable {τ : Type*}

/-- The holders of the locks of the fault path have not exited. -/
def NoOrphan (s : VmSys τ) : Prop :=
  ∀ l ∈ [VmLock.pageFault, .filesys, .eviction, .frame], ∀ t,
    (s.locks.lock l).holder = some t → s.locks.live t = true

/-- Memory is plentiful, nothing is in swap, no page is known, no address is
dirty and kernel accesses do not fault. -/
def quiet : (q : VmQuery) → q.Ans
  | .hashFind _ => (none : Option Spage)
  | .num => (2 : Int)
  | .fileFds _ => ([] : List FileWithFd)
  | .dirtyFds => ([] : List Int)
  | .framesOwned => (0 : Nat)
  | .faults => ([] : List Fault)
  | .lookupSwap _ | .pagedirGetPage _ | .forStackGrowth | .inSyscall | .lookupFrame _ => false
  | .malloc | .pallocGetPage | .getFrameToEvict | .bitmapScan | .shareInstall | .installPage
  | .fileRead | .fileOpen => true

/-- A user access at the given address, with a stack pointer near the top. -/
def userFault (addr : UInt32) : Fault := ⟨addr, 0xbfffffe0, 0x4, 0x1b⟩

/-- Process `0` reads below the user region and is terminated; process `1` then
faults on its stack. -/
def fatalFaultRun : List (VmAct Nat) :=
  [.call 0 (.pageFault (userFault 0x1000))] ++ List.replicate 8 (.run 0 quiet) ++
    [.call 1 (.pageFault (userFault 0xbfffffd0))] ++ List.replicate 3 (.run 1 quiet)

/-- The terminated process is still the holder of `page_fault_lock`, and the
next process to fault waits for it. -/
theorem fatal_fault_orphans_lock :
    ∃ s : VmSys Nat, vmMachine.runFrom vmBoot fatalFaultRun = some s ∧ vmMachine.Reach s ∧
      s.locks.pc 1 = .waiting .pageFault ∧ ¬ NoOrphan s := by
  obtain ⟨s, hrun, hs, hpc, hh, hdead⟩ := Machine.exists_reach_of_runFrom (m := vmMachine) rfl
    fatalFaultRun (fun s => s.locks.pc 1 = .waiting .pageFault ∧
      (s.locks.lock .pageFault).holder = some 0 ∧ s.locks.live 0 = false) (by decide +kernel)
  refine ⟨s, hrun, hs, hpc, fun hno => ?_⟩
  have hlive := hno .pageFault (by simp) 0 hh
  cases hdead.symm.trans hlive

/-- Every fault is handled: no step of `page_fault`, or of what it calls, enters
`exit`, `kill` or a fault at an address that is never handled. -/
def FaultsHandled (s : VmSys τ) : VmAct τ → Prop
  | .run t _ => (s.calls t).all VmProc.returns = true
  | _ => True

instance (s : VmSys τ) (a : VmAct τ) : Decidable (FaultsHandled s a) := by
  cases a <;> unfold FaultsHandled <;> infer_instance

/-- Only procedures that come back are called: nothing fatal is left. -/
theorem fatalFree_returns :
    FatalFree (fun l => l != .spage) (fun f => f.returns = true) fun _ => True where
  fatal f hs hf hallowed _ := by
    cases hf.symm.trans hallowed
  nil := trivial
  push _ _ _ _ := trivial

variable [DecidableEq τ]

/-- Only `spage_lock` is initialised after the start, by a thread that is in
none of the procedures. -/
theorem vmStep_init {s s' : VmSys τ} {t : τ} {l : VmLock}
    (hs : vmMachine.step s (.init t l) = some s') : l = .spage ∧ s.Idle t := by
  have hs : progStep vmBody VmProc.entry VmLock.reinit s (.init t l) = some s' := hs
  obtain ⟨hl, hidle, -⟩ := progStep_init hs
  exact ⟨beq_iff_eq.mp hl, hidle⟩

/-- **No orphan while faults are handled**: in every run in which no fault ends
in `exit` or `kill`, the holder of each of the four locks has not exited, in
every state.  Processes may start and re-initialise `spage_lock` at any time,
and may exit by a system call or be killed in user code. -/
theorem holders_live_of_faults_handled (s : VmSys τ)
    (h : vmMachine.ReachIn FaultsHandled s) : NoOrphan s := by
  have hreach : vmMachine.ReachIn
      (permits (vmSpec (fun l => l != .spage) fun f => f.returns = true)) s := by
    refine h.mono fun s a s' hC hs => ?_
    cases a with
    | call t f => trivial
    | run t answer =>
      intro f hf
      simpa [FaultsHandled, hf, vmSpec] using hC
    | init t l =>
      -- only spage_lock is re-initialised, and it is not tracked
      intro hl
      simp [vmSpec, (vmStep_init hs).1] at hl
  have hinv := progInv_of_reachIn (vmBody_sound fatalFree_returns)
    (fun f hf => vmSpec_pre_of_entry hf) hreach
  intro l hl t hh
  refine hinv.live_of_holder ?_ hh
  revert hl
  cases l <;> decide

/-- Process `0` holds `page_fault_lock` and `frame_lock` while process `1` waits
for it and process `2` has exited. -/
theorem holders_live_of_faults_handled_contended :
    ∃ s : VmSys Nat, (s.locks.lock .frame).holder = some 0 ∧
      s.locks.pc 1 = .waiting .pageFault ∧ s.locks.live 2 = false ∧ NoOrphan s := by
  obtain ⟨s, -, hs, hh, hpc, hdead⟩ := Machine.exists_reachIn_of_runIn (m := vmMachine)
    (C := FaultsHandled) rfl ([.call 2 (.exit 0)] ++ List.replicate 3 (.run 2 quiet) ++
      [.call 0 (.pageFault (userFault 0xbfffffd0))] ++ List.replicate 21 (.run 0 quiet) ++
      [.call 1 (.pageFault (userFault 0xbfffffd0))] ++ List.replicate 3 (.run 1 quiet))
    (fun s => (s.locks.lock .frame).holder = some 0 ∧ s.locks.pc 1 = .waiting .pageFault ∧
      s.locks.live 2 = false) (by decide +kernel)
  exact ⟨s, hh, hpc, hdead, holders_live_of_faults_handled s hs⟩

end Pintos
