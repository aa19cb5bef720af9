import Pintos.Filesys.File

/-!
# Pintos.Userprog.Descriptor

File descriptors (`userprog/syscall.c`) of any number of processes over one file system.

A descriptor is an entry of its process's `file_fd_list`.  Its number comes from the counter
`currentFd`, which all processes share, and its `struct file` shares the two counters of an inode
with every other open file (`Pintos.Filesys.File`).  `open` is made of the parts that lie between
its accesses to `currentFd`, so that they can be run one after another (`openFile`) or in between
those of other processes (`Pintos.Userprog.OpenInterleaving`).

User memory is not part of the state: `Pages` is what a call finds there.
-/

namespace Pintos.Descriptor

open Fs Function

/-! ## the state -/

/-- `FILE_LIMIT`. -/
def fileLimit : Int := 128

/-- `FD_INIT`, where `currentFd` starts. -/
def fdInit : Int := 2

/-- `STDIN_FILENO`. -/
def stdinFileno : Int := 0

/-- `STDOUT_FILENO`. -/
def stdoutFileno : Int := 1

/-- `EXIT_FAIL`. -/
def exitFail : Int := -1

/-- `struct fileWithFd`. -/
structure FileWithFd where
  fd : Int
  f : Nat
  tid : Nat
  reopened : Bool
  dirty : Bool
  mmaped : Bool
  addr : Nat

/-- What a process has open: `file_fd_list`, and the local variable `file` while
`process_execute` or `load` has a file in it.  `exe` is the sector of the inode that was loaded. -/
structure Proc where
  name : CString
  fileFdList : List FileWithFd
  file : Option Nat
  exe : Option Nat

/-- The files, the counter and the live processes.  `returned` is history: the values that `open`
has returned to a process and that have not been closed. -/
structure Sys where
  handles : Handles
  currentFd : Int
  console : List UInt8
  tids : List Nat
  proc : Nat → Proc
  returned : Nat → List Int

/-- What a call finds outside the state: the bytes of its process, which pages are dirty, whether
a new mapping lies in free pages, the key that `input_getc` returns, and whether `munmap` has
memory for the bounce buffer. -/
structure Pages where
  bytes : Nat → UInt8
  dirty : Nat → Bool
  free : Bool
  key : UInt8
  bounce : Bool

/-- The allocations of `open`; `addr` is what the new entry has in its field `addr`. -/
structure OpenMemory where
  fs : Memory
  fileFd : Bool
  reopen : Memory
  addr : Nat

/-- How a call ends. -/
inductive Outcome
  | returned (v : Int)
  | filled (bs : List UInt8)
  | exited

/-- The state of one process is replaced. -/
abbrev Sys.setProc (s : Sys) (t : Nat) (p : Proc) : Sys :=
  { s with proc := update s.proc t p }

/-- The list of one process is replaced. -/
abbrev Sys.setList (s : Sys) (t : Nat) (l : List FileWithFd) : Sys :=
  s.setProc t { s.proc t with fileFdList := l }

/-- The first entry with the number `fd`. -/
def Sys.find (s : Sys) (t : Nat) (fd : Int) : Option FileWithFd :=
  (s.proc t).fileFdList.find? fun e => e.fd = fd

/-- The first entry with the number `fd` is changed. -/
def modifyFile (fd : Int) (g : FileWithFd → FileWithFd) : List FileWithFd → List FileWithFd
  | [] => []
  | e :: es => if e.fd = fd then g e :: es else e :: modifyFile fd g es

/-! ## files -/

/-- `filesys_open`; the new file is among the open ones. -/
def filesysOpen (h : Handles) (name : CString) (memory : Memory) :
    Except Assertion (Handles × Option Nat) := do
  let (fs, file) ← Fs.filesysOpen h.fs name memory
  return (⟨fs, file.toList ++ h.files, h.owned⟩, file)

/-- `file_length`. -/
def fileLength (fs : FileSys) (file : Nat) : Nat := (fs.inodes (fs.files file).inode).data.length

/-- `file_write_at`, whose result nobody reads. -/
def fileWriteAt (fs : FileSys) (file : Nat) (buffer : List UInt8) (ofs : Nat) (memory : Bool) :
    Except Assertion FileSys := do
  let inode := fs.inodes (fs.files file).inode
  let (dev, _) ← inodeWriteAt fs.dev inode.data inode.denied buffer ofs memory
  return { fs with dev }

/-! ## munmap and exit -/

/-- What `munmap` does with the file of an entry. -/
def unmapFile (pages : Pages) (h : Handles) (e : FileWithFd) : Except Assertion Handles := do
  let h ← (if e.reopened then .ok h else h.exec (.fileAllowWrite e.f))
  let h ← h.exec (.fileAllowWrite e.f)
  let image := Bytes.read pages.bytes e.addr (fileLength h.fs e.f)
  let fs ← (if e.dirty then .ok h.fs else fileWriteAt h.fs e.f image 0 pages.bounce)
  let fs ← fileSeek fs e.f ⟨0, by decide⟩
  return { h with fs }

/-- The loop of `munmap`. -/
def munmapFrom (pages : Pages) (t : Nat) (mapping : Int) :
    Handles → List FileWithFd → Except Assertion (Handles × List FileWithFd)
  | h, [] => .ok (h, [])
  | h, e :: es =>
    if e.fd = mapping then
      if e.tid ≠ t ∨ e.addr = 0 then
        .ok (h, e :: es)
      else do
        let h ← unmapFile pages h e
        let (h, es) ← munmapFrom pages t mapping h es
        return (h, { e with mmaped := false } :: es)
    else do
      let (h, es) ← munmapFrom pages t mapping h es
      return (h, e :: es)

/-- `munmap`. -/
def munmap (s : Sys) (t : Nat) (mapping : Int) (pages : Pages) : Except Assertion Sys := do
  let (h, l) ← munmapFrom pages t mapping s.handles (s.proc t).fileFdList
  return { s.setList t l with handles := h }

/-- The loop of `exit` over the entries.  The entries are freed; their files are not closed. -/
def exitFiles (pages : Pages) (t : Nat) : Handles → List FileWithFd → Except Assertion Handles
  | h, [] => .ok h
  | h, e :: es =>
    if pages.dirty e.addr then do
      -- all that `munmap` changes in the entries is `mmaped`, which the loop does not read
      let (h, _) ← munmapFrom pages t e.fd h (e :: es)
      exitFiles pages t h es
    else
      exitFiles pages t h es

/-- `exit`. -/
def exit (s : Sys) (t : Nat) (pages : Pages) : Except Assertion (Sys × Outcome) := do
  let h ← exitFiles pages t s.handles (s.proc t).fileFdList
  return ({ s.setList t [] with
    handles := h, tids := s.tids.erase t, returned := update s.returned t [] }, .exited)

/-! ## open -/

/-- `open` as far as the first test: the file and whether it is marked as reopened.  `current`
is how the comparison with `current_file_name` comes out, whose bytes nobody has written. -/
def openFound (s : Sys) (t : Nat) (file : CString) (current : Bool) (memory : Memory) :
    Except Assertion (Sys × Option (Nat × Bool)) := do
  let (h, file1) ← filesysOpen s.handles file memory
  let reopened := file = (s.proc t).name || current
  if file.val.length = 0 then
    return ({ s with handles := h }, none)
  else
    return ({ s with handles := h }, file1.map fun file1 => (file1, reopened))

/-- `open`: the test of `currentFd`. -/
def openChecked (s : Sys) : Bool := s.currentFd ≤ fileLimit

/-- `open`: the increment of `currentFd` under `filesys_lock`. -/
def openNumbered (s : Sys) : Sys := { s with currentFd := s.currentFd + 1 }

/-- `open`: the new entry. -/
def openRecorded (s : Sys) (t : Nat) (file1 : Nat) (reopened : Bool) (memory : OpenMemory) :
    Except Assertion (Sys × Option Int) := do
  if memory.fileFd then
    let fileFd : FileWithFd := ⟨s.currentFd, file1, t, reopened, false, false, memory.addr⟩
    let h ← (if reopened then s.handles.exec (.fileReopen file1 memory.reopen) else .ok s.handles)
    return ({ s.setList t ((s.proc t).fileFdList ++ [fileFd]) with handles := h },
      some s.currentFd)
  else
    return (s, none)

/-- `open`: the denial and what is returned. -/
def openReturned (s : Sys) (t : Nat) (file1 : Nat) : Except Assertion (Sys × Int) := do
  let h ← s.handles.exec (.fileDenyWrite file1)
  return ({ s with
    handles := h
    returned := update s.returned t (s.currentFd :: s.returned t) }, s.currentFd)

/-- `open`, when no other process comes in between. -/
def openFile (s : Sys) (t : Nat) (file : CString) (current : Bool) (memory : OpenMemory) :
    Except Assertion (Sys × Int) := do
  match ← openFound s t file current memory.fs with
  | (s, none) => return (s, exitFail)
  | (s, some (file1, reopened)) =>
    if openChecked s then
      match ← openRecorded (openNumbered s) t file1 reopened memory with
      | (s, none) => return (s, exitFail)
      | (s, some _) => openReturned s t file1
    else
      return (s, exitFail)

/-! ## the other calls -/

/-- `create`. -/
def create (s : Sys) (t : Nat) (file : CString) (initialSize : OffT) (memory : Memory)
    (pages : Pages) : Except Assertion (Sys × Outcome) := do
  if 14 < file.val.length then
    return (s, .returned 0)
  else if file.val.length ≠ 0 then
    let (fs, success) ← filesysCreate s.handles.fs file initialSize memory
    return ({ s with handles := { s.handles with fs } }, .returned (if success then 1 else 0))
  else
    exit s t pages

/-- `remove`. -/
def remove (s : Sys) (file : CString) (memory : Memory) : Except Assertion (Sys × Outcome) := do
  let (fs, success) ← filesysRemove s.handles.fs file memory
  return ({ s with handles := { s.handles with fs } }, .returned (if success then 1 else 0))

/-- `read`.  The branch for `STDIN_FILENO` comes after the test that excludes it. -/
def read (s : Sys) (t : Nat) (fd : Int) (size : OffT) (memory : Bool) (pages : Pages) :
    Except Assertion (Sys × Outcome) :=
  if fd < stdoutFileno ∨ fd > fileLimit then
    exit s t pages
  else if fd = stdinFileno then
    .ok (s, .returned pages.key.toNat)
  else
    match s.find t fd with
    | none => .ok (s, .returned 0)
    | some e =>
      if e.tid ≠ t then
        exit s t pages
      else do
        let (fs, bs) ← fileRead s.handles.fs e.f size memory
        return ({ s with handles := { s.handles with fs } }, .filled bs)

/-- `write`. -/
def write (s : Sys) (t : Nat) (fd : Int) (buffer : List UInt8) (memory : Bool) (pages : Pages) :
    Except Assertion (Sys × Outcome) :=
  if fd < stdoutFileno ∨ fd > fileLimit then
    exit s t pages
  else if fd = stdoutFileno then
    .ok ({ s with console := s.console ++ buffer }, .returned 0)
  else
    match s.find t fd with
    | none => .ok (s, .returned (-1))
    | some e =>
      if e.tid ≠ t then
        exit s t pages
      else do
        let h ← (if e.reopened then .ok s.handles else s.handles.exec (.fileAllowWrite e.f))
        let fs ← (if e.mmaped then fileSeek h.fs e.f ⟨0, by decide⟩ else .ok h.fs)
        let (fs, result) ← fileWrite fs e.f buffer memory
        let h ← { h with fs }.exec (.fileDenyWrite e.f)
        let l := modifyFile fd (fun e => { e with dirty := true }) (s.proc t).fileFdList
        return ({ s.setList t l with handles := h }, .returned result)

/-- The loop of `seek`. -/
def seekFrom (fd : Int) (position : OffT) :
    FileSys → List FileWithFd → Except Assertion FileSys
  | fs, [] => .ok fs
  | fs, e :: es =>
    if e.fd = fd then do
      let fs ← fileSeek fs e.f position
      seekFrom fd position fs es
    else
      seekFrom fd position fs es

/-- `seek`. -/
def seek (s : Sys) (t : Nat) (fd : Int) (position : OffT) : Except Assertion Sys := do
  let fs ← seekFrom fd position s.handles.fs (s.proc t).fileFdList
  return { s with handles := { s.handles with fs } }

/-- The loop of `close`. -/
def closeFrom (t : Nat) (fd : Int) (sectorMap dataMap : Bool) :
    Handles → List FileWithFd → Except Assertion (Handles × List FileWithFd)
  | h, [] => .ok (h, [])
  | h, e :: es =>
    if e.fd = fd then
      if e.tid ≠ t then
        .ok (h, e :: es)
      else do
        let h ← h.exec (.fileClose e.f sectorMap dataMap)
        closeFrom t fd sectorMap dataMap h es
    else do
      let (h, es) ← closeFrom t fd sectorMap dataMap h es
      return (h, e :: es)

/-- `close`. -/
def close (s : Sys) (t : Nat) (fd : Int) (sectorMap dataMap : Bool) : Except Assertion Sys := do
  let (h, l) ← closeFrom t fd sectorMap dataMap s.handles (s.proc t).fileFdList
  return { s.setList t l with
    handles := h, returned := update s.returned t ((s.returned t).filter (· ≠ fd)) }

/-- `overlaps`. -/
def overlaps (s : Sys) (t addr : Nat) : Bool :=
  (s.proc t).fileFdList.any fun e => addr < e.addr + fileLength s.handles.fs e.f

/-- `filesize`. -/
def filesize (s : Sys) (t : Nat) (fd : Int) : Nat :=
  match s.find t fd with
  | none => 0
  | some e => fileLength s.handles.fs e.f

/-- `mmap`, as far as it is about the descriptor. -/
def mmap (s : Sys) (t : Nat) (fd : Int) (addr : Nat) (pages : Pages) : Sys × Int :=
  if pages.free = false ∨ overlaps s t addr ∨ fd = 0 ∨ fd = 1 ∨ filesize s t fd = 0 ∨ addr = 0 ∨
      addr % 4096 ≠ 0 then
    (s, -1)
  else
    match s.find t fd with
    | none => (s, -1)
    | some _ =>
      let l := modifyFile fd (fun e => { e with addr, mmaped := true }) (s.proc t).fileFdList
      (s.setList t l, fd)

/-! ## exec -/

/-- `process_execute` and `load` open a file. -/
def execOpen (s : Sys) (t : Nat) (name : CString) (memory : Memory) : Except Assertion Sys := do
  let (h, file) ← filesysOpen s.handles name memory
  return { s.setProc t { s.proc t with file } with handles := h }

/-- `load` has succeeded and denies writes to the file. -/
def loadDeny (s : Sys) (t : Nat) : Except Assertion Sys :=
  match (s.proc t).file with
  | none => .ok s
  | some file => do
      let h ← s.handles.exec (.fileDenyWrite file)
      let exe := (h.fs.inodes (h.fs.files file).inode).sector
      return { s.setProc t { s.proc t with exe := some exe } with handles := h }

/-- `process_execute` and `load` close the file. -/
def execClose (s : Sys) (t : Nat) (sectorMap dataMap : Bool) : Except Assertion Sys :=
  match (s.proc t).file with
  | none => .ok s
  | some file => do
      let h ← s.handles.exec (.fileClose file sectorMap dataMap)
      return { s.setProc t { s.proc t with file := none } with handles := h }

/-- `thread_create`. -/
def threadCreate (s : Sys) (tid : Nat) (name : CString) : Sys :=
  { s.setProc tid ⟨name, [], none, none⟩ with
    tids := tid :: s.tids, returned := update s.returned tid [] }

/-! ## the machine -/

/-- A call by a process.  The last four are the parts of `exec`. -/
inductive Call
  | create (file : CString) (initialSize : OffT) (memory : Memory)
  | remove (file : CString) (memory : Memory)
  | open (file : CString) (current : Bool) (memory : OpenMemory)
  | read (fd : Int) (size : OffT) (memory : Bool)
  | write (fd : Int) (buffer : List UInt8) (memory : Bool)
  | seek (fd : Int) (position : OffT)
  | close (fd : Int) (sectorMap dataMap : Bool)
  | mmap (fd : Int) (addr : Nat)
  | munmap (mapping : Int)
  | exit
  | execOpen (name : CString) (memory : Memory)
  | loadDeny
  | execClose (sectorMap dataMap : Bool)
  | threadCreate (tid : Nat) (name : CString)

/-- A process in the middle of `process_execute` or `load` can only go on there. -/
def Legal (s : Sys) (t : Nat) : Call → Prop
  | .loadDeny | .execClose .. => t ∈ s.tids
  | .threadCreate tid _ => t ∈ s.tids ∧ (s.proc t).file = none ∧ tid ∉ s.tids
  | _ => t ∈ s.tids ∧ (s.proc t).file = none

instance decidableLegal (s : Sys) (t : Nat) (c : Call) : Decidable (Legal s t c) := by
  cases c <;> unfold Legal <;> infer_instance

/-- One call. -/
def call (s : Sys) (t : Nat) (pages : Pages) : Call → Except Assertion (Sys × Outcome)
  | .create file initialSize memory => create s t file initialSize memory pages
  | .remove file memory => remove s file memory
  | .open file current memory => do
      let (s, v) ← openFile s t file current memory
      return (s, .returned v)
  | .read fd size memory => read s t fd size memory pages
  | .write fd buffer memory => write s t fd buffer memory pages
  | .seek fd position => do
      let s ← seek s t fd position
      return (s, .returned 0)
  | .close fd sectorMap dataMap => do
      let s ← close s t fd sectorMap dataMap
      return (s, .returned 0)
  | .mmap fd addr =>
    let (s, v) := mmap s t fd addr pages
    .ok (s, .returned v)
  | .munmap mapping => do
      let s ← munmap s t mapping pages
      return (s, .returned 0)
  | .exit => exit s t pages
  | .execOpen name memory => do
      let s ← execOpen s t name memory
      return (s, .returned 0)
  | .loadDeny => do
      let s ← loadDeny s t
      return (s, .returned 0)
  | .execClose sectorMap dataMap => do
      let s ← execClose s t sectorMap dataMap
      return (s, .returned 0)
  | .threadCreate tid name => .ok (threadCreate s tid name, .returned tid)

/-- A call, the process that makes it and what it finds in its memory. -/
structure Action where
  tid : Nat
  pages : Pages
  call : Call

/-- No process has a file open, and the counters of the inodes count what the kernel has. -/
structure Init (s : Sys) : Prop where
  handles : s.handles.Inv
  currentFd : s.currentFd = fdInit
  tids : s.tids.Nodup
  list : ∀ t ∈ s.tids, (s.proc t).fileFdList = []
  file : ∀ t ∈ s.tids, (s.proc t).file = none
  returned : ∀ t ∈ s.tids, s.returned t = []

/-- Any sequence of calls by any of the processes. -/
def machine : Machine Sys Action where
  init := Init
  step := fun s a =>
    if Legal s a.tid a.call then (call s a.tid a.pages a.call).toOption.map Prod.fst else none

end Pintos.Descriptor
