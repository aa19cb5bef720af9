import Pintos.Filesys.Inode
import Pintos.Lib.MemProg

/-!
# Pintos.Userprog.Syscall

The system calls (`userprog/syscall.c`), with what they reach of
`process_execute`, `filesys_create`, `filesys_open` and `filesys_remove`.

A call is a program over the memory of the process (`Sys`): every byte that the
kernel reads or writes through a pointer of the user program is a load or a store,
and `pagedir_get_page` is a probe.  `exit` ends the program, and so does a failed
`ASSERT`.  The state of the kernel that the calls use is a `Kernel`; what they
learn from the rest of it (the answers of the allocators, of the disk and of other
processes) is an `Answers`.

An address is a number.  The kernel computes addresses modulo `2 ^ 32`; a range
that wraps around has passed `PHYS_BASE` before.
-/

namespace Pintos.Syscall

open MemProg Function

/-- How a call ends that does not return. -/
inductive Stop
  | exit (status : Int)
  | panic (a : Assertion)
  | powerOff
deriving DecidableEq

/-- A piece of the kernel that uses the memory of the process. -/
abbrev Sys (α : Type) := Prog UInt8 Stop α

/-- An `ASSERT` on the way. -/
def assert {α : Type} : Except Assertion α → Sys α
  | .ok a => pure a
  | .error a => stop (.panic a)

/-! ## the kernel -/

/-- `struct fileWithFd` and the `struct file` in it. -/
structure FileWithFd where
  fd : Nat
  inode : Nat
  pos : Nat
  denyWrite : Bool
  /-- the `tid` is that of the current thread -/
  own : Bool
  reopened : Bool
  dirty : Bool
  mmaped : Bool
  addr : Nat
  /-- `addr` has been set by `mmap`; until then it is what `malloc` has left there -/
  mapped : Bool

/-- What the calls learn from the rest of the kernel. -/
structure Answers where
  /-- `dir_open_root` -/
  dirOpens : Bool
  /-- `inode_open` and `file_open` in `filesys_open` -/
  opens : Bool
  /-- another opener denies writes to the inode -/
  denied : Nat → Bool
  /-- `malloc` of a `struct fileWithFd`, and the word it leaves in `addr` -/
  malloc : Bool
  heapWord : Nat
  /-- what is read through that word -/
  stray : List UInt8
  /-- `malloc` of a `struct spage` -/
  spageMalloc : Bool
  /-- `bitmap_write` for the inode and for its data -/
  inodeWritten : Bool
  dataWritten : Bool
  /-- `calloc` in `inode_create` -/
  calloc : Bool
  /-- `inode_write_at` for the directory entry -/
  dirWritten : Bool
  /-- the rest of `dir_remove` -/
  removes : Bool
  /-- the bytes that a transfer moves before it lacks a bounce buffer -/
  ioLimit : Nat
  /-- `palloc_get_page` in `process_execute` -/
  palloc : Bool
  /-- the rest of `process_execute`, for the command line and the command name -/
  execute : List UInt8 → List UInt8 → Int
  /-- `process_wait` -/
  wait : Int → Int
  /-- `input_getc` -/
  getc : Int
  /-- `has_load_in` of the page -/
  hasLoadIn : Nat → Bool
  /-- `pagedir_is_dirty` -/
  isDirty : Nat → Bool

/-- The state that the calls use. -/
structure Kernel extends Answers where
  /-- `cur->name` and `current_file_name` -/
  name : List UInt8
  currentFileName : List UInt8
  /-- the entries of the root directory: names and inodes -/
  dir : List (List UInt8 × Nat)
  contents : Nat → List UInt8
  freeMap : Bitmap
  /-- `cur->file_fd_list` -/
  files : List FileWithFd
  currentFd : Nat
  /-- the pages in `cur->spage_table` -/
  spages : Nat → Bool
  num : Nat
  /-- what `putbuf` has written -/
  console : List UInt8

/-- `FILE_LIMIT`. -/
def fileLimit : Nat := 128

/-- `FILE_NAME_LEN_LIMIT`. -/
def fileNameLenLimit : Nat := 15

/-- `NAME_MAX`. -/
def nameMax : Nat := 14

/-- `EXIT_FAIL`. -/
def exitFail : Int := -1

/-! ## words and strings of the user -/

/-- A word, from its bytes. -/
def leWord : List UInt8 → Nat
  | [] => 0
  | b :: bs => b.toNat + 256 * leWord bs

/-- A 4-byte word is read. -/
def word (p : Nat) : Sys Nat := do
  let bs ← loadBytes p 4
  pure (leWord bs)

/-- `strlen`; no string is longer than the address space. -/
def strlen (p : Nat) : Sys Nat :=
  if p = 0 then stop (.panic .string) else scanTo 0 p (2 ^ 32)

/-- `strnlen`. -/
def strnlen (p maxlen : Nat) : Sys Nat := scanTo 0 p maxlen

/-- `!strcmp`, with a string of the kernel. -/
def strcmpEq (p : Nat) (b : List UInt8) : Sys Bool :=
  if p = 0 then stop (.panic .string) else compare 0 p b

/-- `strlcpy` into a buffer of the kernel; the bytes before the `'\0'`. -/
def strlcpy (p size : Nat) : Sys (List UInt8) :=
  if p = 0 then stop (.panic .src)
  else do
    let len ← strlen p
    loadBytes p (min len (size - 1))

/-- The first token of `strtok_r` with the delimiter `' '`. -/
def strtok (s : List UInt8) : Option (List UInt8) :=
  match s.dropWhile (· = 32) with
  | [] => none
  | c :: cs => some ((c :: cs).takeWhile (· ≠ 32))

/-! ## transfers -/

/-- The bytes that `inode_read_at` and `inode_write_at` move for a `size` that is
passed as an `off_t`. -/
def ioCount (k : Kernel) (size length offset : Nat) : Nat :=
  min (min (toInt32 size).toNat (length - offset)) k.ioLimit

/-- The file after a write. -/
def splice (old : List UInt8) (offset : Nat) (data : List UInt8) : List UInt8 :=
  old.take offset ++ data ++ old.drop (offset + data.length)

/-- The first file with the descriptor `fd` changes. -/
def modifyFile (fd : Int) (g : FileWithFd → FileWithFd) : List FileWithFd → List FileWithFd
  | [] => []
  | f :: fs => if f.fd = fd then g f :: fs else f :: modifyFile fd g fs

/-- The first file with the descriptor `fd`. -/
def findFile (k : Kernel) (fd : Int) : Option FileWithFd := k.files.find? fun f => f.fd = fd

/-! ## munmap and exit -/

/-- The bytes at `addr`; only an address that has been mapped is a pointer of the
user. -/
def readMapped (k : Kernel) (f : FileWithFd) (count : Nat) : Sys (List UInt8) :=
  if f.mapped then loadBytes f.addr count else pure (k.stray.take count)

/-- The `file_write_at (f, addr, file_size, 0)` of `munmap`. -/
def writeBack (k : Kernel) (f : FileWithFd) : Sys Kernel :=
  let old := k.contents f.inode
  if f.dirty ∨ k.denied f.inode then pure k
  else do
    let data ← readMapped k f (ioCount k old.length old.length 0)
    pure { k with contents := update k.contents f.inode (splice old 0 data) }

/-- The first access to a mapped page that has not been loaded. -/
def loadFileIn (k : Kernel) (f : FileWithFd) : Sys Unit :=
  if f.mmaped ∧ k.hasLoadIn f.addr = false then do
    let _ ← load f.addr
    pure ()
  else
    pure ()

/-- The loop of `munmap`, from some file on. -/
def munmapFrom (mapping : Int) (k : Kernel) :
    List FileWithFd → Sys (Kernel × List FileWithFd)
  | [] => pure (k, [])
  | f :: fs =>
    if f.fd = mapping then
      if f.own = false ∨ f.addr = 0 then pure (k, f :: fs)
      else do
        loadFileIn k f
        let k ← writeBack k f
        let k := { k with spages := update k.spages f.addr false }
        let (k, fs) ← munmapFrom mapping k fs
        pure (k, { f with mmaped := false, denyWrite := false, pos := 0 } :: fs)
    else do
      let (k, fs) ← munmapFrom mapping k fs
      pure (k, f :: fs)

/-- `munmap`. -/
def munmap (k : Kernel) (mapping : Int) : Sys Kernel := do
  let (k, files) ← munmapFrom mapping k k.files
  pure { k with files := files }

/-- The loop of `exit` over the files. -/
def munmapDirty (k : Kernel) : List FileWithFd → Sys Kernel
  | [] => pure k
  | f :: fs =>
    if k.isDirty f.addr then do
      let k ← munmap k f.fd
      munmapDirty k fs
    else
      munmapDirty k fs

/-- `exit`. -/
def exit {α : Type} (k : Kernel) (status : Int) : Sys α := do
  let _ ← munmapDirty k k.files
  stop (.exit status)

/-! ## checks -/

/-- `safe_access`. -/
def safeAccess (p : Nat) : Sys Bool :=
  if isUserVaddr p then do
    let page ← probe p
    pure (page && p != 0)
  else
    pure false

/-- `exit_if_unsafe`. -/
def exitIfUnsafe (k : Kernel) (p : Nat) : Sys Unit := do
  if ← safeAccess p then pure () else exit k exitFail

/-! ## the file system -/

/-- `lookup` in the root directory. -/
def lookup (name : Nat) : List (List UInt8 × Nat) → Sys (Option Nat)
  | [] => if name = 0 then stop (.panic .string) else pure none
  | (entry, inode) :: dir => do
      if ← strcmpEq name entry then pure (some inode) else lookup name dir

/-- `dir_add`; the name that is entered. -/
def dirAdd (k : Kernel) (name : Nat) : Sys (Option (List UInt8)) := do
  let c ← load name
  if c = 0 then pure none
  else
    let len ← strlen name
    if nameMax < len then pure none
    else
      match ← lookup name k.dir with
      | some _ => pure none
      | none =>
        let entry ← strlcpy name (nameMax + 1)
        pure (if k.dirWritten then some entry else none)

/-- The end of a `filesys_create` that has failed after its first allocation. -/
def createFailed (k : Kernel) (freeMap : Bitmap) (sector : Nat) : Sys (Bool × Kernel) := do
  let freeMap ← assert (if sector = 0 then .ok freeMap else freeMapRelease freeMap sector 1)
  pure (false, { k with freeMap := freeMap })

/-- `filesys_create`. -/
def filesysCreate (k : Kernel) (name : Nat) (initialSize : Int) : Sys (Bool × Kernel) :=
  if k.dirOpens = false then pure (false, k)
  else do
    match ← assert (freeMapAllocate k.freeMap 1 k.inodeWritten) with
    | (freeMap, none) => pure (false, { k with freeMap := freeMap })
    | (freeMap, some sector) =>
      let (freeMap, created) ← assert (inodeCreate freeMap sector initialSize k.calloc k.dataWritten)
      if created = false then createFailed k freeMap sector
      else
        match ← dirAdd k name with
        | none => createFailed k freeMap sector
        | some entry =>
          pure (true,
            { k with
              freeMap := freeMap
              dir := (entry, sector) :: k.dir
              contents := update k.contents sector
                (List.replicate initialSize.toNat 0) })

/-- `filesys_open`. -/
def filesysOpen (k : Kernel) (name : Nat) : Sys (Option Nat) :=
  if k.dirOpens = false then pure none
  else do
    let inode ← lookup name k.dir
    pure (if k.opens then inode else none)

/-- `filesys_remove`. -/
def filesysRemove (k : Kernel) (name : Nat) : Sys (Bool × Kernel) :=
  if k.dirOpens = false then pure (false, k)
  else do
    match ← lookup name k.dir with
    | none => pure (false, k)
    | some inode =>
      if k.removes then pure (true, { k with dir := k.dir.filter fun e => e.2 ≠ inode })
      else pure (false, k)

/-- `process_execute`. -/
def processExecute (k : Kernel) (fileName : Nat) : Sys Int :=
  if k.palloc = false then pure exitFail
  else do
    let fnCopy ← strlcpy fileName pgsize
    let fileNameCopy ← strlcpy fileName fileNameLenLimit
    match strtok fileNameCopy with
    | none => stop (.panic .src)
    | some commandName => pure (k.execute fnCopy commandName)

/-! ## the calls -/

/-- `halt`. -/
def halt {α : Type} : Sys α := stop .powerOff

/-- `exec`. -/
def exec (k : Kernel) (cmdLine : Nat) : Sys Int := do
  if ← safeAccess cmdLine then processExecute k cmdLine else pure exitFail

/-- `wait`. -/
def wait (k : Kernel) (pid : Int) : Int := k.wait pid

/-- `create`; the comparison `initial_size >= 0` of an `unsigned` is true. -/
def create (k : Kernel) (file initialSize : Nat) : Sys (Bool × Kernel) := do
  let len ← strnlen file 15
  if 14 < len then pure (false, k)
  else
    let c ← load file
    if c ≠ 0 then filesysCreate k file (toInt32 initialSize) else exit k exitFail

/-- `remove`. -/
def remove (k : Kernel) (file : Nat) : Sys (Bool × Kernel) := filesysRemove k file

/-- The entry that `open` makes. -/
def newFile (k : Kernel) (inode : Nat) (reopened : Bool) : FileWithFd :=
  { fd := k.currentFd + 1, inode := inode, pos := 0, denyWrite := true, own := true,
    reopened := reopened, dirty := false, mmaped := false, addr := k.heapWord, mapped := false }

/-- `open`. -/
def openFile (k : Kernel) (file : Nat) : Sys (Int × Kernel) := do
  let file1 ← filesysOpen k file
  let sameName ← strcmpEq file k.name
  let sameFile ← strcmpEq file k.currentFileName
  let len ← strlen file
  match file1 with
  | none => pure (exitFail, k)
  | some inode =>
    if len = 0 then pure (exitFail, k)
    else if fileLimit < k.currentFd then pure (exitFail, k)
    else if k.malloc = false then pure (exitFail, { k with currentFd := k.currentFd + 1 })
    else
      pure (k.currentFd + 1,
        { k with
          currentFd := k.currentFd + 1
          files := k.files ++ [newFile k inode (sameName || sameFile)] })

/-- `filesize`. -/
def filesize (k : Kernel) (fd : Int) : Nat :=
  match findFile k fd with
  | none => 0
  | some f => (k.contents f.inode).length

/-- The bytes that `file_read` copies. -/
def readData (k : Kernel) (f : FileWithFd) (size : Nat) : List UInt8 :=
  let data := k.contents f.inode
  (data.drop f.pos).take (ioCount k size data.length f.pos)

/-- `read`. -/
def read (k : Kernel) (fd : Int) (buffer size : Nat) : Sys (Int × Kernel) :=
  if fd < 1 ∨ fileLimit < fd then exit k exitFail
  else if fd = 0 then pure (k.getc, k)
  else
    match findFile k fd with
    | none => pure (0, k)
    | some f =>
      if f.own = false then exit k exitFail
      else do
        let data := readData k f size
        storeBytes buffer data
        pure (data.length,
          { k with
            files := modifyFile fd (fun f => { f with pos := f.pos + data.length }) k.files })

/-- Where `write` starts: a mapped file is rewound. -/
def writePos (f : FileWithFd) : Nat := if f.mmaped then 0 else f.pos

/-- The bytes that `file_write` moves; a file that `open` has found to be running keeps
its `deny_write`. -/
def writeCount (k : Kernel) (f : FileWithFd) (size : Nat) : Nat :=
  if f.reopened && f.denyWrite || k.denied f.inode then 0
  else ioCount k size (k.contents f.inode).length (writePos f)

/-- `write`. -/
def write (k : Kernel) (fd : Int) (buffer size : Nat) : Sys (Int × Kernel) :=
  if fd < 1 ∨ fileLimit < fd then exit k exitFail
  else if fd = 1 then do
    let out ← loadBytes buffer size
    pure (0, { k with console := k.console ++ out })
  else
    match findFile k fd with
    | none => pure (-1, k)
    | some f =>
      if f.own = false then exit k exitFail
      else do
        let count := writeCount k f size
        let data ← loadBytes buffer count
        pure (count,
          { k with
            contents := update k.contents f.inode
              (splice (k.contents f.inode) (writePos f) data)
            files := modifyFile fd
              (fun f => { f with pos := writePos f + count, denyWrite := true, dirty := true })
              k.files })

/-- `file_seek`. -/
def fileSeek (f : FileWithFd) (newPos : Int) : Except Assertion FileWithFd :=
  if newPos < 0 then .error .newPos else .ok { f with pos := newPos.toNat }

/-- The loop of `seek`. -/
def seekFrom (fd : Int) (position : Nat) : List FileWithFd → Sys (List FileWithFd)
  | [] => pure []
  | f :: fs => do
      let f ← assert (if f.fd = fd then fileSeek f (toInt32 position) else .ok f)
      let fs ← seekFrom fd position fs
      pure (f :: fs)

/-- `seek`. -/
def seek (k : Kernel) (fd : Int) (position : Nat) : Sys Kernel := do
  let files ← seekFrom fd position k.files
  pure { k with files := files }

/-- `tell`. -/
def tell (k : Kernel) (fd : Int) : Nat :=
  match findFile k fd with
  | none => 0
  | some f => f.pos

/-- The loop of `close`. -/
def closeFrom (k : Kernel) (fd : Int) : List FileWithFd → Sys (List FileWithFd)
  | [] => pure []
  | f :: fs =>
    if f.fd = fd then
      if f.own = false then pure (f :: fs)
      else do
        loadFileIn k f
        closeFrom k fd fs
    else do
      let fs ← closeFrom k fd fs
      pure (f :: fs)

/-- `close`. -/
def close (k : Kernel) (fd : Int) : Sys Kernel := do
  let files ← closeFrom k fd k.files
  pure { k with files := files }

/-- `overlaps`. -/
def overlaps (k : Kernel) (addr : Nat) : Bool :=
  k.files.any fun f => addr < (f.addr + (k.contents f.inode).length) % 2 ^ 32

/-- The loop of `mmap` that looks for a page in use. -/
def pagesInUse (k : Kernel) (addr fileSize : Nat) : Bool :=
  (List.range ((fileSize + pgsize - 1) / pgsize)).any fun i => k.spages (addr + i * pgsize)

/-- `mmap`; the file is rewound by `create_spage`. -/
def mmap (k : Kernel) (fd : Int) (addr : Nat) : Sys (Int × Kernel) :=
  let fileSize := filesize k fd
  if physBase - k.num * pgsize < addr then pure (-1, k)
  else if overlaps k addr then pure (-1, k)
  else if fd = 0 ∨ fd = 1 ∨ fileSize = 0 ∨ addr = 0 ∨ addr % pgsize ≠ 0 then pure (-1, k)
  else if pagesInUse k addr fileSize then pure (-1, k)
  else
    match findFile k fd with
    | none => pure (-1, k)
    | some _ =>
      let k := { k with
        files := modifyFile fd
          (fun f => { f with addr := addr, mmaped := true, mapped := true }) k.files }
      if k.spageMalloc = false then exit k exitFail
      else
        pure (fd,
          { k with
            spages := update k.spages addr true
            files := modifyFile fd (fun f => { f with pos := 0 }) k.files })

/-! ## the handler -/

/-- The system call numbers that the handler knows. -/
inductive SyscallNr
  | halt | exit | exec | wait | create | remove | open | filesize
  | read | write | seek | tell | close | mmap | munmap
deriving DecidableEq

/-- `lib/syscall-nr.h`. -/
def SyscallNr.ofNum : Nat → Option SyscallNr
  | 0 => some .halt
  | 1 => some .exit
  | 2 => some .exec
  | 3 => some .wait
  | 4 => some .create
  | 5 => some .remove
  | 6 => some .open
  | 7 => some .filesize
  | 8 => some .read
  | 9 => some .write
  | 10 => some .seek
  | 11 => some .tell
  | 12 => some .close
  | 13 => some .mmap
  | 14 => some .munmap
  | _ => none

/-- What a call leaves: `eax`, when it has been set, and the kernel. -/
structure SysRet where
  eax : Option Int
  kernel : Kernel

/-- A result in `eax`. -/
def ret (r : Int × Kernel) : SysRet := ⟨some r.1, r.2⟩

/-- A `bool` in `eax`. -/
def retBool (r : Bool × Kernel) : SysRet := ⟨some (if r.1 then 1 else 0), r.2⟩

/-- A result of a call that does not change the kernel. -/
def retVal (k : Kernel) (v : Int) : SysRet := ⟨some v, k⟩

/-- A checked argument. -/
def arg (k : Kernel) (p : Nat) : Sys Nat := do
  exitIfUnsafe k p
  word p

/-- A checked argument that points to a file name, of which the first byte is checked. -/
def nameArg (k : Kernel) (p : Nat) : Sys Nat := do
  let file ← arg k p
  exitIfUnsafe k file
  word p

/-- Two arguments, both checked before they are read. -/
def args (k : Kernel) (fst snd : Nat) : Sys (Nat × Nat) := do
  exitIfUnsafe k fst
  exitIfUnsafe k snd
  let a ← word fst
  let b ← word snd
  pure (a, b)

/-- The arguments of `read` and `write`. -/
def bufferArgs (k : Kernel) (fst snd trd : Nat) : Sys (Int × Nat × Nat) := do
  exitIfUnsafe k fst
  exitIfUnsafe k snd
  let buffer ← word snd
  exitIfUnsafe k buffer
  exitIfUnsafe k trd
  let fd ← word fst
  let buffer ← word snd
  let size ← word trd
  pure (toInt32 fd, buffer, size)

/-- The `switch` of `syscall_handler`. -/
def dispatch (k : Kernel) (fst snd trd : Nat) : SyscallNr → Sys SysRet
  | .exec => do
      -- a failed check only sets `eax`, which the call then overwrites
      let _ ← safeAccess fst
      let cmdLine ← word fst
      let pid ← exec k cmdLine
      pure (retVal k pid)
  | .close => do
      let fd ← arg k fst
      let k ← close k (toInt32 fd)
      pure ⟨none, k⟩
  | .create => do
      let (file, size) ← args k fst snd
      let r ← create k file size
      pure (retBool r)
  | .exit => do
      let status ← arg k fst
      exit k (toInt32 status)
  | .filesize => do
      let fd ← arg k fst
      pure (retVal k (filesize k (toInt32 fd)))
  | .halt => halt
  | .open => do
      let file ← nameArg k fst
      let r ← openFile k file
      pure (ret r)
  | .read => do
      let (fd, buffer, size) ← bufferArgs k fst snd trd
      let r ← read k fd buffer size
      pure (ret r)
  | .write => do
      let (fd, buffer, size) ← bufferArgs k fst snd trd
      let r ← write k fd buffer size
      pure (ret r)
  | .wait => do
      let pid ← arg k fst
      pure (retVal k (wait k (toInt32 pid)))
  | .remove => do
      let file ← nameArg k fst
      let r ← remove k file
      pure (retBool r)
  | .seek => do
      let (fd, position) ← args k fst snd
      let k ← seek k (toInt32 fd) position
      pure ⟨none, k⟩
  | .tell => do
      let fd ← arg k fst
      pure (retVal k (tell k (toInt32 fd)))
  | .mmap => do
      let (fd, addr) ← args k fst snd
      let r ← mmap k (toInt32 fd) addr
      pure (ret r)
  | .munmap => do
      let mapping ← arg k fst
      let k ← munmap k (toInt32 mapping)
      pure ⟨none, k⟩

/-- `syscall_handler`. -/
def syscallHandler (k : Kernel) (esp : Nat) : Sys SysRet := do
  exitIfUnsafe k esp
  let syscallNum ← word esp
  match SyscallNr.ofNum syscallNum with
  | some nr => dispatch k (esp + 4) (esp + 8) (esp + 12) nr
  | none => pure ⟨none, k⟩

end Pintos.Syscall
