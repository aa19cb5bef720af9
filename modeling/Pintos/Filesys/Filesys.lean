import Pintos.Filesys.Directory
import Pintos.Filesys.Store
import Pintos.Lib.Machine

/-!
# Pintos.Filesys.Filesys

The file system (`filesys/filesys.c`, with what it uses of `directory.c`, `file.c`,
`inode.c` and `free-map.c`), one operation at a time.

A `struct inode` or `struct file` is an address; `inodes` and `files` are the memory
there.  Memory that has been freed keeps its contents and its address is not used
again.  A `struct dir` is its inode, for the functions here do not use `pos`.

`State` adds the files that `filesys_open` has returned and that have not been closed;
`State.exec` runs one operation on it and `machine` any sequence of operations, with
all memory that is asked for.
-/

namespace Pintos.Fs

open Function

/-! ## the state -/

/-- `off_t`. -/
abbrev OffT : Type := { n : Int // -2 ^ 31 ≤ n ∧ n < 2 ^ 31 }

theorem zero_offT : -2 ^ 31 ≤ (0 : Int) ∧ (0 : Int) < 2 ^ 31 := by decide

/-- `struct file`. -/
structure File where
  inode : Nat
  pos : Nat
  denyWrite : Bool

/-- The outcomes of the allocations of one operation. -/
structure Memory where
  /-- the `struct inode` of the root directory -/
  rootInode : Bool
  /-- the `struct dir` -/
  dir : Bool
  /-- the bounce buffers for the directory -/
  entries : DirMemory
  /-- the `struct inode_disk` -/
  inodeDisk : Bool
  /-- the `struct inode` of the file -/
  inode : Bool
  /-- the `struct file` -/
  file : Bool
  /-- the bounce buffers for the free map, in turn -/
  map : Nat → Bool

/-- All memory that is asked for; `stack` is an uninitialized entry. -/
def Memory.plenty (stack : DirEntry) : Memory :=
  ⟨true, true, .plenty stack, true, true, true, fun _ => true⟩

section

variable (stack : DirEntry)

@[simp] theorem plenty_rootInode : (Memory.plenty stack).rootInode = true := rfl

@[simp] theorem plenty_dir : (Memory.plenty stack).dir = true := rfl

@[simp] theorem plenty_entries : (Memory.plenty stack).entries = .plenty stack := rfl

@[simp] theorem plenty_inodeDisk : (Memory.plenty stack).inodeDisk = true := rfl

@[simp] theorem plenty_inode : (Memory.plenty stack).inode = true := rfl

@[simp] theorem plenty_file : (Memory.plenty stack).file = true := rfl

@[simp] theorem plenty_map (i : Nat) : (Memory.plenty stack).map i = true := rfl

end

/-- The device, the free map and the objects in memory; `next` is the address of the next
one. -/
structure FileSys extends Store where
  freeMapFile : Option Nat
  inodes : Nat → Inode
  openInodes : List Nat
  files : Nat → File
  next : Nat

/-- `FREE_MAP_SECTOR`. -/
def freeMapSector : Nat := 0

/-- `ROOT_DIR_SECTOR`. -/
def rootDirSector : Nat := 1

/-- The inode of `free_map_file`. -/
def FileSys.mapInode (s : FileSys) : Option Inode :=
  s.freeMapFile.map fun file => s.inodes (s.files file).inode

/-- The device and the free map are replaced. -/
abbrev FileSys.withStore (s : FileSys) (st : Store) : FileSys := { s with toStore := st }

/-- The object at `inode` is replaced. -/
abbrev FileSys.setInode (s : FileSys) (inode : Nat) (i : Inode) : FileSys :=
  { s with inodes := update s.inodes inode i }

/-- A new `struct inode` is put in front of `open_inodes`. -/
abbrev FileSys.pushInode (s : FileSys) (i : Inode) : FileSys :=
  { s.setInode s.next i with openInodes := s.next :: s.openInodes, next := s.next + 1 }

/-- The object at `file` is replaced. -/
abbrev FileSys.setFile (s : FileSys) (file : Nat) (f : File) : FileSys :=
  { s with files := update s.files file f }

/-- A new `struct file`. -/
abbrev FileSys.pushFile (s : FileSys) (f : File) : FileSys :=
  { s.setFile s.next f with next := s.next + 1 }

/-! ## the free map and inodes -/

/-- `free_map_allocate`. -/
def freeMapAllocate (s : FileSys) (cnt : Nat) (memory : Bool) :
    Except Assertion (FileSys × Option Nat) := do
  let (st, sector) ← s.toStore.freeMapAllocate s.mapInode cnt memory
  return (s.withStore st, sector)

/-- `free_map_release`. -/
def freeMapRelease (s : FileSys) (sector cnt : Nat) (memory : Bool) : Except Assertion FileSys := do
  let st ← s.toStore.freeMapRelease s.mapInode sector cnt memory
  return s.withStore st

/-- `inode_create`. -/
def inodeCreate (s : FileSys) (sector : Nat) (length : Int) (memory map : Bool) :
    Except Assertion (FileSys × Bool) := do
  let (st, success) ← s.toStore.inodeCreate s.mapInode sector length memory map
  return (s.withStore st, success)

/-- `inode_reopen` of an inode. -/
def inodeReopen (s : FileSys) (inode : Nat) : FileSys :=
  s.setInode inode { s.inodes inode with openCnt := (s.inodes inode).openCnt + 1 }

/-- `inode_open`. -/
def inodeOpen (s : FileSys) (sector : Nat) (memory : Bool) :
    Except Assertion (FileSys × Option Nat) :=
  match s.openInodes.find? fun inode => (s.inodes inode).sector = sector with
  | some inode => .ok (inodeReopen s inode, some inode)
  | none =>
    if memory then do
      let bs ← blockRead s.dev sector
      return (s.pushInode ⟨sector, 1, false, 0, .decode bs⟩, some s.next)
    else
      .ok (s, none)

/-- The object after one opener has closed it. -/
abbrev Inode.closed (i : Inode) : Inode := { i with openCnt := i.openCnt - 1 }

/-- The inode is closed and taken out of `open_inodes`. -/
abbrev FileSys.dropInode (s : FileSys) (inode : Nat) : FileSys :=
  { s.setInode inode (s.inodes inode).closed with openInodes := s.openInodes.erase inode }

/-- `inode_close` of an inode. -/
def inodeClose (s : FileSys) (inode : Nat) (sectorMap dataMap : Bool) : Except Assertion FileSys :=
  let i := (s.inodes inode).closed
  if i.openCnt = 0 then
    if i.removed then do
      let s ← freeMapRelease (s.dropInode inode) i.sector 1 sectorMap
      freeMapRelease s i.data.start (bytesToSectors i.data.length) dataMap
    else
      .ok (s.dropInode inode)
  else
    .ok (s.setInode inode i)

/-- `inode_remove`. -/
def inodeRemove (s : FileSys) (inode : Nat) : FileSys :=
  s.setInode inode { s.inodes inode with removed := true }

/-! ## files -/

/-- `file_open`. -/
def fileOpen (s : FileSys) (inode : Option Nat) (memory : Memory) :
    Except Assertion (FileSys × Option Nat) :=
  match inode with
  | none => .ok (s, none)
  | some inode =>
    if memory.file then
      .ok (s.pushFile ⟨inode, 0, false⟩, some s.next)
    else do
      let s ← inodeClose s inode (memory.map 5) (memory.map 6)
      return (s, none)

/-- `inode_allow_write`. -/
def inodeAllowWrite (s : FileSys) (inode : Nat) : Except Assertion FileSys :=
  let i := s.inodes inode
  if i.denyWriteCnt > 0 ∧ i.denyWriteCnt ≤ i.openCnt then
    .ok (s.setInode inode { i with denyWriteCnt := i.denyWriteCnt - 1 })
  else
    .error .denyWrite

/-- `file_allow_write`. -/
def fileAllowWrite (s : FileSys) (file : Nat) : Except Assertion FileSys :=
  if (s.files file).denyWrite then
    inodeAllowWrite (s.setFile file { s.files file with denyWrite := false }) (s.files file).inode
  else
    .ok s

/-- `file_close` of a file. -/
def fileClose (s : FileSys) (file : Nat) (sectorMap dataMap : Bool) : Except Assertion FileSys := do
  let s ← fileAllowWrite s file
  inodeClose s (s.files file).inode sectorMap dataMap

/-- Whether writes to the inode are denied. -/
def Inode.denied (inode : Inode) : Bool := inode.denyWriteCnt ≠ 0

/-- `file_read`: the bytes that it reads. -/
def fileRead (s : FileSys) (file : Nat) (size : OffT) (memory : Bool) :
    Except Assertion (FileSys × List UInt8) := do
  let f := s.files file
  let bs ← inodeReadAt s.dev (s.inodes f.inode).data size.val.toNat f.pos memory
  return (s.setFile file { f with pos := f.pos + bs.length }, bs)

/-- `file_write`: the number of bytes that it writes. -/
def fileWrite (s : FileSys) (file : Nat) (buffer : List UInt8) (memory : Bool) :
    Except Assertion (FileSys × Nat) := do
  let f := s.files file
  let inode := s.inodes f.inode
  let (dev, written) ← inodeWriteAt s.dev inode.data inode.denied buffer f.pos memory
  return ({ s.setFile file { f with pos := f.pos + written } with dev }, written)

/-- `file_seek`. -/
def fileSeek (s : FileSys) (file : Nat) (newPos : OffT) : Except Assertion FileSys :=
  if 0 ≤ newPos.val then
    .ok (s.setFile file { s.files file with pos := newPos.val.toNat })
  else
    .error .newPos

/-! ## the root directory -/

/-- `dir_open_root`. -/
def dirOpenRoot (s : FileSys) (memory : Memory) : Except Assertion (FileSys × Option Nat) := do
  let (s, inode) ← inodeOpen s rootDirSector memory.rootInode
  match inode with
  | none => return (s, none)
  | some inode =>
    if memory.dir then
      return (s, some inode)
    else
      let s ← inodeClose s inode (memory.map 3) (memory.map 4)
      return (s, none)

/-- `dir_close` of a directory. -/
def dirClose (s : FileSys) (dir : Nat) (memory : Memory) : Except Assertion FileSys :=
  inodeClose s dir (memory.map 3) (memory.map 4)

/-- `dir_lookup`. -/
def dirLookup (s : FileSys) (dir : Nat) (name : CString) (memory : Memory) :
    Except Assertion (FileSys × Option Nat) := do
  match ← lookup s.dev (s.inodes dir).data name memory.entries.lookup with
  | some (e, _) => inodeOpen s e.inodeSector memory.inode
  | none => return (s, none)

/-- `dir_remove`. -/
def dirRemove (s : FileSys) (dir : Nat) (name : CString) (memory : Memory) :
    Except Assertion (FileSys × Bool) := do
  match ← lookup s.dev (s.inodes dir).data name memory.entries.lookup with
  | none => return (s, false)
  | some (e, ofs) =>
    let (s, inode) ← inodeOpen s e.inodeSector memory.inode
    match inode with
    | none => return (s, false)
    | some inode =>
      let e := { e with inUse := false }
      let root := s.inodes dir
      let (dev, written) ←
        inodeWriteAt s.dev root.data root.denied e.encode ofs memory.entries.entry
      let s := { s with dev }
      if written = direntSize then
        let s ← inodeClose (inodeRemove s inode) inode (memory.map 5) (memory.map 6)
        return (s, true)
      else
        let s ← inodeClose s inode (memory.map 5) (memory.map 6)
        return (s, false)

/-! ## the operations -/

/-- `filesys_create`, after the root directory has been opened. -/
def createIn (s : FileSys) (dir : Nat) (name : CString) (initialSize : OffT) (memory : Memory) :
    Except Assertion (FileSys × Bool) := do
  let (s, inodeSector) ← freeMapAllocate s 1 (memory.map 0)
  match inodeSector with
  | none => return (s, false)
  | some inodeSector =>
    let (s, created) ← inodeCreate s inodeSector initialSize memory.inodeDisk (memory.map 1)
    let root := s.inodes dir
    let (dev, success) ←
      if created then
        dirAdd s.dev root.data root.denied name inodeSector memory.entries
      else
        .ok (s.dev, false)
    let s := { s with dev }
    if !success && inodeSector ≠ 0 then
      let s ← freeMapRelease s inodeSector 1 (memory.map 2)
      return (s, false)
    else
      return (s, success)

/-- `filesys_create`. -/
def filesysCreate (s : FileSys) (name : CString) (initialSize : OffT) (memory : Memory) :
    Except Assertion (FileSys × Bool) := do
  let (s, dir) ← dirOpenRoot s memory
  match dir with
  | none => return (s, false)
  | some dir =>
    let (s, success) ← createIn s dir name initialSize memory
    let s ← dirClose s dir memory
    return (s, success)

/-- `filesys_open`. -/
def filesysOpen (s : FileSys) (name : CString) (memory : Memory) :
    Except Assertion (FileSys × Option Nat) := do
  let (s, dir) ← dirOpenRoot s memory
  match dir with
  | none => return (s, none)
  | some dir =>
    let (s, inode) ← dirLookup s dir name memory
    let s ← dirClose s dir memory
    fileOpen s inode memory

/-- `filesys_remove`. -/
def filesysRemove (s : FileSys) (name : CString) (memory : Memory) :
    Except Assertion (FileSys × Bool) := do
  let (s, dir) ← dirOpenRoot s memory
  match dir with
  | none => return (s, false)
  | some dir =>
    let (s, success) ← dirRemove s dir name memory
    let s ← dirClose s dir memory
    return (s, success)

/-! ## formatting -/

/-- `free_map_init`; `junk` is in the memory of the bitmap.  `malloc (0)` is a null pointer. -/
def freeMapInit (sectors : Nat) (junk : Nat → Bool) : Except Assertion Bitmap := do
  if byteCnt sectors = 0 ∧ sectors ≠ 0 then
    throw .format
  else
    let b ← bitmapAssert (bitmapSetMultiple ⟨sectors, junk⟩ 0 sectors false)
    let b ← bitmapAssert (bitmapSet b freeMapSector true)
    bitmapAssert (bitmapSet b rootDirSector true)

/-- The free-map file is opened, by `free_map_create` and `free_map_open`. -/
def openMapFile (s : FileSys) (memory : Memory) : Except Assertion (FileSys × Inode) := do
  let (s, inode) ← inodeOpen s freeMapSector memory.inode
  let (s, file) ← fileOpen s inode memory
  match file with
  | none => throw .format
  | some file => return ({ s with freeMapFile := some file }, s.inodes (s.files file).inode)

/-- `free_map_create`. -/
def freeMapCreate (s : FileSys) (memory : Memory) : Except Assertion FileSys := do
  let (s, created) ← inodeCreate s freeMapSector (byteCnt s.freeMap.bitCnt) memory.inodeDisk
    (memory.map 0)
  if created then
    let (s, inode) ← openMapFile s memory
    let (dev, written) ← bitmapWrite s.dev s.freeMap inode (memory.map 1)
    if written then return { s with dev } else throw .format
  else
    throw .format

/-- `free_map_open`. -/
def freeMapOpen (s : FileSys) (memory : Memory) : Except Assertion FileSys := do
  let (s, inode) ← openMapFile s memory
  let bs ← inodeReadAt s.dev inode.data (byteCnt s.freeMap.bitCnt) 0 (memory.map 0)
  if bs.length = byteCnt s.freeMap.bitCnt then
    return { s with freeMap := bitmapOfBytes s.freeMap.bitCnt bs }
  else
    throw .format

/-- `free_map_close`. -/
def freeMapClose (s : FileSys) (memory : Memory) : Except Assertion FileSys :=
  match s.freeMapFile with
  | none => .ok s
  | some file => fileClose s file (memory.map 2) (memory.map 3)

/-- `do_format`. -/
def doFormat (s : FileSys) (memory : Memory) : Except Assertion FileSys := do
  let s ← freeMapCreate s memory
  let (s, created) ← inodeCreate s rootDirSector (16 * direntSize : Nat) memory.inodeDisk
    (memory.map 4)
  if created then freeMapClose s memory else throw .format

/-- The file system before `filesys_init` has done anything with the device. -/
def FileSys.boot (dev : Device) (freeMap : Bitmap) : FileSys :=
  ⟨⟨dev, freeMap⟩, none, fun _ => ⟨0, 0, false, 0, ⟨0, 0⟩⟩, [], fun _ => ⟨0, 0, false⟩, 0⟩

/-- `filesys_init (true)`. -/
def filesysInit (dev : Device) (junk : Nat → Bool) (memory : Memory) : Except Assertion FileSys := do
  let freeMap ← freeMapInit dev.sectors junk
  let s ← doFormat (.boot dev freeMap) memory
  freeMapOpen s memory

/-! ## the machine -/

/-- An operation on the file system. -/
inductive Op
  | create (name : CString) (initialSize : OffT)
  | open (name : CString)
  | remove (name : CString)
  | read (file : Nat) (size : OffT)
  | write (file : Nat) (buffer : List UInt8)
  | seek (file : Nat) (newPos : OffT)
  | close (file : Nat)

/-- What it returns. -/
inductive Result
  | success (b : Bool)
  | file (file : Option Nat)
  | bytes (bs : List UInt8)
  | written (n : Nat)
  | none
deriving DecidableEq

/-- The file system and the files that have been opened and not closed. -/
structure State where
  fs : FileSys
  handles : List Nat

/-- The operation is on an open file, if it is on a file. -/
def State.Legal (s : State) : Op → Prop
  | .create .. | .open _ | .remove _ => True
  | .read file _ | .write file _ | .seek file _ | .close file => file ∈ s.handles

instance (s : State) (op : Op) : Decidable (s.Legal op) := by
  cases op <;> unfold State.Legal <;> infer_instance

/-- One operation. -/
def State.exec (memory : Memory) (s : State) : Op → Except Assertion (State × Result)
  | .create name initialSize => do
      let (fs, success) ← filesysCreate s.fs name initialSize memory
      return ({ s with fs }, .success success)
  | .open name => do
      let (fs, file) ← filesysOpen s.fs name memory
      return (⟨fs, file.toList ++ s.handles⟩, .file file)
  | .remove name => do
      let (fs, success) ← filesysRemove s.fs name memory
      return ({ s with fs }, .success success)
  | .read file size => do
      let (fs, bs) ← fileRead s.fs file size memory.inode
      return ({ s with fs }, .bytes bs)
  | .write file buffer => do
      let (fs, written) ← fileWrite s.fs file buffer memory.inode
      return ({ s with fs }, .written written)
  | .seek file newPos => do
      let fs ← fileSeek s.fs file newPos
      return ({ s with fs }, .none)
  | .close file => do
      let fs ← fileClose s.fs file (memory.map 0) (memory.map 1)
      return (⟨fs, s.handles.erase file⟩, .none)

/-- The device has been formatted and nothing is open. -/
def Formatted (memory : Memory) (s : State) : Prop :=
  s.handles = [] ∧ ∃ dev junk, dev.sectors < sizeTSize ∧ filesysInit dev junk memory = .ok s.fs

/-- Any sequence of operations on open files, one at a time. -/
def machine (memory : Memory) : Machine State Op where
  init := Formatted memory
  step := fun s op =>
    if s.Legal op then
      match s.exec memory op with
      | .ok (s, _) => some s
      | .error _ => none
    else
      none

end Pintos.Fs
