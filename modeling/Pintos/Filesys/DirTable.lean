import Pintos.Filesys.Effects

/-!
# Pintos.Filesys.DirTable

What a directory is for: a table of names, each with the sector of an inode, of at most as many
names as `dir_create` made room for (`Table`).

`DirSys` is a directory in a sound inode layer with inodes to add to it.  Every sequence of
`dir_add`, `dir_remove` and `dir_lookup` gives the results of the table, and `dir_readdir` from the
beginning enumerates its names (`directory_refines`).  The size of the directory is a product of
`size_t`: a capacity for which it wraps around makes a directory of another size
(`directory_wraps`).
-/

namespace Pintos.Fs

open Bytes List Option

/-! ## dir_create and dir_readdir -/

/-- `dir_create`; the product is a `size_t` and is passed as an `off_t`. -/
def dirCreate (s : FileSys) (sector entryCnt : Nat) (memory map : Bool) :
    Except Assertion (FileSys × Bool) :=
  inodeCreate s sector (toInt32 (entryCnt * direntSize)) memory map

/-- The loop of `dir_readdir`: the new position and the name in the next entry in use. -/
def readdirFrom (dev : Device) (data : InodeDisk) (memory : Nat → Bool) :
    Nat → Nat → Except Assertion (Nat × Option (List UInt8))
  | 0, pos => .ok (pos, none)
  | fuel + 1, pos => do
      let bs ← inodeReadAt dev data direntSize pos (memory pos)
      if bs.length = direntSize then
        let e := DirEntry.decode bs
        if e.inUse then
          return (pos + direntSize, some (cstring e.name))
        else
          readdirFrom dev data memory fuel (pos + direntSize)
      else
        return (pos, none)

/-- `dir_readdir` of a directory that is at `pos`: the new position, whether there is another
entry, and the array `name`. -/
def dirReaddir (dev : Device) (data : InodeDisk) (pos : Nat) (name : List UInt8)
    (memory : Nat → Bool) : Except Assertion (Nat × Bool × List UInt8) := do
  let (pos, next) ← readdirFrom dev data memory (data.entries + 1) pos
  match next with
  | some src => return (pos, true, strlcpy name src)
  | none => return (pos, false, name)

/-- The strings that `dir_readdir` leaves in `name`, called until it returns false. -/
def readdirAll (dev : Device) (data : InodeDisk) (memory : Nat → Bool) :
    Nat → Nat → List UInt8 → Except Assertion (List (List UInt8))
  | 0, _, _ => .ok []
  | fuel + 1, pos, name => do
      let (pos, more, name) ← dirReaddir dev data pos name memory
      if more then
        let rest ← readdirAll dev data memory fuel pos name
        return cstring name :: rest
      else
        return []

/-! ## the table -/

/-- Names and the sectors of their inodes. -/
abbrev Table : Type := List (CString × Nat)

/-- An operation on a directory; `close` closes an inode that `dir_lookup` has returned. -/
inductive DirOp
  | add (name : CString) (inodeSector : Nat)
  | remove (name : CString)
  | lookup (name : CString)
  | close (inode : Nat)

/-- What it returns, with the sector of the inode that is found. -/
inductive DirResult
  | success (b : Bool)
  | found (sector : Option Nat)
  | none
deriving DecidableEq

instance decidableAddable (name : CString) : Decidable (Addable name) := by
  unfold Addable
  infer_instance

namespace Table

/-- The sector of a name. -/
def lookup (t : Table) (name : CString) : Option Nat :=
  (t.find? fun b => b.1 = name).map Prod.snd

/-- An operation on a table for `capacity` names. -/
def step (capacity : Nat) (t : Table) : DirOp → DirResult × Table
  | .add name inodeSector =>
    if Addable name ∧ t.lookup name = none ∧ t.length < capacity then
      (.success true, (name, inodeSector) :: t)
    else
      (.success false, t)
  | .remove name => (.success (t.lookup name).isSome, t.filter fun b => b.1 ≠ name)
  | .lookup name => (.found (t.lookup name), t)
  | .close _ => (.none, t)

/-- A sequence of operations. -/
def run (capacity : Nat) : Table → List DirOp → List DirResult × Table
  | t, [] => ([], t)
  | t, op :: ops =>
    let (r, t) := t.step capacity op
    let (rs, t) := run capacity t ops
    (r :: rs, t)

/-- No name is there twice. -/
def Distinct (t : Table) : Prop := (t.map Prod.fst).Nodup

variable {t t' : Table} {name : CString} {k : Nat}

theorem lookup_eq_some_iff (h : t.Distinct) : t.lookup name = some k ↔ (name, k) ∈ t := by
  unfold lookup
  rw [map_eq_some_iff]
  constructor
  · rintro ⟨⟨n, l⟩, hfind, rfl⟩
    obtain rfl : n = name := by simpa using find?_some hfind
    exact mem_of_find?_eq_some hfind
  · intro hmem
    obtain ⟨b, hfind⟩ := isSome_iff_exists.mp
      (find?_isSome (p := fun b => b.1 = name) |>.mpr ⟨_, hmem, decide_eq_true rfl⟩)
    have hname : b.1 = name := by simpa using find?_some hfind
    have heq : b = (name, k) := inj_on_of_nodup_map h (mem_of_find?_eq_some hfind) hmem hname
    exact ⟨b, hfind, congrArg Prod.snd heq⟩

theorem lookup_eq_none_iff : t.lookup name = none ↔ ∀ k, (name, k) ∉ t := by
  unfold lookup
  rw [map_eq_none_iff, find?_eq_none]
  refine ⟨fun h k hmem => h _ hmem (decide_eq_true rfl), ?_⟩
  rintro h ⟨n, k⟩ hmem heq
  obtain rfl : n = name := of_decide_eq_true heq
  exact h k hmem

theorem lookup_perm (h : t.Distinct) (hp : t.Perm t') : t'.lookup name = t.lookup name := by
  have h' : t'.Distinct := (hp.map _).nodup_iff.mp h
  apply Option.ext
  intro k
  rw [lookup_eq_some_iff h, lookup_eq_some_iff h', hp.mem_iff]

end Table

/-! ## the entries in use -/

/-- The string in an array, as a name. -/
def cname (bs : List UInt8) : CString := ⟨cstring bs, by
  intro hmem
  have hne := List.all_eq_true.mp all_takeWhile 0 hmem
  simp at hne⟩

/-- The binding in entry `i`, if it is in use. -/
def bindingAt (dev : Device) (data : InodeDisk) (i : Nat) : Option (CString × Nat) :=
  let e := slot dev data i
  if e.inUse then some (cname e.name, e.inodeSector) else none

/-- The bindings in the entries of a directory. -/
def bindings (dev : Device) (data : InodeDisk) : Table :=
  (range data.entries).filterMap (bindingAt dev data)

variable {dev dev' : Device} {data : InodeDisk} {name : CString} {i k : Nat} {e : DirEntry}
  {entryCnt : Nat}

theorem bindingAt_eq_some_iff : bindingAt dev data i = some (name, k) ↔
    (slot dev data i).named name = true ∧ (slot dev data i).inodeSector = k := by
  unfold bindingAt
  dsimp only
  rw [named_iff]
  cases (slot dev data i).inUse with
  | false => simp
  | true =>
    rw [if_pos rfl, some.injEq, Prod.mk.injEq, Subtype.ext_iff]
    exact ⟨fun h => ⟨⟨rfl, h.1⟩, h.2⟩, fun h => ⟨h.1.2, h.2⟩⟩

theorem bindingAt_of_unused (h : (slot dev data i).inUse = false) :
    bindingAt dev data i = none := by
  unfold bindingAt
  dsimp only
  rw [h]
  rfl

theorem mem_bindings : (name, k) ∈ bindings dev data ↔
    ∃ i < data.entries, (slot dev data i).named name = true ∧ (slot dev data i).inodeSector = k := by
  unfold bindings
  rw [mem_filterMap]
  constructor
  · rintro ⟨i, hi, hb⟩
    exact ⟨i, mem_range.mp hi, bindingAt_eq_some_iff.mp hb⟩
  · rintro ⟨i, hi, hb⟩
    exact ⟨i, mem_range.mpr hi, bindingAt_eq_some_iff.mpr hb⟩

theorem distinct_bindings (h : Entries dev data) : (bindings dev data).Distinct := by
  unfold Table.Distinct bindings
  rw [List.Nodup, pairwise_map, pairwise_filterMap]
  refine List.Pairwise.imp_of_mem ?_ nodup_range
  rintro i j hi hj hne ⟨n, k⟩ hk ⟨n', k'⟩ hk' rfl
  obtain ⟨hni, -⟩ := bindingAt_eq_some_iff.mp hk
  obtain ⟨hnj, -⟩ := bindingAt_eq_some_iff.mp hk'
  exact hne (h.named_inj (mem_range.mp hi) (mem_range.mp hj) hni hnj)

theorem names_eq_lookup (h : Entries dev data) (name : CString) :
    names dev data name = (bindings dev data).lookup name := by
  apply Option.ext
  intro k
  rw [names_eq_some_iff h, Table.lookup_eq_some_iff (distinct_bindings h), mem_bindings]

theorem SameSlots.bindings (h : SameSlots dev dev' data) :
    bindings dev' data = bindings dev data := by
  unfold Fs.bindings
  refine filterMap_congr fun i hi => ?_
  unfold bindingAt
  rw [h i (mem_range.mp hi)]

theorem bindings_perm (dev : Device) (hi : i < data.entries) :
    (bindings dev data).Perm ((bindingAt dev data i).toList ++
      ((range data.entries).erase i).filterMap (bindingAt dev data)) := by
  have hperm := (perm_cons_erase (mem_range.mpr hi)).filterMap (bindingAt dev data)
  rw [filterMap_cons] at hperm
  unfold bindings
  cases hb : bindingAt dev data i with
  | none =>
    rwa [hb] at hperm
  | some b =>
    rwa [hb] at hperm

theorem bindings_writeSlot (dev : Device) (hi : i < data.entries) (he : e.Valid) :
    (bindings (writeSlot dev data i e) data).Perm
      ((if e.inUse then [(cname e.name, e.inodeSector)] else []) ++
        ((range data.entries).erase i).filterMap (bindingAt dev data)) := by
  have hperm := bindings_perm (writeSlot dev data i e) hi
  have hself : (bindingAt (writeSlot dev data i e) data i).toList =
      if e.inUse then [(cname e.name, e.inodeSector)] else [] := by
    unfold bindingAt
    dsimp only
    rw [slot_write_self he]
    split <;> rfl
  have hother : ((range data.entries).erase i).filterMap
      (bindingAt (writeSlot dev data i e) data) =
        ((range data.entries).erase i).filterMap (bindingAt dev data) := by
    refine filterMap_congr fun j hj => ?_
    have hne : j ≠ i := (nodup_range.mem_erase_iff.mp hj).1
    unfold bindingAt
    rw [slot_write_of_ne he hne]
  rwa [hself, hother] at hperm

/-- A new entry is one more binding. -/
theorem Adds.bindings (h : Adds dev data name i e) :
    (bindings (writeSlot dev data i e) data).Perm ((name, e.inodeSector) :: bindings dev data) := by
  obtain ⟨hused, hname⟩ := named_iff.mp h.named
  have hcname : cname e.name = name := Subtype.ext hname
  have hold := bindings_perm dev h.lt
  have hnew := bindings_writeSlot dev h.lt h.valid
  rw [hused, if_pos rfl, hcname] at hnew
  rw [bindingAt_of_unused h.free] at hold
  exact hnew.trans (hold.symm.cons _)

theorem bindings_erase (hi : i < data.entries) (hnamed : (slot dev data i).named name = true) :
    (bindings dev data).Perm
      ((name, (slot dev data i).inodeSector) :: bindings (eraseSlot dev data i) data) := by
  have hold := bindings_perm dev hi
  rw [bindingAt_eq_some_iff.mpr ⟨hnamed, rfl⟩] at hold
  have hvalid : ({ slot dev data i with inUse := false } : DirEntry).Valid :=
    ⟨(slot_valid dev data i).name, (slot_valid dev data i).sector⟩
  have hnew := bindings_writeSlot dev hi hvalid
  exact hold.trans (hnew.symm.cons _)

theorem find_free_isSome :
    ((range data.entries).find? fun i => !(slot dev data i).inUse).isSome = true ↔
      (bindings dev data).length < data.entries := by
  have hcount : (bindings dev data).length =
      (range data.entries).countP fun i => (slot dev data i).inUse := by
    unfold bindings
    rw [length_filterMap_eq_countP]
    refine countP_congr fun i _ => ?_
    unfold bindingAt
    dsimp only
    cases (slot dev data i).inUse <;> simp
  have hlt := countP_lt_length_iff (l := range data.entries)
    (p := fun i => (slot dev data i).inUse)
  rw [length_range] at hlt
  rw [hcount, hlt, find?_isSome]
  simp only [Bool.not_eq_true']

/-! ## dir_readdir -/

theorem readdirFrom_eq (h : OnDevice dev data) (fuel i n : Nat) (hi : i + n = data.entries)
    (hfuel : n < fuel) :
    readdirFrom dev data (fun _ => true) fuel (direntSize * i) = .ok
      (match (range' i n).find? fun j => (slot dev data j).inUse with
        | some j => (direntSize * (j + 1), some (cstring (slot dev data j).name))
        | none => (direntSize * data.entries, none)) := by
  induction n generalizing i fuel with
  | zero =>
    obtain ⟨fuel, rfl⟩ := Nat.exists_eq_add_of_lt hfuel
    obtain rfl : i = data.entries := hi
    have hne : data.below direntSize (direntSize * data.entries) ≠ direntSize :=
      ne_of_lt below_entries
    simp [readdirFrom, inodeReadAt_eq h, hne]
  | succ n ih =>
    obtain ⟨fuel, rfl⟩ := Nat.exists_eq_add_of_lt hfuel
    have hrest := ih (n + 1 + fuel) (i + 1) (by omega) (by omega)
    rw [readdirFrom, inodeReadAt_entry h (by omega), ok_bind, length_read, if_pos rfl,
      range'_succ, find?_cons]
    change (if (slot dev data i).inUse then _ else _) = _
    cases hused : (slot dev data i).inUse with
    | true => rfl
    | false => exact hrest

theorem dirReaddir_eq (h : OnDevice dev data) (hi : i < data.entries) (name : List UInt8) :
    dirReaddir dev data (direntSize * i) name (fun _ => true) =
      if (slot dev data i).inUse then
        .ok (direntSize * (i + 1), true, strlcpy name (cstring (slot dev data i).name))
      else
        dirReaddir dev data (direntSize * (i + 1)) name fun _ => true := by
  obtain ⟨n, hn⟩ := Nat.exists_eq_add_of_lt hi
  have hthis := readdirFrom_eq h (data.entries + 1) i (n + 1) (by omega) (by omega)
  have hnext := readdirFrom_eq h (data.entries + 1) (i + 1) n (by omega) (by omega)
  rw [range'_succ, find?_cons] at hthis
  unfold dirReaddir
  rw [hthis, hnext]
  cases (slot dev data i).inUse <;> rfl

/-- **`dir_readdir`, called again and again, enumerates the names of the entries in use.** -/
theorem readdirAll_eq (h : OnDevice dev data) {fuel n : Nat} (hi : i + n = data.entries)
    (hfuel : n < fuel) {buffer : List UInt8} (hbuffer : buffer.length = nameMax + 1)
    (hnames : ∀ b ∈ bindings dev data, b.1.val.length ≤ nameMax) :
    readdirAll dev data (fun _ => true) fuel (direntSize * i) buffer =
      .ok (((range' i n).filterMap (bindingAt dev data)).map fun b => b.1.val) := by
  -- one place at a time: a place that is not in use is passed in the same call
  induction n generalizing i fuel buffer with
  | zero =>
    obtain ⟨fuel, rfl⟩ := Nat.exists_eq_add_of_lt hfuel
    obtain rfl : i = data.entries := hi
    have hend := readdirFrom_eq h (data.entries + 1) data.entries 0 rfl (Nat.succ_pos _)
    simp only [readdirAll, dirReaddir, hend]
    rfl
  | succ n ih =>
    obtain ⟨fuel, rfl⟩ := Nat.exists_eq_add_of_lt hfuel
    rw [range'_succ, filterMap_cons]
    cases hused : (slot dev data i).inUse with
    | false =>
      have hrest := @ih (i + 1) (n + 1 + fuel + 1) (by omega) (by omega) buffer hbuffer
      rw [bindingAt_of_unused hused, readdirAll, dirReaddir_eq h (by omega), hused,
        if_neg Bool.false_ne_true]
      rwa [readdirAll] at hrest
    | true =>
      have hsome : bindingAt dev data i =
          some (cname (slot dev data i).name, (slot dev data i).inodeSector) := by
        unfold bindingAt
        dsimp only
        rw [hused, if_pos rfl]
      have hmem : (cname (slot dev data i).name, (slot dev data i).inodeSector) ∈
          bindings dev data :=
        mem_filterMap.mpr ⟨i, mem_range.mpr (by omega), hsome⟩
      have hlen : (cstring (slot dev data i).name).length ≤ nameMax := hnames _ hmem
      have hcopy : cstring (strlcpy buffer (cname (slot dev data i).name).val) =
          (cname (slot dev data i).name).val :=
        cstring_strlcpy (by rw [hbuffer]; exact Nat.lt_succ_of_le hlen)
      have hrest := @ih (i + 1) (n + 1 + fuel) (by omega) (by omega)
        (strlcpy buffer (cstring (slot dev data i).name))
        ((length_strlcpy _ _ (by omega)).trans hbuffer)
      rw [hsome, readdirAll, dirReaddir_eq h (by omega), hused, if_pos rfl, ok_bind]
      dsimp only
      rw [if_pos rfl, hrest, ok_bind, pure_eq_ok, map_cons]
      exact congrArg (fun n => Except.ok (n :: _)) hcopy

/-! ## a directory and inodes to add to it -/

/-- A directory that is open at `dir`, the sectors of inodes that have not been added to it, and
the inodes that `dir_lookup` has returned and that have not been closed. -/
structure DirSys where
  fs : FileSys
  dir : Nat
  fresh : List Nat
  found : List Nat

namespace DirSys

/-- A name is added for an inode that has not been added before, and an inode is closed that has
been returned. -/
def Legal (s : DirSys) : DirOp → Prop
  | .add _ inodeSector => inodeSector ∈ s.fresh
  | .remove _ | .lookup _ => True
  | .close inode => inode ∈ s.found

instance decidableLegal (s : DirSys) (op : DirOp) : Decidable (s.Legal op) := by
  cases op <;> unfold Legal <;> infer_instance

/-- One operation, with all memory that is asked for. -/
def exec (stack : DirEntry) (s : DirSys) : DirOp → Except Assertion (DirResult × DirSys)
  | .add name inodeSector => do
      let root := s.fs.inodes s.dir
      let (dev, success) ←
        dirAdd s.fs.dev root.data root.denied name inodeSector (.plenty stack)
      let fresh := if success then s.fresh.erase inodeSector else s.fresh
      return (.success success, { s with fs := { s.fs with dev }, fresh })
  | .remove name => do
      let (fs, success) ← dirRemove s.fs s.dir name (.plenty stack)
      return (.success success, { s with fs })
  | .lookup name => do
      let (fs, inode) ← dirLookup s.fs s.dir name (.plenty stack)
      return (.found (inode.map fun a => (fs.inodes a).sector),
        { s with fs, found := inode.toList ++ s.found })
  | .close inode => do
      let fs ← inodeClose s.fs inode true true
      return (.none, { s with fs, found := s.found.erase inode })

/-- The results of a sequence of operations, and the state after it. -/
def run (stack : DirEntry) : DirSys → List DirOp → Option (List DirResult × DirSys)
  | s, [] => some ([], s)
  | s, op :: ops =>
    if s.Legal op then
      match s.exec stack op with
      | .ok (r, s) => (run stack s ops).map fun p => (r :: p.1, p.2)
      | .error _ => none
    else
      none

/-- The directory has just been created with room for `entryCnt` entries, in a sound inode layer
with the inodes `fresh`, and opened. -/
def Created (entryCnt : Nat) (s : DirSys) : Prop :=
  ∃ fs₀ fs₁ H m refs denials sector,
    Sound fs₀ H m refs denials ∧
    sector < fs₀.freeMap.bitCnt ∧ fs₀.freeMap.bits sector = true ∧ ¬ H sector ∧
    (∀ k, H k → ¬ (diskInode fs₀.dev k).Covers sector) ∧
    dirCreate fs₀ sector entryCnt true true = .ok (fs₁, true) ∧
    inodeOpen fs₁ sector true = .ok (s.fs, some s.dir) ∧
    s.found = [] ∧ s.fresh.Nodup ∧ (∀ k ∈ s.fresh, H k) ∧
    ∀ a ∈ fs₀.openInodes, (fs₀.inodes a).removed = true → (fs₀.inodes a).sector ∉ s.fresh

/-- The entries of the directory are the bindings of the table, and name inodes in use. -/
structure Inv (data : InodeDisk) (H : Nat → Prop) (m : Nat) (rest denials : List Nat) (s : DirSys)
    (t : Table) : Prop where
  sound : Sound s.fs H m (s.dir :: (s.found ++ rest)) denials
  dirData : (s.fs.inodes s.dir).data = data
  allowed : s.dir ∉ denials
  le : ∀ a, denials.count a ≤ (m :: rest).count a
  notMap : (s.fs.inodes s.dir).sector ≠ freeMapSector
  length : data.length = direntSize * data.entries
  entries : Entries s.fs.dev data
  linked : ∀ k, Linked s.fs.dev data k → H k ∧ k ∉ s.fresh
  fresh : ∀ k ∈ s.fresh, H k
  nodup : s.fresh.Nodup
  removed : ∀ a ∈ s.fs.openInodes, (s.fs.inodes a).removed = true →
    ¬ Linked s.fs.dev data (s.fs.inodes a).sector ∧ (s.fs.inodes a).sector ∉ s.fresh
  addable : ∀ b ∈ bindings s.fs.dev data, Addable b.1
  table : t.Perm (bindings s.fs.dev data)

namespace Inv

variable {s s' : DirSys} {H H' : Nat → Prop} {m a : Nat} {rest denials : List Nat} {t : Table}
  {fs' : FileSys} {found' : List Nat}

section

variable (h : Inv data H m rest denials s t)
include h

theorem dir_open : s.dir ∈ s.fs.openInodes :=
  h.sound.mem_open (mem_cons_of_mem _ mem_cons_self)

theorem dir_held : H (s.fs.inodes s.dir).sector :=
  h.sound.held _ h.dir_open

theorem data_eq : diskInode s.fs.dev (s.fs.inodes s.dir).sector = data := by
  rw [← h.sound.data _ h.dir_open, h.dirData]

theorem length_lt : data.length < 2 ^ 31 := by
  rw [← h.data_eq]
  exact diskInode_length_lt _ _

theorem onDevice : OnDevice s.fs.dev data := by
  rw [← h.data_eq]
  exact h.sound.onDevice h.dir_held

theorem not_denied : (s.fs.inodes s.dir).denied = false := by
  rw [Inode.denied, h.sound.balanced.denyWriteCnt _ h.dir_open,
    count_eq_zero_of_not_mem h.allowed]
  rfl

/-- No inode is in a sector of the directory. -/
theorem apart (hk : H k) : ¬ data.Covers k := by
  rw [← h.data_eq]
  exact h.sound.owned.apart _ k h.dir_held hk

theorem sameSlots (hoff : Device.Off (s.fs.inodes m).data.Covers s.fs.dev dev') :
    SameSlots s.fs.dev dev' data := by
  refine hoff.sameSlots h.length_lt fun k hk hmap => h.notMap ?_
  rw [← h.data_eq] at hk
  rw [h.sound.map_data] at hmap
  exact h.sound.owned.disjoint _ _ k h.dir_held h.sound.map_held hk hmap

theorem distinct : t.Distinct :=
  (h.table.map _).nodup_iff.mpr (distinct_bindings h.entries)

theorem names_eq (name : CString) : names s.fs.dev data name = t.lookup name := by
  rw [names_eq_lookup h.entries, Table.lookup_perm h.distinct h.table]

/-- **Inodes are opened and closed**: the entries and their inodes stay. -/
theorem reopened (hsound : Sound fs' H' m (s.dir :: (found' ++ rest)) denials)
    (hdir : (fs'.inodes s.dir).sector = (s.fs.inodes s.dir).sector ∧
      (fs'.inodes s.dir).data = (s.fs.inodes s.dir).data)
    (hsub : RemovedSub fs' s.fs) (hslots : SameSlots s.fs.dev fs'.dev data)
    (hkeep : ∀ k, H k → Linked s.fs.dev data k ∨ k ∈ s.fresh → H' k) :
    Inv data H' m rest denials ⟨fs', s.dir, s.fresh, found'⟩ t where
  sound := hsound
  dirData := hdir.2.trans h.dirData
  allowed := h.allowed
  le := h.le
  notMap := by rw [hdir.1]; exact h.notMap
  length := h.length
  entries := hslots.entries h.entries
  linked := fun k hk => by
    have hk' := hslots.linked.mp hk
    exact ⟨hkeep k (h.linked k hk').1 (.inl hk'), (h.linked k hk').2⟩
  fresh := fun k hk => hkeep k (h.fresh k hk) (.inr hk)
  nodup := h.nodup
  removed := fun a ha hr => by
    obtain ⟨ha', hr', hsector⟩ := hsub a ha hr
    have hold := h.removed a ha' hr'
    rw [hsector] at hold
    exact ⟨fun hlink => hold.1 (hslots.linked.mp hlink), hold.2⟩
  addable := by
    rw [hslots.bindings]
    exact h.addable
  table := by
    rw [hslots.bindings]
    exact h.table

/-! ### dir_add -/

/-- **An entry is written** for an inode that had none. -/
theorem link (hadds : Adds s.fs.dev data name i e)
    (haddable : Addable name) (hfresh : e.inodeSector ∈ s.fresh) :
    Inv data H m rest denials ⟨{ s.fs with dev := writeSlot s.fs.dev data i e }, s.dir,
      s.fresh.erase e.inodeSector, s.found⟩ ((name, e.inodeSector) :: t) := by
  have hoff : Device.Off data.Covers s.fs.dev (writeSlot s.fs.dev data i e) :=
    off_writeSlot h.length_lt hadds.lt hadds.valid.name
  have hnew : ¬ Linked s.fs.dev data e.inodeSector := fun hlink => (h.linked _ hlink).2 hfresh
  have hmem : ∀ k, k ∈ s.fresh.erase e.inodeSector ↔ k ≠ e.inodeSector ∧ k ∈ s.fresh := fun k =>
    h.nodup.mem_erase_iff
  have hsound : Sound (s.fs.withStore ⟨writeSlot s.fs.dev data i e, s.fs.freeMap⟩) H m
      (s.dir :: (s.found ++ rest)) denials :=
    h.sound.store hoff rfl (fun k hk => h.apart hk) fun _ _ _ _ hx => hx
  refine ⟨hsound, h.dirData, h.allowed, h.le, h.notMap, h.length, hadds.entries h.entries hnew,
    fun k hk => ?_, fun k hk => h.fresh k ((hmem k).mp hk).2, h.nodup.erase _, fun a ha hr => ?_,
    fun b hb => ?_, (h.table.cons _).trans hadds.bindings.symm⟩
  · rcases hadds.linked_iff.mp hk with hk | rfl
    · exact ⟨(h.linked k hk).1, fun hin => (h.linked k hk).2 ((hmem k).mp hin).2⟩
    · exact ⟨h.fresh _ hfresh, fun hin => ((hmem _).mp hin).1 rfl⟩
  · obtain ⟨hnot, hout⟩ := h.removed a ha hr
    refine ⟨fun hlink => ?_, fun hin => hout ((hmem _).mp hin).2⟩
    rcases hadds.linked_iff.mp hlink with hlink | heq
    · exact hnot hlink
    · exact hout (heq ▸ hfresh)
  · rcases mem_cons.mp (hadds.bindings.mem_iff.mp hb) with rfl | hb
    · exact haddable
    · exact h.addable b hb

theorem add (stack : DirEntry) (name : CString) (hk : k ∈ s.fresh) :
    ∃ r s' t', s.exec stack (.add name k) = .ok (r, s') ∧
      t.step data.entries (.add name k) = (r, t') ∧ Inv data H m rest denials s' t' := by
  have hexec : ∀ dev' success, dirAdd s.fs.dev data false name k (.plenty stack) =
      .ok (dev', success) → s.exec stack (.add name k) = .ok (.success success,
        ⟨{ s.fs with dev := dev' }, s.dir, if success then s.fresh.erase k else s.fresh,
          s.found⟩) := by
    intro dev' success hrun
    simp only [exec, h.dirData, h.not_denied, hrun, ok_bind]
    rfl
  have hsector : k < 2 ^ 32 := lt_trans (h.sound.owned.lt k (h.fresh k hk)) h.sound.size
  have hcases := dirAdd_cases h.onDevice h.length name hsector stack
  rw [h.names_eq name, find_free_isSome, ← h.table.length_eq] at hcases
  rcases hcases with ⟨hnot, hrun⟩ | ⟨hadd, hnone, hlt, i, e, hadds, rfl, hrun⟩
  · refine ⟨_, _, t, hexec _ _ hrun, ?_, h⟩
    rw [Table.step, if_neg hnot]
  · refine ⟨_, _, _, hexec _ _ hrun, ?_, h.link hadds hadd hk⟩
    rw [Table.step, if_pos ⟨hadd, hnone, hlt⟩]

/-! ### dir_lookup -/

/-- `lookup` finds what the table has. -/
theorem lookup_cases (name : CString) :
    (t.lookup name = none ∧
      Fs.lookup s.fs.dev (s.fs.inodes s.dir).data name (fun _ => true) = .ok none) ∨
    ∃ i < data.entries, (slot s.fs.dev data i).named name = true ∧
      t.lookup name = some (slot s.fs.dev data i).inodeSector ∧
      Fs.lookup s.fs.dev (s.fs.inodes s.dir).data name (fun _ => true) =
        .ok (some (slot s.fs.dev data i, direntSize * i)) := by
  rw [h.dirData, Fs.lookup_eq h.onDevice, ← h.names_eq name, names]
  cases hfind : (range data.entries).find? fun i => (slot s.fs.dev data i).named name with
  | none => exact .inl ⟨rfl, rfl⟩
  | some i =>
    obtain ⟨hi, hnamed⟩ := named_of_find hfind
    exact .inr ⟨i, hi, hnamed, rfl, rfl⟩

theorem openLinked (hk : Linked s.fs.dev data k) :
    ∃ fs' a, inodeOpen s.fs k true = .ok (fs', some a) ∧ (fs'.inodes a).sector = k ∧
      fs'.toStore = s.fs.toStore ∧
      Inv data H m rest denials ⟨fs', s.dir, s.fresh, a :: s.found⟩ t := by
  obtain ⟨fs', a, hopen, hsound, hsame, -, hsub, -, hstore, hsector⟩ :=
    h.sound.inodeOpen (h.linked k hk).1
  have hdev : fs'.dev = s.fs.dev := congrArg Store.dev hstore
  have hslots : SameSlots s.fs.dev fs'.dev data := fun i _ => by rw [hdev]
  refine ⟨fs', a, hopen, hsector, hstore,
    h.reopened (hsound.perm (.swap _ _ _)) ?_ hsub hslots fun _ hk _ => hk⟩
  exact hsame s.dir (mem_cons_of_mem _ mem_cons_self)

theorem lookup (stack : DirEntry) (name : CString) :
    ∃ r s' t', s.exec stack (.lookup name) = .ok (r, s') ∧
      t.step data.entries (.lookup name) = (r, t') ∧ Inv data H m rest denials s' t' := by
  rcases h.lookup_cases name with ⟨hnone, hlookup⟩ | ⟨i, hi, hnamed, hsome, hlookup⟩
  · refine ⟨.found none, s, t, ?_, ?_, h⟩
    · simp [exec, dirLookup, DirMemory.plenty, hlookup]
    · rw [Table.step, hnone]
  · obtain ⟨fs', a, hopen, hsector, -, hinv⟩ :=
      h.openLinked ⟨i, hi, (named_iff.mp hnamed).1, rfl⟩
    refine ⟨.found (some (slot s.fs.dev data i).inodeSector), _, t, ?_, ?_, hinv⟩
    · simp [exec, dirLookup, DirMemory.plenty, hlookup, hopen, hsector]
    · rw [Table.step, hsome]

theorem closeFound (hfound : s.found.Perm (a :: found')) :
    ∃ fs' H', inodeClose s.fs a true true = .ok fs' ∧
      Inv data H' m rest denials ⟨fs', s.dir, s.fresh, found'⟩ t := by
  have hperm : (s.dir :: (s.found ++ rest)).Perm (a :: s.dir :: (found' ++ rest)) :=
    ((hfound.append_right rest).cons _).trans (.swap _ _ _)
  have hle : denials.count a ≤ (m :: s.dir :: (found' ++ rest)).count a := by
    have hrest := h.le a
    simp only [count_cons, count_append] at hrest ⊢
    omega
  have ha : a ∈ s.fs.openInodes :=
    h.sound.mem_open (mem_cons_of_mem _ (hperm.mem_iff.mpr mem_cons_self))
  obtain ⟨fs', H', hclose, hsound, -, hkept, hsame, -, hsub, hoff⟩ :=
    (h.sound.perm hperm).inodeClose hle
  refine ⟨fs', H', hclose,
    h.reopened hsound ?_ hsub.removedSub (h.sameSlots hoff) fun k hk hused => ?_⟩
  · exact hsame s.dir (mem_cons_of_mem _ mem_cons_self)
  · rcases hkept k hk with hk' | ⟨rfl, hr, -⟩
    · exact hk'
    · -- a removed inode has no entry and is not to be added
      obtain ⟨hnot, hout⟩ := h.removed a ha hr
      exact absurd hused (not_or.mpr ⟨hnot, hout⟩)

theorem close (stack : DirEntry) (ha : a ∈ s.found) :
    ∃ r s' t' H', s.exec stack (.close a) = .ok (r, s') ∧
      t.step data.entries (.close a) = (r, t') ∧ Inv data H' m rest denials s' t' := by
  obtain ⟨fs', H', hclose, hinv⟩ := h.closeFound (perm_cons_erase ha)
  refine ⟨.none, _, t, H', ?_, rfl, hinv⟩
  simp only [exec, hclose, ok_bind]
  rfl

/-! ### dir_remove -/

/-- **An entry is marked as free** and its inode, which is open, as removed. -/
theorem unlink (hi : i < data.entries) (hnamed : (slot s.fs.dev data i).named name = true)
    (ha : a ∈ s.found) (hsector : (s.fs.inodes a).sector = (slot s.fs.dev data i).inodeSector) :
    Inv data H m rest denials ⟨s.fs.unlinked data i a, s.dir, s.fresh, s.found⟩
      (t.filter fun b => b.1 ≠ name) := by
  have hused := (named_iff.mp hnamed).1
  have hlink : Linked s.fs.dev data (s.fs.inodes a).sector := ⟨i, hi, hused, hsector.symm⟩
  have hoff : Device.Off data.Covers s.fs.dev (eraseSlot s.fs.dev data i) :=
    off_writeSlot h.length_lt hi (slot_valid s.fs.dev data i).name
  have hstore : Sound (s.fs.withStore ⟨eraseSlot s.fs.dev data i, s.fs.freeMap⟩) H m
      (s.dir :: (s.found ++ rest)) denials :=
    h.sound.store hoff rfl (fun k hk => h.apart hk) fun _ _ _ _ hx => hx
  have hsound := hstore.inodeRemove
    (mem_cons_of_mem _ (mem_cons_of_mem _ (mem_append_left _ ha)))
  have hlinked : ∀ k, Linked (eraseSlot s.fs.dev data i) data k ↔
      Linked s.fs.dev data k ∧ k ≠ (slot s.fs.dev data i).inodeSector := fun k =>
    linked_erase_iff h.entries hi hused
  have hother : ∀ b, b ≠ a → (s.fs.unlinked data i a).inodes b = s.fs.inodes b := fun b hb =>
    unlinked_of_ne hb
  have hself : (s.fs.unlinked data i a).inodes a = { s.fs.inodes a with removed := true } :=
    unlinked_self
  have hfields : ∀ b, ((s.fs.unlinked data i a).inodes b).sector = (s.fs.inodes b).sector ∧
      ((s.fs.unlinked data i a).inodes b).data = (s.fs.inodes b).data := fun b => by
    by_cases hb : b = a
    · rw [hb, hself]
      exact ⟨rfl, rfl⟩
    · rw [hother b hb]
      exact ⟨rfl, rfl⟩
  have hbindings := bindings_erase hi hnamed
  refine ⟨hsound, (hfields s.dir).2.trans h.dirData, h.allowed, h.le, ?_, h.length,
    h.entries.erase, fun k hk => ?_, h.fresh, h.nodup, fun b hb hr => ?_, fun b hb => ?_, ?_⟩
  · rw [(hfields s.dir).1]
    exact h.notMap
  · exact h.linked k ((hlinked k).mp hk).1
  · rw [(hfields b).1]
    by_cases hba : b = a
    · subst hba
      exact ⟨fun hlink => ((hlinked _).mp hlink).2 hsector, (h.linked _ hlink).2⟩
    · rw [hother b hba] at hr
      obtain ⟨hnot, hout⟩ := h.removed b hb hr
      exact ⟨fun hlink => hnot ((hlinked _).mp hlink).1, hout⟩
  · exact h.addable b (hbindings.mem_iff.mpr (mem_cons_of_mem _ hb))
  · -- the other bindings have other names
    have hnodup : (name :: (bindings (eraseSlot s.fs.dev data i) data).map Prod.fst).Nodup :=
      (hbindings.map Prod.fst).nodup_iff.mp (distinct_bindings h.entries)
    have hkeep : ∀ b ∈ bindings (eraseSlot s.fs.dev data i) data,
        decide (b.1 ≠ name) = true := by
      intro b hb
      refine decide_eq_true fun heq => ?_
      have hmem : b.1 ∈ (bindings (eraseSlot s.fs.dev data i) data).map Prod.fst :=
        List.mem_map_of_mem hb
      rw [heq] at hmem
      exact (nodup_cons.mp hnodup).1 hmem
    have hperm := (h.table.trans hbindings).filter fun b => b.1 ≠ name
    rwa [filter_cons_of_neg (by simp), filter_eq_self.mpr hkeep] at hperm

theorem remove (stack : DirEntry) (name : CString) :
    ∃ r s' t' H', s.exec stack (.remove name) = .ok (r, s') ∧
      t.step data.entries (.remove name) = (r, t') ∧ Inv data H' m rest denials s' t' := by
  rcases h.lookup_cases name with ⟨hnone, hlookup⟩ | ⟨i, hi, hnamed, hsome, hlookup⟩
  · refine ⟨.success false, s, t, H, ?_, ?_, h⟩
    · simp [exec, dirRemove, DirMemory.plenty, hlookup]
    · rw [Table.step, hnone, filter_eq_self.mpr]
      · rfl
      · rintro ⟨n, k⟩ hmem
        refine decide_eq_true fun heq => ?_
        exact Table.lookup_eq_none_iff.mp hnone k (heq ▸ hmem)
  · obtain ⟨fs₁, a, hopen, hsector, hstore, hinv₁⟩ :=
      h.openLinked ⟨i, hi, (named_iff.mp hnamed).1, rfl⟩
    have hdev : fs₁.dev = s.fs.dev := congrArg Store.dev hstore
    have hdir := hinv₁.dirData
    have hdenied := hinv₁.not_denied
    dsimp only at hdir hdenied
    rw [← hdev] at hnamed hsector
    have hinv₂ := hinv₁.unlink hi hnamed mem_cons_self hsector
    obtain ⟨fs', H', hclose, hinv'⟩ := hinv₂.closeFound .rfl
    have hwrite : inodeWriteAt fs₁.dev data false
        ({ slot s.fs.dev data i with inUse := false } : DirEntry).encode (direntSize * i) true =
        .ok (eraseSlot fs₁.dev data i, direntSize) := by
      rw [← hdev]
      exact inodeWriteAt_entry hinv₁.onDevice hi (slot_valid fs₁.dev data i).name
    refine ⟨.success true, _, _, H', ?_, ?_, hinv'⟩
    · simp [exec, dirRemove, DirMemory.plenty, hlookup, hopen, hdir, hdenied, hwrite, hclose]
    · rw [Table.step, hsome]
      rfl

/-- **Every operation gives the result of the table.** -/
theorem step (stack : DirEntry) {op : DirOp} (hlegal : s.Legal op) :
    ∃ r s' t' H', s.exec stack op = .ok (r, s') ∧ t.step data.entries op = (r, t') ∧
      Inv data H' m rest denials s' t' := by
  cases op with
  | add name k =>
    obtain ⟨r, s', t', hexec, hstep, hinv⟩ := h.add stack name hlegal
    exact ⟨r, s', t', H, hexec, hstep, hinv⟩
  | remove name => exact h.remove stack name
  | lookup name =>
    obtain ⟨r, s', t', hexec, hstep, hinv⟩ := h.lookup stack name
    exact ⟨r, s', t', H, hexec, hstep, hinv⟩
  | close inode => exact h.close stack hlegal

/-- **Every sequence of operations gives the results of the table.** -/
theorem run (stack : DirEntry) {ops : List DirOp}
    {rs : List DirResult} (hrun : s.run stack ops = some (rs, s')) :
    (t.run data.entries ops).1 = rs ∧
      ∃ H', Inv data H' m rest denials s' (t.run data.entries ops).2 := by
  induction ops generalizing s t H rs with
  | nil =>
    cases hrun
    exact ⟨rfl, H, h⟩
  | cons op ops ih =>
    rw [DirSys.run] at hrun
    split at hrun
    next hlegal =>
      obtain ⟨r, s₁, t₁, H₁, hexec, hstep, hinv⟩ := h.step stack hlegal
      rw [hexec] at hrun
      obtain ⟨⟨rs', s₂⟩, hrest, heq⟩ := map_eq_some_iff.mp hrun
      cases heq
      obtain ⟨hrs, hinv'⟩ := ih hinv hrest
      simp only [Table.run, hstep]
      exact ⟨congrArg _ hrs, hinv'⟩
    next => cases hrun

end

end Inv

/-! ## a new directory -/

/-- A capacity for which the product does not wrap around is the number of entries. -/
theorem Created.inv {s : DirSys} (h : s.Created entryCnt) (hcnt : entryCnt * direntSize < 2 ^ 32) :
    ∃ data H m rest denials, Inv data H m rest denials s [] ∧ data.entries = entryCnt := by
  obtain ⟨fs₀, fs₁, H, m, refs, denials, sector, hsound, hlt, hused, hnew, hfree, hcreate, hopen,
    hfound, hnodup, hfresh, hremoved⟩ := h
  -- `inode_create` asserts that the length is not negative
  have hlen : entryCnt * direntSize < 2 ^ 31 := by
    by_contra hge
    have hneg : toInt32 (entryCnt * direntSize) < 0 := by
      unfold toInt32
      rw [Nat.mod_eq_of_lt hcnt, if_neg hge]
      omega
    unfold dirCreate Fs.inodeCreate Store.inodeCreate at hcreate
    rw [if_pos hneg] at hcreate
    cases hcreate
  unfold dirCreate at hcreate
  rw [toInt32_of_lt hlen] at hcreate
  obtain hfail | ⟨st, hcreate', hsound₁, -, -, -, hlength, hzeros⟩ :=
    hsound.inodeCreate hlt hused hnew hfree hlen
  · cases hcreate.symm.trans hfail
  cases hcreate.symm.trans hcreate'
  obtain ⟨fs', dir, hrun, hsound₂, hsame, -, hsub, -, hstore, hsector⟩ := hsound₁.inodeOpen (.inr rfl)
  cases hrun.symm.trans hopen
  have hdev : s.fs.dev = st.dev := congrArg Store.dev hstore
  have hentries : (diskInode s.fs.dev sector).entries = entryCnt := by
    rw [hdev, InodeDisk.entries, hlength]
    exact Nat.mul_div_cancel _ (by decide)
  have hunused : ∀ i < (diskInode s.fs.dev sector).entries,
      (slot s.fs.dev (diskInode s.fs.dev sector) i).inUse = false := by
    intro i hi
    refine slot_unused ?_ hi
    rw [hdev, hlength]
    exact hzeros
  have hbindings : bindings s.fs.dev (diskInode s.fs.dev sector) = [] := by
    exact filterMap_eq_nil_iff.mpr fun i hi => bindingAt_of_unused (hunused i (mem_range.mp hi))
  have hopened : s.dir ∈ s.fs.openInodes := hsound₂.mem_open (mem_cons_of_mem _ mem_cons_self)
  -- the directory was not open before
  have hallowed : s.dir ∉ denials := by
    intro hmem
    have hpos := count_pos_iff.mpr hmem
    have hin : s.dir ∈ m :: refs :=
      count_pos_iff.mp (lt_of_lt_of_le hpos (hsound.balanced.le _))
    have hheld := hsound.held _ (hsound.mem_open hin)
    rw [← show _ = (fs₀.inodes s.dir).sector from (hsame _ hin).1, hsector] at hheld
    exact hnew hheld
  refine ⟨diskInode s.fs.dev sector, fun l => H l ∨ l = sector, m, refs, denials, ?_, hentries⟩
  refine ⟨?_, ?_, hallowed, hsound.balanced.le, ?_, ?_, ?_, fun k hk => absurd hk (not_linked_of_unused hunused),
    fun k hk => .inl (hfresh k hk), hnodup, fun a ha hr => ⟨not_linked_of_unused hunused, ?_⟩, ?_, ?_⟩
  · rwa [hfound]
  · rw [hsound₂.data _ hopened, hsector]
  · rw [hsector]
    exact fun heq => hnew (heq ▸ hsound.map_held)
  · rw [hentries, hdev, hlength, mul_comm]
  · exact entries_of_unused hunused
  · obtain ⟨ha', hr', hsector'⟩ := hsub a ha hr
    rw [← hsector']
    exact hremoved a ha' hr'
  · rw [hbindings]
    exact fun b hb => absurd hb not_mem_nil
  · rw [hbindings]

/-- **A directory is a table of at most as many names as it was created for**, as long as the
product that is its size does not wrap around.  After every sequence of operations the results
have been those of the table, every operation that may come next returns, the entries in use have
different names and are as many as the names of the table, and `dir_readdir` from the beginning
enumerates these names. -/
theorem directory_refines {entryCnt : Nat} {s₀ s : DirSys} (h : s₀.Created entryCnt)
    (hcnt : entryCnt * direntSize < 2 ^ 32) (stack : DirEntry) (ops : List DirOp)
    (rs : List DirResult) (hrun : s₀.run stack ops = some (rs, s)) :
    ∃ t : Table, Table.run entryCnt [] ops = (rs, t) ∧ t.Distinct ∧
      (∀ op, s.Legal op → ∃ r s', s.exec stack op = .ok (r, s')) ∧
      (bindings s.fs.dev (s.fs.inodes s.dir).data).Distinct ∧
      (bindings s.fs.dev (s.fs.inodes s.dir).data).Perm t ∧
      ∀ buffer : List UInt8, buffer.length = nameMax + 1 →
        ∃ names, readdirAll s.fs.dev (s.fs.inodes s.dir).data (fun _ => true)
            ((s.fs.inodes s.dir).data.entries + 1) 0 buffer = .ok names ∧
          names.Perm (t.map fun b => b.1.val) ∧ names.Nodup := by
  obtain ⟨data, H, m, rest, denials, hinv, rfl⟩ := h.inv hcnt
  obtain ⟨hrs, H', hinv'⟩ := hinv.run stack hrun
  refine ⟨(Table.run data.entries [] ops).2, Prod.ext hrs rfl, hinv'.distinct, fun op hlegal => ?_,
    ?_, ?_, fun buffer hbuffer => ?_⟩
  · obtain ⟨r, s', -, -, hexec, -, -⟩ := hinv'.step stack hlegal
    exact ⟨r, s', hexec⟩
  · rw [hinv'.dirData]
    exact distinct_bindings hinv'.entries
  · rw [hinv'.dirData]
    exact hinv'.table.symm
  · rw [hinv'.dirData]
    have hall := readdirAll_eq hinv'.onDevice (zero_add _) (Nat.lt_succ_self _) hbuffer
      fun b hb => (hinv'.addable b hb).2
    rw [← range_eq_range'] at hall
    refine ⟨_, hall, hinv'.table.symm.map _, ?_⟩
    have hnodup := distinct_bindings hinv'.entries
    have hinj := hnodup.map Subtype.val_injective
    rwa [List.map_map] at hinj

/-! ## a small directory -/

/-- The name of one letter. -/
def letter (c : UInt8) (hc : c ≠ 0) : CString := ⟨[c], by simpa using hc.symm⟩

/-- A new directory in the file system of `s`, with the inodes of two files to add to it. -/
def make (s : State) (x y : CString) (entryCnt : Nat) : Option DirSys := do
  let a ← names s.fs.dev (diskInode s.fs.dev rootDirSector) x
  let b ← names s.fs.dev (diskInode s.fs.dev rootDirSector) y
  let (fs₀, sector) ← (freeMapAllocate s.fs 1 true).toOption
  let sector ← sector
  let (fs₁, created) ← (dirCreate fs₀ sector entryCnt true true).toOption
  let (fs, dir) ← (inodeOpen fs₁ sector true).toOption
  let dir ← dir
  if a ≠ b ∧ created = true then some ⟨fs, dir, [a, b], []⟩ else none

theorem created_make {L : Layout} {s : State} {x y : CString} {d : DirSys}
    (hinv : s.Inv L) (h : make s x y entryCnt = some d) : d.Created entryCnt := by
  simp only [make, bind_eq_bind, bind_eq_some_iff] at h
  obtain ⟨a, ha, b, hb, ⟨fs₀, free⟩, halloc, sector, rfl, ⟨fs₁, created⟩, hcreate, ⟨fs, opened⟩,
    hopen, dir, rfl, h⟩ := h
  have hfs := hinv.fs
  rw [hfs.root] at ha hb
  split at h
  next hcond =>
    cases h
    obtain ⟨hne, rfl⟩ := hcond
    rcases hfs.allocate with hnone | ⟨f, st, hsome, hinv₀, hoff, hlt, hclear, hmap⟩
    · cases hnone.symm.trans (eq_ok_of_toOption halloc)
    · cases hsome.symm.trans (eq_ok_of_toOption halloc)
      -- the sector has just been marked, and nobody has it
      have hheld : ∀ k, Held (s.fs.withStore st) L.root k ↔ Held s.fs L.root k := fun k =>
        hfs.held_store hoff fun _ => hfs.map_root_disjoint
      have hunowned := hfs.unowned_of_free hclear
      have hlinked : ∀ k, k ∈ [a, b] → Linked s.fs.dev L.root k := by
        intro k hk
        rcases mem_pair.mp hk with rfl | rfl
        · exact linked_of_names ha
        · exact linked_of_names hb
      refine ⟨s.fs.withStore st, fs₁, Held (s.fs.withStore st) L.root, L.mapInode,
        s.handles.map fun file => (s.fs.files file).inode, [], sector, hinv₀.sound, ?_, ?_, ?_, ?_,
        eq_ok_of_toOption hcreate, eq_ok_of_toOption hopen, rfl, ?_, ?_, ?_⟩
      · rwa [hmap]
      · rw [hmap]
        exact FirstFit.fill_of_mem (le_refl sector) (Nat.lt_succ_self sector)
      · exact fun hk => hunowned.inode ((hheld sector).mp hk)
      · intro k hk hcov
        have hk' := (hheld k).mp hk
        rw [hoff.diskInode_eq (hfs.map_apart hk')] at hcov
        exact hunowned.data k hk' hcov
      · simpa using hne
      · intro k hk
        exact (hheld k).mpr (hlinked k hk).held
      · intro c hc hr hmem
        exact (hfs.opened.removed c hc hr).2.2 (hlinked _ hmem)
  next => cases h

/-- A directory on the small device. -/
def small (entryCnt : Nat) : Option DirSys :=
  (runSmall [.create (letter 97 (by decide)) ⟨0, zero_offT⟩,
    .create (letter 98 (by decide)) ⟨0, zero_offT⟩]).bind fun s =>
      make s (letter 97 (by decide)) (letter 98 (by decide)) entryCnt

theorem created_small {d : DirSys} (h : small entryCnt = some d) :
    d.Created entryCnt := by
  obtain ⟨s, hs, hmake⟩ := bind_eq_some_iff.mp h
  obtain ⟨fs, hfs, hrun⟩ := bind_eq_some_iff.mp hs
  obtain ⟨L, hinv⟩ := reach_inv (Machine.Reach.runFrom (.init (formatted_of_toOption hfs)) _ hrun)
  exact created_make hinv hmake

/-- A name is found, it is not added again, and it is removed; another one is added. -/
def smallOps : List DirOp :=
  [.add (letter 120 (by decide)) 4, .lookup (letter 120 (by decide)),
    .add (letter 120 (by decide)) 5, .remove (letter 120 (by decide)),
    .add (letter 121 (by decide)) 5, .lookup (letter 120 (by decide))]

/-- The operations on a directory with one entry. -/
theorem directory_refines_small :
    ∃ s₀ s : DirSys, s₀.Created 1 ∧
      s₀.run blankEntry smallOps =
        some ([.success true, .found (some 4), .success false, .success true, .success true,
          .found none], s) ∧
      ∃ names, readdirAll s.fs.dev (s.fs.inodes s.dir).data (fun _ => true)
          ((s.fs.inodes s.dir).data.entries + 1) 0 (replicate (nameMax + 1) 0) = .ok names ∧
        names.Perm [[121]] := by
  have hsmall : ((small 1).bind fun s₀ => (s₀.run blankEntry smallOps).map fun p =>
      decide (p.1 = [.success true, .found (some 4), .success false, .success true,
        .success true, .found none])) = some true := by
    decide +kernel
  obtain ⟨s₀, hs₀, hrun⟩ := bind_eq_some_iff.mp hsmall
  obtain ⟨⟨rs, s⟩, hrun, hrs⟩ := map_eq_some_iff.mp hrun
  obtain rfl : rs = _ := of_decide_eq_true hrs
  have hcreated := created_small hs₀
  obtain ⟨t, htable, -, -, -, -, hread⟩ :=
    directory_refines hcreated (by decide) blankEntry smallOps _ hrun
  obtain ⟨names, hnames, hperm, -⟩ := hread (replicate (nameMax + 1) 0) rfl
  have htable' : Table.run 1 [] smallOps = ([.success true, .found (some 4), .success false,
      .success true, .success true, .found none], [(letter 121 (by decide), 5)]) := by
    decide +kernel
  have ht : t = [(letter 121 (by decide), 5)] := congrArg Prod.snd (htable.symm.trans htable')
  rw [ht] at hperm
  exact ⟨s₀, s, hcreated, hrun, names, hnames, hperm⟩

/-- **A directory for 214748365 entries has room for none**: their size is `2 ^ 32 + 4` bytes, and
`dir_create` makes a directory of 4. -/
theorem directory_wraps :
    ∃ s₀ s : DirSys, s₀.Created 214748365 ∧ s₀.Legal (.add (letter 120 (by decide)) 4) ∧
      bindings s₀.fs.dev (s₀.fs.inodes s₀.dir).data = [] ∧
      s₀.exec blankEntry (.add (letter 120 (by decide)) 4) = .ok (.success false, s) ∧
      Table.step 214748365 [] (.add (letter 120 (by decide)) 4) =
        (.success true, [(letter 120 (by decide), 4)]) := by
  have hsmall : ((small 214748365).bind fun s₀ =>
      (s₀.exec blankEntry (.add (letter 120 (by decide)) 4)).toOption.map fun p =>
        decide (s₀.Legal (.add (letter 120 (by decide)) 4) ∧
          bindings s₀.fs.dev (s₀.fs.inodes s₀.dir).data = [] ∧ p.1 = .success false)) =
      some true := by
    decide +kernel
  obtain ⟨s₀, hs₀, hexec⟩ := bind_eq_some_iff.mp hsmall
  obtain ⟨⟨r, s⟩, hexec, hp⟩ := map_eq_some_iff.mp hexec
  obtain ⟨hlegal, hnone, rfl⟩ := of_decide_eq_true hp
  exact ⟨s₀, s, created_small hs₀, hlegal, hnone, eq_ok_of_toOption hexec, by decide +kernel⟩

end DirSys

end Pintos.Fs
