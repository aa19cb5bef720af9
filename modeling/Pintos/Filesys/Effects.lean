import Pintos.Filesys.Format

/-!
# Pintos.Filesys.Effects

What one operation does to the names, the bytes of the files and the open files
(`Effect`), for every operation on a file system with any files open (`exec_effect`).

A file is known by the sector of its inode.  `Kept` is what an operation leaves alone;
every outcome of an operation is one constructor of `Effect`.
-/

namespace Pintos.Fs

open Bytes State
open Function List

variable {L : Layout} {s s' : State} {fs' : FileSys} {stack : DirEntry} {op : Op} {r : Result}
  {g : CString → Option Nat} {new written moved : Nat → Prop} {file k : Nat}

/-! ## the open files -/

/-- The sector of the inode of an open file. -/
def State.sectorOf (s : State) (file : Nat) : Nat :=
  (s.fs.inodes (s.fs.files file).inode).sector

/-- The references to inodes: the one of the free-map file, and one for each open file. -/
def State.refs (L : Layout) (s : State) : List Nat :=
  L.mapInode :: s.handles.map fun file => (s.fs.files file).inode

/-- The sector has the inode of a file. -/
structure State.IsFile (L : Layout) (s : State) (sector : Nat) : Prop where
  held : Held s.fs L.root sector
  notMap : sector ≠ freeMapSector
  notRoot : sector ≠ rootDirSector

/-- The invariant of the file system and its open files. -/
structure State.Inv (L : Layout) (s : State) : Prop where
  fs : Fs.Inv L (s.refs L) s.fs
  nodup : s.handles.Nodup
  lt : ∀ file ∈ s.handles, file < s.fs.next
  notMapFile : ∀ file ∈ s.handles, file ≠ L.mapFile
  allowed : ∀ file ∈ s.handles, (s.fs.files file).denyWrite = false
  notMap : ∀ file ∈ s.handles, s.sectorOf file ≠ freeMapSector
  notRoot : ∀ file ∈ s.handles, s.sectorOf file ≠ rootDirSector

theorem mem_refs (h : file ∈ s.handles) : (s.fs.files file).inode ∈ s.refs L :=
  mem_cons_of_mem _ (mem_map_of_mem h)

namespace State.Inv

theorem onFile (h : s.Inv L) (hfile : file ∈ s.handles) :
    Fs.Inv.OnFile (s.refs L) s.fs file (s.sectorOf file) :=
  ⟨mem_refs hfile, rfl, h.notMap file hfile, h.notRoot file hfile⟩

theorem isFile (h : s.Inv L) (hfile : file ∈ s.handles) : s.IsFile L (s.sectorOf file) :=
  ⟨(h.fs.onFile_data (h.onFile hfile)).1, h.notMap file hfile, h.notRoot file hfile⟩

theorem isFile_of_names {name : CString} (h : s.Inv L)
    (hname : names s.fs.dev L.root name = some k) :
    s.IsFile L k := by
  have hlink := linked_of_names hname
  exact ⟨hlink.held, (h.fs.fixed k hlink).1, (h.fs.fixed k hlink).2⟩

end State.Inv

/-! ## what an operation leaves alone -/

/-- The names become `g`; only the sectors `new` become files, only the files `written` get
other bytes, and only the open files `moved` another position. -/
structure Kept (L : Layout) (s s' : State) (g : CString → Option Nat)
    (new written moved : Nat → Prop) : Prop where
  inv : s'.Inv L
  names : names s'.fs.dev L.root = g
  isFile : ∀ k, s'.IsFile L k → s.IsFile L k ∨ new k
  bytes : ∀ k, s.IsFile L k → ¬ written k → fileBytes s'.fs.dev k = fileBytes s.fs.dev k
  sector : ∀ file ∈ s.handles, file ∈ s'.handles → s'.sectorOf file = s.sectorOf file
  pos : ∀ file ∈ s.handles, file ∈ s'.handles → ¬ moved file →
    (s'.fs.files file).pos = (s.fs.files file).pos

/-- No sector, or no file. -/
abbrev nothing (_ : Nat) : Prop := False

section

variable (h : s.Inv L)
include h

/-- An operation on the directory, after which the files `hs` are open. -/
theorem Kept.of_changes {hs : List Nat} (hsub : hs.Sublist s.handles)
    (hc : Changes L (refs L ⟨s.fs, hs⟩) s.fs fs' g new) :
    Kept L s ⟨fs', hs⟩ g new nothing nothing := by
  have hmem : ∀ file ∈ hs, file ∈ s.handles := fun file hfile => hsub.mem hfile
  have hsector : ∀ file ∈ hs, sectorOf ⟨fs', hs⟩ file = s.sectorOf file := by
    intro file hfile
    change (fs'.inodes (fs'.files file).inode).sector = s.sectorOf file
    rw [hc.same.files]
    exact hc.same.sector _ (mem_cons_of_mem _ (mem_map_of_mem hfile))
  have hrefs : refs L ⟨fs', hs⟩ = refs L ⟨s.fs, hs⟩ := by
    change _ :: hs.map (fun file => (fs'.files file).inode) = _
    rw [hc.same.files]
    rfl
  refine ⟨⟨?_, h.nodup.sublist hsub, ?_, ?_, ?_, ?_, ?_⟩, hc.names, ?_, ?_, ?_, ?_⟩
  · rw [hrefs]
    exact hc.inv
  · exact fun file hfile => (h.lt file (hmem file hfile)).trans_le hc.same.next
  · exact fun file hfile => h.notMapFile file (hmem file hfile)
  · intro file hfile
    rw [hc.same.files]
    exact h.allowed file (hmem file hfile)
  · intro file hfile
    rw [hsector file hfile]
    exact h.notMap file (hmem file hfile)
  · intro file hfile
    rw [hsector file hfile]
    exact h.notRoot file (hmem file hfile)
  · rintro k ⟨hheld, hmap, hroot⟩
    exact (hc.held k hheld).imp_left fun hk => ⟨hk, hmap, hroot⟩
  · intro k hk _
    exact (h.fs.fileBytes_eq hc.off hk.held hk.notMap hk.notRoot).2
  · exact fun file _ hfile => hsector file hfile
  · intro file _ _ _
    rw [hc.same.files]

/-- The position of a file is set. -/
abbrev FileSys.setPos (s : FileSys) (file pos : Nat) : FileSys :=
  s.setFile file { s.files file with pos := pos }

omit h in
theorem setPos_files (s : FileSys) (file pos f : Nat) :
    ((s.setPos file pos).files f).inode = (s.files f).inode ∧
      ((s.setPos file pos).files f).denyWrite = (s.files f).denyWrite := by
  change (update s.files file _ f).inode = _ ∧
    (update s.files file _ f).denyWrite = _
  by_cases hf : f = file
  · rw [hf, update_self]
    exact ⟨rfl, rfl⟩
  · rw [update_of_ne hf]
    exact ⟨rfl, rfl⟩

theorem Kept.of_opens {f : Nat} (ho : Opens L (s.refs L) s.fs fs' file f) (hf : s.IsFile L f) :
    file ∉ s.handles ∧ Kept L s ⟨fs', file :: s.handles⟩ (Fs.names s.fs.dev L.root) nothing nothing
      nothing := by
  have hnew : file ∉ s.handles := fun hmem => absurd (h.lt file hmem) (not_lt.mpr ho.ge)
  have hfiles : ∀ c ∈ s.handles, fs'.files c = s.fs.files c :=
    fun c hc => ho.files c fun heq => hnew (heq ▸ hc)
  have hsector : ∀ c ∈ s.handles, sectorOf ⟨fs', file :: s.handles⟩ c = s.sectorOf c := by
    intro c hc
    change (fs'.inodes (fs'.files c).inode).sector = s.sectorOf c
    rw [hfiles c hc]
    exact ho.sector _ (mem_refs hc)
  have hrefs : ((fs'.files file).inode :: s.refs L).Perm
      (refs L ⟨fs', file :: s.handles⟩) := by
    have hmap : s.handles.map (fun c => (fs'.files c).inode) =
        s.handles.map fun c => (s.fs.files c).inode :=
      map_congr_left fun c hc => by rw [hfiles c hc]
    change Perm _ (L.mapInode :: (fs'.files file).inode :: s.handles.map _)
    rw [hmap]
    exact .swap ..
  refine ⟨hnew, ⟨ho.inv.perm hrefs, nodup_cons.mpr ⟨hnew, h.nodup⟩, ?_, ?_, ?_, ?_, ?_⟩,
    ho.names, ?_, ?_, ?_, ?_⟩
  · rw [forall_mem_cons]
    exact ⟨ho.lt, fun c hc => (h.lt c hc).trans_le ho.next⟩
  · rw [forall_mem_cons]
    exact ⟨fun heq => absurd h.fs.mapLt (not_lt.mpr (heq ▸ ho.ge)), h.notMapFile⟩
  · rw [forall_mem_cons]
    refine ⟨ho.allowed, fun c hc => ?_⟩
    rw [hfiles c hc]
    exact h.allowed c hc
  · rw [forall_mem_cons]
    refine ⟨fun heq => hf.notMap (ho.target.symm.trans heq), fun c hc => ?_⟩
    rw [hsector c hc]
    exact h.notMap c hc
  · rw [forall_mem_cons]
    refine ⟨fun heq => hf.notRoot (ho.target.symm.trans heq), fun c hc => ?_⟩
    rw [hsector c hc]
    exact h.notRoot c hc
  · exact fun k hk => .inl ⟨ho.held k hk.held, hk.notMap, hk.notRoot⟩
  · exact fun k hk _ => (h.fs.fileBytes_eq ho.off hk.held hk.notMap hk.notRoot).2
  · exact fun c hc _ => hsector c hc
  · intro c hc _ _
    rw [hfiles c hc]

/-- Reading from an open file, writing to it and seeking in it: the device becomes `dev'`. -/
theorem Kept.moves {dev' : Device} {pos : Nat} (hfile : file ∈ s.handles)
    (hinv : Fs.Inv L (s.refs L) { s.fs with dev := dev' })
    (hoff : Device.Off (diskInode s.fs.dev (s.sectorOf file)).Covers s.fs.dev dev') :
    Kept L s { s with fs := { s.fs.setPos file pos with dev := dev' } }
      (Fs.names s.fs.dev L.root) nothing (· = s.sectorOf file) (· = file) := by
  obtain ⟨hheld, -, hroot⟩ := h.isFile hfile
  have hout : ∀ k, L.root.Covers k → ¬ (diskInode s.fs.dev (s.sectorOf file)).Covers k := by
    intro x hx hcov
    rw [← h.fs.root] at hx
    exact hroot (h.fs.owned.disjoint _ rootDirSector x hheld held_root_dir hcov hx)
  have hslots := hoff.sameSlots h.fs.root_length_lt hout
  have hsector : ∀ f, sectorOf { s with fs := { s.fs.setPos file pos with dev := dev' } } f =
      s.sectorOf f := by
    intro f
    exact congrArg (fun a => (s.fs.inodes a).sector) (setPos_files s.fs file pos f).1
  have hrefs : refs L { s with fs := { s.fs.setPos file pos with dev := dev' } } =
      s.refs L :=
    congrArg (cons _) (map_congr_left fun f _ => (setPos_files s.fs file pos f).1)
  refine ⟨⟨?_, h.nodup, h.lt, h.notMapFile, ?_, ?_, ?_⟩, hslots.names, ?_, ?_, ?_, ?_⟩
  · rw [hrefs]
    exact hinv.setFile fun heq => absurd heq (h.notMapFile file hfile)
  · exact fun f hf => (setPos_files s.fs file pos f).2.trans (h.allowed f hf)
  · intro f hf
    rw [hsector f]
    exact h.notMap f hf
  · intro f hf
    rw [hsector f]
    exact h.notRoot f hf
  · rintro k ⟨hk, hmap, hroot⟩
    have hk' : Held (s.fs.withStore ⟨dev', s.fs.freeMap⟩) L.root k := hk
    exact .inl ⟨(h.fs.held_store hoff hout).mp hk', hmap, hroot⟩
  · exact fun k hk hne => (h.fs.owned.fileBytes_eq hheld hk.held hne hoff).2
  · exact fun f _ _ => hsector f
  · intro f _ _ hne
    change (update s.fs.files file _ f).pos = _
    rw [update_of_ne hne]

theorem Kept.setPos {pos : Nat} (hfile : file ∈ s.handles) :
    Kept L s { s with fs := s.fs.setPos file pos } (Fs.names s.fs.dev L.root) nothing nothing
      (· = file) :=
  { Kept.moves h hfile h.fs (.refl _ _) with bytes := fun _ _ _ => rfl }

/-! ## the outcomes -/

/-- **What an operation does**, for each result it can have. -/
inductive Effect (L : Layout) (s s' : State) : Op → Result → Prop
  | createFailed {name : CString} {initialSize : OffT} :
      s'.handles = s.handles →
      Kept L s s' (names s.fs.dev L.root) nothing nothing nothing →
      Effect L s s' (.create name initialSize) (.success false)
  | create {name : CString} {initialSize : OffT} (f : Nat) :
      s'.handles = s.handles → 0 ≤ initialSize.val →
      names s.fs.dev L.root name = none → ¬ s.IsFile L f →
      Kept L s s' (update (names s.fs.dev L.root) name (some f)) (· = f) nothing nothing →
      fileBytes s'.fs.dev f = replicate initialSize.val.toNat 0 →
      Effect L s s' (.create name initialSize) (.success true)
  | openNone {name : CString} :
      s'.handles = s.handles →
      names s.fs.dev L.root name = none →
      Kept L s s' (names s.fs.dev L.root) nothing nothing nothing →
      Effect L s s' (.open name) (.file none)
  | openSome {name : CString} {file f : Nat} :
      s'.handles = file :: s.handles → file ∉ s.handles →
      names s.fs.dev L.root name = some f →
      Kept L s s' (names s.fs.dev L.root) nothing nothing nothing →
      s'.sectorOf file = f → (s'.fs.files file).pos = 0 →
      Effect L s s' (.open name) (.file (some file))
  | remove {name : CString} :
      s'.handles = s.handles →
      Kept L s s' (update (names s.fs.dev L.root) name none) nothing nothing nothing →
      Effect L s s' (.remove name) (.success (names s.fs.dev L.root name).isSome)
  | read {file : Nat} {size : OffT} {bs : List UInt8} :
      file ∈ s.handles → s'.handles = s.handles →
      bs = ((fileBytes s.fs.dev (s.sectorOf file)).drop (s.fs.files file).pos).take size.val.toNat →
      Kept L s s' (names s.fs.dev L.root) nothing nothing (· = file) →
      (s'.fs.files file).pos = (s.fs.files file).pos + bs.length →
      Effect L s s' (.read file size) (.bytes bs)
  | write {file n : Nat} {buffer : List UInt8} :
      file ∈ s.handles → s'.handles = s.handles →
      n = min buffer.length
        ((fileBytes s.fs.dev (s.sectorOf file)).length - (s.fs.files file).pos) →
      Kept L s s' (names s.fs.dev L.root) nothing (· = s.sectorOf file) (· = file) →
      fileBytes s'.fs.dev (s.sectorOf file) =
        patch (fileBytes s.fs.dev (s.sectorOf file)) (s.fs.files file).pos (buffer.take n) →
      (s'.fs.files file).pos = (s.fs.files file).pos + n →
      Effect L s s' (.write file buffer) (.written n)
  | seek {file : Nat} {newPos : OffT} :
      file ∈ s.handles → s'.handles = s.handles → 0 ≤ newPos.val →
      Kept L s s' (names s.fs.dev L.root) nothing nothing (· = file) →
      (s'.fs.files file).pos = newPos.val.toNat →
      Effect L s s' (.seek file newPos) .none
  | close {file : Nat} :
      file ∈ s.handles → s'.handles = s.handles.erase file →
      Kept L s s' (names s.fs.dev L.root) nothing nothing nothing →
      Effect L s s' (.close file) .none

omit h in
theorem Effect.inv (h : Effect L s s' op r) : s'.Inv L := by
  cases h with
  | createFailed _ hk => exact hk.inv
  | create _ _ _ _ _ hk => exact hk.inv
  | openNone _ _ hk => exact hk.inv
  | openSome _ _ _ hk => exact hk.inv
  | remove _ hk => exact hk.inv
  | read _ _ _ hk => exact hk.inv
  | write _ _ _ hk => exact hk.inv
  | seek _ _ _ hk => exact hk.inv
  | close _ _ hk => exact hk.inv

/-- The operations that stop at an `ASSERT`: a negative size or position. -/
def Op.Negative : Op → Prop
  | .create _ initialSize => initialSize.val < 0
  | .seek _ newPos => newPos.val < 0
  | _ => False

/-- The operation returns with one of the outcomes, or stops at the `ASSERT` for a negative
argument. -/
def Runs (L : Layout) (stack : DirEntry) (s : State) (op : Op) : Prop :=
  (∃ s' r, s.exec (.plenty stack) op = .ok (s', r) ∧ Effect L s s' op r) ∨
    op.Negative ∧ ∃ e, s.exec (.plenty stack) op = .error e ∧ e ≠ .freeMap

theorem runs_create (name : CString) (initialSize : OffT) :
    Runs L stack s (.create name initialSize) := by
  have hfailed : ∀ fs', filesysCreate s.fs name initialSize (.plenty stack) = .ok (fs', false) →
      Changes L (s.refs L) s.fs fs' (names s.fs.dev L.root) (fun _ => False) →
      Runs L stack s (.create name initialSize) := by
    intro fs' heq hc
    refine .inl ⟨{ s with fs := fs' }, .success false, ?_, .createFailed rfl (.of_changes h (.refl _) hc)⟩
    rw [exec, heq]
    rfl
  by_cases hsize : 0 ≤ initialSize.val
  · rcases h.fs.filesysCreate name initialSize hsize stack with ⟨fs', heq, hc⟩ |
      ⟨fs', f, heq, hc, hnone, hnew, hzeros⟩
    · exact hfailed fs' heq hc
    · refine .inl ⟨{ s with fs := fs' }, .success true, ?_,
        .create f rfl hsize hnone (fun hf => hnew hf.held) (.of_changes h (.refl _) hc) hzeros⟩
      rw [exec, heq]
      rfl
  · rcases h.fs.filesysCreate_neg name initialSize (Int.not_le.mp hsize) stack with
      ⟨fs', heq, hc⟩ | herr
    · exact hfailed fs' heq hc
    · refine .inr ⟨Int.not_le.mp hsize, .length, ?_, nofun⟩
      rw [exec, herr]
      rfl

theorem runs_open (name : CString) : Runs L stack s (.open name) := by
  cases hname : names s.fs.dev L.root name with
  | none =>
    obtain ⟨fs', heq, hc⟩ := h.fs.filesysOpen_none stack hname
    refine .inl ⟨{ s with fs := fs' }, .file none, ?_, .openNone rfl hname (.of_changes h (.refl _) hc)⟩
    rw [exec, heq]
    rfl
  | some f =>
    obtain ⟨fs', file, heq, ho⟩ := h.fs.filesysOpen_some stack hname
    refine .inl ⟨⟨fs', file :: s.handles⟩, .file (some file), ?_, ?_⟩
    · rw [exec, heq]
      rfl
    · obtain ⟨hnew, hkept⟩ := Kept.of_opens h ho (h.isFile_of_names hname)
      exact .openSome rfl hnew hname hkept ho.target ho.pos

theorem runs_remove (name : CString) : Runs L stack s (.remove name) := by
  obtain ⟨fs', heq, hc⟩ := h.fs.filesysRemove name stack
  refine .inl ⟨{ s with fs := fs' }, .success _, ?_, .remove rfl (.of_changes h (.refl _) hc)⟩
  rw [exec, heq]
  rfl

theorem runs_read (hfile : file ∈ s.handles) (size : OffT) : Runs L stack s (.read file size) := by
  have heq := h.fs.fileRead (h.onFile hfile) size
  obtain ⟨bs, hbs⟩ : ∃ bs, bs = ((fileBytes s.fs.dev (s.sectorOf file)).drop
      (s.fs.files file).pos).take size.val.toNat := ⟨_, rfl⟩
  rw [← hbs] at heq
  refine .inl ⟨{ s with fs := s.fs.setPos file ((s.fs.files file).pos + bs.length) }, .bytes bs, ?_,
    .read hfile rfl hbs (.setPos h hfile) ?_⟩
  · rw [exec, plenty_inode, heq]
    rfl
  · change (update s.fs.files file _ file).pos = _
    rw [update_self]

theorem runs_write (hfile : file ∈ s.handles) (buffer : List UInt8) :
    Runs L stack s (.write file buffer) := by
  obtain ⟨dev', heq, hinv, hoff, hbytes⟩ := h.fs.fileWrite (h.onFile hfile) buffer
  obtain ⟨n, hn⟩ : ∃ n, n = min buffer.length
      ((fileBytes s.fs.dev (s.sectorOf file)).length - (s.fs.files file).pos) := ⟨_, rfl⟩
  rw [← hn] at heq
  rw [take_eq_take_min, Nat.min_comm, ← hn] at hbytes
  refine .inl ⟨{ s with
      fs := { s.fs.setPos file ((s.fs.files file).pos + n) with dev := dev' } }, .written n, ?_,
    .write hfile rfl hn (.moves h hfile hinv hoff) hbytes ?_⟩
  · rw [exec, plenty_inode, heq]
    rfl
  · change (update s.fs.files file _ file).pos = _
    rw [update_self]

theorem runs_seek (hfile : file ∈ s.handles) (newPos : OffT) :
    Runs L stack s (.seek file newPos) := by
  by_cases hpos : 0 ≤ newPos.val
  · refine .inl ⟨{ s with fs := s.fs.setPos file newPos.val.toNat }, .none, ?_,
      .seek hfile rfl hpos (.setPos h hfile) ?_⟩
    · rw [exec, fileSeek, if_pos hpos]
      rfl
    · change (update s.fs.files file _ file).pos = _
      rw [update_self]
  · refine .inr ⟨Int.not_le.mp hpos, .newPos, ?_, nofun⟩
    rw [exec, fileSeek, if_neg hpos]
    rfl

theorem runs_close (hfile : file ∈ s.handles) : Runs L stack s (.close file) := by
  have hperm : (s.refs L).Perm ((s.fs.files file).inode :: refs L ⟨s.fs, s.handles.erase file⟩) := by
    refine .trans (.cons _ ((perm_cons_erase hfile).map _)) ?_
    exact .swap ..
  obtain ⟨fs', heq, hc⟩ := (h.fs.perm hperm).fileClose mem_cons_self (h.allowed file hfile)
  refine .inl ⟨⟨fs', s.handles.erase file⟩, .none, ?_,
    .close hfile rfl (.of_changes h erase_sublist hc)⟩
  rw [exec, plenty_map, plenty_map, heq]
  rfl

/-- **Every operation on open files has one of the outcomes.** -/
theorem exec_effect (hlegal : s.Legal op) : Runs L stack s op := by
  cases op with
  | create name initialSize => exact runs_create h name initialSize
  | «open» name => exact runs_open h name
  | remove name => exact runs_remove h name
  | read file size => exact runs_read h hlegal size
  | write file buffer => exact runs_write h hlegal buffer
  | seek file newPos => exact runs_seek h hlegal newPos
  | close file => exact runs_close h hlegal

end

/-! ## runs -/

theorem Formatted.inv (h : Formatted (.plenty stack) s) : ∃ L, s.Inv L ∧ ∀ k, ¬ s.IsFile L k := by
  obtain ⟨hnil, dev, junk, hsize, hinit⟩ := h
  obtain ⟨L, hinv, hlinked⟩ := filesysInit_inv hsize hinit
  have hnone : ∀ {P : Nat → Prop}, ∀ file ∈ s.handles, P file := by
    intro P file hfile
    rw [hnil] at hfile
    cases hfile
  refine ⟨L, ⟨?_, hnil ▸ nodup_nil, hnone, hnone, hnone, hnone, hnone⟩, ?_⟩
  · rwa [refs, hnil]
  · rintro k ⟨heq | heq | hlink | ⟨a, ha, hr, hsector⟩, hmap, hroot⟩
    · exact hmap heq
    · exact hroot heq
    · exact hlinked k hlink
    · -- only the free map is open, and it is not removed
      have hself : a = L.mapInode := mem_singleton.mp ((hinv.opened.mem a).mp ha)
      exact (hinv.opened.removed a ha hr).1 (hself ▸ hinv.mapSector)

theorem machine_step (h : (machine (.plenty stack)).step s op = some s') :
    s.Legal op ∧ ∃ r, s.exec (.plenty stack) op = .ok (s', r) := by
  unfold machine at h
  dsimp only at h
  split at h
  · next hlegal =>
    refine ⟨hlegal, ?_⟩
    split at h
    · next s₁ r heq =>
      cases h
      exact ⟨r, heq⟩
    · cases h
  · cases h

theorem effect_of_exec (h : s.Inv L) (hlegal : s.Legal op)
    (hexec : s.exec (.plenty stack) op = .ok (s', r)) : Effect L s s' op r := by
  rcases exec_effect h hlegal with ⟨s₁, r₁, heq, heffect⟩ | ⟨-, e, herr, -⟩
  · cases heq.symm.trans hexec
    exact heffect
  · cases herr.symm.trans hexec

/-- **The invariant in every state reached.** -/
theorem reach_inv (h : (machine (.plenty stack)).Reach s) : ∃ L, s.Inv L := by
  induction h with
  | init h =>
    obtain ⟨L, hinv, -⟩ := h.inv
    exact ⟨L, hinv⟩
  | step _ _ hstep ih =>
    obtain ⟨L, hinv⟩ := ih
    obtain ⟨hlegal, r, hexec⟩ := machine_step hstep
    exact ⟨L, (effect_of_exec hinv hlegal hexec).inv⟩

/-! ## concrete runs -/

/-- A device of 8 sectors. -/
def smallDevice : Device := ⟨8, fun _ => 0⟩

/-- What is on the stack before an entry is written there. -/
def blankEntry : DirEntry := ⟨0, replicate (nameMax + 1) 0, false⟩

/-- The file name `a`. -/
def nameA : CString := ⟨[97], by decide⟩

/-- Operations on the small device after it has been formatted. -/
def runSmall (ops : List Op) : Option State :=
  (filesysInit smallDevice (fun _ => true) (.plenty blankEntry)).toOption.bind fun fs =>
    (machine (.plenty blankEntry)).runFrom ⟨fs, []⟩ ops

theorem formatted_of_toOption {fs : FileSys}
    (h : (filesysInit smallDevice (fun _ => true) (.plenty blankEntry)).toOption = some fs) :
    Formatted (.plenty blankEntry) ⟨fs, []⟩ := by
  exact ⟨rfl, smallDevice, fun _ => true, by decide, eq_ok_of_toOption h⟩

theorem exists_reach_of_runSmall (ops : List Op) (P : State → Prop) [DecidablePred P]
    (h : (runSmall ops).any (P ·) = true) : ∃ s, (machine (.plenty blankEntry)).Reach s ∧ P s := by
  obtain ⟨s, hs, hp⟩ := (Option.any_eq_true ..).mp h
  obtain ⟨fs, hfs, hrun⟩ := Option.bind_eq_some_iff.mp hs
  exact ⟨s, .runFrom (.init (formatted_of_toOption hfs)) ops hrun, of_decide_eq_true hp⟩

end Pintos.Fs

