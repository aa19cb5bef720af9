import Pintos.Filesys.File

/-!
# Pintos.Filesys.Inodes

The inode layer on its own, for any set of inodes in use.

`Owned` says that the sectors in `H` have inodes whose sectors are marked in the free map and do
not overlap.  `Sound s H m refs denials` adds that every open inode is in one of them, that `m` is
the inode of the free-map file, and that the counters count `refs` and `denials`.  Opening, marking
and closing an inode keep it; the last opener of a removed inode takes its sector out of `H`.
-/

namespace Pintos.Fs

open Bytes FirstFit Function List Option Device

variable {s s' : FileSys} {H H' W : Nat → Prop} {m a k f : Nat} {refs refs' denials : List Nat}
  {st st' : Store} {x n : Nat} {inode i : Inode}

/-! ## sectors -/

/-- The inodes in the sectors `held` and their data extents are in use, and no sector is
used twice. -/
structure Owned (st : Store) (held : Nat → Prop) : Prop where
  lt : ∀ k, held k → k < st.freeMap.bitCnt
  used : ∀ k, held k → st.freeMap.bits k = true
  fits : ∀ k, held k → (diskInode st.dev k).start + bytesToSectors (diskInode st.dev k).length ≤
    st.freeMap.bitCnt
  dataUsed : ∀ k x, held k → (diskInode st.dev k).Covers x → st.freeMap.bits x = true
  apart : ∀ k l, held k → held l → ¬ (diskInode st.dev k).Covers l
  disjoint : ∀ k l x, held k → held l → (diskInode st.dev k).Covers x →
    (diskInode st.dev l).Covers x → k = l

namespace Owned

theorem mono (h : Owned st H) (hsub : ∀ k, H' k → H k) : Owned st H' where
  lt k hk := h.lt k (hsub k hk)
  used k hk := h.used k (hsub k hk)
  fits k hk := h.fits k (hsub k hk)
  dataUsed k x hk := h.dataUsed k x (hsub k hk)
  apart k l hk hl := h.apart k l (hsub k hk) (hsub l hl)
  disjoint k l x hk hl := h.disjoint k l x (hsub k hk) (hsub l hl)

/-- The device changes outside the sectors of the inodes, and their bits stay. -/
theorem off (h : Owned st H) (hoff : Off W st.dev st'.dev)
    (hbitCnt : st'.freeMap.bitCnt = st.freeMap.bitCnt) (hheld : ∀ k, H k → ¬ W k)
    (hbits : ∀ k, H k → ∀ x, x = k ∨ (diskInode st.dev k).Covers x →
      st.freeMap.bits x = true → st'.freeMap.bits x = true) : Owned st' H := by
  have hinode : ∀ k, H k → diskInode st'.dev k = diskInode st.dev k :=
    fun k hk => hoff.diskInode_eq (hheld k hk)
  constructor
  · intro k hk
    rw [hbitCnt]
    exact h.lt k hk
  · intro k hk
    exact hbits k hk k (.inl rfl) (h.used k hk)
  · intro k hk
    rw [hbitCnt, hinode k hk]
    exact h.fits k hk
  · intro k x hk hx
    rw [hinode k hk] at hx
    exact hbits k hk x (.inr hx) (h.dataUsed k x hk hx)
  · intro k l hk hl
    rw [hinode k hk]
    exact h.apart k l hk hl
  · intro k l x hk hl
    rw [hinode k hk, hinode l hl]
    exact h.disjoint k l x hk hl

theorem insert (h : Owned st H) (hlt : f < st.freeMap.bitCnt)
    (hfits : (diskInode st.dev f).start + bytesToSectors (diskInode st.dev f).length ≤
      st.freeMap.bitCnt)
    (hused : st.freeMap.bits f = true)
    (hdata : ∀ x, (diskInode st.dev f).Covers x → st.freeMap.bits x = true ∧ x ≠ f)
    (hfree : ∀ k, H k → k ≠ f ∧ ¬ (diskInode st.dev k).Covers f ∧
      ∀ x, (diskInode st.dev f).Covers x → x ≠ k ∧ ¬ (diskInode st.dev k).Covers x) :
    Owned st (fun k => H k ∨ k = f) := by
  constructor
  · rintro k (hk | rfl)
    · exact h.lt k hk
    · exact hlt
  · rintro k (hk | rfl)
    · exact h.used k hk
    · exact hused
  · rintro k (hk | rfl)
    · exact h.fits k hk
    · exact hfits
  · rintro k x (hk | rfl) hx
    · exact h.dataUsed k x hk hx
    · exact (hdata x hx).1
  · rintro k l (hk | rfl) (hl | rfl) hx
    · exact h.apart k l hk hl hx
    · exact (hfree k hk).2.1 hx
    · exact ((hfree l hl).2.2 l hx).1 rfl
    · exact (hdata _ hx).2 rfl
  · rintro k l x (hk | rfl) (hl | rfl) hx hx'
    · exact h.disjoint k l x hk hl hx hx'
    · exact absurd hx ((hfree k hk).2.2 x hx').2
    · exact absurd hx' ((hfree l hl).2.2 x hx).2
    · rfl

theorem alone (h : Owned st H) (hk : H k) (hx : (diskInode st.dev k).Covers x) :
    st.freeMap.bits x = true ∧ x ≠ k := by
  refine ⟨h.dataUsed k x hk hx, ?_⟩
  rintro rfl
  exact h.apart _ _ hk hk hx

theorem outside (h : Owned st H) (hk : H k) {l : Nat} (hl : H l) (hne : l ≠ k)
    (hx : x = l ∨ (diskInode st.dev l).Covers x) : x ≠ k ∧ ¬ (diskInode st.dev k).Covers x := by
  rcases hx with rfl | hx
  · exact ⟨hne, h.apart k _ hk hl⟩
  · refine ⟨?_, fun hx' => hne (h.disjoint l k x hl hk hx hx')⟩
    rintro rfl
    exact h.apart l _ hl hk hx

end Owned

/-- The data of the inode in a sector. -/
def fileBytes (dev : Device) (sector : Nat) : List UInt8 := content dev (diskInode dev sector)

/-! ## a new inode -/

/-- What `inode_create` does to the store: there is a new inode of zeros in sectors that were
free, and the free map has been written to its file. -/
structure Creates (file : Option Inode) (k n : Nat) (H : Nat → Prop) (st st' : Store) : Prop where
  owned : Owned st' fun l => H l ∨ l = k
  off : Off (fun x => MapSectors file x ∨ x = k ∨ st.freeMap.bits x = false) st.dev st'.dev
  out : ∀ l, H l → ¬ (MapSectors file l ∨ l = k ∨ st.freeMap.bits l = false)
  bitCnt : st'.freeMap.bitCnt = st.freeMap.bitCnt
  bits : ∀ x, st.freeMap.bits x = true → st'.freeMap.bits x = true
  fresh : ∀ x, (diskInode st'.dev k).Covers x → st.freeMap.bits x = false
  length : (diskInode st'.dev k).length = n
  zeros : fileBytes st'.dev k = List.replicate n 0
  map : ∀ inode, file = some inode → content st'.dev inode.data = bitmapBytes st'.freeMap

theorem Owned.inodeCreate (h : Owned st H) (file : Option Inode)
    (hsize : st.freeMap.bitCnt < sizeTSize) (hdev : st.freeMap.bitCnt = st.dev.sectors)
    (hfile : ∀ inode, file = some inode →
      MapFile st.dev st.freeMap.bitCnt inode ∧ ∃ q, H q ∧ inode.data = diskInode st.dev q)
    (hlt : k < st.freeMap.bitCnt) (hused : st.freeMap.bits k = true) (hnew : ¬ H k)
    (hfree : ∀ l, H l → ¬ (diskInode st.dev l).Covers k) (hn : n < 2 ^ 31) :
    st.inodeCreate file k n true true = .ok (st, false) ∨
    ∃ st', st.inodeCreate file k n true true = .ok (st', true) ∧ Creates file k n H st st' := by
  rcases Store.inodeCreate_spec st file hsize hdev (fun i hi => (hfile i hi).1) (hdev ▸ hlt) hused
    hn with ⟨start, b, dev', hb, hfirst, hcreated, heq⟩ | heq
  · have hbits : ∀ x, st.freeMap.bits x = true → b.bits x = true := by
      intro x hx
      rw [hb]
      exact fill_of_eq hx
    have hbitCnt : b.bitCnt = st.freeMap.bitCnt := by rw [hb]
    -- the data goes to sectors that were free
    have hclear : ∀ x, (⟨start, n⟩ : InodeDisk).Covers x → st.freeMap.bits x = false :=
      fun x hx => hfirst.clear x hx.1 hx.2
    have hwritten : Off (MapSectors file) st.dev (mapWritten st.dev b file) :=
      off_mapWritten (hbitCnt ▸ fun i hi => (hfile i hi).1)
    have hoff : Off (fun x => MapSectors file x ∨ x = k ∨ st.freeMap.bits x = false) st.dev
        dev' := (hwritten.mono fun x hx => .inl hx).trans
      (hcreated.off.mono fun x hx => .inr (hx.imp_right (hclear x)))
    have hmine : ∀ x, st.freeMap.bits x = false → ∀ l, H l →
        x ≠ l ∧ ¬ (diskInode st.dev l).Covers x := by
      intro x hx l hl
      refine ⟨fun heq => ?_, fun hcov => ?_⟩
      · rw [heq, h.used l hl] at hx
        cases hx
      · rw [h.dataUsed l x hl hcov] at hx
        cases hx
    have hout : ∀ l, H l → ¬ (MapSectors file l ∨ l = k ∨ st.freeMap.bits l = false) := by
      rintro l hl (⟨inode, hinode, hcov⟩ | rfl | hbit)
      · obtain ⟨-, q, hq, hdata⟩ := hfile inode hinode
        rw [hdata] at hcov
        exact h.apart q l hq hl hcov
      · exact hnew hl
      · exact (hmine l hbit l hl).1 rfl
    have hdata := hcreated.inode
    have howned : Owned ⟨dev', b⟩ H := h.off hoff hbitCnt hout fun _ _ x _ => hbits x
    refine .inr ⟨⟨dev', b⟩, heq, howned.insert (hbitCnt ▸ hlt) ?_ (hbits k hused) ?_ ?_, hoff, hout,
      hbitCnt, hbits, hdata.symm ▸ hclear, by rw [hdata], ?_, ?_⟩
    · rw [hdata, hbitCnt]
      exact hfirst.fits
    · intro x hx
      rw [hdata] at hx
      refine ⟨?_, fun heq => ?_⟩
      · rw [hb]
        exact fill_of_mem hx.1 hx.2
      · rw [← heq, hclear x hx] at hused
        cases hused
    · intro l hl
      rw [hoff.diskInode_eq (hout l hl), hdata]
      exact ⟨fun heq => hnew (heq ▸ hl), hfree l hl, fun x hx => hmine x (hclear x hx) l hl⟩
    · rw [fileBytes, hdata]
      exact hcreated.content
    · rintro inode rfl
      obtain ⟨hmap, q, hq, hdata⟩ := hfile inode rfl
      rw [← hbitCnt] at hmap
      rw [← hmap.content_eq]
      refine hcreated.off.content_eq hmap.length_lt ?_
      intro x hx
      rw [hdata] at hx
      rintro (rfl | hcov)
      · exact hfree q hq hx
      · exact (hmine x (hclear x hcov) q hq).2 hx
  · exact .inl heq

/-! ## giving sectors back -/

theorem freeMapRelease_run (sector cnt : Nat) (hsize : s.freeMap.bitCnt < sizeTSize)
    (hmap : s.mapInode = some inode) (hfile : MapFile s.dev s.freeMap.bitCnt inode)
    (hfits : sector + cnt ≤ s.freeMap.bitCnt)
    (hset : ∀ x, sector ≤ x → x < sector + cnt → s.freeMap.bits x = true) :
    ∃ st, freeMapRelease s sector cnt true = .ok (s.withStore st) ∧
      Off inode.data.Covers s.dev st.dev ∧
      st.freeMap = { s.freeMap with bits := fill s.freeMap.bits cnt sector false } := by
  have hrel := Store.freeMapRelease_eq hsize hfile hfits hset
  have hoff := MapFile.off (b := { s.freeMap with bits := fill s.freeMap.bits cnt sector false }) hfile
  exact ⟨_, by rw [Fs.freeMapRelease, hmap, hrel, ok_bind, pure_eq_ok], hoff, rfl⟩

/-- The two calls of `free_map_release` in `inode_close`. -/
def releaseSectors (s : FileSys) (sector : Nat) (data : InodeDisk) : Except Assertion FileSys := do
  let s ← Fs.freeMapRelease s sector 1 true
  Fs.freeMapRelease s data.start (bytesToSectors data.length) true

theorem releaseSectors_run {data : InodeDisk} (hsize : s.freeMap.bitCnt < sizeTSize)
    (hmap : s.mapInode = some inode) (hfile : MapFile s.dev s.freeMap.bitCnt inode)
    (hlt : f < s.freeMap.bitCnt) (hused : s.freeMap.bits f = true)
    (hfits : data.start + bytesToSectors data.length ≤ s.freeMap.bitCnt)
    (hdata : ∀ x, data.Covers x → s.freeMap.bits x = true ∧ x ≠ f) :
    ∃ st, releaseSectors s f data = .ok (s.withStore st) ∧
      Off inode.data.Covers s.dev st.dev ∧ st.freeMap.bitCnt = s.freeMap.bitCnt ∧
      ∀ x, x ≠ f → ¬ data.Covers x → st.freeMap.bits x = s.freeMap.bits x := by
  obtain ⟨st, hrel, hoff, hfree⟩ := freeMapRelease_run f 1 hsize hmap hfile
    (Nat.succ_le_of_lt hlt) fun x hle hx => by
      obtain rfl : x = f := by omega
      exact hused
  have hbitCnt : st.freeMap.bitCnt = s.freeMap.bitCnt := by rw [hfree]
  have hbits : ∀ x, x ≠ f → st.freeMap.bits x = s.freeMap.bits x := by
    intro x hx
    rw [hfree]
    exact fill_of_not_mem (by omega)
  obtain ⟨st', hrel', hoff', hfree'⟩ := freeMapRelease_run (s := s.withStore st) data.start
    (bytesToSectors data.length) (hbitCnt ▸ hsize) hmap
    ⟨hfile.allowed, hbitCnt ▸ hfile.length, hoff.sectors ▸ hfile.fits⟩ (hbitCnt ▸ hfits)
    fun x hle hx => by
      have hx := hdata x ⟨hle, hx⟩
      exact (hbits x hx.2).trans hx.1
  refine ⟨st', ?_, hoff.trans hoff', by rw [hfree']; exact hbitCnt, fun x hx hcov => ?_⟩
  · rw [releaseSectors, hrel, ok_bind, hrel']
  · have hout : ¬ (data.start ≤ x ∧ x < data.start + bytesToSectors data.length) := hcov
    rw [hfree']
    exact (fill_of_not_mem (by omega)).trans (hbits x hx)

/-! ## opening and closing -/

/-- What opening or closing inodes leaves alone. -/
structure Same (refs : List Nat) (s s' : FileSys) : Prop where
  files : s'.files = s.files
  freeMapFile : s'.freeMapFile = s.freeMapFile
  next : s.next ≤ s'.next
  sector : ∀ a ∈ refs, (s'.inodes a).sector = (s.inodes a).sector

/-- The inodes of `s'` that are open and removed are so in `s`. -/
def RemovedSub (s' s : FileSys) : Prop :=
  ∀ a ∈ s'.openInodes, (s'.inodes a).removed = true → a ∈ s.openInodes ∧
    (s.inodes a).removed = true ∧ (s.inodes a).sector = (s'.inodes a).sector

/-- The inodes that are open in `s'` are open in `s`, with the same marks and sectors. -/
def SubInodes (s' s : FileSys) : Prop :=
  ∀ a ∈ s'.openInodes, a ∈ s.openInodes ∧ (s.inodes a).removed = (s'.inodes a).removed ∧
    (s.inodes a).sector = (s'.inodes a).sector

theorem SubInodes.removedSub (h : SubInodes s' s) : RemovedSub s' s := by
  intro a ha hr
  obtain ⟨ha', hremoved, hsector⟩ := h a ha
  exact ⟨ha', hremoved.trans hr, hsector⟩

/-- What is the same in the inode that is written is the same in all. -/
theorem setInode_field {β : Type} (g : Inode → β) (hg : g i = g (s.inodes a)) (b : Nat) :
    g ((s.setInode a i).inodes b) = g (s.inodes b) := by
  by_cases hb : b = a
  · subst hb
    simp [hg]
  · simp [update_of_ne hb]

theorem Same.of_update (hinodes : s'.inodes = update s.inodes a i)
    (hsector : i.sector = (s.inodes a).sector) (hfiles : s'.files = s.files)
    (hmap : s'.freeMapFile = s.freeMapFile) (hnext : s'.next = s.next) : Same refs s s' := by
  refine ⟨hfiles, hmap, le_of_eq hnext.symm, fun b _ => ?_⟩
  rw [hinodes]
  by_cases hb : b = a
  · subst hb
    rw [update_self, hsector]
  · rw [update_of_ne hb]

protected theorem Same.refl (refs : List Nat) (s : FileSys) : Same refs s s :=
  ⟨rfl, rfl, le_rfl, fun _ _ => rfl⟩

theorem Same.trans {s'' : FileSys} (h : Same refs s s') (h' : Same refs s' s'') :
    Same refs s s'' where
  files := h'.files.trans h.files
  freeMapFile := h'.freeMapFile.trans h.freeMapFile
  next := le_trans h.next h'.next
  sector b hb := (h'.sector b hb).trans (h.sector b hb)

theorem Same.store (h : Same refs s s') : Same refs s (s'.withStore st) :=
  { h with }

/-- Inodes in use and inodes that are open. -/
structure Sound (s : FileSys) (H : Nat → Prop) (m : Nat) (refs denials : List Nat) : Prop where
  size : s.freeMap.bitCnt < sizeTSize
  sectors : s.freeMap.bitCnt = s.dev.sectors
  mapFile : ∃ file, s.freeMapFile = some file ∧ (s.files file).inode = m
  mapSector : (s.inodes m).sector = freeMapSector
  mapAllowed : m ∉ denials
  mapLength : (s.inodes m).data.length = byteCnt s.freeMap.bitCnt
  owned : Owned s.toStore H
  balanced : Balanced s (m :: refs) denials
  inj : ∀ a ∈ s.openInodes, ∀ b ∈ s.openInodes, (s.inodes a).sector = (s.inodes b).sector → a = b
  held : ∀ a ∈ s.openInodes, H (s.inodes a).sector
  data : ∀ a ∈ s.openInodes, (s.inodes a).data = diskInode s.dev (s.inodes a).sector

/-- The inodes at `as` are the same but for `open_cnt` and `removed`. -/
def SameInodes (as : List Nat) (s s' : FileSys) : Prop :=
  ∀ a ∈ as, (s'.inodes a).sector = (s.inodes a).sector ∧ (s'.inodes a).data = (s.inodes a).data

namespace Sound

section

variable (h : Sound s H m refs denials)
include h

theorem mem_open (ha : a ∈ m :: refs) : a ∈ s.openInodes :=
  (h.balanced.mem a).mpr ha

theorem map_open : m ∈ s.openInodes := h.mem_open mem_cons_self

theorem map_held : H freeMapSector := by
  have := h.held m h.map_open
  rwa [h.mapSector] at this

theorem map_data : (s.inodes m).data = diskInode s.dev freeMapSector := by
  rw [h.data m h.map_open, h.mapSector]

theorem mapInode_eq : s.mapInode = some (s.inodes m) := by
  obtain ⟨file, hfile, hm⟩ := h.mapFile
  rw [FileSys.mapInode, hfile, map_some, hm]

theorem isMapFile :
    MapFile s.dev s.freeMap.bitCnt (s.inodes m) where
  allowed := by
    rw [h.balanced.denyWriteCnt m h.map_open, count_eq_zero_of_not_mem h.mapAllowed]
    rfl
  length := h.mapLength
  fits := by
    have hfits := h.owned.fits _ h.map_held
    rwa [← h.map_data, h.sectors] at hfits

theorem onDevice (hk : H k) : OnDevice s.dev (diskInode s.dev k) :=
  .of_fits (diskInode_length_lt _ _) (h.sectors ▸ h.owned.fits k hk)

theorem perm (hp : refs.Perm refs') : Sound s H m refs' denials :=
  { h with balanced := h.balanced.perm (hp.cons m) .rfl }

/-- Fewer sectors, as long as every open inode is in one of them. -/
theorem mono (hsub : ∀ k, H' k → H k)
    (hopen : ∀ a ∈ s.openInodes, H' (s.inodes a).sector) : Sound s H' m refs denials :=
  { h with owned := h.owned.mono hsub, held := hopen }

/-- **A write outside the sectors of the inodes**, when their bits stay. -/
theorem store (hoff : Off W s.dev st.dev)
    (hbitCnt : st.freeMap.bitCnt = s.freeMap.bitCnt) (hout : ∀ k, H k → ¬ W k)
    (hbits : ∀ k, H k → ∀ x, x = k ∨ (diskInode s.dev k).Covers x →
      s.freeMap.bits x = true → st.freeMap.bits x = true) :
    Sound (s.withStore st) H m refs denials where
  size := hbitCnt ▸ h.size
  sectors := (hbitCnt.trans h.sectors).trans hoff.sectors.symm
  mapFile := h.mapFile
  mapSector := h.mapSector
  mapAllowed := h.mapAllowed
  mapLength := h.mapLength.trans (congrArg byteCnt hbitCnt.symm)
  owned := h.owned.off hoff hbitCnt hout hbits
  balanced := h.balanced.congr rfl rfl le_rfl
  inj := h.inj
  held := h.held
  data := fun a ha => (h.data a ha).trans (hoff.diskInode_eq (hout _ (h.held a ha))).symm

/-- Only objects in memory change; the inodes that were open keep their sectors. -/
theorem reopened (hstore : s'.toStore = s.toStore)
    (hfiles : s'.files = s.files) (hmap : s'.freeMapFile = s.freeMapFile)
    (hsame : SameInodes (m :: refs) s s')
    (hb : Balanced s' (m :: refs') denials)
    (hopen : ∀ a ∈ s'.openInodes, a ∈ s.openInodes ∨
      H (s'.inodes a).sector ∧ (s'.inodes a).data = diskInode s.dev (s'.inodes a).sector ∧
        ∀ b ∈ s'.openInodes, (s'.inodes b).sector = (s'.inodes a).sector → b = a) :
    Sound s' H m refs' denials := by
  have hkeep : ∀ a ∈ s.openInodes, (s'.inodes a).sector = (s.inodes a).sector ∧
      (s'.inodes a).data = (s.inodes a).data := fun a ha => hsame a ((h.balanced.mem a).mp ha)
  have hm := hsame m mem_cons_self
  refine ⟨?_, ?_, ?_, ?_, h.mapAllowed, ?_, ?_, hb, ?_, ?_, ?_⟩
  · rw [hstore]
    exact h.size
  · rw [hstore]
    exact h.sectors
  · rw [hfiles, hmap]
    exact h.mapFile
  · rw [hm.1]
    exact h.mapSector
  · rw [hm.2, hstore]
    exact h.mapLength
  · rw [hstore]
    exact h.owned
  · intro a ha b hb' heq
    rcases hopen a ha with ha' | ⟨-, -, hnew⟩
    · rcases hopen b hb' with hb'' | ⟨-, -, hnew⟩
      · rw [(hkeep a ha').1, (hkeep b hb'').1] at heq
        exact h.inj a ha' b hb'' heq
      · exact hnew a ha heq
    · exact (hnew b hb' heq.symm).symm
  · intro a ha
    rcases hopen a ha with ha' | ⟨hheld, -, -⟩
    · rw [(hkeep a ha').1]
      exact h.held a ha'
    · exact hheld
  · intro a ha
    rw [hstore]
    rcases hopen a ha with ha' | ⟨-, hdata, -⟩
    · rw [(hkeep a ha').1, (hkeep a ha').2]
      exact h.data a ha'
    · exact hdata

end

theorem sameInodes_setInode (as : List Nat) (hsector : i.sector = (s.inodes a).sector)
    (hdata : i.data = (s.inodes a).data) : SameInodes as s (s.setInode a i) := fun b _ =>
  ⟨setInode_field (·.sector) hsector b, setInode_field (·.data) hdata b⟩

/-- **`inode_open`** of an inode in use. -/
theorem inodeOpen (h : Sound s H m refs denials) (hk : H k) :
    ∃ s' a, inodeOpen s k true = .ok (s', some a) ∧ Sound s' H m (a :: refs) denials ∧
      SameInodes (m :: refs) s s' ∧ Same (m :: refs) s s' ∧ RemovedSub s' s ∧ RemovedSub s s' ∧
      s'.toStore = s.toStore ∧ (s'.inodes a).sector = k := by
  cases hfind : s.openInodes.find? fun a => (s.inodes a).sector = k with
  | some a =>
    have ha : a ∈ s.openInodes := mem_of_find?_eq_some hfind
    have hsector : (s.inodes a).sector = k := by simpa using find?_some hfind
    have hsame : SameInodes (m :: refs) s (inodeReopen s a) :=
      sameInodes_setInode _ rfl rfl
    have hremoved : ∀ b, ((inodeReopen s a).inodes b).removed = (s.inodes b).removed :=
      setInode_field (·.removed) rfl
    have hsectors : ∀ b, ((inodeReopen s a).inodes b).sector = (s.inodes b).sector :=
      setInode_field (·.sector) rfl
    have hb := (h.balanced.inodeReopen ((h.balanced.mem a).mp ha)).perm (.swap _ _ _) .rfl
    refine ⟨inodeReopen s a, a, by simp [Fs.inodeOpen, hfind],
      h.reopened rfl rfl rfl hsame hb fun b hb => .inl hb, hsame, .of_update rfl rfl rfl rfl rfl,
      ?_, ?_, rfl, (hsectors a).trans hsector⟩
    · exact fun b hb hr => ⟨hb, (hremoved b).symm.trans hr, (hsectors b).symm⟩
    · exact fun b hb hr => ⟨hb, (hremoved b).trans hr, hsectors b⟩
  | none =>
    have hnew : ∀ a ∈ s.openInodes, (s.inodes a).sector ≠ k := by simpa using hfind
    have hread := blockRead_of_lt (h.sectors ▸ h.owned.lt k hk)
    have hold : ∀ b ∈ s.openInodes,
        (s.pushInode ⟨k, 1, false, 0, diskInode s.dev k⟩).inodes b = s.inodes b :=
      fun b hb => update_of_ne (ne_of_lt (h.balanced.lt b hb)) _ _
    have hself : (s.pushInode ⟨k, 1, false, 0, diskInode s.dev k⟩).inodes s.next =
        ⟨k, 1, false, 0, diskInode s.dev k⟩ := update_self ..
    have hsame : SameInodes (m :: refs) s (s.pushInode ⟨k, 1, false, 0, diskInode s.dev k⟩) := by
      intro b hb
      rw [hold b (h.mem_open hb)]
      exact ⟨rfl, rfl⟩
    have hb : Balanced (s.pushInode ⟨k, 1, false, 0, diskInode s.dev k⟩)
        (m :: s.next :: refs) denials := (h.balanced.pushInode rfl rfl).perm (.swap _ _ _) .rfl
    refine ⟨s.pushInode ⟨k, 1, false, 0, diskInode s.dev k⟩, s.next, ?_, ?_, hsame,
      ⟨rfl, rfl, Nat.le_succ _, fun b hb => (hsame b hb).1⟩, ?_, ?_, rfl, ?_⟩
    · simp [Fs.inodeOpen, hfind, hread, diskInode]
    · refine h.reopened rfl rfl rfl hsame hb fun b hb => ?_
      rcases mem_cons.mp hb with rfl | hb
      · rw [hself]
        refine .inr ⟨hk, rfl, fun c hc heq => ?_⟩
        rcases mem_cons.mp hc with rfl | hc
        · rfl
        · rw [hold c hc] at heq
          exact absurd heq (hnew c hc)
      · exact .inl hb
    · intro b hb hr
      rcases mem_cons.mp hb with rfl | hb
      · rw [hself] at hr
        cases hr
      · rw [hold b hb] at hr ⊢
        exact ⟨hb, hr, rfl⟩
    · intro b hb hr
      rw [hold b hb]
      exact ⟨mem_cons_of_mem _ hb, hr, rfl⟩
    · rw [hself]

/-- **`inode_remove`** marks an inode and does nothing else. -/
theorem inodeRemove (h : Sound s H m refs denials) (ha : a ∈ m :: refs) :
    Sound (inodeRemove s a) H m refs denials :=
  h.reopened rfl rfl rfl (sameInodes_setInode _ rfl rfl) (h.balanced.inodeRemove ha)
    fun _ hb => .inl hb

theorem releaseInode (h : Sound s H m refs denials) (data : InodeDisk)
    (hlt : k < s.freeMap.bitCnt) (hused : s.freeMap.bits k = true)
    (hfits : data.start + bytesToSectors data.length ≤ s.freeMap.bitCnt)
    (hdata : ∀ x, data.Covers x → s.freeMap.bits x = true ∧ x ≠ k)
    (hfree : ∀ l, H l → ∀ x, x = l ∨ (diskInode s.dev l).Covers x → x ≠ k ∧ ¬ data.Covers x) :
    ∃ st, releaseSectors s k data = .ok (s.withStore st) ∧
      Sound (s.withStore st) H m refs denials ∧
      Off (s.inodes m).data.Covers s.dev st.dev := by
  obtain ⟨st, hrel, hoff, hbitCnt, hbits⟩ :=
    releaseSectors_run h.size h.mapInode_eq h.isMapFile hlt hused hfits hdata
  refine ⟨st, hrel, h.store hoff hbitCnt (fun l hl => ?_) (fun l hl x hx hbit => ?_), hoff⟩
  · rw [h.map_data]
    exact h.owned.apart _ l h.map_held hl
  · have hout := hfree l hl x hx
    exact (hbits x hout.1 hout.2).trans hbit

/-- **`inode_close`**: the last opener of a removed inode gives its sectors back. -/
theorem inodeClose (h : Sound s H m (a :: refs) denials)
    (hle : denials.count a ≤ (m :: refs).count a) :
    ∃ s' H', inodeClose s a true true = .ok s' ∧ Sound s' H' m refs denials ∧
      (∀ k, H' k → H k) ∧
      (∀ k, H k → H' k ∨ k = (s.inodes a).sector ∧ (s.inodes a).removed = true ∧ a ∉ m :: refs) ∧
      SameInodes (m :: refs) s s' ∧ Same (m :: refs) s s' ∧ SubInodes s' s ∧
      Off (s.inodes m).data.Covers s.dev s'.dev := by
  have hb := h.balanced.perm (.swap _ _ _) .rfl
  have ha := (hb.mem a).mpr mem_cons_self
  have hcnt : (s.inodes a).openCnt - 1 = (m :: refs).count a := by
    rw [hb.openCnt a ha, count_cons_self]
    omega
  have hsame := fun as => sameInodes_setInode (s := s) (a := a) (i := (s.inodes a).closed) as rfl rfl
  have hmarks : ∀ b, (s.inodes b).removed = ((s.setInode a (s.inodes a).closed).inodes b).removed ∧
      (s.inodes b).sector = ((s.setInode a (s.inodes a).closed).inodes b).sector := fun b =>
    ⟨(setInode_field (i := (s.inodes a).closed) (·.removed) rfl b).symm,
      (setInode_field (i := (s.inodes a).closed) (·.sector) rfl b).symm⟩
  by_cases hmore : a ∈ m :: refs
  · have hpos : (s.inodes a).openCnt - 1 ≠ 0 := by
      rw [hcnt]
      have hpos := count_pos_iff.mpr hmore
      omega
    have hrun : Fs.inodeClose s a true true = .ok (s.setInode a (s.inodes a).closed) := if_neg hpos
    obtain ⟨hb', -⟩ := hb.inodeClose hle hrun
    exact ⟨_, H, hrun, h.reopened rfl rfl rfl (hsame _) hb' fun _ hb => .inl hb, fun _ hk => hk,
      fun _ hk => .inl hk, hsame _, .of_update rfl rfl rfl rfl rfl, fun b hb => ⟨hb, hmarks b⟩,
      .refl _ _⟩
  · have hnone := count_eq_zero_of_not_mem hmore
    have hzero : (s.inodes a).openCnt - 1 = 0 := by
      rw [hcnt, hnone]
      rfl
    have hdrop : Sound (s.dropInode a) H m refs denials :=
      h.reopened rfl rfl rfl (hsame _) (hb.dropInode hmore (by omega))
        fun _ hb => .inl (mem_of_mem_erase hb)
    have hsame' : Same (m :: refs) s (s.dropInode a) := .of_update rfl rfl rfl rfl rfl
    have hsub : SubInodes (s.dropInode a) s := fun b hb => ⟨mem_of_mem_erase hb, hmarks b⟩
    rw [Fs.inodeClose, if_pos hzero]
    cases hr : (s.inodes a).removed with
    | false =>
      exact ⟨s.dropInode a, H, rfl, hdrop, fun _ hk => hk, fun _ hk => .inl hk, hsame _, hsame', hsub,
        .refl _ _⟩
    | true =>
      have hheld := h.held a ha
      have hdata := h.data a ha
      -- the other open inodes are in other sectors
      have hother : ∀ b ∈ (s.dropInode a).openInodes,
          ((s.dropInode a).inodes b).sector ≠ (s.inodes a).sector := by
        intro b hb heq
        obtain ⟨hne, hb'⟩ := h.balanced.nodup.mem_erase_iff.mp hb
        exact hne (h.inj b hb' a ha ((hsub b hb).2.2.trans heq))
      have hrest : Sound (s.dropInode a) (fun k => H k ∧ k ≠ (s.inodes a).sector) m refs
          denials := hdrop.mono (fun _ hk => hk.1) fun b hb => ⟨hdrop.held b hb, hother b hb⟩
      obtain ⟨st, hrel, hsound, hoff⟩ := hrest.releaseInode (s.inodes a).data
        (h.owned.lt _ hheld) (h.owned.used _ hheld)
        (by rw [hdata]; exact h.owned.fits _ hheld)
        (fun x hx => h.owned.alone hheld (hdata ▸ hx))
        (fun l hl x hx => by
          rw [hdata]
          exact h.owned.outside hheld hl.1 hl.2 hx)
      have hmap : ((s.dropInode a).inodes m).data = (s.inodes m).data :=
        (hsame [m] m mem_cons_self).2
      rw [hmap] at hoff
      refine ⟨_, _, hrel, hsound, fun _ hk => hk.1, fun k hk => ?_, hsame _, hsame'.store, hsub, hoff⟩
      by_cases heq : k = (s.inodes a).sector
      · exact .inr ⟨heq, rfl, hmore⟩
      · exact .inl ⟨hk, heq⟩

/-- **`inode_create`** in a marked sector of no inode. -/
theorem inodeCreate (h : Sound s H m refs denials) (hlt : k < s.freeMap.bitCnt)
    (hused : s.freeMap.bits k = true) (hnew : ¬ H k)
    (hfree : ∀ l, H l → ¬ (diskInode s.dev l).Covers k) (hn : n < 2 ^ 31) :
    Fs.inodeCreate s k n true true = .ok (s, false) ∨
    ∃ st, Fs.inodeCreate s k n true true = .ok (s.withStore st, true) ∧
      Sound (s.withStore st) (fun l => H l ∨ l = k) m refs denials ∧
      Off (fun x => (s.inodes m).data.Covers x ∨ x = k ∨ s.freeMap.bits x = false)
        s.dev st.dev ∧
      st.freeMap.bitCnt = s.freeMap.bitCnt ∧ st.freeMap.bits k = true ∧
      (diskInode st.dev k).length = n ∧ fileBytes st.dev k = List.replicate n 0 := by
  have hfile : ∀ inode, s.mapInode = some inode →
      MapFile s.dev s.freeMap.bitCnt inode ∧ ∃ q, H q ∧ inode.data = diskInode s.dev q := by
    intro inode heq
    rw [h.mapInode_eq, some.injEq] at heq
    subst heq
    exact ⟨h.isMapFile, freeMapSector, h.map_held, h.map_data⟩
  rcases h.owned.inodeCreate s.mapInode h.size h.sectors hfile hlt hused hnew hfree hn with
    heq | ⟨st, heq, hc⟩
  · refine .inl ?_
    rw [Fs.inodeCreate, heq]
    rfl
  · have hsound := h.store hc.off hc.bitCnt hc.out fun _ _ x _ => hc.bits x
    refine .inr ⟨st, ?_, { hsound with
      owned := hc.owned, held := fun b hb => .inl (hsound.held b hb) }, hc.off.mono ?_, hc.bitCnt,
      hc.bits k hused, hc.length, hc.zeros⟩
    · rw [Fs.inodeCreate, heq]
      rfl
    · refine fun x => Or.imp_left ?_
      rintro ⟨inode, hinode, hcov⟩
      rw [h.mapInode_eq, some.injEq] at hinode
      rwa [hinode]

end Sound

end Pintos.Fs
