import Pintos.Filesys.Effects

/-!
# Pintos.Filesys.SectorOwnership

Sectors are never shared.  In every state that any sequence of operations reaches from a
formatted device, the two fixed sectors, the data of the free-map file and of the root
directory, and the inodes and data of all files that are linked or open are in different
sectors, all of them marked in the free map; and `free_map_release` never finds a sector
that is not marked (`sectors_owned`).
-/

namespace Pintos.Fs

variable {s : State} {stack : DirEntry}

/-! ## regions -/

/-- A part of the device: the inode in a sector, or the data of that inode. -/
inductive Region
  | inode (sector : Nat)
  | data (sector : Nat)
deriving DecidableEq

/-- The sectors of a region. -/
def Region.Covers (dev : Device) : Region → Nat → Prop
  | .inode sector, x => x = sector
  | .data sector, x => (diskInode dev sector).Covers x

/-- The inode is the free map's, the root directory's or that of a file that is linked or
open. -/
def State.InUse (s : State) (sector : Nat) : Prop :=
  sector = freeMapSector ∨ sector = rootDirSector ∨
    Linked s.fs.dev (diskInode s.fs.dev rootDirSector) sector ∨
    ∃ file ∈ s.handles, s.sectorOf file = sector

/-- The region is an inode that is in use, or its data. -/
def State.Uses (s : State) : Region → Prop
  | .inode sector => s.InUse sector
  | .data sector => s.InUse sector

/-- **No sector is used twice**, and every one that is used is marked. -/
structure State.SectorsOwned (s : State) : Prop where
  /-- The entries of the directory name different files. -/
  entries : Entries s.fs.dev (diskInode s.fs.dev rootDirSector)
  /-- None of them is the free map or the directory. -/
  linked : ∀ sector, Linked s.fs.dev (diskInode s.fs.dev rootDirSector) sector →
    sector ≠ freeMapSector ∧ sector ≠ rootDirSector
  /-- Nor is an open file, and its data is where its inode says. -/
  opened : ∀ file ∈ s.handles, s.sectorOf file ≠ freeMapSector ∧ s.sectorOf file ≠ rootDirSector ∧
    (s.fs.inodes (s.fs.files file).inode).data = diskInode s.fs.dev (s.sectorOf file)
  disjoint : ∀ r r', s.Uses r → s.Uses r' → r ≠ r' →
    ∀ x, r.Covers s.fs.dev x → ¬ r'.Covers s.fs.dev x
  marked : ∀ r, s.Uses r → ∀ x, r.Covers s.fs.dev x →
    x < s.fs.freeMap.bitCnt ∧ s.fs.freeMap.bits x = true

/-! ## runs -/

theorem State.InUse.held {L : Layout} {sector : Nat} (h : s.InUse sector) (hinv : s.Inv L) :
    Held s.fs L.root sector := by
  rcases h with heq | heq | hlink | ⟨file, hfile, rfl⟩
  · exact .inl heq
  · exact .inr (.inl heq)
  · rw [hinv.fs.root] at hlink
    exact hlink.held
  · exact (hinv.isFile hfile).held

theorem State.Inv.sectorsOwned {L : Layout} (h : s.Inv L) : s.SectorsOwned := by
  have hroot := h.fs.root
  have howned := h.fs.owned
  refine ⟨hroot.symm ▸ h.fs.entries, hroot.symm ▸ h.fs.fixed, ?_, ?_, ?_⟩
  · exact fun file hfile => ⟨h.notMap file hfile, h.notRoot file hfile,
      (h.fs.onFile_data (h.onFile hfile)).2.1⟩
  · intro r r' hr hr' hne x hx hx'
    cases r with
    | inode k =>
      cases r' with
      | inode l => exact hne (congrArg Region.inode (hx.symm.trans hx'))
      | data l =>
        rw [hx] at hx'
        exact howned.apart l k (State.InUse.held hr' h) (State.InUse.held hr h) hx'
    | data k =>
      cases r' with
      | inode l =>
        rw [hx'] at hx
        exact howned.apart k l (State.InUse.held hr h) (State.InUse.held hr' h) hx
      | data l =>
        exact hne (congrArg Region.data
          (howned.disjoint k l x (State.InUse.held hr h) (State.InUse.held hr' h) hx hx'))
  · intro r hr x hx
    cases r with
    | inode k =>
      rw [hx]
      exact ⟨howned.lt k (State.InUse.held hr h), howned.used k (State.InUse.held hr h)⟩
    | data k =>
      have hk := State.InUse.held hr h
      exact ⟨Nat.lt_of_lt_of_le hx.2 (howned.fits k hk), howned.dataUsed k x hk hx⟩

/-- **Sector ownership.** -/
theorem sectors_owned (h : (machine (.plenty stack)).Reach s) :
    s.SectorsOwned ∧ ∀ op, s.Legal op → s.exec (.plenty stack) op ≠ .error .freeMap := by
  obtain ⟨L, hinv⟩ := reach_inv h
  refine ⟨hinv.sectorsOwned, fun op hlegal herr => ?_⟩
  rcases exec_effect hinv hlegal with ⟨s', r, heq, -⟩ | ⟨-, e, heq, hne⟩
  · cases heq.symm.trans herr
  · cases heq.symm.trans herr
    exact hne rfl

/-- A file of two sectors has been created, opened and removed, and another created under its
name. -/
theorem sectors_owned_removed :
    ∃ s, (machine (.plenty blankEntry)).Reach s ∧ s.handles = [7] ∧ s.SectorsOwned ∧
      s.exec (.plenty blankEntry) (.close 7) ≠ .error .freeMap := by
  obtain ⟨s, hreach, hhandles⟩ := exists_reach_of_runSmall
    [.create ⟨[97], by decide⟩ ⟨600, by decide⟩, .open ⟨[97], by decide⟩,
      .remove ⟨[97], by decide⟩, .create ⟨[97], by decide⟩ ⟨0, by decide⟩]
    (fun s => s.handles = [7]) (by decide +kernel)
  have howned := sectors_owned hreach
  have hlegal : s.Legal (.close 7) := by
    rw [State.Legal, hhandles]
    exact List.mem_cons_self
  exact ⟨s, hreach, hhandles, howned.1, howned.2 _ hlegal⟩

end Pintos.Fs
