import Pintos.Userprog.DescriptorCalls

/-!
# Pintos.Userprog.Executable

Writes to the files of running executables.

`load` denies writes to the executable and then closes the file, which lifts the denial: while the
process runs, `load` protects nothing.  What is left is what the descriptors do.  `open` denies
writes for every descriptor, and `write` lifts the denial of its own one, unless the descriptor is
marked as reopened.  So an executable is protected from a descriptor that is marked, and from one
that is not as long as another open file denies writes (`executables_immutable`).
-/

namespace Pintos.Descriptor

open Fs Bytes

variable {s s' : Sys} {t : Nat} {e : FileWithFd} {pages : Pages} {fd : Int} {k : Nat}
  {buffer : List UInt8} {memory : Bool}

/-! ## running executables -/

/-- A live process has been loaded from the inode in sector `k`. -/
def Sys.Running (s : Sys) (k : Nat) : Prop := ∃ u ∈ s.tids, (s.proc u).exe = some k

/-- The inode of an open file. -/
def Sys.inode (s : Sys) (f : Nat) : Inode := s.handles.fs.inodes (s.handles.fs.files f).inode

/-- The place where `write` starts. -/
def Sys.writePos (s : Sys) (e : FileWithFd) : Nat := if e.mmaped then 0 else s.pos e.f

/-- A descriptor does no harm to the file in sector `k`.  If it is a descriptor of that file, then
it is marked as reopened, or another file denies writes, or it stands at the end of the file.
Otherwise the two files have no sector in common. -/
def Harmless (s : Sys) (e : FileWithFd) (k : Nat) : Prop :=
  if (s.inode e.f).sector = k then
    ¬ Undenied s.handles e.f e.reopened ∨ (s.inode e.f).data.length ≤ s.writePos e
  else
    ∀ x, (s.inode e.f).data.Extent x → x ≠ k ∧ ¬ (diskInode s.handles.fs.dev k).Covers x

/-- A `write` does no harm to the running executables. -/
def Protected (s : Sys) (a : Action) : Prop :=
  match a.call with
  | .write fd _ _ => ∀ e, s.find a.tid fd = some e → ∀ k, s.Running k → Harmless s e k
  | _ => True

/-! ## what write changes -/

/-- `write` to a file: `inode_write_at`, which is denied unless nobody denies writes after the
denial of the descriptor has been lifted. -/
theorem write_dev (hs : s.Inv) (ht : t ∈ s.tids) (hfind : s.find t fd = some e) {v : Int}
    (hrun : write s t fd buffer memory pages = .ok (s', .returned v)) :
    s'.handles.fs.dev = s.handles.fs.dev ∨
      ∃ denied n, (denied = false ↔ Undenied s.handles e.f e.reopened) ∧
        inodeWriteAt s.handles.fs.dev (s.inode e.f).data denied buffer (s.writePos e) memory =
          .ok (s'.handles.fs.dev, n) := by
  unfold write at hrun
  split at hrun
  · cases exit_outcome hrun
  · split at hrun
    · cases hrun
      exact .inl rfl
    · rw [hfind] at hrun
      dsimp only at hrun
      obtain ⟨htid, hopen⟩ := hs.find_open ht hfind
      obtain ⟨h₁, hlift, hsame, hkeeps, hdenied⟩ := lift_denial hs.handles hopen e.reopened
      rw [if_neg (not_not_intro htid), hlift, ok_bind] at hrun
      obtain ⟨fs₂, hseek, hrun⟩ := bind_eq_ok hrun
      obtain ⟨⟨fs₃, n⟩, hwrite, hrun⟩ := bind_eq_ok hrun
      obtain ⟨h₄, hdeny, hrun⟩ := bind_eq_ok hrun
      cases hrun
      obtain ⟨fs₄, hdenied₄, heq⟩ := bind_eq_ok hdeny
      cases heq
      have hdev₄ : fs₄.dev = fs₃.dev := congrArg Store.dev (fileDenyWrite_keepsData hdenied₄).store
      -- `file_seek` changes the position of the file and nothing else
      have hseek' : fs₂.dev = h₁.fs.dev ∧ fs₂.inodes = h₁.fs.inodes ∧
          (fs₂.files e.f).inode = (h₁.fs.files e.f).inode ∧
          (fs₂.files e.f).pos = if e.mmaped then 0 else (h₁.fs.files e.f).pos := by
        cases hmapped : e.mmaped with
        | true =>
          rw [hmapped] at hseek
          cases hseek
          dsimp only
          rw [Function.update_self]
          exact ⟨rfl, rfl, rfl, rfl⟩
        | false =>
          rw [hmapped] at hseek
          cases hseek
          exact ⟨rfl, rfl, rfl, rfl⟩
      obtain ⟨hdev₂, hinodes₂, hinode₂, hpos₂⟩ := hseek'
      have hdev₁ : h₁.fs.dev = s.handles.fs.dev := congrArg Store.dev hkeeps.store
      obtain ⟨⟨dev', n'⟩, hat, heq⟩ := bind_eq_ok hwrite
      cases heq
      rw [hdev₂, hdev₁, hinodes₂, hinode₂, hpos₂, hkeeps.inode, hkeeps.pos, hkeeps.data] at hat
      refine .inr ⟨_, n, hdenied, ?_⟩
      dsimp only
      rwa [hdev₄]

theorem fileBytes_off {dev dev' : Device} {data : InodeDisk}
    (hoff : Device.Off data.Extent dev dev')
    (hapart : ∀ x, data.Extent x → x ≠ k ∧ ¬ (diskInode dev k).Covers x) :
    fileBytes dev' k = fileBytes dev k := by
  have hinode : diskInode dev' k = diskInode dev k :=
    hoff.diskInode_eq fun hin => (hapart k hin).1 rfl
  unfold fileBytes
  rw [hinode]
  exact hoff.content_eq (diskInode_length_lt dev k) fun x hcovers hin => (hapart x hin).2 hcovers

/-- **A harmless write leaves the bytes of the file alone.** -/
theorem write_harmless (hs : s.Inv) (ht : t ∈ s.tids) (hfind : s.find t fd = some e)
    (hharmless : Harmless s e k) {v : Int}
    (hrun : write s t fd buffer memory pages = .ok (s', .returned v)) :
    fileBytes s'.handles.fs.dev k = fileBytes s.handles.fs.dev k := by
  rcases write_dev hs ht hfind hrun with hdev | ⟨denied, n, hdenied, hwrite⟩
  · rw [hdev]
  · unfold inodeWriteAt at hwrite
    cases denied with
    | true =>
      rw [if_pos rfl, Except.ok.injEq, Prod.mk.injEq] at hwrite
      rw [← hwrite.1]
    | false =>
      rw [if_neg Bool.false_ne_true] at hwrite
      unfold Harmless at hharmless
      split at hharmless
      · have hend := hharmless.resolve_left (not_not_intro (hdenied.mp rfl))
        rw [writeLoop_end hend, Except.ok.injEq, Prod.mk.injEq] at hwrite
        rw [← hwrite.1]
      · exact fileBytes_off (writeLoop_off hwrite) hharmless

/-- **Running executables are immutable in runs whose writes are all harmless**: no `write` of any
process changes a byte of a file that a live process has been loaded from. -/
theorem executables_immutable (hreach : machine.ReachIn Protected s) (ht : t ∈ s.tids)
    (hwrite : Protected s ⟨t, pages, .write fd buffer memory⟩) {v : Int}
    (hrun : write s t fd buffer memory pages = .ok (s', .returned v)) (hk : s.Running k) :
    fileBytes s'.handles.fs.dev k = fileBytes s.handles.fs.dev k := by
  have hs := reach_inv hreach
  cases hfind : s.find t fd with
  | none =>
    unfold write at hrun
    rw [hfind] at hrun
    split at hrun
    · cases exit_outcome hrun
    · split at hrun
      · cases hrun
        rfl
      · cases hrun
        rfl
  | some e => exact write_harmless hs ht hfind (hwrite e hfind k hk) hrun

/-! ## two runs -/

/-- Process 1 creates a file of ten bytes, and process 2, whose name is that of the file, is loaded
from it. -/
def loaded : List Action :=
  [⟨1, noPages, createA⟩,
    ⟨1, noPages, .threadCreate 2 nameA⟩,
    ⟨2, noPages, .execOpen nameA (.plenty blankEntry)⟩,
    ⟨2, noPages, .loadDeny⟩,
    ⟨2, noPages, .execClose true true⟩]

/-- A call other than `write`. -/
def NotWrite (_ : Sys) (a : Action) : Prop :=
  match a.call with
  | .write .. => False
  | _ => True

instance decidableNotWrite (s : Sys) (a : Action) : Decidable (NotWrite s a) := by
  unfold NotWrite
  split <;> infer_instance

theorem NotWrite.harmless {a : Action} (h : NotWrite s a) : Protected s a := by
  unfold NotWrite at h
  unfold Protected
  split at h
  · cases h
  · trivial

/-- Process 2 opens its own executable, and its `write` changes nothing. -/
theorem executables_immutable_own_file :
    ∃ s k s' v, machine.ReachIn Protected s ∧ s.Running k ∧
      write s 2 3 [1] true noPages = .ok (s', .returned v) ∧
      fileBytes s'.handles.fs.dev k = fileBytes s.handles.fs.dev k := by
  obtain ⟨s, hreach, htids, hother, hexe, hreturns, hown⟩ := exists_reachIn_of_runSmallIn
    (C := NotWrite) (loaded ++ [⟨2, noPages, .open nameA false openPlenty⟩])
    (fun s => s.tids = [2, 1] ∧ (s.proc 1).exe = none ∧ (s.proc 2).exe.isSome ∧
      returns (write s 2 3 [1] true noPages) 0 ∧ ∀ e ∈ s.find 2 3, ∀ k ∈ (s.proc 2).exe,
        (s.inode e.f).sector = k ∧ ¬ Undenied s.handles e.f e.reopened) (by decide +kernel)
  obtain ⟨k, hk⟩ := Option.isSome_iff_exists.mp hexe
  have ht : 2 ∈ s.tids := htids ▸ List.mem_cons_self
  have hprotected : Protected s ⟨2, noPages, .write 3 [1] true⟩ := by
    rintro e hfind k' ⟨u, hu, huk⟩
    rw [htids] at hu
    have hu2 : u = 2 := by
      rcases List.mem_pair.mp hu with rfl | rfl
      · rfl
      · rw [hother] at huk
        cases huk
    subst hu2
    obtain ⟨hsector, hdenied⟩ := hown e hfind k' huk
    unfold Harmless
    rw [if_pos hsector]
    exact .inl hdenied
  have hreach' : machine.ReachIn Protected s := hreach.mono fun _ _ _ hnot _ => hnot.harmless
  cases hrun : write s 2 3 [1] true noPages with
  | error err =>
    rw [hrun] at hreturns
    cases hreturns
  | ok r =>
    obtain ⟨s', r⟩ := r
    cases r with
    | returned v =>
      have hrunning : s.Running k := ⟨2, ht, hk⟩
      exact ⟨s, k, s', v, hreach', hrunning, hrun,
        executables_immutable hreach' ht hprotected hrun hrunning⟩
    | filled bs | exited =>
      rw [hrun] at hreturns
      cases hreturns

/-- Whether process `t` changes the file that process 2 was loaded from when it writes a byte. -/
def changesExe (s : Sys) (t : Nat) (fd : Int) : Bool :=
  match (s.proc 2).exe, write s t fd [1] true noPages with
  | some k, .ok (s', .returned _) =>
    decide (2 ∈ s.tids) && decide (fileBytes s'.handles.fs.dev k ≠ fileBytes s.handles.fs.dev k)
  | _, _ => false

/-- Process 1 opens the file that process 2 runs, and changes it. -/
theorem executable_overwritten : ∃ s, machine.Reach s ∧ 1 ∈ s.tids ∧ changesExe s 1 3 = true := by
  exact exists_reach_of_runSmall (loaded ++ [⟨1, noPages, .open nameA false openPlenty⟩]) _
    (by decide +kernel)

end Pintos.Descriptor
