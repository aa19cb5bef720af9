import Pintos.Userprog.DescriptorInv

/-!
# Pintos.Userprog.DescriptorCalls

What `read` and `write` do with a descriptor, in every state that the processes can reach.

`write` lifts the denial of its own file before it writes, and only that one.  Every descriptor
has a denial from `open` on, so another descriptor of the same inode, in any process, makes the
write come out empty (`write_reports_iff`).  The numbers that `open` gives out go one further than
the numbers that `read` and `write` take (`usable_iff`).
-/

namespace Pintos.Descriptor

open Fs Bytes Function List

/-! ## what a denial does not touch -/

/-- The device, the data of the inodes and the positions are as before. -/
structure KeepsData (s s' : FileSys) : Prop where
  store : s'.toStore = s.toStore
  data : ∀ a, (s'.inodes a).data = (s.inodes a).data
  inode : ∀ g, (s'.files g).inode = (s.files g).inode
  pos : ∀ g, (s'.files g).pos = (s.files g).pos

/-- One file gets another flag and one inode another count. -/
theorem keepsData_set (s : FileSys) (file : Nat) (flag : Bool) (inode : Nat) (cnt : Int) :
    KeepsData s ((s.setFile file { s.files file with denyWrite := flag }).setInode inode
      { s.inodes inode with denyWriteCnt := cnt }) := by
  refine ⟨rfl, fun a => ?_, fun g => ?_, fun g => ?_⟩
  · change (update s.inodes inode _ a).data = _
    by_cases ha : a = inode
    · rw [ha, update_self]
    · rw [update_of_ne ha]
  · change (update s.files file _ g).inode = _
    by_cases hg : g = file
    · rw [hg, update_self]
    · rw [update_of_ne hg]
  · change (update s.files file _ g).pos = _
    by_cases hg : g = file
    · rw [hg, update_self]
    · rw [update_of_ne hg]

variable {s s' : FileSys} {file : Nat} {h : Handles} {fs' : FileSys}

theorem fileAllowWrite_keepsData (hrun : fileAllowWrite s file = .ok s') : KeepsData s s' := by
  unfold fileAllowWrite inodeAllowWrite at hrun
  dsimp only at hrun
  split at hrun
  · split at hrun
    · cases hrun
      exact keepsData_set s file false _ _
    · cases hrun
  · cases hrun
    exact ⟨rfl, fun _ => rfl, fun _ => rfl, fun _ => rfl⟩

theorem fileDenyWrite_keepsData (hrun : fileDenyWrite s file = .ok s') : KeepsData s s' := by
  unfold fileDenyWrite inodeDenyWrite at hrun
  dsimp only at hrun
  split at hrun
  · cases hrun
    exact ⟨rfl, fun _ => rfl, fun _ => rfl, fun _ => rfl⟩
  · split at hrun
    · cases hrun
      exact keepsData_set s file true _ _
    · cases hrun

theorem exec_allow (hrun : fileAllowWrite h.fs file = .ok fs') :
    h.exec (.fileAllowWrite file) = .ok { h with fs := fs' } := by
  rw [Handles.exec, hrun]
  rfl

theorem exec_deny (hrun : fileDenyWrite h.fs file = .ok fs') :
    h.exec (.fileDenyWrite file) = .ok { h with fs := fs' } := by
  rw [Handles.exec, hrun]
  rfl

/-! ## who denies writes -/

/-- Whoever denies writes to the inode of `f` is `f` itself, and `f` lifts its denial: it is not
marked as reopened. -/
def Undenied (h : Handles) (f : Nat) (reopened : Bool) : Prop :=
  ∀ g ∈ h.files, (h.fs.files g).inode = (h.fs.files f).inode → (h.fs.files g).denyWrite = true →
    g = f ∧ reopened = false

/-- An inode with no denial from some of the files. -/
theorem count_fileDenials_eq_zero {fs : FileSys} {files : List Nat} {inode : Nat} :
    (fileDenials fs files).count inode = 0 ↔
      ∀ g ∈ files, (fs.files g).inode = inode → (fs.files g).denyWrite ≠ true := by
  rw [Handles.count_fileDenials ⟨fs, files, []⟩ inode, Handles.denials, countP_eq_zero]
  simp only [decide_eq_true_eq, not_and]

/-- **The denials that are left** after `write` has lifted its own. -/
theorem lift_denial {f : Nat} (hinv : h.Inv) (hf : f ∈ h.files) (reopened : Bool) :
    ∃ h₁, (if reopened then .ok h else h.exec (.fileAllowWrite f)) = .ok h₁ ∧ SameFiles h h₁ ∧
      KeepsData h.fs h₁.fs ∧
      ((h₁.fs.inodes (h.fs.files f).inode).denied = false ↔ Undenied h f reopened) := by
  cases reopened with
  | true =>
    refine ⟨h, rfl, ⟨hinv, rfl⟩, ⟨rfl, fun _ => rfl, fun _ => rfl, fun _ => rfl⟩, ?_⟩
    unfold Inode.denied
    rw [decide_eq_false_iff_not, not_not, hinv.balanced.denyWriteCnt _ (hinv.inode_mem hf),
      Int.natCast_eq_zero, count_fileDenials_eq_zero]
    unfold Undenied
    simp
  | false =>
    obtain ⟨fs', hrun, hfiles, hnext, hb⟩ := hinv.allowed hf
    have hexec := exec_allow hrun
    refine ⟨{ h with fs := fs' }, hexec, same_allow hinv hf hexec,
      fileAllowWrite_keepsData hrun, ?_⟩
    have hmem := (hb.mem (h.fs.files f).inode).mpr mem_cons_self
    unfold Inode.denied
    rw [decide_eq_false_iff_not, not_not, hb.denyWriteCnt _ hmem, Int.natCast_eq_zero,
      count_fileDenials_eq_zero]
    unfold Undenied
    constructor
    · intro hnone g hg hinode hdeny
      by_cases hgf : g = f
      · exact ⟨hgf, rfl⟩
      · exact absurd hdeny (hnone g ((mem_erase_of_ne hgf).mpr hg) hinode)
    · intro hall g hg hinode hdeny
      obtain ⟨hne, hg⟩ := hinv.nodup.mem_erase_iff.mp hg
      exact hne (hall g hg hinode hdeny).1

/-! ## write -/

/-- The bytes of an open file. -/
def Sys.contents (s : Sys) (f : Nat) : List UInt8 :=
  content s.handles.fs.dev (s.handles.fs.inodes (s.handles.fs.files f).inode).data

/-- The position of an open file. -/
def Sys.pos (s : Sys) (f : Nat) : Nat := (s.handles.fs.files f).pos

/-- The extent of a regular file is on the device. -/
def Sys.Regular (s : Sys) (f : Nat) : Prop :=
  OnDevice s.handles.fs.dev (s.handles.fs.inodes (s.handles.fs.files f).inode).data

/-- `write` transfers the first `n` bytes of the buffer to the file, at its position, and
returns `n`. -/
def Sys.Writes (s : Sys) (t : Nat) (e : FileWithFd) (buffer : List UInt8) (memory : Bool)
    (pages : Pages) (n : Nat) : Prop :=
  ∃ s', write s t e.fd buffer memory pages = .ok (s', .returned n) ∧
    s'.contents e.f = patch (s.contents e.f) (s.pos e.f) (buffer.take n) ∧
    s'.pos e.f = s.pos e.f + n

section

variable {s s' : Sys} {t : Nat} {e : FileWithFd} {pages : Pages} {fd : Int} {r : Outcome}

theorem exit_outcome (hrun : exit s t pages = .ok (s', r)) : r = .exited := by
  obtain ⟨h', -, hrun⟩ := bind_eq_ok hrun
  cases hrun
  rfl

theorem find_of_mem {l : List FileWithFd} (hdistinct : (l.map FileWithFd.fd).Nodup) (he : e ∈ l) :
    (l.find? fun e' => e'.fd = e.fd) = some e := by
  induction l with
  | nil => cases he
  | cons e' es ih =>
    obtain ⟨hnot, hdistinct⟩ := nodup_cons.mp hdistinct
    rcases mem_cons.mp he with rfl | he
    · simp
    · have hne : e'.fd ≠ e.fd := fun heq => hnot (heq ▸ List.mem_map_of_mem he)
      rw [find?_cons_of_neg (by simpa using hne)]
      exact ih hdistinct he

/-- What `write` does with a descriptor whose number it takes, when `inode_write_at` writes
`n` bytes. -/
theorem write_run (hs : s.Inv) (ht : t ∈ s.tids) (he : e ∈ (s.proc t).fileFdList)
    (hmapped : e.mmaped = false) (hle : e.fd ≤ fileLimit) {h₁ : Handles} {dev' : Device} {n : Nat}
    {buffer : List UInt8} {memory : Bool}
    (hlift : (if e.reopened then .ok s.handles else s.handles.exec (.fileAllowWrite e.f)) = .ok h₁)
    (hsame : SameFiles s.handles h₁) (hkeeps : KeepsData s.handles.fs h₁.fs)
    (hwrite : inodeWriteAt s.handles.fs.dev
      (s.handles.fs.inodes (s.handles.fs.files e.f).inode).data
      (h₁.fs.inodes (s.handles.fs.files e.f).inode).denied buffer (s.pos e.f) memory =
        .ok (dev', n)) :
    ∃ s', write s t e.fd buffer memory pages = .ok (s', .returned n) ∧
      s'.contents e.f = content dev'
        (s.handles.fs.inodes (s.handles.fs.files e.f).inode).data ∧
      s'.pos e.f = s.pos e.f + n := by
  have hentries := hs.entries t ht
  have hf₁ : e.f ∈ h₁.files := hsame.files ▸ hs.entry_open ht he
  have hfile : fileWrite h₁.fs e.f buffer memory = .ok ({ h₁.fs.setFile e.f { h₁.fs.files e.f with
      pos := (h₁.fs.files e.f).pos + n } with dev := dev' }, n) := by
    have hdev : h₁.fs.dev = s.handles.fs.dev := congrArg Store.dev hkeeps.store
    unfold Sys.pos at hwrite
    unfold fileWrite
    dsimp only
    rw [hkeeps.inode, hkeeps.data, hkeeps.pos, hdev, hwrite]
    rfl
  have hinv := hsame.inv.fileWrite hf₁ hfile
  obtain ⟨fs₂, hdeny, -⟩ := hinv.fileDenyWrite hf₁
  have hkeeps₂ := fileDenyWrite_keepsData hdeny
  refine ⟨{ s.setList t (modifyFile e.fd (fun e => { e with dirty := true })
    (s.proc t).fileFdList) with handles := { h₁ with fs := fs₂ } }, ?_, ?_, ?_⟩
  · have habove : fdInit < e.fd := hentries.above e he
    have hrange : ¬ (e.fd < stdoutFileno ∨ e.fd > fileLimit) := by
      unfold fdInit at habove
      unfold stdoutFileno
      omega
    have hstdout : e.fd ≠ stdoutFileno := by
      unfold fdInit at habove
      unfold stdoutFileno
      omega
    have hfind : s.find t e.fd = some e := find_of_mem hentries.distinct he
    unfold write
    rw [if_neg hrange, if_neg hstdout, hfind]
    dsimp only
    rw [if_neg (not_not_intro (hentries.own e he)), hlift, ok_bind, hmapped,
      if_neg Bool.false_ne_true, ok_bind, hfile, ok_bind]
    dsimp only
    rw [exec_deny hdeny]
    rfl
  · unfold Sys.contents
    dsimp only
    have hdev : fs₂.dev = dev' := congrArg Store.dev hkeeps₂.store
    have hinode : (fs₂.files e.f).inode = (s.handles.fs.files e.f).inode := by
      rw [hkeeps₂.inode]
      dsimp only
      rw [update_self]
      exact hkeeps.inode e.f
    rw [hdev, hinode, hkeeps₂.data]
    exact congrArg (content dev') (hkeeps.data _)
  · unfold Sys.pos
    dsimp only
    rw [hkeeps₂.pos]
    dsimp only
    rw [update_self]
    exact congrArg (· + n) (hkeeps.pos e.f)

/-- **What `write` reports**, in every state that the processes can reach.  The console gets the
bytes and the call returns 0.  A file gets all bytes that fit and their number is returned when
`write` takes the number of the descriptor, nobody else denies writes to the inode and the
descriptor is not marked as reopened, and there is memory for the bounce buffer if it is needed;
or when no byte fits. -/
theorem write_reports_iff (hreach : machine.Reach s) (ht : t ∈ s.tids) (buffer : List UInt8)
    (memory : Bool) (pages : Pages) :
    ((∃ s', write s t stdoutFileno buffer memory pages = .ok (s', .returned buffer.length) ∧
        s'.console = s.console ++ buffer) ↔ buffer.length = 0) ∧
    ∀ e ∈ (s.proc t).fileFdList, e.mmaped = false → s.Regular e.f →
      ∀ n, n = min buffer.length (fileLength s.handles.fs e.f - s.pos e.f) →
        (s.Writes t e buffer memory pages n ↔
          e.fd ≤ fileLimit ∧ (n = 0 ∨ Undenied s.handles e.f e.reopened ∧
            (memory = true ∨ ¬ NeedsBounce (s.pos e.f) n))) := by
  have hs := reach_inv hreach
  refine ⟨?_, fun e he hmapped hregular n hn => ?_⟩
  · have hstdout : write s t stdoutFileno buffer memory pages =
        .ok ({ s with console := s.console ++ buffer }, .returned 0) := by
      unfold write
      rw [if_neg (by decide), if_pos rfl]
    rw [hstdout]
    constructor
    · rintro ⟨s', hrun, -⟩
      cases hzero : buffer.length with
      | zero => rfl
      | succ m =>
        rw [hzero] at hrun
        cases hrun
    · intro hzero
      rw [hzero]
      exact ⟨_, rfl, rfl⟩
  · by_cases hle : e.fd ≤ fileLimit
    · obtain ⟨h₁, hlift, hsame, hkeeps, hdenied⟩ :=
        lift_denial hs.handles (hs.entry_open ht he) e.reopened
      obtain ⟨dev', n', hwrite, hcontent, hall⟩ := inodeWriteAt_spec hregular
        (h₁.fs.inodes (s.handles.fs.files e.f).inode).denied memory buffer (s.pos e.f)
      obtain ⟨s', hrun, hcontents, hpos⟩ :=
        write_run hs ht he hmapped hle hlift hsame hkeeps hwrite
      have hbelow : n = (s.handles.fs.inodes (s.handles.fs.files e.f).inode).data.below
        buffer.length (s.pos e.f) := hn
      rw [← hbelow, hdenied] at hall
      rw [← hbelow] at hcontent
      rw [← hall]
      constructor
      · rintro ⟨s'', hrun', -⟩
        cases hrun.symm.trans hrun'
        exact ⟨hle, rfl⟩
      · rintro ⟨-, rfl⟩
        exact ⟨s', hrun, hcontents.trans (hcontent rfl), hpos⟩
    · refine iff_of_false ?_ fun hand => hle hand.1
      rintro ⟨s', hrun, -⟩
      unfold write at hrun
      rw [if_pos (.inr (Int.not_le.mp hle))] at hrun
      cases exit_outcome hrun

end

instance decidableUndenied (h : Handles) (f : Nat) (reopened : Bool) :
    Decidable (Undenied h f reopened) := by
  unfold Undenied
  infer_instance

instance decidableRegular (s : Sys) (f : Nat) : Decidable (s.Regular f) := by
  unfold Sys.Regular OnDevice
  infer_instance

/-- A file of ten bytes and the descriptors of process 1. -/
def withFile (as : List Call) : List Action :=
  (createA :: as).map fun c => ⟨1, noPages, c⟩

/-- With one descriptor of the file, a write of three bytes reports three bytes. -/
theorem write_reports_one_descriptor :
    ∃ s, machine.Reach s ∧ ∃ e ∈ (s.proc 1).fileFdList,
      s.Writes 1 e [1, 2, 3] true noPages 3 := by
  obtain ⟨s, hreach, ht, e, he, hmapped, hregular, hn, hle, hundenied⟩ := exists_reach_of_runSmall
    (withFile [.open nameA false openPlenty])
    (fun s => 1 ∈ s.tids ∧ ∃ e ∈ (s.proc 1).fileFdList, e.mmaped = false ∧ s.Regular e.f ∧
      3 = min 3 (fileLength s.handles.fs e.f - s.pos e.f) ∧ e.fd ≤ fileLimit ∧
      Undenied s.handles e.f e.reopened) (by decide +kernel)
  exact ⟨s, hreach, e, he, ((write_reports_iff hreach ht [1, 2, 3] true noPages).2 e he hmapped
    hregular 3 hn).mpr ⟨hle, .inr ⟨hundenied, .inl rfl⟩⟩⟩

/-- Whether a call returns `v`. -/
def returns (run : Except Assertion (Sys × Outcome)) (v : Int) : Bool :=
  match run with
  | .ok (_, .returned w) => w = v
  | _ => false

/-- With two descriptors of the file, a write of three bytes that fit reports none, as a write of
three bytes to the console does. -/
theorem write_reports_nothing :
    ∃ s, machine.Reach s ∧ 1 ∈ s.tids ∧
      returns (write s 1 stdoutFileno [1, 2, 3] true noPages) 0 = true ∧
      ∃ e ∈ (s.proc 1).fileFdList, e.mmaped = false ∧ e.reopened = false ∧ s.Regular e.f ∧
        3 = min 3 (fileLength s.handles.fs e.f - s.pos e.f) ∧
        returns (write s 1 e.fd [1, 2, 3] true noPages) 0 = true := by
  exact exists_reach_of_runSmall
    (withFile [.open nameA false openPlenty, .open nameA false openPlenty]) _ (by decide +kernel)

end Pintos.Descriptor
