import Pintos.Userprog.DescriptorCalls

/-!
# Pintos.Userprog.DescriptorNumbers

The numbers of descriptors.  `currentFd` only grows, whatever is closed, and `open` fails for
every process once it is above `FILE_LIMIT` (`open_succeeds_iff`).  The last `open` that succeeds
returns a number that `read` and `write` do not take (`usable_iff`).
-/

namespace Pintos.Descriptor

open Fs Function List Option

/-! ## the numbers that read and write take -/

variable {s s' : Sys} {t : Nat} {fd : Int} {L : Layout}

/-- `read` does not terminate the process. -/
def Sys.Reads (s : Sys) (t : Nat) (fd : Int) : Prop :=
  ∀ size memory pages s', read s t fd size memory pages ≠ .ok (s', .exited)

/-- `write` does not terminate the process. -/
def Sys.TakesWrite (s : Sys) (t : Nat) (fd : Int) : Prop :=
  ∀ buffer memory pages s', write s t fd buffer memory pages ≠ .ok (s', .exited)

theorem exit_noPages (s : Sys) (t : Nat) : ∃ s', exit s t noPages = .ok (s', .exited) := by
  have hfiles : ∀ h l, exitFiles noPages t h l = .ok h := by
    intro h l
    induction l with
    | nil => rfl
    | cons e es ih =>
      unfold exitFiles
      exact ih
  unfold exit
  rw [hfiles]
  exact ⟨_, rfl⟩

/-- **The descriptors that can be used**, of those that `open` has returned and that are not
closed, and of `STDIN_FILENO` for `read`. -/
theorem usable_iff (hreach : machine.Reach s) (ht : t ∈ s.tids)
    (hvalid : fd ∈ s.returned t ∨ fd = stdinFileno) :
    s.Reads t fd ∧ (fd ≠ stdinFileno → s.TakesWrite t fd) ↔
      fd ≠ stdinFileno ∧ fd ≤ fileLimit := by
  have hs := reach_inv hreach
  have hentries := hs.entries t ht
  constructor
  · rintro ⟨hread, -⟩
    -- out of the range, the process exits
    have hrange : ¬ (fd < stdoutFileno ∨ fd > fileLimit) := by
      intro hout
      obtain ⟨s', hexit⟩ := exit_noPages s t
      refine hread ⟨0, by decide⟩ true noPages s' ?_
      unfold read
      rw [if_pos hout, hexit]
    unfold stdoutFileno at hrange
    unfold stdinFileno
    omega
  · rintro ⟨hstdin, hle⟩
    have hmem := hvalid.resolve_right hstdin
    rw [hs.returned t ht] at hmem
    obtain ⟨e, he, rfl⟩ := List.mem_map.mp hmem
    have habove := hentries.above e he
    have hfind : s.find t e.fd = some e := find_of_mem hentries.distinct he
    have hown := hentries.own e he
    have hrange : ¬ (e.fd < stdoutFileno ∨ e.fd > fileLimit) := by
      unfold fdInit at habove
      unfold stdoutFileno
      omega
    have hstdout : e.fd ≠ stdoutFileno := by
      unfold fdInit at habove
      unfold stdoutFileno
      omega
    refine ⟨fun size memory pages s' hrun => ?_, fun _ buffer memory pages s' hrun => ?_⟩
    · unfold read at hrun
      rw [if_neg hrange, if_neg hstdin, hfind] at hrun
      dsimp only at hrun
      rw [if_neg (not_not_intro hown)] at hrun
      obtain ⟨x, -, hrun⟩ := bind_eq_ok hrun
      cases hrun
    · unfold write at hrun
      rw [if_neg hrange, if_neg hstdout, hfind] at hrun
      dsimp only at hrun
      rw [if_neg (not_not_intro hown)] at hrun
      obtain ⟨h₁, -, hrun⟩ := bind_eq_ok hrun
      obtain ⟨fs₂, -, hrun⟩ := bind_eq_ok hrun
      obtain ⟨x, -, hrun⟩ := bind_eq_ok hrun
      obtain ⟨h₄, -, hrun⟩ := bind_eq_ok hrun
      cases hrun

theorem usable_first :
    ∃ s, machine.Reach s ∧ 3 ∈ s.returned 1 ∧ s.Reads 1 3 ∧ s.TakesWrite 1 3 := by
  obtain ⟨s, hreach, ht, hmem⟩ := exists_reach_of_runSmall (withFile [.open nameA false openPlenty])
    (fun s => 1 ∈ s.tids ∧ 3 ∈ s.returned 1) (by decide +kernel)
  obtain ⟨hread, hwrite⟩ := (usable_iff hreach ht (.inl hmem)).mpr (by decide)
  exact ⟨s, hreach, hmem, hread, hwrite (by decide)⟩

/-! ## the numbers that open gives -/

/-- The number of descriptors that are open in all processes. -/
def Sys.openCount (s : Sys) : Nat := (s.tids.map fun t => (s.proc t).fileFdList.length).sum

/-- **When `open` succeeds**, for a file that is found and with memory for all that is asked for:
it does not matter how many descriptors are open, but how many have ever been opened. -/
theorem open_succeeds_iff (hreach : machine.Reach s) (t : Nat) {file : CString}
    (hname : file.val.length ≠ 0) (current : Bool) {memory : OpenMemory}
    (hmemory : memory.fileFd = true) (hreopen : memory.reopen.file = true) {h : Handles} {f : Nat}
    (hfound : filesysOpen s.handles file memory.fs = .ok (h, some f)) :
    (∃ s' fd, openFile s t file current memory = .ok (s', fd) ∧ fd ≠ exitFail) ↔
      s.currentFd ≤ fileLimit := by
  have hs := reach_inv hreach
  constructor
  · rintro ⟨s', fd, hrun, hne⟩
    cases openFile_result hrun with
    | notFound _ => exact absurd rfl hne
    | noName _ _ => exact absurd rfl hne
    | noNumber _ _ _ => exact absurd rfl hne
    | noMemory _ _ hle _ => exact hle
    | opened _ _ hle _ _ _ _ => exact hle
  · intro hle
    obtain ⟨hinv, hfiles⟩ := filesysOpen_spec hs.handles hfound
    have hf : f ∈ h.files := hfiles ▸ mem_cons_self
    obtain ⟨h₁, hrun₁⟩ : ∃ h₁, (if decide (file = (s.proc t).name) || current then
        h.exec (.fileReopen f memory.reopen) else .ok h) = .ok h₁ := by
      split
      · rw [Handles.exec, fileReopen, Fs.fileOpen]
        dsimp only
        rw [if_pos hreopen]
        exact ⟨_, rfl⟩
      · exact ⟨h, rfl⟩
    have hinv₁ : h₁.Inv ∧ f ∈ h₁.files := by
      split at hrun₁
      · have hlegal : h.Legal (.fileReopen f memory.reopen) := hf
        refine ⟨hinv.step hlegal hrun₁, ?_⟩
        obtain ⟨⟨fs', new⟩, -, hrun₁⟩ := bind_eq_ok hrun₁
        cases hrun₁
        exact mem_append_right _ hf
      · cases hrun₁
        exact ⟨hinv, hf⟩
    obtain ⟨fs₂, hdeny, -⟩ := hinv₁.1.fileDenyWrite hinv₁.2
    refine ⟨_, _, openFile_run hfound hname hle hmemory rfl hrun₁ (exec_deny hdeny), ?_⟩
    have := hs.low
    unfold fdInit at this
    unfold exitFail
    omega

/-! ## a file that is opened and closed again and again -/

theorem fileAllowWrite_deny {s s' : FileSys} {file : Nat} (hflag : (s.files file).denyWrite = false)
    (hcnt : 0 ≤ (s.inodes (s.files file).inode).denyWriteCnt)
    (hrun : fileDenyWrite s file = .ok s') :
    fileAllowWrite s' file = .ok s := by
  obtain ⟨st, map, inodes, openInodes, files, next⟩ := s
  have hfile : ⟨(files file).inode, (files file).pos, false⟩ = files file := by rw [← hflag]
  unfold fileDenyWrite inodeDenyWrite at hrun
  rw [hflag, if_neg Bool.false_ne_true] at hrun
  dsimp only at hrun hcnt
  split at hrun
  next hle =>
    cases hrun
    have hpos : 0 < (inodes (files file).inode).denyWriteCnt + 1 := by omega
    simp [fileAllowWrite, inodeAllowWrite, hpos, hle, hfile]
  next => cases hrun

/-- Process 1 has nothing open on a file system with a file `a`, of which only the free map is
open. -/
structure Ready (L : Layout) (s : Sys) : Prop where
  inv : Fs.Inv L [L.mapInode] s.handles.fs
  found : ∃ k, names s.handles.fs.dev L.root nameA = some k
  tids : s.tids = [1]
  proc : s.proc 1 = mainProc

theorem Ready.finds (hready : Ready L s) :
    ∃ fs f k, filesysOpen s.handles nameA openPlenty.fs =
        .ok (⟨fs, f :: s.handles.files, s.handles.owned⟩, some f) ∧
      Opens L [L.mapInode] s.handles.fs fs f k := by
  obtain ⟨k, hk⟩ := hready.found
  obtain ⟨fs, f, hopen, ho⟩ := hready.inv.filesysOpen_some blankEntry hk
  refine ⟨fs, f, k, ?_, ho⟩
  unfold filesysOpen openPlenty
  rw [hopen]
  rfl

theorem Ready.opened (hready : Ready L s) (hs : s.Inv) (hle : s.currentFd ≤ fileLimit) :
    ∃ fs fs' f k, Opens L [L.mapInode] s.handles.fs fs f k ∧ fileDenyWrite fs f = .ok fs' ∧
      openFile s 1 nameA false openPlenty =
        .ok (s.opened 1 ⟨fs', f :: s.handles.files, s.handles.owned⟩ f false 0, s.currentFd + 1) := by
  obtain ⟨fs, f, k, hfound, ho⟩ := hready.finds
  obtain ⟨hinv, -⟩ := filesysOpen_spec hs.handles hfound
  obtain ⟨fs', hdeny, -⟩ := hinv.fileDenyWrite mem_cons_self
  refine ⟨fs, fs', f, k, ho, hdeny, ?_⟩
  have hmarked : false = (decide (nameA = (s.proc 1).name) || false) := by
    rw [hready.proc]
    decide
  have hreopen : (if false then Handles.exec ⟨fs, f :: s.handles.files, s.handles.owned⟩
      (.fileReopen f openPlenty.reopen) else .ok ⟨fs, f :: s.handles.files, s.handles.owned⟩) =
      .ok ⟨fs, f :: s.handles.files, s.handles.owned⟩ := rfl
  exact openFile_run hfound (by decide) hle rfl hmarked hreopen (exec_deny hdeny)

theorem Ready.step_open {v : Int} (hready : Ready L s)
    (hopen : openFile s 1 nameA false openPlenty = .ok (s', v)) :
    machine.step s ⟨1, noPages, .open nameA false openPlenty⟩ = some s' := by
  have hlegal : Legal s 1 (.open nameA false openPlenty) := by
    refine ⟨hready.tids ▸ mem_singleton_self 1, ?_⟩
    rw [hready.proc]
    rfl
  have hcall : call s 1 noPages (.open nameA false openPlenty) = .ok (s', .returned v) := by
    rw [call, hopen]
    rfl
  exact machine_step_of hlegal hcall

theorem Ready.closed {fs fs' : FileSys} {f k : Nat} (hready : Ready L s)
    (ho : Opens L [L.mapInode] s.handles.fs fs f k) (hdeny : fileDenyWrite fs f = .ok fs') :
    ∃ s', close (s.opened 1 ⟨fs', f :: s.handles.files, s.handles.owned⟩ f false 0) 1
        (s.currentFd + 1) true true = .ok s' ∧ Ready L s' ∧ s'.currentFd = s.currentFd + 1 := by
  have hopen : (fs.files f).inode ∈ fs.openInodes :=
    (ho.inv.opened.mem _).mpr mem_cons_self
  have hcnt : 0 ≤ (fs.inodes (fs.files f).inode).denyWriteCnt :=
    Int.le_of_eq (ho.inv.opened.allowed _ hopen).symm
  have hallow := fileAllowWrite_deny ho.allowed hcnt hdeny
  obtain ⟨fs₂, hclose, hchanges⟩ := ho.inv.fileClose (mem_singleton_self _) ho.allowed
  have hsame : fileClose fs' f true true = .ok fs₂ := by
    rw [← hclose]
    unfold fileClose
    rw [hallow]
    have hnone : fileAllowWrite fs f = .ok fs := by
      unfold fileAllowWrite
      rw [ho.allowed]
      rfl
    rw [hnone]
  have hexec : Handles.exec ⟨fs', f :: s.handles.files, s.handles.owned⟩ (.fileClose f true true) =
      .ok ⟨fs₂, s.handles.files, s.handles.owned⟩ := by
    rw [Handles.exec, hsame]
    dsimp only [ok_bind, pure_eq_ok]
    rw [erase_cons_head]
  refine ⟨{ s with
    handles := ⟨fs₂, s.handles.files, s.handles.owned⟩
    currentFd := s.currentFd + 1
    proc := update s.proc 1 mainProc
    returned := update s.returned 1
      (((s.currentFd + 1) :: s.returned 1).filter (· ≠ s.currentFd + 1)) }, ?_, ?_, rfl⟩
  · have hlist : (s.proc 1).fileFdList = [] := by
      rw [hready.proc]
      rfl
    have hproc : { s.proc 1 with fileFdList := [] } = mainProc := by
      rw [hready.proc]
      rfl
    unfold close
    dsimp only
    rw [update_self, hlist]
    dsimp only
    rw [nil_append, closeFrom, if_pos rfl, if_neg (not_not_intro rfl), hexec]
    dsimp only [ok_bind, closeFrom, pure_eq_ok]
    rw [update_self, update_idem, update_idem, hproc]
  · obtain ⟨k', hk'⟩ := hready.found
    refine ⟨hchanges.inv, ⟨k', ?_⟩, hready.tids, ?_⟩
    · rw [hchanges.names, ho.names, hk']
    · dsimp only
      rw [update_self]

/-- At most 100 descriptors are open before the step. -/
def Few (s : Sys) (_ : Action) : Prop := s.openCount ≤ 100

/-- **A number is used up** when the file is opened and closed. -/
theorem Ready.pair (hready : Ready L s) (hreach : machine.ReachIn Few s)
    (hle : s.currentFd ≤ fileLimit) :
    ∃ s', machine.ReachIn Few s' ∧ Ready L s' ∧ s'.currentFd = s.currentFd + 1 := by
  obtain ⟨fs, fs', f, k, ho, hdeny, hopen⟩ := hready.opened (reach_inv hreach) hle
  obtain ⟨s', hclose, hready', hnumber⟩ := hready.closed ho hdeny
  have hcount : s.openCount = 0 := by
    unfold Sys.openCount
    rw [hready.tids, map_singleton, hready.proc]
    rfl
  have hcount₁ : (s.opened 1 ⟨fs', f :: s.handles.files, s.handles.owned⟩ f false 0).openCount =
      1 := by
    unfold Sys.openCount
    dsimp only
    rw [hready.tids, map_singleton, update_self, hready.proc]
    rfl
  have hlegal₁ : Legal (s.opened 1 ⟨fs', f :: s.handles.files, s.handles.owned⟩ f false 0) 1
      (.close (s.currentFd + 1) true true) := by
    refine ⟨hready.tids ▸ mem_singleton_self 1, ?_⟩
    dsimp only
    rw [update_self, hready.proc]
    rfl
  have hcall₁ : call (s.opened 1 ⟨fs', f :: s.handles.files, s.handles.owned⟩ f false 0) 1 noPages
      (.close (s.currentFd + 1) true true) = .ok (s', .returned 0) := by
    rw [call, hclose]
    rfl
  refine ⟨s', .step (.step hreach ?_ (hready.step_open hopen)) ?_
    (machine_step_of hlegal₁ hcall₁), hready', hnumber⟩
  · change s.openCount ≤ 100
    omega
  · change Sys.openCount _ ≤ 100
    omega

theorem exists_ready : ∃ L s, machine.ReachIn Few s ∧ Ready L s ∧ s.currentFd = fdInit := by
  have hsome : ((filesysInit smallDevice (fun _ => true) (.plenty blankEntry)).toOption.bind
      fun fs => (filesysCreate fs nameA ⟨10, by decide⟩ (.plenty blankEntry)).toOption.map
        Prod.snd) = some true := by
    decide +kernel
  obtain ⟨fs, hfs, hcreated⟩ := bind_eq_some_iff.mp hsome
  obtain ⟨⟨fs', success⟩, hcreate, heq⟩ := map_eq_some_iff.mp hcreated
  have hrun := eq_ok_of_toOption hcreate
  obtain ⟨L, hinv, -⟩ := filesysInit_inv (by decide) (eq_ok_of_toOption hfs)
  have hlegal : Legal (boot fs) 1 createA :=
    ⟨mem_singleton_self 1, rfl⟩
  have hcall : call (boot fs) 1 noPages createA =
      .ok ({ boot fs with handles := { (boot fs).handles with fs := fs' } },
        .returned (if success then 1 else 0)) := by
    rw [createA, call, create, if_neg (by decide), if_pos (by decide)]
    change (filesysCreate fs nameA _ _ >>= _) = _
    rw [hrun]
    rfl
  refine ⟨L, { boot fs with handles := { (boot fs).handles with fs := fs' } },
    .step (.init (init_boot hinv)) ?_ (machine_step_of hlegal hcall), ?_, rfl⟩
  · exact Nat.zero_le _
  · rcases hinv.filesysCreate nameA ⟨10, by decide⟩ (by decide) blankEntry with
      ⟨fs'', hrun', -⟩ | ⟨fs'', k, hrun', hchanges, -⟩
    · cases hrun.symm.trans hrun'
      cases heq
    · cases hrun.symm.trans hrun'
      refine ⟨hchanges.inv, ⟨k, ?_⟩, rfl, rfl⟩
      rw [hchanges.names, update_self]

/-- Any number up to the last one can be used up, with one descriptor at a time. -/
theorem exists_number (n : Nat) (hn : fdInit + n ≤ fileLimit + 1) :
    ∃ L s, machine.ReachIn Few s ∧ Ready L s ∧ s.currentFd = fdInit + n := by
  induction n with
  | zero => exact exists_ready
  | succ n ih =>
    obtain ⟨L, s, hreach, hready, hnumber⟩ := ih (by omega)
    obtain ⟨s', hreach', hready', hnumber'⟩ := hready.pair hreach (by omega)
    exact ⟨L, s', hreach', hready', by omega⟩

theorem open_succeeds_first :
    ∃ s, machine.Reach s ∧
      ∃ s' fd, openFile s 1 nameA false openPlenty = .ok (s', fd) ∧ fd ≠ exitFail := by
  obtain ⟨L, s, hreach, hready, hnumber⟩ := exists_ready
  obtain ⟨fs, f, k, hfound, -⟩ := hready.finds
  have hany : machine.Reach s := hreach.mono fun _ _ _ _ _ => trivial
  exact ⟨s, hany, (open_succeeds_iff hany 1 (by decide) false rfl rfl hfound).mpr
    (by rw [hnumber]; decide)⟩

/-- After 127 descriptors have been opened and closed, one at a time, `open` fails. -/
theorem open_fails_after_127 :
    ∃ s h f, machine.ReachIn Few s ∧ s.openCount = 0 ∧
      filesysOpen s.handles nameA openPlenty.fs = .ok (h, some f) ∧
      ∃ s', openFile s 1 nameA false openPlenty = .ok (s', exitFail) := by
  obtain ⟨L, s, hreach, hready, hnumber⟩ := exists_number 127 (by decide)
  obtain ⟨fs, f, k, hfound, -⟩ := hready.finds
  refine ⟨s, _, f, hreach, ?_, hfound, { s with
    handles := ⟨fs, f :: s.handles.files, s.handles.owned⟩ }, ?_⟩
  · unfold Sys.openCount
    rw [hready.tids, map_singleton, hready.proc]
    rfl
  · have hchecked : openChecked { s with
        handles := ⟨fs, f :: s.handles.files, s.handles.owned⟩ } = false := by
      unfold openChecked
      rw [hnumber]
      decide
    unfold openFile openFound
    rw [hfound, ok_bind]
    dsimp only
    rw [if_neg (by decide)]
    dsimp only [ok_bind, pure_eq_ok, map_some]
    rw [hchecked, if_neg Bool.false_ne_true]

/-- The 127th descriptor has the number 129: `read` and `write` terminate the process. -/
theorem last_descriptor_unusable :
    ∃ s, machine.Reach s ∧ 1 ∈ s.tids ∧ 129 ∈ s.returned 1 ∧
      (∃ s', read s 1 129 ⟨1, by decide⟩ true noPages = .ok (s', .exited)) ∧
      (∃ s', write s 1 129 [0] true noPages = .ok (s', .exited)) ∧
      ∃ s', read s 1 stdinFileno ⟨1, by decide⟩ true noPages = .ok (s', .exited) := by
  obtain ⟨L, s, hreach, hready, hnumber⟩ := exists_number 126 (by decide)
  obtain ⟨fs, fs', f, k, ho, hdeny, hopen⟩ :=
    hready.opened (reach_inv hreach) (by rw [hnumber]; decide)
  have hany : machine.Reach s := hreach.mono fun _ _ _ _ _ => trivial
  obtain ⟨s', hexit⟩ := exit_noPages
    (s.opened 1 ⟨fs', f :: s.handles.files, s.handles.owned⟩ f false 0) 1
  refine ⟨_, .step hany trivial (hready.step_open hopen),
    hready.tids ▸ mem_singleton_self 1, ?_, ⟨s', ?_⟩, ⟨s', ?_⟩, ⟨s', ?_⟩⟩
  · dsimp only
    rw [update_self, hnumber]
    exact mem_cons_self
  · rw [read, if_pos (by decide), hexit]
  · rw [write, if_pos (by decide), hexit]
  · rw [read, if_pos (by decide), hexit]

end Pintos.Descriptor
