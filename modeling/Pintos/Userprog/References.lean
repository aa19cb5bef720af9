import Pintos.Userprog.DescriptorInv

/-!
# Pintos.Userprog.References

References to inodes across processes.  `open_cnt` counts the `struct file` and `struct dir`
objects that have been made and not closed (`Handles.Inv`).  Here it is compared with the objects
that somebody can still reach: the files in the descriptor lists and local variables of live
processes (`Sys.held`), and what the kernel has had open since before the first process.

An object that nobody can reach is never closed.  There are three ways to lose one: `open` returns
-1 after `filesys_open` has found the file, `open` of a file that it marks as reopened drops what
`file_reopen` returns, and `exit` frees the entries of `file_fd_list` without closing their files.
A run without these (`NoLeak`) has exact counts (`references_exact`).
-/

namespace Pintos.Descriptor

open Fs Function List Option

/-! ## what can be reached -/

/-- The inodes of all objects that can be reached, once for each object; `kernel` are the files of
the kernel. -/
def Sys.reachable (s : Sys) (kernel : List Nat) : List Nat :=
  fileRefs s.handles.fs (s.held ++ kernel) ++ s.handles.owned

/-- `filesys_open` returns a null pointer. -/
def NotFound (s : Sys) (file : CString) (memory : Memory) : Prop :=
  (filesysOpen s.handles file memory).toOption.bind Prod.snd = none

/-- A process that ends has no descriptors.  `open` finds no file, or it makes a descriptor and
does not get another `struct file` from `file_reopen`. -/
def NoLeak (s : Sys) (a : Action) : Prop :=
  match a.call with
  | .exit => (s.proc a.tid).fileFdList = []
  | .create file _ _ => file.val.length ≠ 0 ∨ (s.proc a.tid).fileFdList = []
  | .read fd _ _ | .write fd _ _ =>
    stdoutFileno ≤ fd ∧ fd ≤ fileLimit ∨ (s.proc a.tid).fileFdList = []
  | .open file current memory =>
    NotFound s file memory.fs ∨ file.val.length ≠ 0 ∧ s.currentFd ≤ fileLimit ∧
      memory.fileFd = true ∧
      (file ≠ (s.proc a.tid).name ∧ current = false ∨ memory.reopen.file = false)
  | _ => True

instance decidableNoLeak (s : Sys) (a : Action) : Decidable (NoLeak s a) := by
  unfold NoLeak NotFound
  rcases a.call with ⟨⟩ <;> infer_instance

/-- The open files are those that can be reached. -/
def Exact (kernel : List Nat) (s : Sys) : Prop := s.handles.files.Perm (s.held ++ kernel)

variable {s s' : Sys} {t : Nat} {p : Proc} {l l' : List FileWithFd} {h h' : Handles} {e : FileWithFd}
  {pages : Pages} {fd : Int} {r : Outcome} {kernel : List Nat} {sectorMap dataMap current : Bool}
  {memory : Memory} {file name : CString} {v : Int} {c : Call}

/-! ## a change of one process -/

/-- **The files that a process gains are opened, those that it loses are closed.** -/
theorem Exact.setProc (h : Exact kernel s) (hs : s.Inv) (ht : t ∈ s.tids)
    (hproc : s'.proc = update s.proc t p) (htids : s'.tids = s.tids)
    (hfiles : ∀ f, s'.handles.files.count f + (s.proc t).files.count f =
      s.handles.files.count f + p.files.count f) : Exact kernel s' := by
  refine perm_iff_count.mpr fun f => ?_
  have hbefore := (held_perm s ht).count_eq f
  have hafter := (held_update hs.tids ht hproc htids).count_eq f
  have hexact := h.count_eq f
  have hchange := hfiles f
  rw [count_append] at hbefore hafter hexact
  rw [count_append]
  omega

theorem Exact.setHandles (h : Exact kernel s) (hfiles : h'.files = s.handles.files) :
    Exact kernel { s with handles := h' } := by
  unfold Exact
  dsimp only
  rwa [hfiles]

theorem Exact.setList (h : Exact kernel s) (hs : s.Inv) (ht : t ∈ s.tids)
    (hfiles : h'.files = s.handles.files)
    (hkey : l.map FileWithFd.key = (s.proc t).fileFdList.map FileWithFd.key) :
    Exact kernel { s.setList t l with handles := h' } := by
  refine h.setProc hs ht rfl rfl fun f => ?_
  have hsame : Proc.files { s.proc t with fileFdList := l } = (s.proc t).files := by
    unfold Proc.files
    rw [map_f_of_key hkey]
  rw [hsame]
  dsimp only
  rw [hfiles]

/-! ## the calls -/

theorem Exact.exit (h : Exact kernel s) (hs : s.Inv) (ht : t ∈ s.tids)
    (hfile : (s.proc t).file = none) (hlist : (s.proc t).fileFdList = [])
    (hrun : exit s t pages = .ok (s', r)) : Exact kernel s' := by
  unfold Descriptor.exit at hrun
  rw [hlist] at hrun
  cases hrun
  have hnone : (s.proc t).files = [] := by
    unfold Proc.files
    rw [hfile, hlist]
    rfl
  have hheld := held_perm s ht
  rw [hnone, nil_append] at hheld
  have hafter : Sys.held { s.setList t [] with
      handles := s.handles, tids := s.tids.erase t, returned := update s.returned t [] } =
      (s.tids.erase t).flatMap fun u => (s.proc u).files := flatMap_erase_update hs.tids t _
  unfold Exact
  rw [hafter]
  exact h.trans (hheld.append_right _)

theorem Exact.close (h : Exact kernel s) (hs : s.Inv) (ht : t ∈ s.tids)
    (hrun : close s t fd sectorMap dataMap = .ok s') : Exact kernel s' := by
  obtain ⟨⟨h', l⟩, hrun₁, hrun⟩ := bind_eq_ok hrun
  cases hrun
  refine h.setProc hs ht rfl rfl fun f => ?_
  obtain ⟨-, rfl, hperm⟩ := closeFrom_spec hs.handles (hs.entries t ht).own
    (fun e he => hs.entry_open ht he) (hs.files_nodup ht).of_append_right hrun₁
  have hclosed := ((filter_append_perm (·.fd = fd) (s.proc t).fileFdList).map
    FileWithFd.f).count_eq f
  unfold Proc.files
  rw [hperm.count_eq, count_append, count_append, count_append]
  rw [map_append, count_append] at hclosed
  simp only [decide_not, ne_eq] at hclosed ⊢
  omega

theorem fileReopen_none {f : Nat} (hmemory : memory.file = false)
    (hrun : h.exec (.fileReopen f memory) = .ok h') : h'.files = h.files := by
  obtain ⟨⟨fs', new⟩, hrun₁, hrun⟩ := bind_eq_ok hrun
  cases hrun
  unfold fileReopen fileOpen at hrun₁
  rw [hmemory] at hrun₁
  obtain ⟨fs₁, -, heq⟩ := bind_eq_ok hrun₁
  cases heq
  rfl

/-- `open` that does not lose a file: it finds none, or it makes a descriptor of it and opens no
other. -/
theorem openFile_kept {memory : OpenMemory}
    (hkeeps : NoLeak s ⟨t, pages, .open file current memory⟩)
    (hrun : openFile s t file current memory = .ok (s', v)) :
    (∃ h', filesysOpen s.handles file memory.fs = .ok (h', none) ∧ s' = { s with handles := h' }) ∨
      v = s.currentFd + 1 ∧ ∃ h₀ h₁ h₂ f reopened,
        filesysOpen s.handles file memory.fs = .ok (h₀, some f) ∧
        (reopened = true → memory.reopen.file = false) ∧
        (if reopened then h₀.exec (.fileReopen f memory.reopen) else .ok h₀) = .ok h₁ ∧
        h₁.exec (.fileDenyWrite f) = .ok h₂ ∧ s' = s.opened t h₂ f reopened memory.addr := by
  have hfound : ∀ {h : Handles} {f : Nat}, filesysOpen s.handles file memory.fs = .ok (h, some f) →
      file.val.length ≠ 0 ∧ s.currentFd ≤ fileLimit ∧ memory.fileFd = true ∧
        (file ≠ (s.proc t).name ∧ current = false ∨ memory.reopen.file = false) := fun hopen =>
    hkeeps.resolve_left fun hnot => by
      unfold NotFound at hnot
      rw [hopen] at hnot
      cases hnot
  cases openFile_result hrun with
  | notFound hopen => exact .inl ⟨_, hopen, rfl⟩
  | noName hopen hname => exact absurd hname (hfound hopen).1
  | noNumber hopen _ hlt => exact absurd (hfound hopen).2.1 (Int.not_le.mpr hlt)
  | noMemory hopen _ _ hmemory =>
    rw [(hfound hopen).2.2.1] at hmemory
    cases hmemory
  | opened hopen _ _ _ hmarked hreopen hdeny =>
    refine .inr ⟨rfl, _, _, _, _, _, hopen, fun hyes => ?_, hreopen, hdeny, rfl⟩
    refine (hfound hopen).2.2.2.resolve_left fun ⟨hname, hcurrent⟩ => ?_
    rw [hmarked, hcurrent, decide_eq_false hname] at hyes
    cases hyes

theorem Exact.openFile {memory : OpenMemory} (h : Exact kernel s) (hs : s.Inv) (ht : t ∈ s.tids)
    (hkeeps : NoLeak s ⟨t, pages, .open file current memory⟩)
    (hrun : openFile s t file current memory = .ok (s', v)) : Exact kernel s' := by
  rcases openFile_kept hkeeps hrun with ⟨h', hopen, rfl⟩ |
    ⟨-, h₀, h₁, h₂, f, reopened, hopen, hnone, hreopen, hdeny, rfl⟩
  · exact h.setHandles (filesysOpen_spec hs.handles hopen).2
  · obtain ⟨hinv, hfiles⟩ := filesysOpen_spec hs.handles hopen
    have hfiles₁ : h₁.Inv ∧ h₁.files = h₀.files := by
      split at hreopen
      next hyes =>
        have hlegal : h₀.Legal (.fileReopen f memory.reopen) := by
          change f ∈ h₀.files
          rw [hfiles]
          exact mem_cons_self
        exact ⟨hinv.step hlegal hreopen, fileReopen_none (hnone hyes) hreopen⟩
      next =>
        cases hreopen
        exact ⟨hinv, rfl⟩
    have hmem : f ∈ h₁.files := by
      rw [hfiles₁.2, hfiles]
      exact mem_cons_self
    have hsame := same_deny hfiles₁.1 hmem hdeny
    have hall : h₂.files = f :: s.handles.files := by
      rw [hsame.files, hfiles₁.2, hfiles]
      rfl
    refine h.setProc hs ht rfl rfl fun g => ?_
    unfold Proc.files
    dsimp only
    rw [hall, map_append, count_append, count_append, count_append,
      count_cons, map_singleton, count_singleton]
    dsimp only
    omega

theorem Exact.execOpen (h : Exact kernel s) (hs : s.Inv)
    (ht : t ∈ s.tids) (hfile : (s.proc t).file = none) (hrun : execOpen s t name memory = .ok s') :
    Exact kernel s' := by
  obtain ⟨⟨h', file⟩, hrun₁, hrun⟩ := bind_eq_ok hrun
  cases hrun
  obtain ⟨-, hfiles⟩ := filesysOpen_spec hs.handles hrun₁
  refine h.setProc hs ht rfl rfl fun g => ?_
  unfold Proc.files
  dsimp only
  rw [hfiles, hfile, count_append, count_append, count_append]
  simp only [toList_none, count_nil]
  omega

theorem Exact.loadDeny (h : Exact kernel s) (hs : s.Inv) (ht : t ∈ s.tids)
    (hrun : loadDeny s t = .ok s') : Exact kernel s' := by
  unfold Descriptor.loadDeny at hrun
  split at hrun
  · cases hrun
    exact h
  · next file hfile =>
    obtain ⟨h', hrun₁, hrun⟩ := bind_eq_ok hrun
    cases hrun
    obtain ⟨fs', -, heq⟩ := bind_eq_ok hrun₁
    cases heq
    exact h.setProc hs ht rfl rfl fun g => rfl

theorem Exact.execClose (h : Exact kernel s) (hs : s.Inv)
    (ht : t ∈ s.tids) (hrun : execClose s t sectorMap dataMap = .ok s') : Exact kernel s' := by
  unfold Descriptor.execClose at hrun
  split at hrun
  · cases hrun
    exact h
  · next file hfile =>
    obtain ⟨h', hrun₁, hrun⟩ := bind_eq_ok hrun
    cases hrun
    obtain ⟨fs', -, heq⟩ := bind_eq_ok hrun₁
    cases heq
    have hmem : file ∈ s.handles.files := hs.files_open ht (by
      unfold Proc.files
      rw [hfile]
      exact mem_cons_self)
    refine h.setProc hs ht rfl rfl fun g => ?_
    have herase := (perm_cons_erase hmem).count_eq g
    rw [count_cons] at herase
    unfold Proc.files
    dsimp only
    rw [hfile, count_append, count_append, toList_some, count_singleton,
      toList_none, count_nil]
    omega

theorem Exact.threadCreate {tid : Nat} (h : Exact kernel s) (hnew : tid ∉ s.tids) :
    Exact kernel (threadCreate s tid name) := by
  have hheld : (Descriptor.threadCreate s tid name).held = s.held := held_threadCreate hnew
  unfold Exact
  rwa [hheld]

theorem NoLeak.list (h : NoLeak s ⟨t, pages, c⟩) (hc : c.Ends) : (s.proc t).fileFdList = [] := by
  cases c with
  | exit => exact h
  | create => exact h.resolve_left (not_not_intro hc)
  | read | write =>
    exact h.resolve_left fun ⟨hlow, hhigh⟩ =>
      hc.elim (Int.not_lt.mpr hlow) (Int.not_lt.mpr hhigh)
  | _ => exact hc.elim

/-- **Every call that does not lose a file keeps the counts exact.** -/
theorem Exact.call (h : Exact kernel s) (hs : s.Inv) (hlegal : Legal s t c)
    (hkeeps : NoLeak s ⟨t, pages, c⟩) (hrun : call s t pages c = .ok (s', r)) :
    Exact kernel s' := by
  have ht := hlegal.mem
  cases call_effect hlegal hrun with
  | console bs => exact h
  | handles hsame => exact h.setHandles (hsame hs).files
  | list hsame hkey => exact h.setList hs ht (hsame hs).files hkey
  | exit hfile hends hrun => exact h.exit hs ht hfile (hkeeps.list (hends hs)) hrun
  | «open» heq hrun => exact h.openFile hs ht (heq ▸ hkeeps) hrun
  | close hrun => exact h.close hs ht hrun
  | execOpen hfile hrun => exact h.execOpen hs ht hfile hrun
  | loadDeny hrun => exact h.loadDeny hs ht hrun
  | execClose hrun => exact h.execClose hs ht hrun
  | threadCreate hnew => exact h.threadCreate hnew

/-! ## open that fails, and the last close -/

/-- **`filesys_open` that returns a null pointer leaves every `open_cnt` as it was.** -/
theorem filesysOpen_none_openCnt (hinv : h.Inv)
    (hrun : filesysOpen h name memory = .ok (h', none)) (inode : Nat) :
    (inode ∈ h'.fs.openInodes ↔ inode ∈ h.fs.openInodes) ∧
      (inode ∈ h.fs.openInodes → (h'.fs.inodes inode).openCnt = (h.fs.inodes inode).openCnt) := by
  obtain ⟨⟨fs', file⟩, hrun₁, heq⟩ := bind_eq_ok hrun
  cases heq
  obtain ⟨hinv', hkeeps⟩ := hinv.filesysOpen hrun₁
  have hrefs : fileRefs fs' h.files = fileRefs h.fs h.files := by
    unfold fileRefs
    rw [(hkeeps rfl).1]
  have hbalanced := hinv'.balanced
  dsimp only [toList_none, nil_append] at hbalanced
  rw [hrefs] at hbalanced
  have hmem : inode ∈ fs'.openInodes ↔ inode ∈ h.fs.openInodes :=
    (hbalanced.mem inode).trans (hinv.balanced.mem inode).symm
  refine ⟨hmem, fun hopen => ?_⟩
  rw [hinv.balanced.openCnt inode hopen]
  exact hbalanced.openCnt inode (hmem.mpr hopen)

/-- `open` that returns -1 and has not lost a file. -/
theorem openFile_failed {memory : OpenMemory} (hs : s.Inv)
    (hkeeps : NoLeak s ⟨t, pages, .open file current memory⟩)
    (hrun : openFile s t file current memory = .ok (s', exitFail)) (inode : Nat) :
    (inode ∈ s'.handles.fs.openInodes ↔ inode ∈ s.handles.fs.openInodes) ∧
      (inode ∈ s.handles.fs.openInodes →
        (s'.handles.fs.inodes inode).openCnt = (s.handles.fs.inodes inode).openCnt) := by
  rcases openFile_kept hkeeps hrun with ⟨h', hopen, rfl⟩ | ⟨hv, -⟩
  · exact filesysOpen_none_openCnt hs.handles hopen inode
  · have hlow := hs.low
    unfold exitFail at hv
    unfold fdInit at hlow
    omega

theorem closeFrom_of_not_mem (hnot : fd ∉ l.map FileWithFd.fd) :
    closeFrom t fd sectorMap dataMap h l = .ok (h, l) := by
  induction l with
  | nil => rfl
  | cons e es ih =>
    rw [map_cons, mem_cons, not_or] at hnot
    rw [closeFrom, if_neg (Ne.symm hnot.1), ih hnot.2]
    rfl

/-- `close` closes one file: no two entries have the same number. -/
theorem closeFrom_exec (hown : ∀ e ∈ l, e.tid = t)
    (hdistinct : (l.map FileWithFd.fd).Nodup) (he : e ∈ l)
    (hrun : closeFrom t e.fd sectorMap dataMap h l = .ok (h', l')) :
    h.exec (.fileClose e.f sectorMap dataMap) = .ok h' := by
  induction l generalizing l' with
  | nil => cases he
  | cons e' es ih =>
    obtain ⟨hnot, hdistinct⟩ := nodup_cons.mp hdistinct
    unfold closeFrom at hrun
    split at hrun
    next heq =>
      have hself : e = e' := by
        rcases mem_cons.mp he with hself | hin
        · exact hself
        · exact absurd (List.mem_map_of_mem hin) (heq ▸ hnot)
      subst hself
      rw [if_neg (not_not_intro (hown e mem_cons_self))] at hrun
      obtain ⟨h₁, hrun₁, hrun⟩ := bind_eq_ok hrun
      rw [closeFrom_of_not_mem hnot] at hrun
      cases hrun
      exact hrun₁
    next hne =>
      obtain ⟨⟨h₁, es'⟩, hrun₁, hrun⟩ := bind_eq_ok hrun
      cases hrun
      have hin : e ∈ es := (mem_cons.mp he).resolve_left fun heq => hne (heq ▸ rfl)
      exact ih (fun e'' he'' => hown e'' (mem_cons_of_mem _ he'')) hdistinct hin hrun₁

/-! ## the runs -/

/-- The runs from one initial state. -/
def machineFrom (s₀ : Sys) : Machine Sys Action := { machine with init := fun s => s = s₀ }

theorem machineFrom_exact {s₀ : Sys} (hinit : Init s₀)
    (hreach : (machineFrom s₀).ReachIn NoLeak s) :
    s.Inv ∧ Exact s₀.handles.files s := by
  refine hreach.invariant (I := fun s => s.Inv ∧ Exact s₀.handles.files s) (fun s hs => ?_)
    fun s a s' ⟨hs, hexact⟩ hkeeps hstep => ?_
  · obtain rfl : s = s₀ := hs
    refine ⟨hinit.inv, ?_⟩
    have hheld : s.held = [] := by
      refine flatMap_eq_nil_iff.mpr fun t ht => ?_
      unfold Proc.files
      rw [hinit.file t ht, hinit.list t ht]
      rfl
    unfold Exact
    rw [hheld]
    exact .rfl
  · obtain ⟨hlegal, r, hrun⟩ := machine_step hstep
    exact ⟨hs.call hlegal hrun, hexact.call hs hlegal hkeeps hrun⟩

/-- With exact counts, `open_cnt` is the number of objects that can be reached. -/
theorem Exact.openCnt (h : Exact kernel s) (hs : s.Inv) {inode : Nat}
    (hopen : inode ∈ s.handles.fs.openInodes) :
    (s.handles.fs.inodes inode).openCnt = (s.reachable kernel).count inode := by
  have hperm : (fileRefs s.handles.fs s.handles.files ++ s.handles.owned).Perm
      (s.reachable kernel) := (perm_fileRefs s.handles.fs h).append_right _
  rw [hs.handles.balanced.openCnt inode hopen, hperm.count_eq]

/-- Calls on the small device after it has been formatted, as long as they meet a condition. -/
def runSmallFrom (C : Sys → Action → Prop) [∀ s a, Decidable (C s a)] (as : List Action) :
    Option Sys :=
  (filesysInit smallDevice (fun _ => true) (.plenty blankEntry)).toOption.bind fun fs =>
    (machineFrom (boot fs)).runIn C (boot fs) as

theorem exists_reachIn_of_runSmallFrom {C : Sys → Action → Prop} [∀ s a, Decidable (C s a)]
    (as : List Action) (P : Sys → Prop) [DecidablePred P]
    (h : (runSmallFrom C as).any (P ·) = true) :
    ∃ s₀ s, Init s₀ ∧ s₀.handles.files = [] ∧ (machineFrom s₀).ReachIn C s ∧ P s := by
  obtain ⟨s, hs, hp⟩ := (Option.any_eq_true ..).mp h
  obtain ⟨fs, hfs, hrun⟩ := bind_eq_some_iff.mp hs
  obtain ⟨L, hinv, -⟩ := filesysInit_inv (by decide) (eq_ok_of_toOption hfs)
  exact ⟨boot fs, s, init_boot hinv, rfl, .runIn (.init rfl) as hrun, of_decide_eq_true hp⟩

/-- A process creates a file and opens it. -/
def createOpen (memory : OpenMemory) : List Action :=
  [⟨1, noPages, .create nameA ⟨8, by decide⟩ (.plenty blankEntry)⟩,
    ⟨1, noPages, .open nameA false memory⟩]

/-- An inode is open once, and nobody can reach it. -/
def Sys.loses (s : Sys) (kernel : List Nat) : Bool :=
  s.handles.fs.openInodes.any fun inode =>
    (s.handles.fs.inodes inode).openCnt = 1 && (s.reachable kernel).count inode = 0

theorem exists_loses (as : List Action) (p : Sys → Bool)
    (h : (runSmallFrom (fun _ _ => True) as).any (fun s => p s ∧ s.loses []) = true) :
    ∃ s₀ s, Init s₀ ∧ (machineFrom s₀).Reach s ∧ p s = true ∧ s.loses s₀.handles.files = true := by
  obtain ⟨s₀, s, hinit, hfiles, hreach, h⟩ := exists_reachIn_of_runSmallFrom as _ h
  rw [← hfiles] at h
  exact ⟨s₀, s, hinit, hreach, h⟩

end Pintos.Descriptor
