import Pintos.Filesys.Effects
import Pintos.Userprog.Descriptor

/-!
# Pintos.Userprog.DescriptorInv

What holds of the descriptors in every run (`reach_inv`): the counters of the inodes count the
open files, no file belongs to two descriptors, and the descriptors of a process have different
numbers, which are those that `open` has returned.

A call changes the files and the list of one process.  `Inv.setProc` says what is to be shown of
such a change; each call has a lemma that shows it.
-/

namespace Pintos.Descriptor

open Fs
open Function List Option

/-! ## the invariant -/

/-- The files of a process. -/
def Proc.files (p : Proc) : List Nat := p.file.toList ++ p.fileFdList.map FileWithFd.f

/-- The files of all live processes. -/
def Sys.held (s : Sys) : List Nat := s.tids.flatMap fun t => (s.proc t).files

/-- The entries of a process: they are its own, and their numbers are different numbers that
`currentFd` has had. -/
structure Entries (currentFd : Int) (t : Nat) (l : List FileWithFd) : Prop where
  own : ∀ e ∈ l, e.tid = t
  above : ∀ e ∈ l, fdInit < e.fd
  le : ∀ e ∈ l, e.fd ≤ currentFd
  distinct : (l.map FileWithFd.fd).Nodup

/-- The invariant of the descriptors. -/
structure Sys.Inv (s : Sys) : Prop where
  handles : s.handles.Inv
  tids : s.tids.Nodup
  held : s.held.Nodup
  opened : ∀ f ∈ s.held, f ∈ s.handles.files
  entries : ∀ t ∈ s.tids, Entries s.currentFd t (s.proc t).fileFdList
  returned : ∀ t ∈ s.tids, ∀ fd, fd ∈ s.returned t ↔ fd ∈ (s.proc t).fileFdList.map FileWithFd.fd
  low : fdInit ≤ s.currentFd
  high : s.currentFd ≤ fileLimit + 1

variable {s s' : Sys} {t : Nat} {p : Proc} {l l' : List FileWithFd} {h h' : Handles} {e : FileWithFd}
  {pages : Pages} {fd : Int} {currentFd currentFd' : Int} {r : Outcome} {tid f : Nat}
  {name file : CString} {mapping v : Int} {sectorMap dataMap current reopened : Bool}
  {h₁ h₂ : Handles} {C : Sys → Action → Prop}

theorem Entries.mono (h : Entries currentFd t l) (hle : currentFd ≤ currentFd') :
    Entries currentFd' t l :=
  ⟨h.own, h.above, fun e he => Int.le_trans (h.le e he) hle, h.distinct⟩

theorem Entries.sublist (h : Entries currentFd t l) (hsub : l'.Sublist l) :
    Entries currentFd t l' :=
  ⟨fun e he => h.own e (hsub.mem he), fun e he => h.above e (hsub.mem he),
    fun e he => h.le e (hsub.mem he), h.distinct.sublist (hsub.map _)⟩

/-- What of an entry does not change. -/
def FileWithFd.key (e : FileWithFd) : Int × Nat × Nat := (e.fd, e.f, e.tid)

theorem fd_eq_key : FileWithFd.fd = Prod.fst ∘ FileWithFd.key := rfl

theorem f_eq_key : FileWithFd.f = (fun k => k.2.1) ∘ FileWithFd.key := rfl

theorem map_fd_of_key (hkey : l'.map FileWithFd.key = l.map FileWithFd.key) :
    l'.map FileWithFd.fd = l.map FileWithFd.fd := by
  rw [fd_eq_key, ← List.map_map, ← List.map_map, hkey]

theorem map_f_of_key (hkey : l'.map FileWithFd.key = l.map FileWithFd.key) :
    l'.map FileWithFd.f = l.map FileWithFd.f := by
  rw [f_eq_key, ← List.map_map, ← List.map_map, hkey]

theorem Entries.congr (h : Entries currentFd t l)
    (hkey : l'.map FileWithFd.key = l.map FileWithFd.key) : Entries currentFd t l' := by
  have hmem : ∀ e' ∈ l', ∃ e ∈ l, e.fd = e'.fd ∧ e.tid = e'.tid := fun e' he' => by
    have hin := mem_map_of_mem (f := FileWithFd.key) he'
    rw [hkey] at hin
    obtain ⟨e, he, heq⟩ := List.mem_map.mp hin
    exact ⟨e, he, congrArg Prod.fst heq, congrArg (fun k => k.2.2) heq⟩
  refine ⟨fun e' he' => ?_, fun e' he' => ?_, fun e' he' => ?_, ?_⟩
  · obtain ⟨e, he, -, htid⟩ := hmem e' he'
    rw [← htid]
    exact h.own e he
  · obtain ⟨e, he, hfd, -⟩ := hmem e' he'
    rw [← hfd]
    exact h.above e he
  · obtain ⟨e, he, hfd, -⟩ := hmem e' he'
    rw [← hfd]
    exact h.le e he
  · rw [map_fd_of_key hkey]
    exact h.distinct

/-- The files of one process and those of the others. -/
theorem held_perm (s : Sys) (ht : t ∈ s.tids) :
    s.held.Perm ((s.proc t).files ++ (s.tids.erase t).flatMap fun u => (s.proc u).files) :=
  (perm_cons_erase ht).flatMap_right _

theorem flatMap_erase_update (hnodup : s.tids.Nodup) (t : Nat) (p : Proc) :
    ((s.tids.erase t).flatMap fun u => (update s.proc t p u).files) =
      (s.tids.erase t).flatMap fun u => (s.proc u).files :=
  flatMap_congr fun u hu => by
    rw [update_of_ne (hnodup.mem_erase_iff.mp hu).1]

theorem held_update (hnodup : s.tids.Nodup) (ht : t ∈ s.tids)
    (hproc : s'.proc = update s.proc t p) (htids : s'.tids = s.tids) :
    s'.held.Perm (p.files ++ (s.tids.erase t).flatMap fun u => (s.proc u).files) := by
  have hperm := held_perm s' (htids ▸ ht)
  rwa [hproc, htids, update_self, flatMap_erase_update hnodup] at hperm

theorem held_threadCreate (hnew : tid ∉ s.tids) : (threadCreate s tid name).held = s.held := by
  unfold Sys.held threadCreate
  dsimp only
  rw [flatMap_cons, update_self]
  refine flatMap_congr fun u hu => ?_
  have hne : u ≠ tid := fun heq => hnew (heq ▸ hu)
  rw [update_of_ne hne]

namespace Sys.Inv

section

variable (hs : s.Inv)
include hs

theorem files_nodup (ht : t ∈ s.tids) : (s.proc t).files.Nodup :=
  List.Nodup.of_append_left ((held_perm s ht).nodup_iff.mp hs.held)

theorem files_open (ht : t ∈ s.tids) (hf : f ∈ (s.proc t).files) : f ∈ s.handles.files :=
  hs.opened f (mem_flatMap_of_mem ht hf)

theorem entry_open (ht : t ∈ s.tids) (he : e ∈ (s.proc t).fileFdList) : e.f ∈ s.handles.files :=
  hs.files_open ht (mem_append_right _ (mem_map_of_mem he))

/-- **A change of one process**: its new files were its own or nobody's, and the other files are
still open. -/
theorem setProc (ht : t ∈ s.tids) (hproc : s'.proc = update s.proc t p) (htids : s'.tids = s.tids)
    (hreturned : ∀ u, u ≠ t → s'.returned u = s.returned u) (hhandles : s'.handles.Inv)
    (hnodup : p.files.Nodup) (hopen : ∀ f ∈ p.files, f ∈ s'.handles.files)
    (hnew : ∀ f ∈ p.files, f ∈ (s.proc t).files ∨ f ∉ s.held)
    (hrest : ∀ f ∈ s.handles.files, f ∉ (s.proc t).files → f ∈ s'.handles.files)
    (hentries : Entries s'.currentFd t p.fileFdList)
    (hvalues : ∀ fd, fd ∈ s'.returned t ↔ fd ∈ p.fileFdList.map FileWithFd.fd)
    (hle : s.currentFd ≤ s'.currentFd) (hhigh : s'.currentFd ≤ fileLimit + 1) : s'.Inv := by
  have hperm := (held_perm s ht).nodup_iff.mp hs.held
  have hothers : ∀ f ∈ (s.tids.erase t).flatMap fun u => (s.proc u).files,
      f ∈ s.held ∧ f ∉ (s.proc t).files := fun f hf =>
    ⟨(held_perm s ht).mem_iff.mpr (mem_append_right _ hf),
      fun hmem => disjoint_of_nodup_append hperm hmem hf⟩
  have hheld := held_update hs.tids ht hproc htids
  refine ⟨hhandles, htids ▸ hs.tids, ?_, fun f hf => ?_, fun u hu => ?_, fun u hu => ?_,
    Int.le_trans hs.low hle, hhigh⟩
  · refine hheld.nodup_iff.mpr (nodup_append'.mpr ⟨hnodup, hperm.of_append_right, ?_⟩)
    intro f hf hother
    exact (hnew f hf).elim (hothers f hother).2 fun hnot => hnot (hothers f hother).1
  · rcases mem_append.mp (hheld.mem_iff.mp hf) with hf | hf
    · exact hopen f hf
    · exact hrest f (hs.opened f (hothers f hf).1) (hothers f hf).2
  · by_cases hut : u = t
    · subst hut
      rwa [hproc, update_self]
    · rw [hproc, update_of_ne hut]
      exact (hs.entries u (htids ▸ hu)).mono hle
  · by_cases hut : u = t
    · subst hut
      rwa [hproc, update_self]
    · rw [hproc, update_of_ne hut, hreturned u hut]
      exact hs.returned u (htids ▸ hu)

/-- A change of the entries of one process that leaves their keys and the open files alone. -/
theorem setList (ht : t ∈ s.tids) (hhandles : h'.Inv) (hfiles : h'.files = s.handles.files)
    (hkey : l.map FileWithFd.key = (s.proc t).fileFdList.map FileWithFd.key) :
    Sys.Inv { s.setList t l with handles := h' } := by
  have hsame : Proc.files { s.proc t with fileFdList := l } = (s.proc t).files := by
    unfold Proc.files
    rw [map_f_of_key hkey]
  refine hs.setProc ht rfl rfl (fun _ _ => rfl) hhandles ?_ ?_ ?_ ?_ ?_ ?_ (Int.le_refl _) hs.high
  · rw [hsame]
    exact hs.files_nodup ht
  · intro f hf
    rw [hsame] at hf
    exact hfiles.symm ▸ hs.files_open ht hf
  · intro f hf
    rw [hsame] at hf
    exact .inl hf
  · intro f hf _
    exact hfiles.symm ▸ hf
  · exact (hs.entries t ht).congr hkey
  · intro fd
    rw [map_fd_of_key hkey]
    exact hs.returned t ht fd

theorem setHandles (hhandles : h'.Inv)
    (hsub : ∀ f ∈ s.handles.files, f ∈ h'.files) : Sys.Inv { s with handles := h' } :=
  { hs with handles := hhandles, opened := fun f hf => hsub f (hs.opened f hf) }

theorem openNumbered (hle : s.currentFd ≤ fileLimit) : (openNumbered s).Inv :=
  { hs with
    entries := fun t ht => (hs.entries t ht).mono (Int.le_add_one (Int.le_refl _))
    low := Int.le_trans hs.low (Int.le_add_one (Int.le_refl _))
    high := Int.add_le_add_right hle 1 }

end

end Sys.Inv

/-! ## what the loops do -/

/-- The open files are the same ones, and the counters count them. -/
structure SameFiles (h h' : Handles) : Prop where
  inv : h'.Inv
  files : h'.files = h.files

theorem SameFiles.trans {h'' : Handles} (hsame : SameFiles h h') (hsame' : SameFiles h' h'') :
    SameFiles h h'' :=
  ⟨hsame'.inv, hsame'.files.trans hsame.files⟩

theorem same_allow (hinv : h.Inv) (hf : f ∈ h.files)
    (hrun : h.exec (.fileAllowWrite f) = .ok h') : SameFiles h h' := by
  have hlegal : h.Legal (.fileAllowWrite f) := hf
  refine ⟨hinv.step hlegal hrun, ?_⟩
  obtain ⟨fs', -, hrun⟩ := bind_eq_ok hrun
  cases hrun
  rfl

theorem same_deny (hinv : h.Inv) (hf : f ∈ h.files)
    (hrun : h.exec (.fileDenyWrite f) = .ok h') : SameFiles h h' := by
  have hlegal : h.Legal (.fileDenyWrite f) := hf
  refine ⟨hinv.step hlegal hrun, ?_⟩
  obtain ⟨fs', -, hrun⟩ := bind_eq_ok hrun
  cases hrun
  rfl

/-- A denial that is lifted unless the file is marked. -/
theorem same_allow_unless (hinv : h.Inv) (hf : f ∈ h.files) {marked : Bool}
    (hrun : (if marked then .ok h else h.exec (.fileAllowWrite f)) = .ok h') : SameFiles h h' := by
  split at hrun
  · cases hrun
    exact ⟨hinv, rfl⟩
  · exact same_allow hinv hf hrun

theorem unmapFile_same (hinv : h.Inv) (hf : e.f ∈ h.files)
    (hrun : unmapFile pages h e = .ok h') : SameFiles h h' := by
  obtain ⟨h₁, hrun₁, hrun⟩ := bind_eq_ok hrun
  have hsame₁ := same_allow_unless hinv hf hrun₁
  obtain ⟨h₂, hrun₂, hrun⟩ := bind_eq_ok hrun
  have hsame₂ := hsame₁.trans (same_allow hsame₁.inv (hsame₁.files ▸ hf) hrun₂)
  obtain ⟨fs₃, hrun₃, hrun⟩ := bind_eq_ok hrun
  have hinv₃ : Handles.Inv { h₂ with fs := fs₃ } := by
    split at hrun₃
    · cases hrun₃
      exact hsame₂.inv
    · obtain ⟨⟨dev, n⟩, -, hrun₃⟩ := bind_eq_ok hrun₃
      cases hrun₃
      exact hsame₂.inv.withStore ⟨dev, h₂.fs.freeMap⟩
  obtain ⟨fs₄, hrun₄, hrun⟩ := bind_eq_ok hrun
  cases hrun
  have hmem : e.f ∈ h₂.files := hsame₂.files ▸ hf
  exact ⟨hinv₃.fileSeek hmem hrun₄, hsame₂.files⟩

/-- **`munmap`** keeps the entries but for `mmaped`. -/
theorem munmapFrom_key (hrun : munmapFrom pages t mapping h l = .ok (h', l')) :
    l'.map FileWithFd.key = l.map FileWithFd.key := by
  induction l generalizing h l' with
  | nil =>
    cases hrun
    rfl
  | cons e es ih =>
    unfold munmapFrom at hrun
    split at hrun
    · split at hrun
      · cases hrun
        rfl
      · obtain ⟨h₁, -, hrun⟩ := bind_eq_ok hrun
        obtain ⟨⟨h₂, es'⟩, hrun₂, hrun⟩ := bind_eq_ok hrun
        cases hrun
        exact congrArg (cons e.key) (ih hrun₂)
    · obtain ⟨⟨h₁, es'⟩, hrun₁, hrun⟩ := bind_eq_ok hrun
      cases hrun
      exact congrArg (cons e.key) (ih hrun₁)

/-- **`munmap`** keeps the open files. -/
theorem munmapFrom_same (hinv : h.Inv) (hf : ∀ e ∈ l, e.f ∈ h.files)
    (hrun : munmapFrom pages t mapping h l = .ok (h', l')) : SameFiles h h' := by
  induction l generalizing h l' with
  | nil =>
    cases hrun
    exact ⟨hinv, rfl⟩
  | cons e es ih =>
    have hes : ∀ e' ∈ es, e'.f ∈ h.files := fun e' he' => hf e' (mem_cons_of_mem _ he')
    unfold munmapFrom at hrun
    split at hrun
    · split at hrun
      · cases hrun
        exact ⟨hinv, rfl⟩
      · obtain ⟨h₁, hrun₁, hrun⟩ := bind_eq_ok hrun
        have hsame := unmapFile_same hinv (hf e mem_cons_self) hrun₁
        obtain ⟨⟨h₂, es'⟩, hrun₂, hrun⟩ := bind_eq_ok hrun
        cases hrun
        exact hsame.trans (ih hsame.inv (by rwa [hsame.files]) hrun₂)
    · obtain ⟨⟨h₁, es'⟩, hrun₁, hrun⟩ := bind_eq_ok hrun
      cases hrun
      exact ih hinv hes hrun₁

/-- **`exit`** closes no file. -/
theorem exitFiles_same (hinv : h.Inv) (hf : ∀ e ∈ l, e.f ∈ h.files)
    (hrun : exitFiles pages t h l = .ok h') : SameFiles h h' := by
  induction l generalizing h with
  | nil =>
    cases hrun
    exact ⟨hinv, rfl⟩
  | cons e es ih =>
    have hes : ∀ e' ∈ es, e'.f ∈ h.files := fun e' he' => hf e' (mem_cons_of_mem _ he')
    unfold exitFiles at hrun
    split at hrun
    · obtain ⟨⟨h₁, l₁⟩, hrun₁, hrun⟩ := bind_eq_ok hrun
      have hsame := munmapFrom_same hinv hf hrun₁
      exact hsame.trans (ih hsame.inv (by rwa [hsame.files]) hrun)
    · exact ih hinv hes hrun

theorem seekFrom_inv {position : OffT} {fs' : FileSys} (hinv : h.Inv) (hf : ∀ e ∈ l, e.f ∈ h.files)
    (hrun : seekFrom fd position h.fs l = .ok fs') : Handles.Inv { h with fs := fs' } := by
  induction l generalizing h with
  | nil =>
    cases hrun
    exact hinv
  | cons e es ih =>
    have hes : ∀ e' ∈ es, e'.f ∈ h.files := fun e' he' => hf e' (mem_cons_of_mem _ he')
    unfold seekFrom at hrun
    split at hrun
    · obtain ⟨fs₁, hrun₁, hrun⟩ := bind_eq_ok hrun
      have hinv₁ : Handles.Inv ⟨fs₁, h.files, h.owned⟩ :=
        hinv.fileSeek (hf e mem_cons_self) hrun₁
      exact @ih ⟨fs₁, h.files, h.owned⟩ hinv₁ hes hrun
    · exact ih hinv hes hrun

/-- **`close`** takes the entries with the number away and closes their files. -/
theorem closeFrom_spec (hinv : h.Inv) (hown : ∀ e ∈ l, e.tid = t)
    (hf : ∀ e ∈ l, e.f ∈ h.files) (hnodup : (l.map FileWithFd.f).Nodup)
    (hrun : closeFrom t fd sectorMap dataMap h l = .ok (h', l')) :
    h'.Inv ∧ l' = l.filter (·.fd ≠ fd) ∧
      h.files.Perm ((l.filter (·.fd = fd)).map FileWithFd.f ++ h'.files) := by
  induction l generalizing h l' with
  | nil =>
    cases hrun
    exact ⟨hinv, rfl, .rfl⟩
  | cons e es ih =>
    obtain ⟨hnot, hnodup⟩ := nodup_cons.mp hnodup
    have hown' : ∀ e' ∈ es, e'.tid = t := fun e' he' => hown e' (mem_cons_of_mem _ he')
    have hes : ∀ e' ∈ es, e'.f ∈ h.files := fun e' he' => hf e' (mem_cons_of_mem _ he')
    unfold closeFrom at hrun
    split at hrun
    next hfd =>
      rw [if_neg (not_not_intro (hown e mem_cons_self))] at hrun
      obtain ⟨h₁, hrun₁, hrun⟩ := bind_eq_ok hrun
      have hlegal : h.Legal (.fileClose e.f sectorMap dataMap) := hf e mem_cons_self
      have hinv₁ := hinv.step hlegal hrun₁
      obtain ⟨fs₁, -, heq⟩ := bind_eq_ok hrun₁
      cases heq
      have hes₁ : ∀ e' ∈ es, e'.f ∈ h.files.erase e.f := fun e' he' => by
        have hne : e'.f ≠ e.f := fun heq => hnot (heq ▸ mem_map_of_mem he')
        exact (mem_erase_of_ne hne).mpr (hes e' he')
      obtain ⟨hinv', rfl, hperm⟩ := ih hinv₁ hown' hes₁ hnodup hrun
      rw [filter_cons_of_neg (by simpa using hfd), filter_cons_of_pos (by simpa using hfd)]
      exact ⟨hinv', rfl, (perm_cons_erase hlegal).trans (hperm.cons _)⟩
    next hfd =>
      obtain ⟨⟨h₁, es'⟩, hrun₁, hrun⟩ := bind_eq_ok hrun
      cases hrun
      obtain ⟨hinv', rfl, hperm⟩ := ih hinv hown' hes hnodup hrun₁
      rw [filter_cons_of_pos (by simpa using hfd), filter_cons_of_neg (by simpa using hfd)]
      exact ⟨hinv', rfl, hperm⟩

theorem modifyFile_key {g : FileWithFd → FileWithFd} (hg : ∀ e, (g e).key = e.key)
    (l : List FileWithFd) : (modifyFile fd g l).map FileWithFd.key = l.map FileWithFd.key := by
  induction l with
  | nil => rfl
  | cons e es ih =>
    unfold modifyFile
    split
    · exact congrArg (· :: es.map FileWithFd.key) (hg e)
    · exact congrArg (cons e.key) ih

/-! ## what open does -/

/-- The state after `open` has made an entry for `f`. -/
abbrev Sys.opened (s : Sys) (t : Nat) (h : Handles) (f : Nat) (reopened : Bool) (addr : Nat) : Sys :=
  { s.setList t ((s.proc t).fileFdList ++
      [⟨s.currentFd + 1, f, t, reopened, false, false, addr⟩]) with
    handles := h
    currentFd := s.currentFd + 1
    returned := update s.returned t ((s.currentFd + 1) :: s.returned t) }

/-- The ways in which `open` returns. -/
inductive OpenResult (s : Sys) (t : Nat) (file : CString) (current : Bool) (memory : OpenMemory) :
    Sys → Int → Prop
  | notFound {h : Handles} :
      filesysOpen s.handles file memory.fs = .ok (h, none) →
      OpenResult s t file current memory { s with handles := h } exitFail
  | noName {h : Handles} {f : Nat} :
      filesysOpen s.handles file memory.fs = .ok (h, some f) → file.val.length = 0 →
      OpenResult s t file current memory { s with handles := h } exitFail
  | noNumber {h : Handles} {f : Nat} :
      filesysOpen s.handles file memory.fs = .ok (h, some f) → file.val.length ≠ 0 →
      fileLimit < s.currentFd →
      OpenResult s t file current memory { s with handles := h } exitFail
  | noMemory {h : Handles} {f : Nat} :
      filesysOpen s.handles file memory.fs = .ok (h, some f) → file.val.length ≠ 0 →
      s.currentFd ≤ fileLimit → memory.fileFd = false →
      OpenResult s t file current memory (openNumbered { s with handles := h }) exitFail
  | opened {h h₁ h₂ : Handles} {f : Nat} {reopened : Bool} :
      filesysOpen s.handles file memory.fs = .ok (h, some f) → file.val.length ≠ 0 →
      s.currentFd ≤ fileLimit → memory.fileFd = true →
      reopened = (decide (file = (s.proc t).name) || current) →
      (if reopened then h.exec (.fileReopen f memory.reopen) else .ok h) = .ok h₁ →
      h₁.exec (.fileDenyWrite f) = .ok h₂ →
      OpenResult s t file current memory (s.opened t h₂ f reopened memory.addr) (s.currentFd + 1)

theorem openFile_result {memory : OpenMemory}
    (hrun : openFile s t file current memory = .ok (s', v)) :
    OpenResult s t file current memory s' v := by
  obtain ⟨⟨s₁, found⟩, hrun₁, hrun⟩ := bind_eq_ok hrun
  obtain ⟨⟨h, file1⟩, hopen, hrun₁⟩ := bind_eq_ok hrun₁
  dsimp only at hrun₁
  cases file1 with
  | none =>
    have hnone : (s₁, found) = ({ s with handles := h }, none) := by
      split at hrun₁
      · cases hrun₁
        rfl
      · cases hrun₁
        rfl
    cases hnone
    cases hrun
    exact .notFound hopen
  | some f =>
    split at hrun₁
    next hempty =>
      cases hrun₁
      cases hrun
      exact .noName hopen hempty
    next hname =>
      cases hrun₁
      dsimp only [map_some] at hrun
      split at hrun
      next hchecked =>
        have hle : s.currentFd ≤ fileLimit := of_decide_eq_true hchecked
        obtain ⟨⟨s₂, recorded⟩, hrun₂, hrun⟩ := bind_eq_ok hrun
        unfold openRecorded at hrun₂
        split at hrun₂
        next hmemory =>
          obtain ⟨h₁, hreopen, hrun₂⟩ := bind_eq_ok hrun₂
          cases hrun₂
          obtain ⟨h₂, hdeny, hrun⟩ := bind_eq_ok hrun
          cases hrun
          exact .opened hopen hname hle hmemory rfl hreopen hdeny
        next hmemory =>
          cases hrun₂
          cases hrun
          exact .noMemory hopen hname hle (Bool.eq_false_iff.mpr hmemory)
      next hchecked =>
        cases hrun
        have hlt : fileLimit < s.currentFd := Int.not_le.mp fun hle =>
          hchecked (decide_eq_true hle)
        exact .noNumber hopen hname hlt

/-- `open` of a file that is found, when there are numbers and memory left. -/
theorem openFile_run {memory : OpenMemory}
    (hfound : filesysOpen s.handles file memory.fs = .ok (h, some f))
    (hname : file.val.length ≠ 0) (hle : s.currentFd ≤ fileLimit) (hmemory : memory.fileFd = true)
    (hmarked : reopened = (decide (file = (s.proc t).name) || current))
    (hreopen : (if reopened then h.exec (.fileReopen f memory.reopen) else .ok h) = .ok h₁)
    (hdeny : h₁.exec (.fileDenyWrite f) = .ok h₂) :
    openFile s t file current memory =
      .ok (s.opened t h₂ f reopened memory.addr, s.currentFd + 1) := by
  have hfirst : openFound s t file current memory.fs = .ok ({ s with handles := h },
      some (f, reopened)) := by
    unfold openFound
    rw [hfound, ok_bind]
    dsimp only
    rw [if_neg hname, hmarked]
    rfl
  have hchecked : openChecked { s with handles := h } = true := decide_eq_true hle
  have hrecorded : openRecorded (openNumbered { s with handles := h }) t f reopened memory =
      .ok ({ s.setList t ((s.proc t).fileFdList ++
          [⟨s.currentFd + 1, f, t, reopened, false, false, memory.addr⟩]) with
        handles := h₁, currentFd := s.currentFd + 1 }, some (s.currentFd + 1)) := by
    unfold openRecorded openNumbered
    dsimp only
    rw [if_pos hmemory, hreopen]
    rfl
  unfold openFile
  rw [hfirst, ok_bind]
  dsimp only
  rw [if_pos hchecked, hrecorded, ok_bind]
  unfold openReturned
  dsimp only
  rw [hdeny]
  rfl

theorem filesysOpen_spec {memory : Memory} {file1 : Option Nat} (hinv : h.Inv)
    (hrun : filesysOpen h name memory = .ok (h', file1)) :
    h'.Inv ∧ h'.files = file1.toList ++ h.files := by
  obtain ⟨⟨fs', file⟩, hrun₁, hrun⟩ := bind_eq_ok hrun
  cases hrun
  exact ⟨(hinv.filesysOpen hrun₁).1, rfl⟩

/-! ## what a call does -/

theorem Sys.Inv.find_open (hs : s.Inv) (ht : t ∈ s.tids) (hfind : s.find t fd = some e) :
    e.tid = t ∧ e.f ∈ s.handles.files :=
  have he := mem_of_find?_eq_some hfind
  ⟨(hs.entries t ht).own e he, hs.entry_open ht he⟩

theorem Legal.mem {c : Call} (h : Legal s t c) : t ∈ s.tids := by
  cases c with
  | loadDeny | execClose => exact h
  | _ => exact h.1

/-- The calls that end the process. -/
def Call.Ends : Call → Prop
  | .exit => True
  | .create file .. => file.val.length = 0
  | .read fd .. | .write fd .. => fd < stdoutFileno ∨ fd > fileLimit
  | _ => False

/-- The ways in which a call changes the state. -/
inductive Effect (s : Sys) (t : Nat) (pages : Pages) (c : Call) : Sys → Prop
  | console (bs : List UInt8) : Effect s t pages c { s with console := bs }
  | handles {h : Handles} : (s.Inv → SameFiles s.handles h) →
      Effect s t pages c { s with handles := h }
  | list {h : Handles} {l : List FileWithFd} : (s.Inv → SameFiles s.handles h) →
      l.map FileWithFd.key = (s.proc t).fileFdList.map FileWithFd.key →
      Effect s t pages c { s.setList t l with handles := h }
  | exit {s' : Sys} {r : Outcome} : (s.proc t).file = none → (s.Inv → c.Ends) →
      exit s t pages = .ok (s', r) → Effect s t pages c s'
  | open {file : CString} {current : Bool} {memory : OpenMemory} {s' : Sys} {v : Int} :
      c = .open file current memory → openFile s t file current memory = .ok (s', v) →
      Effect s t pages c s'
  | close {fd : Int} {sectorMap dataMap : Bool} {s' : Sys} :
      close s t fd sectorMap dataMap = .ok s' → Effect s t pages c s'
  | execOpen {name : CString} {memory : Memory} {s' : Sys} : (s.proc t).file = none →
      execOpen s t name memory = .ok s' → Effect s t pages c s'
  | loadDeny {s' : Sys} : loadDeny s t = .ok s' → Effect s t pages c s'
  | execClose {sectorMap dataMap : Bool} {s' : Sys} :
      execClose s t sectorMap dataMap = .ok s' → Effect s t pages c s'
  | threadCreate {tid : Nat} {name : CString} : tid ∉ s.tids →
      Effect s t pages c (threadCreate s tid name)

section

variable {c : Call} {memory : Bool}

theorem Effect.refl (s : Sys) (t : Nat) (pages : Pages) (c : Call) : Effect s t pages c s :=
  .console s.console

theorem read_effect {size : OffT} (hlegal : Legal s t (.read fd size memory))
    (hrun : read s t fd size memory pages = .ok (s', r)) :
    Effect s t pages (.read fd size memory) s' := by
  unfold read at hrun
  split at hrun
  next hrange => exact .exit hlegal.2 (fun _ => hrange) hrun
  next =>
    split at hrun
    · cases hrun
      exact .refl ..
    · split at hrun
      · cases hrun
        exact .refl ..
      · next e hfind =>
        split at hrun
        next htid => exact .exit hlegal.2 (fun hs => absurd (hs.find_open hlegal.1 hfind).1 htid) hrun
        next =>
          obtain ⟨⟨fs', bs⟩, hrun₁, hrun⟩ := bind_eq_ok hrun
          cases hrun
          exact .handles fun hs =>
            ⟨hs.handles.fileRead (hs.find_open hlegal.1 hfind).2 hrun₁, rfl⟩

theorem write_effect {buffer : List UInt8} (hlegal : Legal s t (.write fd buffer memory))
    (hrun : write s t fd buffer memory pages = .ok (s', r)) :
    Effect s t pages (.write fd buffer memory) s' := by
  unfold write at hrun
  split at hrun
  next hrange => exact .exit hlegal.2 (fun _ => hrange) hrun
  next =>
    split at hrun
    · cases hrun
      exact .console _
    · split at hrun
      · cases hrun
        exact .refl ..
      · next e hfind =>
        split at hrun
        next htid => exact .exit hlegal.2 (fun hs => absurd (hs.find_open hlegal.1 hfind).1 htid) hrun
        next =>
          obtain ⟨h₁, hrun₁, hrun⟩ := bind_eq_ok hrun
          obtain ⟨fs₂, hrun₂, hrun⟩ := bind_eq_ok hrun
          obtain ⟨⟨fs₃, n⟩, hrun₃, hrun⟩ := bind_eq_ok hrun
          obtain ⟨h₄, hrun₄, hrun⟩ := bind_eq_ok hrun
          cases hrun
          refine .list (fun hs => ?_)
            (modifyFile_key (g := fun e => { e with dirty := true }) (fun _ => rfl) _)
          have hf := (hs.find_open hlegal.1 hfind).2
          have hsame₁ := same_allow_unless hs.handles hf hrun₁
          have hf₁ : e.f ∈ h₁.files := hsame₁.files ▸ hf
          have hinv₂ : Handles.Inv { h₁ with fs := fs₂ } := by
            split at hrun₂
            · exact hsame₁.inv.fileSeek hf₁ hrun₂
            · cases hrun₂
              exact hsame₁.inv
          have hinv₃ : Handles.Inv { h₁ with fs := fs₃ } := hinv₂.fileWrite hf₁ hrun₃
          have hsame₄ := same_deny hinv₃ hf₁ hrun₄
          exact ⟨hsame₄.inv, hsame₄.files.trans hsame₁.files⟩

theorem mmap_effect (s : Sys) (t : Nat) (fd : Int) (addr : Nat) (pages : Pages) (c : Call) :
    Effect s t pages c (mmap s t fd addr pages).1 := by
  unfold mmap
  split
  · exact .refl ..
  · split
    · exact .refl ..
    · exact .list (fun hs => ⟨hs.handles, rfl⟩)
        (modifyFile_key (g := fun e => { e with addr, mmaped := true }) (fun _ => rfl) _)

/-- **What a call does.** -/
theorem call_effect (hlegal : Legal s t c) (hrun : call s t pages c = .ok (s', r)) :
    Effect s t pages c s' := by
  cases c with
  | create file initialSize memory =>
    unfold call create at hrun
    dsimp only at hrun
    split at hrun
    · cases hrun
      exact .refl ..
    · split at hrun
      · obtain ⟨⟨fs', success⟩, hrun₁, hrun⟩ := bind_eq_ok hrun
        cases hrun
        exact .handles fun hs => ⟨hs.handles.filesysCreate hrun₁, rfl⟩
      next hempty => exact .exit hlegal.2 (fun _ => not_not.mp hempty) hrun
  | remove file memory =>
    obtain ⟨⟨fs', success⟩, hrun₁, hrun⟩ := bind_eq_ok hrun
    cases hrun
    exact .handles fun hs => ⟨hs.handles.filesysRemove hrun₁, rfl⟩
  | «open» file current memory =>
    obtain ⟨⟨s₁, v⟩, hrun₁, hrun⟩ := bind_eq_ok hrun
    cases hrun
    exact .open rfl hrun₁
  | read fd size memory => exact read_effect hlegal hrun
  | write fd buffer memory => exact write_effect hlegal hrun
  | seek fd position =>
    obtain ⟨s₁, hrun₁, hrun⟩ := bind_eq_ok hrun
    obtain ⟨fs', hrun₂, heq⟩ := bind_eq_ok hrun₁
    cases heq
    cases hrun
    exact .handles fun hs =>
      ⟨seekFrom_inv hs.handles (fun e he => hs.entry_open hlegal.1 he) hrun₂, rfl⟩
  | close fd sectorMap dataMap =>
    obtain ⟨s₁, hrun₁, hrun⟩ := bind_eq_ok hrun
    cases hrun
    exact .close hrun₁
  | mmap fd addr =>
    cases hrun
    exact mmap_effect ..
  | munmap mapping =>
    obtain ⟨s₁, hrun₁, hrun⟩ := bind_eq_ok hrun
    obtain ⟨⟨h', l⟩, hrun₂, heq⟩ := bind_eq_ok hrun₁
    cases heq
    cases hrun
    exact .list (fun hs => munmapFrom_same hs.handles (fun e he => hs.entry_open hlegal.1 he) hrun₂)
      (munmapFrom_key hrun₂)
  | exit => exact .exit hlegal.2 (fun _ => trivial) hrun
  | execOpen name memory =>
    obtain ⟨s₁, hrun₁, hrun⟩ := bind_eq_ok hrun
    cases hrun
    exact .execOpen hlegal.2 hrun₁
  | loadDeny =>
    obtain ⟨s₁, hrun₁, hrun⟩ := bind_eq_ok hrun
    cases hrun
    exact .loadDeny hrun₁
  | execClose sectorMap dataMap =>
    obtain ⟨s₁, hrun₁, hrun⟩ := bind_eq_ok hrun
    cases hrun
    exact .execClose hrun₁
  | threadCreate tid name =>
    cases hrun
    exact .threadCreate hlegal.2.2

end

/-- What `open` does with the file of a new entry. -/
theorem reopen_deny_spec {memory : Memory} (hinv : h.Inv) (hf : f ∈ h.files)
    (hreopen : (if reopened then h.exec (.fileReopen f memory) else .ok h) = .ok h₁)
    (hdeny : h₁.exec (.fileDenyWrite f) = .ok h₂) : h₂.Inv ∧ ∀ g ∈ h.files, g ∈ h₂.files := by
  have hinv₁ : h₁.Inv ∧ ∀ g ∈ h.files, g ∈ h₁.files := by
    split at hreopen
    · have hlegal : h.Legal (.fileReopen f memory) := hf
      refine ⟨hinv.step hlegal hreopen, fun g hg => ?_⟩
      obtain ⟨⟨fs', new⟩, -, hreopen⟩ := bind_eq_ok hreopen
      cases hreopen
      exact mem_append_right _ hg
    · cases hreopen
      exact ⟨hinv, fun _ hg => hg⟩
  have hsame := same_deny hinv₁.1 (hinv₁.2 f hf) hdeny
  exact ⟨hsame.inv, fun g hg => hsame.files ▸ hinv₁.2 g hg⟩

namespace Sys.Inv

section

variable (hs : s.Inv)
include hs

/-- **`open`** keeps the invariant, however it returns. -/
theorem openFile {memory : OpenMemory}
    (ht : t ∈ s.tids) (hrun : openFile s t file current memory = .ok (s', v)) : s'.Inv := by
  have hfound : ∀ {h : Handles} {f : Nat}, filesysOpen s.handles file memory.fs = .ok (h, some f) →
      h.Inv ∧ h.files = f :: s.handles.files := fun hopen => filesysOpen_spec hs.handles hopen
  have hmore : ∀ {h : Handles} {f : Nat}, filesysOpen s.handles file memory.fs = .ok (h, some f) →
      Sys.Inv { s with handles := h } := fun hopen => by
    obtain ⟨hinv, hfiles⟩ := hfound hopen
    exact hs.setHandles hinv fun g hg => hfiles ▸ mem_cons_of_mem _ hg
  cases openFile_result hrun with
  | notFound hopen =>
    obtain ⟨hinv, hfiles⟩ := filesysOpen_spec hs.handles hopen
    exact hs.setHandles hinv fun f hf => hfiles ▸ hf
  | noName hopen _ => exact hmore hopen
  | noNumber hopen _ _ => exact hmore hopen
  | noMemory hopen _ hle _ => exact (hmore hopen).openNumbered hle
  | @opened h h₁ h₂ f reopened hopen _ hle _ _ hreopen hdeny =>
    obtain ⟨hinv, hfiles⟩ := hfound hopen
    have hself : f ∈ h.files := hfiles ▸ mem_cons_self
    obtain ⟨hinv₂, hsub⟩ := reopen_deny_spec hinv hself hreopen hdeny
    have hold : ∀ g ∈ s.handles.files, g ∈ h₂.files := fun g hg =>
      hsub g (hfiles ▸ mem_cons_of_mem _ hg)
    -- the new file is nobody's
    have hnew : f ∉ s.handles.files := fun hmem => by
      have := hinv.nodup
      rw [hfiles] at this
      exact (nodup_cons.mp this).1 hmem
    have hnot : f ∉ (s.proc t).files := fun hmem => hnew (hs.files_open ht hmem)
    have hentries := hs.entries t ht
    have hlt : ∀ e ∈ (s.proc t).fileFdList, e.fd < s.currentFd + 1 := fun e he =>
      Int.lt_add_one_of_le (hentries.le e he)
    have hlist : ∀ g, g ∈ Proc.files { s.proc t with fileFdList := (s.proc t).fileFdList ++
        [⟨s.currentFd + 1, f, t, reopened, false, false, memory.addr⟩] } →
        g ∈ (s.proc t).files ∨ g = f := by
      intro g hg
      unfold Proc.files at hg ⊢
      rw [map_append, ← append_assoc] at hg
      exact (mem_append.mp hg).imp_right mem_singleton.mp
    refine hs.setProc ht rfl rfl (fun u hu => update_of_ne hu ..) hinv₂ ?_ ?_ ?_ ?_ ?_ ?_
      (Int.le_add_one (Int.le_refl _)) (Int.add_le_add_right hle 1)
    · unfold Proc.files
      rw [map_append, ← append_assoc]
      exact nodup_append'.mpr ⟨hs.files_nodup ht, nodup_singleton _,
        disjoint_singleton.mpr hnot⟩
    · intro g hg
      rcases hlist g hg with hg | rfl
      · exact hold g (hs.files_open ht hg)
      · exact hsub g hself
    · intro g hg
      rcases hlist g hg with hg | rfl
      · exact .inl hg
      · exact .inr fun hmem => hnew (hs.opened g hmem)
    · exact fun g hg _ => hold g hg
    · refine ⟨?_, ?_, ?_, ?_⟩
      · rw [forall_mem_append, forall_mem_singleton]
        exact ⟨hentries.own, rfl⟩
      · rw [forall_mem_append, forall_mem_singleton]
        exact ⟨hentries.above, Int.lt_add_one_of_le hs.low⟩
      · rw [forall_mem_append, forall_mem_singleton]
        exact ⟨fun e he => Int.le_of_lt (hlt e he), Int.le_refl _⟩
      · rw [map_append]
        refine nodup_append'.mpr ⟨hentries.distinct, nodup_singleton _,
          disjoint_singleton.mpr fun hmem => ?_⟩
        obtain ⟨e, he, heq⟩ := List.mem_map.mp hmem
        exact Int.ne_of_lt (hlt e he) heq
    · intro fd
      dsimp only
      rw [update_self, mem_cons, hs.returned t ht, map_append,
        mem_append, or_comm]
      exact or_congr_right mem_singleton.symm

/-! ## the other calls -/

/-- **`exit`** keeps the invariant. -/
theorem exit (ht : t ∈ s.tids) (hrun : exit s t pages = .ok (s', r)) : s'.Inv := by
  obtain ⟨h', hrun₁, hrun⟩ := bind_eq_ok hrun
  cases hrun
  have hsame := exitFiles_same hs.handles (fun e he => hs.entry_open ht he) hrun₁
  have hne : ∀ u ∈ s.tids.erase t, u ∈ s.tids ∧ u ≠ t := fun u hu =>
    ⟨mem_of_mem_erase hu, (hs.tids.mem_erase_iff.mp hu).1⟩
  have hperm := held_perm s ht
  have hheld : Sys.held { s.setList t [] with
      handles := h', tids := s.tids.erase t, returned := update s.returned t [] } =
      (s.tids.erase t).flatMap fun u => (s.proc u).files := flatMap_erase_update hs.tids t _
  refine ⟨hsame.inv, hs.tids.erase _, ?_, fun f hf => ?_, fun u hu => ?_, fun u hu => ?_, hs.low,
    hs.high⟩
  · rw [hheld]
    exact (hperm.nodup_iff.mp hs.held).of_append_right
  · rw [hheld] at hf
    exact hsame.files ▸ hs.opened f (hperm.mem_iff.mpr (mem_append_right _ hf))
  · dsimp only
    rw [update_of_ne (hne u hu).2]
    exact hs.entries u (hne u hu).1
  · dsimp only
    rw [update_of_ne (hne u hu).2, update_of_ne (hne u hu).2]
    exact hs.returned u (hne u hu).1

/-- **`close`** keeps the invariant. -/
theorem close (ht : t ∈ s.tids) (hrun : close s t fd sectorMap dataMap = .ok s') : s'.Inv := by
  obtain ⟨⟨h', l⟩, hrun₁, hrun⟩ := bind_eq_ok hrun
  cases hrun
  have hentries := hs.entries t ht
  have hnodup := hs.files_nodup ht
  obtain ⟨hinv, hl, hperm⟩ := closeFrom_spec hs.handles hentries.own
    (fun e he => hs.entry_open ht he) hnodup.of_append_right hrun₁
  have hrest : ∀ f ∈ s.handles.files, (∀ e ∈ (s.proc t).fileFdList, e.fd = fd → e.f ≠ f) →
      f ∈ h'.files := fun f hf hnot =>
    (mem_append.mp (hperm.mem_iff.mp hf)).resolve_left fun hin => by
      obtain ⟨e, he, heq⟩ := List.mem_map.mp hin
      obtain ⟨he, hfd⟩ := mem_filter.mp he
      exact hnot e he (of_decide_eq_true hfd) heq
  have hsub : l.Sublist (s.proc t).fileFdList := hl ▸ filter_sublist
  have hfiles : (Proc.files { s.proc t with fileFdList := l }).Sublist (s.proc t).files :=
    (hsub.map _).append_left _
  refine hs.setProc ht rfl rfl (fun u hu => update_of_ne hu ..) hinv
    (hnodup.sublist hfiles) ?_ (fun f hf => .inl (hfiles.mem hf)) ?_ (hentries.sublist hsub) ?_
    (Int.le_refl _) hs.high
  · intro f hf
    rcases mem_append.mp hf with hf | hf
    · -- the file of `process_execute` or `load` is none of those that are closed
      have hmem : f ∈ (s.proc t).files := mem_append_left _ hf
      exact hrest f (hs.files_open ht hmem) fun e he _ heq =>
        disjoint_of_nodup_append hnodup hf (heq ▸ mem_map_of_mem he)
    · obtain ⟨e, he, rfl⟩ := List.mem_map.mp hf
      have hkept := (mem_filter.mp (hl ▸ he)).2
      refine hrest e.f (hs.entry_open ht (hsub.mem he)) fun e' he' hfd heq => ?_
      cases inj_on_of_nodup_map hnodup.of_append_right he' (hsub.mem he) heq
      exact of_decide_eq_true hkept hfd
  · exact fun f hf hnot => hrest f hf fun e he _ heq =>
      hnot (mem_append_right _ (heq ▸ mem_map_of_mem he))
  · intro v
    dsimp only
    rw [update_self, mem_filter, hs.returned t ht, hl]
    simp only [List.mem_map, mem_filter, decide_eq_true_eq]
    constructor
    · rintro ⟨⟨e, he, rfl⟩, hne⟩
      exact ⟨e, ⟨he, hne⟩, rfl⟩
    · rintro ⟨e, ⟨he, hne⟩, rfl⟩
      exact ⟨⟨e, he, rfl⟩, hne⟩

theorem execOpen {memory : Memory} (ht : t ∈ s.tids)
    (hrun : execOpen s t name memory = .ok s') : s'.Inv := by
  obtain ⟨⟨h', file⟩, hrun₁, hrun⟩ := bind_eq_ok hrun
  cases hrun
  obtain ⟨hinv, hfiles⟩ := filesysOpen_spec hs.handles hrun₁
  have hnodup := hinv.nodup
  rw [hfiles] at hnodup
  have hnew : ∀ f ∈ file.toList, f ∉ s.handles.files := fun f hf hmem =>
    disjoint_of_nodup_append hnodup hf hmem
  have hmem : ∀ f ∈ Proc.files { s.proc t with file },
      f ∈ file.toList ∨ f ∈ (s.proc t).files := fun f hf =>
    (mem_append.mp hf).imp_right (mem_append_right _)
  refine hs.setProc ht rfl rfl (fun _ _ => rfl) hinv ?_ ?_ ?_ ?_ (hs.entries t ht)
    (hs.returned t ht) (Int.le_refl _) hs.high
  · refine nodup_append'.mpr ⟨hnodup.of_append_left, (hs.files_nodup ht).of_append_right, ?_⟩
    exact fun f hf hin => hnew f hf (hs.files_open ht (mem_append_right _ hin))
  · intro f hf
    rw [hfiles]
    exact mem_append.mpr ((hmem f hf).imp_right (hs.files_open ht))
  · exact fun f hf => (hmem f hf).symm.imp_right fun hin hheld =>
      hnew f hin (hs.opened f hheld)
  · exact fun f hf _ => hfiles ▸ mem_append_right _ hf

theorem loadDeny (ht : t ∈ s.tids) (hrun : loadDeny s t = .ok s') : s'.Inv := by
  unfold Descriptor.loadDeny at hrun
  split at hrun
  · cases hrun
    exact hs
  · next file hfile =>
    obtain ⟨h', hrun₁, hrun⟩ := bind_eq_ok hrun
    cases hrun
    have hmem : file ∈ (s.proc t).files := by
      unfold Proc.files
      rw [hfile]
      exact mem_cons_self
    have hsame := same_deny hs.handles (hs.files_open ht hmem) hrun₁
    exact hs.setProc ht rfl rfl (fun _ _ => rfl) hsame.inv (hs.files_nodup ht)
      (fun f hf => hsame.files ▸ hs.files_open ht hf) (fun f hf => .inl hf)
      (fun f hf _ => hsame.files ▸ hf) (hs.entries t ht) (hs.returned t ht) (Int.le_refl _) hs.high

theorem execClose (ht : t ∈ s.tids) (hrun : execClose s t sectorMap dataMap = .ok s') : s'.Inv := by
  unfold Descriptor.execClose at hrun
  split at hrun
  · cases hrun
    exact hs
  · next file hfile =>
    obtain ⟨h', hrun₁, hrun⟩ := bind_eq_ok hrun
    cases hrun
    have hfiles : (s.proc t).files = file :: (s.proc t).fileFdList.map FileWithFd.f := by
      unfold Proc.files
      rw [hfile]
      rfl
    have hopen : file ∈ s.handles.files := hs.files_open ht (hfiles ▸ mem_cons_self)
    have hlegal : s.handles.Legal (.fileClose file sectorMap dataMap) := hopen
    have hinv := hs.handles.step hlegal hrun₁
    obtain ⟨fs', -, heq⟩ := bind_eq_ok hrun₁
    cases heq
    have hnodup := hs.files_nodup ht
    rw [hfiles] at hnodup
    obtain ⟨hnot, hnodup⟩ := nodup_cons.mp hnodup
    have hkeep : ∀ f ∈ s.handles.files, f ≠ file → f ∈ s.handles.files.erase file :=
      fun f hf hne => (mem_erase_of_ne hne).mpr hf
    refine hs.setProc ht rfl rfl (fun _ _ => rfl) hinv hnodup ?_ ?_ ?_
      (hs.entries t ht) (hs.returned t ht) (Int.le_refl _) hs.high
    · intro f hf
      refine hkeep f (hs.files_open ht (hfiles ▸ mem_cons_of_mem _ hf)) ?_
      exact fun heq => hnot (heq ▸ hf)
    · exact fun f hf => .inl (hfiles ▸ mem_cons_of_mem _ hf)
    · intro f hf hne
      rw [hfiles, mem_cons, not_or] at hne
      exact hkeep f hf hne.1

theorem threadCreate (hnew : tid ∉ s.tids) : (threadCreate s tid name).Inv := by
  have hne : ∀ u ∈ s.tids, u ≠ tid := fun u hu heq => hnew (heq ▸ hu)
  have hheld : (Descriptor.threadCreate s tid name).held = s.held := held_threadCreate hnew
  refine ⟨hs.handles, nodup_cons.mpr ⟨hnew, hs.tids⟩, hheld ▸ hs.held,
    fun f hf => hs.opened f (hheld ▸ hf), ?_, ?_, hs.low, hs.high⟩
  · unfold Descriptor.threadCreate
    dsimp only
    rw [forall_mem_cons, update_self]
    refine ⟨⟨nofun, nofun, nofun, nodup_nil⟩, fun u hu => ?_⟩
    rw [update_of_ne (hne u hu)]
    exact hs.entries u hu
  · unfold Descriptor.threadCreate
    dsimp only
    rw [forall_mem_cons, update_self, update_self]
    refine ⟨fun fd => .rfl, fun u hu fd => ?_⟩
    rw [update_of_ne (hne u hu), update_of_ne (hne u hu)]
    exact hs.returned u hu fd

/-- **Every call keeps the invariant.** -/
theorem call {c : Call} (hlegal : Legal s t c)
    (hrun : call s t pages c = .ok (s', r)) : s'.Inv := by
  have ht := hlegal.mem
  cases call_effect hlegal hrun with
  | console bs => exact { hs with }
  | handles hsame => exact hs.setHandles (hsame hs).inv fun _ hf => (hsame hs).files.symm ▸ hf
  | list hsame hkey => exact hs.setList ht (hsame hs).inv (hsame hs).files hkey
  | exit _ _ hrun => exact hs.exit ht hrun
  | «open» _ hrun => exact hs.openFile ht hrun
  | close hrun => exact hs.close ht hrun
  | execOpen _ hrun => exact hs.execOpen ht hrun
  | loadDeny hrun => exact hs.loadDeny ht hrun
  | execClose hrun => exact hs.execClose ht hrun
  | threadCreate hnew => exact hs.threadCreate hnew

end

end Sys.Inv

/-! ## runs -/

theorem Init.inv (hinit : Init s) : s.Inv := by
  have hheld : s.held = [] := flatMap_eq_nil_iff.mpr fun t ht => by
    unfold Proc.files
    rw [hinit.file t ht, hinit.list t ht]
    rfl
  refine ⟨hinit.handles, hinit.tids, ?_, fun f hf => ?_, fun t ht => ?_, fun t ht fd => ?_, ?_, ?_⟩
  · rw [hheld]
    exact nodup_nil
  · rw [hheld] at hf
    exact absurd hf not_mem_nil
  · rw [hinit.list t ht]
    exact ⟨nofun, nofun, nofun, nodup_nil⟩
  · rw [hinit.returned t ht, hinit.list t ht]
    exact .rfl
  · exact Int.le_of_eq hinit.currentFd.symm
  · rw [hinit.currentFd]
    decide

theorem machine_step {a : Action} (hstep : machine.step s a = some s') :
    Legal s a.tid a.call ∧ ∃ r, call s a.tid a.pages a.call = .ok (s', r) := by
  change (if Legal s a.tid a.call then _ else none) = some s' at hstep
  split at hstep
  next hlegal =>
    obtain ⟨⟨s₁, r⟩, hrun, heq⟩ := map_eq_some_iff.mp hstep
    cases heq
    exact ⟨hlegal, r, eq_ok_of_toOption hrun⟩
  next => cases hstep

theorem machine_step_of {c : Call} (hlegal : Legal s t c) (hrun : call s t pages c = .ok (s', r)) :
    machine.step s ⟨t, pages, c⟩ = some s' := by
  change (if Legal s t c then (call s t pages c).toOption.map Prod.fst else none) = some s'
  rw [if_pos hlegal, hrun]
  rfl

/-- **The invariant in every state reached.** -/
theorem reach_inv (hreach : machine.ReachIn C s) : s.Inv := by
  refine hreach.invariant (fun s hinit => Init.inv hinit) fun s a s' hs _ hstep => ?_
  obtain ⟨hlegal, r, hrun⟩ := machine_step hstep
  exact hs.call hlegal hrun

/-! ## the formatted device -/

/-- The first process. -/
def mainProc : Proc := ⟨⟨[109, 97, 105, 110], by decide⟩, [], none, none⟩

/-- One process, on a file system of which only the free map is open. -/
def boot (fs : FileSys) : Sys where
  handles := ⟨fs, [], (fs.freeMapFile.map fun file => (fs.files file).inode).toList⟩
  currentFd := fdInit
  console := []
  tids := [1]
  proc := fun _ => mainProc
  returned := fun _ => []

theorem init_boot {L : Layout} {fs : FileSys} (hinv : Fs.Inv L [L.mapInode] fs) :
    Init (boot fs) := by
  have howned : (fs.freeMapFile.map fun file => (fs.files file).inode).toList = [L.mapInode] := by
    rw [hinv.mapFile, map_some, hinv.mapInode]
    rfl
  refine ⟨⟨nodup_nil, nofun, ?_⟩, rfl, nodup_singleton _, fun _ _ => rfl, fun _ _ => rfl,
    fun _ _ => rfl⟩
  unfold boot
  dsimp only
  rw [howned]
  exact hinv.sound.balanced

/-- Calls on the small device after it has been formatted. -/
def runSmall (as : List Action) : Option Sys :=
  (filesysInit smallDevice (fun _ => true) (.plenty blankEntry)).toOption.bind fun fs =>
    machine.runFrom (boot fs) as

theorem exists_reach_of_runSmall (as : List Action) (P : Sys → Prop) [DecidablePred P]
    (h : (runSmall as).any (P ·) = true) : ∃ s, machine.Reach s ∧ P s := by
  obtain ⟨s, hs, hp⟩ := (Option.any_eq_true ..).mp h
  obtain ⟨fs, hfs, hrun⟩ := bind_eq_some_iff.mp hs
  obtain ⟨L, hinv, -⟩ := filesysInit_inv (by decide) (eq_ok_of_toOption hfs)
  exact ⟨s, Machine.Reach.runFrom (.init (init_boot hinv)) as hrun, of_decide_eq_true hp⟩

/-- The same for calls that meet a condition. -/
def runSmallIn (C : Sys → Action → Prop) [∀ s a, Decidable (C s a)] (as : List Action) :
    Option Sys :=
  (filesysInit smallDevice (fun _ => true) (.plenty blankEntry)).toOption.bind fun fs =>
    machine.runIn C (boot fs) as

theorem exists_reachIn_of_runSmallIn [∀ s a, Decidable (C s a)]
    (as : List Action) (P : Sys → Prop) [DecidablePred P] (h : (runSmallIn C as).any (P ·) = true) :
    ∃ s, machine.ReachIn C s ∧ P s := by
  obtain ⟨s, hs, hp⟩ := (Option.any_eq_true ..).mp h
  obtain ⟨fs, hfs, hrun⟩ := bind_eq_some_iff.mp hs
  obtain ⟨L, hinv, -⟩ := filesysInit_inv (by decide) (eq_ok_of_toOption hfs)
  exact ⟨s, Machine.ReachIn.runIn (.init (init_boot hinv)) as hrun, of_decide_eq_true hp⟩

/-- Memory in which nothing is mapped. -/
def noPages : Pages := ⟨fun _ => 0, fun _ => false, false, 0, true⟩

/-- All memory that `open` asks for. -/
def openPlenty : OpenMemory := ⟨.plenty blankEntry, true, .plenty blankEntry, 0⟩

/-- A file of ten bytes. -/
def createA : Call := .create nameA ⟨10, by decide⟩ (.plenty blankEntry)

end Pintos.Descriptor

