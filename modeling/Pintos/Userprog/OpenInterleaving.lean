import Pintos.Userprog.DescriptorInv

/-!
# Pintos.Userprog.OpenInterleaving

`open` in several processes at a time.

`open` reads the counter `currentFd` outside the lock: for its test, for the new entry and for
what it returns.  Here these reads and the increment are steps of their own (`OpenPc` is where a
process is), and any other call of a process that is not in `open` can come in between.

The numbers in the list of a process are different in every run, since the process has
incremented the counter after it has read it for an earlier entry.  What `open` returns is the
number of the new entry as long as no other process increments the counter between the last two
reads (`open_returns_recorded`).
-/

namespace Pintos.Descriptor

open Fs
open Function List Option

/-! ## what a call does to the lists -/

/-- A call of process `t` that leaves the counter and the lists of the others alone, and adds no
entry. -/
structure Frame (s : Sys) (t : Nat) (s' : Sys) : Prop where
  currentFd : s'.currentFd = s.currentFd
  others : ∀ u ∈ s.tids, u ≠ t → s'.proc u = s.proc u ∧ u ∈ s'.tids
  own : ((s'.proc t).fileFdList.map FileWithFd.fd).Sublist
    ((s.proc t).fileFdList.map FileWithFd.fd)
  new : ∀ u ∈ s'.tids, u ∈ s.tids ∨ (s'.proc u).fileFdList = []

variable {s s' : Sys} {t : Nat} {pages : Pages} {r : Outcome} {fd : Int}

/-- Only the files change. -/
theorem Frame.of_handles (s : Sys) (t : Nat) (h : Handles) : Frame s t { s with handles := h } :=
  ⟨rfl, fun _ hu _ => ⟨rfl, hu⟩, Sublist.refl _, fun _ hu => .inl hu⟩

theorem Frame.of_proc {p : Proc} {h : Handles} {returned : Nat → List Int}
    (hsub : (p.fileFdList.map FileWithFd.fd).Sublist ((s.proc t).fileFdList.map FileWithFd.fd)) :
    Frame s t { s.setProc t p with handles := h, returned := returned } := by
  refine ⟨rfl, fun u hu hne => ⟨update_of_ne hne .., hu⟩, ?_, fun u hu => .inl hu⟩
  dsimp only
  rwa [update_self]

theorem exit_frame (hrun : exit s t pages = .ok (s', r)) : Frame s t s' := by
  obtain ⟨h', -, hrun⟩ := bind_eq_ok hrun
  cases hrun
  refine ⟨rfl, fun u hu hne => ⟨update_of_ne hne .., (mem_erase_of_ne hne).mpr hu⟩, ?_,
    fun u hu => .inl (mem_of_mem_erase hu)⟩
  dsimp only
  rw [update_self]
  exact nil_sublist _

theorem closeFrom_sublist {sectorMap dataMap : Bool} {h h' : Handles} {l l' : List FileWithFd}
    (hrun : closeFrom t fd sectorMap dataMap h l = .ok (h', l')) : l'.Sublist l := by
  induction l generalizing h l' with
  | nil =>
    cases hrun
    exact .refl _
  | cons e es ih =>
    unfold closeFrom at hrun
    split at hrun
    · split at hrun
      · cases hrun
        exact .refl _
      · obtain ⟨h₁, -, hrun⟩ := bind_eq_ok hrun
        exact (ih hrun).cons e
    · obtain ⟨⟨h₁, es'⟩, hrun₁, hrun⟩ := bind_eq_ok hrun
      cases hrun
      exact (ih hrun₁).cons_cons e

/-- The calls other than `open`. -/
def Call.notOpen : Call → Bool
  | .open .. => false
  | _ => true

/-- **A call other than `open`** adds no entry and does not touch the counter. -/
theorem call_frame {c : Call} (hlegal : Legal s t c) (hc : c.notOpen = true)
    (hrun : call s t pages c = .ok (s', r)) : Frame s t s' := by
  cases call_effect hlegal hrun with
  | console => exact ⟨rfl, fun _ hu _ => ⟨rfl, hu⟩, Sublist.refl _, fun _ hu => .inl hu⟩
  | handles => exact .of_handles s t _
  | list _ hkey =>
    refine .of_proc ?_
    dsimp only
    rw [map_fd_of_key hkey]
  | exit _ _ hrun => exact exit_frame hrun
  | «open» heq => cases heq ▸ hc
  | close hrun =>
    obtain ⟨⟨h', l⟩, hclose, hrun⟩ := bind_eq_ok hrun
    cases hrun
    exact .of_proc ((closeFrom_sublist hclose).map _)
  | execOpen _ hrun =>
    obtain ⟨x, -, hrun⟩ := bind_eq_ok hrun
    cases hrun
    exact .of_proc (Sublist.refl _)
  | loadDeny hrun =>
    unfold loadDeny at hrun
    split at hrun
    · cases hrun
      exact .of_handles s t s.handles
    · obtain ⟨h', -, hrun⟩ := bind_eq_ok hrun
      cases hrun
      exact .of_proc (Sublist.refl _)
  | execClose hrun =>
    unfold execClose at hrun
    split at hrun
    · cases hrun
      exact .of_handles s t s.handles
    · obtain ⟨h', -, hrun⟩ := bind_eq_ok hrun
      cases hrun
      exact .of_proc (Sublist.refl _)
  | @threadCreate tid name hnew =>
    have hne : ∀ u ∈ s.tids, u ≠ tid := fun u hu heq => hnew (heq ▸ hu)
    unfold threadCreate
    refine ⟨rfl, fun u hu _ => ⟨update_of_ne (hne u hu) .., mem_cons_of_mem _ hu⟩,
      ?_, fun u hu => ?_⟩
    · dsimp only
      rw [update_of_ne (hne t hlegal.mem)]
    · rcases mem_cons.mp hu with rfl | hu
      · refine .inr ?_
        dsimp only
        rw [update_self]
      · exact .inl hu

/-! ## open, step by step -/

/-- Where a process is in `open`. -/
inductive OpenPc
  | idle
  | found (file1 : Nat) (reopened : Bool)
  | checked (file1 : Nat) (reopened : Bool)
  | numbered (file1 : Nat) (reopened : Bool)
  | recorded (file1 : Nat) (fd : Int)
deriving DecidableEq

/-- An `open` that has made an entry and returned. -/
structure Done where
  tid : Nat
  recorded : Int
  returned : Int

/-- The processes, each somewhere in `open` or not in it; `done` is history. -/
structure Opening where
  sys : Sys
  pc : Nat → OpenPc
  done : List Done

open Opening

/-- A step of a process. -/
inductive OpenAct
  | found (t : Nat) (file : CString) (current : Bool) (memory : Memory)
  | checked (t : Nat)
  | numbered (t : Nat)
  | recorded (t : Nat) (memory : OpenMemory)
  | returned (t : Nat)
  | other (a : Action)

/-- The process goes to `pc`. -/
abbrev Opening.goto (s : Opening) (t : Nat) (sys : Sys) (pc : OpenPc) : Opening :=
  { s with sys, pc := update s.pc t pc }

/-- One step. -/
def Opening.step (s : Opening) : OpenAct → Option Opening
  | .found t file current memory =>
    if t ∈ s.sys.tids ∧ (s.sys.proc t).file = none ∧ s.pc t = .idle then
      match openFound s.sys t file current memory with
      | .ok (sys, none) => some (s.goto t sys .idle)
      | .ok (sys, some (file1, reopened)) => some (s.goto t sys (.found file1 reopened))
      | .error _ => none
    else
      none
  | .checked t =>
    match s.pc t with
    | .found file1 reopened =>
      some (s.goto t s.sys (if openChecked s.sys then .checked file1 reopened else .idle))
    | _ => none
  | .numbered t =>
    match s.pc t with
    | .checked file1 reopened => some (s.goto t (openNumbered s.sys) (.numbered file1 reopened))
    | _ => none
  | .recorded t memory =>
    match s.pc t with
    | .numbered file1 reopened =>
      match openRecorded s.sys t file1 reopened memory with
      | .ok (sys, none) => some (s.goto t sys .idle)
      | .ok (sys, some fd) => some (s.goto t sys (.recorded file1 fd))
      | .error _ => none
    | _ => none
  | .returned t =>
    match s.pc t with
    | .recorded file1 fd =>
      match openReturned s.sys t file1 with
      | .ok (sys, v) => some { s.goto t sys .idle with done := ⟨t, fd, v⟩ :: s.done }
      | .error _ => none
    | _ => none
  | .other a =>
    if s.pc a.tid = .idle ∧ a.call.notOpen = true then
      (machine.step s.sys a).map fun sys => { s with sys }
    else
      none

/-- Any interleaving of the steps. -/
def interleaved : Machine Opening OpenAct where
  init := fun s => Init s.sys ∧ (∀ t, s.pc t = .idle) ∧ s.done = []
  step := step

/-! ## what a step does -/

/-- Nothing is known of `currentFd` here. -/
def OpenPc.Plain : OpenPc → Prop
  | .numbered .. | .recorded .. => False
  | _ => True

/-- The steps, as far as the counter and the lists are concerned. -/
inductive Stepped (s : Opening) : OpenAct → Opening → Prop
  | moves {a : OpenAct} {t : Nat} {h : Handles} {pc : OpenPc} :
      t ∈ s.sys.tids ∨ s.pc t ≠ .idle → pc.Plain →
      Stepped s a (s.goto t { s.sys with handles := h } pc)
  | numbered {t file1 : Nat} {reopened : Bool} :
      s.pc t = .checked file1 reopened →
      Stepped s (.numbered t) (s.goto t (openNumbered s.sys) (.numbered file1 reopened))
  | recorded {t file1 : Nat} {reopened : Bool} {memory : OpenMemory} {h : Handles} :
      s.pc t = .numbered file1 reopened →
      Stepped s (.recorded t memory)
        (s.goto t { s.sys.setList t ((s.sys.proc t).fileFdList ++
          [⟨s.sys.currentFd, file1, t, reopened, false, false, memory.addr⟩]) with handles := h }
          (.recorded file1 s.sys.currentFd))
  | returned {t file1 : Nat} {fd : Int} {h : Handles} {returned : Nat → List Int} :
      s.pc t = .recorded file1 fd →
      Stepped s (.returned t) { s.goto t { s.sys with handles := h, returned := returned } .idle with
        done := ⟨t, fd, s.sys.currentFd⟩ :: s.done }
  | other {a : Action} {sys : Sys} :
      s.pc a.tid = .idle → Frame s.sys a.tid sys → Stepped s (.other a) { s with sys }

theorem stepped {s s' : Opening} {a : OpenAct} (hstep : s.step a = some s') : Stepped s a s' := by
  cases a with
  | found t file current memory =>
    unfold step at hstep
    dsimp only at hstep
    split at hstep
    next hlegal =>
      cases hrun : openFound s.sys t file current memory with
      | error e =>
        rw [hrun] at hstep
        cases hstep
      | ok x =>
        obtain ⟨sys, found⟩ := x
        rw [hrun] at hstep
        have hsys : ∃ h, sys = { s.sys with handles := h } := by
          obtain ⟨⟨h, file1⟩, -, hrun⟩ := bind_eq_ok hrun
          dsimp only at hrun
          split at hrun
          · cases hrun
            exact ⟨h, rfl⟩
          · cases hrun
            exact ⟨h, rfl⟩
        obtain ⟨h, rfl⟩ := hsys
        cases found with
        | none | some found =>
          cases hstep
          exact .moves (.inl hlegal.1) trivial
    next => cases hstep
  | checked t =>
    unfold step at hstep
    dsimp only at hstep
    split at hstep
    next file1 reopened hpc =>
      cases hstep
      have hbusy : s.pc t ≠ .idle := by
        rw [hpc]
        nofun
      refine Stepped.moves (h := s.sys.handles) (.inr hbusy) ?_
      split
      · trivial
      · trivial
    next => cases hstep
  | numbered t =>
    unfold step at hstep
    dsimp only at hstep
    split at hstep
    next file1 reopened hpc =>
      cases hstep
      exact .numbered hpc
    next => cases hstep
  | recorded t memory =>
    unfold step at hstep
    dsimp only at hstep
    split at hstep
    next file1 reopened hpc =>
      cases hrun : openRecorded s.sys t file1 reopened memory with
      | error e =>
        rw [hrun] at hstep
        cases hstep
      | ok x =>
        obtain ⟨sys, fd⟩ := x
        rw [hrun] at hstep
        unfold openRecorded at hrun
        split at hrun
        · obtain ⟨h, -, hrun⟩ := bind_eq_ok hrun
          cases hrun
          cases hstep
          exact .recorded hpc
        · cases hrun
          cases hstep
          have hbusy : s.pc t ≠ .idle := by
            rw [hpc]
            nofun
          exact Stepped.moves (h := s.sys.handles) (.inr hbusy) trivial
    next => cases hstep
  | returned t =>
    unfold step at hstep
    dsimp only at hstep
    split at hstep
    next file1 fd hpc =>
      cases hrun : openReturned s.sys t file1 with
      | error e =>
        rw [hrun] at hstep
        cases hstep
      | ok x =>
        rw [hrun] at hstep
        obtain ⟨h, -, hrun⟩ := bind_eq_ok hrun
        cases hrun
        cases hstep
        exact .returned hpc
    next => cases hstep
  | other a =>
    unfold step at hstep
    dsimp only at hstep
    split at hstep
    next hidle =>
      obtain ⟨sys, hsys, heq⟩ := map_eq_some_iff.mp hstep
      cases heq
      obtain ⟨hlegal, r, hrun⟩ := machine_step hsys
      exact .other hidle.1 (call_frame hlegal hidle.2 hrun)
    next => cases hstep

/-! ## different numbers -/

/-- The numbers in the list of a process. -/
abbrev Sys.numbers (s : Sys) (t : Nat) : List Int := (s.proc t).fileFdList.map FileWithFd.fd

/-- The numbers of a process, by where it is in `open`: they are different numbers that the
counter has had, smaller ones after the process has incremented it, and the new entry is one of
them. -/
structure Numbered (currentFd : Int) (l : List Int) (pc : OpenPc) : Prop where
  le : ∀ fd ∈ l, fd ≤ currentFd
  lt : ∀ file1 reopened, pc = .numbered file1 reopened → ∀ fd ∈ l, fd < currentFd
  mem : ∀ file1 fd, pc = .recorded file1 fd → fd ∈ l
  distinct : l.Nodup

/-- A process that is in `open` is alive, and the numbers of every live process are different. -/
structure Opening.Inv (s : Opening) : Prop where
  busy : ∀ t, s.pc t ≠ .idle → t ∈ s.sys.tids
  numbers : ∀ t ∈ s.sys.tids, Numbered s.sys.currentFd (s.sys.numbers t) (s.pc t)

theorem Numbered.mono {currentFd currentFd' : Int} {l : List Int} {pc : OpenPc}
    (h : Numbered currentFd l pc) (hle : currentFd ≤ currentFd') : Numbered currentFd' l pc :=
  ⟨fun fd hfd => Int.le_trans (h.le fd hfd) hle,
    fun file1 reopened hpc fd hfd => Int.lt_of_lt_of_le (h.lt file1 reopened hpc fd hfd) hle,
    h.mem, h.distinct⟩

/-- Entries go, and the process is nowhere in particular. -/
theorem Numbered.plain {currentFd : Int} {l l' : List Int} {pc pc' : OpenPc}
    (h : Numbered currentFd l pc) (hsub : l'.Sublist l) (hpc : pc'.Plain) :
    Numbered currentFd l' pc' :=
  ⟨fun fd hfd => h.le fd (hsub.mem hfd), fun _ _ heq => absurd hpc (by rw [heq]; exact id),
    fun _ _ heq => absurd hpc (by rw [heq]; exact id), h.distinct.sublist hsub⟩

/-- A step of one process in `open`. -/
theorem Opening.Inv.goto {s : Opening} {t : Nat} {sys : Sys} {pc : OpenPc} (hs : s.Inv)
    (ht : t ∈ s.sys.tids) (htids : sys.tids = s.sys.tids)
    (hothers : ∀ u, u ≠ t → sys.proc u = s.sys.proc u) (hle : s.sys.currentFd ≤ sys.currentFd)
    (hown : Numbered sys.currentFd (sys.numbers t) pc) : (s.goto t sys pc).Inv := by
  refine ⟨fun u hu => ?_, fun u hu => ?_⟩
  · dsimp only at hu ⊢
    rw [htids]
    by_cases hut : u = t
    · rwa [hut]
    · rw [update_of_ne hut] at hu
      exact hs.busy u hu
  · dsimp only at hu ⊢
    by_cases hut : u = t
    · rwa [hut, update_self]
    · rw [update_of_ne hut, Sys.numbers, hothers u hut]
      exact (hs.numbers u (htids ▸ hu)).mono hle

/-- **Every step keeps the numbers different.** -/
theorem Opening.Inv.step {s s' : Opening} {a : OpenAct} (hs : s.Inv) (hstep : Stepped s a s') :
    s'.Inv := by
  have hlive : ∀ {t pc}, s.pc t = pc → pc ≠ .idle → t ∈ s.sys.tids := fun hpc hne =>
    hs.busy _ (hpc ▸ hne)
  cases hstep with
  | moves ht hplain =>
    have ht := ht.elim id (hs.busy _)
    exact hs.goto ht rfl (fun _ _ => rfl) (Int.le_refl _)
      ((hs.numbers _ ht).plain (.refl _) hplain)
  | @numbered t file1 reopened hpc =>
    have ht : t ∈ s.sys.tids := hlive hpc nofun
    have hnumbers := hs.numbers t ht
    have hle : s.sys.currentFd ≤ s.sys.currentFd + 1 := Int.le_add_one (Int.le_refl _)
    refine hs.goto ht rfl (fun _ _ => rfl) hle ⟨?_, ?_, nofun, hnumbers.distinct⟩
    · exact fun fd hfd => Int.le_trans (hnumbers.le fd hfd) hle
    · exact fun _ _ _ fd hfd => Int.lt_add_one_of_le (hnumbers.le fd hfd)
  | @recorded t file1 reopened memory h hpc =>
    have ht : t ∈ s.sys.tids := hlive hpc nofun
    have hnumbers := hs.numbers t ht
    have hlt := hnumbers.lt file1 reopened hpc
    refine hs.goto ht rfl (fun u hu => update_of_ne hu ..) (Int.le_refl _) ?_
    dsimp only [Sys.numbers]
    rw [update_self, map_append, map_singleton]
    refine ⟨?_, nofun, ?_, ?_⟩
    · rw [forall_mem_append, forall_mem_singleton]
      exact ⟨hnumbers.le, Int.le_refl _⟩
    · intro file1' fd heq
      cases heq
      exact mem_append_right _ (mem_singleton_self _)
    · refine nodup_append'.mpr ⟨hnumbers.distinct, nodup_singleton _,
        disjoint_singleton.mpr fun hmem => ?_⟩
      exact Int.lt_irrefl _ (hlt _ hmem)
  | @returned t file1 fd h returned hpc =>
    have ht : t ∈ s.sys.tids := hlive hpc nofun
    have hgoto : (s.goto t { s.sys with handles := h, returned := returned } .idle).Inv :=
      hs.goto ht rfl (fun _ _ => rfl) (Int.le_refl _)
        ((hs.numbers t ht).plain (.refl _) trivial)
    exact ⟨hgoto.busy, hgoto.numbers⟩
  | @other a sys hidle hframe =>
    refine ⟨fun u hu => ?_, fun u hu => ?_⟩
    · have hne : u ≠ a.tid := fun heq => hu (heq ▸ hidle)
      exact (hframe.others u (hs.busy u hu) hne).2
    · dsimp only [Sys.numbers] at hu ⊢
      rw [hframe.currentFd]
      by_cases hmem : u ∈ s.sys.tids
      · by_cases hua : u = a.tid
        · have hplain : (s.pc a.tid).Plain := by
            rw [hidle]
            trivial
          rw [hua] at hmem ⊢
          exact (hs.numbers a.tid hmem).plain hframe.own hplain
        · rw [(hframe.others u hmem hua).1]
          exact hs.numbers u hmem
      · -- a new process has no entry and is not in `open`
        have hnew : s.pc u = .idle := by
          by_contra hne
          exact hmem (hs.busy u hne)
        rw [(hframe.new u hu).resolve_left hmem, hnew]
        exact ⟨nofun, nofun, nofun, nodup_nil⟩

/-! ## the number that is returned -/

/-- The entry has been made. -/
def OpenPc.isRecorded : OpenPc → Bool
  | .recorded .. => true
  | _ => false

/-- No other process increments the counter while a process has made its entry and not yet
returned. -/
def Quiet (s : Opening) : OpenAct → Prop
  | .numbered _ => ∀ t ∈ s.sys.tids, (s.pc t).isRecorded = false
  | _ => True

instance decidableQuiet (s : Opening) (a : OpenAct) : Decidable (Quiet s a) := by
  cases a <;> unfold Quiet <;> infer_instance

/-- What `open` has recorded is what it will return, and what it has returned. -/
structure Agrees (s : Opening) : Prop where
  current : ∀ t file1 fd, s.pc t = .recorded file1 fd → fd = s.sys.currentFd
  done : ∀ d ∈ s.done, d.returned = d.recorded

/-- **A quiet step** keeps that. -/
theorem Agrees.step {s s' : Opening} {a : OpenAct} (hs : Agrees s) (hinv : s.Inv)
    (hquiet : Quiet s a) (hstep : Stepped s a s') : Agrees s' := by
  -- the other processes, when the counter stays
  have hgoto : ∀ {t : Nat} {pc : OpenPc}, (∀ file1 fd, pc = .recorded file1 fd →
      fd = s.sys.currentFd) → ∀ u file1 fd,
      update s.pc t pc u = .recorded file1 fd → fd = s.sys.currentFd := by
    intro t pc hpc u file1 fd hu
    by_cases hut : u = t
    · rw [hut, update_self] at hu
      exact hpc file1 fd hu
    · rw [update_of_ne hut] at hu
      exact hs.current u file1 fd hu
  cases hstep with
  | @moves a t h pc ht hplain =>
    refine ⟨hgoto fun file1 fd hpc => ?_, hs.done⟩
    rw [hpc] at hplain
    exact hplain.elim
  | @numbered t file1 reopened hpc =>
    refine ⟨fun u f fd hu => ?_, hs.done⟩
    dsimp only at hu
    by_cases hut : u = t
    · rw [hut, update_self] at hu
      cases hu
    · rw [update_of_ne hut] at hu
      have hnot := hquiet u (hinv.busy u (by rw [hu]; nofun))
      rw [hu] at hnot
      cases hnot
  | @recorded t file1 reopened memory h hpc =>
    refine ⟨hgoto fun f fd heq => ?_, hs.done⟩
    cases heq
    rfl
  | @returned t file1 fd h returned hpc =>
    refine ⟨hgoto nofun, ?_⟩
    rw [forall_mem_cons]
    exact ⟨(hs.current t file1 fd hpc).symm, hs.done⟩
  | other hidle hframe =>
    refine ⟨fun u file1 fd hu => ?_, hs.done⟩
    dsimp only
    rw [hframe.currentFd]
    exact hs.current u file1 fd hu

theorem interleaved_inv {C : Opening → OpenAct → Prop} {s : Opening}
    (hreach : interleaved.ReachIn C s) : s.Inv := by
  refine hreach.invariant (fun s hinit => ?_) fun s a s' hs _ hstep => hs.step (stepped hstep)
  obtain ⟨hinit, hidle, -⟩ := hinit
  refine ⟨fun t hne => absurd (hidle t) hne, fun t ht => ?_⟩
  dsimp only [Sys.numbers]
  rw [hinit.list t ht, hidle t]
  exact ⟨nofun, nofun, nofun, nodup_nil⟩

/-- **The number that `open` records and the number that it returns.**  In every interleaving,
the entry that `open` has made is still in the list when it returns, and the entries of a process
have different numbers.  When no process increments the counter between the two reads of another
one, what `open` returns is the number of its entry. -/
theorem open_returns_recorded {s : Opening} (hreach : interleaved.Reach s) :
    (∀ t file1 fd, s.pc t = .recorded file1 fd → fd ∈ s.sys.numbers t) ∧
    (∀ t ∈ s.sys.tids, (s.sys.numbers t).Nodup) ∧
    (interleaved.ReachIn Quiet s → ∀ d ∈ s.done, d.returned = d.recorded) := by
  refine ⟨fun t file1 fd hpc => ?_, fun t ht => ?_, fun hreach => ?_⟩
  · have hinv := interleaved_inv hreach
    have ht : t ∈ s.sys.tids := hinv.busy t (by rw [hpc]; nofun)
    exact (hinv.numbers t ht).mem file1 fd hpc
  · exact ((interleaved_inv hreach).numbers t ht).distinct
  · have hagrees : Agrees s := by
      refine hreach.invariant_reach (fun s hinit => ?_) fun s a s' hreach hs hquiet hstep =>
        hs.step (interleaved_inv hreach) hquiet (stepped hstep)
      obtain ⟨-, hidle, hdone⟩ := hinit
      refine ⟨fun t file1 fd hpc => ?_, ?_⟩
      · rw [hidle t] at hpc
        cases hpc
      · rw [hdone]
        exact nofun
    exact hagrees.done

/-- Steps on the small device, with the file `a` and a second process. -/
def openSmall (as : List OpenAct) : List OpenAct :=
  .other ⟨1, noPages, createA⟩ ::
    .other ⟨1, noPages, .threadCreate 2 ⟨[99], by decide⟩⟩ :: as

theorem exists_reach_of_openSmall (C : Opening → OpenAct → Prop) [∀ s a, Decidable (C s a)]
    (as : List OpenAct) (P : Opening → Prop) [DecidablePred P]
    (h : ((filesysInit smallDevice (fun _ => true) (.plenty blankEntry)).toOption.bind fun fs =>
      interleaved.runIn C ⟨boot fs, fun _ => .idle, []⟩ (openSmall as)).any (P ·) = true) :
    ∃ s, interleaved.ReachIn C s ∧ P s := by
  obtain ⟨s, hs, hp⟩ := (Option.any_eq_true ..).mp h
  obtain ⟨fs, hfs, hrun⟩ := bind_eq_some_iff.mp hs
  obtain ⟨L, hinv, -⟩ := filesysInit_inv (by decide) (eq_ok_of_toOption hfs)
  have hinit : interleaved.init ⟨boot fs, fun _ => .idle, []⟩ :=
    ⟨init_boot hinv, fun _ => rfl, rfl⟩
  exact ⟨s, .runIn (.init hinit) _ hrun, of_decide_eq_true hp⟩

/-- The steps of one call of `open`, before it returns. -/
def openBegin (t : Nat) : List OpenAct :=
  [.found t nameA false (.plenty blankEntry), .checked t, .numbered t, .recorded t openPlenty]

/-- Two calls of `open` one after the other. -/
theorem open_returns_recorded_in_turn :
    ∃ s, interleaved.ReachIn Quiet s ∧ s.done.length = 2 ∧
      ∀ d ∈ s.done, d.returned = d.recorded := by
  obtain ⟨s, hreach, hp⟩ := exists_reach_of_openSmall Quiet
    (openBegin 1 ++ .returned 1 :: openBegin 2 ++ [.returned 2])
    (fun s => s.done.length = 2) (by decide +kernel)
  have hany : interleaved.Reach s := hreach.mono fun _ _ _ _ _ => trivial
  exact ⟨s, hreach, hp, (open_returns_recorded hany).2.2 hreach⟩

/-- Two calls of `open` that overlap: the first one records 3 and returns 4. -/
theorem open_returns_other_number :
    ∃ s, interleaved.Reach s ∧ ∃ d ∈ s.done, d.tid = 1 ∧ d.recorded = 3 ∧ d.returned = 4 := by
  exact exists_reach_of_openSmall (fun _ _ => True) (openBegin 1 ++ openBegin 2 ++ [.returned 1]) _
    (by decide +kernel)

end Pintos.Descriptor
