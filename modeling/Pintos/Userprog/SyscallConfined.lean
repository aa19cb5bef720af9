import Pintos.Userprog.SyscallCalls

/-!
# Pintos.Userprog.SyscallConfined

Whether a system call stays in user memory.

The process is to be terminated when a byte that its call is about lies at or above
`PHYS_BASE`.  The checks of the handler are made on the first byte of each word, of
each name and of each buffer, and not all of them end the process.  A call is
confined exactly when all its bytes are in user memory (`InUser`), or when a check
ends the process before anything else happens (`Refused`).
-/

namespace Pintos.Syscall

open MemProg List

/-! ## the property -/

/-- The memory of a process: user memory ends at `PHYS_BASE`, `page_fault` ends the
process for an access that it cannot serve, and nothing is at address 0. -/
structure UserGuard (G : Guard Stop) : Prop where
  limit : G.limit = physBase
  fault : G.fault = .exit exitFail
  null : G.readable 0 = false

/-- The run stays below `PHYS_BASE`, and the process does not survive a call that has a
byte elsewhere. -/
def Confined (k : Kernel) (G : Guard Stop) (m : Mem UInt8) (esp : Nat) : Prop :=
  match MemProg.exec G (syscallHandler k esp) m with
  | .done _ _ => InUser m.bytes esp
  | .stopped x _ => (∃ status, x = .exit status) ∨ InUser m.bytes esp
  | .escaped _ => False

/-- A kernel without files, for a process that has done nothing yet. -/
def idle : Kernel where
  dirOpens := false
  opens := false
  denied _ := false
  malloc := false
  heapWord := 0
  stray := []
  spageMalloc := true
  inodeWritten := false
  dataWritten := false
  calloc := false
  dirWritten := false
  removes := false
  ioLimit := 0
  palloc := true
  execute _ _ := 0
  wait _ := 0
  getc := 0
  hasLoadIn _ := false
  isDirty _ := false
  name := []
  currentFileName := []
  dir := []
  contents _ := []
  freeMap := bitmapCreate 0
  files := []
  currentFd := 2
  spages _ := true
  num := 2
  console := []

theorem idle_ok : idle.Ok where
  files f hf := absurd hf not_mem_nil
  stack := rfl
  num_ge := le_refl 2
  heap_ne := by decide
  names e he := absurd he not_mem_nil
  fd_ge := le_refl 2
  fd_le := by decide
  freeMap := by decide

/-- A process all of whose memory is there. -/
def userGuard : Guard Stop where
  limit := physBase
  fault := .exit exitFail
  page p := p / pgsize
  readable p := p != 0
  writable _ := true

/-- Little-endian words from `base` on. -/
def wordsFrom (base : Nat) (ws : List Nat) (p : Nat) : UInt8 :=
  if p < base then 0
  else UInt8.ofNat (ws.getD ((p - base) / 4) 0 / 256 ^ ((p - base) % 4))

theorem userGuard_user : UserGuard userGuard := ⟨rfl, rfl, rfl⟩

/-- `write (1, PHYS_BASE - 1, 2)` prints a byte of the kernel. -/
theorem write_reads_kernel_memory :
    ¬ Confined idle userGuard (Mem.full (wordsFrom 0xbfffff00 [9, 1, 0xbfffffff, 2])) 0xbfffff00 := by
  have hrun : MemProg.exec userGuard (syscallHandler idle 0xbfffff00)
      (Mem.full (wordsFrom 0xbfffff00 [9, 1, 0xbfffffff, 2])) = .escaped physBase := rfl
  unfold Confined
  rw [hrun]
  exact not_false

/-! ## calls that are refused -/

/-- A check ends the process before the call reads anything but its words. -/
def Caught (bytes : Nat → UInt8) (esp : Nat) : SyscallNr → Prop
  | .halt | .exec => False
  | .seek | .mmap => physBase ≤ esp + 8
  | .create => physBase ≤ esp + 8 ∨ esp + 12 ≤ physBase ∧ wordAt bytes (esp + 4) = 0
  | .open | .remove =>
    physBase ≤ esp + 4 ∨
      esp + 8 ≤ physBase ∧
        (wordAt bytes (esp + 4) = 0 ∨ physBase ≤ wordAt bytes (esp + 4))
  | .read | .write =>
    physBase ≤ esp + 8 ∨
      esp + 12 ≤ physBase ∧
        (wordAt bytes (esp + 8) = 0 ∨ physBase ≤ wordAt bytes (esp + 8) ∨
          physBase ≤ esp + 12 ∨
          esp + 16 ≤ physBase ∧
            (toInt32 (wordAt bytes (esp + 4)) < 1 ∨
              fileLimit < toInt32 (wordAt bytes (esp + 4))))
  | _ => physBase ≤ esp + 4

/-- The call ends the process. -/
def Refused (bytes : Nat → UInt8) (esp : Nat) : Prop :=
  esp = 0 ∨ physBase ≤ esp ∨
    esp + 4 ≤ physBase ∧ ∃ nr, SyscallNr.ofNum (wordAt bytes esp) = some nr ∧ Caught bytes esp nr

variable {k : Kernel} {G : Guard Stop} {m : Mem UInt8} {bytes : Nat → UInt8} {esp p : Nat}

/-- Only `exit` is permitted. -/
def onlyExit : Permit Stop := ⟨fun x => ∃ status, x = .exit status, True, False, fun _ => True⟩

theorem reads_onlyExit (hG : UserGuard G) (hp : p < physBase) : onlyExit.Reads G p :=
  ⟨.inl (hG.limit ▸ hp), .inr trivial⟩

theorem checks_onlyExit (m : Mem UInt8) (p : Nat) : Checks onlyExit G m p :=
  ⟨trivial, .inr ⟨trivial, exitFail, rfl⟩⟩

theorem lt_of_safe (h : safe G m p = true) : p < physBase ∧ p ≠ 0 := by
  unfold safe isUserVaddr at h
  simp only [Bool.and_eq_true, decide_eq_true_eq, bne_iff_ne] at h
  exact ⟨h.1, h.2.2⟩

theorem lt_of_checked {bytes : Nat → UInt8} {V : View G bytes} {ws : List Nat}
    (h : ∃ m, V.holds m ws ∧ safe G m p = true) : p < physBase ∧ p ≠ 0 := by
  obtain ⟨_, _, hs⟩ := h
  exact lt_of_safe hs

theorem ready_onlyExit (hk : k.Ok) (hG : UserGuard G) : Ready onlyExit G k :=
  ⟨hk, hk.mapped fun _ ha => reads_onlyExit hG ha⟩

/-- **A call that is refused ends the process.** -/
theorem ends_of_refused (hk : k.Ok) (hG : UserGuard G) (h : Refused m.bytes esp) :
    Ends G onlyExit (syscallHandler k esp) m fun _ _ => False := by
  have hready := ready_onlyExit hk hG
  have hcheck : ∀ p (m' : Mem UInt8), m'.bytes = m.bytes → Checks onlyExit G m' p :=
    fun p m' _ => checks_onlyExit m' p
  have hword : ∀ p, p + 4 ≤ physBase → ∀ i, i < 4 → onlyExit.Reads G (p + i) :=
    fun p hp i hi => reads_onlyExit hG (by omega)
  refine ends_syscallHandler (V := .plain G m.bytes) hready rfl (fun _ _ => trivial)
    ⟨hcheck _, fun hs => ?_⟩
  have hesp := lt_of_checked hs
  obtain ⟨hle, nr, hnr, hcaught⟩ := (h.resolve_left hesp.2).resolve_left (not_le.mpr hesp.1)
  refine ⟨hword _ hle, fun _ => ?_⟩
  simp only [hnr, served, Option.map_some, Option.getD_some]
  cases nr with
  | halt | exec => exact hcaught.elim
  | seek | mmap =>
    exact ⟨hcheck _, fun _ => ⟨hcheck _, fun hs => absurd hcaught
      (not_le.mpr (lt_of_checked hs).1)⟩⟩
  | remove | «open» =>
    unfold Caught at hcaught
    refine ⟨hcheck _, fun hs => ?_⟩
    have := lt_of_checked hs
    refine ⟨hword _ (by omega), fun _ => ⟨hcheck _, fun hs' => ?_⟩⟩
    have := lt_of_checked hs'
    omega
  | create =>
    unfold Caught at hcaught
    refine ⟨hcheck _, fun _ => ⟨hcheck _, fun hs => ?_⟩⟩
    have := lt_of_checked hs
    refine ⟨hword _ (by omega), fun _ => ⟨hword _ (by omega), fun _ m' hm' => ?_⟩⟩
    obtain ⟨-, hzero⟩ := hcaught.resolve_left (by omega)
    rw [hzero]
    -- the first access is to address 0
    refine ends_bind (ends_bind (ends_scanTo (fun i hi _ => reads_onlyExit hG ?_)
      fun _ _ _ hr => ?_))
    · unfold physBase
      omega
    · rw [hG.null] at hr
      contradiction
  | read | write =>
    unfold Caught at hcaught
    refine ⟨hcheck _, fun _ => ⟨hcheck _, fun hs => ?_⟩⟩
    have := lt_of_checked hs
    refine ⟨hword _ (by omega), fun _ => ⟨hcheck _, fun hs₁ => ⟨hcheck _, ?_⟩⟩⟩
    intro hs₂
    have := lt_of_checked hs₁
    have := lt_of_checked hs₂
    have hfd : esp + 16 ≤ physBase ∧ (toInt32 (wordAt m.bytes (esp + 4)) < 1 ∨
        fileLimit < toInt32 (wordAt m.bytes (esp + 4))) := by omega
    refine ⟨hword _ (by omega), fun _ => ⟨hword _ (by omega), fun _ => ⟨hword _ (by omega), ?_⟩⟩⟩
    intro _ m' _
    first
      | exact ends_bind (ends_read hready (fun _ _ _ _ => by omega) (fun _ => ⟨exitFail, rfl⟩)
          fun _ _ hge hle => by omega)
      | exact ends_bind (ends_write hready (by omega)
          (fun hone => by unfold fileLimit at hfd; omega) (fun _ => ⟨exitFail, rfl⟩)
          fun _ _ _ hge hle => by omega)
  | _ =>
    exact ⟨hcheck _, fun hs => absurd hcaught (not_le.mpr (lt_of_checked hs).1)⟩

/-! ## calls that are not refused -/

/-- `exit` is not permitted. -/
def noExit : Permit Stop := ⟨fun x => ∀ status, x ≠ .exit status, False, True, fun _ => True⟩

theorem reads_noExit (hp : p ≠ 0) : noExit.Reads userGuard p :=
  ⟨.inr trivial, .inl (bne_iff_ne.mpr hp)⟩

theorem ready_noExit : Ready noExit userGuard idle :=
  ⟨idle_ok, fun _ hf => absurd hf not_mem_nil⟩

theorem scanned_noExit (hp : p ≠ 0) (n : Nat) : Scanned bytes 0 (noExit.Reads userGuard) p n :=
  fun _ _ _ => reads_noExit (by omega)

/-- Where everything is resident, only the null pointer and the addresses of the kernel
fail a check. -/
theorem safe_of_lt (hm : ∀ r, m.resident r = true) (hp : p < physBase) (hne : p ≠ 0) :
    safe G m p = true := by
  unfold safe isUserVaddr
  rw [decide_eq_true hp, hm, bne_iff_ne.mpr hne]
  rfl

theorem checks_noExit (hm : ∀ r, m.resident r = true) (hp : p < physBase) (hne : p ≠ 0) :
    Checks noExit userGuard m p :=
  ⟨trivial, .inl (safe_of_lt hm hp hne)⟩

/-- All pages are resident. -/
def allResident (bytes : Nat → UInt8) : View userGuard bytes where
  holds m _ := m.bytes = bytes ∧ ∀ r, m.resident r = true
  bytes_eq h := h.1
  touch _ h := ⟨(Mem.touchRange_bytes ..).trans h.1, fun r =>
    Mem.touchRange_resident.mpr (.inl (h.2 r))⟩

/-- **A call that is neither refused nor in user memory does not end the process.** -/
theorem ends_of_not_refused (hu : ¬ InUser bytes esp) (hr : ¬ Refused bytes esp) :
    Ends userGuard noExit (syscallHandler idle esp) (Mem.full bytes) fun _ _ => True := by
  have hcheck : ∀ p ws, p < physBase → p ≠ 0 →
      ∀ m, (allResident bytes).holds m ws → Checks noExit userGuard m p :=
    fun p ws hp hne m hm => checks_noExit hm.2 hp hne
  have hword : ∀ p, p ≠ 0 → ∀ i, i < 4 → noExit.Reads userGuard (p + i) :=
    fun p hp i _ => reads_noExit (by omega)
  have hesp : esp ≠ 0 ∧ esp < physBase := by
    unfold Refused at hr
    omega
  refine ends_syscallHandler (V := allResident bytes) ready_noExit ⟨rfl, fun _ => rfl⟩
    (fun _ _ => trivial) ⟨hcheck _ _ hesp.2 hesp.1, fun _ => ⟨hword _ hesp.1, fun hle => ?_⟩⟩
  change esp + 4 ≤ physBase at hle
  rcases hnr : SyscallNr.ofNum (wordAt bytes esp) with _ | nr
  · simp only [served, hnr, Option.map_none, Option.getD_none]
    exact fun m _ => ends_pure trivial
  simp only [served, hnr, Option.map_some, Option.getD_some]
  have hcaught : ¬ Caught bytes esp nr := fun hc => hr (.inr (.inr ⟨hle, nr, hnr, hc⟩))
  have hnot : ¬ (esp + 4 + 4 * argCount nr ≤ physBase ∧ PointersInUser bytes esp nr) := by
    refine fun h => hu ⟨hle, fun nr' hnr' => ?_⟩
    obtain rfl : nr = nr' := Option.some.inj (hnr.symm.trans hnr')
    exact h
  -- once a call has read its words, they are in user memory
  cases nr with
  | halt => exact fun m _ => ends_stop (by simp [noExit])
  | seek | mmap =>
    have hlt : esp + 8 < physBase := not_le.mp hcaught
    exact ⟨hcheck _ _ (by omega) (by omega), fun _ => ⟨hcheck _ _ hlt (by omega), fun _ =>
      ⟨hword _ (by omega), fun _ => ⟨hword _ (by omega), fun hle => absurd ⟨hle, trivial⟩ hnot⟩⟩⟩⟩
  | exec =>
    exact ⟨hword _ (by omega), fun _ m _ => ends_bind (ends_exec (fun _ => trivial)
      (fun hs => scanned_noExit (lt_of_safe hs).2 _) (by simp [noExit])
      fun _ _ _ => ends_pure trivial)⟩
  | create =>
    unfold Caught at hcaught
    refine ⟨hcheck _ _ (by omega) (by omega), fun _ => ⟨hcheck _ _ (by omega) (by omega), fun _ =>
      ⟨hword _ (by omega), fun _ => ⟨hword _ (by omega), fun (hle : esp + 8 + 4 ≤ physBase) m hm =>
        ends_bind (ends_create ready_noExit (.inr (by simp [noExit])) (scanned_noExit (by omega) _)
          (by simp [noExit]) (fun hlt hzero => ?_) fun _ _ _ _ => ends_pure trivial)⟩⟩⟩⟩
    -- an empty name is in user memory
    refine absurd ⟨hle, fun i hbefore => ?_⟩ hnot
    cases i with
    | zero => exact hlt
    | succ i => exact absurd (hm.1 ▸ hzero) (hbefore 0 (by omega))
  | remove | «open» =>
    unfold Caught at hcaught
    refine ⟨hcheck _ _ (by omega) (by omega), fun _ => ⟨hword _ (by omega),
      fun (hle : esp + 4 + 4 ≤ physBase) => ?_⟩⟩
    have hfile : wordAt bytes (esp + 4) ≠ 0 := by omega
    refine ⟨hcheck _ _ (by omega) hfile, fun _ => ⟨hword _ (by omega), fun _ m _ => ?_⟩⟩
    first
      | exact ends_bind (ends_filesysRemove idle_ok (.inl hfile) (scanned_noExit hfile _)
          fun _ _ _ _ => ends_pure trivial)
      | exact ends_bind (ends_openFile idle_ok (.inl hfile) (scanned_noExit hfile)
          fun _ _ _ _ _ => ends_pure trivial)
  | read | write =>
    unfold Caught at hcaught
    refine ⟨hcheck _ _ (by omega) (by omega), fun _ => ⟨hcheck _ _ (by omega) (by omega), fun _ =>
      ⟨hword _ (by omega), fun (hle : esp + 8 + 4 ≤ physBase) => ?_⟩⟩⟩
    have hbuffer : wordAt bytes (esp + 8) ≠ 0 := by omega
    refine ⟨hcheck _ _ (by omega) hbuffer, fun _ => ⟨hcheck _ _ (by omega) (by omega), fun _ =>
      ⟨hword _ (by omega), fun _ => ⟨hword _ (by omega), fun _ => ⟨hword _ (by omega),
        fun (hle : esp + 12 + 4 ≤ physBase) m _ => ?_⟩⟩⟩⟩⟩
    have hfd : ¬ (toInt32 (wordAt bytes (esp + 4)) < 1 ∨
        fileLimit < toInt32 (wordAt bytes (esp + 4)) ∨ ∃ f ∈ idle.files, f.own = false) := by
      rintro (hfd | hfd | ⟨f, hf, -⟩)
      · omega
      · omega
      · exact absurd hf not_mem_nil
    first
      | exact ends_bind (ends_read ready_noExit (fun _ _ _ _ _ _ _ => ⟨.inr trivial, .inl rfl⟩)
          (fun h => absurd h hfd) fun _ _ _ _ _ _ => ends_pure trivial)
      | exact ends_bind (ends_write ready_noExit (fun _ _ i _ => reads_noExit (by omega))
          (fun _ i _ => reads_noExit (by omega)) (fun h => absurd h hfd)
          fun _ _ _ _ _ _ => ends_pure trivial)
  | _ =>
    exact ⟨hcheck _ _ (not_le.mp hcaught) (by omega), fun _ => ⟨hword _ (by omega),
      fun hle => absurd ⟨hle, trivial⟩ hnot⟩⟩

/-! ## the condition -/

/-- **A call is confined exactly when its bytes are in user memory or it is refused.** -/
theorem confined_iff (bytes : Nat → UInt8) (esp : Nat) :
    (∀ k : Kernel, k.Ok → ∀ G, UserGuard G → ∀ m : Mem UInt8, m.bytes = bytes →
      Confined k G m esp) ↔ InUser bytes esp ∨ Refused bytes esp := by
  constructor
  · intro h
    by_cases hu : InUser bytes esp
    · exact .inl hu
    · refine .inr (by_contra fun hr => ?_)
      have hrun := h idle idle_ok userGuard userGuard_user (Mem.full bytes) rfl
      unfold Confined at hrun
      rcases (ends_of_not_refused hu hr).exec with ⟨r, m', heq, -⟩ | ⟨x, m', heq, hx⟩ | ⟨a, heq, -⟩
      · rw [heq] at hrun
        exact hu hrun
      · rw [heq] at hrun
        rcases hrun with ⟨status, rfl⟩ | hrun
        · exact hx.elim (fun hx => hx status rfl) (·.1)
        · exact hu hrun
      · rwa [heq] at hrun
  · rintro h k hk G hG m rfl
    unfold Confined
    rcases h with hu | hr
    · have hends : Ends G ⟨fun _ => True, True, False, fun _ => True⟩ (syscallHandler k esp) m
          fun r _ => r.kernel.Ok := by
        refine ends_syscallHandler_ok hk (fun _ => trivial) (fun _ => trivial) ?_ (.inl hu)
        rintro a (ha | ha)
        · rw [← hG.limit] at ha
          exact ⟨⟨.inl ha, .inr trivial⟩, .inl ha, .inr trivial⟩
        · exact ha.elim
      rcases hends.exec with ⟨r, m', heq, -⟩ | ⟨x, m', heq, -⟩ | ⟨a, heq, ha⟩
      · rwa [heq]
      · rw [heq]
        exact .inr hu
      · exact ha.elim
    · rcases (ends_of_refused hk hG hr).exec with ⟨r, m', heq, hr⟩ | ⟨x, m', heq, hx⟩ | ⟨a, heq, ha⟩
      · exact hr.elim
      · rw [heq]
        rcases hx with hx | ⟨-, rfl⟩
        · exact .inl hx
        · exact .inl ⟨exitFail, hG.fault⟩
      · exact ha.elim

end Pintos.Syscall
