import Pintos.Userprog.SyscallAssert

/-!
# Pintos.Userprog.SyscallResidency

What a system call shows of the eviction of pages.

The pages of a process are resident, in swap, or elsewhere (not loaded yet, or not
there).  `page_fault` brings in a page from swap when the kernel touches it, but
`safe_access` asks the page directory and takes an evicted page for a bad pointer.
Two runs of a call whose arguments belong to the process, and which differ in what
is evicted only, therefore end alike exactly when the checks of the call give the
same answers in both, or when the call ends the process anyway.  A page that has
been in swap is writable afterwards, which `read` shows.

No page is evicted while the call runs.
-/

namespace Pintos.Syscall

open MemProg List SyscallNr
open Option hiding or_assoc

/-! ## address spaces -/

/-- Where a page is. -/
inductive Residence
  | resident
  | swapped
  | elsewhere
deriving DecidableEq

/-- The lowest address that `page_fault` brings in. -/
def userBase : Nat := 0x08048000

/-- The memory of a process: its bytes, wherever they are, and for each page where it is
and whether it has been mapped writable.  `faultsIn` is the answer of `page_fault` for an
address whose page is elsewhere. -/
structure Space where
  bytes : Nat → UInt8
  place : Nat → Residence
  writable : Nat → Bool
  faultsIn : Nat → Bool
  low : ∀ q, place q = .swapped → userBase ≤ q * pgsize
  null : place 0 = .elsewhere
  faultsIn_null : faultsIn 0 = false

namespace Space

/-- What happens on an access; a page that comes from swap is installed writable. -/
def guard (s : Space) : Guard Stop where
  limit := physBase
  fault := .exit exitFail
  page p := p / pgsize
  readable p :=
    match s.place (p / pgsize) with
    | .resident => true
    | .swapped => userBase ≤ p
    | .elsewhere => s.faultsIn p
  writable p :=
    match s.place (p / pgsize) with
    | .resident => s.writable (p / pgsize)
    | .swapped => userBase ≤ p
    | .elsewhere => s.faultsIn p && s.writable (p / pgsize)

def mem (s : Space) : Mem UInt8 := ⟨s.bytes, fun q => s.place q = .resident⟩

end Space

/-- The outcome of a call: the result and the memory, or how the process ended. -/
def run (k : Kernel) (s : Space) (esp : Nat) : Visible UInt8 Stop SysRet :=
  (MemProg.exec s.guard (syscallHandler k esp) s.mem).visible

/-- The two differ only in which pages are resident and which are in swap. -/
structure Sibling (s s' : Space) : Prop where
  bytes : s'.bytes = s.bytes
  writable : s'.writable = s.writable
  faultsIn : s'.faultsIn = s.faultsIn
  place : ∀ q, s.place q = .elsewhere ↔ s'.place q = .elsewhere

/-- The address is on a page of the process. -/
def Belongs (s : Space) (p : Nat) : Prop := p < physBase ∧ s.guard.readable p = true

/-- The file name, or the buffer, belongs to the process. -/
def PointersBelong (s : Space) (esp : Nat) : SyscallNr → Prop
  | .exec | .create | .remove | .open =>
    ∀ i, (∀ j, j < i → s.bytes (wordAt s.bytes (esp + 4) + j) ≠ 0) →
      Belongs s (wordAt s.bytes (esp + 4) + i)
  | .read | .write =>
    Belongs s (wordAt s.bytes (esp + 8)) ∧
      ∀ i, i < wordAt s.bytes (esp + 12) → Belongs s (wordAt s.bytes (esp + 8) + i)
  | _ => True

/-- The arguments of the call refer to pages of the process. -/
def ArgsBelong (s : Space) (esp : Nat) : Prop :=
  (∀ i, i < 4 → Belongs s (esp + i)) ∧
    ∀ nr, ofNum (wordAt s.bytes esp) = some nr →
      (∀ i, i < 4 * argCount nr → Belongs s (esp + 4 + i)) ∧ PointersBelong s esp nr

/-! ## the checks -/

/-- The page of `p` is resident once the words at `ws` have been read. -/
def Hit (s : Space) (ws : List Nat) (p : Nat) : Prop :=
  s.place (p / pgsize) = .resident ∨ ∃ w ∈ ws, ∃ i, i < 4 ∧ (w + i) / pgsize = p / pgsize

/-- The checks that end the process find their pages resident. -/
def PassesNr (s : Space) (esp : Nat) : SyscallNr → Prop
  | .halt | .exec => True
  | .create | .seek | .mmap => Hit s [esp] (esp + 4) ∧ Hit s [esp] (esp + 8)
  | .open | .remove => Hit s [esp] (esp + 4) ∧ Hit s [esp + 4, esp] (wordAt s.bytes (esp + 4))
  | .read | .write =>
    Hit s [esp] (esp + 4) ∧ Hit s [esp] (esp + 8) ∧
      Hit s [esp + 8, esp] (wordAt s.bytes (esp + 8)) ∧ Hit s [esp + 8, esp] (esp + 12)
  | _ => Hit s [esp] (esp + 4)

/-- The handler reaches the call. -/
def Passes (s : Space) (esp : Nat) : Prop :=
  Hit s [] esp ∧ ∀ nr, ofNum (wordAt s.bytes esp) = some nr → PassesNr s esp nr

/-- The checks give the same answers in both: those of the handler, that of `exec` on the
command line, and the write protection of the buffer of `read`. -/
structure SameChecks (s s' : Space) (esp : Nat) : Prop where
  passes : Passes s esp ↔ Passes s' esp
  cmdLine : Passes s esp → ofNum (wordAt s.bytes esp) = some .exec →
    (Hit s [esp + 4, esp] (wordAt s.bytes (esp + 4)) ↔
      Hit s' [esp + 4, esp] (wordAt s.bytes (esp + 4)))
  buffer : Passes s esp → ofNum (wordAt s.bytes esp) = some .read →
    3 ≤ toInt32 (wordAt s.bytes (esp + 4)) → toInt32 (wordAt s.bytes (esp + 4)) ≤ fileLimit →
    ∀ n, n ≤ (toInt32 (wordAt s.bytes (esp + 12))).toNat →
      ((∀ i, i < n → s.guard.writable (wordAt s.bytes (esp + 8) + i) = true) ↔
        ∀ i, i < n → s'.guard.writable (wordAt s.bytes (esp + 8) + i) = true)

/-- The call ends the process with `EXIT_FAIL` whatever is resident: `exit (-1)`, an empty
name for `create`, a descriptor out of range for `read` and `write`. -/
def Fails (bytes : Nat → UInt8) (esp : Nat) : SyscallNr → Prop
  | .exit => toInt32 (wordAt bytes (esp + 4)) = exitFail
  | .create => bytes (wordAt bytes (esp + 4)) = 0
  | .read | .write =>
    toInt32 (wordAt bytes (esp + 4)) < 1 ∨ fileLimit < toInt32 (wordAt bytes (esp + 4))
  | _ => False

/-- The call ends the process in any case. -/
def AlwaysFails (bytes : Nat → UInt8) (esp : Nat) : Prop :=
  ∃ nr, ofNum (wordAt bytes esp) = some nr ∧ Fails bytes esp nr

variable {k : Kernel} {s s' : Space} {m : Mem UInt8} {esp p : Nat} {ws : List Nat}
  {nr : SyscallNr} {X : Permit Stop} {bytes : Nat → UInt8} {size n : Nat} {α : Type} {q : Sys α}

theorem Belongs.ne_zero (h : Belongs s p) : p ≠ 0 := by
  rintro rfl
  have hread := h.2
  simp only [Space.guard, Nat.zero_div, s.null, s.faultsIn_null] at hread
  contradiction

theorem guard_null (s : Space) : s.guard.readable 0 = false := by
  simp only [Space.guard, Nat.zero_div, s.null, s.faultsIn_null]

theorem Sibling.symm (h : Sibling s s') : Sibling s' s :=
  ⟨h.bytes.symm, h.writable.symm, h.faultsIn.symm, fun q => (h.place q).symm⟩

/-- A page that is in swap belongs to the process as much as one that is resident. -/
theorem readable_iff (s : Space) (p : Nat) :
    s.guard.readable p = true ↔ s.place (p / pgsize) ≠ .elsewhere ∨ s.faultsIn p = true := by
  simp only [Space.guard]
  split
  · next h => simp [h]
  · next h =>
    have hlow := s.low _ h
    have hle : p / pgsize * pgsize ≤ p := Nat.div_mul_le_self ..
    simp only [h, decide_eq_true_eq, ne_eq, reduceCtorEq, not_false_eq_true, true_or, iff_true]
    omega
  · next h => simp [h]

theorem Belongs.of_sibling (h : Belongs s p) (hs : Sibling s s') : Belongs s' p := by
  refine ⟨h.1, ?_⟩
  rw [readable_iff, hs.faultsIn, Ne, ← hs.place]
  exact (readable_iff s p).mp h.2

theorem ArgsBelong.of_sibling (h : ArgsBelong s esp) (hs : Sibling s s') : ArgsBelong s' esp := by
  unfold ArgsBelong
  rw [hs.bytes]
  refine ⟨fun i hi => (h.1 i hi).of_sibling hs, fun nr hnr => ?_⟩
  obtain ⟨hwords, hpointers⟩ := h.2 nr hnr
  refine ⟨fun i hi => (hwords i hi).of_sibling hs, ?_⟩
  cases nr with
  | exec | create | remove | «open» =>
    intro i hbefore
    rw [hs.bytes] at hbefore ⊢
    exact (hpointers i hbefore).of_sibling hs
  | read | write =>
    simp only [PointersBelong, hs.bytes]
    exact ⟨hpointers.1.of_sibling hs, fun i hi => (hpointers.2 i hi).of_sibling hs⟩
  | _ => trivial

/-! ## an evicted buffer -/

/-- A process whose pages are resident but for those in `out`. -/
def spaceWithout (out : List Nat) (bytes : Nat → UInt8) : Space where
  bytes := bytes
  place q :=
    if q = 0 then .elsewhere
    else if q ∈ out ∧ userBase ≤ q * pgsize then .swapped
    else .resident
  writable _ := true
  faultsIn _ := false
  low q h := by
    split at h
    · contradiction
    · split at h
      · next hq => exact hq.2
      · contradiction
  null := rfl
  faultsIn_null := rfl

theorem place_spaceWithout (out : List Nat) (bytes : Nat → UInt8) (q : Nat) :
    (spaceWithout out bytes).place q = .elsewhere ↔ q = 0 := by
  simp only [spaceWithout]
  split
  · next hq => exact ⟨fun _ => hq, fun _ => rfl⟩
  · next hq =>
    refine ⟨fun h => ?_, fun h => absurd h hq⟩
    split at h <;> contradiction

theorem sibling_spaceWithout (out out' : List Nat) (bytes : Nat → UInt8) :
    Sibling (spaceWithout out bytes) (spaceWithout out' bytes) :=
  ⟨rfl, rfl, rfl, fun _ => (place_spaceWithout ..).trans (place_spaceWithout ..).symm⟩

theorem belongs_spaceWithout {out : List Nat} (hp : pgsize ≤ p)
    (hlt : p < physBase) : Belongs (spaceWithout out bytes) p := by
  refine ⟨hlt, (readable_iff _ _).mpr (.inl ?_)⟩
  rw [Ne, place_spaceWithout]
  exact Nat.div_ne_zero_iff.mpr ⟨by decide, hp⟩

/-- The arguments of `write (1, 0x08050000, 1)`. -/
def writeOne : Nat → UInt8 := wordsFrom 0xbfffff00 [9, 1, 0x08050000, 1]

theorem argsBelong_write (out : List Nat) {buffer : Nat}
    (hnr : wordAt bytes 0xbfffff00 = 9) (hbuffer : wordAt bytes (0xbfffff00 + 8) = buffer)
    (hsize : wordAt bytes (0xbfffff00 + 12) = size) (hlow : pgsize ≤ buffer)
    (hhigh : buffer + size < physBase) : ArgsBelong (spaceWithout out bytes) 0xbfffff00 := by
  have hbelongs : ∀ p, pgsize ≤ p → p < physBase → Belongs (spaceWithout out bytes) p :=
    fun p => belongs_spaceWithout
  unfold pgsize at hlow
  unfold physBase at hhigh
  unfold pgsize physBase at hbelongs
  refine ⟨fun i hi => hbelongs _ (by omega) (by omega), fun nr hwrite => ?_⟩
  change ofNum (wordAt bytes 0xbfffff00) = some nr at hwrite
  rw [hnr] at hwrite
  obtain rfl : nr = .write := (some.inj hwrite).symm
  refine ⟨fun i hi => ?_, ?_, fun i hi => ?_⟩
  · change i < 12 at hi
    exact hbelongs _ (by omega) (by omega)
  · change Belongs _ (wordAt bytes (0xbfffff00 + 8))
    rw [hbuffer]
    exact hbelongs _ (by omega) (by omega)
  · change i < wordAt bytes (0xbfffff00 + 12) at hi
    change Belongs _ (wordAt bytes (0xbfffff00 + 8) + i)
    rw [hsize] at hi
    rw [hbuffer]
    exact hbelongs _ (by omega) (by omega)

/-! ## memories on the way -/

/-- The memory after the words at `ws` have been read. -/
structure Tracks (m : Mem UInt8) (s : Space) (ws : List Nat) : Prop where
  bytes : m.bytes = s.bytes
  resident : ∀ q, m.resident q = true ↔
    s.place q = .resident ∨ ∃ w ∈ ws, ∃ i, i < 4 ∧ (w + i) / pgsize = q

theorem tracks_mem (s : Space) : Tracks s.mem s [] := by
  refine ⟨rfl, fun q => ?_⟩
  simp [Space.mem]

theorem Tracks.touch (h : Tracks m s ws) (w : Nat) :
    Tracks (m.touchRange s.guard.page w 4) s (w :: ws) := by
  refine ⟨(Mem.touchRange_bytes ..).trans h.bytes, fun q => ?_⟩
  rw [Mem.touchRange_resident, h.resident, or_assoc]
  refine or_congr_right ?_
  simp only [mem_cons, exists_eq_or_imp]
  exact or_comm

theorem Tracks.safe_iff (h : Tracks m s ws) :
    safe s.guard m p = true ↔ p < physBase ∧ p ≠ 0 ∧ Hit s ws p := by
  have hres := h.resident (p / pgsize)
  simp only [safe, isUserVaddr, Bool.and_eq_true, decide_eq_true_eq, bne_iff_ne]
  change _ ∧ m.resident (p / pgsize) = true ∧ _ ↔ _
  rw [hres, and_comm (a := _ ∨ _)]
  rfl

theorem Tracks.safe (h : Tracks m s ws) (hp : Belongs s p) (hhit : Hit s ws p) :
    safe s.guard m p = true :=
  h.safe_iff.mpr ⟨hp.1, hp.ne_zero, hhit⟩

theorem Tracks.hit (h : Tracks m s ws) (hsafe : Syscall.safe s.guard m p = true) : Hit s ws p :=
  (h.safe_iff.mp hsafe).2.2

theorem ArgsBelong.word (h : ArgsBelong s esp) (hp : .word p ∈ callSteps s.bytes esp) :
    ∀ i, i < 4 → Belongs s (p + i) := by
  rcases mem_callSteps hp with rfl | ⟨nr, hnr, j, hj, rfl⟩
  · exact h.1
  · intro i hi
    rw [Nat.add_assoc (esp + 4)]
    exact (h.2 nr hnr).1 _ (by omega)

/-- The view of the memory that knows which words have been read. -/
def tracked (s : Space) : View s.guard s.bytes := ⟨(Tracks · s ·), (·.bytes), fun p h => h.touch p⟩

theorem passes_iff : Passes s esp ↔ Passed (Hit s) (callSteps s.bytes esp) [] := by
  refine and_congr_right fun _ => ?_
  cases ofNum (wordAt s.bytes esp) with
  | none => exact iff_of_true nofun trivial
  | some nr =>
    simp only [some.injEq, forall_eq', map_some, getD_some]
    cases nr <;> simp [PassesNr, argSteps, Passed]

/-! ## checks that fail -/

/-- Nothing but an end with `EXIT_FAIL`. -/
def onlyFail : Permit Stop := ⟨(· = .exit exitFail), True, False, fun _ => True⟩

theorem reads_onlyFail (hp : p < physBase) : onlyFail.Reads s.guard p := ⟨.inl hp, .inr trivial⟩

theorem checks_onlyFail (m : Mem UInt8) (p : Nat) : Checks onlyFail s.guard m p :=
  ⟨trivial, .inr ⟨trivial, rfl⟩⟩

theorem ready_onlyFail (hk : k.Ok) : Ready onlyFail s.guard k :=
  ⟨hk, hk.mapped fun _ ha => reads_onlyFail ha⟩

theorem visible_of_onlyFail (h : Ends s.guard onlyFail q m fun _ _ => False) :
    (MemProg.exec s.guard q m).visible = .stopped (.exit exitFail) := by
  rcases h.exec with ⟨r, m', -, hf⟩ | ⟨x, m', heq, hx⟩ | ⟨a, -, hf⟩
  · exact hf.elim
  · rw [heq]
    rcases hx with hx | ⟨-, hx⟩
    · exact congrArg Visible.stopped hx
    · exact congrArg Visible.stopped hx
  · exact hf.elim

/-- **A check that fails ends the process.** -/
theorem run_of_not_passes (hk : k.Ok) (hb : ArgsBelong s esp) (hp : ¬ Passes s esp) :
    run k s esp = .stopped (.exit exitFail) :=
  visible_of_onlyFail (ends_syscallHandler (V := tracked s) (ready_onlyFail hk) (tracks_mem s)
    (fun _ _ => trivial) (.intro (C := fun _ _ => True) (S := Hit s)
      (fun _ _ => checks_onlyFail ..) (fun hm hs => hm.hit hs)
      (fun _ hp i hi => reads_onlyFail (hb.word hp i hi).1) (.of_forall fun _ _ => trivial)
      fun h => absurd (passes_iff.mpr h) hp))

/-! ## calls that are served -/

/-- What `X` has to permit of a call whose checks pass. -/
structure Permits (X : Permit Stop) (k : Kernel) (s : Space) (esp : Nat) : Prop where
  reads : ∀ a, Belongs s a → X.Reads s.guard a
  hit : X.probe true
  stop : ∀ x, x ≠ .exit exitFail → X.stop x
  fail : X.stop (.exit exitFail) ∨
    (¬ AlwaysFails s.bytes esp ∧ ∀ f ∈ k.files, f.own = true)
  exec : ofNum (wordAt s.bytes esp) = some .exec → ∀ b, X.probe b
  mmap : ofNum (wordAt s.bytes esp) = some .mmap → ∃ r,
    mmap k (toInt32 (wordAt s.bytes (esp + 4))) (wordAt s.bytes (esp + 8)) = pure r
  read : ofNum (wordAt s.bytes esp) = some .read →
    3 ≤ toInt32 (wordAt s.bytes (esp + 4)) → toInt32 (wordAt s.bytes (esp + 4)) ≤ fileLimit →
    ∀ f, findFile k (toInt32 (wordAt s.bytes (esp + 4))) = some f → f.own = true →
      ∀ i, i < (readData k f (wordAt s.bytes (esp + 12))).length →
        X.Writes s.guard (wordAt s.bytes (esp + 8) + i)

theorem Permits.stop_of (h : Permits X k s esp)
    (hnr : ofNum (wordAt s.bytes esp) = some nr) {x : Stop}
    (hx : x = .exit exitFail → Fails s.bytes esp nr ∨ ∃ f ∈ k.files, f.own = false) : X.stop x := by
  by_cases heq : x = .exit exitFail
  · rcases h.fail with hfail | ⟨hnever, hown⟩
    · rwa [heq]
    · rcases hx heq with hfails | ⟨f, hf, hfalse⟩
      · exact absurd ⟨nr, hnr, hfails⟩ hnever
      · rw [hown f hf] at hfalse
        contradiction
  · exact h.stop x heq

theorem Permits.string (h : Permits X k s esp) {p : Nat} (hm : m.bytes = s.bytes)
    (hbelong : ∀ i, (∀ j, j < i → s.bytes (p + j) ≠ 0) → Belongs s (p + i)) :
    Scanned m.bytes 0 (X.Reads s.guard) p n := by
  intro i _ hbefore
  rw [hm] at hbefore
  exact h.reads _ (hbelong i hbefore)

theorem Permits.checks (h : Permits X k s esp) (htrack : Tracks m s ws) (hp : Belongs s p)
    (hhit : Hit s ws p) : Checks X s.guard m p :=
  ⟨h.hit, .inl (htrack.safe hp hhit)⟩

theorem Passes.belongs (hp : Passes s esp) (hb : ArgsBelong s esp) :
    Passed (fun ws p => Belongs s p ∧ Hit s ws p) (callSteps s.bytes esp) [] := by
  refine ⟨⟨hb.1 0 (by decide), hp.1⟩, ?_⟩
  cases hnr : ofNum (wordAt s.bytes esp) with
  | none => trivial
  | some nr =>
    have hhit := hp.2 nr hnr
    obtain ⟨hwords, hpointers⟩ := hb.2 nr hnr
    cases nr with
    | halt | exec => trivial
    | create | seek | mmap =>
      exact ⟨⟨hwords 0 (by decide), hhit.1⟩, ⟨hwords 4 (by decide), hhit.2⟩, trivial⟩
    | remove | «open» =>
      exact ⟨⟨hwords 0 (by decide), hhit.1⟩, ⟨hpointers 0 nofun, hhit.2⟩, trivial⟩
    | read | write =>
      exact ⟨⟨hwords 0 (by decide), hhit.1⟩, ⟨hwords 4 (by decide), hhit.2.1⟩,
        ⟨hpointers.1, hhit.2.2.1⟩, ⟨hwords 8 (by decide), hhit.2.2.2⟩, trivial⟩
    | _ => exact ⟨⟨hwords 0 (by decide), hhit⟩, trivial⟩

/-- **A call whose checks pass runs into nothing but what its arguments bring about.** -/
theorem ends_of_passes (hk : k.Ok) (hmapped : Mapped k (Belongs s) k.files)
    (hb : ArgsBelong s esp) (hp : Passes s esp) (hX : Permits X k s esp) :
    Ends s.guard X (syscallHandler k esp) s.mem fun _ _ => True := by
  have hready : Ready X s.guard k := ⟨hk, fun f hf hm i hi => hX.reads _ (hmapped f hf hm i hi)⟩
  refine ends_syscallHandler (V := tracked s) hready (tracks_mem s) (fun b hnr => hX.exec hnr b)
    (.intro (S := fun _ _ => True) (fun h hm => hX.checks hm h.1 h.2) (fun _ _ => trivial)
      (fun p hp i hi => hX.reads _ (hb.word hp i hi)) (hp.belongs hb) fun _ m hm => ?_)
  unfold served
  split
  next nr hnr =>
    have hpointers := (hb.2 nr hnr).2
    cases nr with
    | halt => exact ends_stop (hX.stop _ nofun)
    | exit => exact ends_exit hready (hX.stop_of hnr fun heq => .inl (Stop.exit.inj heq))
    | wait | filesize | tell => exact ends_pure trivial
    | close => exact ends_bind (ends_close hready fun _ _ _ _ => ends_pure trivial)
    | munmap => exact ends_bind (ends_munmap hready fun _ _ _ _ => ends_pure trivial)
    | exec =>
      exact ends_bind (ends_exec (fun _ => hX.exec hnr _) (fun _ => hX.string hm hpointers)
        (fun _ _ _ => hX.stop _ nofun) fun _ _ _ => ends_pure trivial)
    | create =>
      exact ends_bind (ends_create hready (.inl (guard_null s)) (hX.string hm hpointers)
        (fun _ _ _ _ => .inr (hX.stop _ nofun))
        (fun _ hzero => hX.stop_of hnr fun _ => .inl (hm ▸ hzero))
        fun _ _ _ _ => ends_pure trivial)
    | seek =>
      exact ends_bind (ends_seek hk (fun _ _ _ => .inr (hX.stop _ nofun)) fun _ _ =>
        ends_pure trivial)
    | mmap =>
      obtain ⟨r, hr⟩ := hX.mmap hnr
      simp only [serve, hr]
      exact ends_bind (ends_pure (ends_pure trivial))
    | remove =>
      exact ends_bind (ends_filesysRemove hk (.inr (hX.stop _ nofun)) (hX.string hm hpointers)
        fun _ _ _ _ => ends_pure trivial)
    | «open» =>
      exact ends_bind (ends_openFile hk (.inr (hX.stop _ nofun)) (fun _ => hX.string hm hpointers)
        fun _ _ _ _ _ => ends_pure trivial)
    | read =>
      refine ends_bind (ends_read hready ?_ (fun hend => hX.stop_of hnr fun _ => or_assoc.mpr hend)
        fun _ _ _ _ _ _ => ends_pure trivial)
      exact fun f hf hge hle hfown => hX.read hnr hge hle f hf hfown
    | write =>
      have hsize := toInt32_toNat_le (wordAt s.bytes (esp + 12))
      exact ends_bind (ends_write hready
        (fun _ _ i hi => hX.reads _ (hpointers.2 i (Nat.lt_of_lt_of_le hi hsize)))
        (fun _ i hi => hX.reads _ (hpointers.2 i hi))
        (fun hend => hX.stop_of hnr fun _ => or_assoc.mpr hend)
        fun _ _ _ _ _ _ => ends_pure trivial)
  next => exact ends_pure trivial

/-! ## calls that end the process -/

/-- The call ends the process with `EXIT_FAIL` once its checks pass. -/
def Doomed (k : Kernel) (s : Space) (esp : Nat) (nr : SyscallNr) : Prop :=
  Fails s.bytes esp nr ∨
    (nr = .mmap ∧ ∃ k', k'.Ok ∧
      mmap k (toInt32 (wordAt s.bytes (esp + 4))) (wordAt s.bytes (esp + 8)) = exit k' exitFail) ∨
    (nr = .read ∧ ∃ f, findFile k (toInt32 (wordAt s.bytes (esp + 4))) = some f ∧
      ¬ ∀ i, i < (readData k f (wordAt s.bytes (esp + 12))).length →
        s.guard.writable (wordAt s.bytes (esp + 8) + i) = true)

theorem ends_create_empty (hk : k.Ok) (hp : p < physBase) (hzero : m.bytes p = 0) :
    Ends s.guard onlyFail (create k p size) m fun _ _ => False := by
  have hX : Scanned m.bytes 0 (onlyFail.Reads s.guard) p 15 := by
    intro i _ hbefore
    cases i with
    | zero => exact reads_onlyFail hp
    | succ i => exact absurd hzero (hbefore 0 (Nat.succ_pos i))
  have hlen : scanLen m.bytes 0 p 15 = 0 := by rw [scanLen, if_pos hzero]
  refine ends_bind (ends_scanTo hX fun m₁ hm₁ _ _ => ?_)
  rw [hlen, if_neg (by decide)]
  refine ends_bind (ends_load (reads_onlyFail hp) fun _ _ => ?_)
  rw [hm₁, if_neg (not_not.mpr hzero)]
  exact ends_exit (ready_onlyFail hk) rfl

/-- **A doomed call ends the process, whether its checks pass or not.** -/
theorem run_of_doomed (hk : k.Ok) (hb : ArgsBelong s esp)
    (hnr : ofNum (wordAt s.bytes esp) = some nr) (hd : Doomed k s esp nr) :
    run k s esp = .stopped (.exit exitFail) := by
  have hready := ready_onlyFail (s := s) hk
  refine visible_of_onlyFail (ends_syscallHandler (V := .plain s.guard s.bytes) hready rfl
    (fun _ _ => trivial) (.intro (C := fun _ _ => True) (S := fun _ _ => True)
      (fun _ _ => checks_onlyFail ..) (fun _ _ => trivial)
      (fun p hp i hi => reads_onlyFail (hb.word hp i hi).1) (.of_forall fun _ _ => trivial)
      fun _ m hm => ?_))
  simp only [served, hnr]
  have hpointers := (hb.2 nr hnr).2
  rcases hd with hfails | ⟨rfl, k', hk', hmmap⟩ | ⟨rfl, f, hfind, hbuffer⟩
  · cases nr with
    | exit => exact ends_exit hready (congrArg Stop.exit hfails)
    | create =>
      exact ends_bind ((ends_create_empty hk (hpointers 0 fun _ h => by omega).1 (hm ▸ hfails)).mono
        fun _ _ h => h.elim)
    | read =>
      have hfails : _ ∨ _ := hfails
      exact ends_bind (ends_read hready (fun f _ hge hle _ => by omega) (fun _ => rfl)
        fun _ _ hge hle _ _ => by omega)
    | write =>
      have hfails : _ ∨ _ := hfails
      exact ends_bind (ends_write hready (fun hge hle => by omega)
        (fun hone => by unfold fileLimit at hfails; omega) (fun _ => rfl)
        fun _ _ _ hge hle _ => by omega)
    | _ => exact absurd hfails id
  · simp only [serve, hmmap]
    exact ends_bind (ends_exit (ready_onlyFail hk') rfl)
  · refine ends_bind (ends_read hready (fun f' _ _ _ _ i hi => ?_) (fun _ => rfl)
      fun _ _ _ _ hwritable _ => absurd (hwritable f hfind) hbuffer)
    have hlen := length_readData_le k f' (wordAt s.bytes (esp + 12))
    have hsize := toInt32_toNat_le (wordAt s.bytes (esp + 12))
    exact ⟨.inl (hpointers.2 i (by omega)).1, .inr trivial⟩

/-! ## exec -/

theorem exec_safeAccess (G : Guard Stop) (m : Mem UInt8) (p : Nat) :
    MemProg.exec G (safeAccess p) m = .done (safe G m p) m := by
  unfold safeAccess safe
  split
  · next hp =>
    rw [hp, Bool.true_and]
    rfl
  · next hp =>
    rw [Bool.eq_false_iff.mpr hp, Bool.false_and]
    rfl

theorem exec_exitIfUnsafe {G : Guard Stop} (hsafe : safe G m p = true) :
    MemProg.exec G (exitIfUnsafe k p) m = .done () m := by
  unfold exitIfUnsafe
  rw [exec_bind_of_done (exec_safeAccess G m p), if_pos hsafe]
  rfl

theorem exec_word (hp : ∀ i, i < 4 → Belongs s (p + i)) :
    MemProg.exec s.guard (word p) m =
      .done (wordAt m.bytes p) (m.touchRange s.guard.page p 4) := by
  have hends : Ends s.guard .total (word p) m fun w m' =>
      w = wordAt m.bytes p ∧ m' = m.touchRange s.guard.page p 4 :=
    ends_word (fun i hi => ⟨.inl (hp i hi).1, .inl (hp i hi).2⟩) fun _ => ⟨rfl, rfl⟩
  obtain ⟨w, m', heq, rfl, rfl⟩ := hends.exec_done
  exact heq

/-- What is left of `exec` when its argument has been read. -/
def execRest (k : Kernel) (cmdLine : Nat) : Sys SysRet := do
  let pid ← exec k cmdLine
  pure (retVal k pid)

/-- The answer of the first check is not used. -/
theorem run_exec (hb : ArgsBelong s esp) (hp : Passes s esp)
    (hnr : ofNum (wordAt s.bytes esp) = some .exec) :
    ∃ m, Tracks m s [esp + 4, esp] ∧
      run k s esp = (MemProg.exec s.guard (execRest k (wordAt s.bytes (esp + 4))) m).visible := by
  have hsafe : safe s.guard s.mem esp = true := (tracks_mem s).safe (hb.1 0 (by decide)) hp.1
  have htrack := (tracks_mem s).touch esp
  refine ⟨_, htrack.touch (esp + 4), congrArg Outcome.visible ?_⟩
  unfold syscallHandler
  rw [exec_bind_of_done (exec_exitIfUnsafe hsafe), exec_bind_of_done (exec_word hb.1)]
  rw [show wordAt s.mem.bytes esp = wordAt s.bytes esp from rfl, hnr]
  simp only [dispatch]
  have hword : ∀ i, i < 4 → Belongs s (esp + 4 + i) := (hb.2 _ hnr).1
  rw [exec_bind_of_done (exec_safeAccess ..), exec_bind_of_done (exec_word hword), htrack.bytes]
  rfl

theorem execRest_of_hit (hb : ArgsBelong s esp)
    (hnr : ofNum (wordAt s.bytes esp) = some .exec) (htrack : Tracks m s ws)
    (hhit : Hit s ws (wordAt s.bytes (esp + 4))) (hstop : ∀ x, x ≠ .exit exitFail → X.stop x)
    (hprobe : X.probe true) :
    Ends s.guard X (execRest k (wordAt s.bytes (esp + 4))) m fun r _ =>
      k.palloc = true → ∃ fnCopy commandName, r.eax = some (k.execute fnCopy commandName) := by
  have hpointers := (hb.2 _ hnr).2
  have hbelong : Belongs s (wordAt s.bytes (esp + 4)) := hpointers 0 nofun
  have hsafe := htrack.safe hbelong hhit
  refine ends_bind (ends_bind (ends_safeAccess (fun _ => ?_) ?_))
  · rwa [resident_of_safe hsafe]
  · rw [if_pos hsafe]
    refine ends_processExecute hbelong.ne_zero ?_ (fun _ _ => hstop _ nofun) ?_
    · intro i _ hbefore
      rw [htrack.bytes] at hbefore
      have hchar := hpointers i hbefore
      exact ⟨.inl hchar.1, .inl hchar.2⟩
    · intro v m' _ hv
      refine ends_pure fun hpalloc => ?_
      obtain ⟨fnCopy, commandName, rfl⟩ := hv hpalloc
      exact ⟨fnCopy, commandName, rfl⟩

theorem execRest_of_not_hit (htrack : Tracks m s ws) (hmiss : ¬ Hit s ws p) :
    (MemProg.exec s.guard (execRest k p) m).visible = .done (retVal k exitFail) s.bytes := by
  have hsafe : ¬ safe s.guard m p = true := fun hsafe => hmiss (htrack.hit hsafe)
  have hcall : MemProg.exec s.guard (exec k p) m = .done exitFail m := by
    unfold exec
    rw [exec_bind_of_done (exec_safeAccess ..), if_neg hsafe]
    rfl
  unfold execRest
  rw [exec_bind_of_done hcall, ← htrack.bytes]
  rfl

/-- An `exec` whose checks give the same answers ends alike. -/
theorem run_exec_eq (hs : Sibling s s') (hb : ArgsBelong s esp) (hp : Passes s esp)
    (hp' : Passes s' esp) (hnr : ofNum (wordAt s.bytes esp) = some .exec)
    (hline : Hit s [esp + 4, esp] (wordAt s.bytes (esp + 4)) ↔
      Hit s' [esp + 4, esp] (wordAt s.bytes (esp + 4))) :
    run k s esp = run k s' esp := by
  have hb' := hb.of_sibling hs
  have hnr' : ofNum (wordAt s'.bytes esp) = some .exec := by
    rwa [hs.bytes]
  obtain ⟨m, htrack, hrun⟩ := run_exec hb hp hnr
  obtain ⟨m', htrack', hrun'⟩ := run_exec hb' hp' hnr'
  rw [hrun, hrun', hs.bytes]
  by_cases hhit : Hit s [esp + 4, esp] (wordAt s.bytes (esp + 4))
  · have hhit' := hline.mp hhit
    rw [← hs.bytes] at hhit'
    have hends' := execRest_of_hit (X := .clear) (k := k) hb' hnr' htrack' hhit'
      (fun _ _ => trivial) rfl
    rw [hs.bytes] at hends'
    exact visible_eq_of_clear
      (execRest_of_hit hb hnr htrack hhit (fun _ _ => trivial) rfl) hends'
      (htrack.bytes.trans (htrack'.bytes.trans hs.bytes).symm)
  · rw [execRest_of_not_hit htrack hhit, execRest_of_not_hit htrack' (hhit ∘ hline.mpr), hs.bytes]

/-! ## runs that differ -/

/-- No end with `EXIT_FAIL`. -/
def notFail : Permit Stop := ⟨(· ≠ .exit exitFail), False, False, fun _ => True⟩

theorem visible_ne_of_notFail {Q : α → Mem UInt8 → Prop} (h : Ends s.guard notFail q m Q) :
    (MemProg.exec s.guard q m).visible ≠ .stopped (.exit exitFail) := by
  rcases h.exec with ⟨r, m', heq, -⟩ | ⟨x, m', heq, hx⟩ | ⟨a, -, hf⟩
  · rw [heq]
    nofun
  · rw [heq]
    rcases hx with hx | ⟨hf, -⟩
    · exact fun h => hx (Visible.stopped.inj h)
    · exact hf.elim
  · exact hf.elim

theorem permits_notFail (hk : k.Ok) (hmalloc : k.spageMalloc = true)
    (hown : ∀ f ∈ k.files, f.own = true) (hnever : ¬ AlwaysFails s.bytes esp)
    (hread : ofNum (wordAt s.bytes esp) = some .read →
      ∀ f, findFile k (toInt32 (wordAt s.bytes (esp + 4))) = some f →
        ∀ i, i < (readData k f (wordAt s.bytes (esp + 12))).length →
          notFail.Writes s.guard (wordAt s.bytes (esp + 8) + i)) :
    Permits notFail k s esp where
  reads _ ha := ⟨.inl ha.1, .inl ha.2⟩
  hit := trivial
  stop _ hx := hx
  fail := .inr ⟨hnever, hown⟩
  exec _ _ := trivial
  mmap _ := by
    obtain ⟨r, -, hr⟩ := (mmap_cases hk _ _).resolve_right fun h => by
      rw [hmalloc] at h
      exact absurd h.1 nofun
    exact ⟨r, hr⟩
  read hnr _ _ f hf _ := hread hnr f hf

theorem mapped_idle (P : Nat → Prop) : Mapped idle P idle.files :=
  fun _ hf => absurd hf not_mem_nil

theorem mapped_oneFile {fd : Nat} (P : Nat → Prop) :
    Mapped (oneFile fd n) P (oneFile fd n).files := by
  intro f hf hm
  obtain rfl := mem_singleton.mp hf
  contradiction

theorem passes_of_run_eq (hs : Sibling s s') (hb : ArgsBelong s esp)
    (hnever : ¬ AlwaysFails s.bytes esp) (hrun : run idle s esp = run idle s' esp)
    (hp : Passes s esp) : Passes s' esp := by
  by_contra hnot
  rw [run_of_not_passes idle_ok (hb.of_sibling hs) hnot] at hrun
  refine visible_ne_of_notFail (ends_of_passes idle_ok (mapped_idle _) hb hp ?_) hrun
  exact permits_notFail idle_ok rfl (fun _ hf => absurd hf not_mem_nil) hnever nofun

theorem cmdLine_of_run_eq (hs : Sibling s s') (hb : ArgsBelong s esp)
    (hrun : run idle s esp = run idle s' esp) (hp : Passes s esp) (hp' : Passes s' esp)
    (hnr : ofNum (wordAt s.bytes esp) = some .exec)
    (hhit : Hit s [esp + 4, esp] (wordAt s.bytes (esp + 4))) :
    Hit s' [esp + 4, esp] (wordAt s.bytes (esp + 4)) := by
  by_contra hmiss
  have hnr' : ofNum (wordAt s'.bytes esp) = some .exec := by
    rwa [hs.bytes]
  obtain ⟨m, htrack, heq⟩ := run_exec hb hp hnr
  obtain ⟨m', htrack', heq'⟩ := run_exec (hb.of_sibling hs) hp' hnr'
  rw [hs.bytes] at heq'
  rw [heq, heq', execRest_of_not_hit htrack' hmiss] at hrun
  -- a kernel whose processes start answers with 0, or panics
  rcases (execRest_of_hit (X := notFail) (k := idle) hb hnr htrack hhit (fun _ hx => hx)
    trivial).exec with ⟨r, m₁, hdone, hr⟩ | ⟨x, m₁, hstop, -⟩ | ⟨a, -, hf⟩
  · rw [hdone] at hrun
    obtain ⟨fnCopy, commandName, heax⟩ := hr rfl
    obtain ⟨rfl, -⟩ := Visible.done.inj hrun
    exact absurd (some.inj heax) (by decide : exitFail ≠ 0)
  · rw [hstop] at hrun
    contradiction
  · exact hf

theorem buffer_of_run_eq (fd n : Nat) (hs : Sibling s s') (hb : ArgsBelong s esp)
    (hnever : ¬ AlwaysFails s.bytes esp) (hnr : ofNum (wordAt s.bytes esp) = some .read)
    (hfd : toInt32 (wordAt s.bytes (esp + 4)) = fd) (hge : 3 ≤ fd) (hle : fd ≤ 129)
    (hn : n ≤ (toInt32 (wordAt s.bytes (esp + 12))).toNat) (hp : Passes s esp)
    (hrun : run (oneFile fd n) s esp = run (oneFile fd n) s' esp)
    (hwritable : ∀ i, i < n → s.guard.writable (wordAt s.bytes (esp + 8) + i) = true) :
    ∀ i, i < n → s'.guard.writable (wordAt s.bytes (esp + 8) + i) = true := by
  by_contra hnot
  have hok : (oneFile fd n).Ok := oneFile_ok hge hle
  have hfind : ∃ f, findFile (oneFile fd n) (toInt32 (wordAt s.bytes (esp + 4))) = some f ∧
      f.own = true ∧ (readData (oneFile fd n) f (wordAt s.bytes (esp + 12))).length = n := by
    refine ⟨_, find?_cons_of_pos (decide_eq_true hfd.symm), rfl, ?_⟩
    simp only [readData, ioCount, oneFile, length_take, length_drop,
      length_replicate]
    omega
  obtain ⟨f, hf, hown, hlen⟩ := hfind
  have hdoomed : Doomed (oneFile fd n) s' esp .read := by
    refine .inr (.inr ⟨rfl, f, ?_⟩)
    rw [hs.bytes, hlen]
    exact ⟨hf, hnot⟩
  have hnr' : ofNum (wordAt s'.bytes esp) = some .read := by
    rwa [hs.bytes]
  rw [run_of_doomed hok (hb.of_sibling hs) hnr' hdoomed] at hrun
  refine visible_ne_of_notFail (ends_of_passes hok (mapped_oneFile _) hb hp ?_) hrun
  refine permits_notFail hok rfl ?_ hnever fun _ f' hf' i hi => ?_
  · intro f' hf'
    obtain rfl := mem_singleton.mp hf'
    rfl
  · cases hf.symm.trans hf'
    rw [hlen] at hi
    refine ⟨.inl ?_, .inl (hwritable i hi)⟩
    have hsize := toInt32_toNat_le (wordAt s.bytes (esp + 12))
    exact ((hb.2 _ hnr).2.2 i (by omega)).1

/-! ## the main result -/

theorem permits_clear (hk : k.Ok) (hb : ArgsBelong s esp)
    (hexec : ofNum (wordAt s.bytes esp) ≠ some .exec)
    (hd : ∀ nr, ofNum (wordAt s.bytes esp) = some nr → ¬ Doomed k s esp nr) :
    Permits .clear k s esp where
  reads _ ha := ⟨.inl ha.1, .inl ha.2⟩
  hit := rfl
  stop _ _ := trivial
  fail := .inl trivial
  exec hnr := absurd hnr hexec
  mmap hnr := ((mmap_cases hk _ _).resolve_right fun h =>
    hd _ hnr (.inr (.inl ⟨rfl, h.2⟩))).imp fun _ h => h.2
  read hnr _ _ f hf _ i hi := by
    have hlen := length_readData_le k f (wordAt s.bytes (esp + 12))
    have hsize := toInt32_toNat_le (wordAt s.bytes (esp + 12))
    refine ⟨.inl ((hb.2 _ hnr).2.2 i (by omega)).1, .inl ?_⟩
    by_contra hnot
    exact hd _ hnr (.inr (.inr ⟨rfl, f, hf, fun hall => hnot (hall i hi)⟩))

theorem doomed_iff (hk : k.Ok) (hs : Sibling s s') (hsame : SameChecks s s' esp)
    (hp : Passes s esp) (hnr : ofNum (wordAt s.bytes esp) = some nr) :
    Doomed k s esp nr ↔ Doomed k s' esp nr := by
  unfold Doomed
  rw [hs.bytes]
  by_cases hfails : Fails s.bytes esp nr
  · exact ⟨fun _ => .inl hfails, fun _ => .inl hfails⟩
  · refine or_congr_right (or_congr_right (and_congr_right fun hread => exists_congr fun f =>
      and_congr_right fun hf => not_congr ?_))
    subst hread
    obtain ⟨hmem, hfd⟩ := mem_of_findFile hf
    have hge := (hk.files f hmem).fd_ge
    have hle : ¬ (_ ∨ _) := hfails
    exact hsame.buffer hp hnr (by omega) (by omega) _ (length_readData_le ..)

/-- A call whose checks give the same answers ends alike. -/
theorem run_eq_of_sameChecks (hk : k.Ok) (hmapped : Mapped k (Belongs s) k.files)
    (hs : Sibling s s') (hb : ArgsBelong s esp) (hsame : SameChecks s s' esp) :
    run k s esp = run k s' esp := by
  have hb' := hb.of_sibling hs
  by_cases hp : Passes s esp
  · have hp' := hsame.passes.mp hp
    by_cases hd : ∃ nr, ofNum (wordAt s.bytes esp) = some nr ∧ Doomed k s esp nr
    · obtain ⟨nr, hnr, hd⟩ := hd
      have hd' := (doomed_iff hk hs hsame hp hnr).mp hd
      rw [run_of_doomed hk hb hnr hd, run_of_doomed hk hb' (hs.bytes ▸ hnr) hd']
    · have hd : ∀ nr, ofNum (wordAt s.bytes esp) = some nr → ¬ Doomed k s esp nr :=
        fun nr hnr hdoomed => hd ⟨nr, hnr, hdoomed⟩
      have hd' : ∀ nr, ofNum (wordAt s'.bytes esp) = some nr → ¬ Doomed k s' esp nr := by
        intro nr hnr
        rw [hs.bytes] at hnr
        exact (not_congr (doomed_iff hk hs hsame hp hnr)).mp (hd nr hnr)
      by_cases hexec : ofNum (wordAt s.bytes esp) = some .exec
      · exact run_exec_eq hs hb hp hp' hexec (hsame.cmdLine hp hexec)
      · have hmapped' : Mapped k (Belongs s') k.files :=
          fun f hf hm i hi => (hmapped f hf hm i hi).of_sibling hs
        have hexec' : ofNum (wordAt s'.bytes esp) ≠ some .exec := by
          rwa [hs.bytes]
        exact visible_eq_of_clear (ends_of_passes hk hmapped hb hp (permits_clear hk hb hexec hd))
          (ends_of_passes hk hmapped' hb' hp' (permits_clear hk hb' hexec' hd')) hs.bytes.symm
  · rw [run_of_not_passes hk hb hp, run_of_not_passes hk hb' (hp ∘ hsame.passes.mpr)]

/-- The kernels that the other direction looks at see the checks. -/
theorem sameChecks_of_run_eq (hs : Sibling s s') (hb : ArgsBelong s esp)
    (hnever : ¬ AlwaysFails s.bytes esp)
    (hrun : ∀ k : Kernel, k.Ok → Mapped k (Belongs s) k.files → run k s esp = run k s' esp) :
    SameChecks s s' esp := by
  have hb' := hb.of_sibling hs
  have hnever' : ¬ AlwaysFails s'.bytes esp := by
    rwa [hs.bytes]
  have hidle := hrun idle idle_ok (mapped_idle _)
  have hpasses : Passes s esp ↔ Passes s' esp :=
    ⟨passes_of_run_eq hs hb hnever hidle, passes_of_run_eq hs.symm hb' hnever' hidle.symm⟩
  refine ⟨hpasses, fun hp hnr => ?_, fun hp hnr hge hle n hn => ?_⟩
  · have hp' := hpasses.mp hp
    refine ⟨cmdLine_of_run_eq hs hb hidle hp hp' hnr, ?_⟩
    have hback := cmdLine_of_run_eq hs.symm hb' hidle.symm hp' hp
    rw [hs.bytes] at hback
    exact hback hnr
  · obtain ⟨fd, hfd⟩ := Int.eq_ofNat_of_zero_le (Int.le_trans (by decide) hge)
    rw [hfd] at hge hle
    unfold fileLimit at hle
    have hfile := hrun (oneFile fd n) (oneFile_ok (by omega) (by omega)) (mapped_oneFile _)
    refine ⟨buffer_of_run_eq fd n hs hb hnever hnr hfd (by omega) (by omega) hn hp hfile, ?_⟩
    have hback := buffer_of_run_eq fd n hs.symm hb' hnever'
    rw [hs.bytes] at hback
    exact hback hnr hfd (by omega) (by omega) hn (hpasses.mp hp) hfile.symm

/-- The arguments of `write (1, 0x08050fff, 2)`. -/
def writeAcross : Nat → UInt8 := wordsFrom 0xbfffff00 [9, 1, 0x08050fff, 2]

end Pintos.Syscall
