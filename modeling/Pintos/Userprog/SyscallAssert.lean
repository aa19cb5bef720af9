import Pintos.Userprog.SyscallConfined

/-!
# Pintos.Userprog.SyscallAssert

Which arguments of `create`, `seek` and `exec` fail an `ASSERT` of the kernel.

An `unsigned` size or position of `2 ^ 31` or more becomes a negative `off_t`, and a
command line that begins with blanks has no first token.  No other `ASSERT` on the
way can fail: not those of the bitmap behind the free map, not `check_sector`, not
the null checks of the string functions.
-/

namespace Pintos.Syscall

open MemProg List

/-! ## the property -/

/-- The memory as the kernel sees it: nothing is at address 0. -/
structure WholeGuard (G : Guard Stop) : Prop where
  limit : G.limit = 2 ^ 32
  fault : G.fault = .exit exitFail
  null : G.readable 0 = false

/-- The run fails an `ASSERT`. -/
def Panics {α : Type} (G : Guard Stop) (m : Mem UInt8) (call : Sys α) : Prop :=
  ∃ a m', MemProg.exec G call m = .stopped (.panic a) m'

/-- The call fails no `ASSERT`, whatever the state of the kernel. -/
def NeverPanics {α : Type} (bytes : Nat → UInt8) (call : Kernel → Sys α) : Prop :=
  ∀ k : Kernel, k.Ok → ∀ G, WholeGuard G → ∀ m : Mem UInt8, m.bytes = bytes → ¬ Panics G m (call k)

/-- All memory but address 0 is there. -/
def wholeGuard : Guard Stop where
  limit := 2 ^ 32
  fault := .exit exitFail
  page p := p / pgsize
  readable p := p != 0
  writable _ := true

theorem wholeGuard_whole : WholeGuard wholeGuard := ⟨rfl, rfl, rfl⟩

/-- A kernel with one free sector on its disk. -/
def oneSector : Kernel :=
  { idle with
    dirOpens := true
    inodeWritten := true
    freeMap := bitmapCreate 1 }

/-- A kernel with one open file, of `n` bytes. -/
def oneFile (fd n : Nat) : Kernel :=
  { idle with
    ioLimit := n
    contents := fun _ => List.replicate n 0
    freeMap := ⟨1, fun _ => true⟩
    files := [
      { fd := fd, inode := 0, pos := 0, denyWrite := true, own := true, reopened := false,
        dirty := false, mmaped := false, addr := 0, mapped := false }] }

theorem oneSector_ok : oneSector.Ok :=
  { idle_ok with
    files := fun _ hf => absurd hf not_mem_nil
    names := fun _ he => absurd he not_mem_nil
    freeMap := by decide }

theorem oneFile_ok {fd n : Nat} (hge : 3 ≤ fd) (hle : fd ≤ 129) : (oneFile fd n).Ok := by
  have haddr : 0 ≠ physBase - pgsize := by decide
  have hsize : 1 < sizeTSize := by decide
  refine { idle_ok with
    files := fun f hf => ?_
    names := fun _ he => absurd he not_mem_nil
    freeMap := hsize }
  obtain rfl := mem_singleton.mp hf
  exact ⟨hge, hle, nofun, nofun, haddr, rfl⟩

/-! ## the conditions -/

/-- The name is missing, empty or too long, or the size is an `off_t`. -/
def CreateOk (bytes : Nat → UInt8) (file size : Nat) : Prop :=
  file = 0 ∨ 2 ^ 32 ≤ file + scanLen bytes 0 file 15 ∨ bytes file = 0 ∨
    14 < scanLen bytes 0 file 15 ∨ 0 ≤ toInt32 size

/-- No file has the descriptor, or the position is an `off_t`. -/
def SeekOk (fd : Int) (position : Nat) : Prop :=
  fd < 3 ∨ 129 < fd ∨ 0 ≤ toInt32 position

/-- The command line is not a user address, does not end, or has something else than a
blank among the 14 characters that are copied. -/
def ExecOk (bytes : Nat → UInt8) (cmdLine : Nat) : Prop :=
  cmdLine = 0 ∨ physBase ≤ cmdLine ∨ 2 ^ 32 ≤ cmdLine + scanLen bytes 0 cmdLine (2 ^ 32) ∨
    ∃ i, i < min (scanLen bytes 0 cmdLine (2 ^ 32)) (fileNameLenLimit - 1) ∧ bytes (cmdLine + i) ≠ 32

variable {α : Type} {k : Kernel} {G : Guard Stop} {m : Mem UInt8} {bytes : Nat → UInt8}
  {file size position cmdLine p n : Nat} {fd : Int} {call : Kernel → Sys α}

/-- Everything but a failed `ASSERT`. -/
def noPanic : Permit Stop := ⟨fun x => ∀ a, x ≠ .panic a, True, True, fun _ => True⟩

theorem reads_noPanic (a : Nat) : noPanic.Reads G a := ⟨.inr trivial, .inr trivial⟩

theorem scanned_noPanic (n : Nat) : Scanned bytes 0 (noPanic.Reads G) p n :=
  fun _ _ _ => reads_noPanic _

theorem ready_noPanic (hk : k.Ok) : Ready noPanic G k :=
  ⟨hk, fun _ _ _ _ _ => reads_noPanic _⟩

theorem neverPanics_of_ends
    (h : ∀ k : Kernel, k.Ok → ∀ G, WholeGuard G → ∀ m : Mem UInt8, m.bytes = bytes →
      Ends G noPanic (call k) m fun _ _ => True) : NeverPanics bytes call := by
  rintro k hk G hG m hm ⟨a, m', heq⟩
  rcases (h k hk G hG m hm).exec with ⟨r, m'', heq', -⟩ | ⟨x, m'', heq', hx⟩ | ⟨p, heq', -⟩
  · cases heq.symm.trans heq'
  · cases heq.symm.trans heq'
    rcases hx with hx | ⟨-, hx⟩
    · exact hx a rfl
    · rw [hG.fault] at hx
      contradiction
  · cases heq.symm.trans heq'

/-- Nothing but a failed `ASSERT`. -/
def onlyPanic : Permit Stop := ⟨fun x => ∃ a, x = .panic a, False, False, fun _ => True⟩

theorem not_neverPanics_of_ends (hk : k.Ok)
    (h : Ends wholeGuard onlyPanic (call k) (Mem.full bytes) fun _ _ => False) :
    ¬ NeverPanics bytes call := by
  intro hnever
  rcases h.exec with ⟨r, m', -, hf⟩ | ⟨x, m', heq, hx⟩ | ⟨p, -, hf⟩
  · exact hf
  · obtain ⟨a, rfl⟩ := hx.resolve_right (·.1)
    exact hnever k hk wholeGuard wholeGuard_whole (Mem.full bytes) rfl ⟨a, m', heq⟩
  · exact hf

theorem reads_onlyPanic (hp : p ≠ 0) (hlt : p < 2 ^ 32) : onlyPanic.Reads wholeGuard p :=
  ⟨.inl hlt, .inl (bne_iff_ne.mpr hp)⟩

/-- A string that ends in memory can be read. -/
theorem scanned_onlyPanic (hp : p ≠ 0) (hlt : p + scanLen bytes 0 p n < 2 ^ 32)
    (hend : scanLen bytes 0 p n < n) : Scanned bytes 0 (onlyPanic.Reads wholeGuard) p n := by
  intro i _ hbefore
  have hi : i ≤ scanLen bytes 0 p n :=
    Nat.le_of_not_lt fun hi => hbefore _ hi (eq_of_scanLen_lt hend)
  exact reads_onlyPanic (by omega) (by omega)

/-! ## create -/

theorem neverPanics_create_iff :
    NeverPanics bytes (fun k => create k file size) ↔ CreateOk bytes file size := by
  constructor
  · intro h
    refine by_contra fun hnot => not_neverPanics_of_ends oneSector_ok ?_ h
    simp only [CreateOk, not_or, not_le, not_lt] at hnot
    obtain ⟨hfile, hlt, hne, hlen, hsize⟩ := hnot
    have hread : Scanned bytes 0 (onlyPanic.Reads wholeGuard) file 15 :=
      scanned_onlyPanic hfile hlt (by omega)
    refine ends_bind (ends_scanTo hread fun m₁ hm₁ _ _ => ?_)
    change m₁.bytes = bytes at hm₁
    change Ends _ _ (if 14 < scanLen bytes 0 file 15 then _ else _) m₁ _
    rw [if_neg (by omega)]
    refine ends_bind (ends_load hread.head fun _ _ => ?_)
    rw [hm₁, if_pos hne]
    obtain ⟨fm, halloc⟩ : ∃ fm, freeMapAllocate oneSector.freeMap 1 oneSector.inodeWritten =
        .ok (fm, some 0) := ⟨_, rfl⟩
    refine ends_bind (ends_assert halloc ?_)
    have herror : inodeCreate fm 0 (toInt32 size) oneSector.calloc oneSector.dataWritten =
        .error .length := by
      rw [inodeCreate, if_pos (by omega)]
      rfl
    refine ends_bind ?_
    rw [herror]
    exact ends_stop ⟨.length, rfl⟩
  · intro h
    refine neverPanics_of_ends fun k hk G hG m hm => ?_
    subst hm
    refine ends_create (ready_noPanic hk) (.inl hG.null) (scanned_noPanic _) ?_ (by simp [noPanic])
      fun _ _ _ _ => trivial
    intro hlt hr hlen hne
    rw [hG.limit] at hlt
    have hfile : file ≠ 0 := by
      rintro rfl
      rw [hG.null] at hr
      contradiction
    rcases h with h | h | h | h | h
    · contradiction
    · omega
    · contradiction
    · omega
    · exact .inl h

/-! ## seek -/

theorem neverPanics_seek_iff :
    NeverPanics bytes (fun k => seek k fd position) ↔ SeekOk fd position := by
  constructor
  · intro h
    refine by_contra fun hnot => ?_
    unfold SeekOk at hnot
    obtain ⟨n, rfl⟩ : ∃ n : Nat, fd = n := ⟨fd.toNat, by omega⟩
    have hok : (oneFile n 0).Ok := oneFile_ok (by omega) (by omega)
    refine not_neverPanics_of_ends hok ?_ h
    refine ends_bind (ends_bind ?_)
    rw [if_pos rfl, fileSeek, if_pos (by omega)]
    exact ends_stop ⟨.newPos, rfl⟩
  · intro h
    refine neverPanics_of_ends fun k hk G hG m hm => ?_
    refine ends_seek hk (fun f hf heq => .inl ?_) fun _ _ => trivial
    have := (hk.files f hf).fd_ge
    have := (hk.files f hf).fd_le
    unfold SeekOk at h
    omega

/-! ## exec -/

theorem strtok_eq_none_iff {s : List UInt8} : strtok s = none ↔ ∀ b ∈ s, b = 32 := by
  unfold strtok
  cases h : s.dropWhile (· = 32) with
  | nil =>
    simp only [dropWhile_eq_nil_iff, decide_eq_true_eq] at h
    exact ⟨fun _ => h, fun _ => rfl⟩
  | cons c cs =>
    refine ⟨nofun, fun hall => ?_⟩
    have hnil : s.dropWhile (· = 32) = [] := by
      simp only [dropWhile_eq_nil_iff, decide_eq_true_eq]
      exact hall
    cases hnil.symm.trans h

theorem mem_bytesAt {b : UInt8} : b ∈ bytesAt bytes p n ↔ ∃ i, i < n ∧ bytes (p + i) = b := by
  induction n generalizing p with
  | zero => simp [bytesAt]
  | succ n ih =>
    rw [bytesAt, mem_cons, ih]
    constructor
    · rintro (rfl | ⟨i, hi, hb⟩)
      · exact ⟨0, by omega, rfl⟩
      · exact ⟨i + 1, by omega, by rw [← hb, Nat.add_assoc, Nat.add_comm 1 i]⟩
    · rintro ⟨i, hi, hb⟩
      cases i with
      | zero => exact .inl hb.symm
      | succ i => exact .inr ⟨i, by omega, by rw [← hb, Nat.add_assoc, Nat.add_comm 1 i]⟩

theorem neverPanics_exec_iff :
    NeverPanics bytes (fun k => exec k cmdLine) ↔ ExecOk bytes cmdLine := by
  constructor
  · intro h
    refine by_contra fun hnot => not_neverPanics_of_ends idle_ok ?_ h
    simp only [ExecOk, not_or, not_le, not_exists, not_and, not_not] at hnot
    obtain ⟨hne, hlt, hend, hblank⟩ := hnot
    have hread : Scanned bytes 0 (onlyPanic.Reads wholeGuard) cmdLine (2 ^ 32) :=
      scanned_onlyPanic hne hend (by omega)
    refine ends_bind (ends_safeAccess (fun _ => trivial) ?_)
    rw [if_pos (safe_of_lt (fun _ => rfl) hlt hne)]
    refine ends_bind (ends_strlcpy hne hread fun m₁ hm₁ _ => ?_)
    change m₁.bytes = bytes at hm₁
    subst hm₁
    refine ends_bind (ends_strlcpy hne hread fun m₂ hm₂ _ => ?_)
    have hnone : strtok (bytesAt m₁.bytes cmdLine
        (min (scanLen m₁.bytes 0 cmdLine (2 ^ 32)) (fileNameLenLimit - 1))) = none := by
      rw [strtok_eq_none_iff]
      intro b hb
      obtain ⟨i, hi, rfl⟩ := mem_bytesAt.mp hb
      exact hblank i hi
    rw [hnone]
    exact ends_stop ⟨.src, rfl⟩
  · intro h
    refine neverPanics_of_ends fun k hk G hG m hm => ?_
    subst hm
    refine ends_exec (fun _ => trivial) (fun _ => scanned_noPanic _) ?_ fun _ _ _ => trivial
    intro hsafe hend hnone
    have hblank := strtok_eq_none_iff.mp hnone
    have hcmd := lt_of_safe hsafe
    rw [hG.limit] at hend
    rcases h with h | h | h | ⟨i, hi, hne⟩
    · exact absurd h hcmd.2
    · omega
    · omega
    · exact absurd (hblank _ (mem_bytesAt.mpr ⟨i, hi, rfl⟩)) hne

/-! ## the three calls -/

end Pintos.Syscall
