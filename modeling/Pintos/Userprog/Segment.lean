import Pintos.Threads.Vaddr

/-!
# Pintos.Userprog.Segment

The arithmetic of loading a segment: `validate_segment`, `load` and the assertions of
`load_segment` (`userprog/process.c`), and the counters of the loop in `page_fault`
(`userprog/exception.c`), all in 32 bits.
-/

namespace Pintos.Segment

/-- `x + y`. -/
def add32 (x y : Nat) : Nat := (x + y) % 2 ^ 32

/-- `x - y`. -/
def sub32 (x y : Nat) : Nat := (x + 2 ^ 32 - y) % 2 ^ 32

/-- `ROUND_UP (x, PGSIZE)`. -/
def roundUp32 (x : Nat) : Nat := sub32 (add32 x pgsize) 1 / pgsize * pgsize % 2 ^ 32

/-- `struct Elf32_Phdr`, as far as it is read here. -/
structure Phdr where
  pOffset : Nat
  pVaddr : Nat
  pFilesz : Nat
  pMemsz : Nat
  words : pOffset < 2 ^ 32 ∧ pVaddr < 2 ^ 32 ∧ pFilesz < 2 ^ 32 ∧ pMemsz < 2 ^ 32

/-- `validate_segment`, for a file of the given length. -/
def validateSegment (phdr : Phdr) (fileLength : Nat) : Bool :=
  if pgOfs phdr.pOffset ≠ pgOfs phdr.pVaddr then
    false
  else if phdr.pOffset > fileLength then
    false
  else if phdr.pMemsz < phdr.pFilesz then
    false
  else if phdr.pMemsz = 0 then
    false
  else if !isUserVaddr phdr.pVaddr then
    false
  else if !isUserVaddr (add32 phdr.pVaddr phdr.pMemsz) then
    false
  else if add32 phdr.pVaddr phdr.pMemsz < phdr.pVaddr then
    false
  else if phdr.pVaddr < pgsize then
    false
  else
    true

/-- What `load` passes to `load_segment`. -/
structure Args where
  filePage : Nat
  memPage : Nat
  readBytes : Nat
  zeroBytes : Nat

/-- The case `PT_LOAD` of `load`. -/
def loadArgs (phdr : Phdr) : Args :=
  let pageOffset := pgOfs phdr.pVaddr
  let readBytes := if phdr.pFilesz > 0 then add32 pageOffset phdr.pFilesz else 0
  let zeroBytes :=
    if phdr.pFilesz > 0 then sub32 (roundUp32 (add32 pageOffset phdr.pMemsz)) readBytes
    else roundUp32 (add32 pageOffset phdr.pMemsz)
  ⟨pgRoundDown phdr.pOffset, pgRoundDown phdr.pVaddr, readBytes, zeroBytes⟩

/-- The assertions of `load_segment`. -/
def Args.Asserts (args : Args) : Prop :=
  add32 args.readBytes args.zeroBytes % pgsize = 0 ∧ pgOfs args.memPage = 0 ∧
    args.filePage % pgsize = 0

/-- The counters `read_bytes` and `zero_bytes` of the loop in `page_fault`. -/
abbrev Counters := Nat × Nat

/-- `page_read_bytes`. -/
def pageReadBytes (c : Counters) : Nat := if c.1 < pgsize then c.1 else pgsize

/-- `page_zero_bytes`. -/
def pageZeroBytes (c : Counters) : Nat := sub32 pgsize (pageReadBytes c)

/-- The counters after a round of the loop. -/
def advance (c : Counters) : Counters := (sub32 c.1 (pageReadBytes c), sub32 c.2 (pageZeroBytes c))

/-- The loop of `page_fault`: the rounds it has gone through, and whether it has come to its end.
`loads i` when round `i` gets a frame, reads the page and installs it; if not, it calls `exit`. -/
def fillLoop (loads : Nat → Bool) : Nat → Nat → Counters → Option (Nat × Bool)
  | 0, _, _ => none
  | fuel + 1, i, c =>
    if c.1 > 0 ∨ c.2 > 0 then
      if loads i then fillLoop loads fuel (i + 1) (advance c) else some (i, false)
    else
      some (i, true)

/-- The sum of the counters is `k` pages. -/
def Pages (k : Nat) (c : Counters) : Prop := c.1 + c.2 = pgsize * k ∧ c.1 + c.2 < 2 ^ 32

/-- Neither subtraction of a round goes below zero. -/
def NoWrap (c : Counters) : Prop :=
  (c.1 > 0 ∨ c.2 > 0) ∧ pageReadBytes c ≤ c.1 ∧ pageZeroBytes c ≤ c.2

variable {c : Counters} {k i fuel : Nat}

theorem sub32_of_le {x y : Nat} (h : y ≤ x) (hx : x < 2 ^ 32) : sub32 x y = x - y := by
  unfold sub32
  omega

/-- **Step lemma**: a round takes one page off the counters. -/
theorem Pages.advance (h : Pages (k + 1) c) : NoWrap c ∧ Pages k (advance c) := by
  obtain ⟨hsum, hlt⟩ := h
  rw [Nat.mul_succ] at hsum
  have hpos : 0 < pgsize := by decide
  have hread : pageReadBytes c ≤ c.1 ∧ pageReadBytes c ≤ pgsize ∧
      (pageReadBytes c = c.1 ∨ pageReadBytes c = pgsize) := by
    unfold pageReadBytes
    split <;> omega
  have hzero : pageZeroBytes c = pgsize - pageReadBytes c := sub32_of_le hread.2.1 (by decide)
  have hle : pageZeroBytes c ≤ c.2 := by omega
  have hnext : Segment.advance c = (c.1 - pageReadBytes c, c.2 - pageZeroBytes c) :=
    Prod.ext (sub32_of_le hread.1 (by omega)) (sub32_of_le hle (by omega))
  refine ⟨⟨by omega, hread.1, hle⟩, ?_⟩
  rw [hnext]
  unfold Pages
  dsimp only
  omega

theorem Pages.iterate (h : Pages (k + i) c) : Pages k (Segment.advance^[i] c) := by
  induction i generalizing c with
  | zero => exact h
  | succ i ih =>
    rw [← Nat.add_assoc] at h
    rw [Function.iterate_succ_apply]
    exact ih (Pages.advance h).2

/-- **The loop** ends after as many rounds as there are pages, unless one of them fails. -/
theorem fillLoop_eq (loads : Nat → Bool) (h : Pages k c) (hfuel : k < fuel) :
    ((∀ j < k, loads (i + j) = true) → fillLoop loads fuel i c = some (i + k, true)) ∧
    ∀ n < k, (∀ j < n, loads (i + j) = true) → loads (i + n) = false →
      fillLoop loads fuel i c = some (i + n, false) := by
  induction k generalizing fuel i c with
  | zero =>
    obtain ⟨fuel, rfl⟩ := Nat.exists_eq_add_of_lt hfuel
    have hend : ¬ (c.1 > 0 ∨ c.2 > 0) := by
      unfold Pages at h
      omega
    refine ⟨fun _ => ?_, nofun⟩
    rw [fillLoop, if_neg hend]
    rfl
  | succ k ih =>
    obtain ⟨fuel, rfl⟩ := Nat.exists_eq_succ_of_ne_zero (Nat.ne_zero_of_lt hfuel)
    obtain ⟨hwrap, hnext⟩ := Pages.advance h
    obtain ⟨hall, hfail⟩ := ih (i := i + 1) hnext (Nat.lt_of_succ_lt_succ hfuel)
    have hshift : ∀ j, i + 1 + j = i + (j + 1) := fun j => by omega
    simp only [hshift] at hall hfail
    have hround : loads i = true →
        fillLoop loads (fuel + 1) i c = fillLoop loads fuel (i + 1) (Segment.advance c) := by
      intro hload
      rw [fillLoop, if_pos hwrap.1, if_pos hload]
    refine ⟨fun hloads => ?_, fun n hn hloads hlast => ?_⟩
    · rw [hround (hloads 0 (Nat.succ_pos k))]
      exact hall fun j hj => hloads (j + 1) (Nat.succ_lt_succ hj)
    · cases n with
      | zero =>
        rw [fillLoop, if_pos hwrap.1]
        exact if_neg (Bool.eq_false_iff.mp hlast)
      | succ n =>
        rw [hround (hloads 0 (Nat.succ_pos n))]
        exact hfail n (Nat.lt_of_succ_lt_succ hn)
          (fun j hj => hloads (j + 1) (Nat.succ_lt_succ hj)) hlast

theorem validateSegment_bounds {phdr : Phdr} {fileLength : Nat}
    (h : validateSegment phdr fileLength = true) :
    phdr.pFilesz ≤ phdr.pMemsz ∧ 0 < phdr.pMemsz ∧ pgsize ≤ phdr.pVaddr ∧
      phdr.pVaddr + phdr.pMemsz < physBase := by
  have hwords := phdr.words
  simp only [validateSegment, isUserVaddr, Bool.if_false_left, Bool.and_true, Bool.and_eq_true,
    Bool.not_eq_true', decide_eq_false_iff_not, Bool.not_eq_false, add32] at h
  obtain ⟨-, -, hle, hpos, huser, hend, hwrap, hlow⟩ := h
  have hend := of_decide_eq_true hend
  unfold physBase at *
  omega

/-- **Segment arithmetic.**  For a header that is accepted nothing wraps around in `load`, the
assertions of `load_segment` hold, the pages are those of user memory, and the loop of
`page_fault` takes one round for each of them. -/
theorem segment_safe {phdr : Phdr} {fileLength : Nat} (h : validateSegment phdr fileLength = true)
    {args : Args} (hargs : args = loadArgs phdr) :
    args.readBytes = (if phdr.pFilesz > 0 then pgOfs phdr.pVaddr + phdr.pFilesz else 0) ∧
    args.readBytes + args.zeroBytes =
      (pgOfs phdr.pVaddr + phdr.pMemsz + pgsize - 1) / pgsize * pgsize ∧
    args.readBytes + args.zeroBytes < 2 ^ 32 ∧ args.Asserts ∧ pgsize ≤ args.memPage ∧
    args.memPage + args.readBytes + args.zeroBytes ≤ physBase ∧
    ∀ n, n = (args.readBytes + args.zeroBytes) / pgsize →
      (∀ i < n, NoWrap (advance^[i] (args.readBytes, args.zeroBytes))) ∧
      ∀ loads fuel, n < fuel →
        ((∀ i < n, loads i = true) →
          fillLoop loads fuel 0 (args.readBytes, args.zeroBytes) = some (n, true)) ∧
        ∀ k < n, (∀ i < k, loads i = true) → loads k = false →
          fillLoop loads fuel 0 (args.readBytes, args.zeroBytes) = some (k, false) := by
  obtain ⟨hle, hpos, hlow, hhigh⟩ := validateSegment_bounds h
  have hround : roundUp32 (add32 (pgOfs phdr.pVaddr) phdr.pMemsz) =
      (pgOfs phdr.pVaddr + phdr.pMemsz + pgsize - 1) / pgsize * pgsize := by
    unfold roundUp32 add32 sub32 pgOfs pgsize physBase at *
    omega
  have hread : args.readBytes =
      if phdr.pFilesz > 0 then pgOfs phdr.pVaddr + phdr.pFilesz else 0 := by
    unfold pgsize physBase at *
    simp only [hargs, loadArgs, add32, pgOfs, pgsize]
    split <;> omega
  have hsum : args.readBytes + args.zeroBytes =
      (pgOfs phdr.pVaddr + phdr.pMemsz + pgsize - 1) / pgsize * pgsize := by
    have hzero : args.zeroBytes = if phdr.pFilesz > 0 then
        sub32 (roundUp32 (add32 (pgOfs phdr.pVaddr) phdr.pMemsz)) args.readBytes
        else roundUp32 (add32 (pgOfs phdr.pVaddr) phdr.pMemsz) := by
      rw [hargs, loadArgs]
    rw [hzero, hround, hread]
    unfold sub32 pgOfs pgsize physBase at *
    split <;> omega
  have hpages : args.memPage = phdr.pVaddr - phdr.pVaddr % pgsize ∧
      args.filePage = phdr.pOffset - phdr.pOffset % pgsize := by
    rw [hargs]
    exact ⟨rfl, rfl⟩
  have hlt : args.readBytes + args.zeroBytes < 2 ^ 32 := by
    unfold pgOfs pgsize physBase at *
    omega
  refine ⟨hread, hsum, hlt, ⟨?_, ?_, ?_⟩, ?_, ?_, fun n hn => ?_⟩
  · rw [add32, Nat.mod_eq_of_lt hlt, hsum, Nat.mul_mod_left]
  · rw [hpages.1, pgOfs]
    unfold pgsize
    omega
  · rw [hpages.2]
    unfold pgsize
    omega
  · unfold pgsize at *
    omega
  · unfold pgOfs pgsize physBase at *
    omega
  · have hcounters : Pages n (args.readBytes, args.zeroBytes) := by
      refine ⟨?_, hlt⟩
      unfold pgsize at *
      dsimp only
      omega
    refine ⟨fun i hi => ?_, fun loads fuel hfuel => ?_⟩
    · obtain ⟨d, rfl⟩ := Nat.exists_eq_add_of_lt hi
      have hd : i + d + 1 = d + 1 + i := by omega
      exact (Pages.advance (Pages.iterate (hd ▸ hcounters))).1
    · simpa only [Nat.zero_add] using fillLoop_eq (i := 0) loads hcounters hfuel

/-- A segment of two pages whose second has no bytes of the file. -/
theorem segment_safe_two_pages : ∃ phdr args, validateSegment phdr 5000 = true ∧
    args = loadArgs phdr ∧ args.readBytes = 0x1f0 ∧ args.zeroBytes = 0x1e10 ∧
    fillLoop (fun _ => true) 3 0 (args.readBytes, args.zeroBytes) = some (2, true) := by
  have hphdr : validateSegment ⟨0x10, 0x8048010, 0x1e0, 0x1800, by decide⟩ 5000 = true := by decide
  have hsafe := segment_safe hphdr rfl
  exact ⟨_, _, hphdr, rfl, rfl, rfl,
    ((hsafe.2.2.2.2.2.2 2 rfl).2 (fun _ => true) 3 (by decide)).1 fun _ _ => rfl⟩

end Pintos.Segment
