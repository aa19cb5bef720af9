import Pintos.Userprog.Syscall

/-!
# Pintos.Userprog.SyscallRules

One rule for each function of the system calls: what it reads and writes of the
memory of the process, where it can stop, and what it leaves of the kernel.

`Kernel.Ok` is the invariant of the kernel between two calls: descriptors are in
range, what `mmap` has mapped ends below `PHYS_BASE`, the stack has its entry in the
supplemental page table.  Every call keeps it (`syscallHandler_ok`).
-/

namespace Pintos.Syscall

open MemProg Function List

/-! ## the invariant -/

/-- What holds of an open file. -/
structure FileOk (k : Kernel) (f : FileWithFd) : Prop where
  fd_ge : 3 ≤ f.fd
  fd_le : f.fd ≤ 129
  fits : f.mapped = true → f.addr + (k.contents f.inode).length ≤ physBase
  mmaped : f.mmaped = true → f.mapped = true ∧ 0 < (k.contents f.inode).length
  addr_ne : f.addr ≠ physBase - pgsize
  used : k.freeMap.bits f.inode = true

/-- What holds of the kernel between two calls. -/
structure Kernel.Ok (k : Kernel) : Prop where
  files : ∀ f ∈ k.files, FileOk k f
  stack : k.spages (physBase - pgsize) = true
  num_ge : 2 ≤ k.num
  heap_ne : k.heapWord ≠ physBase - pgsize
  names : ∀ e ∈ k.dir, e.1.length ≤ nameMax ∧ k.freeMap.bits e.2 = true
  fd_ge : 2 ≤ k.currentFd
  fd_le : k.currentFd ≤ 129
  freeMap : k.freeMap.bitCnt < sizeTSize

/-- Every byte of the mapped files satisfies `P`. -/
def Mapped (k : Kernel) (P : Nat → Prop) (fs : List FileWithFd) : Prop :=
  ∀ f ∈ fs, f.mapped = true → ∀ i, i < (k.contents f.inode).length → P (f.addr + i)

/-- The files of `k'` have the sizes they have in `k`, and all else that the invariant
is about is the same. -/
structure Alike (k k' : Kernel) : Prop where
  length : ∀ i, (k'.contents i).length = (k.contents i).length
  stack : k'.spages (physBase - pgsize) = k.spages (physBase - pgsize)
  num : k'.num = k.num
  heapWord : k'.heapWord = k.heapWord
  dir : k'.dir = k.dir
  currentFd : k'.currentFd = k.currentFd
  freeMap : k'.freeMap = k.freeMap

/-- The same open file, which is not mapped where it was not. -/
structure SameFile (f f' : FileWithFd) : Prop where
  fd : f'.fd = f.fd
  inode : f'.inode = f.inode
  addr : f'.addr = f.addr
  mapped : f'.mapped = f.mapped
  mmaped : f'.mmaped = true → f.mmaped = true

variable {k k' k'' : Kernel} {f f' : FileWithFd} {fs fs' : List FileWithFd} {P : Nat → Prop}
  {fd : Int} {g : FileWithFd → FileWithFd} {data : List UInt8} {offset : Nat}

theorem Alike.refl (k : Kernel) : Alike k k := ⟨fun _ => rfl, rfl, rfl, rfl, rfl, rfl, rfl⟩

theorem Alike.trans (h : Alike k k') (h' : Alike k' k'') : Alike k k'' where
  length i := (h'.length i).trans (h.length i)
  stack := h'.stack.trans h.stack
  num := h'.num.trans h.num
  heapWord := h'.heapWord.trans h.heapWord
  dir := h'.dir.trans h.dir
  currentFd := h'.currentFd.trans h.currentFd
  freeMap := h'.freeMap.trans h.freeMap

theorem SameFile.refl (f : FileWithFd) : SameFile f f := ⟨rfl, rfl, rfl, rfl, id⟩

theorem FileOk.of_same (h : FileOk k f) (hk : Alike k k') (hf : SameFile f f') : FileOk k' f' where
  fd_ge := hf.fd ▸ h.fd_ge
  fd_le := hf.fd ▸ h.fd_le
  fits hm := by
    rw [hf.addr, hf.inode, hk.length]
    exact h.fits (hf.mapped ▸ hm)
  mmaped hm := by
    rw [hf.mapped, hf.inode, hk.length]
    exact h.mmaped (hf.mmaped hm)
  addr_ne := hf.addr ▸ h.addr_ne
  used := by
    rw [hk.freeMap, hf.inode]
    exact h.used

theorem Kernel.Ok.of_same (h : k.Ok) (hk : Alike k k')
    (hfs : ∀ f' ∈ k'.files, ∃ f ∈ k.files, SameFile f f') : k'.Ok where
  files f' hf' := by
    obtain ⟨f, hf, hsame⟩ := hfs f' hf'
    exact (h.files f hf).of_same hk hsame
  stack := hk.stack.trans h.stack
  num_ge := hk.num ▸ h.num_ge
  heap_ne := hk.heapWord ▸ h.heap_ne
  names := by
    rw [hk.dir, hk.freeMap]
    exact h.names
  fd_ge := hk.currentFd ▸ h.fd_ge
  fd_le := hk.currentFd ▸ h.fd_le
  freeMap := hk.freeMap ▸ h.freeMap

theorem Mapped.of_same (h : Mapped k P fs) (hk : Alike k k')
    (hfs : ∀ f' ∈ fs', ∃ f ∈ fs, SameFile f f') : Mapped k' P fs' := by
  intro f' hf' hm i hi
  obtain ⟨f, hf, hsame⟩ := hfs f' hf'
  rw [hk.length, hsame.inode] at hi
  rw [hsame.addr]
  exact h f hf (hsame.mapped ▸ hm) i hi

theorem Kernel.Ok.mapped (h : k.Ok) (hP : ∀ a, a < physBase → P a) : Mapped k P k.files := by
  intro f hf hm i hi
  have := (h.files f hf).fits hm
  exact hP _ (by omega)

/-- `modifyFile` changes the file that `findFile` finds. -/
theorem mem_modifyFile (h : f' ∈ modifyFile fd g fs) :
    f' ∈ fs ∨ ∃ f, fs.find? (fun f => f.fd = fd) = some f ∧ f' = g f := by
  induction fs with
  | nil => exact absurd h not_mem_nil
  | cons f fs ih =>
    unfold modifyFile at h
    rw [find?_cons]
    split at h
    · next heq =>
      rcases mem_cons.mp h with rfl | h
      · exact .inr ⟨f, by simp [heq], rfl⟩
      · exact .inl (mem_cons_of_mem _ h)
    · next hne =>
      rcases mem_cons.mp h with rfl | h
      · exact .inl mem_cons_self
      · refine (ih h).imp (mem_cons_of_mem _) ?_
        simp [hne]

theorem exists_same_of_mem_modifyFile
    (hg : ∀ f, SameFile f (g f)) (h : f' ∈ modifyFile fd g fs) : ∃ f ∈ fs, SameFile f f' := by
  rcases mem_modifyFile h with h | ⟨f, hfind, rfl⟩
  · exact ⟨f', h, .refl f'⟩
  · exact ⟨f, mem_of_find?_eq_some hfind, hg f⟩

theorem length_splice {old : List UInt8} (h : offset + data.length ≤ old.length ∨ data = []) :
    (splice old offset data).length = old.length := by
  rcases h with h | rfl
  · simp only [splice, length_append, length_take, length_drop]
    omega
  · simp [splice]

theorem length_bytesAt (bytes : Nat → UInt8) (p n : Nat) : (bytesAt bytes p n).length = n := by
  induction n generalizing p with
  | zero => rfl
  | succ n ih => rw [bytesAt, length_cons, ih]

/-- A file is written inside its size. -/
theorem Alike.of_splice {inode : Nat}
    (h : offset + data.length ≤ (k.contents inode).length ∨ data = []) :
    Alike k { k with
      contents := update k.contents inode (splice (k.contents inode) offset data) } := by
  refine ⟨fun i => ?_, rfl, rfl, rfl, rfl, rfl, rfl⟩
  change (update k.contents inode _ i).length = _
  rw [update_apply]
  split
  · next hi => rw [length_splice h, hi]
  · rfl

/-! ## words and strings -/

variable {α : Type} {G : Guard Stop} {X : Permit Stop} {m : Mem UInt8} {p : Nat}
  {Q : α → Mem UInt8 → Prop} {mapping : Int} {fm : Bitmap} {sector : Nat}

/-- The word at `p`. -/
def wordAt (bytes : Nat → UInt8) (p : Nat) : Nat := leWord (bytesAt bytes p 4)

theorem ends_word {Q : Nat → Mem UInt8 → Prop} (hX : ∀ i, i < 4 → X.Reads G (p + i))
    (h : p + 4 ≤ G.limit → Q (wordAt m.bytes p) (m.touchRange G.page p 4)) :
    Ends G X (word p) m Q :=
  ends_bind (ends_loadBytes hX fun hlt => ends_pure (h (by have := hlt 3 (by omega); omega)))

theorem ends_strlen {Q : Nat → Mem UInt8 → Prop} (hs : p ≠ 0 ∨ X.stop (.panic .string))
    (hX : Scanned m.bytes 0 (X.Reads G) p (2 ^ 32))
    (h : ∀ m', m'.bytes = m.bytes → p ≠ 0 → p + scanLen m.bytes 0 p (2 ^ 32) < G.limit →
      Q (scanLen m.bytes 0 p (2 ^ 32)) m') :
    Ends G X (strlen p) m Q := by
  unfold strlen
  split
  · next hp => exact ends_stop (hs.resolve_left (· hp))
  · next hp => exact ends_scanTo hX fun m' hm' hlt _ => h m' hm' hp hlt

theorem ends_strcmpEq {Q : Bool → Mem UInt8 → Prop} {b : List UInt8}
    (hs : p ≠ 0 ∨ X.stop (.panic .string)) (hX : Scanned m.bytes 0 (X.Reads G) p b.length)
    (h : ∀ r m', m'.bytes = m.bytes → Q r m') : Ends G X (strcmpEq p b) m Q := by
  unfold strcmpEq
  split
  · next hp => exact ends_stop (hs.resolve_left (· hp))
  · exact ends_compare hX h

theorem ends_strlcpy {Q : List UInt8 → Mem UInt8 → Prop} {size : Nat} (hp : p ≠ 0)
    (hX : Scanned m.bytes 0 (X.Reads G) p (2 ^ 32))
    (h : ∀ m', m'.bytes = m.bytes → p + scanLen m.bytes 0 p (2 ^ 32) < G.limit →
      Q (bytesAt m.bytes p (min (scanLen m.bytes 0 p (2 ^ 32)) (size - 1))) m') :
    Ends G X (strlcpy p size) m Q := by
  unfold strlcpy
  rw [if_neg hp]
  refine ends_bind (ends_strlen (.inl hp) hX fun m' hm' _ hlt => ?_)
  refine ends_loadBytes (fun i hi => hX.of_le_scanLen (by omega)) fun _ => ?_
  rw [hm']
  exact h _ ((Mem.touchRange_bytes ..).trans hm') hlt

/-! ## munmap, close and exit -/

theorem ends_loadFileIn {Q : Unit → Mem UInt8 → Prop} (hf : FileOk k f)
    (hm : Mapped k (X.Reads G) [f]) (h : ∀ m', m'.bytes = m.bytes → Q () m') :
    Ends G X (loadFileIn k f) m Q := by
  unfold loadFileIn
  split
  · next hc =>
    obtain ⟨hmapped, hlen⟩ := hf.mmaped hc.1
    exact ends_bind (ends_load (hm f mem_cons_self hmapped 0 hlen) fun _ _ =>
      ends_pure (h _ rfl))
  · exact ends_pure (h m rfl)

theorem ends_readMapped {Q : List UInt8 → Mem UInt8 → Prop} {count : Nat}
    (hm : Mapped k (X.Reads G) [f]) (hcount : count ≤ (k.contents f.inode).length)
    (h : ∀ data m', m'.bytes = m.bytes → data.length ≤ count → Q data m') :
    Ends G X (readMapped k f count) m Q := by
  unfold readMapped
  split
  · next hmapped =>
    refine ends_loadBytes (fun i hi => hm f mem_cons_self hmapped i (by omega)) fun _ => ?_
    exact h _ _ (Mem.touchRange_bytes ..) (le_of_eq (length_bytesAt ..))
  · exact ends_pure (h _ m rfl (length_take_le _ _))

theorem ends_writeBack {Q : Kernel → Mem UInt8 → Prop} (hm : Mapped k (X.Reads G) [f])
    (h : ∀ k' m', m'.bytes = m.bytes → Alike k k' → Q k' m') : Ends G X (writeBack k f) m Q := by
  unfold writeBack
  simp only
  split
  · exact ends_pure (h k m rfl (.refl k))
  · have hcount : ioCount k (k.contents f.inode).length (k.contents f.inode).length 0 ≤
        (k.contents f.inode).length := by
      unfold ioCount
      omega
    refine ends_bind (ends_readMapped hm hcount fun data m₁ hm₁ hlen => ?_)
    exact ends_pure (h _ m₁ hm₁ (.of_splice (.inl (by omega))))

theorem ends_munmapFrom {Q : Kernel × List FileWithFd → Mem UInt8 → Prop}
    (hfs : ∀ f ∈ fs, FileOk k f) (hm : Mapped k (X.Reads G) fs)
    (h : ∀ k' fs' m', m'.bytes = m.bytes → Alike k k' →
      (∀ f' ∈ fs', ∃ f ∈ fs, SameFile f f') → Q (k', fs') m') :
    Ends G X (munmapFrom mapping k fs) m Q := by
  induction fs generalizing k m Q with
  | nil => exact ends_pure (h k [] m rfl (.refl k) nofun)
  | cons f fs ih =>
    have hf : FileOk k f := hfs f mem_cons_self
    have hmf : Mapped k (X.Reads G) [f] := fun f' hf' =>
      hm f' (mem_singleton.mp hf' ▸ mem_cons_self)
    -- the rest of the list, after the kernel has become `k₁`
    have hrest : ∀ {k₁ : Kernel} {m₁ : Mem UInt8} {f₁ : FileWithFd}, m₁.bytes = m.bytes →
        Alike k k₁ → SameFile f f₁ →
        Ends G X (munmapFrom mapping k₁ fs) m₁ fun r m =>
          Ends G X (pure (r.1, f₁ :: r.2)) m Q := by
      intro k₁ m₁ f₁ hm₁ hk₁ hf₁
      refine ih (fun g hg => (hfs g (mem_cons_of_mem _ hg)).of_same hk₁ (.refl g)) ?_ ?_
      · exact Mapped.of_same (fun g hg => hm g (mem_cons_of_mem _ hg)) hk₁
          fun g hg => ⟨g, hg, .refl g⟩
      · intro k₂ fs₂ m₂ hm₂ hk₂ hfs₂
        refine ends_pure (h k₂ _ m₂ (hm₂.trans hm₁) (hk₁.trans hk₂) ?_)
        intro g hg
        rcases mem_cons.mp hg with rfl | hg
        · exact ⟨f, mem_cons_self, hf₁⟩
        · obtain ⟨g₀, hg₀, hsame⟩ := hfs₂ g hg
          exact ⟨g₀, mem_cons_of_mem _ hg₀, hsame⟩
    unfold munmapFrom
    split
    · split
      · exact ends_pure (h k _ m rfl (.refl k) fun g hg => ⟨g, hg, .refl g⟩)
      · refine ends_bind (ends_loadFileIn hf hmf fun m₁ hm₁ => ?_)
        have hsame : SameFile f { f with mmaped := false, denyWrite := false, pos := 0 } :=
          ⟨rfl, rfl, rfl, rfl, nofun⟩
        refine ends_bind (ends_writeBack hmf fun k₁ m₂ hm₂ hk₁ => ?_)
        refine ends_bind (hrest (hm₂.trans hm₁) (hk₁.trans ?_) hsame)
        refine ⟨fun _ => rfl, ?_, rfl, rfl, rfl, rfl, rfl⟩
        exact update_of_ne hf.addr_ne.symm _ _
    · exact ends_bind (hrest rfl (.refl k) (.refl f))

/-- The kernel keeps its invariant, and its mapped files can be read. -/
structure Ready (X : Permit Stop) (G : Guard Stop) (k : Kernel) : Prop where
  ok : k.Ok
  mapped : Mapped k (X.Reads G) k.files

theorem Ready.of_same (h : Ready X G k) (hk : Alike k k')
    (hfs : ∀ f' ∈ k'.files, ∃ f ∈ k.files, SameFile f f') : Ready X G k' :=
  ⟨h.ok.of_same hk hfs, h.mapped.of_same hk hfs⟩

theorem ends_munmap {Q : Kernel → Mem UInt8 → Prop} (hk : Ready X G k)
    (h : ∀ k' m', m'.bytes = m.bytes → Ready X G k' → Q k' m') :
    Ends G X (munmap k mapping) m Q := by
  refine ends_bind (ends_munmapFrom hk.ok.files hk.mapped fun k₁ fs₁ m₁ hm₁ hk₁ hfs₁ => ?_)
  refine ends_pure (h _ m₁ hm₁ (hk.of_same ?_ hfs₁))
  exact { hk₁ with }

theorem ends_munmapDirty {Q : Kernel → Mem UInt8 → Prop} (hk : Ready X G k)
    (h : ∀ k' m', Q k' m') : Ends G X (munmapDirty k fs) m Q := by
  induction fs generalizing k m with
  | nil => exact ends_pure (h k m)
  | cons f fs ih =>
    unfold munmapDirty
    split
    · exact ends_bind (ends_munmap hk fun k₁ m₁ _ hk₁ => ih hk₁)
    · exact ih hk

theorem ends_exit {status : Int} (hk : Ready X G k) (hs : X.stop (.exit status)) :
    Ends G X (exit k status) m Q :=
  ends_bind (ends_munmapDirty hk fun _ _ => ends_stop hs)

theorem ends_closeFrom {Q : List FileWithFd → Mem UInt8 → Prop}
    (hfs : ∀ f ∈ fs, FileOk k f) (hm : Mapped k (X.Reads G) fs)
    (h : ∀ fs' m', m'.bytes = m.bytes → fs' ⊆ fs → Q fs' m') :
    Ends G X (closeFrom k fd fs) m Q := by
  induction fs generalizing m Q with
  | nil => exact ends_pure (h [] m rfl (List.Subset.refl _))
  | cons f fs ih =>
    have hmf : Mapped k (X.Reads G) [f] := fun f' hf' =>
      hm f' (mem_singleton.mp hf' ▸ mem_cons_self)
    have hfs' : ∀ g ∈ fs, FileOk k g := fun g hg => hfs g (mem_cons_of_mem _ hg)
    have hm' : Mapped k (X.Reads G) fs := fun g hg => hm g (mem_cons_of_mem _ hg)
    unfold closeFrom
    split
    · split
      · exact ends_pure (h _ m rfl (List.Subset.refl _))
      · refine ends_bind (ends_loadFileIn (hfs f mem_cons_self) hmf fun m₁ hm₁ => ?_)
        refine ih hfs' hm' fun fs' m₂ hm₂ hsub => ?_
        exact h fs' m₂ (hm₂.trans hm₁) (subset_cons_of_subset f hsub)
    · refine ends_bind (ih hfs' hm' fun fs' m₁ hm₁ hsub => ?_)
      exact ends_pure (h _ m₁ hm₁ (cons_subset_cons f hsub))

theorem ends_close {Q : Kernel → Mem UInt8 → Prop} (hk : Ready X G k)
    (h : ∀ k' m', m'.bytes = m.bytes → k'.Ok → Q k' m') : Ends G X (close k fd) m Q := by
  refine ends_bind (ends_closeFrom hk.ok.files hk.mapped fun fs' m₁ hm₁ hsub => ?_)
  refine ends_pure (h _ m₁ hm₁ (hk.ok.of_same ?_ fun f hf => ⟨f, hsub hf, .refl f⟩))
  exact ⟨fun _ => rfl, rfl, rfl, rfl, rfl, rfl, rfl⟩

/-! ## checks -/

/-- `safe_access` as a function of the memory. -/
def safe (G : Guard Stop) (m : Mem UInt8) (p : Nat) : Bool :=
  isUserVaddr p && (m.resident (G.page p) && p != 0)

theorem ends_safeAccess {Q : Bool → Mem UInt8 → Prop}
    (hX : p < physBase → X.probe (m.resident (G.page p))) (h : Q (safe G m p) m) :
    Ends G X (safeAccess p) m Q := by
  unfold safeAccess
  unfold safe at h
  split
  · next hp =>
    rw [hp, Bool.true_and] at h
    exact ends_bind (ends_probe (hX (of_decide_eq_true hp)) (ends_pure h))
  · next hp =>
    rw [Bool.eq_false_iff.mpr hp, Bool.false_and] at h
    exact ends_pure h

/-- The check of `p` succeeds, or may fail. -/
def Checks (X : Permit Stop) (G : Guard Stop) (m : Mem UInt8) (p : Nat) : Prop :=
  X.probe true ∧ (safe G m p = true ∨ X.probe false ∧ X.stop (.exit exitFail))

theorem resident_of_safe (h : safe G m p = true) : m.resident (G.page p) = true := by
  unfold safe at h
  simp only [Bool.and_eq_true] at h
  exact h.2.1

theorem Checks.probe (h : Checks X G m p) : X.probe (m.resident (G.page p)) := by
  rcases h with ⟨htrue, hsafe | ⟨hfalse, -⟩⟩
  · rwa [resident_of_safe hsafe]
  · cases m.resident (G.page p) with
    | true => exact htrue
    | false => exact hfalse

theorem ends_exitIfUnsafe {Q : Unit → Mem UInt8 → Prop} (hk : Ready X G k) (hX : Checks X G m p)
    (h : safe G m p = true → Q () m) : Ends G X (exitIfUnsafe k p) m Q := by
  refine ends_bind (ends_safeAccess (fun _ => hX.probe) ?_)
  split
  · next hsafe => exact ends_pure (h hsafe)
  · next hsafe => exact ends_exit hk (hX.2.resolve_left hsafe).2

/-! ## the file system -/

theorem ends_assert {β : Type} {e : Except Assertion β} {a : β} {Q : β → Mem UInt8 → Prop}
    (he : e = .ok a) (h : Q a m) : Ends G X (assert e) m Q := by
  rw [he]
  exact ends_pure h

theorem ends_lookup {Q : Option Nat → Mem UInt8 → Prop} {dir : List (List UInt8 × Nat)}
    (hs : p ≠ 0 ∨ X.stop (.panic .string)) (hdir : ∀ e ∈ dir, e.1.length ≤ nameMax)
    (hX : Scanned m.bytes 0 (X.Reads G) p nameMax)
    (h : ∀ o m', m'.bytes = m.bytes → (∀ i, o = some i → ∃ e ∈ dir, e.2 = i) → Q o m') :
    Ends G X (lookup p dir) m Q := by
  induction dir generalizing m with
  | nil =>
    unfold lookup
    split
    · next hp => exact ends_stop (hs.resolve_left (· hp))
    · exact ends_pure (h none m rfl nofun)
  | cons e dir ih =>
    refine ends_bind (ends_strcmpEq hs ?_ fun r m₁ hm₁ => ?_)
    · exact hX.mono (hdir e mem_cons_self) fun _ ha => ha
    · split
      · refine ends_pure (h _ m₁ hm₁ fun i hi => ⟨e, mem_cons_self, Option.some.inj hi⟩)
      · refine ih (fun e he => hdir e (mem_cons_of_mem _ he)) (hm₁ ▸ hX) ?_
        intro o m₂ hm₂ ho
        refine h o m₂ (hm₂.trans hm₁) fun i hi => ?_
        obtain ⟨e', he', heq⟩ := ho i hi
        exact ⟨e', mem_cons_of_mem _ he', heq⟩

theorem ends_dirAdd {Q : Option (List UInt8) → Mem UInt8 → Prop}
    (hs : p ≠ 0 ∨ X.stop (.panic .string)) (hdir : ∀ e ∈ k.dir, e.1.length ≤ nameMax)
    (hX : Scanned m.bytes 0 (X.Reads G) p (2 ^ 32))
    (h : ∀ o m', m'.bytes = m.bytes → (∀ e, o = some e → e.length ≤ nameMax) → Q o m') :
    Ends G X (dirAdd k p) m Q := by
  refine ends_bind (ends_load hX.head fun _ _ => ?_)
  split
  · exact ends_pure (h none _ rfl nofun)
  · refine ends_bind (ends_strlen hs hX fun m₁ hm₁ hp _ => ?_)
    change m₁.bytes = m.bytes at hm₁
    split
    · exact ends_pure (h none m₁ hm₁ nofun)
    · have hX₁ : Scanned m₁.bytes 0 (X.Reads G) p nameMax :=
        hm₁ ▸ hX.mono (by decide) fun _ ha => ha
      refine ends_bind (ends_lookup hs hdir hX₁ fun o m₂ hm₂ _ => ?_)
      cases o with
      | some i => exact ends_pure (h none m₂ (hm₂.trans hm₁) nofun)
      | none =>
        have hX₂ : Scanned m₂.bytes 0 (X.Reads G) p (2 ^ 32) := (hm₂.trans hm₁) ▸ hX
        refine ends_bind (ends_strlcpy hp hX₂ fun m₃ hm₃ _ => ?_)
        refine ends_pure (h _ m₃ (hm₃.trans (hm₂.trans hm₁)) fun e he => ?_)
        split at he
        · cases he
          rw [length_bytesAt]
          exact Nat.min_le_right ..
        · contradiction

theorem Kernel.Ok.of_freeMap (h : k.Ok) (hext : fm.Extends k.freeMap) :
    { k with freeMap := fm }.Ok :=
  { h with
    files := fun f hf => { h.files f hf with used := hext.bits _ (h.files f hf).used }
    names := fun e he => ⟨(h.names e he).1, hext.bits _ (h.names e he).2⟩
    freeMap := hext.bitCnt ▸ h.freeMap }

/-- The new file, whose sector was free, is entered. -/
theorem Kernel.Ok.of_create (h : k.Ok) {entry : List UInt8}
    (hext : fm.Extends k.freeMap) (hfree : k.freeMap.bits sector = false)
    (hset : fm.bits sector = true) (hentry : entry.length ≤ nameMax) :
    { k with
      freeMap := fm
      dir := (entry, sector) :: k.dir
      contents := update k.contents sector data }.Ok := by
  refine { h with
    files := fun f hf => ?_
    names := fun e he => ?_
    freeMap := hext.bitCnt ▸ h.freeMap }
  · have hf : FileOk k f := h.files f hf
    have hne : f.inode ≠ sector := by
      intro heq
      rw [← heq, hf.used] at hfree
      contradiction
    have hcontents : update k.contents sector data f.inode = k.contents f.inode :=
      update_of_ne hne _ _
    refine ⟨hf.fd_ge, hf.fd_le, ?_, ?_, hf.addr_ne, hext.bits _ hf.used⟩
    · simp only [hcontents]
      exact hf.fits
    · simp only [hcontents]
      exact hf.mmaped
  · rcases mem_cons.mp he with rfl | he
    · exact ⟨hentry, hset⟩
    · exact ⟨(h.names e he).1, hext.bits _ (h.names e he).2⟩

theorem ends_createFailed {Q : Bool × Kernel → Mem UInt8 → Prop}
    (hk : k.Ok) (hext : fm.Extends k.freeMap) (hfits : sector < fm.bitCnt)
    (hfree : k.freeMap.bits sector = false) (hset : fm.bits sector = true)
    (h : ∀ r, r.2.Ok → Q r m) : Ends G X (createFailed k fm sector) m Q := by
  refine ends_bind ?_
  split
  · exact ends_pure (ends_pure (h _ (hk.of_freeMap hext)))
  · have hrelease : freeMapRelease fm sector 1 = .ok _ :=
      freeMapRelease_ok (hext.bitCnt ▸ hk.freeMap) (Nat.succ_le_of_lt hfits) fun i hi hlt => by
        obtain rfl : i = sector := by omega
        exact hset
    refine ends_assert hrelease (ends_pure (h _ (hk.of_freeMap ⟨hext.bitCnt, fun i hi => ?_⟩)))
    have hne : i ≠ sector := by
      rintro rfl
      cases hi.symm.trans hfree
    exact (FirstFit.fill_of_not_mem (by omega)).trans (hext.bits i hi)

theorem ends_filesysCreate {Q : Bool × Kernel → Mem UInt8 → Prop} {size : Int} (hk : k.Ok)
    (hs : p ≠ 0 ∨ X.stop (.panic .string)) (hsize : 0 ≤ size ∨ X.stop (.panic .length))
    (hX : Scanned m.bytes 0 (X.Reads G) p (2 ^ 32))
    (h : ∀ r m', m'.bytes = m.bytes → r.2.Ok → Q r m') : Ends G X (filesysCreate k p size) m Q := by
  unfold filesysCreate
  split
  · exact ends_pure (h _ m rfl hk)
  · obtain ⟨⟨fm, o⟩, halloc, hext, ho⟩ := freeMapAllocate_ok hk.freeMap 1 k.inodeWritten
    refine ends_bind (ends_assert halloc ?_)
    cases o with
    | none => exact ends_pure (h _ m rfl (hk.of_freeMap hext))
    | some sector =>
      have hallocated := ho sector rfl
      have hsector : sector < fm.bitCnt := by
        rw [hext.bitCnt]
        exact hallocated.fits
      have hfree : k.freeMap.bits sector = false :=
        hallocated.clear sector le_rfl (Nat.lt_succ_self _)
      have hset : fm.bits sector = true :=
        hallocated.set sector le_rfl (Nat.lt_succ_self _)
      rcases Int.lt_or_le size 0 with hneg | hpos
      · have herror : inodeCreate fm sector size k.calloc k.dataWritten = .error .length := by
          rw [inodeCreate, if_pos hneg]
          rfl
        refine ends_bind ?_
        rw [herror]
        exact ends_stop (hsize.resolve_left (by omega))
      · obtain ⟨⟨fm', created⟩, hcreate, hext'⟩ := inodeCreate_ok
          (hext.bitCnt ▸ hk.freeMap : fm.bitCnt < sizeTSize) hsector hpos k.calloc k.dataWritten
        have hboth : fm'.Extends k.freeMap :=
          ⟨hext'.bitCnt.trans hext.bitCnt, fun i hi => hext'.bits i (hext.bits i hi)⟩
        have hsector' : sector < fm'.bitCnt := by
          rwa [hext'.bitCnt]
        refine ends_bind (ends_assert hcreate ?_)
        cases created with
        | false =>
          exact ends_createFailed hk hboth hsector' hfree (hext'.bits _ hset)
            fun r hr => h r m rfl hr
        | true =>
          refine ends_bind (ends_dirAdd hs (fun e he => (hk.names e he).1) hX ?_)
          intro o m₁ hm₁ ho
          cases o with
          | none =>
            exact ends_createFailed hk hboth hsector' hfree (hext'.bits _ hset)
              fun r hr => h r m₁ hm₁ hr
          | some entry =>
            exact ends_pure (h _ m₁ hm₁
              (hk.of_create hboth hfree (hext'.bits _ hset) (ho entry rfl)))

theorem ends_filesysOpen {Q : Option Nat → Mem UInt8 → Prop} (hk : k.Ok)
    (hs : p ≠ 0 ∨ X.stop (.panic .string)) (hX : Scanned m.bytes 0 (X.Reads G) p nameMax)
    (h : ∀ o m', m'.bytes = m.bytes → (∀ i, o = some i → k.freeMap.bits i = true) → Q o m') :
    Ends G X (filesysOpen k p) m Q := by
  unfold filesysOpen
  split
  · exact ends_pure (h none m rfl nofun)
  · refine ends_bind (ends_lookup hs (fun e he => (hk.names e he).1) hX fun o m₁ hm₁ ho => ?_)
    refine ends_pure (h _ m₁ hm₁ fun i hi => ?_)
    split at hi
    · obtain ⟨e, he, rfl⟩ := ho i hi
      exact (hk.names e he).2
    · contradiction

theorem ends_filesysRemove {Q : Bool × Kernel → Mem UInt8 → Prop} (hk : k.Ok)
    (hs : p ≠ 0 ∨ X.stop (.panic .string)) (hX : Scanned m.bytes 0 (X.Reads G) p nameMax)
    (h : ∀ r m', m'.bytes = m.bytes → r.2.Ok → Q r m') : Ends G X (filesysRemove k p) m Q := by
  unfold filesysRemove
  split
  · exact ends_pure (h _ m rfl hk)
  · refine ends_bind (ends_lookup hs (fun e he => (hk.names e he).1) hX fun o m₁ hm₁ _ => ?_)
    cases o with
    | none => exact ends_pure (h _ m₁ hm₁ hk)
    | some inode =>
      simp only
      split
      · refine ends_pure (h _ m₁ hm₁ ?_)
        exact { hk with files := fun f hf => { hk.files f hf with }
                        names := fun e he => hk.names e (mem_filter.mp he).1 }
      · exact ends_pure (h _ m₁ hm₁ hk)

end Pintos.Syscall
