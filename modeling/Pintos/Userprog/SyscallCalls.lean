import Pintos.Userprog.SyscallRules

/-!
# Pintos.Userprog.SyscallCalls

One rule for each system call, and the handler.

`mmap` refuses every address from which the file would reach the stack
(`mmap_fits`), so that what is mapped ends below `PHYS_BASE`; with the other rules
this makes `Kernel.Ok` an invariant of the handler (`syscallHandler_ok`).
-/

namespace Pintos.Syscall

open MemProg List

variable {α : Type} {G : Guard Stop} {X : Permit Stop} {m : Mem UInt8} {k : Kernel}
  {p : Nat} {fd : Int} {f : FileWithFd} {Q : Int × Kernel → Mem UInt8 → Prop}
  {size buffer position addr : Nat}

/-! ## strings -/

theorem ends_processExecute {Q : Int → Mem UInt8 → Prop} (hp : p ≠ 0)
    (hX : Scanned m.bytes 0 (X.Reads G) p (2 ^ 32))
    (hs : p + scanLen m.bytes 0 p (2 ^ 32) < G.limit →
      strtok (bytesAt m.bytes p (min (scanLen m.bytes 0 p (2 ^ 32)) (fileNameLenLimit - 1))) = none →
      X.stop (.panic .src))
    (h : ∀ v m', m'.bytes = m.bytes →
      (k.palloc = true → ∃ fnCopy commandName, v = k.execute fnCopy commandName) → Q v m') :
    Ends G X (processExecute k p) m Q := by
  unfold processExecute
  split
  · next hpalloc => exact ends_pure (h _ m rfl fun htrue => absurd (htrue.symm.trans hpalloc) nofun)
  · refine ends_bind (ends_strlcpy hp hX fun m₁ hm₁ hlt => ?_)
    refine ends_bind (ends_strlcpy hp (hm₁ ▸ hX) fun m₂ hm₂ _ => ?_)
    split
    · next hnone => exact ends_stop (hs hlt (hm₁ ▸ hnone))
    · exact ends_pure (h _ m₂ (hm₂.trans hm₁) fun _ => ⟨_, _, rfl⟩)

theorem ends_exec {Q : Int → Mem UInt8 → Prop}
    (hprobe : p < physBase → X.probe (m.resident (G.page p)))
    (hX : safe G m p = true → Scanned m.bytes 0 (X.Reads G) p (2 ^ 32))
    (hs : safe G m p = true → p + scanLen m.bytes 0 p (2 ^ 32) < G.limit →
      strtok (bytesAt m.bytes p (min (scanLen m.bytes 0 p (2 ^ 32)) (fileNameLenLimit - 1))) = none →
      X.stop (.panic .src))
    (h : ∀ v m', m'.bytes = m.bytes → Q v m') : Ends G X (exec k p) m Q := by
  refine ends_bind (ends_safeAccess hprobe ?_)
  split
  · next hsafe =>
    have hp : p ≠ 0 := by
      rintro rfl
      simp [safe] at hsafe
    exact ends_processExecute hp (hX hsafe) (hs hsafe) fun v m' hm' _ => h v m' hm'
  · exact ends_pure (h _ m rfl)

theorem ends_create {Q : Bool × Kernel → Mem UInt8 → Prop} (hk : Ready X G k)
    (hnull : G.readable 0 = false ∨ X.stop (.panic .string))
    (hX : Scanned m.bytes 0 (X.Reads G) p 15)
    (hsize : p + scanLen m.bytes 0 p 15 < G.limit → G.readable p = true →
      scanLen m.bytes 0 p 15 ≤ 14 → m.bytes p ≠ 0 →
      0 ≤ toInt32 size ∨ X.stop (.panic .length))
    (hexit : p < G.limit → m.bytes p = 0 → X.stop (.exit exitFail))
    (h : ∀ r m', m'.bytes = m.bytes → r.2.Ok → Q r m') : Ends G X (create k p size) m Q := by
  refine ends_bind (ends_scanTo hX fun m₁ hm₁ hlt hr => ?_)
  split
  · exact ends_pure (h _ m₁ hm₁ hk.ok)
  · next hlen =>
    refine ends_bind (ends_load hX.head fun _ _ => ?_)
    rw [hm₁]
    split
    · next hne =>
      have hp : p ≠ 0 ∨ X.stop (.panic .string) := by
        refine hnull.imp_left fun hnull => ?_
        rintro rfl
        cases hnull.symm.trans hr
      refine ends_filesysCreate hk.ok hp (hsize hlt hr (by omega) hne) ?_ ?_
      · change Scanned m₁.bytes 0 (X.Reads G) p (2 ^ 32)
        rw [hm₁]
        exact hX.extend (by omega) _
      · intro r m₂ hm₂ hok
        exact h r m₂ (hm₂.trans hm₁) hok
    · next hzero => exact ends_exit hk (hexit (by omega) (not_not.mp hzero))

theorem ends_openFile (hk : k.Ok)
    (hs : p ≠ 0 ∨ X.stop (.panic .string)) (hX : ∀ n, Scanned m.bytes 0 (X.Reads G) p n)
    (h : ∀ r m', m'.bytes = m.bytes → p + scanLen m.bytes 0 p (2 ^ 32) < G.limit → r.2.Ok → Q r m') :
    Ends G X (openFile k p) m Q := by
  refine ends_bind (ends_filesysOpen hk hs (hX _) fun o m₁ hm₁ ho => ?_)
  refine ends_bind (ends_strcmpEq hs (hm₁ ▸ hX _) fun sameName m₂ hm₂ => ?_)
  have hm₂ : m₂.bytes = m.bytes := hm₂.trans hm₁
  refine ends_bind (ends_strcmpEq hs (hm₂ ▸ hX _) fun sameFile m₃ hm₃ => ?_)
  have hm₃ : m₃.bytes = m.bytes := hm₃.trans hm₂
  refine ends_bind (ends_strlen hs (hm₃ ▸ hX _) fun m₄ hm₄ _ hlt => ?_)
  have hm₄ : m₄.bytes = m.bytes := hm₄.trans hm₃
  rw [hm₃] at hlt
  have hfd : { k with currentFd := k.currentFd + 1 }.Ok ∨ fileLimit < k.currentFd := by
    by_cases hlimit : fileLimit < k.currentFd
    · exact .inr hlimit
    · refine .inl { hk with files := fun f hf => { hk.files f hf with }, fd_ge := ?_, fd_le := ?_ }
      · exact Nat.le_succ_of_le hk.fd_ge
      · exact Nat.succ_le_succ (Nat.not_lt.mp hlimit)
  cases o with
  | none => exact ends_pure (h _ m₄ hm₄ hlt hk)
  | some inode =>
    simp only
    split
    · exact ends_pure (h _ m₄ hm₄ hlt hk)
    · split
      · exact ends_pure (h _ m₄ hm₄ hlt hk)
      · next hlimit =>
        have hok := hfd.resolve_right hlimit
        split
        · exact ends_pure (h _ m₄ hm₄ hlt hok)
        · refine ends_pure (h _ m₄ hm₄ hlt { hok with files := fun f hf => ?_ })
          rcases mem_append.mp hf with hf | hf
          · exact { hk.files f hf with }
          · obtain rfl := mem_singleton.mp hf
            refine ⟨?_, hok.fd_le, by rintro ⟨⟩, by rintro ⟨⟩, hk.heap_ne, ho inode rfl⟩
            exact Nat.succ_le_succ hk.fd_ge

/-! ## descriptors -/

theorem mem_of_findFile (h : findFile k fd = some f) : f ∈ k.files ∧ f.fd = fd := by
  have hmem := mem_of_find?_eq_some h
  have hfd := find?_some h
  exact ⟨hmem, of_decide_eq_true hfd⟩

theorem Kernel.Ok.of_modifyFile (hk : k.Ok) {g : FileWithFd → FileWithFd}
    (hg : ∀ f, SameFile f (g f)) : { k with files := modifyFile fd g k.files }.Ok :=
  hk.of_same ⟨fun _ => rfl, rfl, rfl, rfl, rfl, rfl, rfl⟩ fun _ hf =>
    exists_same_of_mem_modifyFile hg hf

theorem length_readData_le (k : Kernel) (f : FileWithFd) (size : Nat) :
    (readData k f size).length ≤ (toInt32 size).toNat := by
  simp only [readData, ioCount, length_take]
  omega

theorem ends_read (hk : Ready X G k)
    (hX : ∀ f, findFile k fd = some f → 3 ≤ fd → fd ≤ fileLimit → f.own = true →
      ∀ i, i < (readData k f size).length → X.Writes G (buffer + i))
    (hexit : fd < 1 ∨ fileLimit < fd ∨ (∃ f ∈ k.files, f.own = false) → X.stop (.exit exitFail))
    (h : ∀ r m', 1 ≤ fd → fd ≤ fileLimit →
      (∀ f, findFile k fd = some f → ∀ i, i < (readData k f size).length →
        G.writable (buffer + i) = true) → r.2.Ok → Q r m') :
    Ends G X (read k fd buffer size) m Q := by
  unfold read
  split
  · next hfd => exact ends_exit hk (hexit (hfd.imp_right .inl))
  · next hfd =>
    have hge : 1 ≤ fd := by omega
    have hle : fd ≤ fileLimit := by omega
    split
    · omega
    · split
      · next hnone => exact ends_pure (h _ m hge hle (fun f hf => by rw [hnone] at hf; cases hf) hk.ok)
      · next f hfind =>
        obtain ⟨hf, heq⟩ := mem_of_findFile hfind
        split
        · next hown => exact ends_exit hk (hexit (.inr (.inr ⟨f, hf, hown⟩)))
        · next hown =>
          have hfile := (hk.ok.files f hf).fd_ge
          have hown : f.own = true := Bool.of_not_eq_false hown
          refine ends_bind (ends_storeBytes (hX f hfind (by omega) hle hown) fun hw m₁ => ?_)
          refine ends_pure (h _ m₁ hge hle (fun f' hf' => ?_)
            (hk.ok.of_modifyFile fun f => ⟨rfl, rfl, rfl, rfl, id⟩))
          cases hfind.symm.trans hf'
          exact hw

theorem ends_write (hk : Ready X G k)
    (hX : 3 ≤ fd → fd ≤ fileLimit → ∀ i, i < (toInt32 size).toNat → X.Reads G (buffer + i))
    (hout : fd = 1 → ∀ i, i < size → X.Reads G (buffer + i))
    (hexit : fd < 1 ∨ fileLimit < fd ∨ (∃ f ∈ k.files, f.own = false) → X.stop (.exit exitFail))
    (h : ∀ r m', m'.bytes = m.bytes → 1 ≤ fd → fd ≤ fileLimit → r.2.Ok → Q r m') :
    Ends G X (write k fd buffer size) m Q := by
  unfold write
  split
  · next hfd => exact ends_exit hk (hexit (hfd.imp_right .inl))
  · next hfd =>
    have hge : 1 ≤ fd := by omega
    have hle : fd ≤ fileLimit := by omega
    split
    · next hone =>
      refine ends_bind (ends_loadBytes (hout hone) fun _ => ?_)
      refine ends_pure (h _ _ (Mem.touchRange_bytes ..) hge hle ?_)
      exact hk.ok.of_same ⟨fun _ => rfl, rfl, rfl, rfl, rfl, rfl, rfl⟩ fun f hf => ⟨f, hf, .refl f⟩
    · split
      · exact ends_pure (h _ m rfl hge hle hk.ok)
      · next f hfind =>
        obtain ⟨hf, heq⟩ := mem_of_findFile hfind
        split
        · next hown => exact ends_exit hk (hexit (.inr (.inr ⟨f, hf, hown⟩)))
        · have hfile := (hk.ok.files f hf).fd_ge
          have hsize : writeCount k f size ≤ (toInt32 size).toNat ∧
              writeCount k f size ≤ (k.contents f.inode).length - writePos f := by
            unfold writeCount ioCount
            split <;> omega
          refine ends_bind (ends_loadBytes (fun i hi => hX (by omega) hle i (by omega)) fun _ => ?_)
          refine ends_pure (h _ _ (Mem.touchRange_bytes ..) hge hle ?_)
          have hdata : writePos f + (bytesAt m.bytes buffer (writeCount k f size)).length ≤
              (k.contents f.inode).length ∨ bytesAt m.bytes buffer (writeCount k f size) = [] := by
            rw [length_bytesAt]
            rcases Nat.eq_zero_or_pos (writeCount k f size) with hzero | hpos
            · exact .inr (by rw [hzero, bytesAt])
            · exact .inl (by omega)
          have halike := Alike.of_splice hdata
          refine hk.ok.of_same ⟨halike.length, rfl, rfl, rfl, rfl, rfl, rfl⟩ fun _ hf => ?_
          refine exists_same_of_mem_modifyFile ?_ hf
          exact fun f => ⟨rfl, rfl, rfl, rfl, id⟩

theorem ends_seekFrom {Q : List FileWithFd → Mem UInt8 → Prop} {fs : List FileWithFd}
    (hs : ∀ f ∈ fs, f.fd = fd → 0 ≤ toInt32 position ∨ X.stop (.panic .newPos))
    (h : ∀ fs', (∀ f' ∈ fs', ∃ f ∈ fs, SameFile f f') → Q fs' m) :
    Ends G X (seekFrom fd position fs) m Q := by
  induction fs generalizing Q with
  | nil => exact ends_pure (h [] nofun)
  | cons f fs ih =>
    have hrest : ∀ {f₁ : FileWithFd}, SameFile f f₁ →
        Ends G X (do let fs ← seekFrom fd position fs; pure (f₁ :: fs)) m Q := by
      intro f₁ hf₁
      refine ends_bind (ih (fun g hg => hs g (mem_cons_of_mem _ hg)) fun fs' hfs' => ?_)
      refine ends_pure (h _ fun g hg => ?_)
      rcases mem_cons.mp hg with rfl | hg
      · exact ⟨f, mem_cons_self, hf₁⟩
      · obtain ⟨g₀, hg₀, hsame⟩ := hfs' g hg
        exact ⟨g₀, mem_cons_of_mem _ hg₀, hsame⟩
    refine ends_bind ?_
    split
    · next heq =>
      unfold fileSeek
      split
      · next hneg => exact ends_stop ((hs f mem_cons_self heq).resolve_left (by omega))
      · exact ends_pure (hrest ⟨rfl, rfl, rfl, rfl, id⟩)
    · exact ends_pure (hrest (.refl f))

theorem ends_seek {Q : Kernel → Mem UInt8 → Prop} (hk : k.Ok)
    (hs : ∀ f ∈ k.files, f.fd = fd → 0 ≤ toInt32 position ∨ X.stop (.panic .newPos))
    (h : ∀ k', k'.Ok → Q k' m) : Ends G X (seek k fd position) m Q := by
  refine ends_bind (ends_seekFrom hs fun fs' hfs' => ends_pure (h _ (hk.of_same ?_ hfs')))
  exact ⟨fun _ => rfl, rfl, rfl, rfl, rfl, rfl, rfl⟩

/-! ## mmap -/

/-- **A file that `mmap` accepts ends below the stack.** -/
theorem mmap_fits {fileSize : Nat} (hk : k.Ok)
    (haddr : ¬ physBase - k.num * pgsize < addr) (halign : addr % pgsize = 0)
    (hpages : ¬ pagesInUse k addr fileSize = true) : addr + fileSize ≤ physBase - pgsize := by
  have hnum := hk.num_ge
  by_contra hlt
  -- the page of the stack is one of those that the loop looks at
  refine hpages (List.any_eq_true.mpr ⟨(physBase - pgsize - addr) / pgsize, ?_, ?_⟩)
  · rw [mem_range]
    unfold pgsize physBase at *
    omega
  · have hstack : addr + (physBase - pgsize - addr) / pgsize * pgsize = physBase - pgsize := by
      unfold pgsize physBase at *
      omega
    rw [hstack]
    exact hk.stack

theorem Kernel.Ok.of_mmap (hk : k.Ok)
    (hfits : addr + filesize k fd ≤ physBase - pgsize) (hsize : filesize k fd ≠ 0) :
    { k with
      files := modifyFile fd
        (fun f => { f with addr := addr, mmaped := true, mapped := true }) k.files }.Ok := by
  refine { hk with files := fun f' hf' => ?_ }
  rcases mem_modifyFile hf' with hmem | ⟨f₀, hfirst, rfl⟩
  · exact { hk.files f' hmem with }
  · have hf₀ : FileOk k f₀ := hk.files f₀ (mem_of_find?_eq_some hfirst)
    have hlen : filesize k fd = (k.contents f₀.inode).length := by
      rw [filesize, findFile, hfirst]
    rw [hlen] at hfits hsize
    refine { hf₀ with fits := fun _ => ?_, mmaped := fun _ => ⟨rfl, ?_⟩, addr_ne := ?_ }
    · exact Nat.le_trans hfits (Nat.sub_le ..)
    · exact Nat.pos_of_ne_zero hsize
    · change addr ≠ physBase - pgsize
      omega

/-- `mmap` returns without a look at the memory, or ends the process for want of a
supplemental page. -/
theorem mmap_cases (hk : k.Ok) (fd : Int) (addr : Nat) :
    (∃ r, r.2.Ok ∧ mmap k fd addr = pure r) ∨
      k.spageMalloc = false ∧ ∃ k', k'.Ok ∧ mmap k fd addr = exit k' exitFail := by
  unfold mmap
  simp only
  split
  · exact .inl ⟨_, hk, rfl⟩
  · next haddr =>
    split
    · exact .inl ⟨_, hk, rfl⟩
    · split
      · exact .inl ⟨_, hk, rfl⟩
      · next hargs =>
        split
        · exact .inl ⟨_, hk, rfl⟩
        · next hpages =>
          have hfits := mmap_fits hk haddr (by omega) hpages
          have hok := hk.of_mmap hfits (by omega)
          split
          · exact .inl ⟨_, hk, rfl⟩
          · split
            · next hmalloc => exact .inr ⟨hmalloc, _, hok, rfl⟩
            · refine .inl ⟨_, hok.of_same ⟨fun _ => rfl, ?_, rfl, rfl, rfl, rfl, rfl⟩
                fun f hf => exists_same_of_mem_modifyFile ?_ hf, rfl⟩
              · exact Function.update_of_ne (by omega) _ _
              · exact fun f => ⟨rfl, rfl, rfl, rfl, id⟩

theorem ends_mmap (hk : k.Ok) (hX : k.spageMalloc = false → ∀ a, a < physBase → X.Reads G a)
    (hexit : k.spageMalloc = false → X.stop (.exit exitFail))
    (h : ∀ r, r.2.Ok → Q r m) : Ends G X (mmap k fd addr) m Q := by
  rcases mmap_cases hk fd addr with ⟨r, hok, heq⟩ | ⟨hmalloc, k', hok, heq⟩ <;> rw [heq]
  · exact ends_pure (h r hok)
  · exact ends_exit ⟨hok, hok.mapped (hX hmalloc)⟩ (hexit hmalloc)

/-! ## arguments -/

/-- A step of a call that reads its arguments: `exit_if_unsafe`, or a word. -/
inductive ArgStep
  | check (p : Nat)
  | word (p : Nat)

/-- How the arguments of a call are read. -/
def argSteps (bytes : Nat → UInt8) (esp : Nat) : SyscallNr → List ArgStep
  | .halt => []
  | .exec => [.word (esp + 4)]
  | .create | .seek | .mmap =>
    [.check (esp + 4), .check (esp + 8), .word (esp + 4), .word (esp + 8)]
  | .open | .remove =>
    [.check (esp + 4), .word (esp + 4), .check (wordAt bytes (esp + 4)), .word (esp + 4)]
  | .read | .write =>
    [.check (esp + 4), .check (esp + 8), .word (esp + 8), .check (wordAt bytes (esp + 8)),
      .check (esp + 12), .word (esp + 4), .word (esp + 8), .word (esp + 12)]
  | _ => [.check (esp + 4), .word (esp + 4)]

/-- How the number and the arguments of a call are read. -/
def callSteps (bytes : Nat → UInt8) (esp : Nat) : List ArgStep :=
  .check esp :: .word esp ::
    ((SyscallNr.ofNum (wordAt bytes esp)).map (argSteps bytes esp)).getD []

/-- A call with the words `a`, `b` and `c` for its arguments. -/
def serve (k : Kernel) (a b c : Nat) : SyscallNr → Sys SysRet
  | .exec => do
      let pid ← exec k a
      pure (retVal k pid)
  | .close => do
      let k ← close k (toInt32 a)
      pure ⟨none, k⟩
  | .create => do
      let r ← create k a b
      pure (retBool r)
  | .exit => exit k (toInt32 a)
  | .filesize => pure (retVal k (filesize k (toInt32 a)))
  | .halt => halt
  | .open => do
      let r ← openFile k a
      pure (ret r)
  | .read => do
      let r ← read k (toInt32 a) b c
      pure (ret r)
  | .write => do
      let r ← write k (toInt32 a) b c
      pure (ret r)
  | .wait => pure (retVal k (wait k (toInt32 a)))
  | .remove => do
      let r ← remove k a
      pure (retBool r)
  | .seek => do
      let k ← seek k (toInt32 a) b
      pure ⟨none, k⟩
  | .tell => pure (retVal k (tell k (toInt32 a)))
  | .mmap => do
      let r ← mmap k (toInt32 a) b
      pure (ret r)
  | .munmap => do
      let k ← munmap k (toInt32 a)
      pure ⟨none, k⟩

/-- What the handler does once it has read the number and the arguments. -/
def served (k : Kernel) (bytes : Nat → UInt8) (esp : Nat) : Sys SysRet :=
  match SyscallNr.ofNum (wordAt bytes esp) with
  | some nr => serve k (wordAt bytes (esp + 4)) (wordAt bytes (esp + 8)) (wordAt bytes (esp + 12)) nr
  | none => pure ⟨none, k⟩

/-- What is known of the memory after words have been read, the last one first. -/
structure View (G : Guard Stop) (bytes : Nat → UInt8) where
  holds : Mem UInt8 → List Nat → Prop
  bytes_eq : ∀ {m ws}, holds m ws → m.bytes = bytes
  touch : ∀ {m ws} p, holds m ws → holds (m.touchRange G.page p 4) (p :: ws)

/-- Only the bytes are known. -/
def View.plain (G : Guard Stop) (bytes : Nat → UInt8) : View G bytes where
  holds m _ := m.bytes = bytes
  bytes_eq h := h
  touch _ h := (Mem.touchRange_bytes ..).trans h

/-- The steps run into nothing but what `X` permits, and `P` holds after them. -/
def View.After {bytes : Nat → UInt8} (V : View G bytes) (X : Permit Stop) :
    List ArgStep → List Nat → (Mem UInt8 → Prop) → Prop
  | [], ws, P => ∀ m, V.holds m ws → P m
  | .check p :: steps, ws, P =>
    (∀ m, V.holds m ws → Checks X G m p) ∧
      ((∃ m, V.holds m ws ∧ safe G m p = true) → V.After X steps ws P)
  | .word p :: steps, ws, P =>
    (∀ i, i < 4 → X.Reads G (p + i)) ∧ (p + 4 ≤ G.limit → V.After X steps (p :: ws) P)

/-- `S` holds of each check and the words that have been read before it. -/
def Passed (S : List Nat → Nat → Prop) : List ArgStep → List Nat → Prop
  | [], _ => True
  | .check p :: steps, ws => S ws p ∧ Passed S steps ws
  | .word p :: steps, ws => Passed S steps (p :: ws)

section

variable {bytes : Nat → UInt8} {V : View G bytes} {ws : List Nat} {steps : List ArgStep}
  {P : Mem UInt8 → Prop} {C S : List Nat → Nat → Prop} {esp : Nat} {fst snd : Nat}

theorem Passed.of_forall (h : ∀ ws p, S ws p) : Passed S steps ws := by
  induction steps generalizing ws with
  | nil => trivial
  | cons step steps ih =>
    cases step with
    | check p => exact ⟨h ws p, ih⟩
    | word p => exact ih

/-- Checks that may be made, and words that may be read. -/
theorem View.After.intro (hC : ∀ {ws p m}, C ws p → V.holds m ws → Checks X G m p)
    (hS : ∀ {ws p m}, V.holds m ws → safe G m p = true → S ws p)
    (hword : ∀ p, .word p ∈ steps → ∀ i, i < 4 → X.Reads G (p + i)) (hc : Passed C steps ws)
    (h : Passed S steps ws → ∀ m, m.bytes = bytes → P m) : V.After X steps ws P := by
  induction steps generalizing ws with
  | nil => exact fun m hm => h trivial m (V.bytes_eq hm)
  | cons step steps ih =>
    have hword' : ∀ p, .word p ∈ steps → ∀ i, i < 4 → X.Reads G (p + i) := fun p hp =>
      hword p (mem_cons_of_mem _ hp)
    cases step with
    | check p =>
      exact ⟨fun m hm => hC hc.1 hm, fun ⟨m, hm, hs⟩ =>
        ih hword' hc.2 fun hp => h ⟨hS hm hs, hp⟩⟩
    | word p => exact ⟨hword p mem_cons_self, fun _ => ih hword' hc h⟩

theorem ends_check (hk : Ready X G k) (hm : V.holds m ws) {Q : Unit → Mem UInt8 → Prop}
    (h : V.After X (.check p :: steps) ws P) (hrest : V.After X steps ws P → Q () m) :
    Ends G X (exitIfUnsafe k p) m Q :=
  ends_exitIfUnsafe hk (h.1 m hm) fun hs => hrest (h.2 ⟨m, hm, hs⟩)

theorem ends_argWord (hm : V.holds m ws) {Q : Nat → Mem UInt8 → Prop}
    (h : V.After X (.word p :: steps) ws P)
    (hrest : ∀ m', V.holds m' (p :: ws) → V.After X steps (p :: ws) P → Q (wordAt bytes p) m') :
    Ends G X (word p) m Q :=
  ends_word h.1 fun hle => V.bytes_eq hm ▸ hrest _ (V.touch p hm) (h.2 hle)

theorem ends_arg (hk : Ready X G k) (hm : V.holds m ws) {Q : Nat → Mem UInt8 → Prop}
    (h : V.After X [.check p, .word p] ws (Q (wordAt bytes p))) : Ends G X (arg k p) m Q :=
  ends_bind (ends_check hk hm h fun h => ends_argWord hm h fun m' hm h => h m' hm)

theorem ends_nameArg (hk : Ready X G k) (hm : V.holds m ws) {Q : Nat → Mem UInt8 → Prop}
    (h : V.After X [.check p, .word p, .check (wordAt bytes p), .word p] ws (Q (wordAt bytes p))) :
    Ends G X (nameArg k p) m Q := by
  refine ends_bind (ends_bind (ends_check hk hm h fun h => ends_argWord hm h fun m hm h => ?_))
  exact ends_bind (ends_check hk hm h fun h => ends_argWord hm h fun m hm h => h m hm)

theorem ends_args (hk : Ready X G k) (hm : V.holds m ws) {Q : Nat × Nat → Mem UInt8 → Prop}
    (h : V.After X [.check fst, .check snd, .word fst, .word snd] ws
      (Q (wordAt bytes fst, wordAt bytes snd))) : Ends G X (args k fst snd) m Q := by
  refine ends_bind (ends_check hk hm h fun h => ends_bind (ends_check hk hm h fun h => ?_))
  refine ends_bind (ends_argWord hm h fun m hm h => ?_)
  exact ends_bind (ends_argWord hm h fun m hm h => ends_pure (h m hm))

theorem ends_bufferArgs (hk : Ready X G k) (hm : V.holds m ws) {trd : Nat}
    {Q : Int × Nat × Nat → Mem UInt8 → Prop}
    (h : V.After X [.check fst, .check snd, .word snd, .check (wordAt bytes snd), .check trd,
      .word fst, .word snd, .word trd] ws
      (Q (toInt32 (wordAt bytes fst), wordAt bytes snd, wordAt bytes trd))) :
    Ends G X (bufferArgs k fst snd trd) m Q := by
  refine ends_bind (ends_check hk hm h fun h => ends_bind (ends_check hk hm h fun h => ?_))
  refine ends_bind (ends_argWord hm h fun m hm h => ?_)
  refine ends_bind (ends_check hk hm h fun h => ends_bind (ends_check hk hm h fun h => ?_))
  refine ends_bind (ends_argWord hm h fun m hm h => ends_bind (ends_argWord hm h fun m hm h => ?_))
  exact ends_bind (ends_argWord hm h fun m hm h => ends_pure (h m hm))

/-- **The handler** reads the arguments and serves the call. -/
theorem ends_syscallHandler {Q : SysRet → Mem UInt8 → Prop} (hk : Ready X G k)
    (hm : V.holds m []) (hprobe : ∀ b, SyscallNr.ofNum (wordAt bytes esp) = some .exec → X.probe b)
    (h : V.After X (callSteps bytes esp) [] fun m' => Ends G X (served k bytes esp) m' Q) :
    Ends G X (syscallHandler k esp) m Q := by
  refine ends_bind (ends_check hk hm h fun h => ends_bind (ends_argWord hm h fun m hm h => ?_))
  split
  · next nr hnr =>
    simp only [served, hnr, Option.map_some, Option.getD_some] at h
    cases nr with
    | halt => exact h m hm
    | exec =>
      exact ends_bind (ends_safeAccess (fun _ => hprobe _ hnr)
        (ends_bind (ends_argWord hm h fun m hm h => h m hm)))
    | create | seek | mmap => exact ends_bind (ends_args hk hm h)
    | «open» | remove => exact ends_bind (ends_nameArg hk hm h)
    | read | write => exact ends_bind (ends_bufferArgs hk hm h)
    | _ => exact ends_bind (ends_arg hk hm h)
  · next hnr =>
    simp only [served, hnr, Option.map_none, Option.getD_none] at h
    exact h m hm

end

/-! ## calls whose arguments are in user memory -/

/-- The string at `p` ends below `PHYS_BASE`. -/
def StringInUser (bytes : Nat → UInt8) (p : Nat) : Prop :=
  ∀ i, (∀ j, j < i → bytes (p + j) ≠ 0) → p + i < physBase

/-- The number of arguments. -/
def argCount : SyscallNr → Nat
  | .halt => 0
  | .create | .seek | .mmap => 2
  | .read | .write => 3
  | _ => 1

/-- The file name, or the buffer, is in user memory. -/
def PointersInUser (bytes : Nat → UInt8) (esp : Nat) : SyscallNr → Prop
  | .exec | .create | .remove | .open => StringInUser bytes (wordAt bytes (esp + 4))
  | .read | .write =>
    ∀ i, i < wordAt bytes (esp + 12) → wordAt bytes (esp + 8) + i < physBase
  | _ => True

/-- Every byte that the call is about is in user memory: the words at the stack
pointer, the file name, and the buffer of `read` and `write`. -/
def InUser (bytes : Nat → UInt8) (esp : Nat) : Prop :=
  esp + 4 ≤ physBase ∧ ∀ nr, SyscallNr.ofNum (wordAt bytes esp) = some nr →
    esp + 4 + 4 * argCount nr ≤ physBase ∧ PointersInUser bytes esp nr

theorem toInt32_toNat_le (w : Nat) : (toInt32 w).toNat ≤ w := by
  unfold toInt32
  have := Nat.mod_le w (2 ^ 32)
  split <;> omega

theorem mem_callSteps {bytes : Nat → UInt8} {esp : Nat} (h : .word p ∈ callSteps bytes esp) :
    p = esp ∨ ∃ nr, SyscallNr.ofNum (wordAt bytes esp) = some nr ∧
      ∃ j < argCount nr, p = esp + 4 + 4 * j := by
  simp only [callSteps, mem_cons, reduceCtorEq, ArgStep.word.injEq, false_or] at h
  refine h.imp_right fun h => ?_
  cases hnr : SyscallNr.ofNum (wordAt bytes esp) with
  | none =>
    rw [hnr] at h
    exact absurd h not_mem_nil
  | some nr =>
    rw [hnr] at h
    refine ⟨nr, rfl, (p - (esp + 4)) / 4, ?_⟩
    cases nr <;> simp [argSteps, argCount] at h ⊢ <;> omega

/-- **The handler keeps the invariant**, whatever the user program passes; and it stays
in user memory when the arguments are there. -/
theorem ends_syscallHandler_ok {esp : Nat} (hk : k.Ok) (hstop : ∀ x, X.stop x)
    (hprobe : ∀ b, X.probe b) (hX : ∀ a, a < physBase ∨ X.escape → X.Reads G a ∧ X.Writes G a)
    (huser : InUser m.bytes esp ∨ X.escape) :
    Ends G X (syscallHandler k esp) m fun r _ => r.kernel.Ok := by
  have hready : Ready X G k := ⟨hk, hk.mapped fun a ha => (hX a (.inl ha)).1⟩
  refine ends_syscallHandler (V := .plain G m.bytes) hready rfl (fun b _ => hprobe b)
    (.intro (C := fun _ _ => True) (S := fun _ _ => True)
      (fun _ _ => ⟨hprobe true, .inr ⟨hprobe false, hstop _⟩⟩) (fun _ _ => trivial)
      (fun p hp i hi => (hX _ (huser.imp_left fun h => ?_)).1) (.of_forall fun _ _ => trivial)
      fun _ m₁ hm₁ => ?_)
  · rcases mem_callSteps hp with rfl | ⟨nr, hnr, j, hj, rfl⟩
    · have := h.1
      omega
    · have := (h.2 nr hnr).1
      omega
  unfold served
  split
  next nr hnr =>
    have huser : PointersInUser m.bytes esp nr ∨ X.escape := huser.imp_left fun h => (h.2 nr hnr).2
    have hstring : (StringInUser m.bytes (wordAt m.bytes (esp + 4)) ∨ X.escape) →
        ∀ n, Scanned m₁.bytes 0 (X.Reads G) (wordAt m.bytes (esp + 4)) n := by
      intro hp n i hi hbefore
      rw [hm₁] at hbefore
      exact (hX _ (hp.imp_left fun h => h i hbefore)).1
    cases nr with
    | halt => exact ends_stop (hstop _)
    | exit => exact ends_exit hready (hstop _)
    | wait | filesize | tell => exact ends_pure hk
    | close => exact ends_bind (ends_close hready fun _ _ _ hok => ends_pure hok)
    | munmap => exact ends_bind (ends_munmap hready fun _ _ _ hok => ends_pure hok.ok)
    | exec =>
      exact ends_bind (ends_exec (fun _ => hprobe _) (fun _ => hstring huser _)
        (fun _ _ _ => hstop _) fun _ _ _ => ends_pure hk)
    | create =>
      exact ends_bind (ends_create hready (.inr (hstop _)) (hstring huser _)
        (fun _ _ _ _ => .inr (hstop _)) (fun _ _ => hstop _) fun _ _ _ hok => ends_pure hok)
    | seek =>
      exact ends_bind (ends_seek hk (fun _ _ _ => .inr (hstop _)) fun _ hok => ends_pure hok)
    | mmap =>
      exact ends_bind (ends_mmap hk (fun _ a ha => (hX a (.inl ha)).1) (fun _ => hstop _)
        fun _ hok => ends_pure hok)
    | remove =>
      exact ends_bind (ends_filesysRemove hk (.inr (hstop _)) (hstring huser _)
        fun _ _ _ hok => ends_pure hok)
    | «open» =>
      exact ends_bind (ends_openFile hk (.inr (hstop _)) (hstring huser)
        fun _ _ _ _ hok => ends_pure hok)
    | read =>
      refine ends_bind (ends_read hready (fun f _ _ _ _ i hi => ?_) (fun _ => hstop _)
        fun _ _ _ _ _ hok => ends_pure hok)
      have := length_readData_le k f (wordAt m.bytes (esp + 12))
      have := toInt32_toNat_le (wordAt m.bytes (esp + 12))
      exact (hX _ (huser.imp_left fun h => h i (by omega))).2
    | write =>
      have := toInt32_toNat_le (wordAt m.bytes (esp + 12))
      exact ends_bind (ends_write hready
        (fun _ _ i hi => (hX _ (huser.imp_left fun h => h i (by omega))).1)
        (fun _ i hi => (hX _ (huser.imp_left fun h => h i hi)).1) (fun _ => hstop _)
        fun _ _ _ _ _ hok => ends_pure hok)
  next => exact ends_pure hk

/-- **Every system call keeps the invariant of the kernel.** -/
theorem syscallHandler_ok {esp : Nat} {r : SysRet} {m' : Mem UInt8} (hk : k.Ok)
    (h : MemProg.exec G (syscallHandler k esp) m = .done r m') : r.kernel.Ok := by
  have hends : Ends G ⟨fun _ => True, True, True, fun _ => True⟩ (syscallHandler k esp) m
      fun r _ => r.kernel.Ok :=
    ends_syscallHandler_ok hk (fun _ => trivial) (fun _ => trivial)
      (fun _ _ => ⟨⟨.inr trivial, .inr trivial⟩, .inr trivial, .inr trivial⟩) (.inr trivial)
  rcases hends.exec with ⟨r', m'', heq, hok⟩ | ⟨x, m'', heq, -⟩ | ⟨a, heq, -⟩
  · cases h.symm.trans heq
    exact hok
  · cases h.symm.trans heq
  · cases h.symm.trans heq

end Pintos.Syscall
