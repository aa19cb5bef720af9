import Pintos.Vm.FrameRoles

/-!
# Pintos.Vm.Protection

The writable flag of a page across evictions.

`load_segment` and `page_fault` map a page with the flag of its supplemental entry.
When the page has been evicted and is touched again, the swap-in of `page_fault` maps it
writable, whatever it was: a page of a read-only segment becomes writable.

Only `install_page` adds entries to a page directory; all other steps drop some
(`Shrinks`), so that the flags can change in the swap-in only.
-/

namespace Pintos.Frames

open Function List Option

variable {τ φ : Type*}

/-- **Protection.** A page is mapped with the flag with which `load` or `page_fault` has
mapped it last, other than from swap. -/
def Protected (s : FramesSys τ φ) : Prop :=
  ∀ t pd e, s.pagedir t = some pd → e ∈ pd → s.mappedAs t e.upage = some e.writable

/-! ## a read-only page becomes writable -/

/-- A process is loaded with a read-only and a writable page of its executable; they are
touched in turn, with memory for one of them. -/
def touchInTurn : List (FramesAct Nat Nat) :=
  [.start 0 true,
    .createSpage 0 ⟨0x8048000, some 0, none, 4096, 0, false⟩ true (some 0) true,
    .createSpage 0 ⟨0x8049000, some 0, none, 100, 3996, true⟩ true none true,
    .setupStack 0, .frameCreate 0 (some 0), .pushFrame 0, .useFrame 0 true true true,
    .fault 0 0x8048000 true false false, .frameCreate 0 (some 1), .pushFrame 0,
    .useFrame 0 true true true, .fault 0 0x8049000 true false false, .frameCreate 0 (some 2),
    .frameEvict 0 true 2, .evictFrame 0, .pallocAgain 0, .pushFrame 0, .useFrame 0 true true true,
    .fault 0 0x8048000 true false false, .frameCreate 0 (some 1), .frameEvict 0 true 2,
    .evictFrame 0, .pallocAgain 0, .pushFrame 0, .useFrame 0 true true true, .readFromSwap 0]

/-- The read-only page comes back writable. -/
theorem swap_in_makes_page_writable :
    ∃ s, (framesMachine Nat Nat).runFrom twoPages touchInTurn = some s ∧
      (framesMachine Nat Nat).Reach s ∧ s.mappedAs 0 0x8048000 = some false ∧
      (∃ pd, s.pagedir 0 = some pd ∧ ⟨0x8048000, 1, true⟩ ∈ pd) ∧ ¬ Protected s := by
  have hboot : (framesMachine Nat Nat).init twoPages := ⟨_, 2, by decide, rfl⟩
  obtain ⟨s, hrun, hs, hflag, pd, hpd, hmem⟩ := Machine.exists_reach_of_runFrom hboot touchInTurn
    (fun s => s.mappedAs 0 0x8048000 = some false ∧ ∃ pd ∈ s.pagedir 0,
      (⟨0x8048000, 1, true⟩ : Pte) ∈ pd) (by decide +kernel)
  refine ⟨s, hrun, hs, hflag, ⟨pd, hpd, hmem⟩, fun h => ?_⟩
  have hsame := h 0 pd _ hpd hmem
  cases hflag.symm.trans hsame

/-! ## what the steps do to the page directories -/

/-- The page that is being brought in from swap. -/
def Pc.swapsIn : Pc φ → Option Nat
  | .created _ (.swapIn upage) _ => some upage
  | _ => none

/-- Only pages that were mapped writable are brought in from swap. -/
def SwapsInWritable (s : FramesSys τ φ) : FramesAct τ φ → Prop
  | .useFrame t _ _ _ => ∀ upage ∈ (s.pc t).swapsIn, s.mappedAs t upage = some true
  | _ => True

variable {m n : FrameMem τ φ} {s s' : FramesSys τ φ} {t : τ} {f : φ} {b : Base} {upage : Nat}
  {kpage : Option Nat} {writable table : Bool}

/-- Entries are dropped only. -/
def Shrinks (m n : FrameMem τ φ) : Prop :=
  ∀ t pd e, n.pagedir t = some pd → e ∈ pd → ∃ pd', m.pagedir t = some pd' ∧ e ∈ pd'

theorem Shrinks.of_eq (h : n.pagedir = m.pagedir) : Shrinks m n :=
  fun _ pd _ hpd he => ⟨pd, h ▸ hpd, he⟩

theorem Protected.shrink (h : Protected s) (hs : Shrinks s.toFrameMem s'.toFrameMem)
    (hmapped : s'.mappedAs = s.mappedAs) : Protected s' := by
  intro t pd e hpd he
  obtain ⟨pd', hpd', he'⟩ := hs t pd e hpd he
  rw [hmapped]
  exact h t pd' e hpd' he'

/-- A step that changes no page directory. -/
theorem Protected.congr (h : Protected s) (hpd : s'.pagedir = s.pagedir)
    (hmapped : s'.mappedAs = s.mappedAs) : Protected s' :=
  h.shrink (.of_eq hpd) hmapped

theorem pallocFreePage_pagedir {o : Option Nat} (h : pallocFreePage m o = some n) :
    n.pagedir = m.pagedir := by
  cases o with
  | none => rw [← some.inj h]
  | some page =>
    obtain ⟨usedMap, -, rfl⟩ := map_eq_some_iff.mp h
    rfl

variable [DecidableEq τ]

theorem shrinks_update {pd pd' : List Pte} (hpd : m.pagedir t = some pd) (hsub : pd' ⊆ pd)
    (hn : n.pagedir = update m.pagedir t (some pd')) : Shrinks m n := by
  intro u pd₁ e hpd₁ he
  rw [hn] at hpd₁
  by_cases hu : u = t
  · subst hu
    rw [update_self] at hpd₁
    cases hpd₁
    exact ⟨pd, hpd, hsub he⟩
  · rw [update_of_ne hu] at hpd₁
    exact ⟨pd₁, hpd₁, he⟩

theorem frameDelete_shrinks [DecidableEq φ] (h : frameDelete m f = some n) : Shrinks m n := by
  obtain ⟨pd, hpd, h⟩ := bind_eq_some_iff.mp h
  obtain ⟨m₁, hfree, h⟩ := bind_eq_some_iff.mp h
  obtain ⟨ft, -, rfl⟩ := map_eq_some_iff.mp h
  exact shrinks_update hpd filter_sublist.subset (pallocFreePage_pagedir hfree)

/-! ## install_page -/

section

variable (h : Protected s)
include h

theorem Protected.install {r : FrameMem τ φ × Bool}
    (hr : installPage s.toFrameMem t upage kpage writable table = some r)
    (hflag : s.mappedAs t upage = some writable) : Protected { s with toFrameMem := r.1 } := by
  rcases installPage_cases hr with rfl | ⟨pd, page, hpd, -, -, rfl⟩
  · exact h
  · intro u pd' e hpd' he
    change update s.pagedir t _ u = some pd' at hpd'
    by_cases hu : u = t
    · subst hu
      rw [update_self] at hpd'
      cases hpd'
      rcases mem_cons.mp he with rfl | he
      · exact hflag
      · exact h u pd e hpd he
    · rw [update_of_ne hu] at hpd'
      exact h u pd' e hpd' he

theorem Protected.mapPage {r : FramesSys τ φ × Bool}
    (hr : mapPage s t upage kpage writable table = some r) : Protected r.1 := by
  obtain ⟨r', hr', -, hfalse, htrue⟩ := mapPage_cases hr
  rcases installPage_cases hr' with rfl | ⟨pd, page, hpd, -, habsent, rfl⟩
  · rwa [hfalse rfl]
  · rw [htrue rfl]
    intro u pd' e hpd' he
    change update s.pagedir t _ u = some pd' at hpd'
    change update s.mappedAs t _ u e.upage = some e.writable
    by_cases hu : u = t
    · subst hu
      rw [update_self] at hpd' ⊢
      cases hpd'
      rcases mem_cons.mp he with rfl | he
      · exact update_self ..
      · -- the page was not mapped before
        have hne : e.upage ≠ upage := by
          have hall := find?_eq_none.mp habsent e he
          simpa using hall
        rw [update_of_ne hne]
        exact h u pd e hpd he
    · rw [update_of_ne hu] at hpd' ⊢
      exact h u pd' e hpd' he

theorem Protected.createSpage {new : Spage} {malloc : Bool} {shared : Option Nat}
    {r : FramesSys τ φ × Bool}
    (hr : createSpage s t new malloc shared table = some r) : Protected r.1 := by
  rcases createSpage_cases hr with ⟨pages, heq⟩ | ⟨-, -, i, sp, pages, -, -, -, hmap⟩
  · rw [heq]
    exact h.congr rfl rfl
  · have hpages : Protected { s with spageTable := pages } := h.congr rfl rfl
    exact hpages.mapPage hmap

theorem Protected.freeAndExit (hs : freeAndExit s t kpage = some s') : Protected s' := by
  obtain ⟨n, hn, rfl⟩ := map_eq_some_iff.mp hs
  exact h.congr (pallocFreePage_pagedir hn) rfl

/-! ## the steps -/

theorem Protected.growStack {malloc : Bool}
    (hs : growStack s t b upage f table malloc = some s') : Protected s' := by
  unfold Frames.growStack at hs
  split at hs
  · cases hs
    exact h.congr rfl rfl
  · split at hs
    · cases hs
      exact h.congr rfl rfl
    · obtain ⟨r, hr, hs⟩ := bind_eq_some_iff.mp hs
      have hr₁ := h.mapPage hr
      split at hs
      · obtain ⟨r₂, hr₂, rfl⟩ := map_eq_some_iff.mp hs
        have hpages := hr₁.createSpage hr₂
        split <;> exact hpages.congr rfl rfl
      · exact hr₁.freeAndExit hs

theorem Protected.setupStack {malloc : Bool}
    (hs : setupStack s t f table malloc = some s') : Protected s' := by
  unfold Frames.setupStack at hs
  split at hs
  · cases hs
    exact h.congr rfl rfl
  · obtain ⟨r, hr, hs⟩ := bind_eq_some_iff.mp hs
    have hr₁ := h.mapPage hr
    split at hs
    · obtain ⟨r₂, hr₂, rfl⟩ := map_eq_some_iff.mp hs
      have hpages := hr₁.createSpage hr₂
      split <;> exact hpages.congr rfl rfl
    · obtain ⟨n, hn, rfl⟩ := map_eq_some_iff.mp hs
      exact hr₁.congr (pallocFreePage_pagedir hn) rfl

theorem Protected.loadPage {spage : Nat} {readBytes zeroBytes : UInt32} {read : Bool}
    (hs : loadPage s t b f spage writable readBytes zeroBytes upage read table = some s') :
    Protected s' := by
  have hset : Protected (setSpageKpage s t spage (s.kpage f)) := h.congr rfl rfl
  unfold Frames.loadPage at hs
  simp only at hs
  split at hs
  · cases hs
    exact hset.congr rfl rfl
  · split at hs
    · obtain ⟨r, hr, hs⟩ := bind_eq_some_iff.mp hs
      have hr₁ := hset.mapPage hr
      split at hs
      · cases hs
        obtain ⟨p, lock, hloop, -⟩ := loadLoop_cases r.1 t b spage writable _ _ _
        rw [hloop]
        exact hr₁.congr rfl rfl
      · exact hr₁.freeAndExit hs
    · exact hset.freeAndExit hs

end

variable [DecidableEq φ]

section

variable (h : Protected s)
include h

/-- Step of the caller of `frame_create`; the condition is for the swap-in. -/
theorem Protected.useFrame {read malloc : Bool}
    (hc : SwapsInWritable s (.useFrame t read table malloc))
    (hs : framesStep s (.useFrame t read table malloc) = some s') : Protected s' := by
  simp only [framesStep] at hs
  split at hs
  · next b c f hpc =>
    cases c with
    | swapIn upage =>
      obtain ⟨r, hr, rfl⟩ := map_eq_some_iff.mp hs
      have hflag := hc upage (by rw [hpc]; rfl)
      exact (h.install hr hflag).congr rfl rfl
    | growStack upage => exact h.growStack hs
    | setupStack => exact h.setupStack hs
    | loadPages spage writable readBytes zeroBytes upage => exact h.loadPage hs
  · contradiction

theorem Protected.frameCreate {o : Option φ}
    (hs : framesStep s (.frameCreate t o) = some s') : Protected s' := by
  simp only [framesStep] at hs
  split at hs
  · cases o with
    | none =>
      cases hs
      exact h.congr rfl rfl
    | some f =>
      simp only [Frames.frameCreate] at hs
      split at hs
      · contradiction
      · obtain ⟨r, -, rfl⟩ := map_eq_some_iff.mp hs
        exact h.congr rfl rfl
  · contradiction

theorem Protected.frameEvict {malloc : Bool} {fuel : Nat}
    (hs : framesStep s (.frameEvict t malloc fuel) = some s') : Protected s' := by
  simp only [framesStep] at hs
  split at hs
  · simp only [Frames.frameEvict] at hs
    split at hs
    · contradiction
    · obtain ⟨r, -, hs⟩ := bind_eq_some_iff.mp hs
      split at hs
      · obtain ⟨v, -, hs⟩ := bind_eq_some_iff.mp hs
        obtain ⟨r', -, rfl⟩ := map_eq_some_iff.mp hs
        exact h.congr rfl rfl
      · cases hs
        exact h.congr rfl rfl
  · contradiction

omit [DecidableEq φ] in
theorem Protected.munmap {fuel : Nat}
    (hs : Frames.munmap s t b upage fuel = some s') : Protected s' := by
  obtain ⟨pd, hpd, hs⟩ := bind_eq_some_iff.mp hs
  obtain ⟨o, -, rfl⟩ := map_eq_some_iff.mp hs
  have hclear : Protected { s with
      pagedir := update s.pagedir t (some (pagedirClearPage pd upage)) } :=
    h.shrink (shrinks_update hpd filter_sublist.subset rfl) rfl
  cases o with
  | none => exact hclear.congr rfl rfl
  | some f =>
    simp only
    split <;> exact hclear.congr rfl rfl

theorem Protected.sweepFrame (hs : framesStep s (.sweepFrame t) = some s') : Protected s' := by
  simp only [framesStep] at hs
  split at hs
  · next e hpc =>
    cases e with
    | none =>
      cases hs
      exact h.congr rfl rfl
    | some e =>
      cases e with
      | head => contradiction
      | tail =>
        cases hs
        exact h.congr rfl rfl
      | frame f =>
        obtain ⟨n, hn, rfl⟩ := map_eq_some_iff.mp hs
        split at hn
        · exact h.shrink (frameDelete_shrinks hn) rfl
        · cases hn
          exact h.congr rfl rfl
  · contradiction

omit h in
omit [DecidableEq τ] [DecidableEq φ] in
theorem foldlM_pallocFreePage_pagedir {pd : List Pte}
    (h : pd.foldlM (fun m e => pallocFreePage m (some e.kpage)) m = some n) :
    n.pagedir = m.pagedir := by
  induction pd generalizing m with
  | nil => rw [← some.inj h]
  | cons e pd ih =>
    rw [foldlM_cons] at h
    obtain ⟨m₁, hm₁, h⟩ := bind_eq_some_iff.mp h
    exact (ih h).trans (pallocFreePage_pagedir hm₁)

theorem Protected.processExit (hs : framesStep s (.processExit t) = some s') : Protected s' := by
  simp only [framesStep] at hs
  split at hs
  · simp only [Frames.processExit] at hs
    split at hs
    · cases hs
      exact h.congr rfl rfl
    · obtain ⟨n, hn, rfl⟩ := map_eq_some_iff.mp hs
      refine h.shrink (fun u pd e hpd he => ?_) rfl
      change n.pagedir u = some pd at hpd
      rw [foldlM_pallocFreePage_pagedir hn] at hpd
      change update s.pagedir t none u = some pd at hpd
      rw [update_apply] at hpd
      split at hpd
      · contradiction
      · exact ⟨pd, hpd, he⟩
  · contradiction

/-- **Step lemma**. -/
theorem Protected.step {a : FramesAct τ φ} (hc : SwapsInWritable s a)
    (hs : framesStep s a = some s') : Protected s' := by
  cases a with
  | useFrame t read table malloc => exact h.useFrame hc hs
  | frameCreate t f => exact h.frameCreate hs
  | frameEvict t malloc fuel => exact h.frameEvict hs
  | sweepFrame t => exact h.sweepFrame hs
  | processExit t => exact h.processExit hs
  | setAccessed t upage accessed =>
    cases hs
    exact h.congr rfl rfl
  | start t ok =>
    simp only [framesStep] at hs
    split at hs
    · split at hs
      · cases hs
        refine h.shrink (fun u pd e hpd he => ?_) rfl
        change update s.pagedir t _ u = some pd at hpd
        rw [update_apply] at hpd
        split at hpd
        · rw [← some.inj hpd] at he
          contradiction
        · exact ⟨pd, hpd, he⟩
      · cases hs
        exact h.congr rfl rfl
    · contradiction
  | createSpage t new malloc shared table =>
    simp only [framesStep] at hs
    split at hs
    · split at hs
      · obtain ⟨r, hr, rfl⟩ := map_eq_some_iff.mp hs
        have hr₁ := h.createSpage hr
        split
        · exact hr₁
        · exact hr₁.congr rfl rfl
      · contradiction
    · contradiction
  | fault t addr notPresent nearStack inSyscall =>
    simp only [framesStep] at hs
    split at hs
    · split at hs
      · contradiction
      · obtain ⟨swapTable, lock, p, rfl, -⟩ := pageFault_cases hs
        exact h.congr rfl rfl
    · contradiction
  | evictFrame t | unmapFrame t =>
    simp only [framesStep] at hs
    split at hs
    · obtain ⟨n, hn, rfl⟩ := map_eq_some_iff.mp hs
      exact h.shrink (frameDelete_shrinks hn) rfl
    · contradiction
  | pallocAgain t | pushFrame t =>
    simp only [framesStep] at hs
    split at hs
    · obtain ⟨r, -, rfl⟩ := map_eq_some_iff.mp hs
      exact h.congr rfl rfl
    · contradiction
  | clearSpages t =>
    simp only [framesStep] at hs
    split at hs
    · obtain ⟨pd, hpd, rfl⟩ := map_eq_some_iff.mp hs
      exact h.shrink (shrinks_update hpd filter_sublist.subset rfl) rfl
    · contradiction
  | munmap t upage fuel =>
    simp only [framesStep] at hs
    split at hs
    · exact h.munmap hs
    · exact h.munmap hs
    · contradiction
  | setupStack t | loadFailed t | readFromSwap t | exit t | kill t =>
    simp only [framesStep] at hs
    split at hs
    · cases hs
      exact h.congr rfl rfl
    · contradiction

end

/-! ## runs -/

/-- **In every run in which only pages that were mapped writable are brought in from swap,
every page keeps its flag.** -/
theorem protected_of_swapsInWritable (s : FramesSys τ φ)
    (h : (framesMachine τ φ).ReachIn SwapsInWritable s) : Protected s :=
  h.invariant
    (fun s ⟨_, _, _, heq⟩ => by
      subst heq
      nofun)
    fun _ _ _ hp hc hs => hp.step hc hs

omit [DecidableEq τ] [DecidableEq φ] in
instance (s : FramesSys τ φ) : ∀ a, Decidable (SwapsInWritable s a) := by
  rintro ⟨⟩ <;> unfold SwapsInWritable <;> infer_instance

/-- The writable page is touched first, and comes back when the read-only page has taken
its place. -/
def touchWritableFirst : List (FramesAct Nat Nat) :=
  [.start 0 true,
    .createSpage 0 ⟨0x8048000, some 0, none, 4096, 0, false⟩ true (some 0) true,
    .createSpage 0 ⟨0x8049000, some 0, none, 100, 3996, true⟩ true none true,
    .setupStack 0, .frameCreate 0 (some 0), .pushFrame 0, .useFrame 0 true true true,
    .fault 0 0x8049000 true false false, .frameCreate 0 (some 1), .pushFrame 0,
    .useFrame 0 true true true, .fault 0 0x8048000 true false false, .frameCreate 0 (some 2),
    .frameEvict 0 true 2, .evictFrame 0, .pallocAgain 0, .pushFrame 0, .useFrame 0 true true true,
    .fault 0 0x8049000 true false false, .frameCreate 0 (some 1), .frameEvict 0 true 2,
    .evictFrame 0, .pallocAgain 0, .pushFrame 0, .useFrame 0 true true true, .readFromSwap 0]

/-- The page is mapped again, writable as before. -/
theorem protected_touchWritableFirst :
    ∃ s, (framesMachine Nat Nat).ReachIn SwapsInWritable s ∧
      (∃ pd, s.pagedir 0 = some pd ∧ ⟨0x8049000, 1, true⟩ ∈ pd) ∧ Protected s := by
  have hboot : (framesMachine Nat Nat).init twoPages := ⟨_, 2, by decide, rfl⟩
  obtain ⟨s, -, hs, pd, hpd, hmem⟩ := Machine.exists_reachIn_of_runIn (C := SwapsInWritable) hboot
    touchWritableFirst (fun s => ∃ pd ∈ s.pagedir 0, (⟨0x8049000, 1, true⟩ : Pte) ∈ pd)
    (by decide +kernel)
  exact ⟨s, hs, ⟨pd, hpd, hmem⟩, protected_of_swapsInWritable s hs⟩

end Pintos.Frames

