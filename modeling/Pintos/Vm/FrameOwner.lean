import Pintos.Vm.Frames

/-!
# Pintos.Vm.FrameOwner

Who owns the frames.

Every entry of `frame_table` should have a page of its own that is allocated, and an
owner that is alive; and no page should be freed twice.  `thread_exit` without
`exit` leaves the frames of the process in the table and frees their pages, and a
`page_fault` that gives up frees the page of a frame that `exit` then deletes.

`MemInv` is what holds of the memory: the pages of the frames are allocated and their
own, and a page-table entry leads to a frame of the table.  Each function that changes
the memory keeps it.
-/

namespace Pintos.Frames

set_option linter.unusedSectionVars false

open FrameTable (TableNode FrameSys candidate)
open Function List Option

variable {τ φ : Type*}

/-! ## the property -/

/-- Following the list from `list_begin` gets to the frame. -/
def Entry (m : FrameMem τ φ) (f : φ) : Prop :=
  ∃ n, (m.heap .head).next.bind (Dll.walk m.heap n) = some (.frame f)

/-- The thread has been created and has not died. -/
def Pc.live : Pc φ → Bool
  | .unborn | .dead => false
  | _ => true

/-- **Frame ownership and single free.** -/
structure FramesOwned (s : FramesSys τ φ) : Prop where
  kpage : ∀ f, Entry s.toFrameMem f → ∃ page, s.kpage f = some page ∧ s.usedMap.bits page = true
  distinct : ∀ f g, Entry s.toFrameMem f → Entry s.toFrameMem g → s.kpage f = s.kpage g → f = g
  owner : ∀ f, Entry s.toFrameMem f → (s.pc (s.ownerThread f)).live = true
  freedOnce : s.doubleFree = false

/-! ## frames without an owner -/

/-- A machine with two pages, before the first process. -/
def twoPages : FramesSys Nat Nat :=
  framesBoot { heap := fun _ => ⟨none, none⟩, upage := fun _ => 0, ownerThread := fun _ => 0,
               accessed := fun _ _ => false, num := 0, created := fun _ => false } 2

/-- A process is loaded, with its stack page in frame 0. -/
def loadStack : List (FramesAct Nat Nat) :=
  [.start 0 true, .setupStack 0, .frameCreate 0 (some 0), .pushFrame 0, .useFrame 0 true true true]

/-- The process is killed by an exception. -/
def killed : List (FramesAct Nat Nat) := loadStack ++ [.kill 0, .processExit 0]

/-- The process maps a file of 100 bytes of which `page_fault` reads less, so that it
frees the page and calls `exit`. -/
def shortRead : List (FramesAct Nat Nat) :=
  loadStack ++
    [.createSpage 0 ⟨0x10000000, some 0, none, 100, 3996, true⟩ true none true,
      .fault 0 0x10000000 true false false, .frameCreate 0 (some 1), .pushFrame 0,
      .useFrame 0 false true true, .clearSpages 0, .sweepFrame 0, .sweepFrame 0]

/-! ## orderly runs -/

namespace Pc

/-- In the life of a process, before `thread_exit`. -/
def alive : Pc φ → Bool
  | .unborn | .exited | .dead => false
  | _ => true

/-- The frame that `frame_create` has not pushed yet. -/
def fresh : Pc φ → Option φ
  | .full _ _ f | .copying _ _ f _ | .evicted _ _ f | .pushing _ _ f => some f
  | _ => none

/-- The same when it has its page. -/
def paged : Pc φ → Option φ
  | .pushing _ _ f => some f
  | _ => none

/-- A frame of the table that the thread is about to map or to delete. -/
def hands : Pc φ → Option φ
  | .created _ _ f | .unmapping _ f => some f
  | _ => none

/-- The frame that the thread is evicting. -/
def victim : Pc φ → Option φ
  | .copying _ _ _ v => some v
  | _ => none

/-- The frame that the thread has got from `malloc`, and the page it is for. -/
def place : Pc φ → Option (φ × Nat)
  | .full _ c f | .copying _ c f _ | .evicted _ c f | .pushing _ c f | .created _ c f =>
    some (f, c.upage)
  | _ => none

/-- The place of the loop of `exit` over the table. -/
def sweep : Pc φ → Option (Option (TableNode φ))
  | .sweeping e => some e
  | _ => none

end Pc

/-- The frame that is being evicted. -/
def FramesSys.victim (s : FramesSys τ φ) : Option φ := s.evictionLock.bind fun t => (s.pc t).victim

/-- The process has no frame in the table. -/
def Bare (s : FramesSys τ φ) (t : τ) : Prop := ∀ f, s.created f = true → s.ownerThread f ≠ t

/-- No other thread is in the loop of `exit` over the table. -/
def Alone (s : FramesSys τ φ) (t : τ) : Prop := ∀ u, u ≠ t → (s.pc u).sweep.isNone = true

variable [DecidableEq τ] [DecidableEq φ]

/-- `file_read` and `install_page` succeed, where the caller of `frame_create` looks at
their results. -/
def Installs (s : FramesSys τ φ) (t : τ) (read table : Bool) : Pc φ → Prop
  | .created _ (.swapIn _) _ => True
  | .created _ c _ =>
    read = true ∧ table = true ∧
      ∀ pd ∈ s.pagedir t, (pagedirGetPage pd c.upage).isNone = true
  | _ => True

/-- The conditions on the steps: a process that dies without `exit` has no frame;
`create_spage` shares no page; a page is left for the second `palloc_get_page`;
`install_page` and `file_read` succeed, but for a page from swap; a frame is evicted only
when its owner is not about to map or delete it, and it is not deleted meanwhile; and the
table stays as it is while another thread is in the loop of `exit`. -/
def Orderly (s : FramesSys τ φ) : FramesAct τ φ → Prop
  | .loadFailed t | .kill t => Bare s t
  | .fault t _ notPresent _ inSyscall => notPresent = true ∨ inSyscall = true ∨ Bare s t
  | .createSpage t new _ shared _ =>
    new.writable = true ∨
      ∀ i ∈ shared, ∀ sp ∈ (hashInsert (s.spageTable t) new)[i]?, sp.kpage = none
  | .pallocAgain _ => ∃ page, page < s.usedMap.bitCnt ∧ s.usedMap.bits page = false
  | .useFrame t read table _ => Installs s t read table (s.pc t)
  | .frameEvict t _ _ =>
    (candidate s.toFrameSys).isSome = true ∧
      (∀ v ∈ candidate s.toFrameSys, (s.pc (s.ownerThread v)).hands ≠ some v) ∧ Alone s t
  | .evictFrame t | .unmapFrame t | .sweepFrame t => Alone s t
  | .munmap t upage _ => ∀ v ∈ s.victim, ¬ (s.ownerThread v = t ∧ s.upage v = upage)
  | .clearSpages t => ∀ v ∈ s.victim, s.ownerThread v ≠ t
  | _ => True

/-! ## the memory -/

/-- `malloc` has handed out the frame, and its page is `page`. -/
def Owns (m : FrameMem τ φ) (f : φ) (page : Nat) : Prop :=
  m.mallocd f = true ∧ m.kpage f = some page

/-- What holds of the memory; `frames` are the entries of the table. -/
structure MemInv (m : FrameMem τ φ) (frames : List φ) : Prop where
  size : m.usedMap.bitCnt < sizeTSize
  table : FrameTable.Table m.toFrameSys frames
  mallocd : ∀ {f}, f ∈ frames → m.mallocd f = true
  kpage : ∀ {f}, f ∈ frames → (m.kpage f).isSome = true
  used : ∀ {f page}, Owns m f page → page < m.usedMap.bitCnt ∧ m.usedMap.bits page = true
  distinct : ∀ {f g page}, Owns m f page → Owns m g page → f = g
  backed : ∀ {t pd e}, m.pagedir t = some pd → e ∈ pd →
    ∃ f ∈ frames, m.ownerThread f = t ∧ m.upage f = e.upage ∧ m.kpage f = some e.kpage
  freedOnce : m.doubleFree = false

variable {m m' : FrameMem τ φ} {s s' : FramesSys τ φ} {frames frames' : List φ} {f g v : φ}
  {t u : τ} {b : Base} {c : Caller} {pc' : Pc φ} {upage : Nat} {usedMap : Bitmap}
  {r : Bitmap × Option Nat} {pd : List Pte}

/-- What a traversal gets to is in the list. -/
theorem MemInv.mem_of_entry (h : MemInv m frames) (hf : Entry m f) : f ∈ frames := by
  obtain ⟨n, hn⟩ := hf
  have hwalk : Dll.walk m.heap (n + 1) .head = some (.frame f) := hn
  have hmem := h.table.isList.chain.path.mem_of_walk h.table.isList.tailNext hwalk
  simpa using hmem

theorem pallocGetPage_spec (hsize : usedMap.bitCnt < sizeTSize) : (∃ page, pallocGetPage usedMap =
        some ({ usedMap with bits := update usedMap.bits page true }, some page) ∧
        page < usedMap.bitCnt ∧ usedMap.bits page = false) ∨
      pallocGetPage usedMap = some (usedMap, none) ∧
        ∀ page, page < usedMap.bitCnt → usedMap.bits page = true := by
  unfold pallocGetPage
  rcases bitmapScanAndFlip_spec hsize 1 with ⟨page, hflip, hfirst, hne⟩ | ⟨hflip, hnone⟩
  · refine .inl ⟨page, ?_, hfirst.fits, hfirst.clear page le_rfl (Nat.lt_succ_self _)⟩
    rw [hflip, map_some, if_neg hne, fill_one]
  · refine .inr ⟨?_, fun page hlt => ?_⟩
    · rw [hflip, map_some, if_pos rfl]
    · have hclear := hnone page hlt
      refine Bool.of_not_eq_false fun hfree => hclear fun j hj hlt => ?_
      obtain rfl : j = page := by omega
      exact hfree

theorem pallocFreePage_used {page : Nat} (hsize : m.usedMap.bitCnt < sizeTSize)
    (hlt : page < m.usedMap.bitCnt) (hused : m.usedMap.bits page = true) :
    pallocFreePage m (some page) =
      some { m with
        usedMap := { m.usedMap with bits := update m.usedMap.bits page false } } := by
  have hset : bitmapSetMultiple m.usedMap page 1 false = some _ :=
    bitmapSetMultiple_of_le hsize (Nat.succ_le_of_lt hlt)
  simp [pallocFreePage, hset, fill_one, hused]

theorem pallocGetPage_cases
    (hsize : usedMap.bitCnt < sizeTSize) (hr : pallocGetPage usedMap = some r) :
    r.1.bitCnt = usedMap.bitCnt ∧
      (∀ {page}, usedMap.bits page = true → r.1.bits page = true) ∧
      ∀ {page}, r.2 = some page →
        page < usedMap.bitCnt ∧ usedMap.bits page = false ∧ r.1.bits page = true := by
  rcases pallocGetPage_spec hsize with ⟨page, hget, hlt, hfree⟩ | ⟨hget, -⟩
  · cases hget.symm.trans hr
    refine ⟨rfl, fun {page'} hset => ?_, fun {page'} heq => ?_⟩
    · simp only [update_apply]
      split
      · rfl
      · exact hset
    · cases heq
      exact ⟨hlt, hfree, update_self ..⟩
  · cases hget.symm.trans hr
    exact ⟨rfl, fun hset => hset, nofun⟩

theorem MemInv.assign (h : MemInv m frames) (hf : f ∉ frames) (owner : τ) (upage : Nat)
    (hr : pallocGetPage m.usedMap = some r) :
    MemInv { m with
      upage := update m.upage f upage
      ownerThread := update m.ownerThread f owner
      kpage := update m.kpage f r.2
      mallocd := update m.mallocd f true
      usedMap := r.1 } frames := by
  have hne : ∀ {g}, g ∈ frames → g ≠ f := fun hg heq => hf (heq ▸ hg)
  obtain ⟨hcnt, hkept, hnew⟩ := pallocGetPage_cases h.size hr
  have howns : ∀ {g page}, Owns { m with
      upage := update m.upage f upage
      ownerThread := update m.ownerThread f owner
      kpage := update m.kpage f r.2
      mallocd := update m.mallocd f true
      usedMap := r.1 } g page → (g = f ∧ r.2 = some page) ∨ Owns m g page := by
    intro g page hg
    by_cases hgf : g = f
    · subst hgf
      exact .inl ⟨rfl, by simpa using hg.2⟩
    · exact .inr (by simpa [Owns, hgf] using hg)
  constructor
  case size => exact hcnt ▸ h.size
  case table => exact h.table.congr rfl rfl
  case mallocd => intro g hg; simp [hne hg, h.mallocd hg]
  case kpage => intro g hg; simp [hne hg, h.kpage hg]
  case used =>
    intro g page hg
    rw [hcnt]
    rcases howns hg with ⟨-, hpage⟩ | hold
    · exact ⟨(hnew hpage).1, (hnew hpage).2.2⟩
    · exact ⟨(h.used hold).1, hkept (h.used hold).2⟩
  case distinct =>
    -- the new page was free, and the pages of other frames were not
    have hother : ∀ {g page}, r.2 = some page → ¬ Owns m g page := by
      intro g page hpage hg
      have hused := (h.used hg).2
      rw [(hnew hpage).2.1] at hused
      contradiction
    intro g g' page hg hg'
    rcases howns hg with ⟨rfl, hpage⟩ | hold
    · rcases howns hg' with ⟨rfl, -⟩ | hold'
      · rfl
      · exact absurd hold' (hother hpage)
    · rcases howns hg' with ⟨-, hpage⟩ | hold'
      · exact absurd hold (hother hpage)
      · exact h.distinct hold hold'
  case backed =>
    intro t pd e hpd he
    obtain ⟨g, hg, hback⟩ := h.backed hpd he
    refine ⟨g, hg, ?_⟩
    simp only [update_of_ne (hne hg)]
    exact hback
  case freedOnce => exact h.freedOnce

theorem MemInv.push (h : MemInv m frames) (hf : f ∉ frames) (hmalloc : m.mallocd f = true)
    (hkpage : (m.kpage f).isSome = true) :
    ∃ heap, listPushBack m.heap .tail (.frame f) = some heap ∧
      MemInv { m with heap := heap, created := update m.created f true }
        (frames ++ [f]) := by
  obtain ⟨heap, hpush, htable⟩ := h.table.pushBack hf
  refine ⟨heap, hpush, ?_⟩
  refine { h with
    table := htable
    mallocd := fun hg => ?_
    kpage := fun hg => ?_
    backed := fun hpd he => ?_ }
  · rcases mem_append.mp hg with hg | hg
    · exact h.mallocd hg
    · rwa [mem_singleton.mp hg]
  · rcases mem_append.mp hg with hg | hg
    · exact h.kpage hg
    · rwa [mem_singleton.mp hg]
  · obtain ⟨g, hg, hback⟩ := h.backed hpd he
    exact ⟨g, mem_append_left _ hg, hback⟩

/-- What `frame_delete` leaves as it is. -/
structure Deleted (m m' : FrameMem τ φ) (f : φ) : Prop where
  ownerThread : m'.ownerThread = m.ownerThread
  upage : m'.upage = m.upage
  kpage : m'.kpage = m.kpage
  mallocd : ∀ {g}, g ≠ f → m'.mallocd g = m.mallocd g
  pagedir : ∀ {t}, (m.pagedir t).isSome = true → (m'.pagedir t).isSome = true

/-- **`frame_delete` of an entry of the table.** -/
theorem MemInv.delete {before after : List φ} (h : MemInv m (before ++ f :: after))
    (hspace : (m.pagedir (m.ownerThread f)).isSome = true) :
    ∃ m', frameDelete m f = some m' ∧ MemInv m' (before ++ after) ∧ Deleted m m' f := by
  have hf : f ∈ before ++ f :: after := by simp
  obtain ⟨page, hpage⟩ := isSome_iff_exists.mp (h.kpage hf)
  obtain ⟨pd, hpd⟩ := isSome_iff_exists.mp hspace
  obtain ⟨hlt, hused⟩ := h.used ⟨h.mallocd hf, hpage⟩
  obtain ⟨table, hdelete, htable⟩ := h.table.delete before
  obtain ⟨r, hremove, rfl⟩ := map_eq_some_iff.mp hdelete
  have hmem : ∀ {g}, g ∈ before ++ f :: after → g ≠ f → g ∈ before ++ after := by
    intro g hg hne
    simpa [hne] using hg
  have hsub : ∀ {g}, g ∈ before ++ after → g ∈ before ++ f :: after ∧ g ≠ f := by
    intro g hg
    have hnd := h.table.nodup
    grind
  let pd' := pagedirClearPage pd (m.upage f)
  let m' : FrameMem τ φ := { m with
    heap := r.1
    created := update m.created f false
    usedMap := { m.usedMap with bits := update m.usedMap.bits page false }
    pagedir := update m.pagedir (m.ownerThread f) (some pd')
    mallocd := update m.mallocd f false }
  have howns : ∀ {g page'}, Owns m' g page' → g ≠ f ∧ Owns m g page' := by
    intro g page' hg
    have hne : g ≠ f := by
      rintro rfl
      exact absurd hg.1 (by simp [m'])
    exact ⟨hne, by simpa [Owns, m', hne] using hg⟩
  refine ⟨m', ?_, ?_, ⟨rfl, rfl, rfl, fun hne => update_of_ne hne _ _, fun {t} ht => ?_⟩⟩
  · have hfree : pallocFreePage { m with
        pagedir := update m.pagedir (m.ownerThread f) (some pd') } (some page) = some _ :=
      pallocFreePage_used h.size hlt hused
    rw [frameDelete, hpd, bind_some, hpage, hfree, bind_some, FrameTable.frameDelete,
      hremove]
    rfl
  · constructor
    case size => exact h.size
    case table => exact htable
    case mallocd =>
      intro g hg
      rw [show m'.mallocd g = m.mallocd g from update_of_ne (hsub hg).2 _ _]
      exact h.mallocd (hsub hg).1
    case kpage => exact fun hg => h.kpage (hsub hg).1
    case used =>
      intro g page' hg
      obtain ⟨hne, hold⟩ := howns hg
      have hpages : page' ≠ page := by
        rintro rfl
        exact hne (h.distinct hold ⟨h.mallocd hf, hpage⟩)
      refine ⟨(h.used hold).1, ?_⟩
      rw [show m'.usedMap.bits page' = m.usedMap.bits page' from update_of_ne hpages _ _]
      exact (h.used hold).2
    case distinct => exact fun hg hg' => h.distinct (howns hg).2 (howns hg').2
    case backed =>
      intro t pd₁ e hpd₁ he
      change update m.pagedir (m.ownerThread f) (some pd') t = some pd₁ at hpd₁
      by_cases ht : t = m.ownerThread f
      · -- the entry that `f` was mapped by is gone
        rw [ht, update_self] at hpd₁
        cases hpd₁
        obtain ⟨hold, hup⟩ := mem_filter.mp he
        obtain ⟨g, hg, howner, hgup, hk⟩ := h.backed hpd hold
        refine ⟨g, hmem hg ?_, howner.trans ht.symm, hgup, hk⟩
        rintro rfl
        exact absurd hgup.symm (by simpa using hup)
      · rw [update_of_ne ht] at hpd₁
        obtain ⟨g, hg, howner, hback⟩ := h.backed hpd₁ he
        refine ⟨g, hmem hg ?_, howner, hback⟩
        rintro rfl
        exact ht howner.symm
    case freedOnce => exact h.freedOnce
  · change (update m.pagedir (m.ownerThread f) (some pd') t).isSome = true
    rw [update_apply]
    split
    · rfl
    · exact ht

/-- Nothing that the frames are about has changed, but for the page directories. -/
structure Kept (m m' : FrameMem τ φ) : Prop where
  ownerThread : m'.ownerThread = m.ownerThread
  upage : m'.upage = m.upage
  kpage : m'.kpage = m.kpage
  mallocd : m'.mallocd = m.mallocd
  pagedir : ∀ {t}, (m.pagedir t).isSome = true → (m'.pagedir t).isSome = true

theorem MemInv.install {w table : Bool} {r : FrameMem τ φ × Bool} (h : MemInv m frames)
    (hf : f ∈ frames) (howner : m.ownerThread f = t) (hup : m.upage f = upage)
    (hr : installPage m t upage (m.kpage f) w table = some r) : MemInv r.1 frames ∧ Kept m r.1 := by
  rcases installPage_cases hr with rfl | ⟨pd, page, hpd, hpage, -, rfl⟩
  · exact ⟨h, rfl, rfl, rfl, rfl, id⟩
  · refine ⟨{ h with backed := fun {u pd' e} hpd' he => ?_ }, rfl, rfl, rfl, rfl, fun {u} hu => ?_⟩
    · change update m.pagedir t _ u = some pd' at hpd'
      by_cases hu : u = t
      · subst hu
        rw [update_self] at hpd'
        cases hpd'
        rcases mem_cons.mp he with rfl | he
        · exact ⟨f, hf, howner, hup, hpage⟩
        · exact h.backed hpd he
      · rw [update_of_ne hu] at hpd'
        exact h.backed hpd' he
    · change (update m.pagedir t _ u).isSome = true
      rw [update_apply]
      split
      · rfl
      · exact hu

theorem MemInv.clear {pd' : List Pte} (h : MemInv m frames) (hpd : m.pagedir t = some pd)
    (hsub : pd' ⊆ pd) :
    MemInv { m with pagedir := update m.pagedir t (some pd') } frames := by
  refine { h with backed := fun {u pd₁ e} hpd₁ he => ?_ }
  change update m.pagedir t _ u = some pd₁ at hpd₁
  by_cases hu : u = t
  · subst hu
    rw [update_self] at hpd₁
    cases hpd₁
    exact h.backed hpd (hsub he)
  · rw [update_of_ne hu] at hpd₁
    exact h.backed hpd₁ he

theorem isSome_update_pagedir {u : τ} (hu : (m.pagedir u).isSome = true) :
    (update m.pagedir t (some pd) u).isSome = true := by
  rw [update_apply]
  split
  · rfl
  · exact hu

theorem MemInv.rearrange {ft : FrameSys φ τ} (h : MemInv m frames)
    (ht : FrameTable.Table ft frames') (hsame : FrameTable.Rearranged m.toFrameSys ft) :
    MemInv { m with toFrameSys := ft } frames' ∧ ∀ {f}, f ∈ frames' ↔ f ∈ frames := by
  have hmem : ∀ {f}, f ∈ frames' ↔ f ∈ frames := by
    intro f
    rw [ht.mem, hsame.created, h.table.mem]
  refine ⟨?_, hmem⟩
  refine { h with
    table := ht
    mallocd := fun hf => h.mallocd (hmem.mp hf)
    kpage := fun hf => h.kpage (hmem.mp hf)
    backed := fun hpd he => ?_ }
  obtain ⟨f, hf, hback⟩ := h.backed hpd he
  refine ⟨f, hmem.mpr hf, ?_⟩
  rwa [hsame.ownerThread, hsame.upage]

end Pintos.Frames
