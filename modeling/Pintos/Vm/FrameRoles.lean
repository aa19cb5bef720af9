import Pintos.Vm.FrameOwner

/-!
# Pintos.Vm.FrameRoles

What each thread may rely on while the others run.

The frame that a thread is creating is not in the table; the frame that it is about to
map or to delete is in the table and is not being evicted; the loop of `exit` has left
no frame of its thread behind.  Every step of an orderly run keeps this and the
invariant of the memory, and so in every state of such a run the frames have their
owners.
-/

namespace Pintos.Frames

set_option linter.unusedSectionVars false

open FrameTable (TableNode FrameSys)
open Function List Option

variable {τ φ : Type*} [DecidableEq τ] [DecidableEq φ] {m n : FrameMem τ φ}
  {s s' : FramesSys τ φ} {frames frames' : List φ} {f g v : φ} {t u : τ} {b : Base} {c : Caller}
  {p : Pc φ} {upage : Nat} {pc : Pc φ} {before after : List φ}
  {malloc table notPresent nearStack inSyscall : Bool} {faultAddr : Nat}

/-! ## the threads -/

/-- Where a traversal of the list begins. -/
def firstOf : List φ → TableNode φ
  | [] => .tail
  | f :: _ => .frame f

/-- What holds of a thread. -/
structure Role (s : FramesSys τ φ) (frames : List φ) (t : τ) : Prop where
  space : (s.pc t).alive = true → (s.pagedir t).isSome = true
  bare : (s.pc t).alive = false → ∀ f ∈ frames, s.ownerThread f ≠ t
  fresh : ∀ {f}, (s.pc t).fresh = some f →
    s.mallocd f = true ∧ f ∉ frames ∧ s.ownerThread f = t
  paged : ∀ {f}, (s.pc t).paged = some f → (s.kpage f).isSome = true
  hands : ∀ {f}, (s.pc t).hands = some f →
    f ∈ frames ∧ s.ownerThread f = t ∧ s.victim ≠ some f
  place : ∀ {f upage}, (s.pc t).place = some (f, upage) → s.upage f = upage
  victim : ∀ {v}, (s.pc t).victim = some v →
    s.evictionLock = some t ∧ v ∈ frames ∧ (s.pc (s.ownerThread v)).sweep = none
  sweep : ∀ {e}, (s.pc t).sweep = some e → ∃ before after, frames = before ++ after ∧
    e = some (firstOf after) ∧ ∀ f ∈ before, s.ownerThread f ≠ t

/-- A place without a role. -/
def Pc.plain : Pc φ → Bool
  | .unborn | .base _ | .wanting .. | .swapping .. | .exited | .dead => true
  | _ => false

theorem Pc.roles_of_plain (h : pc.plain = true) :
    pc.fresh = none ∧ pc.paged = none ∧ pc.hands = none ∧ pc.place = none ∧ pc.victim = none ∧
      pc.sweep = none := by
  cases pc <;> first | contradiction | exact ⟨rfl, rfl, rfl, rfl, rfl, rfl⟩

theorem Pc.of_place (h : pc.place = some (f, upage)) :
    pc.fresh = some f ∨ pc.hands = some f := by
  cases pc with
  | full b c g | copying b c g v | evicted b c g | pushing b c g =>
    cases h
    exact .inl rfl
  | created b c g =>
    cases h
    exact .inr rfl
  | _ => contradiction

theorem Role.of_plain (hplain : (s.pc t).plain = true)
    (hspace : (s.pc t).alive = true → (s.pagedir t).isSome = true)
    (hbare : (s.pc t).alive = false → ∀ f ∈ frames, s.ownerThread f ≠ t) : Role s frames t := by
  obtain ⟨hfresh, hpaged, hhands, hplace, hvictim, hsweep⟩ := Pc.roles_of_plain hplain
  constructor
  case space => exact hspace
  case bare => exact hbare
  all_goals
    simp only [hfresh, hpaged, hhands, hplace, hvictim, hsweep]
    nofun

/-- A thread gets to a place without a role. -/
theorem Role.setPc_plain (hplain : p.plain = true)
    (hspace : p.alive = true → (s.pagedir t).isSome = true)
    (hbare : p.alive = false → ∀ f ∈ frames, s.ownerThread f ≠ t) :
    Role (s.setPc t p) frames t := by
  have hpc : (s.setPc t p).pc t = p := update_self ..
  refine .of_plain ?_ ?_ ?_ <;> rw [hpc]
  · exact hplain
  · exact hspace
  · exact hbare

theorem Role.victim_eq (h : Role s frames t) (hv : (s.pc t).victim = some v) :
    s.victim = some v := by
  rw [FramesSys.victim, (h.victim hv).1, bind_some, hv]

/-- The frame that is being evicted when a thread moves on that is not evicting. -/
theorem FramesSys.victim_setPc (hp : p.victim = none) (hv : (s.setPc t p).victim = some v) :
    s.victim = some v := by
  obtain ⟨u, hlock, hv⟩ := bind_eq_some_iff.mp hv
  change (update s.pc t p u).victim = some v at hv
  rw [update_apply] at hv
  split at hv
  · cases hp.symm.trans hv
  · exact bind_eq_some_iff.mpr ⟨u, hlock, hv⟩

section

variable (h : Role s frames u)
include h

/-- A thread looks at its own place only, except for the frame that is being evicted. -/
theorem Role.congr (hmem : s'.toFrameMem = s.toFrameMem)
    (hpc : s'.pc u = s.pc u)
    (hhands : ∀ {f}, (s.pc u).hands = some f → s.victim ≠ some f → s'.victim ≠ some f)
    (hvictim : ∀ {v}, (s.pc u).victim = some v → s.evictionLock = some u →
      (s.pc (s.ownerThread v)).sweep = none →
      s'.evictionLock = some u ∧ (s'.pc (s.ownerThread v)).sweep = none) : Role s' frames u := by
  constructor <;> rw [hpc, hmem]
  case space => exact h.space
  case bare => exact h.bare
  case fresh => exact h.fresh
  case paged => exact h.paged
  case hands =>
    intro f hf
    obtain ⟨hf', howner, hne⟩ := h.hands hf
    exact ⟨hf', howner, hhands hf hne⟩
  case place => exact h.place
  case victim =>
    intro v hv
    obtain ⟨hlock, hv', hnone⟩ := h.victim hv
    obtain ⟨hlock', hnone'⟩ := hvictim hv hlock hnone
    exact ⟨hlock', hv', hnone'⟩
  case sweep => exact h.sweep

theorem Role.other (hu : u ≠ t) (hvictim : p.victim = none)
    (hsweep : p.sweep = none ∨ ∀ v ∈ s.victim, s.ownerThread v ≠ t) :
    Role (s.setPc t p) frames u := by
  refine h.congr rfl (update_of_ne hu _ _)
    (fun _ hne heq => hne (FramesSys.victim_setPc hvictim heq)) fun {v} hv hlock hnone => ⟨hlock, ?_⟩
  change (update s.pc t p (s.ownerThread v)).sweep = none
  by_cases howner : s.ownerThread v = t
  · rw [howner, update_self]
    exact hsweep.resolve_right fun hall => hall v (h.victim_eq hv) howner
  · rwa [update_of_ne howner]

theorem Role.mem
    (hspace : (s.pagedir u).isSome = true → (n.pagedir u).isSome = true)
    (hbare : ∀ {f}, f ∈ frames' → n.ownerThread f = u → f ∈ frames ∧ s.ownerThread f = u)
    (hfresh : ∀ {f}, s.mallocd f = true → f ∉ frames → s.ownerThread f = u →
      n.mallocd f = true ∧ f ∉ frames' ∧ n.ownerThread f = u ∧ n.kpage f = s.kpage f ∧
        n.upage f = s.upage f)
    (hkept : ∀ {f}, f ∈ frames → (s.pc u).hands = some f ∨ (s.pc u).victim = some f →
      f ∈ frames' ∧ n.ownerThread f = s.ownerThread f ∧ n.upage f = s.upage f)
    (hsweep : ∀ {e}, (s.pc u).sweep = some e → ∃ before after, frames' = before ++ after ∧
      e = some (firstOf after) ∧ ∀ f ∈ before, n.ownerThread f ≠ u) :
    Role { s with toFrameMem := n } frames' u := by
  constructor
  case space => exact fun halive => hspace (h.space halive)
  case bare =>
    intro halive f hf howner
    obtain ⟨hmem, howner⟩ := hbare hf howner
    exact h.bare halive f hmem howner
  case fresh =>
    intro f hf
    obtain ⟨hmalloc, hmem, howner⟩ := h.fresh hf
    obtain ⟨hmalloc', hmem', howner', -⟩ := hfresh hmalloc hmem howner
    exact ⟨hmalloc', hmem', howner'⟩
  case paged =>
    intro f hf
    have hf' : (s.pc u).fresh = some f := by
      change (s.pc u).paged = some f at hf
      cases hpc : s.pc u with
      | pushing b c g =>
        rw [hpc] at hf
        exact hf
      | _ =>
        rw [hpc] at hf
        contradiction
    obtain ⟨hmalloc, hmem, howner⟩ := h.fresh hf'
    rw [(hfresh hmalloc hmem howner).2.2.2.1]
    exact h.paged hf
  case hands =>
    intro f hf
    obtain ⟨hmem, howner, hne⟩ := h.hands hf
    obtain ⟨hmem', howner', -⟩ := hkept hmem (.inl hf)
    exact ⟨hmem', howner'.trans howner, hne⟩
  case place =>
    intro f upage hplace
    change n.upage f = upage
    rcases Pc.of_place hplace with hf | hf
    · obtain ⟨hmalloc, hmem, howner⟩ := h.fresh hf
      rw [(hfresh hmalloc hmem howner).2.2.2.2]
      exact h.place hplace
    · rw [(hkept (h.hands hf).1 (.inl hf)).2.2]
      exact h.place hplace
  case victim =>
    intro v hv
    obtain ⟨hlock, hmem, hnone⟩ := h.victim hv
    obtain ⟨hmem', howner', -⟩ := hkept hmem (.inr hv)
    refine ⟨hlock, hmem', ?_⟩
    rwa [howner']
  case sweep => exact hsweep

omit h in
theorem Role.delete (h : Role s (before ++ g :: after) u)
    (hd : Deleted s.toFrameMem n g) (hhands : (s.pc u).hands ≠ some g)
    (hvictim : (s.pc u).victim ≠ some g) (hsweep : (s.pc u).sweep = none) :
    Role { s with toFrameMem := n } (before ++ after) u := by
  refine h.mem hd.pagedir (fun {f} hf howner => ?_) (fun {f} hmalloc hf howner => ?_)
    (fun {f} hf hrole => ?_) fun {e} he => absurd (hsweep.symm.trans he) nofun
  · rw [hd.ownerThread] at howner
    refine ⟨?_, howner⟩
    simp only [mem_append, mem_cons] at hf ⊢
    exact hf.imp_right .inr
  · have hne : f ≠ g := by
      rintro rfl
      exact hf (by simp)
    rw [hd.ownerThread, hd.kpage, hd.upage, hd.mallocd hne]
    refine ⟨hmalloc, fun hmem => hf ?_, howner, rfl, rfl⟩
    simp only [mem_append, mem_cons] at hmem ⊢
    exact hmem.imp_right .inr
  · have hne : f ≠ g := by
      rintro rfl
      exact hrole.elim hhands hvictim
    rw [hd.ownerThread, hd.upage]
    refine ⟨?_, rfl, rfl⟩
    simpa [hne] using hf

/-- The page directories change, and the order of the table. -/
theorem Role.kept (hk : Kept s.toFrameMem n)
    (hmem : ∀ {f}, f ∈ frames' ↔ f ∈ frames) (hsweep : frames' = frames ∨ (s.pc u).sweep = none) :
    Role { s with toFrameMem := n } frames' u := by
  refine h.mem hk.pagedir (fun {f} hf howner => ?_) (fun {f} hmalloc hf howner => ?_)
    (fun {f} hf _ => ?_) fun {e} he => ?_
  · rw [hk.ownerThread] at howner
    exact ⟨hmem.mp hf, howner⟩
  · rw [hk.ownerThread, hk.kpage, hk.mallocd, hk.upage]
    exact ⟨hmalloc, fun hf' => hf (hmem.mp hf'), howner, rfl, rfl⟩
  · rw [hk.ownerThread, hk.upage]
    exact ⟨hmem.mpr hf, rfl, rfl⟩
  · rcases hsweep with rfl | hnone
    · rw [hk.ownerThread]
      exact h.sweep he
    · cases hnone.symm.trans he

theorem Role.lock (hu : u ≠ t) (hlock : s.evictionLock = none)
    (hhands : ∀ {f}, (s.pc u).hands = some f → p.victim ≠ some f) :
    Role ({ s with evictionLock := some t }.setPc t p) frames u := by
  have hvictim : ({ s with evictionLock := some t }.setPc t p).victim = p.victim := by
    change (update s.pc t p t).victim = p.victim
    rw [update_self]
  refine h.congr rfl (update_of_ne hu _ _) (fun hf _ => ?_) fun hv hlock' _ => ?_
  · rw [hvictim]
    exact hhands hf
  · cases hlock'.symm.trans hlock

theorem Role.unlock (hu : u ≠ t) (hlock : s.evictionLock = some t) :
    Role ({ s with evictionLock := none }.setPc t p) frames u := by
  refine h.congr rfl (update_of_ne hu _ _) (fun _ _ => nofun) fun hv hlock' _ => ?_
  rw [hlock'] at hlock
  exact absurd (some.inj hlock) hu

end

/-! ## the steps -/

/-- The invariant. -/
structure Inv (s : FramesSys τ φ) (frames : List φ) : Prop where
  mem : MemInv s.toFrameMem frames
  role : ∀ t, Role s frames t

section

variable (h : Inv s frames)
include h

theorem Inv.congr (hmem : s'.toFrameMem = s.toFrameMem) (hpc : s'.pc = s.pc)
    (hlock : s'.evictionLock = s.evictionLock) : Inv s' frames := by
  have hvictim : s'.victim = s.victim := by rw [FramesSys.victim, FramesSys.victim, hpc, hlock]
  refine ⟨hmem ▸ h.mem, fun t => (h.role t).congr hmem (congrFun hpc t) (fun _ hne => ?_)
    fun _ ht hnone => ?_⟩
  · rwa [hvictim]
  · rw [hpc, hlock]
    exact ⟨ht, hnone⟩

/-- A thread gets to a place without a role, and its page directory may change. -/
theorem Inv.move (hmem : MemInv n frames) (hk : Kept s.toFrameMem n)
    (hplain : p.plain = true) (hspace : p.alive = true → (n.pagedir t).isSome = true)
    (hbare : p.alive = false → ∀ f ∈ frames, s.ownerThread f ≠ t) :
    Inv ({ s with toFrameMem := n }.setPc t p) frames := by
  obtain ⟨-, -, -, -, hvictim, hsweep⟩ := Pc.roles_of_plain hplain
  refine ⟨hmem, fun u => ?_⟩
  by_cases hu : u = t
  · subst hu
    refine .setPc_plain hplain hspace ?_
    dsimp only
    rwa [hk.ownerThread]
  · exact ((h.role u).kept hk Iff.rfl (.inl rfl)).other hu hvictim (.inl hsweep)

omit h in
theorem Kept.refl (m : FrameMem τ φ) : Kept m m := ⟨rfl, rfl, rfl, rfl, id⟩

theorem Inv.setPc (halive : (s.pc t).alive = true) (hplain : p.plain = true)
    (hbare : p.alive = false → ∀ f ∈ frames, s.ownerThread f ≠ t) : Inv (s.setPc t p) frames :=
  h.move h.mem (.refl _) hplain (fun _ => (h.role t).space halive) hbare

theorem Inv.exit (halive : (s.pc t).alive = true) : Inv (s.exit t) frames :=
  h.setPc halive rfl nofun

theorem Inv.bare (hb : Bare s t) : ∀ f ∈ frames, s.ownerThread f ≠ t :=
  fun f hf => hb f (h.mem.table.mem.mp hf)

theorem Inv.space (hf : f ∈ frames) : (s.pagedir (s.ownerThread f)).isSome = true := by
  refine (h.role _).space (Bool.of_not_eq_false fun hdead => ?_)
  exact (h.role _).bare hdead f hf rfl

theorem Inv.start {pagedirCreate : Bool}
    (hs : framesStep s (.start t pagedirCreate) = some s') : Inv s' frames := by
  simp only [framesStep] at hs
  split at hs
  · next hpc =>
    have hdead : (s.pc t).alive = false := by rw [hpc]; rfl
    have hbare := (h.role t).bare hdead
    split at hs
    · cases hs
      refine h.move ?_ ⟨rfl, rfl, rfl, rfl, isSome_update_pagedir⟩ rfl ?_ nofun
      · refine { h.mem with backed := fun {u pd e} hpd he => ?_ }
        change update s.pagedir t _ u = some pd at hpd
        by_cases hu : u = t
        · rw [hu, update_self] at hpd
          rw [← some.inj hpd] at he
          contradiction
        · rw [update_of_ne hu] at hpd
          exact h.mem.backed hpd he
      · intro _
        change (update s.pagedir t _ t).isSome = true
        rw [update_self]
        rfl
    · cases hs
      exact h.move h.mem (.refl _) rfl nofun fun _ => hbare
  · contradiction

theorem Inv.createSpage {new : Spage} {shared : Option Nat}
    (hc : Orderly s (.createSpage t new malloc shared table))
    (hs : framesStep s (.createSpage t new malloc shared table) = some s') : Inv s' frames := by
  simp only [framesStep] at hs
  split at hs
  · next b hpc =>
    have halive : (s.pc t).alive = true := by rw [hpc]; rfl
    split at hs
    · obtain ⟨r, hr, rfl⟩ := map_eq_some_iff.mp hs
      rcases createSpage_cases hr with ⟨pages, heq⟩ |
        ⟨-, hwritable, i, sp, pages, hshared, hsp, hkpage, -⟩
      · have hr1 : Inv r.1 frames := by
          rw [heq]
          exact h.congr rfl rfl rfl
        split
        · exact hr1
        · refine hr1.exit ?_
          rw [heq]
          exact halive
      · have hnone := hc.resolve_left (by rw [hwritable]; nofun) i hshared sp hsp
        rw [hnone] at hkpage
        contradiction
    · contradiction
  · contradiction

end

omit [DecidableEq φ] in
/-- The loop of `page_fault` goes on or is left. -/
theorem loadLoop_cases (s : FramesSys τ φ) (t : τ) (b : Base) (spage : Nat) (writable : Bool)
    (readBytes zeroBytes : UInt32) (upage : Nat) :
    ∃ p lock, loadLoop s t b spage writable readBytes zeroBytes upage =
      { s with pageFaultLock := lock }.setPc t p ∧ p.plain = true ∧ p.alive = true := by
  unfold loadLoop
  split
  · exact ⟨_, s.pageFaultLock, rfl, rfl, rfl⟩
  · exact ⟨_, none, rfl, rfl, rfl⟩

/-- `page_fault` moves on, or kills the process. -/
theorem pageFault_cases (hs : pageFault s t b faultAddr notPresent nearStack inSyscall = some s') :
    ∃ swapTable lock p, s' = { s with swapTable := swapTable, pageFaultLock := lock }.setPc t p ∧
      p.plain = true ∧ (p.alive = true ∨ notPresent = false ∧ inSyscall = false) := by
  have hfault : ∀ {s₁ : FramesSys τ φ} {upage : Nat}, (∃ swapTable, s₁ = { s with swapTable := swapTable }) →
      faultInPage s₁ t b upage notPresent nearStack inSyscall = some s' →
      ∃ swapTable lock p, s' = { s with swapTable := swapTable, pageFaultLock := lock }.setPc t p ∧
        p.plain = true ∧ (p.alive = true ∨ notPresent = false ∧ inSyscall = false) := by
    rintro s₁ upage ⟨swapTable, rfl⟩ hs
    unfold faultInPage at hs
    split at hs
    · split at hs <;> cases hs
      · exact ⟨_, _, _, rfl, rfl, .inl rfl⟩
      · exact ⟨_, _, _, rfl, rfl, .inl rfl⟩
    · split at hs
      · obtain ⟨-, rfl⟩ := of_guard hs
        obtain ⟨p, lock, hloop, hplain, halive⟩ := loadLoop_cases _ t b _ _ _ _ _
        exact ⟨_, _, p, hloop, hplain, .inl halive⟩
      · next hpresent =>
        split at hs
        · cases hs
          exact ⟨_, _, _, rfl, rfl, .inl rfl⟩
        · next hsyscall =>
          obtain ⟨-, rfl⟩ := of_guard hs
          exact ⟨_, _, _, rfl, rfl,
            .inr ⟨Bool.eq_false_iff.mpr hpresent, Bool.eq_false_iff.mpr hsyscall⟩⟩
  unfold pageFault at hs
  simp only at hs
  split at hs
  · cases hs
    exact ⟨_, _, _, rfl, rfl, .inl rfl⟩
  · split at hs
    · obtain ⟨pd, -, hs⟩ := bind_eq_some_iff.mp hs
      split at hs
      · cases hs
        exact ⟨_, _, _, rfl, rfl, .inl rfl⟩
      · exact hfault ⟨_, rfl⟩ hs
    · exact hfault ⟨_, rfl⟩ hs

section

variable (h : Inv s frames) {ft : FrameSys φ τ} {fuel : Nat} {w : Bool} {kpage : Option Nat}
include h

theorem Inv.fault (hc : Orderly s (.fault t faultAddr notPresent nearStack inSyscall))
    (hs : framesStep s (.fault t faultAddr notPresent nearStack inSyscall) = some s') :
    Inv s' frames := by
  simp only [framesStep] at hs
  split at hs
  · next b hpc =>
    have halive : (s.pc t).alive = true := by rw [hpc]; rfl
    split at hs
    · contradiction
    · obtain ⟨swapTable, lock, p, rfl, hplain, hkill⟩ := pageFault_cases hs
      have hs₁ : Inv { s with swapTable := swapTable, pageFaultLock := lock } frames :=
        h.congr rfl rfl rfl
      refine hs₁.setPc halive hplain fun hdead => ?_
      rcases hkill with halive' | ⟨hpresent, hsyscall⟩
      · cases halive'.symm.trans hdead
      · rcases hc with hc | hc | hc
        · cases hpresent.symm.trans hc
        · cases hsyscall.symm.trans hc
        · exact h.bare hc
  · contradiction

omit h in
theorem Role.assign {r : Option Nat} (h : Role s frames u) (hu : u ≠ t) (hf : f ∉ frames)
    (hfresh : s.mallocd f = false ∨ s.ownerThread f = t) (upage : Nat) (usedMap : Bitmap) :
    Role { s with
      upage := update s.upage f upage
      ownerThread := update s.ownerThread f t
      kpage := update s.kpage f r
      mallocd := update s.mallocd f true
      usedMap := usedMap } frames u := by
  have hne : ∀ {g}, g ∈ frames → g ≠ f := fun hg heq => hf (heq ▸ hg)
  refine h.mem id (fun {g} hg howner => ?_) (fun {g} hmalloc hg howner => ?_)
    (fun {g} hg _ => ⟨hg, update_of_ne (hne hg) _ _, update_of_ne (hne hg) _ _⟩)
    fun {e} he => ?_
  · simp only [update_of_ne (hne hg)] at howner
    exact ⟨hg, howner⟩
  · have hgf : g ≠ f := by
      rintro rfl
      rcases hfresh with hfresh | hfresh
      · cases hfresh.symm.trans hmalloc
      · exact hu (howner.symm.trans hfresh)
    refine ⟨?_, hg, ?_, update_of_ne hgf _ _, update_of_ne hgf _ _⟩
    · change update s.mallocd f true g = true
      rw [update_of_ne hgf]
      exact hmalloc
    · change update s.ownerThread f t g = u
      rw [update_of_ne hgf]
      exact howner
  · obtain ⟨before, after, hframes, hfirst, hbefore⟩ := h.sweep he
    refine ⟨before, after, hframes, hfirst, fun g hg => ?_⟩
    have hgf : g ≠ f := hne (hframes ▸ mem_append_left _ hg)
    change update s.ownerThread f t g ≠ u
    rw [update_of_ne hgf]
    exact hbefore g hg

omit h in
theorem Role.of_fresh
    (hpc : s.pc t = .full b c f ∨ s.pc t = .evicted b c f ∨
      s.pc t = .pushing b c f ∧ (s.kpage f).isSome = true)
    (hspace : (s.pagedir t).isSome = true) (hmalloc : s.mallocd f = true) (hf : f ∉ frames)
    (howner : s.ownerThread f = t) (hup : s.upage f = c.upage) : Role s frames t := by
  have hroles : (s.pc t).alive = true ∧ (s.pc t).fresh = some f ∧ (s.pc t).hands = none ∧
      (s.pc t).place = some (f, c.upage) ∧ (s.pc t).victim = none ∧ (s.pc t).sweep = none := by
    rcases hpc with hpc | hpc | ⟨hpc, -⟩ <;> rw [hpc] <;> exact ⟨rfl, rfl, rfl, rfl, rfl, rfl⟩
  obtain ⟨halive, hfresh, hhands, hplace, hvictim, hsweep⟩ := hroles
  constructor <;> try simp only [halive, hfresh, hhands, hplace, hvictim, hsweep]
  case space => exact fun _ => hspace
  case fresh =>
    intro g hg
    cases hg
    exact ⟨hmalloc, hf, howner⟩
  case paged =>
    intro g hg
    rcases hpc with hpc | hpc | ⟨hpc, hpage⟩ <;> rw [hpc] at hg
    · contradiction
    · contradiction
    · cases hg
      exact hpage
  case place =>
    intro g upage hg
    cases hg
    exact hup
  all_goals nofun

theorem Inv.frameCreate {o : Option φ}
    (hs : framesStep s (.frameCreate t o) = some s') : Inv s' frames := by
  simp only [framesStep] at hs
  split at hs
  · next b c hpc =>
    have halive : (s.pc t).alive = true := by rw [hpc]; rfl
    cases o with
    | none =>
      cases hs
      exact h.exit halive
    | some f =>
      simp only [Frames.frameCreate] at hs
      split at hs
      · contradiction
      · next hmalloc =>
        have hmalloc : s.mallocd f = false := Bool.eq_false_iff.mpr hmalloc
        obtain ⟨r, hr, rfl⟩ := map_eq_some_iff.mp hs
        have hf : f ∉ frames := fun hmem => by
          rw [h.mem.mallocd hmem] at hmalloc
          contradiction
        refine ⟨h.mem.assign hf t c.upage hr, fun u => ?_⟩
        by_cases hu : u = t
        · subst hu
          refine .of_fresh (b := b) (c := c) ?_ ((h.role u).space halive)
            (update_self f true s.mallocd) hf
            (update_self f u s.ownerThread)
            (update_self f c.upage s.upage)
          change update s.pc u _ u = _ ∨ update s.pc u _ u = _ ∨
            update s.pc u _ u = _ ∧ (update s.kpage f r.2 f).isSome = true
          rw [update_self, update_self]
          cases hpage : r.2 with
          | none => exact .inl rfl
          | some page => exact .inr (.inr ⟨rfl, rfl⟩)
        · have hrole := (h.role u).assign (r := r.2) hu hf (.inl hmalloc) c.upage r.1
          refine hrole.other hu ?_ ?_
          · split <;> rfl
          · refine .inl ?_
            split <;> rfl
  · contradiction

/-! ### eviction -/

/-- The table is rearranged by the thread that takes `eviction_lock`. -/
theorem Inv.lock (ht : FrameTable.Table ft frames')
    (hsame : FrameTable.Rearranged s.toFrameSys ft) (hlock : s.evictionLock = none)
    (hsweep : ∀ u, (s.pc u).sweep = none)
    (hhands : ∀ {u f}, (s.pc u).hands = some f → p.victim ≠ some f)
    (hrole : (∀ {f}, f ∈ frames' ↔ f ∈ frames) →
      Role ({ s with toFrameSys := ft, evictionLock := some t }.setPc t p) frames' t) :
    Inv ({ s with toFrameSys := ft, evictionLock := some t }.setPc t p) frames' := by
  obtain ⟨hmem, hiff⟩ := h.mem.rearrange ht hsame
  refine ⟨hmem, fun u => ?_⟩
  by_cases hu : u = t
  · rw [hu]
    exact hrole hiff
  · have hk : Kept s.toFrameMem { s.toFrameMem with toFrameSys := ft } :=
      ⟨hsame.ownerThread, hsame.upage, rfl, rfl, id⟩
    exact ((h.role u).kept hk hiff (.inr (hsweep u))).lock hu hlock fun hf => hhands hf

theorem Inv.copying (hpc : s.pc t = .full b c f)
    (hsame : FrameTable.Rearranged s.toFrameSys ft) (hsweep : ∀ u, (s.pc u).sweep = none)
    (hv : v ∈ frames) (hiff : ∀ {f}, f ∈ frames' ↔ f ∈ frames) :
    Role ({ s with toFrameSys := ft, evictionLock := some t }.setPc t (.copying b c f v))
      frames' t := by
  have hpc' : ({ s with toFrameSys := ft, evictionLock := some t }.setPc t (.copying b c f v)).pc t =
      .copying b c f v := update_self ..
  obtain ⟨hmalloc, hf, howner⟩ := (h.role t).fresh (by rw [hpc]; rfl)
  constructor <;> rw [hpc']
  case space => exact fun _ => (h.role t).space (by rw [hpc]; rfl)
  case fresh =>
    intro g hg
    cases hg
    refine ⟨hmalloc, fun hmem => hf (hiff.mp hmem), ?_⟩
    change ft.ownerThread f = t
    rw [hsame.ownerThread]
    exact howner
  case place =>
    intro g upage hg
    cases hg
    change ft.upage f = c.upage
    rw [hsame.upage]
    exact (h.role t).place (by rw [hpc]; rfl)
  case victim =>
    intro w hw
    cases hw
    refine ⟨rfl, hiff.mpr hv, ?_⟩
    change (update s.pc t _ (ft.ownerThread v)).sweep = none
    rw [update_apply]
    split
    · rfl
    · exact hsweep _
  all_goals nofun

theorem Inv.frameEvict (hc : Orderly s (.frameEvict t malloc fuel))
    (hs : framesStep s (.frameEvict t malloc fuel) = some s') : ∃ frames', Inv s' frames' := by
  simp only [framesStep] at hs
  split at hs
  · next b c f hpc =>
    obtain ⟨hsome, hhands, halone⟩ := hc
    obtain ⟨v, hv⟩ := isSome_iff_exists.mp hsome
    have halive : (s.pc t).alive = true := by rw [hpc]; rfl
    have hsweep : ∀ u, (s.pc u).sweep = none := by
      intro u
      by_cases hu : u = t
      · rw [hu, hpc]
        rfl
      · exact isNone_iff_eq_none.mp (halone u hu)
    simp only [Frames.frameEvict] at hs
    split at hs
    · contradiction
    · next hlock =>
      have hlock : s.evictionLock = none := by simpa using hlock
      obtain ⟨r, hr, hs⟩ := bind_eq_some_iff.mp hs
      have hclean := h.mem.table.clean_of_candidate hv
      obtain ⟨x, ft₁, frames₁, ft₂, _, _, hget, ht₁, ht₂, -, hloop⟩ := h.mem.table.choose hclean
      cases hget.symm.trans hr
      have hsame := FrameTable.getFrameToEvict_rearranged hr
      split at hs
      · obtain ⟨w, hw, hs⟩ := bind_eq_some_iff.mp hs
        cases hw
        obtain ⟨r', hr', rfl⟩ := map_eq_some_iff.mp hs
        have hsame₂ := hsame.trans (FrameTable.evictLoop_rearranged hr')
        obtain rfl := hloop hr'
        refine ⟨_, h.lock ht₂ hsame₂ hlock hsweep ?_ ?_⟩
        · intro u g hg heq
          cases heq
          refine hhands _ hv ?_
          rwa [((h.role u).hands hg).2.1]
        · intro hiff
          exact h.copying hpc hsame₂ hsweep hclean.mem hiff
      · cases hs
        exact ⟨frames₁, h.lock ht₁ hsame hlock hsweep (fun _ => nofun) fun _ =>
          .setPc_plain rfl (fun _ => (h.role t).space halive) nofun⟩
  · contradiction

theorem Inv.evictFrame (hc : Orderly s (.evictFrame t))
    (hs : framesStep s (.evictFrame t) = some s') : ∃ frames', Inv s' frames' := by
  simp only [framesStep] at hs
  split at hs
  · next b c f v hpc =>
    have hvictim : (s.pc t).victim = some v := by rw [hpc]; rfl
    obtain ⟨hlock, hv, -⟩ := (h.role t).victim hvictim
    obtain ⟨hmalloc, hf, howner⟩ := (h.role t).fresh (by rw [hpc]; rfl)
    obtain ⟨before, after, rfl⟩ := append_of_mem hv
    obtain ⟨n, hn, hmem, hd⟩ := h.mem.delete (h.space hv)
    obtain ⟨n', hn', rfl⟩ := map_eq_some_iff.mp hs
    cases hn.symm.trans hn'
    refine ⟨before ++ after, hmem, fun u => ?_⟩
    by_cases hu : u = t
    · subst hu
      have hne : f ≠ v := fun heq => hf (heq ▸ hv)
      refine .of_fresh (.inr (.inl (update_self ..))) ?_ ?_ ?_ ?_
        ?_
      · exact hd.pagedir ((h.role u).space (by rw [hpc]; rfl))
      · exact (hd.mallocd hne).trans hmalloc
      · intro hmem
        simp only [mem_append, mem_cons] at hf hmem
        exact hf (hmem.imp_right .inr)
      · change n.ownerThread f = u
        rw [hd.ownerThread]
        exact howner
      · change n.upage f = c.upage
        rw [hd.upage]
        exact (h.role u).place (by rw [hpc]; rfl)
    · have hrole := (h.role u).delete hd (fun hhands => ((h.role u).hands hhands).2.2
        ((h.role t).victim_eq hvictim)) (fun hother => hu ?_)
        (isNone_iff_eq_none.mp (hc u hu))
      · exact (hrole.unlock hu hlock).congr rfl rfl (fun _ => id)
          fun _ hlock hnone => ⟨hlock, hnone⟩
      · have hlock' := ((h.role u).victim hother).1
        exact some.inj (hlock'.symm.trans hlock)
  · contradiction

/-! ### a frame with its page -/

theorem Inv.pallocAgain (hc : Orderly s (.pallocAgain t))
    (hs : framesStep s (.pallocAgain t) = some s') : Inv s' frames := by
  simp only [framesStep] at hs
  split at hs
  · next b c f hpc =>
    obtain ⟨hmalloc, hf, howner⟩ := (h.role t).fresh (f := f) (by rw [hpc]; rfl)
    obtain ⟨r, hr, rfl⟩ := map_eq_some_iff.mp hs
    -- the frame keeps its page and owner, so this is an assignment as in the first part
    have hsame : update s.mallocd f true = s.mallocd := by
      rw [← hmalloc, update_eq_self]
    have howner' : update s.ownerThread f t = s.ownerThread := by
      rw [← howner, update_eq_self]
    have hmem := h.mem.assign hf t (s.upage f) hr
    have hrole := fun u (hu : u ≠ t) =>
      (h.role u).assign (r := r.2) hu hf (.inr howner) (s.upage f) r.1
    rw [update_eq_self, hsame, howner'] at hmem
    simp only [update_eq_self, hsame, howner'] at hrole
    refine ⟨hmem, fun u => ?_⟩
    by_cases hu : u = t
    · subst hu
      refine .of_fresh (.inr (.inr ⟨update_self .., ?_⟩))
        ((h.role u).space (by rw [hpc]; rfl)) hmalloc hf howner
        ((h.role u).place (by rw [hpc]; rfl))
      change (update s.kpage f r.2 f).isSome = true
      rw [update_self]
      rcases pallocGetPage_spec h.mem.size with ⟨page, hget, -⟩ | ⟨-, hfull⟩
      · rw [← some.inj (hget.symm.trans hr)]
        rfl
      · obtain ⟨page, hlt, hfree⟩ := hc
        rw [hfull page hlt] at hfree
        contradiction
    · exact (hrole u hu).other hu rfl (.inl rfl)
  · contradiction

omit h in
theorem Role.of_hands
    (hpc : s.pc t = .created b c f ∧ s.upage f = c.upage ∨ s.pc t = .unmapping b f)
    (hspace : (s.pagedir t).isSome = true) (hf : f ∈ frames) (howner : s.ownerThread f = t)
    (hvictim : s.victim ≠ some f) : Role s frames t := by
  have hroles : (s.pc t).alive = true ∧ (s.pc t).fresh = none ∧ (s.pc t).paged = none ∧
      (s.pc t).hands = some f ∧ (s.pc t).victim = none ∧ (s.pc t).sweep = none := by
    rcases hpc with ⟨hpc, -⟩ | hpc <;> rw [hpc] <;> exact ⟨rfl, rfl, rfl, rfl, rfl, rfl⟩
  obtain ⟨halive, hfresh, hpaged, hhands, hnone, hsweep⟩ := hroles
  constructor <;> try simp only [halive, hfresh, hpaged, hhands, hnone, hsweep]
  case space => exact fun _ => hspace
  case hands =>
    intro g hg
    cases hg
    exact ⟨hf, howner, hvictim⟩
  case place =>
    intro g upage hg
    rcases hpc with ⟨hpc, hup⟩ | hpc <;> rw [hpc] at hg
    · cases hg
      exact hup
    · contradiction
  all_goals nofun

/-- What is being evicted is in the table, and its owner is not in the loop of `exit`. -/
theorem Inv.victim (hv : s.victim = some v) :
    v ∈ frames ∧ (s.pc (s.ownerThread v)).sweep = none := by
  obtain ⟨u, -, hv⟩ := bind_eq_some_iff.mp hv
  exact ((h.role u).victim hv).2

theorem Inv.pushFrame (hs : framesStep s (.pushFrame t) = some s') : ∃ frames', Inv s' frames' := by
  simp only [framesStep] at hs
  split at hs
  · next b c f hpc =>
    obtain ⟨hmalloc, hf, howner⟩ := (h.role t).fresh (by rw [hpc]; rfl)
    obtain ⟨heap, hpush, hmem⟩ :=
      h.mem.push hf hmalloc ((h.role t).paged (by rw [hpc]; rfl))
    obtain ⟨heap', hpush', rfl⟩ := map_eq_some_iff.mp hs
    cases hpush.symm.trans hpush'
    refine ⟨frames ++ [f], hmem, fun u => ?_⟩
    by_cases hu : u = t
    · subst hu
      refine .of_hands 
        (.inl ⟨update_self .., (h.role u).place (by rw [hpc]; rfl)⟩)
        ((h.role u).space (by rw [hpc]; rfl)) (by simp) howner fun hvictim => ?_
      exact hf (h.victim (FramesSys.victim_setPc rfl hvictim)).1
    · refine Role.other ((h.role u).mem id ?_ ?_ ?_ ?_) hu rfl (.inl rfl)
      · intro g hg hown
        rcases mem_append.mp hg with hg | hg
        · exact ⟨hg, hown⟩
        · rw [mem_singleton.mp hg] at hown
          exact absurd (hown.symm.trans howner) hu
      · intro g hmalloc' hg hown
        refine ⟨hmalloc', fun hmem' => ?_, hown, rfl, rfl⟩
        rcases mem_append.mp hmem' with hmem' | hmem'
        · exact hg hmem'
        · rw [mem_singleton.mp hmem'] at hown
          exact hu (hown.symm.trans howner)
      · exact fun hg _ => ⟨mem_append_left _ hg, rfl, rfl⟩
      · intro e he
        obtain ⟨before, after, rfl, rfl, hbefore⟩ := (h.role u).sweep he
        cases after with
        | nil =>
          refine ⟨before ++ [f], [], by simp, rfl, fun g hg => ?_⟩
          rcases mem_append.mp hg with hg | hg
          · exact hbefore g hg
          · rw [mem_singleton.mp hg]
            exact fun hown => hu (hown.symm.trans howner)
        | cons x after => exact ⟨before, x :: after ++ [f], by simp, rfl, hbefore⟩
  · contradiction

/-! ### after frame_create -/

theorem Inv.install {r : FrameMem τ φ × Bool} {num : Int} (hpc : s.pc t = .created b c f)
    (hr : installPage s.toFrameMem t c.upage (s.kpage f) w table = some r)
    (hplain : p.plain = true) (halive : p.alive = true) :
    Inv ({ s with toFrameMem := { r.1 with num := num } }.setPc t p) frames := by
  obtain ⟨hf, howner, -⟩ := (h.role t).hands (by rw [hpc]; rfl)
  obtain ⟨hmem, hk⟩ := h.mem.install hf howner ((h.role t).place (by rw [hpc]; rfl)) hr
  have hspace := hk.pagedir ((h.role t).space (by rw [hpc]; rfl))
  refine h.move { hmem with table := hmem.table.congr rfl rfl }
    { hk with } hplain (fun _ => hspace) ?_
  rw [halive]
  nofun

omit h in
theorem mapPage_bind {next : FramesSys τ φ × Bool → _}
    (hs : (mapPage s t upage kpage w table).bind next = some s') (htable : table = true)
    (habsent : ∀ pd ∈ s.pagedir t, (pagedirGetPage pd upage).isNone = true) :
    ∃ r mapped, installPage s.toFrameMem t upage kpage w table = some r ∧
      next ({ s with toFrameMem := r.1, mappedAs := mapped }, true) = some s' := by
  obtain ⟨⟨s₁, mapped⟩, hmap, hs⟩ := bind_eq_some_iff.mp hs
  obtain ⟨r, hr, rfl, -, htrue⟩ := mapPage_cases hmap
  have hinstalled := installPage_eq_true htable habsent hr
  obtain rfl : s₁ = _ := htrue hinstalled
  rw [hinstalled] at hs
  exact ⟨r, _, hr, hs⟩

omit h in
/-- The entry of a stack page is inserted, or `create_spage` calls `exit`. -/
theorem createSpage_stack {r : FramesSys τ φ × Bool}
    (hr : Frames.createSpage s t (stackSpage upage kpage) malloc none true = some r) :
    ∃ pages, r.1 = { s with spageTable := pages } := by
  rcases createSpage_cases hr with hpages | ⟨hfile, -⟩
  · exact hpages
  · contradiction

theorem Inv.useFrame {read : Bool} (hc : Orderly s (.useFrame t read table malloc))
    (hs : framesStep s (.useFrame t read table malloc) = some s') : Inv s' frames := by
  simp only [framesStep] at hs
  split at hs
  · next b c f hpc =>
    obtain ⟨hf, howner, -⟩ := (h.role t).hands (by rw [hpc]; rfl)
    have halive : (s.pc t).alive = true := by rw [hpc]; rfl
    have hpage : ¬ (s.kpage f).isNone = true := by
      rw [← not_isSome, h.mem.kpage hf]
      nofun
    simp only [Orderly, Installs, hpc] at hc
    cases c with
    | swapIn upage =>
      obtain ⟨r, hr, rfl⟩ := map_eq_some_iff.mp hs
      exact h.install hpc hr rfl rfl
    | growStack upage =>
      obtain ⟨-, htable, habsent⟩ := hc
      simp only [Frames.useFrame, growStack] at hs
      rw [if_neg hpage] at hs
      split at hs
      · cases hs
        exact h.exit halive
      · obtain ⟨r₁, mapped, hr₁, hs⟩ := mapPage_bind hs htable habsent
        rw [if_pos rfl] at hs
        obtain ⟨r₂, hr₂, rfl⟩ := map_eq_some_iff.mp hs
        obtain ⟨pages, heq₂⟩ := createSpage_stack hr₂
        rw [heq₂]
        split <;> exact (h.install hpc hr₁ rfl rfl).congr rfl rfl rfl
    | setupStack =>
      obtain ⟨-, htable, habsent⟩ := hc
      simp only [Frames.useFrame, setupStack] at hs
      rw [if_neg hpage] at hs
      obtain ⟨r₁, mapped, hr₁, hs⟩ := mapPage_bind hs htable habsent
      rw [if_pos rfl] at hs
      obtain ⟨r₂, hr₂, rfl⟩ := map_eq_some_iff.mp hs
      obtain ⟨pages, heq₂⟩ := createSpage_stack hr₂
      rw [heq₂]
      split <;> exact (h.install hpc hr₁ rfl rfl).congr rfl rfl rfl
    | loadPages spage writable readBytes zeroBytes upage =>
      obtain ⟨rfl, htable, habsent⟩ := hc
      simp only [Frames.useFrame, loadPage, setSpageKpage] at hs
      rw [if_neg hpage, if_pos trivial] at hs
      obtain ⟨r₁, mapped, hr₁, hs⟩ := mapPage_bind hs htable habsent
      rw [if_pos rfl] at hs
      cases hs
      obtain ⟨p, lock, hloop, hplain, halive'⟩ := loadLoop_cases _ t b spage writable _ _ _
      rw [hloop]
      exact (h.install hpc hr₁ hplain halive').congr rfl rfl rfl
  · contradiction

theorem Inv.kept (hmem : MemInv n frames) (hk : Kept s.toFrameMem n) :
    Inv { s with toFrameMem := n } frames :=
  ⟨hmem, fun u => (h.role u).kept hk Iff.rfl (.inl rfl)⟩

/-! ### munmap and exit -/

theorem Inv.munmap (hc : Orderly s (.munmap t upage fuel))
    (hpc : s.pc t = .base b) (hs : Frames.munmap s t b upage fuel = some s') : Inv s' frames := by
  have halive : (s.pc t).alive = true := by rw [hpc]; rfl
  obtain ⟨pd, hpd, hs⟩ := bind_eq_some_iff.mp hs
  obtain ⟨o, ho, rfl⟩ := map_eq_some_iff.mp hs
  have hmem := h.mem.clear hpd (show pagedirClearPage pd upage ⊆ pd from filter_sublist.subset)
  have hk : Kept s.toFrameMem { s.toFrameMem with
      pagedir := update s.pagedir t (some (pagedirClearPage pd upage)) } :=
    ⟨rfl, rfl, rfl, rfl, isSome_update_pagedir⟩
  have hmove : Inv ({ s with
      pagedir := update s.pagedir t (some (pagedirClearPage pd upage)) }.setPc t
        (.base b)) frames :=
    h.move hmem hk rfl (fun _ => hk.pagedir ((h.role t).space halive)) nofun
  cases o with
  | none => exact hmove.congr rfl rfl rfl
  | some f =>
    simp only
    split
    · next howner =>
      obtain ⟨hf, hup⟩ := h.mem.table.mem_of_lookupFrame ho
      refine ⟨hmem, fun u => ?_⟩
      by_cases hu : u = t
      · subst hu
        refine .of_hands (c := .setupStack) (f := f) (.inr (update_self ..))
          (hk.pagedir ((h.role u).space halive)) hf howner fun hvictim => ?_
        exact hc f (FramesSys.victim_setPc rfl hvictim) ⟨howner, hup⟩
      · exact (((h.role u).kept hk Iff.rfl (.inl rfl)).other hu rfl
          (.inl rfl)).congr rfl rfl (fun _ => id) fun _ hlock hnone => ⟨hlock, hnone⟩
    · exact hmove.congr rfl rfl rfl

theorem Inv.unmapFrame (hc : Orderly s (.unmapFrame t))
    (hs : framesStep s (.unmapFrame t) = some s') : ∃ frames', Inv s' frames' := by
  simp only [framesStep] at hs
  split at hs
  · next b f hpc =>
    obtain ⟨hf, howner, hvictim⟩ := (h.role t).hands (by rw [hpc]; rfl)
    obtain ⟨before, after, rfl⟩ := append_of_mem hf
    obtain ⟨n, hn, hmem, hd⟩ := h.mem.delete (h.space hf)
    obtain ⟨n', hn', rfl⟩ := map_eq_some_iff.mp hs
    cases hn.symm.trans hn'
    refine ⟨before ++ after, hmem, fun u => ?_⟩
    by_cases hu : u = t
    · subst hu
      exact .setPc_plain rfl (fun _ => hd.pagedir ((h.role u).space (by rw [hpc]; rfl))) nofun
    · refine ((h.role u).delete hd ?_ ?_ (isNone_iff_eq_none.mp (hc u hu))).other hu rfl
        (.inl rfl)
      · exact fun hhands => hu (((h.role u).hands hhands).2.1.symm.trans howner)
      · exact fun hv => hvictim ((h.role u).victim_eq hv)
  · contradiction

omit h in
theorem Role.of_sweep (before : List φ)
    (hpc : s.pc t = .sweeping (some (firstOf after))) (hspace : (s.pagedir t).isSome = true)
    (hframes : frames = before ++ after) (hbefore : ∀ f ∈ before, s.ownerThread f ≠ t) :
    Role s frames t := by
  constructor <;> rw [hpc]
  case space => exact fun _ => hspace
  case sweep =>
    intro e he
    cases he
    exact ⟨before, after, hframes, rfl, hbefore⟩
  all_goals nofun

theorem Inv.clearSpages (hc : Orderly s (.clearSpages t))
    (hs : framesStep s (.clearSpages t) = some s') : Inv s' frames := by
  simp only [framesStep] at hs
  split at hs
  · next hpc =>
    obtain ⟨pd, hpd, rfl⟩ := map_eq_some_iff.mp hs
    let pd' := pd.filter fun e => (s.spageTable t).all fun sp => sp.upage ≠ e.upage
    have hmem := h.mem.clear hpd (show pd' ⊆ pd from filter_sublist.subset)
    have hk : Kept s.toFrameMem { s.toFrameMem with
        pagedir := update s.pagedir t (some pd') } :=
      ⟨rfl, rfl, rfl, rfl, isSome_update_pagedir⟩
    have hfirst : (s.heap .head).next = some (firstOf frames) := by
      have hchain := h.mem.table.isList.chain
      cases frames with
      | nil => exact hchain.1
      | cons f rest => exact hchain.1
    refine ⟨hmem, fun u => ?_⟩
    by_cases hu : u = t
    · subst hu
      have hpc' : update s.pc u (.sweeping (s.heap .head).next) u =
          .sweeping (some (firstOf frames)) := by
        rw [update_self, hfirst]
      exact .of_sweep [] hpc' (hk.pagedir ((h.role u).space (by rw [hpc]; rfl))) rfl
        nofun
    · exact ((h.role u).kept hk Iff.rfl (.inl rfl)).other hu rfl (.inr hc)
  · contradiction

omit h in
theorem next_firstOf (ht : FrameTable.Table ft (before ++ f :: after)) :
    (ft.heap (.frame f)).next = some (firstOf after) := by
  have hchain := ht.isList.chain
  rw [map_append, map_cons] at hchain
  have hrest := (Dll.chain_append_cons.mp hchain).2
  cases after with
  | nil => exact hrest.1
  | cons g after => exact hrest.1

theorem Inv.sweepFrame (hc : Orderly s (.sweepFrame t))
    (hs : framesStep s (.sweepFrame t) = some s') : ∃ frames', Inv s' frames' := by
  simp only [framesStep] at hs
  split at hs
  · next e hpc =>
    have hspace : (s.pagedir t).isSome = true := (h.role t).space (by rw [hpc]; rfl)
    obtain ⟨before, after, rfl, rfl, hbefore⟩ := (h.role t).sweep (by rw [hpc]; rfl)
    have hvictim : ∀ v ∈ s.victim, s.ownerThread v ≠ t := by
      intro v hv howner
      have hnone := (h.victim hv).2
      rw [howner, hpc] at hnone
      contradiction
    cases after with
    | nil =>
      cases hs
      refine ⟨before ++ [], (h.move (p := .exited) h.mem (.refl _) rfl nofun ?_).congr
        rfl rfl rfl⟩
      rw [append_nil]
      exact fun _ => hbefore
    | cons f after =>
      obtain ⟨n, hn, rfl⟩ := map_eq_some_iff.mp hs
      have hnext := next_firstOf h.mem.table
      have hpc' : update s.pc t (.sweeping (s.heap (.frame f)).next) t =
          .sweeping (some (firstOf after)) := by
        rw [update_self, hnext]
      split at hn
      · next howner =>
        obtain ⟨n', hn', hmem, hd⟩ :=
          h.mem.delete (h.space (by simp))
        cases hn.symm.trans hn'
        refine ⟨before ++ after, hmem, fun u => ?_⟩
        by_cases hu : u = t
        · subst hu
          refine .of_sweep before hpc' (hd.pagedir hspace) rfl ?_
          change ∀ g ∈ before, n.ownerThread g ≠ u
          rw [hd.ownerThread]
          exact hbefore
        · refine ((h.role u).delete hd ?_ ?_ (isNone_iff_eq_none.mp (hc u hu))).other
            hu rfl (.inr ?_)
          · exact fun hhands => hu (((h.role u).hands hhands).2.1.symm.trans howner)
          · exact fun hv => hvictim f ((h.role u).victim_eq hv) howner
          · rwa [hd.ownerThread]
      · next howner =>
        cases hn
        refine ⟨before ++ f :: after, h.mem, fun u => ?_⟩
        by_cases hu : u = t
        · subst hu
          refine .of_sweep (before ++ [f]) hpc' hspace (by simp) fun g hg => ?_
          rcases mem_append.mp hg with hg | hg
          · exact hbefore g hg
          · rwa [mem_singleton.mp hg]
        · exact (h.role u).other hu rfl (.inr hvictim)
  · contradiction

theorem Inv.processExit (hs : framesStep s (.processExit t) = some s') : Inv s' frames := by
  simp only [framesStep] at hs
  split at hs
  · next hpc =>
    have hbare := (h.role t).bare (by rw [hpc]; rfl)
    simp only [Frames.processExit] at hs
    split at hs
    · cases hs
      exact h.move h.mem (.refl _) rfl nofun fun _ => hbare
    · next pd hpd =>
      -- a process without frames has no page-table entries
      have hnil : pd = [] := by
        refine eq_nil_iff_forall_not_mem.mpr fun e he => ?_
        obtain ⟨f, hf, howner, -⟩ := h.mem.backed hpd he
        exact hbare f hf howner
      subst hnil
      cases hs
      refine ⟨{ h.mem with backed := fun {u pd e} hpd' he => ?_ }, fun u => ?_⟩
      · change update s.pagedir t none u = some pd at hpd'
        rw [update_apply] at hpd'
        split at hpd'
        · contradiction
        · exact h.mem.backed hpd' he
      · by_cases hu : u = t
        · subst hu
          exact .setPc_plain rfl nofun fun _ => hbare
        · refine Role.other ((h.role u).mem ?_ (fun hf howner => ⟨hf, howner⟩)
            (fun hmalloc hf howner => ⟨hmalloc, hf, howner, rfl, rfl⟩)
            (fun hf _ => ⟨hf, rfl, rfl⟩) (h.role u).sweep) hu rfl (.inl rfl)
          change _ → (update s.pagedir t none u).isSome = true
          rw [update_of_ne hu]
          exact id
  · contradiction

/-! ## runs -/

/-- **Step lemma**. -/
theorem Inv.step {a : FramesAct τ φ} (hc : Orderly s a)
    (hs : framesStep s a = some s') : ∃ frames', Inv s' frames' := by
  cases a with
  | start t ok => exact ⟨frames, h.start hs⟩
  | createSpage t new malloc shared table => exact ⟨frames, h.createSpage hc hs⟩
  | setupStack t =>
    simp only [framesStep] at hs
    split at hs
    · next hpc =>
      cases hs
      exact ⟨frames, h.setPc (by rw [hpc]; rfl) rfl nofun⟩
    · contradiction
  | loadFailed t | kill t =>
    simp only [framesStep] at hs
    split at hs
    · next hpc =>
      cases hs
      exact ⟨frames, h.setPc (by rw [hpc]; rfl) rfl fun _ => h.bare hc⟩
    · contradiction
  | fault t addr notPresent nearStack inSyscall => exact ⟨frames, h.fault hc hs⟩
  | frameCreate t f => exact ⟨frames, h.frameCreate hs⟩
  | frameEvict t malloc fuel => exact h.frameEvict hc hs
  | evictFrame t => exact h.evictFrame hc hs
  | pallocAgain t => exact ⟨frames, h.pallocAgain hc hs⟩
  | pushFrame t => exact h.pushFrame hs
  | useFrame t read table malloc => exact ⟨frames, h.useFrame hc hs⟩
  | readFromSwap t =>
    simp only [framesStep] at hs
    split at hs
    · next b upage hpc =>
      cases hs
      have hmove : Inv (s.setPc t (.base b)) frames := h.setPc (by rw [hpc]; rfl) rfl nofun
      exact ⟨frames, hmove.congr rfl rfl rfl⟩
    · contradiction
  | munmap t upage fuel =>
    simp only [framesStep] at hs
    split at hs
    · next hpc => exact ⟨frames, h.munmap hc hpc hs⟩
    · next hpc => exact ⟨frames, h.munmap hc hpc hs⟩
    · contradiction
  | unmapFrame t => exact h.unmapFrame hc hs
  | exit t =>
    simp only [framesStep] at hs
    split at hs
    · next hpc =>
      cases hs
      exact ⟨frames, h.exit (by rw [hpc]; rfl)⟩
    · contradiction
  | clearSpages t => exact ⟨frames, h.clearSpages hc hs⟩
  | sweepFrame t => exact h.sweepFrame hc hs
  | processExit t => exact ⟨frames, h.processExit hs⟩
  | setAccessed t upage accessed =>
    cases hs
    exact ⟨frames, h.kept { h.mem with table := h.mem.table.congr rfl rfl }
      ⟨rfl, rfl, rfl, rfl, id⟩⟩

omit h in
theorem inv_framesBoot (s₀ : FrameSys φ τ) {userPages : Nat} (hsize : userPages < sizeTSize) :
    Inv (framesBoot s₀ userPages) [] where
  mem := {
    size := hsize
    table := (FrameTable.table_frameInit s₀).congr rfl rfl
    mallocd := nofun
    kpage := nofun
    used := fun h => absurd h.1 nofun
    distinct := fun h => absurd h.1 nofun
    backed := nofun
    freedOnce := rfl }
  role _ := .of_plain rfl nofun fun _ => nofun

theorem Inv.owned : FramesOwned s where
  kpage f hf := by
    have hmem := h.mem.mem_of_entry hf
    obtain ⟨page, hpage⟩ := isSome_iff_exists.mp (h.mem.kpage hmem)
    exact ⟨page, hpage, (h.mem.used ⟨h.mem.mallocd hmem, hpage⟩).2⟩
  distinct f g hf hg heq := by
    have hmem := h.mem.mem_of_entry hf
    have hmem' := h.mem.mem_of_entry hg
    obtain ⟨page, hpage⟩ := isSome_iff_exists.mp (h.mem.kpage hmem)
    exact h.mem.distinct ⟨h.mem.mallocd hmem, hpage⟩ ⟨h.mem.mallocd hmem', heq ▸ hpage⟩
  owner f hf := by
    have halive : (s.pc (s.ownerThread f)).alive = true :=
      Bool.of_not_eq_false fun hdead => (h.role _).bare hdead f (h.mem.mem_of_entry hf) rfl
    cases hpc : s.pc (s.ownerThread f) with
    | unborn | dead => rw [hpc] at halive; contradiction
    | _ => rfl
  freedOnce := h.mem.freedOnce

end

section Decide

variable [Fintype τ] [Fintype φ]

instance (s : FramesSys τ φ) (t : τ) : Decidable (Bare s t) :=
  inferInstanceAs (Decidable (∀ f, s.created f = true → s.ownerThread f ≠ t))

instance (s : FramesSys τ φ) (t : τ) : Decidable (Alone s t) :=
  inferInstanceAs (Decidable (∀ u, u ≠ t → (s.pc u).sweep.isNone = true))

omit [DecidableEq τ] [DecidableEq φ] [Fintype τ] [Fintype φ] in
instance (s : FramesSys τ φ) (t : τ) (read table : Bool) (pc : Pc φ) :
    Decidable (Installs s t read table pc) := by
  unfold Installs
  split <;> infer_instance

instance (s : FramesSys τ φ) : ∀ a, Decidable (Orderly s a) := by
  rintro ⟨⟩ <;> unfold Orderly <;> infer_instance

end Decide

/-- Two pages and threads 0 and 1. -/
def twoThreads : FramesSys (Fin 2) (Fin 3) :=
  framesBoot { heap := fun _ => ⟨none, none⟩, upage := fun _ => 0, ownerThread := fun _ => 0,
               accessed := fun _ _ => false, num := 0, created := fun _ => false } 2

/-- A process maps two pages of a file; the first is evicted for the second. -/
def evictFirst : List (FramesAct (Fin 2) (Fin 3)) :=
  [.start 0 true, .setupStack 0, .frameCreate 0 (some 0), .pushFrame 0, .useFrame 0 true true true,
    .createSpage 0 ⟨0x10000000, some 0, none, 100, 3996, true⟩ true none true,
    .createSpage 0 ⟨0x10001000, some 0, none, 100, 3996, true⟩ true none true,
    .fault 0 0x10000000 true false false, .frameCreate 0 (some 1), .pushFrame 0,
    .useFrame 0 true true true, .fault 0 0x10001000 true false false, .frameCreate 0 (some 2),
    .frameEvict 0 true 2, .evictFrame 0, .pallocAgain 0, .pushFrame 0, .useFrame 0 true true true]

end Pintos.Frames


