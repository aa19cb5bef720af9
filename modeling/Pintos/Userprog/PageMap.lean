import Pintos.Lib.Simulation
import Pintos.Userprog.Pagedir

/-!
# Pintos.Userprog.PageMap

A page directory is a partial map from user pages to kernel pages, with three flags for
each page.

`PageMap.Step` says what the operations do to such a map and what they return: an operation
changes the state of its own page at most, and a failed `pagedir_set_page` changes nothing.
`pagedir_refines_map` is the refinement.  It also says that the entries of the kernel are
never changed and which pages `pagedir_destroy` frees.
-/

namespace Pintos

open Function List Option

/-! ## the operations -/

/-- An operation on a directory. -/
inductive PdOp
  | set (upage kpage : Nat) (writable : Bool)
  | clear (upage : Nat)
  | setDirty (vpage : Nat) (dirty : Bool)
  | setAccessed (vpage : Nat) (accessed : Bool)
  | get (uaddr : Nat)
  | isDirty (vpage : Nat)
  | isAccessed (vpage : Nat)

/-- What it returns. -/
inductive PdResult
  | success (b : Bool)
  | addr (a : Option Nat)
  | flag (b : Bool)
  | none
deriving DecidableEq

/-! ## the map -/

/-- The state of a page: the kernel page that it is mapped to, and its flags. -/
structure PageState where
  kpage : Option Nat
  writable : Bool
  accessed : Bool
  dirty : Bool

open PageState

/-- The states of the pages, by page number. -/
abbrev PageMap : Type := Nat → PageState

namespace PageMap

/-- The state of one page is replaced. -/
def put (A : PageMap) (va : Nat) (p : PageState) : PageMap := update A (pgNo va) p

@[simp] theorem put_self {A : PageMap} {va : Nat} {p : PageState} : A.put va p (pgNo va) = p :=
  update_self ..

theorem put_of_ne {A : PageMap} {va vb : Nat} {p : PageState} (h : pgNo vb ≠ pgNo va) :
    A.put va p (pgNo vb) = A (pgNo vb) := update_of_ne h ..

/-- The operations on a map.  A flag of a page that is not mapped may be kept or not. -/
inductive Step : PageMap → PdOp × PdResult → PageMap → Prop
  | set {A : PageMap} {upage kpage : Nat} {writable : Bool} : (A (pgNo upage)).kpage = none →
      Step A (.set upage kpage writable, .success true)
        (A.put upage ⟨some kpage, writable, false, false⟩)
  | setFailed {A : PageMap} {upage kpage : Nat} {writable : Bool} :
      Step A (.set upage kpage writable, .success false) A
  | clear {A : PageMap} {upage : Nat} :
      Step A (.clear upage, .none) (A.put upage { A (pgNo upage) with kpage := none })
  | setDirty {A : PageMap} {vpage : Nat} {dirty : Bool} :
      Step A (.setDirty vpage dirty, .none) (A.put vpage { A (pgNo vpage) with dirty })
  | setDirtyUnmapped {A : PageMap} {vpage : Nat} {dirty : Bool} : (A (pgNo vpage)).kpage = none →
      Step A (.setDirty vpage dirty, .none) A
  | setAccessed {A : PageMap} {vpage : Nat} {accessed : Bool} :
      Step A (.setAccessed vpage accessed, .none) (A.put vpage { A (pgNo vpage) with accessed })
  | setAccessedUnmapped {A : PageMap} {vpage : Nat} {accessed : Bool} :
      (A (pgNo vpage)).kpage = none → Step A (.setAccessed vpage accessed, .none) A
  | get {A : PageMap} {uaddr : Nat} :
      Step A (.get uaddr, .addr ((A (pgNo uaddr)).kpage.map (· + pgOfs uaddr))) A
  | isDirty {A : PageMap} {vpage : Nat} : Step A (.isDirty vpage, .flag (A (pgNo vpage)).dirty) A
  | isAccessed {A : PageMap} {vpage : Nat} :
      Step A (.isAccessed vpage, .flag (A (pgNo vpage)).accessed) A

/-- The maps, from the empty one on. -/
def lts : Lts PageMap (PdOp × PdResult) where
  init := fun A => A = fun _ => ⟨none, false, false, false⟩
  step := Step

/-- No two user pages are mapped to the same kernel page. -/
def NoSharing (A : PageMap) : Prop :=
  ∀ va vb page, isUserVaddr va = true → isUserVaddr vb = true → (A (pgNo va)).kpage = some page →
    (A (pgNo vb)).kpage = some page → pgNo va = pgNo vb

end PageMap

/-! ## the directory -/

namespace Pagedir

/-- One operation; `alloc` is the page for a new table, if there is one. -/
def exec (k : KernelDir) (s : Pagedir) (alloc : Option Nat) :
    PdOp → Except PteAssert (Pagedir × PdResult)
  | .set upage kpage writable => do
      let (mem, success) ←
        pagedirSetPage s.mem s.pd upage kpage writable k.ramKb k.initPageDir alloc
      return ({ s with mem }, .success success)
  | .clear upage => do
      let mem ← pagedirClearPage s.mem s.pd upage
      return ({ s with mem }, .none)
  | .setDirty vpage dirty => do
      let mem ← pagedirSetDirty s.mem s.pd vpage dirty
      return ({ s with mem }, .none)
  | .setAccessed vpage accessed => do
      let mem ← pagedirSetAccessed s.mem s.pd vpage accessed
      return ({ s with mem }, .none)
  | .get uaddr => do
      let page ← pagedirGetPage s.mem s.pd uaddr
      return (s, .addr page)
  | .isDirty vpage => do
      let dirty ← pagedirIsDirty s.mem s.pd vpage
      return (s, .flag dirty)
  | .isAccessed vpage => do
      let accessed ← pagedirIsAccessed s.mem s.pd vpage
      return (s, .flag accessed)

/-- The entry of the page of an address. -/
def entryAt (s : Pagedir) (va : Nat) : Word := s.entry (pdNo va) (ptNo va)

/-- The page is not one of the directory. -/
def Foreign (s : Pagedir) (page : Nat) : Prop :=
  page ≠ s.pd ∧ ∀ i < pdNo physBase, s.table i ≠ some page

/-- The page that a word of a page table refers to. -/
def frameOf (w : Word) : Nat := (w &&& pteAddr).toNat + physBase

/-- A page that `palloc_get_page` may return for a table: it is not in use by the kernel, by
the directory or by the process. -/
structure Fresh (k : KernelDir) (s : Pagedir) (page : Nat) : Prop where
  ram : IsPage k.ramKb page
  kernel : page ∉ k.kernelPages
  foreign : s.Foreign page
  frames : ∀ va, isUserVaddr va = true → s.entryAt va &&& pteP ≠ 0 → frameOf (s.entryAt va) ≠ page

/-- Operations are on user pages.  A page that is set is not present, and `kpage` is a page of
memory that the caller has from `palloc_get_page`. -/
def Legal (k : KernelDir) (s : Pagedir) (alloc : Option Nat) : PdOp → Prop
  | .set upage kpage _ => isUserVaddr upage = true ∧ pgOfs upage = 0 ∧ IsPage k.ramKb kpage ∧
      s.entryAt upage &&& pteP = 0 ∧ s.Foreign kpage ∧
      ∀ pt, alloc = some pt → s.Fresh k pt ∧ pt ≠ kpage
  | .clear upage => isUserVaddr upage = true ∧ pgOfs upage = 0
  | .setDirty va _ | .setAccessed va _ | .get va | .isDirty va | .isAccessed va =>
    isUserVaddr va = true

end Pagedir

/-- A directory from `pagedir_create`, with any outcome of each allocation. -/
def pagedirLts (k : KernelDir) : Lts Pagedir (PdOp × PdResult) where
  init := fun s => IsPage k.ramKb s.pd ∧ s.pd ∉ k.kernelPages ∧
    s.mem = pagedirCreate k.mem k.initPageDir s.pd
  step := fun s l s' => ∃ alloc, s.Legal k alloc l.1 ∧ s.exec k alloc l.1 = .ok (s', l.2)

/-! ## the state of a page -/

open Pagedir (exec frameOf entryAt)

variable {k : KernelDir} {s s' : Pagedir} {A : PageMap} {va upage kpage pt page : Nat} {w : Word}
  {ramKb j i : Nat} {t : Nat → Word} {js : List Nat} {f : Freed}

/-- The state that an entry stands for. -/
def PageState.of (w : Word) : PageState :=
  ⟨if w &&& pteP ≠ 0 then some (frameOf w) else none, w &&& pteW != 0, w &&& pteA != 0,
    w &&& pteD != 0⟩

/-- The same from what is read of the entry. -/
def Pte.state (p : Pte) : PageState :=
  ⟨if p.present then some (p.addr.toNat + physBase) else none, p.writable, p.accessed, p.dirty⟩

theorem pageState_of (w : Word) : of w = (pteView w).state := by
  unfold of Pte.state pteView frameOf
  simp only [bne_iff_ne]

theorem pageState_zero : of 0 = ⟨none, false, false, false⟩ := by
  rw [pageState_of, pteView_zero]
  rfl

theorem pageState_pteWord (h : IsPage ramKb kpage) (writable : Bool) :
    of (pteWord kpage writable) = ⟨some kpage, writable, false, false⟩ := by
  rw [pageState_of, pteView_pteWord h, Pte.state]
  dsimp only
  rw [if_pos rfl, toNat_ofNat_sub h, Nat.sub_add_cancel h.kernel]

theorem pageState_clear (w : Word) :
    of (w &&& ~~~pteP) = { of w with kpage := none } := by
  rw [pageState_of, pageState_of]
  exact congrArg Pte.state (pteView_setPresent w false)

theorem pageState_setDirty (w : Word) (dirty : Bool) :
    of (if dirty then w ||| pteD else w &&& ~~~pteD) = { of w with dirty } := by
  rw [pageState_of, pageState_of, pteView_setDirty]
  rfl

theorem pageState_setAccessed (w : Word) (accessed : Bool) :
    of (if accessed then w ||| pteA else w &&& ~~~pteA) =
      { of w with accessed } := by
  rw [pageState_of, pageState_of, pteView_setAccessed]
  rfl

/-! ## the invariant -/

/-- The frames of the pages that are present are pages of memory, and not the directory's. -/
structure PdInv (k : KernelDir) (s : Pagedir) : Prop extends Shape k s where
  frames : ∀ va, isUserVaddr va = true → s.entryAt va &&& pteP ≠ 0 →
    IsPage k.ramKb (frameOf (s.entryAt va)) ∧ s.Foreign (frameOf (s.entryAt va))

/-- The map has the states of the user pages. -/
def Maps (s : Pagedir) (A : PageMap) : Prop :=
  ∀ va, isUserVaddr va = true → A (pgNo va) = .of (s.entryAt va)

theorem entryAt_congr {vb : Nat} (h : pgNo va = pgNo vb) : s.entryAt va = s.entryAt vb := by
  obtain ⟨hpd, hpt⟩ := pgNo_eq_iff.mp h
  rw [entryAt, entryAt, hpd, hpt]

theorem Maps.put (h : Maps s A) {p : PageState} (hself : of (s'.entryAt upage) = p)
    (hsame : ∀ va, isUserVaddr va = true → pgNo va ≠ pgNo upage → s'.entryAt va = s.entryAt va) :
    Maps s' (A.put upage p) := by
  intro va hva
  by_cases hpage : pgNo va = pgNo upage
  · rw [hpage, PageMap.put_self, ← hself, entryAt_congr hpage]
  · rw [PageMap.put_of_ne hpage, hsame va hva hpage]
    exact h va hva

namespace PdInv

/-- **The entry of a page is written.** -/
theorem write (h : PdInv k s) (huser : isUserVaddr va = true) (htable : s.table (pdNo va) = some pt)
    (hw : w &&& pteP ≠ 0 → IsPage k.ramKb (frameOf w) ∧ s.Foreign (frameOf w)) :
    PdInv k (s.set pt (ptNo va) w) ∧ (s.set pt (ptNo va) w).entryAt va = w ∧
      ∀ vb, isUserVaddr vb = true → pgNo vb ≠ pgNo va →
        (s.set pt (ptNo va) w).entryAt vb = s.entryAt vb := by
  obtain ⟨hshape, htables, hself, hother⟩ :=
    h.toShape.write (pdNo_lt_of_user huser) htable (ptNo va) w
  have hothers : ∀ vb, isUserVaddr vb = true → pgNo vb ≠ pgNo va →
      (s.set pt (ptNo va) w).entryAt vb = s.entryAt vb := by
    intro vb hvb hne
    exact hother _ (pdNo_lt_of_user hvb) _ fun hidx => hne (pgNo_eq_iff.mpr hidx)
  have hforeign : ∀ page, s.Foreign page → (s.set pt (ptNo va) w).Foreign page := by
    intro page hpage
    refine ⟨hpage.1, fun i hi => ?_⟩
    rw [htables]
    exact hpage.2 i hi
  refine ⟨⟨hshape, fun vb hvb hpresent => ?_⟩, hself, hothers⟩
  by_cases hpage : pgNo vb = pgNo va
  · rw [entryAt_congr hpage, entryAt, hself] at hpresent ⊢
    exact (hw hpresent).imp_right (hforeign _)
  · rw [hothers vb hvb hpage] at hpresent ⊢
    exact (h.frames vb hvb hpresent).imp_right (hforeign _)

/-- **A table is made for a page.** -/
theorem addTable (h : PdInv k s) (huser : isUserVaddr va = true)
    (htable : s.table (pdNo va) = none) (hfresh : s.Fresh k pt) :
    PdInv k (s.addTable (pdNo va) pt) ∧ (s.addTable (pdNo va) pt).table (pdNo va) = some pt ∧
      (∀ vb, isUserVaddr vb = true → (s.addTable (pdNo va) pt).entryAt vb = s.entryAt vb) ∧
      ∀ page, s.Foreign page → page ≠ pt → (s.addTable (pdNo va) pt).Foreign page := by
  obtain ⟨hshape, hself, htables, hentry⟩ := h.toShape.create (pdNo_lt_of_user huser) htable
    hfresh.ram hfresh.foreign.1 hfresh.kernel hfresh.foreign.2
  have hsame : ∀ vb, isUserVaddr vb = true →
      (s.addTable (pdNo va) pt).entryAt vb = s.entryAt vb :=
    fun vb hvb => hentry _ (pdNo_lt_of_user hvb) _
  have hforeign : ∀ page, s.Foreign page → page ≠ pt →
      (s.addTable (pdNo va) pt).Foreign page := by
    intro page hpage hne
    refine ⟨hpage.1, fun i hi => ?_⟩
    by_cases hva : i = pdNo va
    · rw [hva, hself]
      intro heq
      exact hne (some.inj heq).symm
    · rw [htables i hva]
      exact hpage.2 i hi
  refine ⟨⟨hshape, fun vb hvb hpresent => ?_⟩, hself, hsame, hforeign⟩
  rw [hsame vb hvb] at hpresent ⊢
  obtain ⟨hpage, hframe⟩ := h.frames vb hvb hpresent
  exact ⟨hpage, hforeign _ hframe (hfresh.frames vb hvb hpresent)⟩

theorem entryAt_some (htable : s.table (pdNo va) = some pt) : s.mem pt (ptNo va) = s.entryAt va :=
  (entry_of_some htable).symm

theorem entryAt_none (htable : s.table (pdNo va) = none) : s.entryAt va = 0 := entry_of_none htable

end PdInv

theorem frameOf_pteWord (h : IsPage ramKb kpage) (writable : Bool) :
    frameOf (pteWord kpage writable) = kpage := by
  have haddr : pteWord kpage writable &&& pteAddr = BitVec.ofNat 32 (kpage - physBase) :=
    congrArg Pte.addr (pteView_pteWord h writable)
  rw [frameOf, haddr, toNat_ofNat_sub h, Nat.sub_add_cancel h.kernel]

theorem pteGetPage_frameOf (h : IsPage ramKb (frameOf w)) :
    pteGetPage w = .ok (frameOf w) := by
  have hlt := h.sub_lt
  unfold frameOf at hlt
  rw [Nat.add_sub_cancel] at hlt
  rw [pteGetPage, ptov, if_pos]
  · rfl
  · unfold physBase
    omega

/-! ## the operations are those of the map -/

/-- The operation returns, and the map can follow it. -/
def Follows (k : KernelDir) (s : Pagedir) (A : PageMap) (alloc : Option Nat) (op : PdOp) : Prop :=
  ∃ s' r A', s.exec k alloc op = .ok (s', r) ∧ PdInv k s' ∧ PageMap.Step A (op, r) A' ∧ Maps s' A'

namespace PdInv

variable {alloc : Option Nat} {writable value : Bool}

section

variable (h : PdInv k s)
include h

theorem is_flag (huser : isUserVaddr va = true) (flag : Word) :
    pagedirIs flag s.mem s.pd va = .ok (s.entryAt va &&& flag != 0) := by
  unfold pagedirIs
  cases htable : s.table (pdNo va) with
  | none =>
    have hzero : (0 : Word) &&& flag = 0 := BitVec.zero_and
    rw [h.lookupPage_none huser htable, entryAt_none htable, ok_bind, hzero]
    rfl
  | some pt =>
    rw [h.lookupPage_some huser htable, ok_bind]
    dsimp only
    rw [entryAt_some htable]
    rfl

/-- A flag is set or cleared: the entry is written unless there is no table. -/
theorem set_flag (huser : isUserVaddr va = true) (flag : Word) (value : Bool)
    (hp : ~~~flag &&& pteP = pteP ∧ flag &&& pteP = 0#32)
    (haddr : ~~~flag &&& pteAddr = pteAddr ∧ flag &&& pteAddr = 0#32) :
    (pagedirSet flag s.mem s.pd va value = .ok s.mem ∧ s.entryAt va = 0) ∨
    ∃ m, pagedirSet flag s.mem s.pd va value = .ok m ∧ PdInv k { s with mem := m } ∧
      entryAt { s with mem := m } va =
        (if value then s.entryAt va ||| flag else s.entryAt va &&& ~~~flag) ∧
      ∀ vb, isUserVaddr vb = true → pgNo vb ≠ pgNo va →
        entryAt { s with mem := m } vb = s.entryAt vb := by
  unfold pagedirSet
  cases htable : s.table (pdNo va) with
  | none =>
    rw [h.lookupPage_none huser htable, ok_bind]
    exact .inl ⟨rfl, entryAt_none htable⟩
  | some pt =>
    rw [h.lookupPage_some huser htable, ok_bind]
    dsimp only
    rw [entryAt_some htable]
    refine .inr ⟨_, rfl, h.write huser htable fun hpresent => ?_⟩
    rw [flag_and hp] at hpresent
    rw [frameOf, flag_and haddr]
    exact h.frames va huser hpresent

end

section

variable (hmaps : Maps s A) (huser : isUserVaddr va = true)
include hmaps huser

theorem kpage_eq : (A (pgNo va)).kpage =
    if s.entryAt va &&& pteP ≠ 0 then some (frameOf (s.entryAt va)) else none := by
  rw [hmaps va huser]
  rfl

theorem kpage_eq_some : (A (pgNo va)).kpage = some page ↔
    s.entryAt va &&& pteP ≠ 0 ∧ frameOf (s.entryAt va) = page := by
  rw [kpage_eq hmaps huser, ite_none_right_eq_some, some_inj]

variable (h : PdInv k s)
include h

theorem get :
    pagedirGetPage s.mem s.pd va = .ok ((A (pgNo va)).kpage.map (· + pgOfs va)) := by
  have hkpage := kpage_eq hmaps huser
  unfold pagedirGetPage
  rw [huser, Bool.not_true, if_neg Bool.false_ne_true]
  cases htable : s.table (pdNo va) with
  | none =>
    rw [h.lookupPage_none huser htable, hkpage, entryAt_none htable]
    rfl
  | some pt =>
    rw [h.lookupPage_some huser htable, ok_bind]
    dsimp only
    rw [entryAt_some htable, hkpage]
    by_cases hpresent : s.entryAt va &&& pteP ≠ 0
    · rw [if_pos hpresent, if_pos hpresent, pteGetPage_frameOf (h.frames va huser hpresent).1]
      rfl
    · rw [if_neg hpresent, if_neg hpresent]
      rfl

theorem isDirty : pagedirIsDirty s.mem s.pd va = .ok (A (pgNo va)).dirty := by
  rw [pagedirIsDirty, h.is_flag huser, hmaps va huser]
  rfl

theorem isAccessed : pagedirIsAccessed s.mem s.pd va = .ok (A (pgNo va)).accessed := by
  rw [pagedirIsAccessed, h.is_flag huser, hmaps va huser]
  rfl

theorem follows_setDirty : Follows k s A alloc (.setDirty va value) := by
  rcases h.set_flag huser pteD value (by decide) (by decide) with
    ⟨heq, hzero⟩ | ⟨m, heq, hinv, hself, hother⟩
  · refine ⟨s, .none, A, ?_, h, .setDirtyUnmapped ?_, hmaps⟩
    · simp only [exec, pagedirSetDirty, heq, ok_bind, pure_eq_ok]
    · rw [kpage_eq hmaps huser, hzero]
      rfl
  · refine ⟨{ s with mem := m }, .none, _, ?_, hinv, .setDirty, hmaps.put ?_ hother⟩
    · simp only [exec, pagedirSetDirty, heq, ok_bind, pure_eq_ok]
    · rw [hself, pageState_setDirty, hmaps va huser]

theorem follows_setAccessed : Follows k s A alloc (.setAccessed va value) := by
  rcases h.set_flag huser pteA value (by decide) (by decide) with
    ⟨heq, hzero⟩ | ⟨m, heq, hinv, hself, hother⟩
  · refine ⟨s, .none, A, ?_, h, .setAccessedUnmapped ?_, hmaps⟩
    · simp only [exec, pagedirSetAccessed, heq, ok_bind, pure_eq_ok]
    · rw [kpage_eq hmaps huser, hzero]
      rfl
  · refine ⟨{ s with mem := m }, .none, _, ?_, hinv, .setAccessed, hmaps.put ?_ hother⟩
    · simp only [exec, pagedirSetAccessed, heq, ok_bind, pure_eq_ok]
    · rw [hself, pageState_setAccessed, hmaps va huser]

omit hmaps h in
theorem pagedirClearPage_eq (hofs : pgOfs va = 0) : pagedirClearPage s.mem s.pd va = do
    let (_, pte) ← lookupPage s.mem s.pd va false none
    match pte with
    | none => return s.mem
    | some (pt, i) =>
      if s.mem pt i &&& pteP ≠ 0 then
        return s.mem.set pt i (s.mem pt i &&& ~~~pteP)
      else
        return s.mem := by
  rw [pagedirClearPage, if_neg (not_not_intro hofs), huser, Bool.not_true]
  exact if_neg Bool.false_ne_true

theorem follows_clear (hofs : pgOfs va = 0) : Follows k s A alloc (.clear va) := by
  by_cases hzero : s.entryAt va &&& pteP = 0
  · -- a page that is not present stays as it is
    refine ⟨s, .none, _, ?_, h, .clear, hmaps.put ?_ fun _ _ _ => rfl⟩
    · rw [exec, pagedirClearPage_eq huser hofs]
      cases htable : s.table (pdNo va) with
      | none =>
        rw [h.lookupPage_none huser htable]
        rfl
      | some pt =>
        rw [h.lookupPage_some huser htable, ok_bind]
        dsimp only
        rw [entryAt_some htable, if_neg (not_not_intro hzero)]
        rfl
    · rw [hmaps va huser, of, if_neg (not_not_intro hzero)]
  · cases htable : s.table (pdNo va) with
    | none =>
      rw [entryAt_none htable] at hzero
      exact absurd BitVec.zero_and hzero
    | some pt =>
      obtain ⟨hinv, hself, hother⟩ :=
        h.write huser htable fun hne => absurd (and_not_and_self (s.entryAt va) pteP) hne
      refine ⟨s.set pt (ptNo va) (s.entryAt va &&& ~~~pteP), .none, _, ?_, hinv, .clear,
        hmaps.put ?_ hother⟩
      · rw [exec, pagedirClearPage_eq huser hofs, h.lookupPage_some huser htable, ok_bind]
        dsimp only
        rw [entryAt_some htable, if_pos hzero]
        rfl
      · rw [hself, pageState_clear, hmaps va huser]

end

section

variable (h : PdInv k s)
include h

theorem setPage_eq (huser : isUserVaddr va = true) (hofs : pgOfs va = 0)
    (hkpage : IsPage k.ramKb kpage) (writable : Bool) (alloc : Option Nat) :
    pagedirSetPage s.mem s.pd va kpage writable k.ramKb k.initPageDir alloc =
      (lookupPage s.mem s.pd va true alloc >>= fun (m, pte) =>
        match pte with
        | none => pure (m, false)
        | some (pt, i) =>
          if m pt i &&& pteP ≠ 0 then
            throw .mapped
          else do
            let w ← pteCreateUser kpage writable
            return (m.set pt i w, true)) := by
  have hram := hkpage.ram
  have hne : s.pd ≠ k.initPageDir := fun heq => h.pd_new (heq ▸ k.init_mem)
  have hchecks : ¬ (pgOfs va ≠ 0 ∨ pgOfs kpage ≠ 0) := by
    rw [hofs, hkpage.pgOfs_eq]
    simp
  unfold pagedirSetPage
  rw [if_neg hchecks, huser, Bool.not_true, if_neg Bool.false_ne_true, hkpage.vtop_eq, require,
    ok_bind, if_neg (by unfold pgNo; omega)]
  exact if_neg hne

theorem follows_set (hmaps : Maps s A) (hlegal : s.Legal k alloc (.set va kpage writable)) :
    Follows k s A alloc (.set va kpage writable) := by
  obtain ⟨huser, hofs, hkpage, hnot, hforeign, halloc⟩ := hlegal
  have hunmapped : (A (pgNo va)).kpage = none := by
    rw [kpage_eq hmaps huser, if_neg (not_not_intro hnot)]
  have hset := h.setPage_eq huser hofs hkpage writable alloc
  -- what is done when there is a table
  have hwrite : ∀ (t : Pagedir) (pt : Nat), PdInv k t → t.table (pdNo va) = some pt →
      (∀ vb, isUserVaddr vb = true → t.entryAt vb = s.entryAt vb) → t.Foreign kpage →
      t.pd = s.pd →
      lookupPage s.mem s.pd va true alloc = .ok (t.mem, some (pt, ptNo va)) →
      Follows k s A alloc (.set va kpage writable) := by
    intro t pt hinv htable hsame hforeign hpd hlookup
    have hframe := frameOf_pteWord hkpage writable
    obtain ⟨hinv', hself, hother⟩ := hinv.write huser htable
      fun _ => by rw [hframe]; exact ⟨hkpage, hforeign⟩
    refine ⟨t.set pt (ptNo va) (pteWord kpage writable), .success true, _, ?_, hinv',
      .set hunmapped, hmaps.put ?_ ?_⟩
    · have hnot' : ¬ t.mem pt (ptNo va) &&& pteP ≠ 0 := by
        rw [entryAt_some htable, hsame va huser]
        exact not_not_intro hnot
      rw [exec, hset, hlookup, ok_bind]
      dsimp only
      rw [if_neg hnot', pteCreateUser_eq hkpage]
      simp only [ok_bind, pure_eq_ok, Pagedir.set, hpd]
    · rw [hself, pageState_pteWord hkpage]
    · intro vb hvb hne
      rw [hother vb hvb hne, hsame vb hvb]
  cases htable : s.table (pdNo va) with
  | some pt =>
    exact hwrite s pt h htable (fun _ _ => rfl) hforeign rfl (h.lookupPage_some huser htable _ _)
  | none =>
    cases halloc' : alloc with
    | none =>
      rw [halloc'] at hset
      refine ⟨s, .success false, A, ?_, h, .setFailed, hmaps⟩
      rw [exec, hset, h.lookupPage_none huser htable]
      rfl
    | some pt =>
      obtain ⟨hfresh, hne⟩ := halloc pt halloc'
      obtain ⟨hinv, hself, hsame, hforeign'⟩ := h.addTable huser htable hfresh
      rw [← halloc']
      refine hwrite (s.addTable (pdNo va) pt) pt hinv hself hsame
        (hforeign' kpage hforeign hne.symm) rfl ?_
      rw [halloc']
      exact h.lookupPage_create huser htable hfresh.ram

/-- **Every operation returns**, and the map can follow it. -/
theorem follows (hmaps : Maps s A) {op : PdOp} (hlegal : s.Legal k alloc op) :
    Follows k s A alloc op := by
  cases op with
  | set upage kpage writable => exact h.follows_set hmaps hlegal
  | clear upage => exact h.follows_clear hmaps hlegal.1 hlegal.2
  | setDirty vpage dirty => exact h.follows_setDirty hmaps hlegal
  | setAccessed vpage accessed => exact h.follows_setAccessed hmaps hlegal
  | get uaddr =>
    refine ⟨s, _, A, ?_, h, .get, hmaps⟩
    rw [exec, h.get hmaps hlegal]
    rfl
  | isDirty vpage =>
    refine ⟨s, _, A, ?_, h, .isDirty, hmaps⟩
    rw [exec, h.isDirty hmaps hlegal]
    rfl
  | isAccessed vpage =>
    refine ⟨s, _, A, ?_, h, .isAccessed, hmaps⟩
    rw [exec, h.isAccessed hmaps hlegal]
    rfl

end

end PdInv

theorem pagedir_simulates (k : KernelDir) :
    Lts.Simulates (pagedirLts k) PageMap.lts fun s A => PdInv k s ∧ Maps s A where
  init := by
    rintro ⟨mem, pd⟩ ⟨hpd, hnew, hmem⟩
    dsimp only at hmem
    subst hmem
    obtain ⟨hshape, htables⟩ := shape_create hpd hnew
    have hzero : ∀ va, isUserVaddr va = true →
        entryAt ⟨pagedirCreate k.mem k.initPageDir pd, pd⟩ va = 0 := fun va hva =>
      entry_of_none (htables _ (pdNo_lt_of_user hva))
    refine ⟨_, rfl, ⟨hshape, fun va hva hpresent => ?_⟩, fun va hva => ?_⟩
    · rw [hzero va hva] at hpresent
      exact absurd BitVec.zero_and hpresent
    · rw [hzero va hva, pageState_zero]
  step := by
    rintro s ⟨op, r⟩ s' A ⟨hinv, hmaps⟩ ⟨alloc, hlegal, hexec⟩
    obtain ⟨s₁, r₁, A', heq, hinv', hstep, hmaps'⟩ := hinv.follows hmaps hlegal
    cases heq.symm.trans hexec
    exact ⟨A', hstep, hinv', hmaps'⟩

/-! ## pagedir_destroy -/

/-- The frames of the entries of a table that are present. -/
def presentFrames (t : Nat → Word) (js : List Nat) : List Nat :=
  (js.filter fun j => t j &&& pteP != 0).map fun j => frameOf (t j)

theorem mem_presentFrames :
    page ∈ presentFrames t js ↔ ∃ j ∈ js, t j &&& pteP ≠ 0 ∧ frameOf (t j) = page := by
  simp only [presentFrames, List.mem_map, mem_filter, bne_iff_ne, and_assoc]

theorem presentFrames_cons_of_present (h : t j &&& pteP ≠ 0) :
    presentFrames t (j :: js) = frameOf (t j) :: presentFrames t js := by
  have hbne : (t j &&& pteP != 0) = true := bne_iff_ne.mpr h
  rw [presentFrames, filter_cons, hbne, if_pos rfl, map_cons, presentFrames]

theorem presentFrames_cons_of_absent
    (h : ¬ t j &&& pteP ≠ 0) : presentFrames t (j :: js) = presentFrames t js := by
  have hbne : ¬ (t j &&& pteP != 0) = true := mt bne_iff_ne.mp h
  rw [presentFrames, filter_cons, if_neg hbne, presentFrames]

/-- **The pages of a table are freed**, in the order of its entries. -/
theorem foldlM_destroyTable (js : List Nat) (hpt : f.mem pt = t)
    (hframes : ∀ j ∈ js, t j &&& pteP ≠ 0 →
      IsPage ramKb (frameOf (t j)) ∧ frameOf (t j) ≠ pt) :
    ∃ f', js.foldlM (destroyTable pt) f = .ok f' ∧ f'.pages = f.pages ++ presentFrames t js ∧
      ∀ page, page ∉ presentFrames t js → f'.mem page = f.mem page := by
  induction js generalizing f with
  | nil => exact ⟨f, rfl, (append_nil _).symm, fun _ _ => rfl⟩
  | cons j js ih =>
    have hrest := fun j' hj' => hframes j' (mem_cons_of_mem j hj')
    rw [foldlM_cons, destroyTable, hpt]
    by_cases hpresent : t j &&& pteP ≠ 0
    · obtain ⟨hpage, hne⟩ := hframes j (mem_cons_self ..) hpresent
      rw [if_pos hpresent, pteGetPage_frameOf hpage, ok_bind, pure_eq_ok, ok_bind,
        presentFrames_cons_of_present hpresent]
      obtain ⟨f', hrun, hpages, hmem⟩ := ih (f := f.free (frameOf (t j)))
        ((PageMem.fill_of_ne hne.symm).trans hpt) hrest
      refine ⟨f', hrun, ?_, fun page hnot => ?_⟩
      · rw [hpages, Freed.free, append_assoc, singleton_append]
      · obtain ⟨hhead, htail⟩ := not_or.mp fun hor => hnot (mem_cons.mpr hor)
        rw [hmem page htail]
        exact PageMem.fill_of_ne hhead
    · rw [if_neg hpresent, pure_eq_ok, ok_bind, presentFrames_cons_of_absent hpresent]
      exact ih hpt hrest

namespace Pagedir

/-- The frames of the pages of one table. -/
def framesOf (s : Pagedir) (i : Nat) : List Nat := presentFrames (s.entry i) (range 1024)

/-- The pages that are freed for one directory entry. -/
def pagesOf (s : Pagedir) (i : Nat) : List Nat := s.framesOf i ++ (s.table i).toList

end Pagedir

theorem framesOf_of_none (h : s.table i = none) : s.framesOf i = [] := by
  have hzero : s.entry i = fun _ => 0 := funext fun _ => entry_of_none h
  rw [Pagedir.framesOf, hzero]
  exact eq_nil_iff_forall_not_mem.mpr fun page hmem =>
    let ⟨_, _, hne, _⟩ := mem_presentFrames.mp hmem
    hne BitVec.zero_and

theorem exists_user_page (hi : i < pdNo physBase) (hj : j < 1024) :
    ∃ va, isUserVaddr va = true ∧ pdNo va = i ∧ ptNo va = j := by
  rw [pdNo_physBase] at hi
  refine ⟨i * 4194304 + j * 4096, ?_, ?_, ?_⟩
  · rw [isUserVaddr, decide_eq_true_eq]
    unfold physBase
    omega
  · rw [pdNo_eq]
    omega
  · rw [ptNo_eq]
    omega

namespace PdInv

theorem mem_framesOf (hi : i < pdNo physBase) : page ∈ s.framesOf i ↔
    ∃ va, isUserVaddr va = true ∧ pdNo va = i ∧ s.entryAt va &&& pteP ≠ 0 ∧
      frameOf (s.entryAt va) = page := by
  rw [Pagedir.framesOf, mem_presentFrames]
  constructor
  · rintro ⟨j, hj, hpresent, hframe⟩
    obtain ⟨va, huser, hpd, hpt⟩ := exists_user_page hi (mem_range.mp hj)
    have hentry : s.entryAt va = s.entry i j := by rw [entryAt, hpd, hpt]
    exact ⟨va, huser, hpd, hentry ▸ hpresent, hentry ▸ hframe⟩
  · rintro ⟨va, -, hpd, hpresent, hframe⟩
    have hentry : s.entryAt va = s.entry i (ptNo va) := by rw [entryAt, hpd]
    exact ⟨ptNo va, mem_range.mpr (ptNo_lt va), hentry ▸ hpresent, hentry ▸ hframe⟩

/-- The frames are pages of memory, and not the directory's. -/
theorem framesOf_foreign (h : PdInv k s) (hi : i < pdNo physBase)
    (hmem : page ∈ s.framesOf i) : IsPage k.ramKb page ∧ s.Foreign page := by
  obtain ⟨va, huser, -, hpresent, rfl⟩ := (mem_framesOf hi).mp hmem
  exact h.frames va huser hpresent

/-- **One table is freed with its pages.** -/
theorem destroyEntry_eq (h : PdInv k s) (hi : i < pdNo physBase)
    (hpd : f.mem s.pd = s.mem s.pd) (htables : ∀ pt, s.table i = some pt → f.mem pt = s.mem pt) :
    ∃ f', destroyEntry s.pd f i = .ok f' ∧ f'.pages = f.pages ++ s.pagesOf i ∧
      ∀ page, page ∉ s.pagesOf i → f'.mem page = f.mem page := by
  unfold destroyEntry Pagedir.pagesOf
  rw [hpd]
  cases htable : s.table i with
  | none =>
    have hzero : s.mem s.pd i &&& pteP = 0 := by
      rw [h.table_none hi htable]
      exact BitVec.zero_and
    rw [if_neg (not_not_intro hzero), framesOf_of_none htable]
    exact ⟨f, rfl, (append_nil _).symm, fun _ _ => rfl⟩
  | some pt =>
    obtain ⟨hpde, hpage, -⟩ := h.table_some hi htable
    have hentry : s.entry i = s.mem pt := funext fun _ => entry_of_some htable
    have hforeign : ∀ j ∈ range 1024, s.mem pt j &&& pteP ≠ 0 →
        IsPage k.ramKb (frameOf (s.mem pt j)) ∧ frameOf (s.mem pt j) ≠ pt := by
      intro j hj hpresent
      have hframe : frameOf (s.mem pt j) ∈ s.framesOf i := by
        rw [Pagedir.framesOf, hentry]
        exact mem_presentFrames.mpr ⟨j, hj, hpresent, rfl⟩
      obtain ⟨hram, hforeign⟩ := h.framesOf_foreign hi hframe
      exact ⟨hram, fun heq => hforeign.2 i hi (htable.trans (congrArg some heq.symm))⟩
    obtain ⟨f₁, hrun, hpages, hmem⟩ :=
      foldlM_destroyTable (range 1024) (htables pt htable) hforeign
    rw [hpde, if_pos (pdeWord_present hpage), pdeGetPt_pdeWord hpage, ok_bind, hrun, ok_bind,
      Pagedir.framesOf, hentry]
    refine ⟨f₁.free pt, rfl, ?_, fun page hnot => ?_⟩
    · rw [Freed.free, hpages, append_assoc]
      rfl
    · obtain ⟨hframe, htab⟩ := not_or.mp fun hor => hnot (mem_append.mpr hor)
      rw [← hmem page hframe]
      exact PageMem.fill_of_ne fun heq => htab (mem_singleton.mpr heq)

theorem not_mem_pagesOf (h : PdInv k s) (hi : i < pdNo physBase) :
    s.pd ∉ s.pagesOf i ∧
      ∀ j < pdNo physBase, j ≠ i → ∀ pt, s.table j = some pt → pt ∉ s.pagesOf i := by
  constructor
  · intro hmem
    rcases mem_append.mp hmem with hframe | htable
    · exact (h.framesOf_foreign hi hframe).2.1 rfl
    · exact (h.table_some hi (mem_toList.mp htable)).2.2.1 rfl
  · intro j hj hne pt hpt hmem
    rcases mem_append.mp hmem with hframe | htable
    · exact (h.framesOf_foreign hi hframe).2.2 j hj hpt
    · exact hne (h.table_inj hj hi hpt (mem_toList.mp htable))

/-- The tables that have not been freed are as they were. -/
theorem foldlM_destroyEntry (h : PdInv k s) (is : List Nat) (hnodup : is.Nodup)
    (his : ∀ i ∈ is, i < pdNo physBase) (hpd : f.mem s.pd = s.mem s.pd)
    (htables : ∀ i ∈ is, ∀ pt, s.table i = some pt → f.mem pt = s.mem pt) :
    ∃ f', is.foldlM (destroyEntry s.pd) f = .ok f' ∧
      f'.pages = f.pages ++ is.flatMap s.pagesOf := by
  induction is generalizing f with
  | nil => exact ⟨f, rfl, (append_nil _).symm⟩
  | cons i is ih =>
    obtain ⟨hnot, hnodup⟩ := nodup_cons.mp hnodup
    have hi := his i (mem_cons_self ..)
    have his' := fun j hj => his j (mem_cons_of_mem i hj)
    obtain ⟨f₁, hf₁, hpages₁, hmem₁⟩ :=
      h.destroyEntry_eq hi hpd (htables i (mem_cons_self ..))
    obtain ⟨hpdnot, htabnot⟩ := h.not_mem_pagesOf hi
    obtain ⟨f', hrun, hpages⟩ := ih hnodup his' ((hmem₁ _ hpdnot).trans hpd) fun j hj pt hpt => by
      have hne : j ≠ i := fun heq => hnot (heq ▸ hj)
      rw [hmem₁ pt (htabnot j (his' j hj) hne pt hpt)]
      exact htables j (mem_cons_of_mem i hj) pt hpt
    refine ⟨f', ?_, ?_⟩
    · rw [foldlM_cons, hf₁, ok_bind, hrun]
    · rw [hpages, hpages₁, flatMap_cons, append_assoc]

/-- **`pagedir_destroy` returns**, and frees the pages of every directory entry and then the
directory. -/
theorem pagedirDestroy_eq (h : PdInv k s) :
    ∃ f, pagedirDestroy s.mem s.pd k.initPageDir = .ok f ∧
      f.pages = (range (pdNo physBase)).flatMap s.pagesOf ++ [s.pd] := by
  have hnull : s.pd ≠ 0 := by
    have hkernel := h.pd_page.kernel
    unfold physBase at hkernel
    omega
  have hne : s.pd ≠ k.initPageDir := fun heq => h.pd_new (heq ▸ k.init_mem)
  obtain ⟨f, hrun, hpages⟩ := h.foldlM_destroyEntry (f := ⟨s.mem, []⟩) (range (pdNo physBase))
    nodup_range (fun i hi => mem_range.mp hi) rfl fun _ _ _ _ => rfl
  refine ⟨f.free s.pd, ?_, ?_⟩
  · rw [pagedirDestroy, if_neg hnull, if_neg hne, hrun, ok_bind, pure_eq_ok]
  · rw [Freed.free, hpages, nil_append]

end PdInv

/-! ## each page is freed once -/

namespace Pagedir

/-- The page tables. -/
def tables (s : Pagedir) : List Nat := (range (pdNo physBase)).filterMap s.table

/-- The frames of all pages that are present. -/
def frames (s : Pagedir) : List Nat := (range (pdNo physBase)).flatMap s.framesOf

end Pagedir

theorem mem_tables : pt ∈ s.tables ↔ ∃ i < pdNo physBase, s.table i = some pt := by
  simp only [Pagedir.tables, mem_filterMap, mem_range]

theorem mem_frames : page ∈ s.frames ↔ ∃ va, isUserVaddr va = true ∧
    s.entryAt va &&& pteP ≠ 0 ∧ frameOf (s.entryAt va) = page := by
  rw [Pagedir.frames, mem_flatMap]
  constructor
  · rintro ⟨i, hi, hmem⟩
    obtain ⟨va, huser, -, hframe⟩ := (PdInv.mem_framesOf (mem_range.mp hi)).mp hmem
    exact ⟨va, huser, hframe⟩
  · rintro ⟨va, huser, hframe⟩
    have hi := pdNo_lt_of_user huser
    exact ⟨pdNo va, mem_range.mpr hi, (PdInv.mem_framesOf hi).mpr ⟨va, huser, rfl, hframe⟩⟩

namespace PdInv

/-- The directory and its tables are different pages, and no frame is among them. -/
theorem nodup_tables (h : PdInv k s) :
    (s.pd :: s.tables).Nodup ∧ ∀ page ∈ s.frames, page ∉ s.pd :: s.tables := by
  refine ⟨nodup_cons.mpr ⟨?_, ?_⟩, ?_⟩
  · intro hmem
    obtain ⟨i, hi, htable⟩ := mem_tables.mp hmem
    exact (h.table_some hi htable).2.2.1 rfl
  · refine pairwise_filterMap.mpr (nodup_range.imp_of_mem ?_)
    rintro i j hi hj hne pt htable _ htable' rfl
    exact hne (h.table_inj (mem_range.mp hi) (mem_range.mp hj) htable htable')
  · intro page hframe hmem
    obtain ⟨va, huser, hpresent, rfl⟩ := mem_frames.mp hframe
    obtain ⟨hpd, htab⟩ := (h.frames va huser hpresent).2
    rcases mem_cons.mp hmem with heq | htable
    · exact hpd heq
    · obtain ⟨i, hi, hpt⟩ := mem_tables.mp htable
      exact htab i hi hpt

theorem nodup_frames (hmaps : Maps s A) (hshare : A.NoSharing) : s.frames.Nodup := by
  have hinj : ∀ i < pdNo physBase, ∀ i' < pdNo physBase, ∀ page, page ∈ s.framesOf i →
      page ∈ s.framesOf i' → i = i' := by
    intro i hi i' hi' page hmem hmem'
    obtain ⟨va, huser, rfl, hframe⟩ := (mem_framesOf hi).mp hmem
    obtain ⟨vb, huser', rfl, hframe'⟩ := (mem_framesOf hi').mp hmem'
    exact (pgNo_eq_iff.mp (hshare va vb page huser huser'
      ((kpage_eq_some hmaps huser).mpr hframe) ((kpage_eq_some hmaps huser').mpr hframe'))).1
  refine nodup_flatMap.mpr ⟨fun i hi => ?_, nodup_range.imp_of_mem ?_⟩
  · refine (nodup_range.filter _).map_on ?_
    intro j hj j' hj' heq
    rw [mem_filter, mem_range, bne_iff_ne] at hj hj'
    obtain ⟨va, huser, hpd, hpt⟩ := exists_user_page (mem_range.mp hi) hj.1
    obtain ⟨vb, huser', hpd', hpt'⟩ := exists_user_page (mem_range.mp hi) hj'.1
    rw [← hpd, ← hpt] at hj
    rw [← hpd', ← hpt'] at hj'
    have hpage := hshare va vb _ huser huser' ((kpage_eq_some hmaps huser).mpr ⟨hj.2, rfl⟩)
      ((kpage_eq_some hmaps huser').mpr ⟨hj'.2, ?_⟩)
    · rw [← hpt, ← hpt']
      exact (pgNo_eq_iff.mp hpage).2
    · rw [entryAt, entryAt, hpd, hpd', hpt, hpt', heq]
  · intro i i' hi hi' hne page hmem hmem'
    exact hne (hinj i (mem_range.mp hi) i' (mem_range.mp hi') page hmem hmem')

end PdInv

/-- What `pagedir_destroy` frees: the directory, each table and each page that is mapped. -/
structure Destroyed (s : Pagedir) (A : PageMap) (pages : List Nat) : Prop where
  directory : pages.count s.pd = 1
  tables : ∀ i < pdNo physBase, ∀ pt, s.table i = some pt → pages.count pt = 1
  mapped : ∀ va, isUserVaddr va = true → ∀ page, (A (pgNo va)).kpage = some page → page ∈ pages
  once : A.NoSharing → ∀ va, isUserVaddr va = true → ∀ page, (A (pgNo va)).kpage = some page →
    pages.count page = 1
  only : ∀ page ∈ pages, page = s.pd ∨ (∃ i < pdNo physBase, s.table i = some page) ∨
    ∃ va, isUserVaddr va = true ∧ (A (pgNo va)).kpage = some page

/-- **`pagedir_destroy` frees each page once.** -/
theorem PdInv.destroy (h : PdInv k s) (hmaps : Maps s A) :
    ∃ f, pagedirDestroy s.mem s.pd k.initPageDir = .ok f ∧ Destroyed s A f.pages := by
  obtain ⟨f, hf, hpages⟩ := h.pagedirDestroy_eq
  obtain ⟨hnodup, hdisjoint⟩ := h.nodup_tables
  have hperm : f.pages.Perm (s.frames ++ s.pd :: s.tables) := by
    rw [hpages, Pagedir.frames, Pagedir.tables, filterMap_eq_flatMap_toList]
    refine ((flatMap_append_perm _ s.framesOf fun i => (s.table i).toList).symm.append_right
      [s.pd]).trans ?_
    rw [append_assoc]
    exact (perm_append_singleton ..).append_left _
  have hframe : ∀ page, page ∈ s.frames ↔
      ∃ va, isUserVaddr va = true ∧ (A (pgNo va)).kpage = some page := by
    intro page
    rw [mem_frames]
    exact exists_congr fun va => and_congr_right fun huser => (kpage_eq_some hmaps huser).symm
  have htable : ∀ page ∈ s.pd :: s.tables, f.pages.count page = 1 := by
    intro page hmem
    rw [hperm.count_eq, count_append,
      count_eq_zero_of_not_mem fun hmem' => hdisjoint page hmem' hmem,
      count_eq_one_of_mem hnodup hmem]
  refine ⟨f, hf, ?_, ?_, ?_, ?_, ?_⟩
  · exact htable s.pd (mem_cons_self ..)
  · intro i hi pt hpt
    exact htable pt (mem_cons_of_mem _ (mem_tables.mpr ⟨i, hi, hpt⟩))
  · intro va huser page hpage
    exact hperm.mem_iff.mpr (mem_append_left _ ((hframe page).mpr ⟨va, huser, hpage⟩))
  · intro hshare va huser page hpage
    have hmem := (hframe page).mpr ⟨va, huser, hpage⟩
    rw [hperm.count_eq, count_append, count_eq_zero_of_not_mem (hdisjoint page hmem),
      count_eq_one_of_mem (PdInv.nodup_frames hmaps hshare) hmem]
  · intro page hmem
    rcases mem_append.mp (hperm.mem_iff.mp hmem) with hmem | hmem
    · exact .inr (.inr ((hframe page).mp hmem))
    · rcases mem_cons.mp hmem with heq | hmem
      · exact .inl heq
      · exact .inr (.inl (mem_tables.mp hmem))

/-! ## the refinement -/

/-- **The directory is the map**: the functions that read it return what the map has, every
operation returns, and what belongs to the kernel is as it was. -/
structure Pagedir.Represents (k : KernelDir) (s : Pagedir) (A : PageMap) : Prop where
  get : ∀ va, isUserVaddr va = true →
    pagedirGetPage s.mem s.pd va = .ok ((A (pgNo va)).kpage.map (· + pgOfs va))
  dirty : ∀ va, isUserVaddr va = true → pagedirIsDirty s.mem s.pd va = .ok (A (pgNo va)).dirty
  accessed : ∀ va, isUserVaddr va = true →
    pagedirIsAccessed s.mem s.pd va = .ok (A (pgNo va)).accessed
  writable : ∀ va, isUserVaddr va = true →
    (s.entryAt va &&& pteW != 0) = (A (pgNo va)).writable
  returns : ∀ alloc op, s.Legal k alloc op → ∃ s' r, s.exec k alloc op = .ok (s', r)
  kernel : ∀ i, pdNo physBase ≤ i → s.mem s.pd i = k.mem k.initPageDir i
  kernelPages : ∀ page ∈ k.kernelPages, s.mem page = k.mem page
  destroy : ∃ f, pagedirDestroy s.mem s.pd k.initPageDir = .ok f ∧ Destroyed s A f.pages

theorem PdInv.represents (h : PdInv k s) (hmaps : Maps s A) : s.Represents k A where
  get := fun va huser => h.get hmaps huser
  dirty := fun va huser => h.isDirty hmaps huser
  accessed := fun va huser => h.isAccessed hmaps huser
  writable := fun va huser => by
    rw [hmaps va huser]
    rfl
  returns := fun alloc op hlegal =>
    let ⟨s', r, _, hexec, _⟩ := h.follows hmaps hlegal
    ⟨s', r, hexec⟩
  kernel := h.kernel
  kernelPages := h.kernelPages
  destroy := h.destroy hmaps

/-- **The directory refines a partial map**: what any sequence of operations does and returns
is what it does on a map, which the directory then represents. -/
theorem pagedir_refines_map {as : List (PdOp × PdResult)} (h : (pagedirLts k).Trace as s) :
    ∃ A, PageMap.lts.Trace as A ∧ s.Represents k A := by
  obtain ⟨A, htrace, hinv, hmaps⟩ := h.simulate (pagedir_simulates k)
  exact ⟨A, htrace, hinv.represents hmaps⟩

/-- A kernel with 4 MB of memory whose `init_page_dir` is empty. -/
def smallKernelDir : KernelDir where
  ramKb := 4096
  initPageDir := 0xc0100000
  kernelPages := [0xc0100000]
  mem := fun _ _ => 0
  init_mem := mem_singleton.mpr rfl
  user := fun _ _ => rfl

/-- A new directory. -/
def smallPagedir : Pagedir :=
  ⟨pagedirCreate smallKernelDir.mem smallKernelDir.initPageDir 0xc0101000, 0xc0101000⟩

/-- A page is set, which needs a table, and read. -/
theorem pagedir_refines_map_one_page : ∃ (s : Pagedir) (A : PageMap),
    s.Represents smallKernelDir A ∧
    PageMap.lts.Trace [(.set 0x8048000 0xc0200000 true, .success true),
      (.get 0x8048010, .addr (some 0xc0200010))] A := by
  have hpd : IsPage smallKernelDir.ramKb 0xc0101000 := ⟨by decide, by decide, by decide⟩
  have hnew : 0xc0101000 ∉ smallKernelDir.kernelPages := by decide
  have htables : ∀ i < pdNo physBase, smallPagedir.table i = none :=
    (shape_create hpd hnew).2
  have hzero : ∀ va, isUserVaddr va = true → smallPagedir.entryAt va &&& pteP = 0 := by
    intro va huser
    rw [PdInv.entryAt_none (htables _ (pdNo_lt_of_user huser))]
    exact BitVec.zero_and
  have hforeign : ∀ page, page ≠ 0xc0101000 → smallPagedir.Foreign page := by
    intro page hne
    refine ⟨hne, fun i hi => ?_⟩
    rw [htables i hi]
    exact nofun
  have hlegal : smallPagedir.Legal smallKernelDir (some 0xc0102000)
      (.set 0x8048000 0xc0200000 true) := by
    refine ⟨by decide, by decide, ⟨by decide, by decide, by decide⟩, hzero _ (by decide),
      hforeign _ (by decide), ?_⟩
    rintro _ ⟨⟩
    exact ⟨⟨⟨by decide, by decide, by decide⟩, by decide, hforeign _ (by decide),
      fun va huser hpresent => absurd (hzero va huser) hpresent⟩, by decide⟩
  have hrun : (do
      let (s₁, r₁) ← smallPagedir.exec smallKernelDir (some 0xc0102000)
        (.set 0x8048000 0xc0200000 true)
      let (_, r₂) ← s₁.exec smallKernelDir none (.get 0x8048010)
      return (r₁, r₂) : Except PteAssert (PdResult × PdResult)).toOption =
        some (.success true, .addr (some 0xc0200010)) := by decide +kernel
  obtain ⟨⟨s₁, r₁⟩, hset, hrun⟩ := bind_eq_ok (eq_ok_of_toOption hrun)
  obtain ⟨⟨s₂, r₂⟩, hget, hrun⟩ := bind_eq_ok hrun
  cases hrun
  have hinit : (pagedirLts smallKernelDir).Trace [] smallPagedir := .nil ⟨hpd, hnew, rfl⟩
  have hstep : (pagedirLts smallKernelDir).step smallPagedir (.set 0x8048000 0xc0200000 true,
      .success true) s₁ := ⟨_, hlegal, hset⟩
  have hstep' : (pagedirLts smallKernelDir).step s₁ (.get 0x8048010, .addr (some 0xc0200010)) s₂ :=
    ⟨none, (by decide : isUserVaddr 0x8048010 = true), hget⟩
  have htrace := (hinit.snoc hstep).snoc hstep'
  obtain ⟨A, hmap, hrep⟩ := pagedir_refines_map htrace
  exact ⟨s₂, A, hrep, hmap⟩

end Pintos
