import Pintos.Threads.Pte

/-!
# Pintos.Userprog.Pagedir

Page directories (`userprog/pagedir.c`).

A directory has an entry for each page table, and a page table has an entry for each page.
Tables are made when the first of their pages is set.  Memory is read and written by pages
here, for all of these are pages from `palloc_get_page`; the outcome of each allocation is
an argument.

`Shape` says where the tables are, and `Pagedir.entry` is the entry of a page, which is zero
as long as there is no table for it.  `Shape.create` and `Shape.write` are the two things
that the functions do: a table is made, or one entry is written.
-/

namespace Pintos

open Function

/-! ## the model -/

/-- Memory: the words of the page at an address. -/
abbrev PageMem : Type := Nat → Nat → Word

/-- A word is written. -/
def PageMem.set (m : PageMem) (page idx : Nat) (w : Word) : PageMem :=
  update m page (update (m page) idx w)

/-- All words of a page are written. -/
def PageMem.fill (m : PageMem) (page : Nat) (w : Word) : PageMem := update m page fun _ => w

/-- `lookup_page`: the table and the index of the entry; `alloc` is the page for a new table,
if there is one. -/
def lookupPage (m : PageMem) (pd vaddr : Nat) (create : Bool) (alloc : Option Nat) :
    Except PteAssert (PageMem × Option (Nat × Nat)) := do
  if create && !isUserVaddr vaddr then
    throw .userVaddr
  else if m pd (pdNo vaddr) = 0 then
    if create then
      match alloc with
      | none => return (m, none)
      | some pt =>
        let pde ← pdeCreate pt
        let m := (m.fill pt 0).set pd (pdNo vaddr) pde
        let pt ← pdeGetPt (m pd (pdNo vaddr))
        return (m, some (pt, ptNo vaddr))
    else
      return (m, none)
  else
    let pt ← pdeGetPt (m pd (pdNo vaddr))
    return (m, some (pt, ptNo vaddr))

/-- `pagedir_create`; `pd` is the page for the directory. -/
def pagedirCreate (m : PageMem) (initPageDir pd : Nat) : PageMem :=
  update m pd (m initPageDir)

/-- `pagedir_set_page`. -/
def pagedirSetPage (m : PageMem) (pd upage kpage : Nat) (writable : Bool)
    (ramKb initPageDir : Nat) (alloc : Option Nat) : Except PteAssert (PageMem × Bool) := do
  if pgOfs upage ≠ 0 ∨ pgOfs kpage ≠ 0 then
    throw .pgOfs
  else if !isUserVaddr upage then
    throw .userVaddr
  else
    let paddr ← require .kernelVaddr (vtop kpage)
    if pgNo paddr ≥ initRamPages ramKb then
      throw .ram
    else if pd = initPageDir then
      throw .initPageDir
    else
      let (m, pte) ← lookupPage m pd upage true alloc
      match pte with
      | none => return (m, false)
      | some (pt, i) =>
        if m pt i &&& pteP ≠ 0 then
          throw .mapped
        else
          let w ← pteCreateUser kpage writable
          return (m.set pt i w, true)

/-- `pagedir_get_page`. -/
def pagedirGetPage (m : PageMem) (pd uaddr : Nat) : Except PteAssert (Option Nat) := do
  if !isUserVaddr uaddr then
    throw .userVaddr
  else
    let (_, pte) ← lookupPage m pd uaddr false none
    match pte with
    | none => return none
    | some (pt, i) =>
      if m pt i &&& pteP ≠ 0 then
        let page ← pteGetPage (m pt i)
        return some (page + pgOfs uaddr)
      else
        return none

/-- `pagedir_clear_page`. -/
def pagedirClearPage (m : PageMem) (pd upage : Nat) : Except PteAssert PageMem := do
  if pgOfs upage ≠ 0 then
    throw .pgOfs
  else if !isUserVaddr upage then
    throw .userVaddr
  else
    let (_, pte) ← lookupPage m pd upage false none
    match pte with
    | none => return m
    | some (pt, i) =>
      if m pt i &&& pteP ≠ 0 then return m.set pt i (m pt i &&& ~~~pteP) else return m

/-- The flag of a page. -/
def pagedirIs (flag : Word) (m : PageMem) (pd vpage : Nat) : Except PteAssert Bool := do
  let (_, pte) ← lookupPage m pd vpage false none
  match pte with
  | none => return false
  | some (pt, i) => return m pt i &&& flag != 0

/-- `pagedir_is_dirty`. -/
def pagedirIsDirty : PageMem → Nat → Nat → Except PteAssert Bool := pagedirIs pteD

/-- `pagedir_is_accessed`. -/
def pagedirIsAccessed : PageMem → Nat → Nat → Except PteAssert Bool := pagedirIs pteA

/-- The flag of a page is set or cleared. -/
def pagedirSet (flag : Word) (m : PageMem) (pd vpage : Nat) (value : Bool) :
    Except PteAssert PageMem := do
  let (_, pte) ← lookupPage m pd vpage false none
  match pte with
  | none => return m
  | some (pt, i) => return m.set pt i (if value then m pt i ||| flag else m pt i &&& ~~~flag)

/-- `pagedir_set_dirty`. -/
def pagedirSetDirty : PageMem → Nat → Nat → Bool → Except PteAssert PageMem := pagedirSet pteD

/-- `pagedir_set_accessed`. -/
def pagedirSetAccessed : PageMem → Nat → Nat → Bool → Except PteAssert PageMem := pagedirSet pteA

/-- Memory and the pages that `pagedir_destroy` has freed. -/
structure Freed where
  mem : PageMem
  pages : List Nat

/-- `palloc_free_page`, which fills the page with `0xcc`. -/
def Freed.free (f : Freed) (page : Nat) : Freed := ⟨f.mem.fill page 0xcccccccc, f.pages ++ [page]⟩

/-- The pages of one table are freed. -/
def destroyTable (pt : Nat) (f : Freed) (j : Nat) : Except PteAssert Freed := do
  if f.mem pt j &&& pteP ≠ 0 then
    let page ← pteGetPage (f.mem pt j)
    return f.free page
  else
    return f

/-- One table is freed with its pages. -/
def destroyEntry (pd : Nat) (f : Freed) (i : Nat) : Except PteAssert Freed := do
  if f.mem pd i &&& pteP ≠ 0 then
    let pt ← pdeGetPt (f.mem pd i)
    let f ← (List.range 1024).foldlM (destroyTable pt) f
    return f.free pt
  else
    return f

/-- `pagedir_destroy`. -/
def pagedirDestroy (m : PageMem) (pd initPageDir : Nat) : Except PteAssert Freed := do
  if pd = 0 then
    return ⟨m, []⟩
  else if pd = initPageDir then
    throw .initPageDir
  else
    let f ← (List.range (pdNo physBase)).foldlM (destroyEntry pd) ⟨m, []⟩
    return f.free pd

/-! ## the kernel's directory -/

/-- Memory during `paging_init`: the table in use and the number of pages that have been
allocated. -/
structure Paging where
  mem : PageMem
  pt : Nat
  taken : Nat

/-- `paging_init` makes a table for an address that has none; `alloc n` is the `n`th page from
`palloc_get_page`. -/
def pagingTable (alloc : Nat → Nat) (pd : Nat) (b : Paging) (vaddr : Nat) :
    Except PteAssert Paging :=
  if b.mem pd (pdNo vaddr) = 0 then do
    let pt := alloc b.taken
    let pde ← pdeCreate pt
    return ⟨(b.mem.fill pt 0).set pd (pdNo vaddr) pde, pt, b.taken + 1⟩
  else
    .ok b

/-- The loop of `paging_init`; `text` tells the pages of the kernel's code. -/
def pagingStep (alloc : Nat → Nat) (text : Nat → Bool) (pd : Nat) (b : Paging) (page : Nat) :
    Except PteAssert Paging := do
  let vaddr ← require .physical (ptov (page * pgsize))
  let b ← pagingTable alloc pd b vaddr
  let pte ← pteCreateKernel vaddr (!text vaddr)
  return { b with mem := b.mem.set b.pt (ptNo vaddr) pte }

/-- `paging_init`; `init_page_dir` is the first page. -/
def pagingInit (m : PageMem) (alloc : Nat → Nat) (text : Nat → Bool) (ramKb : Nat) :
    Except PteAssert Paging :=
  (List.range (initRamPages ramKb)).foldlM (pagingStep alloc text (alloc 0))
    ⟨m.fill (alloc 0) 0, 0, 1⟩

/-! ## memory -/

namespace PageMem

variable {m : PageMem} {page page' i j : Nat} {w : Word}

@[simp] theorem set_self : m.set page i w page i = w := by
  rw [set, update_self, update_self]

theorem set_of_idx_ne (h : j ≠ i) : m.set page i w page j = m page j := by
  rw [set, update_self, update_of_ne h]

theorem set_of_page_ne (h : page' ≠ page) : m.set page i w page' = m page' := by
  rw [set, update_of_ne h]

theorem fill_self : m.fill page w page = fun _ => w := update_self ..

theorem fill_of_ne (h : page' ≠ page) : m.fill page w page' = m page' := update_of_ne h ..

end PageMem

open PageMem

/-! ## where the tables are -/

/-- The kernel when `pagedir_create` is called: `init_page_dir` has no entries for the
addresses of users. -/
structure KernelDir where
  ramKb : Nat
  initPageDir : Nat
  /-- `init_page_dir` and its tables -/
  kernelPages : List Nat
  mem : PageMem
  init_mem : initPageDir ∈ kernelPages
  user : ∀ i < pdNo physBase, mem initPageDir i = 0

/-- A directory. -/
structure Pagedir where
  mem : PageMem
  pd : Nat

namespace Pagedir

/-- The page table of a directory entry. -/
def table (s : Pagedir) (i : Nat) : Option Nat :=
  if s.mem s.pd i = 0 then none else (pdeGetPt (s.mem s.pd i)).toOption

/-- An entry of a page table; zero when there is no table. -/
def entry (s : Pagedir) (i j : Nat) : Word :=
  match s.table i with
  | none => 0
  | some pt => s.mem pt j

/-- A word of memory is written. -/
abbrev set (s : Pagedir) (page idx : Nat) (w : Word) : Pagedir := { s with mem := s.mem.set page idx w }

/-- A table is made for a directory entry. -/
abbrev addTable (s : Pagedir) (i pt : Nat) : Pagedir :=
  { s with mem := (s.mem.fill pt 0).set s.pd i (pdeWord pt) }

end Pagedir

/-- **The shape of a directory**: an entry for users is zero or that of a table, tables are
pages of their own, and what belongs to the kernel is as it was. -/
structure Shape (k : KernelDir) (s : Pagedir) : Prop where
  pd_page : IsPage k.ramKb s.pd
  pd_new : s.pd ∉ k.kernelPages
  entries : ∀ i < pdNo physBase, s.mem s.pd i = 0 ∨ ∃ pt, s.mem s.pd i = pdeWord pt ∧
    IsPage k.ramKb pt ∧ pt ≠ s.pd ∧ pt ∉ k.kernelPages
  inj : ∀ i < pdNo physBase, ∀ j < pdNo physBase, s.mem s.pd i ≠ 0 →
    s.mem s.pd i = s.mem s.pd j → i = j
  kernel : ∀ i, pdNo physBase ≤ i → s.mem s.pd i = k.mem k.initPageDir i
  kernelPages : ∀ page ∈ k.kernelPages, s.mem page = k.mem page

variable {k : KernelDir} {s : Pagedir} {va pt i j : Nat} {w : Word}

theorem table_of_zero (h : s.mem s.pd i = 0) : s.table i = none := if_pos h

theorem table_of_pdeWord {ramKb : Nat} (hpt : IsPage ramKb pt) (h : s.mem s.pd i = pdeWord pt) :
    s.table i = some pt := by
  rw [Pagedir.table, h, if_neg (pdeWord_ne_zero hpt), pdeGetPt_pdeWord hpt]
  rfl

theorem entry_of_some (h : s.table i = some pt) : s.entry i j = s.mem pt j := by
  rw [Pagedir.entry, h]

theorem entry_of_none (h : s.table i = none) : s.entry i j = 0 := by
  rw [Pagedir.entry, h]

namespace Shape

section

variable (h : Shape k s)
include h

theorem table_some (hi : i < pdNo physBase) (htable : s.table i = some pt) :
    s.mem s.pd i = pdeWord pt ∧ IsPage k.ramKb pt ∧ pt ≠ s.pd ∧ pt ∉ k.kernelPages := by
  rcases h.entries i hi with hzero | ⟨pt', hpde, hpage, hne, hnew⟩
  · rw [table_of_zero hzero] at htable
    cases htable
  · rw [table_of_pdeWord hpage hpde] at htable
    cases htable
    exact ⟨hpde, hpage, hne, hnew⟩

theorem table_none (hi : i < pdNo physBase) (htable : s.table i = none) : s.mem s.pd i = 0 := by
  rcases h.entries i hi with hzero | ⟨pt', hpde, hpage, -⟩
  · exact hzero
  · rw [table_of_pdeWord hpage hpde] at htable
    cases htable

/-- Two directory entries have different tables. -/
theorem table_inj (hi : i < pdNo physBase) (hj : j < pdNo physBase)
    (hti : s.table i = some pt) (htj : s.table j = some pt) : i = j := by
  obtain ⟨hpde, hpage, -⟩ := h.table_some hi hti
  obtain ⟨hpde', -⟩ := h.table_some hj htj
  refine h.inj i hi j hj ?_ (hpde.trans hpde'.symm)
  rw [hpde]
  exact pdeWord_ne_zero hpage

/-! ## lookup_page -/

theorem lookupPage_some (huser : isUserVaddr va = true)
    (htable : s.table (pdNo va) = some pt) (create : Bool) (alloc : Option Nat) :
    lookupPage s.mem s.pd va create alloc = .ok (s.mem, some (pt, ptNo va)) := by
  obtain ⟨hpde, hpage, -⟩ := h.table_some (pdNo_lt_of_user huser) htable
  unfold lookupPage
  rw [huser, Bool.not_true, Bool.and_false, if_neg Bool.false_ne_true, hpde,
    if_neg (pdeWord_ne_zero hpage), pdeGetPt_pdeWord hpage]
  rfl

theorem lookupPage_none (huser : isUserVaddr va = true) (htable : s.table (pdNo va) = none)
    (create : Bool) : lookupPage s.mem s.pd va create none = .ok (s.mem, none) := by
  have hzero := h.table_none (pdNo_lt_of_user huser) htable
  unfold lookupPage
  rw [huser, Bool.not_true, Bool.and_false, if_neg Bool.false_ne_true, hzero, if_pos rfl]
  cases create <;> rfl

theorem lookupPage_create (huser : isUserVaddr va = true)
    (htable : s.table (pdNo va) = none) (hpt : IsPage k.ramKb pt) :
    lookupPage s.mem s.pd va true (some pt) =
      .ok ((s.addTable (pdNo va) pt).mem, some (pt, ptNo va)) := by
  have hzero := h.table_none (pdNo_lt_of_user huser) htable
  have hcreate := pdeCreate_eq hpt
  have hget := pdeGetPt_pdeWord hpt
  unfold Pagedir.addTable
  generalize pdeWord pt = w at hcreate hget ⊢
  unfold lookupPage
  rw [huser, Bool.not_true, Bool.and_false, if_neg Bool.false_ne_true, hzero, if_pos rfl,
    if_pos rfl]
  dsimp only
  rw [hcreate, ok_bind, set_self, hget]
  rfl

/-! ## a table is made -/

/-- **A table is made**: the entries are as before. -/
theorem create (hi : i < pdNo physBase) (htable : s.table i = none)
    (hpt : IsPage k.ramKb pt) (hpd : pt ≠ s.pd) (hnew : pt ∉ k.kernelPages)
    (hfresh : ∀ j < pdNo physBase, s.table j ≠ some pt) :
    Shape k (s.addTable i pt) ∧ (s.addTable i pt).table i = some pt ∧
      (∀ j, j ≠ i → (s.addTable i pt).table j = s.table j) ∧
      ∀ j < pdNo physBase, ∀ x, (s.addTable i pt).entry j x = s.entry j x := by
  have hpde : ∀ j, (s.addTable i pt).mem s.pd j =
      if j = i then pdeWord pt else s.mem s.pd j := by
    intro j
    by_cases hj : j = i
    · rw [if_pos hj, hj]
      exact set_self
    · rw [if_neg hj]
      exact (set_of_idx_ne hj).trans (congrFun (fill_of_ne hpd.symm) j)
  have hother : ∀ page, page ≠ s.pd → page ≠ pt → (s.addTable i pt).mem page = s.mem page := by
    intro page hne hne'
    exact (set_of_page_ne hne).trans (fill_of_ne hne')
  have hself : (s.addTable i pt).table i = some pt := by
    refine table_of_pdeWord hpt ?_
    rw [hpde, if_pos rfl]
  have htables : ∀ j, j ≠ i → (s.addTable i pt).table j = s.table j := by
    intro j hj
    unfold Pagedir.table
    rw [hpde, if_neg hj]
  have hzero := h.table_none hi htable
  refine ⟨⟨h.pd_page, h.pd_new, ?_, ?_, ?_, ?_⟩, hself, htables, ?_⟩
  · intro j hj
    rw [hpde]
    by_cases hji : j = i
    · rw [if_pos hji]
      exact .inr ⟨pt, rfl, hpt, hpd, hnew⟩
    · rw [if_neg hji]
      exact h.entries j hj
  · intro a ha b hb hne heq
    rw [hpde] at hne
    rw [hpde, hpde] at heq
    -- the new table is none of those that were there
    have hdiff : ∀ j < pdNo physBase, j ≠ i → s.mem s.pd j ≠ pdeWord pt := by
      intro j hj _ hword
      exact hfresh j hj (table_of_pdeWord hpt hword)
    by_cases hai : a = i
    · by_cases hbi : b = i
      · rw [hai, hbi]
      · rw [if_pos hai, if_neg hbi] at heq
        exact absurd heq.symm (hdiff b hb hbi)
    · rw [if_neg hai] at hne heq
      by_cases hbi : b = i
      · rw [if_pos hbi] at heq
        exact absurd heq (hdiff a ha hai)
      · rw [if_neg hbi] at heq
        exact h.inj a ha b hb hne heq
  · intro j hj
    rw [hpde, if_neg (by omega)]
    exact h.kernel j hj
  · intro page hpage
    rw [hother page]
    · exact h.kernelPages page hpage
    · rintro rfl
      exact h.pd_new hpage
    · rintro rfl
      exact hnew hpage
  · intro j hj x
    by_cases hji : j = i
    · subst hji
      have hfill : (s.addTable j pt).mem pt = fun _ => 0 :=
        (set_of_page_ne hpd).trans fill_self
      rw [entry_of_some hself, entry_of_none htable, hfill]
    · cases hj' : s.table j with
      | none =>
        rw [entry_of_none hj', entry_of_none]
        rw [htables j hji, hj']
      | some pt' =>
        obtain ⟨-, -, hne, -⟩ := h.table_some hj hj'
        rw [entry_of_some hj', entry_of_some ((htables j hji).trans hj'), hother pt' hne]
        rintro rfl
        exact hfresh j hj hj'

/-! ## an entry is written -/

/-- **One entry is written**: the others are as before. -/
theorem write (hi : i < pdNo physBase) (htable : s.table i = some pt) (j : Nat) (w : Word) :
    Shape k (s.set pt j w) ∧ (∀ x, (s.set pt j w).table x = s.table x) ∧
      (s.set pt j w).entry i j = w ∧
      ∀ x < pdNo physBase, ∀ y, ¬ (x = i ∧ y = j) → (s.set pt j w).entry x y = s.entry x y := by
  obtain ⟨hpde, hpage, hpd, hnew⟩ := h.table_some hi htable
  have hdir : (s.set pt j w).mem s.pd = s.mem s.pd := set_of_page_ne hpd.symm
  have htables : ∀ x, (s.set pt j w).table x = s.table x := by
    intro x
    unfold Pagedir.table
    rw [hdir]
  refine ⟨⟨h.pd_page, h.pd_new, ?_, ?_, ?_, ?_⟩, htables, ?_, ?_⟩
  · intro x hx
    rw [hdir]
    exact h.entries x hx
  · intro x hx y hy
    rw [hdir]
    exact h.inj x hx y hy
  · intro x hx
    rw [hdir]
    exact h.kernel x hx
  · intro page hmem
    rw [← h.kernelPages page hmem]
    refine set_of_page_ne ?_
    rintro rfl
    exact hnew hmem
  · rw [entry_of_some ((htables i).trans htable)]
    exact set_self
  · intro x hx y hne
    cases hx' : s.table x with
    | none => rw [entry_of_none hx', entry_of_none ((htables x).trans hx')]
    | some pt' =>
      rw [entry_of_some hx', entry_of_some ((htables x).trans hx')]
      by_cases hpt : pt' = pt
      · subst hpt
        have hxi : x = i := h.table_inj hx hi hx' htable
        exact set_of_idx_ne fun hy => hne ⟨hxi, hy⟩
      · exact congrFun (set_of_page_ne hpt) y

end

end Shape

/-! ## paging_init -/

section

variable {alloc : Nat → Nat} {text : Nat → Bool} {b b' : Paging} {page : Nat}

/-- The directory has no entries for users, and the table in use is another page. -/
structure Paging.Inv (alloc : Nat → Nat) (b : Paging) : Prop where
  user : ∀ i < pdNo physBase, b.mem (alloc 0) i = 0
  pt_ne : b.pt ≠ alloc 0
  taken_pos : 0 < b.taken

theorem pdNo_ptov {paddr : Nat} (h : ptov paddr = some va) : pdNo physBase ≤ pdNo va := by
  have hva := ptov_eq_some h
  rw [pdNo_eq, pdNo_eq]
  exact Nat.div_le_div_right (by omega)

/-- One step of `paging_init` writes entries for kernel addresses. -/
theorem Paging.Inv.step (h : b.Inv alloc) (hne : ∀ n, 0 < n → alloc n ≠ alloc 0)
    (hstep : pagingStep alloc text (alloc 0) b page = .ok b') : b'.Inv alloc := by
  obtain ⟨vaddr, hvaddr, hstep⟩ := bind_eq_ok hstep
  have hkernel := pdNo_ptov (require_eq_ok hvaddr)
  obtain ⟨b₁, hb₁, hstep⟩ := bind_eq_ok hstep
  obtain ⟨pte, -, hstep⟩ := bind_eq_ok hstep
  cases hstep
  have hinv₁ : b₁.Inv alloc := by
    unfold pagingTable at hb₁
    split at hb₁
    · obtain ⟨pde, -, hb₁⟩ := bind_eq_ok hb₁
      cases hb₁
      have hpt := hne b.taken h.taken_pos
      refine ⟨fun i hi => ?_, hpt, Nat.succ_pos _⟩
      have hi' : i ≠ pdNo vaddr := by omega
      rw [← h.user i hi]
      exact (set_of_idx_ne hi').trans (congrFun (fill_of_ne hpt.symm) i)
    · cases hb₁
      exact h
  refine ⟨fun i hi => ?_, hinv₁.pt_ne, hinv₁.taken_pos⟩
  rw [← hinv₁.user i hi]
  exact congrFun (set_of_page_ne hinv₁.pt_ne.symm) i

theorem foldlM_pagingStep (hne : ∀ n, 0 < n → alloc n ≠ alloc 0) (pages : List Nat)
    (h : b.Inv alloc) (hrun : pages.foldlM (pagingStep alloc text (alloc 0)) b = .ok b') :
    b'.Inv alloc := by
  induction pages generalizing b with
  | nil =>
    cases hrun
    exact h
  | cons page pages ih =>
    rw [List.foldlM_cons] at hrun
    obtain ⟨b₁, hb₁, hrun⟩ := bind_eq_ok hrun
    exact ih (h.step hne hb₁) hrun

/-- **After `paging_init`** there are no entries for users in `init_page_dir`. -/
theorem pagingInit_inv {m : PageMem} {ramKb : Nat} (hnull : alloc 0 ≠ 0)
    (hne : ∀ n, 0 < n → alloc n ≠ alloc 0) (h : pagingInit m alloc text ramKb = .ok b) :
    b.Inv alloc := by
  refine foldlM_pagingStep hne _ ⟨fun i _ => ?_, hnull.symm, Nat.one_pos⟩ h
  exact congrFun fill_self i

/-- The kernel after `paging_init`. -/
def KernelDir.ofPaging (b : Paging) (alloc : Nat → Nat) (ramKb : Nat) (h : b.Inv alloc) :
    KernelDir where
  ramKb := ramKb
  initPageDir := alloc 0
  kernelPages := (List.range b.taken).map alloc
  mem := b.mem
  init_mem := List.mem_map_of_mem (List.mem_range.mpr h.taken_pos)
  user := h.user

end

/-! ## pagedir_create -/

/-- **A directory from `pagedir_create`** has no tables. -/
theorem shape_create {pd : Nat} (hpd : IsPage k.ramKb pd) (hnew : pd ∉ k.kernelPages) :
    Shape k ⟨pagedirCreate k.mem k.initPageDir pd, pd⟩ ∧
      ∀ i < pdNo physBase, Pagedir.table ⟨pagedirCreate k.mem k.initPageDir pd, pd⟩ i = none := by
  have hdir : pagedirCreate k.mem k.initPageDir pd pd = k.mem k.initPageDir :=
    update_self ..
  have hzero : ∀ i < pdNo physBase, pagedirCreate k.mem k.initPageDir pd pd i = 0 := by
    intro i hi
    rw [hdir]
    exact k.user i hi
  refine ⟨⟨hpd, hnew, fun i hi => .inl (hzero i hi), ?_, ?_, ?_⟩, fun i hi => table_of_zero (hzero i hi)⟩
  · intro i hi j hj hne
    exact absurd (hzero i hi) hne
  · intro i _
    exact congrFun hdir i
  · intro page hpage
    refine update_of_ne ?_ ..
    rintro rfl
    exact hnew hpage

end Pintos

