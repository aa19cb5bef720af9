import Pintos.Kernel.HashSet

/-!
# Pintos.Vm.Spage

The supplemental page table of a process (`vm/page.c`).

`create_spage` does not look at what `hash_insert` returns.  When the table has an entry for
the page already, the new descriptor is not put in it: `createSpage_kept_iff`.
-/

namespace Pintos

open Function List

/-! ## the model -/

/-- `struct spage`, as far as it is read or written here; the pointers are addresses. -/
structure Spages.Spage where
  fileSp : UInt32
  offset : Nat
  upage : UInt32
  kpage : UInt32
  readBytes : Nat
  zeroBytes : Nat
  writable : Bool
  hasLoadIn : Bool
  positionInSwap : Nat
  inSwapTable : Bool

/-- The descriptors, by their `pelem`, those that are allocated and the table. -/
structure Spages where
  spage : HashElem → Spages.Spage
  live : List HashElem
  table : Table

namespace Spages

variable {s s' : Spages} {p q e page : HashElem} {upage up : UInt32} {memory : Bool}

def upages (s : Spages) (e : HashElem) : UInt32 := (s.spage e).upage

/-- `lookup_spage`; `page` is the `pelem` of its local variable. -/
def lookupSpage (s : Spages) (page : HashElem) (upage : UInt32) : Option HashElem :=
  hashFind (pageFuncs (update s.upages page upage)) s.table page

/-- The fields of a new descriptor are set, and it is handed to `hash_insert`. -/
def insertSpage (s : Spages) (p : HashElem) (new : Spage) (memory : Bool) : Spages :=
  let spage := update s.spage p new
  ⟨spage, p :: s.live, (hashInsert (pageFuncs fun e => (spage e).upage) s.table p memory).1⟩

def setKpage (s : Spages) (p : HashElem) (kpage : UInt32) : Spages :=
  { s with spage := update s.spage p { s.spage p with kpage := kpage } }

/-- The loop over the table: the frame of the first read-only page of the file. -/
def sharedKpage (s : Spages) (file : UInt32) : Option UInt32 :=
  (s.table.elems.find? fun e => (s.spage e).fileSp == file && !(s.spage e).writable).map
    fun sp => (s.spage sp).kpage

/-- `create_spage`; `new` is what `malloc` returns, `install` is false when the shared frame
cannot be installed, and `none` stands for `exit`. -/
def createSpage (s : Spages) (file : UInt32) (ofs : Nat) (upage : UInt32)
    (readBytes zeroBytes : Nat) (writable : Bool) (new : Option HashElem)
    (memory install : Bool) : Option (Spages × HashElem) :=
  new.bind fun p =>
    let s := s.insertSpage p
      ⟨file, ofs, upage, (s.spage p).kpage, readBytes, zeroBytes, writable, false, 0, false⟩ memory
    match if file != 0 && !writable then s.sharedKpage file else none with
    | none => some (s, p)
    | some kpage =>
      if kpage != 0 && !install then none else some (s.setKpage p kpage, p)

/-- `spage_destroy`. -/
def spageDestroy (s : Spages) (page : HashElem) (upage : UInt32) (memory : Bool) : Spages :=
  match s.lookupSpage page upage with
  | none => s
  | some e => { s with
      live := s.live.erase e, table := (hashDelete (pageFuncs s.upages) s.table e memory).1 }

/-! ## the invariant -/

/-- The entries of the table are allocated. -/
structure Inv (s : Spages) : Prop where
  table : s.table.Inv (pageFuncs s.upages)
  live : ∀ e ∈ s.table.elems, e ∈ s.live

theorem equiv_iff {upages : HashElem → UInt32} {a b : HashElem} :
    (pageFuncs upages).Equiv a b ↔ upages a = upages b := by
  simp only [HashFuncs.Equiv, pageFuncs, decide_eq_false_iff_not, UInt32.not_lt]
  exact ⟨fun h => UInt32.le_antisymm h.2 h.1, fun h => h ▸ ⟨UInt32.le_refl _, UInt32.le_refl _⟩⟩

theorem Inv.update_eq (h : s.Inv) (hp : p ∉ s.live) (he : e ∈ s.table.elems) :
    update s.upages p upage e = s.upages e := by
  refine update_of_ne ?_ _ _
  rintro rfl
  exact hp (h.live e he)

theorem Inv.equiv_update (h : s.Inv) (hp : p ∉ s.live) (he : e ∈ s.table.elems) :
    (pageFuncs (update s.upages p upage)).Equiv e p ↔ s.upages e = upage := by
  rw [equiv_iff, update_self, h.update_eq hp he]

/-- The table may be used with the page of another element changed. -/
theorem Inv.changed (h : s.Inv) (hp : p ∉ s.live) (upage : UInt32) :
    s.table.Inv (pageFuncs (update s.upages p upage)) := by
  refine ⟨⟨h.table.cnt, ?_, h.table.nodup⟩, h.table.count, ?_⟩
  · intro i hi e he
    rw [← h.table.bucket i hi e he]
    simp only [findBucket, pageFuncs, h.update_eq hp (Table.mem_elems.mpr ⟨i, hi, he⟩)]
  · intro a ha b hb hab
    rw [equiv_iff, h.update_eq hp ha, h.update_eq hp hb] at hab
    exact h.table.unique a ha b hb (equiv_iff.mpr hab)

/-- **`lookup_spage` finds the entry for the page.** -/
theorem Inv.lookup_iff (h : s.Inv) (hpage : page ∉ s.live) :
    s.lookupSpage page up = some e ↔ e ∈ s.table.elems ∧ s.upages e = up := by
  have hinv := h.changed hpage up
  constructor
  · intro hfind
    obtain ⟨hmem, heq⟩ := hinv.findElem_some hfind
    exact ⟨hmem, (h.equiv_update hpage hmem).mp heq⟩
  · rintro ⟨hmem, hup⟩
    have hequiv := (h.equiv_update hpage hmem).mpr hup
    cases hfind : s.lookupSpage page up with
    | none => exact absurd hequiv (hinv.findElem_none hfind e hmem)
    | some found =>
      obtain ⟨hfound, heq⟩ := hinv.findElem_some hfind
      rw [hinv.unique found hfound e hmem (heq.trans hequiv.symm)]

theorem Inv.spageDestroy (h : s.Inv) (hpage : page ∉ s.live) (upage : UInt32) (memory : Bool) :
    (s.spageDestroy page upage memory).Inv := by
  unfold Spages.spageDestroy
  split
  · exact h
  · next e hfind =>
    obtain ⟨he, -⟩ := (h.lookup_iff hpage).mp hfind
    obtain ⟨hinv, hstep⟩ := h.table.hashDelete e memory
    refine ⟨hinv, fun a ha => ?_⟩
    have hset : a ∈ s.table.toSet ∧ a ≠ e := by
      generalize hashDelete (pageFuncs s.upages) s.table e memory = r at hstep ha
      obtain ⟨t, found⟩ := r
      change a ∈ t.toSet at ha
      generalize t.toSet = S at hstep ha
      cases hstep with
      | deleteNone hnone => exact absurd (.refl _ e) (hnone e he)
      | deleteSome hmem heq => exact ⟨ha.1, h.table.unique _ hmem e he heq ▸ ha.2⟩
    exact (mem_erase_of_ne hset.2).mpr (h.live a hset.1)

/-! ## create_spage -/

/-- What is changed when it returns: the descriptor is in the table unless there was one for
the page. -/
structure Created (s : Spages) (upage : UInt32) (p : HashElem) (s' : Spages) : Prop where
  upages : s'.upages = update s.upages p upage
  live : s'.live = p :: s.live
  table : s'.table.Inv (pageFuncs s'.upages)
  elems : ∀ e, e ∈ s'.table.elems ↔
    e ∈ s.table.elems ∨ (e = p ∧ ∀ a ∈ s.table.elems, s.upages a ≠ upage)

theorem Inv.insertSpage (h : s.Inv) (hp : p ∉ s.live) (new : Spage) (memory : Bool) :
    s.Created new.upage p (s.insertSpage p new memory) := by
  have hupages : (s.insertSpage p new memory).upages = update s.upages p new.upage :=
    funext fun e => apply_update (fun _ => Spage.upage) s.spage p new e
  have hmoves := (h.changed hp new.upage).hashInsert p memory
  rw [← hupages] at hmoves
  obtain ⟨hinv, hstep⟩ := hmoves
  refine ⟨hupages, rfl, hinv, fun e => ?_⟩
  change e ∈ (hashInsert (pageFuncs (s.insertSpage p new memory).upages) s.table p memory).1.toSet ↔
    e ∈ s.table.toSet ∨ _
  rw [hupages] at hstep ⊢
  generalize (hashInsert _ s.table p memory).1.toSet = S at hstep ⊢
  generalize (hashInsert _ s.table p memory).2 = r at hstep
  cases hstep with
  | insertNew hnew =>
    rw [Set.mem_insert_iff, or_comm, and_iff_left]
    exact fun a ha hup => hnew a ha ((h.equiv_update hp ha).mpr hup)
  | insertOld hold hequiv =>
    have hup := (h.equiv_update hp hold).mp hequiv
    exact (or_iff_left fun hno => hno.2 _ hold hup).symm

/-- The frame that is shared does not change the table. -/
theorem Created.setKpage (h : s.Created upage p s') (kpage : UInt32) :
    s.Created upage p (s'.setKpage p kpage) := by
  have hupages : (s'.setKpage p kpage).upages = s'.upages := by
    funext e
    refine (apply_update (fun _ => Spage.upage) s'.spage p _ e).trans ?_
    exact congrFun (update_eq_self_iff.mpr rfl) e
  exact ⟨hupages.trans h.upages, h.live, hupages ▸ h.table, h.elems⟩

variable {file : UInt32} {ofs readBytes zeroBytes : Nat} {writable install : Bool}

theorem Inv.createSpage (h : s.Inv) (hp : p ∉ s.live)
    (hcall : s.createSpage file ofs upage readBytes zeroBytes writable (some p) memory install =
      some (s', q)) : q = p ∧ s.Created upage p s' := by
  have hinsert := h.insertSpage hp
    ⟨file, ofs, upage, (s.spage p).kpage, readBytes, zeroBytes, writable, false, 0, false⟩ memory
  unfold Spages.createSpage at hcall
  rw [Option.bind_some] at hcall
  dsimp only at hcall
  split at hcall
  · cases hcall
    exact ⟨rfl, hinsert⟩
  · next kpage hkpage =>
    split at hcall
    · cases hcall
    · cases hcall
      exact ⟨rfl, hinsert.setKpage kpage⟩

theorem Created.inv (hs : s.Inv) (h : s.Created upage p s') : s'.Inv := by
  refine ⟨h.table, fun e he => ?_⟩
  rw [h.live, mem_cons]
  rcases (h.elems e).mp he with he | ⟨he, -⟩
  · exact .inr (hs.live e he)
  · exact .inl he

/-- Allocated, but not in the table. -/
def Lost (s : Spages) (e : HashElem) : Prop := e ∈ s.live ∧ e ∉ s.table.elems

/-- The page is looked up as `p`, the others as before, and no descriptor gets lost. -/
structure Kept (s : Spages) (upage : UInt32) (p : HashElem) (s' : Spages) : Prop where
  found : ∀ page ∉ s'.live, s'.lookupSpage page upage = some p
  others : ∀ page ∉ s'.live, ∀ up ≠ upage, s'.lookupSpage page up = s.lookupSpage page up
  lost : ∀ e, s'.Lost e → s.Lost e

/-- **The descriptor that `create_spage` returns is kept** exactly when the table had no
entry for the page. -/
theorem createSpage_kept_iff (h : s.Inv) (hp : p ∉ s.live)
    (hcall : s.createSpage file ofs upage readBytes zeroBytes writable (some p) memory install =
      some (s', q)) :
    s.Kept upage q s' ↔ ∀ e ∈ s.table.elems, (s.spage e).upage ≠ upage := by
  obtain ⟨rfl, hc⟩ := h.createSpage hp hcall
  have hinv := hc.inv h
  constructor
  · intro hkept
    by_contra hold
    -- otherwise the new descriptor would be lost
    have hlost : s'.Lost q := by
      refine ⟨hc.live ▸ mem_cons_self, fun hmem => ?_⟩
      rcases (hc.elems q).mp hmem with hmem | ⟨-, hno⟩
      · exact hp (h.live q hmem)
      · exact hold hno
    exact hp (hkept.lost q hlost).1
  · intro hno
    have helems : ∀ e, e ∈ s'.table.elems ↔ e ∈ s.table.elems ∨ e = q := fun e => by
      rw [hc.elems, and_iff_left (show ∀ a ∈ s.table.elems, s.upages a ≠ upage from hno)]
    refine ⟨fun page hpage => ?_, fun page hpage up hup => ?_, ?_⟩
    · rw [hinv.lookup_iff hpage, hc.upages, update_self]
      exact ⟨(helems q).mpr (.inr rfl), rfl⟩
    · have hpage' : page ∉ s.live := fun hm => hpage (hc.live ▸ mem_cons_of_mem q hm)
      refine Option.ext fun e => ?_
      rw [hinv.lookup_iff hpage, h.lookup_iff hpage', helems, hc.upages]
      constructor
      · rintro ⟨he | rfl, hupe⟩
        · rw [h.update_eq hp he] at hupe
          exact ⟨he, hupe⟩
        · rw [update_self] at hupe
          exact absurd hupe.symm hup
      · rintro ⟨he, hupe⟩
        rw [h.update_eq hp he]
        exact ⟨.inl he, hupe⟩
    · rintro e ⟨hlive, hout⟩
      rw [helems, not_or] at hout
      rw [hc.live, mem_cons, or_iff_right hout.2] at hlive
      exact ⟨hlive, hout.1⟩

/-- The table after `spage_init`. -/
def start : Spages :=
  ⟨fun _ => ⟨0, 0, 0, 0, 0, 0, false, false, 0, false⟩, [], (hashClear ⟨4, fun _ => [], 0⟩ false).1⟩

theorem elems_start : start.table.elems = [] := Table.elems_hashClear _ false

theorem inv_start : start.Inv where
  table := Table.inv_hashClear ⟨2, Nat.le_refl 2, rfl⟩ false
  live := by
    rw [elems_start]
    exact forall_mem_nil _

/-- A page is mapped twice: the second descriptor is in no table. -/
theorem createSpage_loses :
    (do
      let (s₁, _) ← start.createSpage 5 0 0x8048000 100 3996 true (some elemOne) true true
      let (s₂, p) ← s₁.createSpage 5 4096 0x8048000 200 3896 true (some elemTwo) true true
      return (p, s₂.live, s₂.table.elems, s₂.lookupSpage ⟨⟨32, by decide⟩, by decide⟩ 0x8048000)) =
      some (elemTwo, [elemTwo, elemOne], [elemOne], some elemOne) := by decide +kernel

theorem createSpage_kept_first : ∃ s₁ p,
    start.createSpage 5 0 0x8048000 100 3996 false (some elemOne) true true = some (s₁, p) ∧
      start.Kept 0x8048000 p s₁ := by
  have hsome : (start.createSpage 5 0 0x8048000 100 3996 false (some elemOne) true true).isSome := by
    decide +kernel
  obtain ⟨⟨s₁, p⟩, hcall⟩ := Option.isSome_iff_exists.mp hsome
  refine ⟨s₁, p, hcall, (createSpage_kept_iff inv_start not_mem_nil hcall).mpr ?_⟩
  rw [elems_start]
  exact forall_mem_nil _

end Spages

end Pintos
