import Pintos.Threads.MallocCalls

/-!
# Pintos.Threads.MallocSafe

The runs of the block allocator.

`malloc_safe`: live blocks do not overlap and are in pages that the allocator has, the counts
of the arenas are those of the lists, and no `ASSERT` fails.  It needs that sizes do not wrap
around (`MallocState.NoWrap`): for a size of at least 2³² - 11 bytes `malloc` returns a block
of one page, as its sum with the size of a header is small, and then `calloc` and `realloc`
write behind the end of the block (`malloc_not_safe`).
-/

namespace Pintos

open Bytes ListMem Kheap
open Function List Option

/-! ## malloc_init -/

variable {k k' : Kheap} {others : List PageRun} {L L' : HeapLayout} {g h : Holding}
  {m m' : Memory} {s s' : MallocState} {op : MallocOp} {b c i j x y n p size : Nat} {run : PageRun}

/-- The layout of a heap without blocks. -/
def HeapLayout.empty : HeapLayout := ⟨[], fun _ => []⟩

/-- A descriptor without free blocks. -/
structure DescInit (k : Kheap) (i : Nat) : Prop extends DescAt k i where
  list : ListAt (Node k .empty) k.mem (freeList (k.desc i)) []

theorem blockSize_lt_iff : ∀ j ≤ 7, (descBlockSize j < pgsize / 2 ↔ j < 7) := by decide

/-- What is written behind a descriptor does not change it. -/
theorem DescInit.congr (hdesc : DescInit k i) (hdescs : k'.descs = k.descs)
    (hm : ∀ x, x < k.desc i + descSize → k'.mem x = k.mem x) : DescInit k' i := by
  have heq : ∀ j, k'.desc j = k.desc j := fun j => congrArg (· + descSize * j) hdescs
  have hnode : Node k' .empty = Node k .empty := by
    unfold Node NodeOf
    simp only [heq]
  unfold descSize at hm
  refine ⟨⟨?_, ?_⟩, ?_⟩
  · rw [heq, ← hdesc.blockSize]
    exact word_congr fun x _ _ => hm x (by omega)
  · rw [heq, ← hdesc.blocks]
    exact word_congr fun x _ _ => hm x (by omega)
  · rw [hnode, heq]
    refine hdesc.list.congr fun y hy x _ hlt => hm x ?_
    unfold freeList at *
    rcases mem_cons.mp hy with rfl | hy
    · omega
    · rw [mem_singleton.mp hy] at hlt
      omega

theorem setDesc_of_lt (hx : x < c) :
    ListMem.listInit (setWord (setWord m c n) (c + 4) p) (freeList c) x = m x := by
  unfold freeList
  rw [ListAt.listInit_of_outside (by omega), setWord_of_outside (by omega),
    setWord_of_outside (by omega)]

/-- A round of the loop of `malloc_init` writes a descriptor. -/
theorem DescInit.of_round (hi : i < 7) (hpos : 0 < k.descs)
    (hlow : k.descs + descSize * 10 ≤ physBase + 1024 * 1024) (hdescs : k'.descs = k.descs)
    (hmem : k'.mem = ListMem.listInit (setWord (setWord k.mem (k.desc i) (descBlockSize i))
      (k.desc i + 4) (descBlocks i)) (freeList (k.desc i))) :
    DescInit k' i := by
  have hdesc : k.desc i = k.descs + 56 * i := rfl
  have hbounds := descBlockSize_bounds i hi
  have hbounds' := descBlocks_bounds i hi
  have hbehind : ∀ x, x < k.desc i + 8 → k'.mem x = setWord (setWord k.mem (k.desc i)
      (descBlockSize i)) (k.desc i + 4) (descBlocks i) x := by
    intro x hx
    rw [hmem]
    exact ListAt.listInit_of_outside (.inl hx)
  have hnode : ∀ y, y = freeList (k'.desc i) ∨ y = freeList (k'.desc i) + 8 → Node k' .empty y :=
    fun y hy => ⟨i, hi, hy.imp_right .inl⟩
  rw [desc_congr hdescs] at hnode
  refine ⟨⟨?_, ?_⟩, ?_⟩
  · rw [desc_congr hdescs, word_congr fun x _ _ => hbehind x (by omega),
      word_setWord_of_disjoint (by omega), word_setWord_self (by omega)]
  · rw [desc_congr hdescs, word_congr fun x _ _ => hbehind x (by omega),
      word_setWord_self (by omega)]
  · rw [desc_congr hdescs, hmem]
    refine ListAt.init (hnode _ (.inl rfl)) (hnode _ (.inr rfl)) ?_ ?_
    · unfold freeList
      unfold physBase descSize at hlow
      omega
    · exact Nat.lt_add_left _ (by decide)

theorem initDescs_ok (fuel : Nat) (hpos : 0 < k.descs)
    (hlow : k.descs + descSize * 10 ≤ physBase + 1024 * 1024) (hj : k.descCnt ≤ 7)
    (hfuel : 7 < fuel + k.descCnt) (hdescs : ∀ i < k.descCnt, DescInit k i)
    (hrun : initDescs fuel k (descBlockSize k.descCnt) = .ok k') :
    k'.descCnt = 7 ∧ k'.descs = k.descs ∧ k'.pages = k.pages ∧ ∀ i < 7, DescInit k' i := by
  induction fuel generalizing k with
  | zero => omega
  | succ fuel ih =>
    unfold initDescs at hrun
    have hiff := blockSize_lt_iff k.descCnt hj
    by_cases hlt : k.descCnt < 7
    · have hdouble : descBlockSize k.descCnt * 2 = descBlockSize (k.descCnt + 1) := by
        unfold descBlockSize
        rw [Nat.pow_succ, Nat.mul_assoc]
      rw [if_pos (hiff.mpr hlt)] at hrun
      dsimp only at hrun
      rw [if_neg (by omega), hdouble] at hrun
      refine ih (k := { k with mem := _, descCnt := k.descCnt + 1 }) hpos hlow hlt
        (by dsimp only; omega) (fun i hi => ?_) hrun
      rcases Nat.lt_succ_iff_lt_or_eq.mp hi with hi | rfl
      · refine (hdescs i hi).congr rfl fun x hx => setDesc_of_lt ?_
        have hle : 56 * (i + 1) ≤ 56 * k.descCnt := Nat.mul_le_mul_left 56 hi
        unfold Kheap.desc descSize at *
        omega
      · exact .of_round hlt hpos hlow rfl rfl
    · rw [if_neg fun h => hlt (hiff.mp h)] at hrun
      have hcnt : k.descCnt = 7 := by omega
      cases hrun
      exact ⟨hcnt, rfl, rfl, hcnt ▸ hdescs⟩

/-- **`malloc_init`**: there are seven descriptors and no blocks. -/
theorem mallocInit_ok (hpages : k.pages.Inv) (hruns : k.pages.runs false = []) (hpos : 0 < k.descs)
    (hlow : k.descs + descSize * 10 ≤ physBase + 1024 * 1024) (hcnt : k.descCnt = 0)
    (hinit : k.mallocInit = .ok k') : HeapOk k' [] .empty ∧ k'.pages = k.pages := by
  have hsize : descBlockSize k.descCnt = 16 := by rw [hcnt]; rfl
  rw [Kheap.mallocInit, ← hsize] at hinit
  obtain ⟨hcnt', hdescs', hpages', hall⟩ := initDescs_ok 32 hpos hlow (by omega) (by omega)
    (fun i hi => absurd hi (by omega)) hinit
  refine ⟨⟨⟨⟨hpages' ▸ hpages, ?_, hdescs' ▸ hpos, hdescs' ▸ hlow, hcnt', nofun, nofun⟩,
    fun i hi => (hall i hi).toDescAt, nofun, fun i hi => (hall i hi).list⟩, nofun⟩, hpages'⟩
  rw [hpages', hruns]
  exact .nil

/-! ## one step -/

/-- **The invariant of a run**: the blocks that have been returned and not been freed are the
live ones. -/
structure MallocState.Ok (s : MallocState) (L : HeapLayout) : Prop where
  heap : HeapOk s.heap (s.others false) L
  users : s.heap.pages.runs true = s.others true
  nodup : s.live.Nodup
  live : ∀ b, b ∈ s.live ↔ L.Live b

/-- The sizes with which `calloc` and `realloc` do not write behind the end of a block. -/
def MallocState.NoWrap (s : MallocState) : MallocOp → Prop
  | .calloc a b => a * b % sizeTSize < a ∨ a * b % sizeTSize < b ∨
      a * b % sizeTSize + arenaSize < sizeTSize
  | .realloc oldBlock newSize => oldBlock = 0 ∨ newSize + arenaSize < sizeTSize ∨
      (s.heap.blockSize oldBlock).toOption.getD 0 ≤ pgsize - arenaSize
  | _ => True

/-- The operations that are calls of the allocator. -/
def MallocOp.isCall : MallocOp → Bool
  | .malloc _ | .calloc _ _ | .realloc _ _ | .free _ => true
  | _ => false

namespace MallocState.Ok

section

variable (hok : s.Ok L) {ofs : Nat} {v : UInt8} {user : Bool}
include hok

theorem not_live_zero : 0 ∉ s.live := by
  intro hmem
  obtain ⟨h, hh, hb, -⟩ := (hok.live 0).mp hmem
  exact hok.heap.toHeapInv.toHeapShape.block_ne_zero hh hb rfl

theorem returned (halloc : HeapOk.Allocated k' (s.others false) L L' g p size)
    (huser : k'.pages.runs true = s.heap.pages.runs true) :
    Ok { s with heap := k', live := MallocState.returned p s.live } L' := by
  refine ⟨halloc.toHeapOk, huser.trans hok.users, ?_, fun b => ?_⟩
  · dsimp only
    rw [MallocState.returned, if_neg halloc.ne_zero]
    exact nodup_cons.mpr ⟨fun hmem => halloc.not_live ((hok.live p).mp hmem), hok.nodup⟩
  · dsimp only
    rw [MallocState.returned, if_neg halloc.ne_zero, mem_cons, halloc.live, hok.live]

theorem malloc (hsize : size < sizeTSize) : ∃ s' L', s.exec (.malloc size) = .ok s' ∧ s'.Ok L' := by
  unfold MallocState.exec
  dsimp only
  rcases hok.heap.malloc_spec hsize with ⟨heq, -⟩ | ⟨-, k', L', g, p, heq, halloc, huser⟩
  · rw [heq]
    exact ⟨s, L, rfl, hok⟩
  · rw [heq]
    exact ⟨_, L', rfl, hok.returned halloc huser⟩

theorem calloc (hC : s.NoWrap (.calloc b c)) :
    ∃ s' L', s.exec (.calloc b c) = .ok s' ∧ s'.Ok L' := by
  unfold MallocState.exec
  dsimp only
  rcases hok.heap.calloc_spec hC with heq | ⟨k', L', g, p, heq, halloc, huser⟩
  · rw [heq]
    exact ⟨s, L, rfl, hok⟩
  · rw [heq]
    exact ⟨_, L', rfl, hok.returned halloc huser⟩

theorem free (hlegal : p = 0 ∨ p ∈ s.live) :
    ∃ k' L', s.heap.free p = .ok k' ∧ Ok { s with heap := k', live := s.live.erase p } L' := by
  rcases hlegal with rfl | hmem
  · refine ⟨s.heap, L, rfl, ?_⟩
    rwa [erase_of_not_mem hok.not_live_zero]
  · obtain ⟨k', L', heq, hheap, huser, hlive⟩ := hok.heap.free_spec ((hok.live p).mp hmem)
    refine ⟨k', L', heq, hheap, huser.trans hok.users, hok.nodup.erase p, fun b => ?_⟩
    dsimp only
    rw [hok.nodup.mem_erase_iff, hlive, hok.live, and_comm]

theorem realloc (hlegal : p = 0 ∨ p ∈ s.live) (hsize : size < sizeTSize)
    (hC : s.NoWrap (.realloc p size)) : ∃ s' L', s.exec (.realloc p size) = .ok s' ∧ s'.Ok L' := by
  unfold MallocState.exec
  dsimp only
  by_cases hzero : size = 0
  · obtain ⟨k', L', hfree, hok'⟩ := hok.free hlegal
    rw [Kheap.realloc, if_pos hzero, hfree, ok_bind, pure_eq_ok, ok_bind]
    dsimp only
    rw [if_pos (.inr hzero), pure_eq_ok]
    exact ⟨_, L', rfl, hok'⟩
  · rcases hlegal with rfl | hmem
    · -- without an old block this is `malloc`
      have hmalloc : s.heap.realloc 0 size = s.heap.malloc size := by
        rw [Kheap.realloc, if_neg hzero]
        cases s.heap.malloc size with
        | error e => rfl
        | ok r =>
          rw [ok_bind]
          dsimp only
          rw [if_neg fun hne => hne.1 rfl]
          rfl
      have herase : s.live.erase 0 = s.live := erase_of_not_mem hok.not_live_zero
      rw [hmalloc]
      rcases hok.heap.malloc_spec hsize with ⟨heq, -⟩ | ⟨-, k', L', g, p, heq, halloc, huser⟩
      · rw [heq, ok_bind]
        dsimp only
        rw [if_neg (by omega)]
        exact ⟨s, L, rfl, hok⟩
      · rw [heq, ok_bind]
        dsimp only
        rw [if_pos (.inl halloc.ne_zero), herase]
        exact ⟨_, L', rfl, hok.returned halloc huser⟩
    · have hlive := (hok.live p).mp hmem
      have hfits : size + arenaSize < sizeTSize ∨
          ∃ n, s.heap.blockSize p = .ok n ∧ n ≤ pgsize - arenaSize := by
        obtain ⟨h, hh, hb, -⟩ := hlive
        have hbsize := hok.heap.toHeapInv.blockSize_eq hh hb
        rcases hC with rfl | hlt | hle
        · exact absurd hmem hok.not_live_zero
        · exact .inl hlt
        · rw [hbsize] at hle
          exact .inr ⟨h.size, hbsize, hle⟩
      rcases hok.heap.realloc_spec hlive hzero hsize hfits with
        heq | ⟨k', L', q, heq, hheap, hq, hnot, huser, hlive'⟩
      · rw [heq, ok_bind]
        dsimp only
        rw [if_neg (by omega)]
        exact ⟨s, L, rfl, hok⟩
      · rw [heq, ok_bind]
        dsimp only
        rw [if_pos (.inl hq), MallocState.returned, if_neg hq]
        have hqlive : q ∉ s.live := fun hmem' => hnot ((hok.live q).mp hmem')
        refine ⟨_, L', rfl, hheap, huser.trans hok.users, ?_, fun b => ?_⟩
        · exact nodup_cons.mpr ⟨fun hmem' => hqlive (mem_of_mem_erase hmem'),
            hok.nodup.erase p⟩
        · dsimp only
          rw [mem_cons, hok.nodup.mem_erase_iff, hlive', hok.live]
          have hqp : q ≠ p := fun heq' => hqlive (heq' ▸ hmem)
          constructor
          · rintro (rfl | ⟨hne, hb⟩)
            · exact ⟨.inl rfl, hqp⟩
            · exact ⟨.inr hb, hne⟩
          · rintro ⟨rfl | hb, hne⟩
            · exact .inl rfl
            · exact .inr ⟨hne, hb⟩

/-- **Every call of the allocator returns.** -/
theorem call (hcall : op.isCall = true) (hlegal : s.Legal op) (hC : s.NoWrap op) :
    ∃ s' L', s.exec op = .ok s' ∧ s'.Ok L' := by
  cases op with
  | malloc size => exact hok.malloc hlegal
  | calloc a b => exact hok.calloc hC
  | realloc oldBlock newSize => exact hok.realloc hlegal.1 hlegal.2 hC
  | free p =>
    obtain ⟨k', L', heq, hok'⟩ := hok.free hlegal
    refine ⟨_, L', ?_, hok'⟩
    rw [MallocState.exec, heq]
    rfl
  | _ => cases hcall

theorem write (hlegal : s.Legal (.write p ofs v)) :
    Ok { s with heap := { s.heap with mem := setRange s.heap.mem (p + ofs) 1 v } } L := by
  obtain ⟨hmem, hofs⟩ := hlegal
  obtain ⟨g, hg, hb, hnot⟩ := (hok.live p).mp hmem
  rw [hok.heap.toHeapInv.blockSize_eq hg hb] at hofs
  change ofs < g.size at hofs
  refine ⟨⟨hok.heap.toHeapInv.write hg hb hnot fun x hx => ?_, hok.heap.used⟩, hok.users,
    hok.nodup, hok.live⟩
  exact setRange_of_outside (by omega)

theorem writePage (hlegal : s.Legal (.writePage user run ofs v)) :
    Ok { s with heap := { s.heap with mem := setRange s.heap.mem (run.pages + ofs) 1 v } } L := by
  obtain ⟨hmem, hofs⟩ := hlegal
  have hs := hok.heap.toHeapInv.toHeapShape
  have hlow := hs.descs_low
  have hout : s.heap.descs + descSize * 10 ≤ run.pages ∧ ∀ h ∈ L.own,
      h.pages + pgsize * h.cnt ≤ run.pages ∨ run.pages + pgsize * run.cnt ≤ h.pages := by
    cases user with
    | false =>
      have hkernel := hs.pages.kernel_run (hs.runs.mem_iff.mpr (mem_append_right _ hmem))
      exact ⟨by omega, fun h hh => hs.apart_others hh hmem⟩
    | true =>
      rw [← hok.users] at hmem
      have hpool := hs.pages.inPool hmem
      have hsafe := hs.pages.safe
      have hbase : s.heap.pages.palloc.userPool.block ≤ s.heap.pages.palloc.userPool.base :=
        Nat.le_trans (Nat.le_add_right _ _) (hs.pages.layout.storage true)
      have hpools := hsafe.pools
      have hblock := hs.pages.layout.low
      have hstart := hpool.2.2.1
      change s.heap.pages.palloc.userPool.base ≤ _ at hstart
      refine ⟨by omega, fun h hh => ?_⟩
      exact (pairwise_append.mp hsafe.apart).2.2 h.run (hs.run_mem hh) run hmem
  refine ⟨⟨hok.heap.toHeapInv.write_outside hout.1 hout.2 fun x hx => ?_, hok.heap.used⟩,
    hok.users, hok.nodup, hok.live⟩
  exact setRange_of_outside (by omega)

theorem setPages {pages : PallocState} {others : Bool → List PageRun} (hpages : pages.Inv)
    (hruns : (pages.runs false).Perm (L.own.map Holding.run ++ others false))
    (husers : pages.runs true = others true) :
    Ok { s with heap := { s.heap with pages }, others } L := by
  have hinv := hok.heap.toHeapInv
  have hs := hinv.toHeapShape
  exact ⟨⟨⟨⟨hpages, hruns, hs.descs_pos, hs.descs_low, hs.descCnt, hs.arena, hs.free⟩,
    fun i hi => ⟨(hinv.descs i hi).blockSize, (hinv.descs i hi).blocks⟩,
    fun h hh => ⟨(hinv.header h hh).magic, (hinv.header h hh).desc, (hinv.header h hh).freeCnt⟩,
    hinv.lists⟩, hok.heap.used⟩, husers, hok.nodup, hok.live⟩

/-- Another user takes or returns pages. -/
theorem setRuns {palloc : Palloc} (f : List PageRun → List PageRun)
    (hpages : PallocState.Inv ⟨palloc, update s.heap.pages.runs user (f (s.heap.pages.runs user))⟩)
    (hf : user = false →
      (f (s.heap.pages.runs false)).Perm (L.own.map Holding.run ++ f (s.others false))) :
    Ok { s with
      heap := { s.heap with
        pages := ⟨palloc, update s.heap.pages.runs user (f (s.heap.pages.runs user))⟩ }
      others := update s.others user (f (s.others user)) } L := by
  cases user with
  | false => exact hok.setPages hpages (hf rfl) hok.users
  | true => exact hok.setPages hpages hok.heap.toHeapInv.runs (congrArg f hok.users)

theorem getPages {flags : PallocFlags} (hexec : s.exec (.getPages flags n) = .ok s') : s'.Ok L := by
  have hs := hok.heap.toHeapInv.toHeapShape
  have hstep : ∀ pages, s.heap.pages.step (.get flags n) = some pages → pages.Inv :=
    fun _ => hs.pages.step
  unfold MallocState.exec at hexec
  unfold PallocState.step at hstep
  dsimp only at hexec hstep
  cases hget : pallocGetMultiple s.heap.pages.palloc flags n with
  | error e =>
    rw [hget] at hexec
    cases hexec
  | ok r =>
    obtain ⟨palloc, pages⟩ := r
    rw [hget] at hexec hstep
    dsimp only at hexec hstep
    by_cases hnull : pages = 0
    · rw [if_pos hnull] at hexec hstep
      cases hexec
      exact hok.setPages (hstep _ rfl) hs.runs hok.users
    · rw [if_neg hnull] at hexec hstep
      cases hexec
      exact hok.setRuns (⟨pages, n⟩ :: ·) (hstep _ rfl) fun _ =>
        (hs.runs.cons _).trans perm_middle.symm

theorem freePages (hmem : run ∈ s.others user)
    (hexec : s.exec (.freePages user run) = .ok s') : s'.Ok L := by
  have hs := hok.heap.toHeapInv.toHeapShape
  have hstep : ∀ pages, s.heap.pages.step (.free user run) = some pages → pages.Inv :=
    fun _ => hs.pages.step
  have hrun : run ∈ s.heap.pages.runs user := by
    cases user with
    | false => exact hs.runs.mem_iff.mpr (mem_append_right _ hmem)
    | true => exact hok.users ▸ hmem
  unfold MallocState.exec at hexec
  unfold PallocState.step at hstep
  dsimp only at hexec hstep
  rw [if_pos hrun] at hstep
  cases hfree : pallocFreeMultiple s.heap.pages.palloc run.pages run.cnt with
  | error e =>
    rw [hfree] at hexec
    cases hexec
  | ok palloc =>
    rw [hfree] at hexec hstep
    cases hexec
    refine hok.setRuns (·.erase run) (hstep _ rfl) ?_
    rintro rfl
    have hnot : run ∉ L.own.map Holding.run := by
      intro hown
      obtain ⟨h, hh, rfl⟩ := List.mem_map.mp hown
      exact hs.not_others hh hmem
    have herase := hs.runs.erase run
    rwa [erase_append_right _ hnot] at herase

/-- **One step keeps the invariant.** -/
theorem step (hC : s.NoWrap op) (hstep : s.step op = some s') : ∃ L', s'.Ok L' := by
  unfold MallocState.step at hstep
  split at hstep
  · next hlegal =>
    have hexec := eq_ok_of_toOption hstep
    have hcall : op.isCall = true → ∃ L', s'.Ok L' := by
      intro hcall
      obtain ⟨s₁, L', heq, hok'⟩ := hok.call hcall hlegal hC
      rw [hexec] at heq
      exact ⟨L', Except.ok.inj heq ▸ hok'⟩
    cases op with
    | malloc _ | calloc _ _ | realloc _ _ | free _ => exact hcall rfl
    | write p ofs v =>
      cases hexec
      exact ⟨L, hok.write hlegal⟩
    | getPages flags pageCnt => exact ⟨L, hok.getPages hexec⟩
    | freePages user run => exact ⟨L, hok.freePages hlegal hexec⟩
    | writePage user run ofs v =>
      cases hexec
      exact ⟨L, hok.writePage hlegal⟩
  · cases hstep

end

end MallocState.Ok

/-- **The invariant holds in every state reached.** -/
theorem mallocMachine_ok (h : mallocMachine.ReachIn MallocState.NoWrap s) : ∃ L, s.Ok L := by
  refine h.invariant (I := fun s => ∃ L, s.Ok L) ?_ ?_
  rotate_left
  · rintro s op s' ⟨L, hok⟩ hC hstep
    exact hok.step hC hstep
  rintro ⟨heap, live, others⟩ ⟨hlive, hothers, k, ⟨ramKb, limit, junk, hram, hinit⟩, hruns, hpos,
    hlow, hcnt, hmalloc⟩
  dsimp only at hlive hothers
  subst hlive hothers
  obtain ⟨hlayout, hholds⟩ := pallocInit_ok hram hinit
  have hpages : k.pages.Inv := ⟨hlayout, fun user => by rw [hruns]; exact hholds user⟩
  obtain ⟨hok, hpages'⟩ := mallocInit_ok hpages (congrFun hruns false) hpos hlow hcnt hmalloc
  refine ⟨.empty, hok, ?_, nodup_nil, fun b => ⟨nofun, ?_⟩⟩
  · dsimp only
    rw [hpages', hruns]
  · rintro ⟨h, hh, -⟩
    exact nomatch hh

/-! ## every run -/

namespace MallocState

/-- The bytes of a live block: those of its descriptor's size, or all pages of a big block. -/
def range (s : MallocState) (b : Nat) : Nat × Nat :=
  let a := pgRoundDown b
  let d := word s.heap.mem (a + 4)
  if d ≠ 0 then (b, b + word s.heap.mem d) else (a, a + pgsize * word s.heap.mem (a + 8))

/-- The allocator has taken the run of pages and not returned it. -/
def Own (s : MallocState) (run : PageRun) : Prop :=
  run ∈ s.heap.pages.runs false ∧ run ∉ s.others false

/-- What callers rely on. -/
structure Safe (s : MallocState) : Prop where
  /-- live blocks do not overlap -/
  apart : s.live.Pairwise fun b c =>
    (s.range b).2 ≤ (s.range c).1 ∨ (s.range c).2 ≤ (s.range b).1
  /-- a live block is in pages that have not been returned -/
  inside : ∀ b ∈ s.live, (s.range b).1 ≤ b ∧ b < (s.range b).2 ∧
    ∃ run, s.Own run ∧ run.pages ≤ (s.range b).1 ∧ (s.range b).2 ≤ run.pages + pgsize * run.cnt
  /-- a run of pages is an arena of a descriptor, or a big block -/
  arenas : ∀ run, s.Own run → word s.heap.mem (run.pages + 4) = 0 ∨
    ∃ i < s.heap.descCnt, word s.heap.mem (run.pages + 4) = s.heap.desc i
  /-- no live block is in a list of free blocks, and the counts are those of the lists -/
  lists : ∀ i < s.heap.descCnt, ∃ free, Dll.IsList (links s.heap.mem)
      (freeList (s.heap.desc i)) (freeList (s.heap.desc i) + 8) free ∧
    (∀ b ∈ free, b ∉ s.live) ∧
    ∀ run, s.Own run → word s.heap.mem (run.pages + 4) = s.heap.desc i →
      word s.heap.mem (run.pages + 8) =
        free.countP fun b => decide (pgRoundDown b = run.pages)
  /-- pages without a live block have been returned -/
  owned : ∀ run, s.Own run → ∃ b ∈ s.live, pgRoundDown b = run.pages
  /-- no `ASSERT` fails for a live block -/
  asserts : ∀ b ∈ s.live, (blockToArena s.heap.mem b).isOk ∧ (s.heap.free b).isOk

end MallocState

namespace MallocState.Ok

theorem own_iff (hok : s.Ok L) : s.Own run ↔ ∃ h ∈ L.own, h.run = run := by
  have hs := hok.heap.toHeapInv.toHeapShape
  unfold Own
  rw [hs.runs.mem_iff, mem_append]
  constructor
  · rintro ⟨hown | hother, hnot⟩
    · exact List.mem_map.mp hown
    · exact absurd hother hnot
  · rintro ⟨h, hh, rfl⟩
    exact ⟨.inl (List.mem_map_of_mem hh), hs.not_others hh⟩

theorem range_eq (hok : s.Ok L) (hh : h ∈ L.own) (hb : h.Has b) :
    s.range b = if h.desc = none then (h.pages, h.pages + pgsize * h.cnt) else (b, b + h.size) := by
  have hinv := hok.heap.toHeapInv
  have hheader := hinv.header h hh
  unfold MallocState.range
  dsimp only
  rw [(hinv.wf hh).roundDown hb, hheader.desc, hheader.freeCnt]
  unfold headerDesc HeapLayout.freeCnt Holding.size
  cases hdesc : h.desc with
  | none => rfl
  | some i =>
    have hi := (hinv.arena h hh i hdesc).1
    dsimp only
    rw [if_pos (hinv.desc_pos i), (hinv.descs i hi).blockSize]
    rfl

theorem range_apart (hok : s.Ok L) (hh : h ∈ L.own) (hg : g ∈ L.own) (hb : h.Has b) (hc : g.Has c)
    (hne : b ≠ c) : (s.range b).2 ≤ (s.range c).1 ∨ (s.range c).2 ≤ (s.range b).1 := by
  have hs := hok.heap.toHeapInv.toHeapShape
  have hbounds := (hs.wf hh).bounds hb
  have hbounds' := (hs.wf hg).bounds hc
  rw [hok.range_eq hh hb, hok.range_eq hg hc]
  by_cases heq : h = g
  · subst heq
    have happart := Holding.Wf.blocks_apart hb hc hne
    cases hdesc : h.desc with
    | none =>
      rw [Holding.Wf.has_iff_of_big hdesc] at hb hc
      exact absurd (hb.trans hc.symm) hne
    | some i => exact happart
  · have happart := hs.apart hh hg heq
    split <;> split <;> dsimp only <;> omega

/-- **The invariant gives what callers rely on.** -/
theorem safe (hok : s.Ok L) : s.Safe where
  apart := by
    refine hok.nodup.imp_of_mem fun {b c} hb hc hne => ?_
    obtain ⟨h, hh, hb, -⟩ := (hok.live b).mp hb
    obtain ⟨g, hg, hc, -⟩ := (hok.live c).mp hc
    exact hok.range_apart hh hg hb hc hne
  inside := by
    intro b hmem
    obtain ⟨h, hh, hb, -⟩ := (hok.live b).mp hmem
    have hw := hok.heap.toHeapInv.wf hh
    have hbounds := hw.bounds hb
    have hsize := hw.size_ge
    rw [hok.range_eq hh hb]
    split
    · exact ⟨by omega, by omega, h.run, hok.own_iff.mpr ⟨h, hh, rfl⟩, le_rfl, le_rfl⟩
    · exact ⟨le_refl b, by omega, h.run, hok.own_iff.mpr ⟨h, hh, rfl⟩, by
        change h.pages ≤ b
        omega, hbounds.2⟩
  arenas := by
    intro run hown
    obtain ⟨h, hh, rfl⟩ := hok.own_iff.mp hown
    have hinv := hok.heap.toHeapInv
    have hword : word s.heap.mem (h.run.pages + 4) = _ := (hinv.header h hh).desc
    rw [hword, hinv.descCnt]
    unfold headerDesc
    cases hdesc : h.desc with
    | none => exact .inl rfl
    | some i => exact .inr ⟨i, (hinv.arena h hh i hdesc).1, rfl⟩
  lists := by
    intro i hi
    have hinv := hok.heap.toHeapInv
    rw [hinv.descCnt] at hi
    refine ⟨L.free i, (hinv.lists i hi).isList, fun b hfree hmem => ?_, fun run hown hword => ?_⟩
    · obtain ⟨h, hh, hb, hnot⟩ := (hok.live b).mp hmem
      obtain ⟨g, hg, hdesc, hc⟩ := hinv.free i hi b hfree
      rw [hinv.has_inj hh hg hb hc, HeapShape.freeOf_of_desc hdesc] at hnot
      exact hnot hfree
    · obtain ⟨h, hh, rfl⟩ := hok.own_iff.mp hown
      have hheader := hinv.header h hh
      have hword' : word s.heap.mem (h.run.pages + 4) = _ := hheader.desc
      have hcnt : word s.heap.mem (h.run.pages + 8) = _ := hheader.freeCnt
      rw [hword'] at hword
      rw [hcnt]
      unfold headerDesc at hword
      unfold HeapLayout.freeCnt
      cases hdesc : h.desc with
      | none =>
        rw [hdesc] at hword
        exact absurd hword.symm (hinv.desc_pos i)
      | some j =>
        rw [hdesc] at hword
        have hij : s.heap.descs + 56 * j = s.heap.descs + 56 * i := hword
        have heq : j = i := by omega
        subst heq
        rfl
  owned := by
    intro run hown
    obtain ⟨h, hh, rfl⟩ := hok.own_iff.mp hown
    obtain ⟨b, hb, hnot⟩ := hok.heap.used h hh
    exact ⟨b, (hok.live b).mpr ⟨h, hh, hb, hnot⟩, (hok.heap.toHeapInv.wf hh).roundDown hb⟩
  asserts := by
    intro b hmem
    obtain ⟨h, hh, hb, -⟩ := (hok.live b).mp hmem
    obtain ⟨k', L', hfree, -⟩ := hok.free (.inr hmem)
    rw [hok.heap.toHeapInv.blockToArena_has hh hb, hfree]
    exact ⟨rfl, rfl⟩

end MallocState.Ok

/-- **The block allocator.**  In every run in which sizes do not wrap around, live blocks do
not overlap and are in pages that have not been returned, the counts of the arenas are those of
the lists, arenas are returned with their last live block, and every call returns. -/
theorem malloc_safe (h : mallocMachine.ReachIn MallocState.NoWrap s) :
    s.Safe ∧ ∀ op, op.isCall = true → s.Legal op → s.NoWrap op → ∃ s', s.step op = some s' := by
  obtain ⟨L, hok⟩ := mallocMachine_ok h
  refine ⟨hok.safe, fun op hcall hlegal hC => ?_⟩
  obtain ⟨s', L', heq, -⟩ := hok.call hcall hlegal hC
  refine ⟨s', ?_⟩
  rw [MallocState.step, if_pos hlegal, heq]
  rfl

/-- A machine with 2 MB of memory. -/
def smallHeap : Option MallocState :=
  (pallocInit 2048 1000 fun _ _ => false).toOption.bind fun palloc =>
    (mallocInit ⟨fun _ => 0, ⟨palloc, fun _ => []⟩, 0xc0020000, 0⟩).toOption.map fun heap =>
      ⟨heap, [], fun _ => []⟩

theorem smallHeap_init (hs : smallHeap = some s) : mallocMachine.init s := by
  obtain ⟨palloc, hpalloc, hs⟩ := bind_eq_some_iff.mp hs
  obtain ⟨heap, hheap, rfl⟩ := map_eq_some_iff.mp hs
  have hpos : 0 < 0xc0020000 := by decide
  have hlow : 0xc0020000 + descSize * 10 ≤ physBase + 1024 * 1024 := by decide
  exact ⟨rfl, rfl, _, ⟨2048, 1000, _, by decide, eq_ok_of_toOption hpalloc⟩, rfl, hpos, hlow, rfl,
    eq_ok_of_toOption hheap⟩

instance (s : MallocState) (op : MallocOp) : Decidable (s.NoWrap op) := by
  rcases op with ⟨⟩ <;> unfold MallocState.NoWrap <;> infer_instance

/-- Two blocks of one arena and a big block that grows. -/
theorem malloc_safe_small_heap : ∃ s, mallocMachine.ReachIn MallocState.NoWrap s ∧
    s.live.length = 3 ∧ s.Safe ∧ ∃ s', s.step (.malloc 3000) = some s' := by
  obtain ⟨s₀, h0⟩ : ∃ s₀, smallHeap = some s₀ := isSome_iff_exists.mp (by decide +kernel)
  have hrun : (smallHeap.bind fun s => mallocMachine.runIn MallocState.NoWrap s
      [.malloc 600, .malloc 700, .calloc 2 1500, .realloc 0xc010200c 5000]).any fun s =>
        s.live.length = 3 := by
    decide +kernel
  rw [h0] at hrun
  obtain ⟨s, -, hreach, hlive⟩ :=
    Machine.exists_reachIn_of_runIn (smallHeap_init h0) _ _ hrun
  have hsafe := malloc_safe hreach
  have hlegal : 3000 < sizeTSize := by decide
  exact ⟨s, hreach, hlive, hsafe.1, hsafe.2 (.malloc 3000) rfl hlegal trivial⟩

/-- A block of 5000 bytes is given 2³² - 1 bytes: `realloc` gets one page and copies two, so
that the header of the next arena is overwritten. -/
theorem malloc_not_safe : ∃ s, mallocMachine.Reach s ∧ ¬ s.Safe := by
  obtain ⟨s₀, h0⟩ : ∃ s₀, smallHeap = some s₀ := isSome_iff_exists.mp (by decide +kernel)
  have hrun : (smallHeap.bind fun s => mallocMachine.runFrom s
      [.malloc 1000, .malloc 500, .free 0xc010100c, .malloc 5000,
        .realloc 0xc010300c 0xffffffff]).any fun s =>
        0xc010200c ∈ s.live ∧ (s.heap.free 0xc010200c).isOk = false := by
    decide +kernel
  rw [h0] at hrun
  obtain ⟨s, -, hreach, hmem, hpanic⟩ :=
    Machine.exists_reach_of_runFrom (smallHeap_init h0) _ _ hrun
  refine ⟨s, hreach, fun hsafe => ?_⟩
  rw [(hsafe.asserts _ hmem).2] at hpanic
  exact nomatch hpanic

/-! ## room -/

/-- A block that `malloc` returns has `size` bytes. -/
def Kheap.MallocRoom (k : Kheap) (size : Nat) : Prop :=
  ∀ k' p, k.malloc size = .ok (k', p) → p ≠ 0 → ∃ n, k'.blockSize p = .ok n ∧ size ≤ n

/-- A block that `calloc` returns has `a * b` bytes, and these are zero. -/
def Kheap.CallocRoom (k : Kheap) (a b : Nat) : Prop :=
  ∀ k' p, k.calloc a b = .ok (k', p) → p ≠ 0 →
    (∃ n, k'.blockSize p = .ok n ∧ a * b ≤ n) ∧ ∀ x, p ≤ x → x < p + a * b → k'.mem x = 0

/-- **Room.**  A block has the size asked for, unless there is memory for a size that wraps
around: with the size of a header in `malloc`, and in `calloc` for a product that is still at
least as big as its factors. -/
theorem malloc_room_iff (hok : HeapOk k others L) (hsize : size < sizeTSize) (a b : Nat) :
    (k.MallocRoom size ↔ size + arenaSize < sizeTSize ∨ ¬ k.HasMemory size) ∧
    (k.CallocRoom a b ↔ a * b < sizeTSize ∨ a * b % sizeTSize < a ∨ a * b % sizeTSize < b ∨
      sizeTSize ≤ a * b % sizeTSize + arenaSize ∨ ¬ k.HasMemory (a * b % sizeTSize)) := by
  refine ⟨?_, ?_⟩
  · rcases hok.malloc_spec hsize with ⟨hmalloc, hno⟩ | ⟨hhas, k', L', g, p, hmalloc, halloc, -⟩
    · refine iff_of_true (fun k' p heq hne => ?_) (.inr hno)
      rw [hmalloc] at heq
      exact absurd (congrArg Prod.snd (Except.ok.inj heq)).symm hne
    · have hblock := halloc.toHeapInv.blockSize_eq halloc.mem halloc.has
      refine ⟨fun hroom => .inl ?_, fun hcond k'' p' heq _ => ?_⟩
      · obtain ⟨n, hn, hle⟩ := hroom k' p hmalloc halloc.ne_zero
        have hlt := halloc.size_lt.1
        rw [hblock, Except.ok.injEq] at hn
        unfold arenaSize sizeTSize
        omega
      · rw [hmalloc, Except.ok.injEq, Prod.mk.injEq] at heq
        obtain ⟨rfl, rfl⟩ := heq
        exact ⟨_, hblock, halloc.room (hcond.resolve_right (not_not_intro hhas))⟩
  · have hlt : a * b % sizeTSize < sizeTSize := Nat.mod_lt _ (by decide)
    by_cases hwrap : a * b % sizeTSize < a ∨ a * b % sizeTSize < b
    · refine iff_of_true (fun k' p heq hne => ?_) (.inr (hwrap.imp_right .inl))
      rw [calloc, if_pos hwrap, pure_eq_ok] at heq
      exact absurd (congrArg Prod.snd (Except.ok.inj heq)).symm hne
    rcases hok.malloc_spec hlt with ⟨hmalloc, hno⟩ | ⟨hhas, k', L', g, p, hmalloc, halloc, -⟩
    · refine iff_of_true (fun k' p heq hne => ?_) (.inr (.inr (.inr (.inr hno))))
      unfold calloc at heq
      rw [if_neg hwrap, hmalloc] at heq
      exact absurd (congrArg Prod.snd (Except.ok.inj heq)).symm hne
    · have hcalloc := HeapOk.calloc_eq hwrap hmalloc halloc
      have hsmall := halloc.size_lt
      have hstop := halloc.le_stop
      -- the size of the block is not changed by what is written to it
      have hblock : a * b % sizeTSize ≤ g.size →
          Kheap.blockSize { k' with mem := setRange k'.mem p (a * b % sizeTSize) 0 } p =
            .ok g.size := by
        intro hle
        have hout : ∀ x, x < p ∨ p + g.size ≤ x →
            setRange k'.mem p (a * b % sizeTSize) 0 x = k'.mem x :=
          fun x hx => setRange_of_outside (by omega)
        have hwrite := halloc.write hout
        exact hwrite.toHeapInv.blockSize_eq hwrite.mem hwrite.has
      refine ⟨fun hroom => ?_, fun hcond k'' p' heq _ => ?_⟩
      · by_contra hcond
        have hle := halloc.room (by omega)
        rw [if_neg (by omega)] at hcalloc
        obtain ⟨⟨n, hn, hbig⟩, -⟩ := hroom _ p hcalloc halloc.ne_zero
        rw [hblock hle, Except.ok.injEq] at hn
        unfold sizeTSize at hcond
        omega
      · rw [hcalloc] at heq
        split at heq
        · exact nomatch heq
        · next hfits =>
          have hexact : a * b < sizeTSize := by
            simp only [hhas, not_true_eq_false, or_false] at hcond
            unfold sizeTSize arenaSize at *
            omega
          rw [Nat.mod_eq_of_lt hexact] at *
          have hle := halloc.room (by unfold sizeTSize arenaSize; omega)
          rw [Except.ok.injEq, Prod.mk.injEq] at heq
          obtain ⟨rfl, rfl⟩ := heq
          exact ⟨⟨_, hblock hle, hle⟩, fun x hlow hhigh => if_pos ⟨hlow, hhigh⟩⟩

/-- Sizes that do not wrap around. -/
theorem malloc_room_small_heap : ∃ s, mallocMachine.init s ∧ s.heap.MallocRoom 5000 ∧
    s.heap.CallocRoom 3 400 := by
  obtain ⟨s, hs⟩ : ∃ s, smallHeap = some s := isSome_iff_exists.mp (by decide +kernel)
  obtain ⟨L, hok⟩ := mallocMachine_ok (.init (smallHeap_init hs))
  have hroom := malloc_room_iff hok.heap (by decide : 5000 < sizeTSize) 3 400
  exact ⟨s, smallHeap_init hs, hroom.1.mpr (.inl (by decide)), hroom.2.mpr (.inl (by decide))⟩

/-- `malloc (0xffffffff)` returns a block of one page, and `calloc (65537, 65537)` returns a
block for 131073 bytes. -/
theorem malloc_too_small : ∃ s, mallocMachine.init s ∧ ¬ s.heap.MallocRoom 0xffffffff ∧
    ¬ s.heap.CallocRoom 65537 65537 := by
  obtain ⟨s, hs⟩ : ∃ s, smallHeap = some s := isSome_iff_exists.mp (by decide +kernel)
  have hrun : (smallHeap.map fun s =>
      ((s.heap.malloc 0xffffffff).toOption.map fun r => (r.2, (r.1.blockSize r.2).toOption),
        (s.heap.calloc 65537 65537).toOption.map fun r => (r.2, (r.1.blockSize r.2).toOption))) =
      some (some (0xc010100c, some 4084), some (0xc010100c, some 135156)) := by
    decide +kernel
  rw [hs] at hrun
  obtain ⟨hm, hc⟩ := Prod.mk.inj (some.inj hrun)
  obtain ⟨⟨k, p⟩, hmalloc, hp⟩ := map_eq_some_iff.mp hm
  obtain ⟨⟨k', p'⟩, hcalloc, hp'⟩ := map_eq_some_iff.mp hc
  obtain ⟨rfl, hsize⟩ := Prod.mk.inj hp
  obtain ⟨rfl, hsize'⟩ := Prod.mk.inj hp'
  refine ⟨s, smallHeap_init hs, fun hroom => ?_, fun hroom => ?_⟩
  · obtain ⟨n, hn, hle⟩ := hroom _ _ (eq_ok_of_toOption hmalloc) (by decide)
    rw [hn] at hsize
    have := some.inj hsize
    omega
  · obtain ⟨⟨n, hn, hle⟩, -⟩ := hroom _ _ (eq_ok_of_toOption hcalloc) (by decide)
    rw [hn] at hsize'
    have := some.inj hsize'
    omega

end Pintos
