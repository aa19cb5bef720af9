import Pintos.Threads.MallocPages

/-!
# Pintos.Threads.MallocCalls

What the functions of the block allocator do to the layout.

`malloc_spec` and `free_spec` are the two results: a block that is returned was not live and
is live then, a block that is freed is live no longer, and all other blocks are as before.
An arena is kept as long as it has a live block.  `calloc_spec` and `realloc_spec` follow as
long as what these write is in the block that has been returned.
-/

namespace Pintos

open Bytes ListMem Kheap HeapLayout
open Function List

variable {k k' : Kheap} {others : List PageRun} {L L' : HeapLayout} {g h : Holding}
  {m m' : Memory} {a b c i j x y n p size : Nat} {xs ys : List Nat}

/-- The invariant, and no arena has free blocks only. -/
structure HeapOk (k : Kheap) (others : List PageRun) (L : HeapLayout) : Prop
    extends HeapInv k others L where
  used : ∀ h ∈ L.own, L.Used h

namespace HeapInv

theorem blockToArena_has (hinv : HeapInv k others L) (hg : g ∈ L.own) (hb : g.Has b) :
    blockToArena k.mem b = .ok g.pages :=
  hinv.toHeapShape.blockToArena_eq hg hb (hinv.header g hg).magic (hinv.header g hg).desc
    fun i hi => (hinv.descs i hi).blockSize

/-- **`block_size`** of a block. -/
theorem blockSize_eq (hinv : HeapInv k others L) (hg : g ∈ L.own) (hb : g.Has b) :
    k.blockSize b = .ok g.size := by
  have hs := hinv.toHeapShape
  have hheader := hinv.header g hg
  unfold Kheap.blockSize
  rw [hinv.blockToArena_has hg hb, ok_bind]
  dsimp only
  rw [hheader.desc, headerDesc, Holding.size]
  cases hd : g.desc with
  | none =>
    have hofs : pgOfs b = arenaSize := by
      have haligned := (hs.wf hg).aligned
      rw [(Holding.Wf.has_iff_of_big hd).mp hb]
      unfold pgOfs
      unfold pgsize arenaSize at *
      omega
    have hcnt : word k.mem (g.pages + 8) = g.cnt := by
      rw [hheader.freeCnt, freeCnt, hd]
    have hbounds := hs.bounds hg
    have hpos := (hs.wf hg).pos
    have hmod : (pgsize * g.cnt + sizeTSize - arenaSize) % sizeTSize =
        pgsize * g.cnt - arenaSize := by
      unfold physBase at hbounds
      unfold sizeTSize
      unfold pgsize arenaSize at *
      omega
    dsimp only
    rw [if_neg (not_not_intro rfl), hcnt, hofs, hmod, pure_eq_ok]
  | some i =>
    dsimp only
    rw [if_pos (hs.desc_pos i), (hinv.descs i (hs.arena g hg i hd).1).blockSize, pure_eq_ok]

end HeapInv

/-! ## free -/

namespace HeapOk

/-- **`free`** of a live block: it is live no longer, and its arena is given back with its last
live block. -/
theorem free_spec (hok : HeapOk k others L) (hlive : L.Live b) :
    ∃ k' L', k.free b = .ok k' ∧ HeapOk k' others L' ∧ k'.pages.runs true = k.pages.runs true ∧
      ∀ c, L'.Live c ↔ L.Live c ∧ c ≠ b := by
  have hinv := hok.toHeapInv
  have hs := hinv.toHeapShape
  obtain ⟨g, hg, hb, hnot⟩ := hlive
  have hwf := hs.wf hg
  have hheader := hinv.header g hg
  have hbounds := hwf.bounds hb
  have hlow := hs.bounds hg
  unfold Kheap.free
  rw [if_pos (hs.block_ne_zero hg hb), hinv.blockToArena_has hg hb, ok_bind]
  dsimp only
  rw [hheader.desc, headerDesc]
  cases hd : g.desc with
  | none =>
    have hcnt : word k.mem (g.pages + 8) = g.cnt := by
      rw [hheader.freeCnt, freeCnt, hd]
    have hnone : ∀ i < 7, ∀ c ∈ L.free i, ¬ g.Has c := by
      intro i hi c hc hhas
      obtain ⟨h, hh, hd', hhas'⟩ := hs.free i hi c hc
      rw [hs.has_inj hh hg hhas' hhas, hd] at hd'
      cases hd'
    dsimp only
    rw [if_neg (not_not_intro rfl), hcnt]
    obtain ⟨k', hfreed, huser, hinv'⟩ := hs.drop hg hinv.descs (fun h hh _ => hinv.header h hh)
      hinv.lists hnone
    obtain ⟨hlive, hused⟩ := hs.live_drop hg
    refine ⟨k', _, hfreed, ⟨hinv', fun h hh => hused h hh (hok.used h ?_)⟩, huser, fun c => ?_⟩
    · exact mem_of_mem_erase hh
    · rw [hlive]
      rw [Holding.Wf.has_iff_of_big hd, (Holding.Wf.has_iff_of_big hd).mp hb]
  | some i =>
    have hi := (hs.arena g hg i hd).1
    have hsize : word k.mem (k.desc i) = g.size := by
      rw [(hinv.descs i hi).blockSize, Holding.size, hd]
    have hblocks : g.blocks = descBlocks i := by rw [Holding.blocks, hd]
    have hnot' : b ∉ L.free i := HeapShape.freeOf_of_desc hd ▸ hnot
    -- the block is filled, which is the owner's right
    have hfill : HeapInv { k with mem := setRange k.mem b g.size 0xcc } others L :=
      hinv.write hg hb hnot fun x hx => setRange_of_outside hx
    obtain ⟨m', n, hpush, hn, hcount, hinv'⟩ := hfill.pushBlock hi hg hd hb hnot'
    obtain ⟨hlive, hused⟩ := hs.live_put hg hd hb
    have hfree : free { L with free := update L.free i (b :: L.free i) } i =
        b :: L.free i := update_self ..
    have hcnt : word (setWord m' (g.pages + 8) n) (g.pages + 8) = n := by
      have hlt : n < 2 ^ 32 := hn ▸ Nat.mod_lt _ (by decide)
      exact word_setWord_self hlt
    have hbpa : word (setWord m' (g.pages + 8) n) (k.desc i + 4) = g.blocks := by
      rw [hblocks]
      exact (hinv'.descs i hi).blocks
    dsimp only
    rw [if_pos (hs.desc_pos i), Kheap.freeBlock, hsize, memset, if_neg (by omega), ok_bind]
    have hpush : ListMem.listPushFront (setRange k.mem b g.size 0xcc) (freeList (k.desc i)) b =
      some m' := hpush
    dsimp only
    rw [hpush, require, ok_bind]
    rw [hn, hcnt, hbpa]
    by_cases hge : n ≥ g.blocks
    · have hle : n ≤ g.blocks := by
        have hle := hinv'.freeCnt_le hi hg
        rwa [hfree, hcount] at hle
      have hall : ∀ c, g.Has c → c ∈ free
          { L with free := update L.free i (b :: L.free i) } i := by
        intro c hc
        refine hinv'.all_free hi hg ?_ hc
        rwa [hfree, hcount]
      rw [if_pos hge, if_neg (not_not_intro (le_antisymm hle hge))]
      obtain ⟨m'', k', L', hloop, hfreed, hinv'', huser, hused', hlive'⟩ :=
        hinv'.release hi hg hd hall fun h hh hne => hused h hh hne (hok.used h hh)
      rw [hloop, ok_bind]
      refine ⟨k', L', hfreed, ⟨hinv'', hused'⟩, huser, fun c => ?_⟩
      rw [hlive', hlive]
    · rw [if_neg hge]
      refine ⟨_, _, rfl, ⟨hinv', fun h hh => ?_⟩, rfl, hlive⟩
      by_cases hhg : h = g
      · subst hhg
        refine hinv'.used_of_lt hg hd ?_
        rw [hfree, hcount]
        omega
      · exact hused h hh hhg (hok.used h hh)

/-! ## malloc -/

/-- What is known of a block that has been returned: it was not live, and there is room for
`size` bytes, unless `size` is so big that its sum with the size of a header wraps around. -/
structure Allocated (k' : Kheap) (others : List PageRun) (L L' : HeapLayout) (g : Holding)
    (p size : Nat) : Prop extends HeapOk k' others L' where
  mem : g ∈ L'.own
  has : g.Has p
  not_free : p ∉ L'.freeOf g
  not_live : ¬ L.Live p
  live : ∀ c, L'.Live c ↔ c = p ∨ L.Live c
  keep : ∀ h ∈ L.own, h ∈ L'.own
  room : size + arenaSize < sizeTSize → size ≤ g.size
  page : sizeTSize ≤ size + arenaSize → pgsize - arenaSize ≤ g.size

theorem take (hinv : HeapInv k others L) (hi : i < 7) (hfree : L.free i = b :: ys)
    (hused : ∀ h ∈ L.own, L.Used h ∨ h.Has b) (hsize : size ≤ descBlockSize i) :
    ∃ m' g, k.takeBlock (k.desc i) = .ok ({ k with mem := m' }, b) ∧
      Allocated { k with mem := m' } others L { L with free := update L.free i ys } g b
        size := by
  have hs := hinv.toHeapShape
  obtain ⟨m', htake, hinv'⟩ := hinv.takeBlock_eq hi hfree
  obtain ⟨g, hg, hd, hb⟩ := hs.free i hi b (hfree ▸ mem_cons_self ..)
  have hnodup := hinv.free_nodup hi
  rw [hfree, nodup_cons] at hnodup
  obtain ⟨hnot, hlive, hused'⟩ := hs.live_take hi hfree hnodup.1
  have hgsize : g.size = descBlockSize i := by rw [Holding.size, hd]
  refine ⟨m', g, htake, ⟨hinv', fun h hh => hused' h hh (hused h hh)⟩, hg, hb, ?_, hnot, hlive,
    fun h hh => hh, fun _ => hgsize ▸ hsize, fun hle => ?_⟩
  · rw [freeOf_update, if_pos hd]
    exact hnodup.1
  · have hbounds := descBlockSize_bounds i hi
    unfold sizeTSize arenaSize at hle
    omega

theorem mallocSmall_spec (hok : HeapOk k others L) (hi : i < 7) (hsize : size ≤ descBlockSize i) :
    k.mallocSmall (k.desc i) = .ok (k, 0) ∧ ¬ k.HasBlock (k.desc i) ∨
    k.HasBlock (k.desc i) ∧ ∃ k' L' g p, k.mallocSmall (k.desc i) = .ok (k', p) ∧ Allocated k' others L L' g p size ∧
      k'.pages.runs true = k.pages.runs true := by
  have hinv := hok.toHeapInv
  have hs := hinv.toHeapShape
  have hempty := (hinv.lists i hi).listEmpty_iff
  unfold Kheap.mallocSmall Kheap.HasBlock
  cases hfree : L.free i with
  | cons b ys =>
    have hne : ¬ listEmpty k.mem (freeList (k.desc i)) = true := fun h =>
      nomatch hfree.symm.trans (hempty.mp h)
    rw [if_neg hne]
    obtain ⟨m', g, htake, halloc⟩ :=
      take hinv hi hfree (fun h hh => .inl (hok.used h hh)) hsize
    exact .inr ⟨.inl hne, _, _, g, b, htake, halloc, rfl⟩
  | nil =>
    rw [if_pos (hempty.mpr hfree)]
    rcases pallocGet_cases hs.pages 1 with
      ⟨hget, hno⟩ | ⟨hhas, a, pages, ha, hget, hpages, hruns, huser⟩
    · rw [newArena, hget]
      exact .inl ⟨rfl, not_or_intro (not_not_intro (hempty.mpr hfree)) hno⟩
    · obtain ⟨m₁, hloop, hinv₁⟩ := hinv.addArena hi hpages hruns
      have hnew : k.newArena (k.desc i) = .ok ({ k with mem := m₁, pages }, true) := by
        rw [newArena, hget, ok_bind]
        dsimp only
        rw [if_neg (ne_of_gt ha), (hinv.descs i hi).blocks, hloop, ok_bind, pure_eq_ok]
      obtain ⟨g, hgdef⟩ : ∃ g : Holding, g = ⟨a, 1, some i⟩ := ⟨_, rfl⟩
      have hd : g.desc = some i := by rw [hgdef]
      have hblocks : g.blocks = descBlocks i := by rw [Holding.blocks, hd]
      obtain ⟨bs, hbs⟩ : ∃ bs, bs = (List.range g.blocks).map g.block := ⟨_, rfl⟩
      rw [← hgdef, hfree, nil_append, ← hblocks, ← hbs] at hinv₁
      have hs₁ := hinv₁.toHeapShape
      have hgmem : g ∈ g :: L.own := mem_cons_self ..
      have hbsHas : ∀ c, c ∈ bs ↔ g.Has c := fun c => hbs ▸ HeapInv.mem_map_block
      obtain ⟨hlive₁, hused₁⟩ := hs₁.live_fill hd hfree hbsHas
      obtain ⟨b, ys, hcons⟩ : ∃ b ys, bs = b :: ys := by
        refine exists_cons_of_length_pos ?_
        rw [hbs, length_map, length_range]
        exact (hs₁.wf hgmem).blocks_pos
      have hused : ∀ h ∈ g :: L.own,
          Used ⟨g :: L.own, update L.free i bs⟩ h ∨ h.Has b := by
        intro h hh
        rcases mem_cons.mp hh with rfl | hh
        · exact .inr ((hbsHas b).mp (hcons ▸ mem_cons_self ..))
        · exact .inl (hused₁ h hh (hok.used h hh))
      obtain ⟨m', g', htake, halloc⟩ :=
        take hinv₁ hi ((update_self ..).trans hcons) hused hsize
      have htake : Kheap.takeBlock { k with mem := m₁, pages } (k.desc i) =
        .ok ({ k with mem := m', pages }, b) := htake
      rw [hnew, ok_bind]
      dsimp only
      rw [if_pos rfl, htake]
      refine .inr ⟨.inr hhas, _, _, g', b, rfl, ⟨halloc.toHeapOk, halloc.mem, halloc.has,
        halloc.not_free, (hlive₁ b).not.mp halloc.not_live, fun c => ?_, fun h hh => mem_cons_of_mem g hh,
        halloc.room, halloc.page⟩, huser⟩
      rw [halloc.live, hlive₁]

theorem mallocBig_spec (hok : HeapOk k others L) (hsize : size < sizeTSize) :
    k.mallocBig size = .ok (k, 0) ∧ ¬ k.HasPages (bigPageCnt size) ∨
    k.HasPages (bigPageCnt size) ∧ ∃ k' L' g p, k.mallocBig size = .ok (k', p) ∧ Allocated k' others L L' g p size ∧
      k'.pages.runs true = k.pages.runs true := by
  have hinv := hok.toHeapInv
  have hs := hinv.toHeapShape
  unfold Kheap.mallocBig
  obtain ⟨n, hn⟩ : ∃ n, n = (size + arenaSize + pgsize - 1) % sizeTSize / pgsize := ⟨_, rfl⟩
  rw [bigPageCnt, ← hn]
  dsimp only
  rcases pallocGet_cases hs.pages n with
    ⟨hget, hno⟩ | ⟨hhas, a, pages, ha, hget, hpages, hruns, huser⟩
  · rw [hget]
    exact .inl ⟨rfl, hno⟩
  · have hlt : n < 2 ^ 32 := by
      unfold sizeTSize pgsize at hn
      omega
    have hinv' := hinv.addBig hpages hruns hlt
    have hs' := hinv'.toHeapShape
    obtain ⟨g, hgdef⟩ : ∃ g : Holding, g = ⟨a, n, none⟩ := ⟨_, rfl⟩
    rw [← hgdef] at hinv' hs'
    have hd : g.desc = none := by rw [hgdef]
    have hgmem : g ∈ g :: L.own := mem_cons_self ..
    have hpos := (hs'.wf hgmem).pos
    have hcnt : g.cnt = n := by rw [hgdef]
    have hgsize : g.size = pgsize * n - arenaSize := by rw [Holding.size, hd, hcnt]
    have hblock : ∀ c, g.Has c ↔ c = a + arenaSize := fun c => by
      rw [Holding.Wf.has_iff_of_big hd, hgdef]
    have hnone : ∀ c, c ∉ L.freeOf g := by
      intro c
      rw [freeOf, hd]
      exact not_mem_nil
    have hnotlive : ¬ L.Live (a + arenaSize) := by
      rintro ⟨h, hh, hc, -⟩
      have hheq := hs'.has_inj (mem_cons_of_mem g hh) hgmem hc ((hblock _).mpr rfl)
      exact hs'.not_mem_of_add (hheq ▸ hh)
    rw [hget, ok_bind]
    dsimp only
    rw [if_neg (ne_of_gt ha), pure_eq_ok]
    refine .inr ⟨hhas, _, _, g, _, rfl, ⟨⟨hinv', fun h hh => ?_⟩, hgmem, (hblock _).mpr rfl,
      hnone _, hnotlive, fun c => ?_, fun h hh => mem_cons_of_mem g hh, fun hfits => ?_, fun _ => ?_⟩,
      huser⟩
    · rcases mem_cons.mp hh with rfl | hh
      · exact ⟨_, (hblock _).mpr rfl, hnone _⟩
      · exact hok.used h hh
    · constructor
      · rintro ⟨h, hh, hc, hnot⟩
        rcases mem_cons.mp hh with rfl | hh
        · exact .inl ((hblock c).mp hc)
        · exact .inr ⟨h, hh, hc, hnot⟩
      · rintro (rfl | ⟨h, hh, hc, hnot⟩)
        · exact ⟨g, hgmem, (hblock _).mpr rfl, hnone _⟩
        · exact ⟨h, mem_cons_of_mem g hh, hc, hnot⟩
    · rw [hgsize]
      unfold sizeTSize pgsize arenaSize at *
      omega
    · rw [hgsize]
      unfold pgsize arenaSize
      omega

theorem findDesc_cases (hinv : HeapInv k others L) (size : Nat) :
    k.findDesc size = none ∨ ∃ i < 7, k.findDesc size = some (k.desc i) ∧ size ≤ descBlockSize i := by
  cases hfind : k.findDesc size with
  | none => exact .inl rfl
  | some d =>
    have hword := find?_some hfind
    obtain ⟨i, hi, rfl⟩ := List.mem_map.mp (mem_of_find?_eq_some hfind)
    rw [mem_range, hinv.descCnt] at hi
    rw [decide_eq_true_eq, (hinv.descs i hi).blockSize] at hword
    exact .inr ⟨i, hi, rfl, hword⟩

/-- **`malloc`** returns null and changes nothing, or it returns a new block. -/
theorem malloc_spec (hok : HeapOk k others L) (hsize : size < sizeTSize) :
    k.malloc size = .ok (k, 0) ∧ ¬ k.HasMemory size ∨
    k.HasMemory size ∧ ∃ k' L' g p, k.malloc size = .ok (k', p) ∧
      Allocated k' others L L' g p size ∧ k'.pages.runs true = k.pages.runs true := by
  unfold Kheap.malloc Kheap.HasMemory
  split
  · next hzero => exact .inl ⟨rfl, fun h => h.1 hzero⟩
  · next hpos =>
    rcases findDesc_cases hok.toHeapInv size with hfind | ⟨i, hi, hfind, hle⟩
    · simp only [hfind, ne_eq, hpos, not_false_eq_true, true_and]
      exact hok.mallocBig_spec hsize
    · simp only [hfind, ne_eq, hpos, not_false_eq_true, true_and]
      exact hok.mallocSmall_spec hi hle

theorem Allocated.ne_zero (h : Allocated k' others L L' g p size) : p ≠ 0 :=
  h.toHeapInv.toHeapShape.block_ne_zero h.mem h.has

/-- What its owner writes to it does not matter. -/
theorem Allocated.write (h : Allocated k' others L L' g p size)
    (hm : ∀ x, x < p ∨ p + g.size ≤ x → m' x = k'.mem x) :
    Allocated { k' with mem := m' } others L L' g p size :=
  ⟨⟨h.toHeapInv.write h.mem h.has h.not_free hm, h.used⟩, h.mem, h.has, h.not_free, h.not_live,
    h.live, h.keep, h.room, h.page⟩

theorem Allocated.le_stop (h : Allocated k' others L L' g p size) :
    p + g.size ≤ k'.pages.palloc.userPool.stop := by
  have hs := h.toHeapInv.toHeapShape
  have hlow := hs.bounds h.mem
  have hbounds := (hs.wf h.mem).bounds h.has
  omega

theorem Allocated.size_lt (h : Allocated k' others L L' g p size) :
    g.size < 2 ^ 26 ∧ k'.pages.palloc.userPool.stop < p + 2 ^ 26 := by
  have hs := h.toHeapInv.toHeapShape
  have hlow := hs.bounds h.mem
  have hbounds := (hs.wf h.mem).bounds h.has
  unfold physBase at hlow
  omega

/-! ## calloc and realloc -/

theorem calloc_eq (hno : ¬ (a * b % sizeTSize < a ∨ a * b % sizeTSize < b))
    (hmalloc : k.malloc (a * b % sizeTSize) = .ok (k', p))
    (halloc : Allocated k' others L L' g p (a * b % sizeTSize)) :
    k.calloc a b = if p + a * b % sizeTSize > k'.pages.palloc.userPool.stop then .error .fault else
      .ok ({ k' with mem := setRange k'.mem p (a * b % sizeTSize) 0 }, p) := by
  unfold calloc
  dsimp only
  rw [if_neg hno, hmalloc, ok_bind]
  dsimp only
  rw [if_pos halloc.ne_zero, memset]
  split <;> rfl

/-- **`calloc`**, when the size does not wrap around with that of a header. -/
theorem calloc_spec (hok : HeapOk k others L)
    (hfits : a * b % sizeTSize < a ∨ a * b % sizeTSize < b ∨
      a * b % sizeTSize + arenaSize < sizeTSize) :
    k.calloc a b = .ok (k, 0) ∨
    ∃ k' L' g p, k.calloc a b = .ok (k', p) ∧ Allocated k' others L L' g p (a * b % sizeTSize) ∧
      k'.pages.runs true = k.pages.runs true := by
  have hlt : a * b % sizeTSize < sizeTSize := Nat.mod_lt _ (by decide)
  by_cases hwrap : a * b % sizeTSize < a ∨ a * b % sizeTSize < b
  · exact .inl (if_pos hwrap)
  · rcases hok.malloc_spec hlt with
      ⟨hmalloc, -⟩ | ⟨-, k', L', g, p, hmalloc, halloc, huser⟩
    · unfold calloc
      dsimp only
      rw [if_neg hwrap, hmalloc]
      exact .inl rfl
    · have hle := halloc.room (by omega)
      have hstop := halloc.le_stop
      rw [calloc_eq hwrap hmalloc halloc, if_neg (by omega)]
      refine .inr ⟨_, L', g, p, rfl, halloc.write fun x hx => ?_, huser⟩
      exact setRange_of_outside (by omega)

/-- **`realloc`** of a live block to another size: null, or a new block in the place of the old
one.  What is copied must fit. -/
theorem realloc_spec (hok : HeapOk k others L) (hold : L.Live b) (hpos : size ≠ 0)
    (hsize : size < sizeTSize)
    (hfits : size + arenaSize < sizeTSize ∨ ∃ n, k.blockSize b = .ok n ∧ n ≤ pgsize - arenaSize) :
    k.realloc b size = .ok (k, 0) ∨
    ∃ k' L' p, k.realloc b size = .ok (k', p) ∧ HeapOk k' others L' ∧ p ≠ 0 ∧ ¬ L.Live p ∧
      k'.pages.runs true = k.pages.runs true ∧
      ∀ c, L'.Live c ↔ (c = p ∨ L.Live c) ∧ c ≠ b := by
  obtain ⟨h, hh, hb, hnot⟩ := hold
  have hb0 := hok.toHeapInv.toHeapShape.block_ne_zero hh hb
  have hbsize := hok.toHeapInv.blockSize_eq hh hb
  unfold Kheap.realloc
  rw [if_neg hpos]
  rcases hok.malloc_spec hsize with ⟨hmalloc, -⟩ | ⟨-, k', L', g, p, hmalloc, halloc, huser⟩
  · rw [hmalloc, ok_bind]
    dsimp only
    rw [if_neg fun hne => hne.2 rfl]
    exact .inl rfl
  · have hs' := halloc.toHeapInv.toHeapShape
    have hbsize' := halloc.toHeapInv.blockSize_eq (halloc.keep h hh) hb
    -- what is copied fits into the new block
    have hle : min size h.size ≤ g.size := by
      rcases hfits with hfits | ⟨n, hn, hle⟩
      · exact le_trans (min_le_left ..) (halloc.room hfits)
      · rw [hbsize] at hn
        have hn := Except.ok.inj hn
        rcases lt_or_ge (size + arenaSize) sizeTSize with hlt | hge
        · exact le_trans (min_le_left ..) (halloc.room hlt)
        · have hpage := halloc.page hge
          omega
    have hstop := halloc.le_stop
    have hlow := hs'.bounds (halloc.keep h hh)
    have hbounds := (hs'.wf (halloc.keep h hh)).bounds hb
    have hmin : min size h.size ≤ h.size := Nat.min_le_right ..
    have hcopy : Allocated { k' with mem := copyRange k'.mem p b (min size h.size) } others L L' g p
        size := halloc.write fun x hx => copyRange_of_outside (by omega)
    have hlive : L'.Live b := (halloc.live b).mpr (.inr ⟨h, hh, hb, hnot⟩)
    obtain ⟨k'', L'', hfree, hok'', huser'', hlive''⟩ := hcopy.toHeapOk.free_spec hlive
    rw [hmalloc, ok_bind]
    dsimp only
    rw [if_pos ⟨hb0, halloc.ne_zero⟩, hbsize', ok_bind, Kheap.memcpy, if_neg (by omega), ok_bind,
      hfree, ok_bind, pure_eq_ok]
    refine .inr ⟨k'', L'', p, rfl, hok'', halloc.ne_zero, halloc.not_live, huser''.trans huser,
      fun c => ?_⟩
    rw [hlive'', halloc.live]

end HeapOk

end Pintos
