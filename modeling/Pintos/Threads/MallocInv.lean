import Pintos.Threads.Malloc

/-!
# Pintos.Threads.MallocInv

The invariant of the block allocator.

A `Holding` is a run of pages that the allocator has: an arena with the blocks of a
descriptor, or a big block, which is the only block of its run.  A `HeapLayout` has the
holdings and the lists of free blocks; a block of a holding that is not in the list is live.
`HeapShape` says where the holdings are, and `HeapInv` that the memory has them: the headers,
with the number of free blocks, and the lists.

What the functions write is a list of free blocks or a word of a header.  `HeapShape.frame_list`
and `HeapShape.frame_header` say that these writes do not touch anything else.
-/

namespace Pintos

open Bytes ListMem Kheap Function List

/-! ## blocks -/

/-- `block_size` of a descriptor. -/
def descBlockSize (i : Nat) : Nat := 16 * 2 ^ i

/-- `blocks_per_arena` of a descriptor. -/
def descBlocks (i : Nat) : Nat := (pgsize - arenaSize) / descBlockSize i

/-- A run of pages with blocks: those of a descriptor, or one big block. -/
structure Holding where
  pages : Nat
  cnt : Nat
  desc : Option Nat
deriving DecidableEq

namespace Holding

/-- The run of pages. -/
def run (h : Holding) : PageRun := ⟨h.pages, h.cnt⟩

/-- The number of its blocks. -/
def blocks (h : Holding) : Nat :=
  match h.desc with
  | none => 1
  | some i => descBlocks i

/-- The size of its blocks. -/
def size (h : Holding) : Nat :=
  match h.desc with
  | none => pgsize * h.cnt - arenaSize
  | some i => descBlockSize i

/-- The address of a block. -/
def block (h : Holding) (n : Nat) : Nat := h.pages + arenaSize + n * h.size

/-- The address is that of a block. -/
def Has (h : Holding) (b : Nat) : Prop := ∃ n < h.blocks, b = h.block n

/-- Arenas are one page. -/
structure Wf (h : Holding) : Prop where
  aligned : pgsize ∣ h.pages
  pos : 0 < h.cnt
  arena : ∀ i, h.desc = some i → i < 7 ∧ h.cnt = 1

end Holding

open Holding

theorem descBlockSize_bounds : ∀ i < 7, 16 ≤ descBlockSize i ∧ descBlockSize i ≤ 1024 := by decide

theorem descBlocks_bounds :
    ∀ i < 7, 0 < descBlocks i ∧ descBlocks i ≤ 255 ∧
      arenaSize + descBlocks i * descBlockSize i ≤ pgsize := by
  decide

namespace Holding.Wf

variable {h : Holding} {b c : Nat}

theorem fits (hw : h.Wf) : arenaSize + h.blocks * h.size ≤ pgsize * h.cnt := by
  have hpos := hw.pos
  unfold blocks size
  cases hdesc : h.desc with
  | none =>
    dsimp only
    unfold pgsize arenaSize
    omega
  | some i =>
    obtain ⟨hi, hcnt⟩ := hw.arena i hdesc
    dsimp only
    rw [hcnt, Nat.mul_one]
    exact (descBlocks_bounds i hi).2.2

theorem size_ge (hw : h.Wf) : 16 ≤ h.size := by
  have hpos := hw.pos
  unfold size
  cases hdesc : h.desc with
  | none =>
    dsimp only
    unfold pgsize arenaSize
    omega
  | some i => exact (descBlockSize_bounds i (hw.arena i hdesc).1).1

theorem blocks_pos (hw : h.Wf) : 0 < h.blocks := by
  unfold blocks
  cases hdesc : h.desc with
  | none => exact one_pos
  | some i => exact (descBlocks_bounds i (hw.arena i hdesc).1).1

theorem block_lt {n n' : Nat} (hlt : n < n') : h.block n + h.size ≤ h.block n' := by
  have hmul : (n + 1) * h.size ≤ n' * h.size := Nat.mul_le_mul_right _ hlt
  rw [Nat.succ_mul] at hmul
  unfold block
  omega

/-- A block is behind the header and ends in the run. -/
theorem bounds (hw : h.Wf) (hb : h.Has b) :
    h.pages + arenaSize ≤ b ∧ b + h.size ≤ h.pages + pgsize * h.cnt := by
  obtain ⟨n, hn, rfl⟩ := hb
  have hfits := hw.fits
  have hend : h.block n + h.size ≤ h.block h.blocks := block_lt hn
  unfold block at *
  omega

theorem blocks_apart (hb : h.Has b) (hc : h.Has c) (hne : b ≠ c) :
    b + h.size ≤ c ∨ c + h.size ≤ b := by
  obtain ⟨n, -, rfl⟩ := hb
  obtain ⟨n', -, rfl⟩ := hc
  rcases Nat.lt_or_gt_of_ne fun heq => hne (congrArg h.block heq) with hlt | hlt
  · exact .inl (block_lt hlt)
  · exact .inr (block_lt hlt)

theorem has_iff_of_big (hdesc : h.desc = none) : h.Has b ↔ b = h.pages + arenaSize := by
  have hfirst : h.block 0 = h.pages + arenaSize := by rw [block, Nat.zero_mul, Nat.add_zero]
  unfold Has blocks
  rw [hdesc, ← hfirst]
  exact ⟨fun ⟨n, hn, hb⟩ => Nat.lt_one_iff.mp hn ▸ hb, fun hb => ⟨0, one_pos, hb⟩⟩

theorem lt_first (hw : h.Wf) (hb : h.Has b) : b < h.pages + pgsize := by
  have hbounds := hw.bounds hb
  have hsize := hw.size_ge
  cases hdesc : h.desc with
  | some i =>
    rw [(hw.arena i hdesc).2, Nat.mul_one] at hbounds
    omega
  | none =>
    rw [(has_iff_of_big hdesc).mp hb]
    unfold arenaSize pgsize
    omega

theorem roundDown (hw : h.Wf) (hb : h.Has b) : pgRoundDown b = h.pages := by
  have hlt := hw.lt_first hb
  have hbounds := hw.bounds hb
  have haligned := hw.aligned
  unfold pgRoundDown pgOfs
  unfold pgsize at *
  omega

end Holding.Wf

/-! ## the layout -/

/-- The holdings, and the free blocks of each descriptor in the order of its list. -/
structure HeapLayout where
  own : List Holding
  free : Nat → List Nat

namespace HeapLayout

/-- The list with the free blocks of a holding. -/
def freeOf (L : HeapLayout) (h : Holding) : List Nat :=
  match h.desc with
  | none => []
  | some i => L.free i

/-- The block is not free. -/
def Live (L : HeapLayout) (b : Nat) : Prop := ∃ h ∈ L.own, h.Has b ∧ b ∉ L.freeOf h

/-- The holding has a block that is not free. -/
def Used (L : HeapLayout) (h : Holding) : Prop := ∃ b, h.Has b ∧ b ∉ L.freeOf h

/-- `free_cnt` of a holding. -/
def freeCnt (L : HeapLayout) (h : Holding) : Nat :=
  match h.desc with
  | none => h.cnt
  | some i => (L.free i).countP fun b => decide (pgRoundDown b = h.pages)

end HeapLayout

/-- The header of a holding points to its descriptor. -/
def Kheap.headerDesc (k : Kheap) (h : Holding) : Nat :=
  match h.desc with
  | none => 0
  | some i => k.desc i

/-- The elements that may be in the list of a descriptor. -/
def NodeOf (k : Kheap) (L : HeapLayout) (i y : Nat) : Prop :=
  y = freeList (k.desc i) ∨ y = freeList (k.desc i) + 8 ∨
    ∃ h ∈ L.own, h.desc = some i ∧ h.Has y

/-- The elements of all lists. -/
def Node (k : Kheap) (L : HeapLayout) (y : Nat) : Prop := ∃ i < 7, NodeOf k L i y

/-- **Where the holdings are**: they are the runs of pages that other users do not have, and a
free block is a block of an arena of its descriptor. -/
structure HeapShape (k : Kheap) (others : List PageRun) (L : HeapLayout) : Prop where
  pages : k.pages.Inv
  runs : (k.pages.runs false).Perm (L.own.map run ++ others)
  descs_pos : 0 < k.descs
  descs_low : k.descs + descSize * 10 ≤ physBase + 1024 * 1024
  descCnt : k.descCnt = 7
  arena : ∀ h ∈ L.own, ∀ i, h.desc = some i → i < 7 ∧ h.cnt = 1
  free : ∀ i < 7, ∀ b ∈ L.free i, ∃ h ∈ L.own, h.desc = some i ∧ h.Has b

/-- The header of a holding in memory. -/
structure Header (k : Kheap) (L : HeapLayout) (h : Holding) : Prop where
  magic : word k.mem h.pages = arenaMagic
  desc : word k.mem (h.pages + 4) = k.headerDesc h
  freeCnt : word k.mem (h.pages + 8) = L.freeCnt h

/-- A descriptor in memory. -/
structure DescAt (k : Kheap) (i : Nat) : Prop where
  blockSize : word k.mem (k.desc i) = descBlockSize i
  blocks : word k.mem (k.desc i + 4) = descBlocks i

/-- **The invariant.** -/
structure HeapInv (k : Kheap) (others : List PageRun) (L : HeapLayout) : Prop
    extends HeapShape k others L where
  descs : ∀ i < 7, DescAt k i
  header : ∀ h ∈ L.own, Header k L h
  lists : ∀ i < 7, ListAt (Node k L) k.mem (freeList (k.desc i)) (L.free i)

/-! ## where everything is -/

variable {k k' : Kheap} {others : List PageRun} {L L' : HeapLayout} {g h : Holding}
  {m m' : Memory} {b c i j x y : Nat} {xs ys : List Nat}

theorem Kheap.desc_congr (hdescs : k'.descs = k.descs) (i : Nat) : k'.desc i = k.desc i :=
  congrArg (· + descSize * i) hdescs

/-- An area of the memory is as before. -/
def SameAt (m m' : Memory) (a n : Nat) : Prop := ∀ x, a ≤ x → x < a + n → m' x = m x

theorem SameAt.trans {m'' : Memory} {n : Nat} (h : SameAt m m' x n) (h' : SameAt m' m'' x n) :
    SameAt m m'' x n := fun y hle hlt => (h' y hle hlt).trans (h y hle hlt)

theorem SameAt.desc (h : SameAt m m' x 8) :
    word m' x = word m x ∧ word m' (x + 4) = word m (x + 4) :=
  ⟨word_congr fun y _ _ => h y (by omega) (by omega),
    word_congr fun y _ _ => h y (by omega) (by omega)⟩

theorem SameAt.header (h : SameAt m m' x arenaSize) : word m' x = word m x ∧
    word m' (x + 4) = word m (x + 4) ∧ word m' (x + 8) = word m (x + 8) := by
  unfold arenaSize at h
  exact ⟨word_congr fun y _ _ => h y (by omega) (by omega),
    word_congr fun y _ _ => h y (by omega) (by omega),
    word_congr fun y _ _ => h y (by omega) (by omega)⟩

theorem Header.of_words (hold : Header k L h) (hdescs : k'.descs = k.descs)
    (hsame : SameAt k.mem k'.mem h.pages arenaSize) (hcnt : L'.freeCnt h = L.freeCnt h) :
    Header k' L' h := by
  have hdesc : k'.headerDesc h = k.headerDesc h := by
    unfold headerDesc
    simp only [desc_congr hdescs]
  obtain ⟨hmagic, hheader, hfree⟩ := hsame.header
  exact ⟨hmagic.trans hold.magic, hheader.trans (hold.desc.trans hdesc.symm),
    hfree.trans (hold.freeCnt.trans hcnt.symm)⟩

theorem DescAt.of_words (hold : DescAt k i) (hdescs : k'.descs = k.descs)
    (hsame : SameAt k.mem k'.mem (k.desc i) 8) : DescAt k' i := by
  refine ⟨?_, ?_⟩
  · rw [desc_congr hdescs, hsame.desc.1, hold.blockSize]
  · rw [desc_congr hdescs, hsame.desc.2, hold.blocks]

theorem NodeOf.of_list (hys : ∀ y ∈ ys, NodeOf k L i y) :
    ∀ y ∈ freeList (k.desc i) :: ys ++ [freeList (k.desc i) + 8], NodeOf k L i y := by
  intro y hy
  rcases mem_append.mp hy with hy | hy
  · rcases mem_cons.mp hy with rfl | hy
    · exact .inl rfl
    · exact hys y hy
  · exact .inr (.inl (mem_singleton.mp hy))

/-- A run of the kernel pool is above 1 MB. -/
theorem PallocState.Inv.kernel_run {s : PallocState} (hs : s.Inv) {run : PageRun}
    (hrun : run ∈ s.runs false) :
    pgsize ∣ run.pages ∧ 0 < run.cnt ∧ physBase + 1024 * 1024 ≤ run.pages ∧
      run.pages + pgsize * run.cnt ≤ s.palloc.userPool.stop ∧
      s.palloc.userPool.stop ≤ physBase + 64 * 1024 * 1024 := by
  obtain ⟨hofs, hpos, hbase, hstop⟩ := hs.inPool hrun
  have hlow := hs.layout.low
  have hstorage : s.palloc.kernelPool.block + bitmapBufSize s.palloc.kernelPool.usedMap.bitCnt ≤
    s.palloc.kernelPool.base := hs.layout.storage false
  have hstorage' : s.palloc.userPool.block + bitmapBufSize s.palloc.userPool.usedMap.bitCnt ≤
    s.palloc.userPool.base := hs.layout.storage true
  have hbetween := hs.layout.between
  have hustop : s.palloc.userPool.base ≤ s.palloc.userPool.stop := Nat.le_add_right _ _
  change s.palloc.kernelPool.base ≤ _ at hbase
  change _ ≤ s.palloc.kernelPool.stop at hstop
  exact ⟨Nat.dvd_of_mod_eq_zero hofs, hpos, by omega, by omega, hs.layout.high⟩

namespace HeapShape

section

variable (hs : HeapShape k others L)
include hs

section

variable (hh : h ∈ L.own)
include hh

theorem run_mem : h.run ∈ k.pages.runs false :=
  hs.runs.mem_iff.mpr (mem_append_left _ (List.mem_map_of_mem hh))

theorem wf : h.Wf := by
  obtain ⟨haligned, hpos, -⟩ := hs.pages.kernel_run (hs.run_mem hh)
  exact ⟨haligned, hpos, hs.arena h hh⟩

theorem bounds :
    physBase + 1024 * 1024 ≤ h.pages ∧
      h.pages + pgsize * h.cnt ≤ k.pages.palloc.userPool.stop ∧
      k.pages.palloc.userPool.stop ≤ physBase + 64 * 1024 * 1024 := by
  obtain ⟨-, -, hlow, hhigh⟩ := hs.pages.kernel_run (hs.run_mem hh)
  exact ⟨hlow, hhigh⟩

omit hh in
theorem runs_pairwise : (L.own.map run ++ others).Pairwise
    fun run q => run.Outside q.pages (q.pages + pgsize * q.cnt) := by
  refine (hs.runs.pairwise_iff ?_).mp (hs.pages.apart false)
  intro run q hout
  unfold PageRun.Outside at *
  omega

theorem apart (hg : g ∈ L.own) (hne : h ≠ g) :
    h.pages + pgsize * h.cnt ≤ g.pages ∨ g.pages + pgsize * g.cnt ≤ h.pages := by
  have hpair := (pairwise_append.mp hs.runs_pairwise).1
  rw [pairwise_map] at hpair
  have hsymm : Std.Symm fun h g : Holding =>
      h.run.Outside g.run.pages (g.run.pages + pgsize * g.run.cnt) := by
    refine ⟨fun h g hout => ?_⟩
    unfold PageRun.Outside at *
    omega
  exact hpair.forall hh hg hne

theorem apart_others {run : PageRun} (hrun : run ∈ others) :
    h.pages + pgsize * h.cnt ≤ run.pages ∨ run.pages + pgsize * run.cnt ≤ h.pages :=
  ((pairwise_append.mp hs.runs_pairwise).2.2 h.run (List.mem_map_of_mem hh) run hrun)

theorem not_others : h.run ∉ others := by
  intro hmem
  have happart := hs.apart_others hh hmem
  have hpos := (hs.wf hh).pos
  unfold run pgsize at happart
  dsimp only at happart
  omega

theorem has_inj (hg : g ∈ L.own) (hb : h.Has b) (hb' : g.Has b) : h = g := by
  by_contra hne
  have hbounds := (hs.wf hh).bounds hb
  have hbounds' := (hs.wf hg).bounds hb'
  have hsize := (hs.wf hh).size_ge
  have hsize' := (hs.wf hg).size_ge
  have happart := hs.apart hh hg hne
  omega

theorem blocks_apart (hg : g ∈ L.own) (hb : h.Has b)
    (hc : g.Has c) (hne : b ≠ c) : b + h.size ≤ c ∨ c + g.size ≤ b := by
  by_cases heq : h = g
  · subst heq
    exact Wf.blocks_apart hb hc hne
  · have hbounds := (hs.wf hh).bounds hb
    have hbounds' := (hs.wf hg).bounds hc
    have happart := hs.apart hh hg heq
    omega

theorem block_outside (hb : h.Has b) (hx : b ≤ x) (hlt : x < b + h.size) :
    k.descs + descSize * 10 ≤ x ∧ ∀ g ∈ L.own, x < g.pages ∨ g.pages + arenaSize ≤ x := by
  have hbounds := (hs.wf hh).bounds hb
  have hlow := hs.bounds hh
  have hdescs := hs.descs_low
  refine ⟨by omega, fun g hg => ?_⟩
  by_cases heq : h = g
  · subst heq
    omega
  · have happart := hs.apart hh hg heq
    have hpos := (hs.wf hg).pos
    unfold pgsize arenaSize at *
    omega

end

theorem block_ne_zero (hh : h ∈ L.own) (hb : h.Has b) : b ≠ 0 := by
  have hlow := hs.bounds hh
  have hbounds := (hs.wf hh).bounds hb
  unfold physBase at hlow
  omega

theorem node_bounds (hi : i < 7) (hy : NodeOf k L i y) :
    (k.desc i + 8 = y ∨ k.desc i + 16 = y) ∧ y + 8 ≤ k.descs + descSize * 10 ∨
      k.descs + descSize * 10 ≤ y ∧ ∃ h ∈ L.own, h.desc = some i ∧ h.Has y := by
  have hdesc : k.desc i = k.descs + 56 * i := rfl
  have hle : 56 * (i + 1) ≤ 56 * 7 := Nat.mul_le_mul_left 56 hi
  rcases hy with rfl | rfl | ⟨h, hh, hdesc, hb⟩
  · unfold freeList descSize
    omega
  · unfold freeList descSize
    omega
  · have hsize := (hs.wf hh).size_ge
    exact .inr ⟨(hs.block_outside hh hb (Nat.le_refl y) (by omega)).1, h, hh, hdesc, hb⟩

theorem node_apart (hi : i < 7) (hj : j < 7) (hx : NodeOf k L i x)
    (hy : NodeOf k L j y) (hne : x ≠ y ∨ i ≠ j) : x + 8 ≤ y ∨ y + 8 ≤ x := by
  have hdi : k.desc i = k.descs + 56 * i := rfl
  have hdj : k.desc j = k.descs + 56 * j := rfl
  rcases hs.node_bounds hi hx with ⟨hbx, hlx⟩ | ⟨hbx, h, hh, hdesc, hb⟩
  · have hby := hs.node_bounds hj hy
    omega
  · rcases hs.node_bounds hj hy with ⟨hby, hly⟩ | ⟨hby, g, hg, hdesc', hc⟩
    · omega
    · -- both are blocks
      have hsize := (hs.wf hh).size_ge
      have hsize' := (hs.wf hg).size_ge
      have hxy : x ≠ y := by
        rintro rfl
        rcases hne with hne | hne
        · exact hne rfl
        · rw [hs.has_inj hh hg hb hc, hdesc'] at hdesc
          exact hne (Option.some.inj hdesc).symm
      have happart := hs.blocks_apart hh hg hb hc hxy
      omega

theorem spaced : Spaced (Node k L) where
  apart := by
    rintro x y ⟨i, hi, hx⟩ ⟨j, hj, hy⟩ hne
    exact hs.node_apart hi hj hx hy (.inl hne)
  pos := by
    rintro x ⟨i, hi, hx⟩
    have hbounds := hs.node_bounds hi hx
    have hpos := hs.descs_pos
    omega
  lt := by
    rintro x ⟨i, hi, hx⟩
    have hdescs := hs.descs_low
    rcases hs.node_bounds hi hx with hbounds | ⟨hbounds, h, hh, -, hb⟩
    · unfold physBase at hdescs
      omega
    · have hhigh := hs.bounds hh
      have hb' := (hs.wf hh).bounds hb
      have hsize := (hs.wf hh).size_ge
      unfold physBase at hhigh
      omega

/-! ## what is not written to -/

theorem node_header (hi : i < 7) (hy : NodeOf k L i y) (hg : g ∈ L.own)
    (hx : y ≤ x) (hlt : x < y + 8) : x < g.pages ∨ g.pages + arenaSize ≤ x := by
  have hlow := hs.bounds hg
  have hdescs := hs.descs_low
  rcases hs.node_bounds hi hy with hbounds | ⟨hbounds, h, hh, -, hb⟩
  · omega
  · have hsize := (hs.wf hh).size_ge
    exact (hs.block_outside hh hb hx (by omega)).2 g hg

theorem node_desc (hi : i < 7) (hj : j < 7) (hy : NodeOf k L i y) :
    y + 8 ≤ k.desc j ∨ k.desc j + 8 ≤ y := by
  have hdesc : k.desc j = k.descs + 56 * j := rfl
  have hdesc' : k.desc i = k.descs + 56 * i := rfl
  have hbounds := hs.node_bounds hi hy
  unfold descSize at hbounds
  omega

theorem desc_header (hj : j < 7) (hg : g ∈ L.own) : k.desc j + descSize ≤ g.pages := by
  have hdesc : k.desc j = k.descs + 56 * j := rfl
  have hlow := hs.bounds hg
  have hdescs := hs.descs_low
  unfold descSize at *
  omega

/-- **A list is changed**: the sizes, the headers and the other lists are as before. -/
theorem frame_list (hi : i < 7) (honly : OnlyIn m m' ys) (hys : ∀ y ∈ ys, NodeOf k L i y) :
    (∀ j < 7, SameAt m m' (k.desc j) 8) ∧ (∀ g ∈ L.own, SameAt m m' g.pages arenaSize) ∧
    ∀ j < 7, j ≠ i → ∀ z, NodeOf k L j z → SameAt m m' z 8 := by
  refine ⟨fun j hj x hx hlt => honly x fun y hy => ?_,
    fun g hg x hx hlt => honly x fun y hy => ?_,
    fun j hj hne z hz x hx hlt => honly x fun y hy => ?_⟩
  · have hout := hs.node_desc hi hj (hys y hy)
    omega
  · by_contra hin
    have hout := hs.node_header hi (hys y hy) hg (x := x) (by omega) (by omega)
    omega
  · have happart := hs.node_apart hi hj (hys y hy) hz (.inr hne.symm)
    omega

/-- **A header is changed**: the sizes, the lists and the other headers are as before. -/
theorem frame_header (hg : g ∈ L.own)
    (hm : ∀ x, x < g.pages ∨ g.pages + arenaSize ≤ x → m' x = m x) :
    (∀ j < 7, SameAt m m' (k.desc j) 8) ∧
    (∀ h ∈ L.own, h ≠ g → SameAt m m' h.pages arenaSize) ∧
    ∀ j < 7, ∀ z, NodeOf k L j z → SameAt m m' z 8 := by
  refine ⟨fun j hj x hx hlt => hm x ?_, fun h hh hne x hx hlt => hm x ?_,
    fun j hj z hz x hx hlt => hm x (hs.node_header hj hz hg hx hlt)⟩
  · have hout := hs.desc_header hj hg
    unfold descSize at hout
    omega
  · have happart := hs.apart hh hg hne
    have hpos := (hs.wf hh).pos
    have hpos' := (hs.wf hg).pos
    unfold pgsize arenaSize at *
    omega

theorem setFree (hys : ∀ b ∈ ys, ∃ h ∈ L.own, h.desc = some i ∧ h.Has b) :
    HeapShape { k with mem := m } others { L with free := update L.free i ys } := by
  refine ⟨hs.pages, hs.runs, hs.descs_pos, hs.descs_low, hs.descCnt, hs.arena, fun j hj b hb => ?_⟩
  by_cases hji : j = i
  · subst hji
    dsimp only at hb
    rw [update_self] at hb
    exact hys b hb
  · dsimp only at hb
    rw [update_of_ne hji] at hb
    exact hs.free j hj b hb

/-- **The list of a descriptor is changed**: what else there is stays. -/
theorem setList (hi : i < 7) (hdescs : ∀ j < 7, DescAt k j)
    (hlists : ∀ j < 7, ListAt (Node k L) k.mem (freeList (k.desc j)) (L.free j))
    (hlist : ListAt (Node k L) m' (freeList (k.desc i)) ys) (honly : OnlyIn k.mem m' xs)
    (hxs : ∀ y ∈ xs, NodeOf k L i y) :
    (∀ j < 7, DescAt { k with mem := m' } j) ∧
    (∀ g ∈ L.own, SameAt k.mem m' g.pages arenaSize) ∧
    ∀ j < 7, ListAt (Node k L) m' (freeList (k.desc j)) (update L.free i ys j) := by
  obtain ⟨hsizes, hheaders, hothers⟩ := hs.frame_list hi honly hxs
  refine ⟨fun j hj => (hdescs j hj).of_words rfl (hsizes j hj), hheaders, fun j hj => ?_⟩
  by_cases hji : j = i
  · subst hji
    rwa [update_self]
  · rw [update_of_ne hji]
    exact (hlists j hj).congr fun y hy => hothers j hj hji y
      (NodeOf.of_list (fun z hz => .inr (.inr (hs.free j hj z hz))) y hy)

end

end HeapShape

/-- The number of blocks in a page. -/
def countIn (ys : List Nat) (p : Nat) : Nat := ys.countP fun b => decide (pgRoundDown b = p)

theorem countIn_append (xs ys : List Nat) (p : Nat) :
    countIn (xs ++ ys) p = countIn xs p + countIn ys p := countP_append

theorem HeapLayout.freeCnt_of_desc (hd : h.desc = some i) :
    L.freeCnt h = countIn (L.free i) h.pages := by
  rw [HeapLayout.freeCnt, hd]
  rfl

theorem HeapLayout.freeCnt_update (hcount : countIn ys h.pages = countIn (L.free i) h.pages) :
    HeapLayout.freeCnt { L with free := update L.free i ys } h = L.freeCnt h := by
  unfold HeapLayout.freeCnt
  cases h.desc with
  | none => rfl
  | some j =>
    dsimp only
    by_cases hji : j = i
    · rw [hji, update_self]
      exact hcount
    · rw [update_of_ne hji]

/-! ## block_to_arena and arena_to_block -/

namespace HeapShape

theorem desc_pos (hs : HeapShape k others L) (i : Nat) : k.desc i ≠ 0 := by
  have hpos := hs.descs_pos
  unfold Kheap.desc
  omega

/-- **`block_to_arena`** finds the holding of a block. -/
theorem blockToArena_eq (hs : HeapShape k others L) (hg : g ∈ L.own) (hb : g.Has b)
    (hmagic : word m g.pages = arenaMagic) (hdesc : word m (g.pages + 4) = k.headerDesc g)
    (hsize : ∀ i < 7, word m (k.desc i) = descBlockSize i) : blockToArena m b = .ok g.pages := by
  have hwf := hs.wf hg
  have hround := hwf.roundDown hb
  have hlow := hs.bounds hg
  have hbounds := hwf.bounds hb
  have hlt := hwf.lt_first hb
  have hofs : pgOfs b = b - g.pages := by
    have haligned := hwf.aligned
    unfold pgOfs
    unfold pgsize at *
    omega
  unfold blockToArena
  dsimp only
  rw [hround, if_neg (by unfold physBase at hlow; omega), if_neg (not_not_intro hmagic), hdesc]
  unfold headerDesc
  cases hd : g.desc with
  | none =>
    have hofs' : pgOfs b = arenaSize := by
      rw [hofs, (Wf.has_iff_of_big hd).mp hb]
      omega
    dsimp only
    rw [if_neg (not_not_intro (.inl rfl)), if_neg (not_not_intro (.inr hofs'))]
  | some i =>
    obtain ⟨hi, -⟩ := hwf.arena i hd
    obtain ⟨n, -, rfl⟩ := hb
    have hmod : (pgOfs (g.block n) + sizeTSize - arenaSize) % sizeTSize %
        word m (k.desc i) = 0 := by
      have hsub : pgOfs (g.block n) + sizeTSize - arenaSize = n * g.size + sizeTSize := by
        rw [hofs, block]
        omega
      have hlt' : n * g.size < sizeTSize := by
        unfold block at hlt
        unfold pgsize at hlt
        unfold sizeTSize
        omega
      have hgsize : g.size = descBlockSize i := by rw [size, hd]
      rw [hsub, Nat.add_mod_right, Nat.mod_eq_of_lt hlt', hsize i hi, hgsize]
      exact Nat.mul_mod_left _ _
    dsimp only
    rw [if_neg (not_not_intro (.inr hmod)), if_neg (not_not_intro (.inl (hs.desc_pos i)))]

/-- **`arena_to_block`** of an arena. -/
theorem arenaToBlock_eq (hs : HeapShape k others L) (hg : g ∈ L.own) (hd : g.desc = some i)
    {n : Nat} (hn : n < g.blocks) (hmagic : word m g.pages = arenaMagic)
    (hdesc : word m (g.pages + 4) = k.desc i) (hsize : word m (k.desc i) = descBlockSize i)
    (hblocks : word m (k.desc i + 4) = descBlocks i) :
    arenaToBlock m g.pages n = .ok (g.block n) := by
  have hlow := hs.bounds hg
  have hn' : n < descBlocks i := by
    rwa [blocks, hd] at hn
  unfold arenaToBlock
  rw [if_neg (by unfold physBase at hlow; omega), if_neg (not_not_intro hmagic), hdesc, hblocks,
    if_neg (not_not_intro hn'), hsize, block, size, hd]

end HeapShape

end Pintos

