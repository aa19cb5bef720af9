import Pintos.Threads.MallocBlocks

/-!
# Pintos.Threads.MallocPages

Holdings come and go: a run of pages becomes a big block (`HeapInv.addBig`) or an arena with
free blocks (`HeapInv.addArena`), and an arena whose blocks are all free is given back
(`HeapInv.release`), as is a big block (`HeapShape.drop`).
-/

namespace Pintos

open Bytes ListMem Kheap Function List HeapLayout

variable {k k' : Kheap} {others : List PageRun} {L L' : HeapLayout} {g h : Holding}
  {m m' : Memory} {b c i j x y n : Nat} {xs ys : List Nat} {pages : PallocState} {a : Nat}

/-! ## pages -/

namespace Kheap

/-- There are `n` free pages in a row in the kernel pool. -/
def HasPages (k : Kheap) (n : Nat) : Prop :=
  0 < n ∧ ∃ j, j + n ≤ (k.pages.palloc.pool false).usedMap.bitCnt ∧
    FirstFit.Clear (k.pages.palloc.pool false).usedMap.bits n j

/-- A descriptor has a free block, or there is a page for new ones. -/
def HasBlock (k : Kheap) (d : Nat) : Prop :=
  ¬ listEmpty k.mem (freeList d) = true ∨ k.HasPages 1

/-- The number of pages of a big block. -/
def bigPageCnt (size : Nat) : Nat := (size + arenaSize + pgsize - 1) % sizeTSize / pgsize

/-- There is memory for a block. -/
def HasMemory (k : Kheap) (size : Nat) : Prop :=
  size ≠ 0 ∧ match k.findDesc size with
    | none => k.HasPages (bigPageCnt size)
    | some d => k.HasBlock d

end Kheap

/-- **Pages are taken**, or there are none. -/
theorem pallocGet_cases (hpages : k.pages.Inv) (n : Nat) :
    k.pallocGet n = .ok (k, 0) ∧ ¬ k.HasPages n ∨
    k.HasPages n ∧ ∃ a pages, 0 < a ∧ k.pallocGet n = .ok ({ k with pages }, a) ∧ pages.Inv ∧
      pages.runs false = ⟨a, n⟩ :: k.pages.runs false ∧ pages.runs true = k.pages.runs true := by
  unfold pallocGet
  rcases Nat.eq_zero_or_pos n with rfl | hpos
  · exact .inl ⟨rfl, fun h => absurd h.1 (Nat.lt_irrefl 0)⟩
  · rcases pallocGetMultiple_spec hpages.layout ⟨false, false, false⟩ hpos with
      ⟨idx, hfirst, heq⟩ | ⟨hnone, heq⟩
    · obtain ⟨a, ha⟩ : ∃ a, a = (k.pages.palloc.pool false).base + pgsize * idx := ⟨_, rfl⟩
      have hbase := hpages.layout.base_pos false
      have hne : a ≠ 0 := by omega
      rw [heq]
      dsimp only
      rw [← ha, if_neg hne]
      have hstep : ∀ pages, k.pages.step (.get ⟨false, false, false⟩ n) = some pages → pages.Inv :=
        fun _ => hpages.step
      refine .inr ⟨⟨hpos, idx, hfirst.fits, hfirst.clear⟩, a, _, Nat.pos_of_ne_zero hne, rfl,
        hstep _ ?_, rfl, rfl⟩
      unfold PallocState.step
      dsimp only
      rw [heq]
      dsimp only
      rw [← ha, if_neg hne]
    · rw [heq]
      exact .inl ⟨rfl, fun ⟨_, j, hj, hclear⟩ => hnone j hj hclear⟩

/-- **Pages are freed.** -/
theorem pallocFree_eq (hpages : k.pages.Inv) {run : PageRun} (hrun : run ∈ k.pages.runs false) :
    ∃ pages, k.pallocFree run.pages run.cnt =
        .ok { k with mem := setRange k.mem run.pages (pgsize * run.cnt) 0xcc, pages } ∧
      pages.Inv ∧ pages.runs false = (k.pages.runs false).erase run ∧
      pages.runs true = k.pages.runs true := by
  obtain ⟨-, hpos, hlow, hstop, -⟩ := hpages.kernel_run hrun
  have hfree := pallocFreeMultiple_eq hpages hrun
  unfold pallocFree
  rw [hfree]
  dsimp only
  rw [if_neg (by unfold physBase at hlow; omega), memset, if_neg]
  · have hstep : ∀ pages, k.pages.step (.free false run) = some pages → pages.Inv :=
      fun _ => hpages.step
    refine ⟨_, rfl, hstep _ ?_, rfl, rfl⟩
    unfold PallocState.step
    dsimp only
    rw [if_pos hrun, hfree]
  · change ¬ run.pages + pgsize * run.cnt > k.pages.palloc.userPool.stop
    omega

/-! ## a holding is added -/

theorem NodeOf.mono (hy : NodeOf k L i y) (hdescs : k'.descs = k.descs)
    (hown : ∀ h ∈ L.own, h ∈ L'.own) : NodeOf k' L' i y := by
  unfold NodeOf at *
  rw [desc_congr hdescs]
  rcases hy with hy | hy | ⟨h, hh, hrest⟩
  · exact .inl hy
  · exact .inr (.inl hy)
  · exact .inr (.inr ⟨h, hown h hh, hrest⟩)

namespace HeapShape

theorem add (hs : HeapShape k others L) (hpages : pages.Inv)
    (hruns : pages.runs false = g.run :: k.pages.runs false)
    (hg : ∀ i, g.desc = some i → i < 7 ∧ g.cnt = 1) :
    HeapShape { k with mem := m, pages } others { L with own := g :: L.own } := by
  refine ⟨hpages, ?_, hs.descs_pos, hs.descs_low, hs.descCnt, fun h hh => ?_, fun i hi b hb => ?_⟩
  · dsimp only
    rw [hruns]
    exact hs.runs.cons _
  · rcases mem_cons.mp hh with rfl | hh
    · exact hg
    · exact hs.arena h hh
  · obtain ⟨h, hh, hrest⟩ := hs.free i hi b hb
    exact ⟨h, mem_cons_of_mem g hh, hrest⟩

theorem not_mem_of_add (hs : HeapShape k others { L with own := g :: L.own }) : g ∉ L.own := by
  intro hg
  have hpair := hs.runs_pairwise
  have hout := (pairwise_cons.mp hpair).1 g.run (mem_append_left _ (mem_map_of_mem hg))
  have hpos := (hs.wf (mem_cons_self ..)).pos
  unfold PageRun.Outside at hout
  unfold Holding.run pgsize at hout
  dsimp only at hout
  omega

end HeapShape

theorem setArena_words (hd : c < 2 ^ 32) (hn : n < 2 ^ 32) (a : Nat) :
    word (setArena m a c n) a = arenaMagic ∧ word (setArena m a c n) (a + 4) = c ∧
      word (setArena m a c n) (a + 8) = n := by
  unfold setArena
  refine ⟨?_, ?_, word_setWord_self hn⟩
  · rw [word_setWord_of_disjoint (by omega), word_setWord_of_disjoint (by omega),
      word_setWord_self (by decide)]
  · rw [word_setWord_of_disjoint (by omega), word_setWord_self hd]

theorem setArena_of_outside (hx : x < a ∨ a + arenaSize ≤ x) :
    setArena m a c n x = m x := by
  unfold arenaSize at hx
  unfold setArena
  rw [setWord_of_outside (by omega), setWord_of_outside (by omega), setWord_of_outside (by omega)]

namespace HeapShape

/-- The blocks of an arena are in its page. -/
theorem countIn_blocks (hs : HeapShape k others L) (hg : g ∈ L.own) (hh : h ∈ L.own) :
    countIn ((range g.blocks).map g.block) h.pages = if h = g then g.blocks else 0 := by
  have hround : ∀ b ∈ (range g.blocks).map g.block, pgRoundDown b = g.pages := fun b hb =>
    (hs.wf hg).roundDown (HeapInv.mem_map_block.mp hb)
  split
  · next heq =>
    rw [heq, countIn, countP_eq_length.mpr fun b hb => decide_eq_true (hround b hb), length_map,
      length_range]
  · next hne =>
    rw [countIn, countP_eq_zero]
    intro b hb
    rw [decide_eq_true_eq, hround b hb]
    exact fun heq => hne (hs.pages_inj hh hg heq.symm)

/-- **An arena gets its blocks**: they are put into the list, where none of them was. -/
theorem fill (hs : HeapShape k others L) (hi : i < 7) (hg : g ∈ L.own) (hd : g.desc = some i)
    (hdescs : ∀ j < 7, DescAt k j) (hheader : ∀ h ∈ L.own, h ≠ g → Header k L h)
    (hnew : word k.mem g.pages = arenaMagic ∧ word k.mem (g.pages + 4) = k.desc i ∧
      word k.mem (g.pages + 8) = g.blocks)
    (hlists : ∀ j < 7, ListAt (Node k L) k.mem (freeList (k.desc j)) (L.free j))
    (hnone : ∀ b ∈ L.free i, ¬ g.Has b) :
    ∃ m', forBlocks (fun m b => ListMem.listPushBack m (freeList (k.desc i)) b) k.mem g.pages
        g.blocks = .ok m' ∧
      HeapInv { k with mem := m' } others { L with
        free := update L.free i (L.free i ++ (range g.blocks).map g.block) } := by
  obtain ⟨hmagic, hdesc, hcnt⟩ := hnew
  obtain ⟨m', hloop, hlist, honly⟩ := hs.pushBlocks hi hg hd (range g.blocks)
    (fun n hn => mem_range.mp hn) (HeapInv.nodup_map_block (hs.wf hg))
    (fun n hn hmem => hnone _ hmem ⟨n, mem_range.mp hn, rfl⟩)
    (fun y hy => .inr (.inr (hs.free i hi y hy)))
    ⟨hmagic, hdesc, (hdescs i hi).blockSize, (hdescs i hi).blocks⟩ (hlists i hi)
  have hfree : ∀ b ∈ L.free i ++ (range g.blocks).map g.block,
      ∃ h ∈ L.own, h.desc = some i ∧ h.Has b := by
    intro b hb
    rcases mem_append.mp hb with hb | hb
    · exact hs.free i hi b hb
    · exact ⟨g, hg, hd, HeapInv.mem_map_block.mp hb⟩
  obtain ⟨hdescs', hheaders, hlists'⟩ := hs.setList hi hdescs hlists hlist honly
    (.of_list fun y hy => .inr (.inr (hfree y hy)))
  refine ⟨m', hloop, hs.setFree hfree, hdescs', fun h hh => ?_, hlists'⟩
  by_cases hhg : h = g
  · subst hhg
    have hzero : countIn (L.free i) h.pages = 0 := by
      rw [countIn, countP_eq_zero]
      intro b hb
      obtain ⟨h', hh', -, hhas⟩ := hs.free i hi b hb
      rw [decide_eq_true_eq, (hs.wf hh').roundDown hhas]
      exact fun heq => hnone b hb (hs.pages_inj hh' hh heq ▸ hhas)
    obtain ⟨hmagic', hdesc', hcnt'⟩ := (hheaders h hh).header
    refine ⟨hmagic'.trans hmagic, ?_, ?_⟩
    · rw [headerDesc, hd]
      exact hdesc'.trans hdesc
    · rw [freeCnt_of_desc hd]
      dsimp only
      rw [hcnt', hcnt, update_self, countIn_append, hzero, hs.countIn_blocks hh hh, if_pos rfl,
        Nat.zero_add]
  · refine (hheader h hh hhg).of_words rfl (hheaders h hh) (freeCnt_update ?_)
    rw [countIn_append, hs.countIn_blocks hg hh, if_neg hhg, Nat.add_zero]

end HeapShape

namespace HeapInv

/-- **The header of a new holding is written**: the rest is as before. -/
theorem addHeader (hinv : HeapInv k others L)
    (hs : HeapShape k' others { L with own := g :: L.own }) (hdescs : k'.descs = k.descs) :
    (∀ j < 7, word (setArena k.mem g.pages c n) (k'.desc j) = descBlockSize j ∧
      word (setArena k.mem g.pages c n) (k'.desc j + 4) = descBlocks j) ∧
    (∀ h ∈ L.own, SameAt k.mem (setArena k.mem g.pages c n) h.pages arenaSize) ∧
    ∀ j < 7, ListAt (Node k' { L with own := g :: L.own }) (setArena k.mem g.pages c n)
      (freeList (k'.desc j)) (L.free j) := by
  have hdesc := desc_congr hdescs
  have hgmem : g ∈ g :: L.own := mem_cons_self ..
  obtain ⟨hdescs', hheaders, hlists⟩ := hs.frame_header hgmem fun x hx =>
    setArena_of_outside hx
  have hmono : ∀ j y, NodeOf k L j y → NodeOf k' { L with own := g :: L.own } j y := fun j y hy =>
    hy.mono hdescs fun h hh => mem_cons_of_mem g hh
  refine ⟨fun j hj => ?_, fun h hh => ?_, fun j hj => ?_⟩
  · have hold := hinv.descs j hj
    obtain ⟨hsize, hblocks⟩ := (hdescs' j hj).desc
    rw [hsize, hblocks, hdesc]
    exact ⟨hold.blockSize, hold.blocks⟩
  · refine hheaders h (mem_cons_of_mem g hh) ?_
    rintro rfl
    exact hs.not_mem_of_add hh
  · rw [hdesc]
    have hlist := hinv.lists j hj
    refine ⟨hlist.isList.congr fun y hy => ?_, fun y hy => ⟨j, hj, hmono j y (hinv.nodes hj y hy)⟩⟩
    exact links_congr (hlists j hj y (hmono j y (hinv.nodes hj y hy)))

/-- **A big block.** -/
theorem addBig (hinv : HeapInv k others L) (hpages : pages.Inv)
    (hruns : pages.runs false = ⟨a, n⟩ :: k.pages.runs false) (hn : n < 2 ^ 32) :
    HeapInv { k with mem := setArena k.mem a 0 n, pages } others
      { L with own := ⟨a, n, none⟩ :: L.own } := by
  have hs : HeapShape { k with mem := setArena k.mem a 0 n, pages } others
      { L with own := ⟨a, n, none⟩ :: L.own } :=
    hinv.toHeapShape.add hpages hruns nofun
  obtain ⟨hdescs, hheaders, hlists⟩ := hinv.addHeader hs rfl
  obtain ⟨hmagic, hdesc, hcnt⟩ := setArena_words (c := 0) (by decide) hn a
  refine ⟨hs, fun i hi => ⟨(hdescs i hi).1, (hdescs i hi).2⟩, fun h hh => ?_, hlists⟩
  rcases mem_cons.mp hh with rfl | hh
  · exact ⟨hmagic, hdesc, hcnt⟩
  · exact (hinv.header h hh).of_words rfl (hheaders h hh) rfl

/-- **A new arena**: all its blocks are free. -/
theorem addArena (hinv : HeapInv k others L) (hi : i < 7)
    (hpages : pages.Inv) (hruns : pages.runs false = ⟨a, 1⟩ :: k.pages.runs false) :
    ∃ m', forBlocks (fun m b => ListMem.listPushBack m (freeList (k.desc i)) b)
        (setArena k.mem a (k.desc i) (descBlocks i)) a (descBlocks i) = .ok m' ∧
      HeapInv { k with mem := m', pages } others
        { own := ⟨a, 1, some i⟩ :: L.own
          free := Function.update L.free i
            (L.free i ++ (range (descBlocks i)).map (Holding.block ⟨a, 1, some i⟩)) } := by
  have hs : HeapShape { k with mem := setArena k.mem a (k.desc i) (descBlocks i), pages } others
      { L with own := ⟨a, 1, some i⟩ :: L.own } :=
    hinv.toHeapShape.add hpages hruns (by rintro j ⟨⟩; exact ⟨hi, rfl⟩)
  have hlt : k.desc i < 2 ^ 32 ∧ descBlocks i < 2 ^ 32 := by
    have hlow := hinv.descs_low
    have hdesc : k.desc i = k.descs + 56 * i := rfl
    have hbounds := descBlocks_bounds i hi
    unfold physBase descSize at hlow
    omega
  obtain ⟨hdescs, hheaders, hlists⟩ := hinv.addHeader hs rfl
  obtain ⟨hmagic, hdesc, hcnt⟩ := setArena_words hlt.1 hlt.2 a
  refine hs.fill hi mem_cons_self rfl (fun j hj => ⟨(hdescs j hj).1, (hdescs j hj).2⟩)
    (fun h hh hne => ?_) ⟨hmagic, hdesc, hcnt⟩ hlists fun b hb hhas => ?_
  · have hh := (mem_cons.mp hh).resolve_left hne
    exact (hinv.header h hh).of_words rfl (hheaders h hh) rfl
  · obtain ⟨h, hh, -, hhas'⟩ := hinv.free i hi b hb
    have heq := hs.has_inj (mem_cons_of_mem _ hh) mem_cons_self hhas' hhas
    exact hs.not_mem_of_add (heq ▸ hh)

end HeapInv

/-! ## a holding is given back -/

namespace HeapShape

theorem own_nodup (hs : HeapShape k others L) : L.own.Nodup := by
  have hpair := (pairwise_append.mp hs.runs_pairwise).1
  rw [pairwise_map] at hpair
  refine hpair.imp_of_mem fun {h g} hh _ hout => ?_
  rintro rfl
  have hpos := (hs.wf hh).pos
  unfold PageRun.Outside at hout
  unfold Holding.run pgsize at hout
  dsimp only at hout
  omega

/-- **A holding without free blocks in a list is given back.** -/
theorem drop (hs : HeapShape k others L) (hg : g ∈ L.own) (hdescs : ∀ i < 7, DescAt k i)
    (hheader : ∀ h ∈ L.own, h ≠ g → Header k L h)
    (hlists : ∀ i < 7, ListAt (Node k L) k.mem (freeList (k.desc i)) (L.free i))
    (hnone : ∀ i < 7, ∀ b ∈ L.free i, ¬ g.Has b) :
    ∃ k', k.pallocFree g.pages g.cnt = .ok k' ∧ k'.pages.runs true = k.pages.runs true ∧
      HeapInv k' others { L with own := L.own.erase g } := by
  obtain ⟨pages, heq, hpages, hruns, huser⟩ := pallocFree_eq hs.pages (hs.run_mem hg)
  have hmem : ∀ h, h ∈ L.own.erase g ↔ h ≠ g ∧ h ∈ L.own := fun h => hs.own_nodup.mem_erase_iff
  have hout : ∀ x, x < g.pages ∨ g.pages + pgsize * g.cnt ≤ x →
      setRange k.mem g.run.pages (pgsize * g.run.cnt) 0xcc x = k.mem x := fun x =>
    setRange_of_outside
  refine ⟨_, heq, huser, ⟨hpages, ?_, hs.descs_pos, hs.descs_low, hs.descCnt, fun h hh => ?_,
    fun i hi b hb => ?_⟩, fun i hi => ?_, fun h hh => ?_, fun i hi => ?_⟩
  · dsimp only
    rw [hruns]
    have hperm : (k.pages.runs false).Perm
        (g.run :: ((L.own.erase g).map Holding.run ++ others)) :=
      hs.runs.trans (((perm_cons_erase hg).map Holding.run).append_right others)
    have hperm' := hperm.erase g.run
    rwa [erase_cons_head] at hperm'
  · exact hs.arena h ((hmem h).mp hh).2
  · obtain ⟨h, hh, hd, hhas⟩ := hs.free i hi b hb
    refine ⟨h, (hmem h).mpr ⟨?_, hh⟩, hd, hhas⟩
    rintro rfl
    exact hnone i hi b hb hhas
  · have hlow := hs.desc_header hi hg
    unfold descSize at hlow
    exact (hdescs i hi).of_words rfl fun x _ _ => hout x (by omega)
  · obtain ⟨hne, hh⟩ := (hmem h).mp hh
    have happart := hs.apart hh hg hne
    have hpos := (hs.wf hh).pos
    have hpos' := (hs.wf hg).pos
    refine (hheader h hh hne).of_words rfl (fun x hle hlt => hout x ?_) rfl
    unfold pgsize arenaSize at *
    omega
  · have hlist := hlists i hi
    have hlow := hs.desc_header hi hg
    unfold descSize at hlow
    have hnodes := NodeOf.of_list fun y hy => by
      obtain ⟨h, hh, hd, hhas⟩ := hs.free i hi y hy
      refine (.inr (.inr ⟨h, (hmem h).mpr ⟨?_, hh⟩, hd, hhas⟩) :
        NodeOf k { L with own := L.own.erase g } i y)
      rintro rfl
      exact hnone i hi y hy hhas
    refine ⟨hlist.isList.congr fun y hy => links_congr fun x hx hlt => hout x ?_, fun y hy =>
      ⟨i, hi, hnodes y hy⟩⟩
    rcases hnodes y hy with rfl | rfl | ⟨h, hh, -, hhas⟩
    · unfold freeList at *
      omega
    · unfold freeList at *
      omega
    · obtain ⟨hne, hh⟩ := (hmem h).mp hh
      have happart := hs.apart hh hg hne
      have hbounds := (hs.wf hh).bounds hhas
      have hsize := (hs.wf hh).size_ge
      omega

theorem live_drop (hs : HeapShape k others L) (hg : g ∈ L.own) :
    (∀ c, Live { L with own := L.own.erase g } c ↔ L.Live c ∧ ¬ g.Has c) ∧
      ∀ h ∈ L.own.erase g, L.Used h → Used { L with own := L.own.erase g } h := by
  have hmem : ∀ h, h ∈ L.own.erase g ↔ h ≠ g ∧ h ∈ L.own := fun h => hs.own_nodup.mem_erase_iff
  refine ⟨fun c => ⟨?_, ?_⟩, fun h _ hused => hused⟩
  · rintro ⟨h, hh, hhas, hfree⟩
    obtain ⟨hne, hh⟩ := (hmem h).mp hh
    exact ⟨⟨h, hh, hhas, hfree⟩, fun hhas' => hne (hs.has_inj hh hg hhas hhas')⟩
  · rintro ⟨⟨h, hh, hhas, hfree⟩, hnot⟩
    refine ⟨h, (hmem h).mpr ⟨?_, hh⟩, hhas, hfree⟩
    rintro rfl
    exact hnot hhas

/-- The blocks of a new arena are free, and nothing else has changed. -/
theorem live_fill (hs : HeapShape k others ⟨g :: L.own, update L.free i ys⟩) (hd : g.desc = some i)
    (hfree : L.free i = []) (hys : ∀ c, c ∈ ys ↔ g.Has c) :
    (∀ c, Live ⟨g :: L.own, update L.free i ys⟩ c ↔ L.Live c) ∧
      ∀ h ∈ L.own, L.Used h → Used ⟨g :: L.own, update L.free i ys⟩ h := by
  have hnot : g ∉ L.own := not_mem_of_add (L := ⟨L.own, update L.free i ys⟩) hs
  have hfreeOf : ∀ h ∈ L.own, ∀ c, h.Has c →
      (c ∈ freeOf ⟨g :: L.own, update L.free i ys⟩ h ↔ c ∈ L.freeOf h) := by
    intro h hh c hc
    have hupdate : freeOf ⟨g :: L.own, update L.free i ys⟩ h =
      if h.desc = some i then ys else L.freeOf h := freeOf_update h
    rw [hupdate]
    split
    · next hdesc =>
      rw [freeOf_of_desc hdesc, hfree, hys]
      refine ⟨fun hc' => absurd hh ?_, nofun⟩
      rwa [hs.has_inj (mem_cons_of_mem g hh) mem_cons_self hc hc']
    · rfl
  refine ⟨fun c => ⟨?_, ?_⟩, ?_⟩
  · rintro ⟨h, hh, hc, hout⟩
    rcases mem_cons.mp hh with rfl | hh
    · refine absurd ((hys c).mpr hc) ?_
      rw [freeOf_of_desc hd] at hout
      dsimp only at hout
      rwa [update_self] at hout
    · exact ⟨h, hh, hc, (hfreeOf h hh c hc).not.mp hout⟩
  · rintro ⟨h, hh, hc, hout⟩
    exact ⟨h, mem_cons_of_mem g hh, hc, (hfreeOf h hh c hc).not.mpr hout⟩
  · rintro h hh ⟨c, hc, hout⟩
    exact ⟨c, hc, (hfreeOf h hh c hc).not.mpr hout⟩

end HeapShape

/-! ## free -/

namespace HeapInv

/-- **A block is put into its list.** -/
theorem pushBlock (hinv : HeapInv k others L) (hi : i < 7) (hg : g ∈ L.own) (hd : g.desc = some i)
    (hb : g.Has b) (hnot : b ∉ L.free i) :
    ∃ m' n, ListMem.listPushFront k.mem (freeList (k.desc i)) b = some m' ∧
      (word m' (g.pages + 8) + 1) % sizeTSize = n ∧
      countIn (b :: L.free i) g.pages = n ∧
      HeapInv { k with mem := setWord m' (g.pages + 8) n } others
        { L with free := Function.update L.free i (b :: L.free i) } := by
  have hs := hinv.toHeapShape
  have hround := (hs.wf hg).roundDown hb
  have hnode : NodeOf k L i b := .inr (.inr ⟨g, hg, hd, hb⟩)
  obtain ⟨m', hpush, hlist, honly⟩ := (hinv.lists i hi).pushFront hs.spaced ⟨i, hi, hnode⟩
    (hs.not_sentinel hi hg hb hnot)
  have hfree : ∀ c ∈ b :: L.free i, ∃ h ∈ L.own, h.desc = some i ∧ h.Has c := by
    intro c hc
    rcases mem_cons.mp hc with rfl | hc
    · exact ⟨g, hg, hd, hb⟩
    · exact hs.free i hi c hc
  have hnodes := NodeOf.of_list fun y hy => (.inr (.inr (hfree y hy)) : NodeOf k L i y)
  have hheaders := (hs.frame_list hi honly hnodes).2.1
  obtain ⟨n, hn⟩ : ∃ n, countIn (L.free i) g.pages = n := ⟨_, rfl⟩
  have hword : word m' (g.pages + 8) = n := by
    rw [(hheaders g hg).header.2.2, (hinv.header g hg).freeCnt, freeCnt, hd]
    exact hn
  have hlt : n + 1 < 2 ^ 32 := by
    have hle := hinv.freeCnt_le hi hg
    have hbounds := descBlocks_bounds i hi
    rw [hn, Holding.blocks, hd] at hle
    dsimp only at hle
    omega
  have hcount : countIn (b :: L.free i) g.pages = n + 1 := by
    rw [countIn_cons hround, hn, if_pos rfl]
  refine ⟨m', n + 1, hpush, ?_, hcount, hinv.update hi hg hd hlist honly hnodes hfree
    (fun h hh hne => ?_) hcount hlt⟩
  · rw [hword]
    exact Nat.mod_eq_of_lt hlt
  · have hpages : g.pages ≠ h.pages := fun heq => hne (hs.pages_inj hh hg heq.symm)
    rw [countIn_cons hround, if_neg hpages, Nat.add_zero]

/-- **An arena whose blocks are all free is given back.** -/
theorem release (hinv : HeapInv k others L) (hi : i < 7) (hg : g ∈ L.own) (hd : g.desc = some i)
    (hall : ∀ b, g.Has b → b ∈ L.free i) (hused : ∀ h ∈ L.own, h ≠ g → L.Used h) :
    ∃ m' k' L', forBlocks ListMem.listRemove k.mem g.pages g.blocks = .ok m' ∧
      pallocFree { k with mem := m' } g.pages 1 = .ok k' ∧ HeapInv k' others L' ∧
      k'.pages.runs true = k.pages.runs true ∧ (∀ h ∈ L'.own, L'.Used h) ∧
      ∀ c, L'.Live c ↔ L.Live c := by
  have hs := hinv.toHeapShape
  have hheader := hinv.header g hg
  have hnodes := hinv.nodes hi
  have hdesc : word k.mem (g.pages + 4) = k.desc i := by
    rw [hheader.desc, headerDesc, hd]
  obtain ⟨m', ys, hloop, hlist, honly, hys⟩ := hs.removeBlocks hi hg hd (range g.blocks)
    (fun n hn => mem_range.mp hn) (nodup_map_block (hs.wf hg))
    (fun n hn => hall _ ⟨n, mem_range.mp hn, rfl⟩)
    (fun y hy => hnodes y (mem_append_left _ (mem_cons_of_mem _ hy)))
    ⟨hheader.magic, hdesc, (hinv.descs i hi).blockSize, (hinv.descs i hi).blocks⟩
    (hinv.lists i hi)
  have hmem : ∀ y, y ∈ ys ↔ y ∈ L.free i ∧ ¬ g.Has y := by
    intro y
    rw [hys, mem_map_block]
  obtain ⟨hdescs₁, hheaders', hlists₁⟩ := hs.setList hi hinv.descs hinv.lists hlist honly hnodes
  have hs₁ : HeapShape { k with mem := m' } others { L with free := Function.update L.free i ys } :=
    hs.setFree fun b hb => hs.free i hi b ((hmem b).mp hb).1
  -- the counts of the other arenas are as before
  have hcount : ∀ h ∈ L.own, h ≠ g → countIn ys h.pages =
      countIn (L.free i) h.pages := by
    intro h hh hne
    have hnodup := (nodup_append.mp (nodup_cons.mp hlist.isList.nodup).2).1
    rw [countIn, countIn, countP_eq_length_filter, countP_eq_length_filter]
    refine Perm.length_eq ?_
    rw [perm_ext_iff_of_nodup (hnodup.filter _) ((hinv.free_nodup hi).filter _)]
    intro y
    rw [mem_filter, mem_filter, hmem, decide_eq_true_eq]
    refine ⟨fun hy => ⟨hy.1.1, hy.2⟩, fun hy => ⟨⟨hy.1, fun hhas => hne ?_⟩, hy.2⟩⟩
    exact hs.pages_inj hh hg (hy.2.symm.trans ((hs.wf hg).roundDown hhas))
  have hheader₁ : ∀ h ∈ L.own, h ≠ g →
      Header { k with mem := m' } { L with free := Function.update L.free i ys } h := by
    intro h hh hne
    exact (hinv.header h hh).of_words rfl (hheaders' h hh)
      (freeCnt_update (hcount h hh hne))
  have hnone : ∀ j < 7, ∀ b ∈ Function.update L.free i ys j, ¬ g.Has b := by
    intro j hj b hb hhas
    obtain ⟨h, hh, hd', hhas'⟩ := hs₁.free j hj b hb
    rw [hs.has_inj hh hg hhas' hhas, hd] at hd'
    rw [← Option.some.inj hd', update_self] at hb
    exact ((hmem b).mp hb).2 hhas
  obtain ⟨k', hfreed, huser, hinv'⟩ := hs₁.drop hg hdescs₁ hheader₁ hlists₁ hnone
  obtain ⟨hlive, hused'⟩ := hs₁.live_drop hg
  -- the blocks that are free now were free before, and only those of the arena are gone
  have hfreeOf : ∀ h c, ¬ g.Has c →
      (c ∈ freeOf { L with free := Function.update L.free i ys } h ↔ c ∈ L.freeOf h) := by
    intro h c hnot
    rw [freeOf_update]
    split
    · next hd' =>
      rw [HeapShape.freeOf_of_desc hd', hmem]
      exact ⟨And.left, fun hc => ⟨hc, hnot⟩⟩
    · rfl
  have hnotlive : ∀ h ∈ L.own, ∀ c, h.Has c → c ∉ L.freeOf h → ¬ g.Has c := by
    intro h hh c hhas hfree' hhas'
    rw [hs.has_inj hh hg hhas hhas', HeapShape.freeOf_of_desc hd] at hfree'
    exact hfree' (hall c hhas')
  have hcnt : g.cnt = 1 := (hs.arena g hg i hd).2
  refine ⟨m', k', _, hloop, hcnt ▸ hfreed, hinv', huser, fun h hh => hused' h hh ?_, fun c => ?_⟩
  · obtain ⟨hne, hh⟩ := hs.own_nodup.mem_erase_iff.mp hh
    obtain ⟨c, hhas, hfree'⟩ := hused h hh hne
    refine ⟨c, hhas, ?_⟩
    rwa [hfreeOf h c (hnotlive h hh c hhas hfree')]
  · rw [hlive]
    constructor
    · rintro ⟨⟨h, hh, hhas, hfree'⟩, hnot⟩
      exact ⟨h, hh, hhas, (hfreeOf h c hnot).not.mp hfree'⟩
    · rintro ⟨h, hh, hhas, hfree'⟩
      have hnot := hnotlive h hh c hhas hfree'
      exact ⟨⟨h, hh, hhas, (hfreeOf h c hnot).not.mpr hfree'⟩, hnot⟩

end HeapInv

end Pintos
