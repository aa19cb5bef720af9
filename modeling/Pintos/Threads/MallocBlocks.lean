import Pintos.Threads.MallocInv

/-!
# Pintos.Threads.MallocBlocks

What is done to the lists of free blocks: a block is taken (`HeapInv.takeBlock_eq`), and the
list of a descriptor is changed together with the count of one of its arenas
(`HeapInv.update`).  `HeapShape.pushBlocks` and `HeapShape.removeBlocks` are the loops over
all blocks of an arena.

Blocks that are not free belong to their owners: `HeapInv.write` says that the owner may write
to all of a block.
-/

namespace Pintos

open Bytes ListMem Kheap Function List HeapLayout

variable {k k' : Kheap} {others : List PageRun} {L L' : HeapLayout} {g h : Holding}
  {m m' : Memory} {b c i j x y : Nat} {xs ys : List Nat}

namespace HeapInv

/-! ## a block is taken or given back -/

theorem nodes (hinv : HeapInv k others L) (hi : i < 7) :
    ∀ y ∈ freeList (k.desc i) :: L.free i ++ [freeList (k.desc i) + 8], NodeOf k L i y :=
  NodeOf.of_list fun y hy => .inr (.inr (hinv.free i hi y hy))

/-- **The list of a descriptor is changed**, and with it the number of free blocks of one of
its arenas. -/
theorem update (hinv : HeapInv k others L) (hi : i < 7) (hg : g ∈ L.own) (hd : g.desc = some i)
    (hlist : ListAt (Node k L) m' (freeList (k.desc i)) ys) (honly : OnlyIn k.mem m' xs)
    (hxs : ∀ y ∈ xs, NodeOf k L i y) (hfree : ∀ b ∈ ys, ∃ h ∈ L.own, h.desc = some i ∧ h.Has b)
    (hcount : ∀ h ∈ L.own, h ≠ g → countIn ys h.pages = countIn (L.free i) h.pages) {n : Nat}
    (hn : countIn ys g.pages = n) (hlt : n < 2 ^ 32) :
    HeapInv { k with mem := setWord m' (g.pages + 8) n } others
      { L with free := update L.free i ys } := by
  have hs := hinv.toHeapShape
  obtain ⟨hdescs, hheaders, hlists⟩ := hs.setList hi hinv.descs hinv.lists hlist honly hxs
  have hout : ∀ x, x < g.pages ∨ g.pages + arenaSize ≤ x → setWord m' (g.pages + 8) n x = m' x := by
    intro x hx
    refine setWord_of_outside ?_
    unfold arenaSize at hx
    omega
  obtain ⟨hdescs', hheaders', hlists'⟩ := hs.frame_header hg hout
  refine ⟨hs.setFree hfree, fun j hj => (hdescs j hj).of_words rfl (hdescs' j hj), fun h hh => ?_,
    fun j hj => ?_⟩
  · have hheader := hinv.header h hh
    by_cases hhg : h = g
    · subst hhg
      obtain ⟨hmagic, hdesc, -⟩ := (hheaders h hh).header
      refine ⟨?_, ?_, ?_⟩
      · dsimp only
        rw [word_setWord_of_disjoint (by omega), hmagic, hheader.magic]
      · dsimp only
        rw [word_setWord_of_disjoint (by omega), hdesc]
        exact hheader.desc
      · rw [freeCnt_of_desc hd]
        dsimp only
        rw [update_self, hn]
        exact word_setWord_self hlt
    · exact hheader.of_words rfl ((hheaders h hh).trans (hheaders' h hh hhg))
        (freeCnt_update (hcount h hh hhg))
  · refine (hlists j hj).congr fun y hy x hx hlt => ?_
    obtain ⟨j', hj', hnode⟩ := (hlists j hj).nodes y hy
    exact hlists' j' hj' y hnode x hx hlt

end HeapInv

namespace HeapShape

theorem pages_inj (hs : HeapShape k others L) (hh : h ∈ L.own) (hg : g ∈ L.own)
    (heq : h.pages = g.pages) : h = g := by
  by_contra hne
  have happart := hs.apart hh hg hne
  have hpos := (hs.wf hh).pos
  have hpos' := (hs.wf hg).pos
  unfold pgsize at happart
  omega

end HeapShape

theorem countIn_cons (hb : pgRoundDown b = c) (ys : List Nat) (p : Nat) :
    countIn (b :: ys) p = countIn ys p + if c = p then 1 else 0 := by
  rw [countIn, countP_cons, hb]
  simp only [decide_eq_true_eq]
  rfl

namespace HeapInv

/-- **A free block is taken.** -/
theorem takeBlock_eq (hinv : HeapInv k others L) (hi : i < 7) (hfree : L.free i = b :: ys) :
    ∃ m', k.takeBlock (k.desc i) = .ok ({ k with mem := m' }, b) ∧
      HeapInv { k with mem := m' } others { L with free := Function.update L.free i ys } := by
  have hs := hinv.toHeapShape
  obtain ⟨g, hg, hd, hb⟩ := hs.free i hi b (hfree ▸ mem_cons_self ..)
  have hround := (hs.wf hg).roundDown hb
  have hlist := hinv.lists i hi
  have hnodes := hinv.nodes hi
  rw [hfree] at hlist hnodes
  obtain ⟨m', hpop, hlist', honly⟩ := hlist.popFront hs.spaced
  have hsub : ∀ y ∈ freeList (k.desc i) :: ys ++ [freeList (k.desc i) + 8],
      y ∈ freeList (k.desc i) :: b :: ys ++ [freeList (k.desc i) + 8] := fun y hy =>
    (((sublist_cons_self b ys).cons_cons _).append_right _).subset hy
  obtain ⟨hdescs, hheaders, -⟩ := hs.frame_list hi honly fun y hy => hnodes y (hsub y hy)
  have hheader := hinv.header g hg
  obtain ⟨hmagic, hdesc, hfreeCnt⟩ := (hheaders g hg).header
  have harena : blockToArena m' b = .ok g.pages :=
    hs.blockToArena_eq hg hb (hmagic.trans hheader.magic) (hdesc.trans hheader.desc) fun j hj =>
      (hdescs j hj).desc.1.trans (hinv.descs j hj).blockSize
  have hcnt : word m' (g.pages + 8) =
      countIn ys g.pages + 1 := by
    rw [hfreeCnt, hheader.freeCnt, freeCnt_of_desc hd, hfree, countIn_cons hround,
      if_pos rfl]
  obtain ⟨n, hn⟩ : ∃ n, countIn ys g.pages = n := ⟨_, rfl⟩
  rw [hn] at hcnt
  have hlt : n + 1 < 2 ^ 32 := hcnt ▸ word_lt
  refine ⟨setWord m' (g.pages + 8) n, ?_,
    hinv.update hi hg hd hlist' honly (fun y hy => hnodes y (hsub y hy)) (fun c hc => ?_)
      (fun h hh hne => ?_) hn (by omega)⟩
  · rw [Kheap.takeBlock, hpop, require, ok_bind]
    dsimp only
    rw [harena, ok_bind, hcnt]
    have hmod : (n + 1 + sizeTSize - 1) % sizeTSize = n := by
      unfold sizeTSize
      omega
    rw [hmod]
    rfl
  · exact hs.free i hi c (hfree ▸ mem_cons_of_mem b hc)
  · have hpages : g.pages ≠ h.pages := fun heq => hne (hs.pages_inj hh hg heq.symm)
    rw [hfree, countIn_cons hround, if_neg hpages, Nat.add_zero]

/-! ## how many blocks are free -/

theorem mem_map_block : b ∈ (range g.blocks).map g.block ↔ g.Has b := by
  rw [mem_map]
  refine exists_congr fun n => ?_
  rw [mem_range]
  exact and_congr_right fun _ => eq_comm

theorem nodup_map_block (hw : g.Wf) : ((range g.blocks).map g.block).Nodup := by
  refine nodup_range.map fun n n' heq => ?_
  have hsize := hw.size_ge
  unfold Holding.block at heq
  exact Nat.eq_of_mul_eq_mul_right (by omega) (Nat.add_left_cancel heq)

theorem free_nodup (hinv : HeapInv k others L) (hi : i < 7) : (L.free i).Nodup :=
  (nodup_append.mp (nodup_cons.mp (hinv.lists i hi).isList.nodup).2).1

theorem filter_subset (hs : HeapShape k others L) (hi : i < 7) (hg : g ∈ L.own) :
    (L.free i).filter (fun b => decide (pgRoundDown b = g.pages)) ⊆
      (range g.blocks).map g.block := by
  intro b hb
  rw [mem_filter, decide_eq_true_eq] at hb
  obtain ⟨h, hh, -, hhas⟩ := hs.free i hi b hb.1
  have hround := (hs.wf hh).roundDown hhas
  rwa [mem_map_block, ← hs.pages_inj hh hg (hround.symm.trans hb.2)]

theorem freeCnt_le (hinv : HeapInv k others L) (hi : i < 7) (hg : g ∈ L.own) :
    countIn (L.free i) g.pages ≤ g.blocks := by
  have hsub := subperm_of_subset ((hinv.free_nodup hi).filter _)
    (filter_subset hinv.toHeapShape hi hg)
  rw [countIn, countP_eq_length_filter]
  refine Nat.le_trans hsub.length_le (Nat.le_of_eq ?_)
  rw [length_map, length_range]

/-- When as many blocks are free as there are, then all of them are. -/
theorem all_free (hinv : HeapInv k others L) (hi : i < 7) (hg : g ∈ L.own)
    (hcnt : g.blocks ≤ countIn (L.free i) g.pages) (hb : g.Has b) : b ∈ L.free i := by
  have hsub := subperm_of_subset ((hinv.free_nodup hi).filter _)
    (filter_subset hinv.toHeapShape hi hg)
  rw [countIn, countP_eq_length_filter] at hcnt
  have hperm := hsub.perm_of_length_le (by rw [length_map, length_range]; exact hcnt)
  exact (mem_filter.mp (hperm.mem_iff.mpr (mem_map_block.mpr hb))).1

/-- When fewer are free, then one is not. -/
theorem used_of_lt (hinv : HeapInv k others L) (hg : g ∈ L.own) (hd : g.desc = some i)
    (hcnt : countIn (L.free i) g.pages < g.blocks) : L.Used g := by
  by_contra hnot
  have hall : ∀ b, g.Has b → b ∈ L.free i := by
    intro b hb
    by_contra hmem
    refine hnot ⟨b, hb, ?_⟩
    rwa [freeOf, hd]
  have hsub : (range g.blocks).map g.block ⊆
      (L.free i).filter fun b => decide (pgRoundDown b = g.pages) := by
    intro b hb
    have hhas := mem_map_block.mp hb
    rw [mem_filter, decide_eq_true_eq]
    exact ⟨hall b hhas, (hinv.wf hg).roundDown hhas⟩
  have hnodup := nodup_map_block (hinv.wf hg)
  have hle := (subperm_of_subset hnodup hsub).length_le
  rw [length_map, length_range, ← countP_eq_length_filter] at hle
  exact Nat.not_lt.mpr hle hcnt

end HeapInv

/-! ## the blocks that are live -/

theorem freeOf_update (h : Holding) :
    freeOf { L with free := update L.free i ys } h =
      if h.desc = some i then ys else L.freeOf h := by
  rw [freeOf, freeOf]
  cases hd : h.desc with
  | none => rw [if_neg nofun]
  | some j =>
    dsimp only
    by_cases hji : j = i
    · rw [hji, update_self, if_pos rfl]
    · rw [update_of_ne hji, if_neg fun heq => hji (Option.some.inj heq)]

namespace HeapShape

theorem freeOf_of_desc (hd : h.desc = some i) : L.freeOf h = L.free i := by
  rw [freeOf, hd]

theorem live_take (hs : HeapShape k others L) (hi : i < 7) (hfree : L.free i = b :: ys)
    (hnot : b ∉ ys) :
    ¬ L.Live b ∧ (∀ c, Live { L with free := update L.free i ys } c ↔
        c = b ∨ L.Live c) ∧
      ∀ h ∈ L.own, L.Used h ∨ h.Has b →
        Used { L with free := update L.free i ys } h := by
  obtain ⟨g, hg, hd, hb⟩ := hs.free i hi b (hfree ▸ mem_cons_self ..)
  have hin : b ∈ L.freeOf g := by
    rw [freeOf_of_desc hd, hfree]
    exact mem_cons_self ..
  -- the blocks that are free now were free before
  have hless : ∀ h c, c ∉ L.freeOf h →
      c ∉ freeOf { L with free := update L.free i ys } h := by
    intro h c hc
    rw [freeOf_update]
    split
    · next hdesc =>
      rw [freeOf_of_desc hdesc, hfree] at hc
      exact fun hmem => hc (mem_cons_of_mem b hmem)
    · exact hc
  have hout : ∀ h, h ∈ L.own → h.Has b →
      b ∉ freeOf { L with free := update L.free i ys } h := by
    intro h hh hhas
    rwa [freeOf_update, hs.has_inj hh hg hhas hb, if_pos hd]
  refine ⟨?_, fun c => ⟨?_, ?_⟩, ?_⟩
  · rintro ⟨h, hh, hhas, hfree'⟩
    rw [hs.has_inj hh hg hhas hb] at hfree'
    exact hfree' hin
  · rintro ⟨h, hh, hhas, hfree'⟩
    by_cases hcb : c = b
    · exact .inl hcb
    · refine .inr ⟨h, hh, hhas, fun hmem => hfree' ?_⟩
      rw [freeOf_update]
      split
      · next hdesc =>
        rw [freeOf_of_desc hdesc, hfree] at hmem
        exact (mem_cons.mp hmem).resolve_left hcb
      · exact hmem
  · rintro (rfl | ⟨h, hh, hhas, hfree'⟩)
    · exact ⟨g, hg, hb, hout g hg hb⟩
    · exact ⟨h, hh, hhas, hless h c hfree'⟩
  · rintro h hh (⟨c, hhas, hfree'⟩ | hhas)
    · exact ⟨c, hhas, hless h c hfree'⟩
    · exact ⟨b, hhas, hout h hh hhas⟩

theorem live_put (hs : HeapShape k others L) (hg : g ∈ L.own) (hd : g.desc = some i)
    (hb : g.Has b) :
    (∀ c, Live { L with free := update L.free i (b :: L.free i) } c ↔
        L.Live c ∧ c ≠ b) ∧
      ∀ h ∈ L.own, h ≠ g → L.Used h →
        Used { L with free := update L.free i (b :: L.free i) } h := by
  have hkeep : ∀ h ∈ L.own, ∀ c, h.Has c → (c ∉ freeOf
      { L with free := update L.free i (b :: L.free i) } h ↔ c ∉ L.freeOf h ∧ c ≠ b) := by
    intro h hh c hhas
    rw [freeOf_update]
    split
    · next hdesc =>
      rw [freeOf_of_desc hdesc, mem_cons, not_or]
      exact and_comm
    · next hdesc =>
      refine ⟨fun hmem => ⟨hmem, ?_⟩, And.left⟩
      rintro rfl
      exact hdesc (hs.has_inj hh hg hhas hb ▸ hd)
  refine ⟨fun c => ⟨?_, ?_⟩, ?_⟩
  · rintro ⟨h, hh, hhas, hfree⟩
    obtain ⟨hfree, hne⟩ := (hkeep h hh c hhas).mp hfree
    exact ⟨⟨h, hh, hhas, hfree⟩, hne⟩
  · rintro ⟨⟨h, hh, hhas, hfree⟩, hne⟩
    exact ⟨h, hh, hhas, (hkeep h hh c hhas).mpr ⟨hfree, hne⟩⟩
  · rintro h hh hne ⟨c, hhas, hfree⟩
    refine ⟨c, hhas, (hkeep h hh c hhas).mpr ⟨hfree, ?_⟩⟩
    rintro rfl
    exact hne (hs.has_inj hh hg hhas hb)

end HeapShape

/-! ## memory that is not the allocator's -/

namespace HeapInv

theorem congr (hinv : HeapInv k others L)
    (hdescs : ∀ x, x < k.descs + descSize * 10 → m' x = k.mem x)
    (hheaders : ∀ h ∈ L.own, SameAt k.mem m' h.pages arenaSize)
    (hfree : ∀ i < 7, ∀ y ∈ L.free i, SameAt k.mem m' y 8) :
    HeapInv { k with mem := m' } others L := by
  have hs := hinv.toHeapShape
  refine ⟨{ hs with },
    fun i hi => ?_, fun h hh => ?_, fun i hi => ?_⟩
  · have hdesc : k.desc i = k.descs + 56 * i := rfl
    have hle : 56 * (i + 1) ≤ 56 * 7 := Nat.mul_le_mul_left 56 hi
    unfold descSize at hdescs
    exact (hinv.descs i hi).of_words rfl fun x _ _ => hdescs x (by omega)
  · exact (hinv.header h hh).of_words rfl (hheaders h hh) rfl
  · refine (hinv.lists i hi).congr fun y hy x hx hlt => ?_
    have hle : 56 * (i + 1) ≤ 56 * 7 := Nat.mul_le_mul_left 56 hi
    have hdesc : k.desc i = k.descs + 56 * i := rfl
    rcases mem_append.mp hy with hy | hy
    · rcases mem_cons.mp hy with rfl | hy
      · refine hdescs x ?_
        unfold freeList at *
        unfold descSize
        omega
      · exact hfree i hi y hy x hx hlt
    · rw [mem_singleton] at hy
      refine hdescs x ?_
      unfold freeList at *
      unfold descSize
      omega

/-- **The owner of a block writes to it.** -/
theorem write (hinv : HeapInv k others L) (hg : g ∈ L.own) (hb : g.Has b)
    (hlive : b ∉ L.freeOf g) (hm : ∀ x, x < b ∨ b + g.size ≤ x → m' x = k.mem x) :
    HeapInv { k with mem := m' } others L := by
  have hs := hinv.toHeapShape
  refine hinv.congr (fun x hx => hm x ?_) (fun h hh x hx hlt => hm x ?_)
    fun i hi y hy x hx hlt => hm x ?_
  · by_contra hin
    have hout := (hs.block_outside hg hb (x := x) (by omega) (by omega)).1
    omega
  · by_contra hin
    have hout := (hs.block_outside hg hb (x := x) (by omega) (by omega)).2 h hh
    omega
  · obtain ⟨h, hh, hd, hhas⟩ := hs.free i hi y hy
    have hne : b ≠ y := by
      rintro rfl
      rw [hs.has_inj hg hh hb hhas, HeapShape.freeOf_of_desc hd] at hlive
      exact hlive hy
    have happart := hs.blocks_apart hg hh hb hhas hne
    have hsize := (hs.wf hh).size_ge
    omega

/-- **Something is written outside** of the descriptors and of all holdings. -/
theorem write_outside (hinv : HeapInv k others L) {lo hi : Nat}
    (hdescs : k.descs + descSize * 10 ≤ lo)
    (happart : ∀ h ∈ L.own, h.pages + pgsize * h.cnt ≤ lo ∨ hi ≤ h.pages)
    (hm : ∀ x, x < lo ∨ hi ≤ x → m' x = k.mem x) : HeapInv { k with mem := m' } others L := by
  have hs := hinv.toHeapShape
  refine hinv.congr (fun x hx => hm x (by omega)) (fun h hh x hx hlt => hm x ?_)
    fun i hi y hy x hx hlt => hm x ?_
  · have hout := happart h hh
    have hpos := (hs.wf hh).pos
    unfold pgsize arenaSize at *
    omega
  · obtain ⟨h, hh, -, hhas⟩ := hs.free i hi y hy
    have hbounds := (hs.wf hh).bounds hhas
    have hsize := (hs.wf hh).size_ge
    have hout := happart h hh
    omega

end HeapInv

/-! ## the blocks of an arena, one after the other -/

/-- What `arena_to_block` reads. -/
structure ArenaAt (k : Kheap) (m : Memory) (g : Holding) (i : Nat) : Prop where
  magic : word m g.pages = arenaMagic
  desc : word m (g.pages + 4) = k.desc i
  blockSize : word m (k.desc i) = descBlockSize i
  blocks : word m (k.desc i + 4) = descBlocks i

namespace HeapShape

theorem arenaAt (hs : HeapShape k others L) (hi : i < 7) (hg : g ∈ L.own) (harena : ArenaAt k m g i)
    (honly : OnlyIn m m' ys) (hys : ∀ y ∈ ys, NodeOf k L i y) : ArenaAt k m' g i := by
  obtain ⟨hdescs, hheaders, -⟩ := hs.frame_list hi honly hys
  obtain ⟨hmagic, hdesc, -⟩ := (hheaders g hg).header
  obtain ⟨hsize, hblocks⟩ := (hdescs i hi).desc
  exact ⟨hmagic.trans harena.magic, hdesc.trans harena.desc, hsize.trans harena.blockSize,
    hblocks.trans harena.blocks⟩

/-- The head and the tail of a list are not blocks. -/
theorem not_sentinel (hs : HeapShape k others L) (hi : i < 7) (hg : g ∈ L.own) (hb : g.Has b)
    (hnot : b ∉ xs) : b ∉ freeList (k.desc i) :: xs ++ [freeList (k.desc i) + 8] := by
  have hsize := (hs.wf hg).size_ge
  have hout := (hs.block_outside hg hb (Nat.le_refl b) (by omega)).1
  have hdesc : k.desc i = k.descs + 56 * i := rfl
  unfold descSize at hout
  unfold freeList
  intro hmem
  rcases mem_append.mp hmem with hmem | hmem
  · rcases mem_cons.mp hmem with heq | hmem
    · omega
    · exact hnot hmem
  · have heq := mem_singleton.mp hmem
    omega

/-- **All blocks are put into the list**, at its end. -/
theorem pushBlocks (hs : HeapShape k others L) (hi : i < 7) (hg : g ∈ L.own) (hd : g.desc = some i)
    (ns : List Nat) (hns : ∀ n ∈ ns, n < g.blocks) (hnodup : (ns.map g.block).Nodup)
    (hnot : ∀ n ∈ ns, g.block n ∉ xs) (hxs : ∀ y ∈ xs, NodeOf k L i y) (harena : ArenaAt k m g i)
    (hlist : ListAt (Node k L) m (freeList (k.desc i)) xs) :
    ∃ m', ns.foldlM (fun m n => arenaToBlock m g.pages n >>= fun b =>
        require .list (ListMem.listPushBack m (freeList (k.desc i)) b)) m = .ok m' ∧
      ListAt (Node k L) m' (freeList (k.desc i)) (xs ++ ns.map g.block) ∧
      OnlyIn m m' (freeList (k.desc i) :: (xs ++ ns.map g.block) ++ [freeList (k.desc i) + 8]) := by
  induction ns generalizing m xs with
  | nil =>
    rw [map_nil, append_nil]
    exact ⟨m, rfl, hlist, .refl m _⟩
  | cons n ns ih =>
    have hn := hns n (mem_cons_self ..)
    have hhas : g.Has (g.block n) := ⟨n, hn, rfl⟩
    have hnode : NodeOf k L i (g.block n) := .inr (.inr ⟨g, hg, hd, hhas⟩)
    rw [map_cons, nodup_cons] at hnodup
    obtain ⟨m₁, hpush, hlist₁, honly₁⟩ := hlist.pushBack hs.spaced ⟨i, hi, hnode⟩
      (hs.not_sentinel hi hg hhas (hnot n (mem_cons_self ..)))
    have hxs₁ : ∀ y ∈ xs ++ [g.block n], NodeOf k L i y := by
      intro y hy
      rcases mem_append.mp hy with hy | hy
      · exact hxs y hy
      · rwa [mem_singleton.mp hy]
    have hnot₁ : ∀ n' ∈ ns, g.block n' ∉ xs ++ [g.block n] := by
      intro n' hn' hmem
      rcases mem_append.mp hmem with hmem | hmem
      · exact hnot n' (mem_cons_of_mem n hn') hmem
      · rw [← mem_singleton.mp hmem] at hnodup
        exact hnodup.1 (mem_map_of_mem hn')
    obtain ⟨m', hrun, hlist', honly'⟩ := ih (fun n' hn' => hns n' (mem_cons_of_mem n hn'))
      hnodup.2 hnot₁ hxs₁ (hs.arenaAt hi hg harena honly₁ (.of_list hxs₁)) hlist₁
    rw [append_assoc, singleton_append] at hlist' honly'
    refine ⟨m', ?_, hlist', honly₁.trans honly' (fun y hy => ?_) fun y hy => hy⟩
    · rw [foldlM_cons, hs.arenaToBlock_eq hg hd hn harena.magic harena.desc
        harena.blockSize harena.blocks, ok_bind, hpush, require, ok_bind, hrun]
    · have hsub : (xs ++ [g.block n]).Sublist (xs ++ g.block n :: ns.map g.block) :=
        ((nil_sublist _).cons_cons _).append_left xs
      exact ((hsub.cons_cons _).append_right _).subset hy

/-- **All blocks are taken out of the list.** -/
theorem removeBlocks (hs : HeapShape k others L) (hi : i < 7) (hg : g ∈ L.own)
    (hd : g.desc = some i) (ns : List Nat) (hns : ∀ n ∈ ns, n < g.blocks)
    (hnodup : (ns.map g.block).Nodup) (hin : ∀ n ∈ ns, g.block n ∈ xs)
    (hxs : ∀ y ∈ xs, NodeOf k L i y) (harena : ArenaAt k m g i)
    (hlist : ListAt (Node k L) m (freeList (k.desc i)) xs) :
    ∃ m' ys, ns.foldlM (fun m n => arenaToBlock m g.pages n >>= fun b =>
        require .list (ListMem.listRemove m b)) m = .ok m' ∧
      ListAt (Node k L) m' (freeList (k.desc i)) ys ∧
      OnlyIn m m' (freeList (k.desc i) :: xs ++ [freeList (k.desc i) + 8]) ∧
      ∀ y, y ∈ ys ↔ y ∈ xs ∧ y ∉ ns.map g.block := by
  induction ns generalizing m xs with
  | nil => exact ⟨m, xs, rfl, hlist, .refl m _, fun y => by simp⟩
  | cons n ns ih =>
    obtain ⟨as, bs, rfl⟩ := append_of_mem (hin n (mem_cons_self ..))
    rw [map_cons, nodup_cons] at hnodup
    obtain ⟨m₁, hremove, hlist₁, honly₁⟩ := hlist.remove hs.spaced
    have hsub : (as ++ bs).Sublist (as ++ g.block n :: bs) :=
      (sublist_cons_self _ bs).append_left as
    have hsub' : ∀ y ∈ freeList (k.desc i) :: (as ++ bs) ++ [freeList (k.desc i) + 8],
        y ∈ freeList (k.desc i) :: (as ++ g.block n :: bs) ++ [freeList (k.desc i) + 8] :=
      fun y hy => ((hsub.cons_cons _).append_right _).subset hy
    have hxs₁ : ∀ y ∈ as ++ bs, NodeOf k L i y := fun y hy => hxs y (hsub.subset hy)
    have hmem : ∀ y, y ∈ as ++ bs ↔ y ∈ as ++ g.block n :: bs ∧ y ≠ g.block n := by
      have hnd := (nodup_append.mp (nodup_cons.mp hlist.isList.nodup).2).1
      have hnot := (nodup_cons.mp (perm_middle.nodup_iff.mp hnd)).1
      intro y
      rw [perm_middle.mem_iff, mem_cons]
      refine ⟨fun hy => ⟨.inr hy, ?_⟩, fun hy => hy.1.resolve_left hy.2⟩
      rintro rfl
      exact hnot hy
    have hin₁ : ∀ n' ∈ ns, g.block n' ∈ as ++ bs := by
      intro n' hn'
      refine (hmem _).mpr ⟨hin n' (mem_cons_of_mem n hn'), fun heq => ?_⟩
      exact hnodup.1 (heq ▸ mem_map_of_mem hn')
    obtain ⟨m', ys, hrun, hlist', honly', hys⟩ :=
      ih (fun n' hn' => hns n' (mem_cons_of_mem n hn')) hnodup.2 hin₁
        hxs₁ (hs.arenaAt hi hg harena honly₁ (.of_list hxs₁)) hlist₁
    refine ⟨m', ys, ?_, hlist', honly₁.trans honly' hsub' hsub', fun y => ?_⟩
    · rw [foldlM_cons, hs.arenaToBlock_eq hg hd (hns n (mem_cons_self ..))
        harena.magic harena.desc harena.blockSize harena.blocks, ok_bind, hremove, require,
        ok_bind, hrun]
    · rw [hys, hmem, map_cons, mem_cons, not_or, and_assoc]

end HeapShape

end Pintos
