import Mathlib

/-!
# Pintos.Lib.Dll

Doubly linked chains in an explicit heap of links.  A heap gives every node
its `prev` and `next` pointer; `Chain h a xs b` says that `next` leads from
`a` through `xs` to `b` and `prev` leads back the same way, and `IsList` adds
the two sentinels whose outer pointers are null.

Everything a client needs is stated of whole chains: `Chain.insertBefore` and
`Chain.unlink` for the chain that is edited, `Chain.congr` for every chain
that the edit does not touch.
-/

namespace Dll

open Function List Option

variable {ν : Type*}

/-- The two pointers of a node; `none` is the null pointer. -/
@[ext] structure Links (ν : Type*) where
  prev : Option ν
  next : Option ν
deriving DecidableEq, Repr

/-- Every node's pointers. -/
abbrev Heap (ν : Type*) := ν → Links ν

/-! ## pointer updates -/

section Updates

variable [DecidableEq ν] (h : Heap ν) (x y : ν) (p : Option ν)

def setPrev : Heap ν := update h x { h x with prev := p }

def setNext : Heap ν := update h x { h x with next := p }

@[simp] theorem setPrev_next : (setPrev h x p y).next = (h y).next := by
  by_cases hy : y = x
  · subst hy; simp [setPrev]
  · simp [setPrev, hy]

@[simp] theorem setNext_prev : (setNext h x p y).prev = (h y).prev := by
  by_cases hy : y = x
  · subst hy; simp [setNext]
  · simp [setNext, hy]

theorem setPrev_prev : (setPrev h x p y).prev = if y = x then p else (h y).prev := by
  by_cases hy : y = x
  · subst hy; simp [setPrev]
  · simp [setPrev, hy]

theorem setNext_next : (setNext h x p y).next = if y = x then p else (h y).next := by
  by_cases hy : y = x
  · subst hy; simp [setNext]
  · simp [setNext, hy]

end Updates

/-! ## chains -/

/-- `next` leads from `a` through `xs` to `b`, and `prev` leads back. -/
def Chain (h : Heap ν) (a : ν) : List ν → ν → Prop
  | [], b => (h a).next = some b ∧ (h b).prev = some a
  | x :: xs, b => (h a).next = some x ∧ (h x).prev = some a ∧ Chain h x xs b

variable {h h' : Heap ν} {a b e f l p n : ν} {xs ys zs : List ν}

theorem chain_append_cons : Chain h a (xs ++ e :: ys) b ↔ Chain h a xs e ∧ Chain h e ys b := by
  induction xs generalizing a with
  | nil => simp [Chain, and_assoc]
  | cons x xs ih => simp [Chain, ih, and_assoc]

/-- `y` is right behind `x`. -/
def Adj (h : Heap ν) (x y : ν) : Prop := (h x).next = some y ∧ (h y).prev = some x

theorem chain_iff : Chain h a xs b ↔ (a :: xs ++ [b]).IsChain (Adj h) := by
  induction xs generalizing a with
  | nil => simp [Chain, Adj]
  | cons x xs ih => simp [Chain, Adj, ih, and_assoc]

/-- Links only depend on the `next` pointers of the nodes that are left and the `prev` pointers of
the nodes that are entered. -/
theorem frame (hc : xs.IsChain (Adj h)) (hnext : ∀ y ∈ xs.dropLast, (h' y).next = (h y).next)
    (hprev : ∀ y ∈ xs.tail, (h' y).prev = (h y).prev) : xs.IsChain (Adj h') := by
  induction xs with
  | nil => exact .nil
  | cons x xs ih =>
    cases xs with
    | nil => exact .singleton x
    | cons y ys =>
      obtain ⟨hxy, hys⟩ := isChain_cons_cons.mp hc
      rw [dropLast_cons_cons, forall_mem_cons] at hnext
      rw [tail_cons, forall_mem_cons] at hprev
      exact isChain_cons_cons.mpr
        ⟨⟨hnext.1.trans hxy.1, hprev.1.trans hxy.2⟩, ih hys hnext.2 hprev.2⟩

theorem mem_dropLast (hnd : zs.Nodup) (hl : zs.getLast? = some l) (he : e ∈ zs.dropLast) :
    e ∈ zs ∧ e ≠ l := by
  obtain ⟨us, rfl⟩ := getLast?_eq_some_iff.mp hl
  rw [dropLast_concat] at he
  exact ⟨mem_append_left _ he, by grind⟩

theorem mem_tail (hnd : zs.Nodup) (hf : zs.head? = some f) (he : e ∈ zs.tail) : e ∈ zs ∧ e ≠ f := by
  obtain ⟨us, rfl⟩ := head?_eq_some_iff.mp hf
  grind

theorem Chain.congr (hc : Chain h a xs b) (hnext : ∀ y ∈ a :: xs, (h' y).next = (h y).next)
    (hprev : ∀ y ∈ xs ++ [b], (h' y).prev = (h y).prev) : Chain h' a xs b :=
  chain_iff.mpr (frame (chain_iff.mp hc) (by rwa [dropLast_concat]) hprev)

theorem Chain.prev_mem (hc : Chain h a xs b) (hp : (h b).prev = some p) : p ∈ a :: xs := by
  induction xs generalizing a with
  | nil =>
    have hap : a = p := some.inj (hc.2.symm.trans hp)
    simp [hap]
  | cons x xs ih => exact mem_cons_of_mem _ (ih hc.2.2)

theorem Chain.exists_prev (hc : Chain h a xs b) : ∃ p, (h b).prev = some p := by
  induction xs generalizing a with
  | nil => exact ⟨a, hc.2⟩
  | cons x xs ih => exact ih hc.2.2

theorem Chain.exists_next (hc : Chain h a xs b) : ∃ n, (h a).next = some n := by
  cases xs with
  | nil => exact ⟨b, hc.1⟩
  | cons x xs => exact ⟨x, hc.1⟩

/-! ## paths -/

/-- `next` leads from `a` through `xs` to `b`; the `prev` pointers may be
anything. -/
def Path (h : Heap ν) (a : ν) : List ν → ν → Prop
  | [], b => (h a).next = some b
  | x :: xs, b => (h a).next = some x ∧ Path h x xs b

theorem Chain.path (hc : Chain h a xs b) : Path h a xs b := by
  induction xs generalizing a with
  | nil => exact hc.1
  | cons x xs ih => exact ⟨hc.1, ih hc.2.2⟩

theorem path_append_cons : Path h a (xs ++ e :: ys) b ↔ Path h a xs e ∧ Path h e ys b := by
  induction xs generalizing a with
  | nil => simp [Path]
  | cons x xs ih => simp [Path, ih, and_assoc]

/-- The node after the start of a path is one of its members or its end. -/
theorem Path.next_mem (hp : Path h a xs b) (hn : (h a).next = some n) : n ∈ xs ++ [b] := by
  cases xs with
  | nil =>
    have hbn : b = n := some.inj (hp.symm.trans hn)
    simp [hbn]
  | cons x xs =>
    have hxn : x = n := some.inj (hp.1.symm.trans hn)
    simp [hxn]

/-- A path may be taken over by another start that leads to its second node. -/
theorem Path.congr {a' : ν} (hp : Path h a xs b) (hstart : (h' a').next = (h a).next)
    (hnext : ∀ y ∈ xs, (h' y).next = (h y).next) : Path h' a' xs b := by
  induction xs generalizing a a' with
  | nil => exact hstart.trans hp
  | cons x xs ih =>
    refine ⟨hstart.trans hp.1, ih hp.2 (hnext x mem_cons_self) fun y hy => ?_⟩
    exact hnext y (mem_cons_of_mem _ hy)

/-- Following `next` along a path. -/
def walk (h : Heap ν) : Nat → ν → Option ν
  | 0, a => some a
  | n + 1, a => (h a).next.bind (walk h n)

theorem Path.walk (hp : Path h a xs b) : Dll.walk h (xs.length + 1) a = some b := by
  induction xs generalizing a with
  | nil => simp [Dll.walk, show (h a).next = some b from hp]
  | cons x xs ih => rw [length_cons, Dll.walk, hp.1, bind_some, ih hp.2]

/-- Following `next` along a path that is not left at its end. -/
theorem Path.mem_of_walk {k : Nat} {z : ν} (hp : Path h a xs b) (hb : (h b).next = none)
    (hz : Dll.walk h k a = some z) : z ∈ a :: xs ++ [b] := by
  induction k generalizing a xs with
  | zero => simp [some.inj hz]
  | succ k ih =>
    rw [Dll.walk] at hz
    cases xs with
    | nil =>
      rw [show (h a).next = some b from hp, bind_some] at hz
      cases k with
      | zero => simp [some.inj hz]
      | succ k => simp [Dll.walk, hb] at hz
    | cons x xs =>
      rw [hp.1, bind_some] at hz
      exact mem_cons_of_mem a (ih hp.2 hz)

/-! ## insertion and removal -/

section Edits

variable [DecidableEq ν]

/-- Link the nodes from `f` to `l` between `p` and `b`: four pointer writes. -/
def linkRange (h : Heap ν) (p b f l : ν) : Heap ν :=
  setPrev (setNext (setNext (setPrev h f (some p)) l (some b)) p (some f)) b (some l)

/-- Link `e` between `p` and `b`. -/
def insertBetween (h : Heap ν) (p b e : ν) : Heap ν := linkRange h p b e e

/-- Link `p` and `n` past whatever lies between them: two pointer writes. -/
def bridge (h : Heap ν) (p n : ν) : Heap ν :=
  setPrev (setNext h p (some n)) n (some p)

theorem linkRange_next (f l y : ν) :
    (linkRange h p b f l y).next =
      if y = p then some f else if y = l then some b else (h y).next := by
  simp [linkRange, setNext_next]

theorem linkRange_prev (f l y : ν) :
    (linkRange h p b f l y).prev =
      if y = b then some l else if y = f then some p else (h y).prev := by
  simp [linkRange, setPrev_prev]

theorem insertBetween_next (e y : ν) : (insertBetween h p b e y).next =
    if y = p then some e else if y = e then some b else (h y).next := linkRange_next e e y

theorem insertBetween_prev (e y : ν) : (insertBetween h p b e y).prev =
    if y = b then some e else if y = e then some p else (h y).prev := linkRange_prev e e y

theorem bridge_next (y : ν) : (bridge h p n y).next = if y = p then some n else (h y).next := by
  simp [bridge, setNext_next]

theorem bridge_prev (y : ν) : (bridge h p n y).prev = if y = n then some p else (h y).prev := by
  simp [bridge, setPrev_prev]

/-- A range is taken out of a chain, and stays linked itself. -/
theorem isChain_unlink (hc : (xs ++ p :: (zs ++ n :: ys)).IsChain (Adj h))
    (hnd : (xs ++ p :: (zs ++ n :: ys)).Nodup) :
    (xs ++ p :: n :: ys).IsChain (Adj (bridge h p n)) ∧ zs.IsChain (Adj (bridge h p n)) := by
  obtain ⟨hxs, hrest⟩ := isChain_split.mp hc
  obtain ⟨hzs, hys, -⟩ := isChain_append.mp (isChain_cons.mp hrest).2
  have hnext : ∀ y ∈ xs ++ (zs ++ n :: ys), (bridge h p n y).next = (h y).next := fun y hy => by
    rw [bridge_next, if_neg (by grind)]
  have hprev : ∀ y ∈ xs ++ p :: (zs ++ ys), (bridge h p n y).prev = (h y).prev := fun y hy => by
    rw [bridge_prev, if_neg (by grind)]
  have hpn : Adj (bridge h p n) p n :=
    ⟨by rw [bridge_next, if_pos rfl], by rw [bridge_prev, if_pos rfl]⟩
  refine ⟨isChain_append_cons_cons.mpr ⟨frame hxs ?_ ?_, hpn, frame hys ?_ ?_⟩, frame hzs ?_ ?_⟩
  · rw [dropLast_concat]
    exact fun y hy => hnext y (mem_append_left _ hy)
  · exact fun y hy => hprev y (by have := mem_of_mem_tail hy; grind)
  · exact fun y hy => hnext y (by have := dropLast_subset _ hy; grind)
  · exact fun y hy => hprev y (by grind)
  · exact fun y hy => hnext y (by have := dropLast_subset _ hy; grind)
  · exact fun y hy => hprev y (by have := mem_of_mem_tail hy; grind)

/-- A linked range is put into a chain. -/
theorem isChain_link (hc : (xs ++ p :: b :: ys).IsChain (Adj h)) (hzs : zs.IsChain (Adj h))
    (hnd : (xs ++ p :: (zs ++ b :: ys)).Nodup) (hf : zs.head? = some f)
    (hl : zs.getLast? = some l) :
    (xs ++ p :: (zs ++ b :: ys)).IsChain (Adj (linkRange h p b f l)) := by
  obtain ⟨hxs, -, hys⟩ := isChain_append_cons_cons.mp hc
  have hnodup : zs.Nodup := hnd.sublist (IsInfix.sublist ⟨xs ++ [p], b :: ys, by simp⟩)
  have hlast : ∀ y ∈ zs.dropLast, y ∈ zs ∧ y ≠ l := fun y => mem_dropLast hnodup hl
  have hfirst : ∀ y ∈ zs.tail, y ∈ zs ∧ y ≠ f := fun y => mem_tail hnodup hf
  have hlm : l ∈ zs := mem_of_mem_getLast? hl
  have hfm : f ∈ zs := mem_of_mem_head? hf
  have hnext : ∀ y ∈ xs ++ (zs.dropLast ++ b :: ys),
      (linkRange h p b f l y).next = (h y).next := fun y hy => by
    rw [linkRange_next, if_neg (by grind), if_neg (by grind)]
  have hprev : ∀ y ∈ xs ++ p :: (zs.tail ++ ys),
      (linkRange h p b f l y).prev = (h y).prev := fun y hy => by
    rw [linkRange_prev, if_neg (by grind), if_neg (by grind)]
  have hpf : Adj (linkRange h p b f l) p f :=
    ⟨by rw [linkRange_next, if_pos rfl], by rw [linkRange_prev, if_neg (by grind), if_pos rfl]⟩
  have hlb : Adj (linkRange h p b f l) l b :=
    ⟨by rw [linkRange_next, if_neg (by grind), if_pos rfl], by rw [linkRange_prev, if_pos rfl]⟩
  refine isChain_split.mpr ⟨frame hxs ?_ ?_, isChain_cons.mpr ⟨?_, (frame hzs ?_ ?_).append
    (frame hys ?_ ?_) ?_⟩⟩
  · rw [dropLast_concat]
    exact fun y hy => hnext y (mem_append_left _ hy)
  · exact fun y hy => hprev y (by have := mem_of_mem_tail hy; grind)
  · intro y hy
    rw [head?_append_of_ne_nil _ (ne_nil_of_mem hfm), hf] at hy
    exact some.inj hy ▸ hpf
  · exact fun y hy => hnext y (by grind)
  · exact fun y hy => hprev y (by grind)
  · exact fun y hy => hnext y (by have := dropLast_subset _ hy; grind)
  · exact fun y hy => hprev y (by grind)
  · rintro x hx y ⟨⟩
    rw [hl] at hx
    exact some.inj hx ▸ hlb

end Edits

/-! ## whole lists -/

/-- `xs` are the interior nodes of the list with sentinels `hd` and `tl`, in
order. -/
structure IsList (h : Heap ν) (hd tl : ν) (xs : List ν) : Prop where
  headPrev : (h hd).prev = none
  tailNext : (h tl).next = none
  chain : Chain h hd xs tl
  nodup : (hd :: xs ++ [tl]).Nodup

variable {hd tl : ν}

/-- A list keeps its members when no pointer of its nodes changes. -/
theorem IsList.congr (hl : IsList h hd tl xs)
    (heq : ∀ y ∈ hd :: xs ++ [tl], h' y = h y) : IsList h' hd tl xs where
  headPrev := by rw [heq hd (by simp)]; exact hl.headPrev
  tailNext := by rw [heq tl (by simp)]; exact hl.tailNext
  chain := by
    refine hl.chain.congr (fun y hy => ?_) fun y hy => ?_
    · rw [heq y (mem_append_left _ hy)]
    · rw [heq y (by simp only [cons_append, mem_cons]; exact .inr hy)]
  nodup := hl.nodup

/-- The nodes of a list before and from a place in it. -/
theorem exists_place (hd tl : ν) (xs ys : List ν) : ∃ us p n vs, hd :: xs = us ++ [p] ∧
    ys ++ [tl] = n :: vs ∧
    ∀ zs, hd :: (xs ++ (zs ++ ys)) ++ [tl] = us ++ p :: (zs ++ n :: vs) := by
  obtain ⟨n, vs, hvs⟩ := exists_cons_of_ne_nil (concat_ne_nil tl ys)
  refine ⟨_, _, n, vs, (dropLast_append_getLast (cons_ne_nil hd xs)).symm, hvs, fun zs => ?_⟩
  rw [append_cons (hd :: xs).dropLast, dropLast_append_getLast, ← hvs]
  simp

theorem IsList.next_head (hl : IsList h hd tl xs) : (h hd).next = (xs ++ [tl]).head? := by
  cases xs with
  | nil => exact hl.chain.1
  | cons x xs => exact hl.chain.1

/-- Every node but the head has one before it. -/
theorem IsList.exists_prev (hl : IsList h hd tl xs) (he : e ∈ xs ++ [tl]) :
    ∃ p, (h e).prev = some p := by
  rcases mem_append.mp he with he | he
  · obtain ⟨as, bs, rfl⟩ := append_of_mem he
    exact (chain_append_cons.mp hl.chain).1.exists_prev
  · rw [mem_singleton.mp he]
    exact hl.chain.exists_prev

section Members

variable [DecidableEq ν]

/-- **Insertion** of a linked range before a member or the tail. -/
theorem IsList.insertRange (hl : IsList h hd tl (xs ++ ys)) (hzs : zs.IsChain (Adj h))
    (hnd : zs.Nodup) (hnew : ∀ z ∈ zs, z ∉ hd :: (xs ++ ys) ++ [tl])
    (hb : (ys ++ [tl]).head? = some b) (hf : zs.head? = some f) (hlast : zs.getLast? = some l) :
    ∃ p, (h b).prev = some p ∧ p ∈ hd :: xs ∧
      IsList (linkRange h p b f l) hd tl (xs ++ (zs ++ ys)) := by
  obtain ⟨us, p, n, vs, hus, hvs, hnodes⟩ := exists_place hd tl xs ys
  obtain rfl : n = b := by
    rw [hvs] at hb
    exact some.inj hb
  have hc := chain_iff.mp hl.chain
  have hnodup := hl.nodup
  rw [← nil_append ys, hnodes] at hc hnodup hnew
  have hnodup' : (us ++ p :: (zs ++ n :: vs)).Nodup := by
    rw [append_cons, (perm_append_comm_assoc ..).nodup_iff, ← append_cons]
    exact nodup_append'.mpr ⟨hnd, hnodup, hnew⟩
  have hhd : hd ∈ us ++ [p] := hus ▸ mem_cons_self
  have htl : tl ∈ n :: vs := hvs ▸ mem_append_right _ (mem_singleton_self tl)
  have hfm : f ∈ zs := mem_of_mem_head? hf
  have hlm : l ∈ zs := mem_of_mem_getLast? hlast
  refine ⟨p, (isChain_append_cons_cons.mp hc).2.1.2, hus ▸ mem_concat_self, ⟨?_, ?_, ?_, ?_⟩⟩
  · rw [linkRange_prev, if_neg (by grind), if_neg (by grind), hl.headPrev]
  · rw [linkRange_next, if_neg (by grind), if_neg (by grind), hl.tailNext]
  · rw [chain_iff, hnodes]
    exact isChain_link hc hzs hnodup' hf hlast
  · rwa [hnodes]

/-- **Removal** of a range, which stays linked. -/
theorem IsList.removeRange (hl : IsList h hd tl (xs ++ (zs ++ ys))) (hf : zs.head? = some f)
    (hlast : zs.getLast? = some l) :
    ∃ p n, (h f).prev = some p ∧ (h l).next = some n ∧ p ∈ hd :: xs ∧ n ∈ ys ++ [tl] ∧
      IsList (bridge h p n) hd tl (xs ++ ys) ∧ zs.IsChain (Adj (bridge h p n)) := by
  obtain ⟨us, p, n, vs, hus, hvs, hnodes⟩ := exists_place hd tl xs ys
  have hc := chain_iff.mp hl.chain
  have hnodup := hl.nodup
  rw [hnodes] at hc hnodup
  obtain ⟨hchain, hrange⟩ := isChain_unlink hc hnodup
  obtain ⟨-, hpz⟩ := isChain_split.mp hc
  obtain ⟨hpf, hzn⟩ := isChain_cons.mp hpz
  have hhd : hd ∈ us ++ [p] := hus ▸ mem_cons_self
  have htl : tl ∈ n :: vs := hvs ▸ mem_append_right _ (mem_singleton_self tl)
  have hfirst : Adj h p f := hpf f (by rw [head?_append, hf]; rfl)
  have hnext : Adj h l n := (isChain_append.mp hzn).2.2 l hlast n rfl
  refine ⟨p, n, hfirst.2, hnext.1, hus ▸ mem_concat_self, hvs ▸ mem_cons_self, ⟨?_, ?_, ?_, ?_⟩,
    hrange⟩
  · rw [bridge_prev, if_neg (by grind), hl.headPrev]
  · rw [bridge_next, if_neg (by grind), hl.tailNext]
  · rwa [chain_iff, ← nil_append ys, hnodes]
  · rw [← nil_append ys, hnodes]
    exact hnodup.sublist (((sublist_append_right zs _).cons_cons p).append_left us)

/-- **Insertion** before a member or the tail. -/
theorem IsList.insert (hl : IsList h hd tl (xs ++ ys)) (he : e ∉ hd :: (xs ++ ys) ++ [tl])
    (hb : (ys ++ [tl]).head? = some b) :
    ∃ p, (h b).prev = some p ∧ p ∈ hd :: xs ∧
      IsList (insertBetween h p b e) hd tl (xs ++ e :: ys) :=
  hl.insertRange (.singleton e) (nodup_singleton e) (forall_mem_singleton.mpr he) hb rfl rfl

/-- **Removal** of a member. -/
theorem IsList.remove (hl : IsList h hd tl (xs ++ e :: ys)) :
    ∃ p n, (h e).prev = some p ∧ (h e).next = some n ∧ p ∈ hd :: xs ∧ n ∈ ys ++ [tl] ∧
      IsList (bridge h p n) hd tl (xs ++ ys) := by
  have hl' : IsList h hd tl (xs ++ ([e] ++ ys)) := hl
  obtain ⟨p, n, hp, hn, hpmem, hnmem, hrem, -⟩ := hl'.removeRange rfl rfl
  exact ⟨p, n, hp, hn, hpmem, hnmem, hrem⟩

theorem linkRange_of_ne {y : ν} (hp : y ≠ p) (hb : y ≠ b) (hf : y ≠ f) (hl : y ≠ l) :
    linkRange h p b f l y = h y := by
  ext1
  · rw [linkRange_prev, if_neg hb, if_neg hf]
  · rw [linkRange_next, if_neg hp, if_neg hl]

theorem bridge_of_ne {y : ν} (hp : y ≠ p) (hn : y ≠ n) : bridge h p n y = h y := by
  ext1
  · rw [bridge_prev, if_neg hn]
  · rw [bridge_next, if_neg hp]

end Members

end Dll
