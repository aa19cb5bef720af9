import Pintos.Kernel.List

/-!
# Pintos.Kernel.ListOps

The functions of `lib/kernel/list.c` that move or reorder elements, on a heap with any number of
lists (`Lists`).

`Lists.removeRange` and `Lists.insertRange` say what the two halves of `list_splice` do to all the
lists; `list_insert` and `list_remove` are their cases of one element, and `list_unique` and
`list_insert_ordered` are built from these.  A loop has fuel, and none is left over only when the
list does not end.
-/

namespace Pintos

open Dll Function List
open Option (some_inj isSome_iff_exists bind_eq_bind)

variable {ν ι : Type*}

/-! ## the functions -/

section

variable [DecidableEq ν]

/-- `list_splice`. -/
def listSplice (h : Heap ν) (before first last : ν) : Option (Heap ν) :=
  if isInterior h before || isTail h before then
    if first = last then
      some h
    else do
      let last ← listPrev h last
      if isInterior h first && isInterior h last then
        let h := bridge h (← (h first).prev) (← (h last).next)
        return linkRange h (← (h before).prev) before first last
      else
        none
  else
    none

/-- The loop of `list_reverse`, which swaps the links of an element and goes on to its `prev`. -/
def reverseLoop (tl : ν) : Nat → Heap ν → ν → Option (Heap ν)
  | 0, _, _ => none
  | fuel + 1, h, e =>
    if e = tl then some h
    else (h e).next.bind (reverseLoop tl fuel (update h e ⟨(h e).next, (h e).prev⟩))

/-- `list_reverse` on the list with the header elements `hd` and `tl`. -/
def listReverse (fuel : Nat) (h : Heap ν) (hd tl : ν) : Option (Heap ν) := do
  let begin ← (h hd).next
  if begin = tl then
    return h
  else
    let h ← reverseLoop tl fuel h begin
    let h := setPrev (setNext h hd (h tl).prev) tl (h hd).next
    let front ← (h hd).next
    let back ← (h tl).prev
    return setNext (setPrev h front (h back).next) back (h front).prev

/-- `list_push_back` of a duplicate, if there is a list for them; `duplicates` is its tail. -/
def pushDuplicate (h : Heap ν) (duplicates : Option ν) (next : ν) : Option (Heap ν) :=
  match duplicates with
  | none => some h
  | some tail => listPushBack h tail next

/-- The loop of `list_unique`. -/
def uniqueLoop (less : ν → ν → Bool) (tl : ν) (duplicates : Option ν) :
    Nat → Heap ν → ν → Option (Heap ν)
  | 0, _, _ => none
  | fuel + 1, h, elem => do
    let next ← listNext h elem
    if next = tl then
      return h
    else if !less elem next && !less next elem then
      let (h, _) ← listRemove h next
      let h ← pushDuplicate h duplicates next
      uniqueLoop less tl duplicates fuel h elem
    else
      uniqueLoop less tl duplicates fuel h next

/-- `list_unique`. -/
def listUnique (fuel : Nat) (h : Heap ν) (hd tl : ν) (duplicates : Option ν)
    (less : ν → ν → Bool) : Option (Heap ν) := do
  let begin ← (h hd).next
  if begin = tl then return h else uniqueLoop less tl duplicates fuel h begin

/-- The loop of `list_insert_ordered`: the place of `elem`. -/
def orderedPlace (less : ν → ν → Bool) (h : Heap ν) (tl elem : ν) : Nat → ν → Option ν
  | 0, _ => none
  | fuel + 1, e =>
    if e = tl then some e
    else if less elem e then some e
    else (listNext h e).bind (orderedPlace less h tl elem fuel)

/-- `list_insert_ordered`. -/
def listInsertOrdered (fuel : Nat) (h : Heap ν) (hd tl elem : ν) (less : ν → ν → Bool) :
    Option (Heap ν) := do
  let e ← orderedPlace less h tl elem fuel (← (h hd).next)
  listInsert h e elem

end

/-- What `list_unique` takes out behind `x`: the elements equal to the last one that is kept. -/
def repeated (less : ν → ν → Bool) : ν → List ν → List ν
  | _, [] => []
  | x, y :: ys =>
    if !less x y && !less y x then y :: repeated less x ys else repeated less y ys

/-- What `list_unique` takes out of a list, in order. -/
def duplicatesOf (less : ν → ν → Bool) : List ν → List ν
  | [] => []
  | x :: xs => repeated less x xs

/-! ## a collection of lists -/

/-- The lists with the header elements `hd i` and `tl i`, which share no node. -/
structure Lists (h : Heap ν) (hd tl : ι → ν) (xs : ι → List ν) : Prop where
  isList : ∀ i, IsList h (hd i) (tl i) (xs i)
  disjoint : ∀ i j, i ≠ j → ∀ y ∈ hd i :: xs i ++ [tl i], y ∉ hd j :: xs j ++ [tl j]

/-- The node is in none of the lists. -/
def Loose (hd tl : ι → ν) (xs : ι → List ν) (y : ν) : Prop := ∀ i, y ∉ hd i :: xs i ++ [tl i]

variable {h h' : Heap ν} {hd tl : ι → ν} {xs : ι → List ν} {i j : ι} {as bs cs ds ys zs : List ν}
  {b e f l p n : ν} {less : ν → ν → Bool} {fuel : Nat}

theorem exists_head (zs : List ν) (t : ν) : ∃ n, (zs ++ [t]).head? = some n :=
  isSome_iff_exists.mp (isSome_head?.mpr (concat_ne_nil t zs))

/-- The links of the header elements to the first and the last element. -/
theorem adj_ends {hd tl : ν} (hl : IsList h hd tl zs) (hf : zs.head? = some f)
    (hlast : zs.getLast? = some l) : Adj h hd f ∧ Adj h l tl := by
  have hc := chain_iff.mp hl.chain
  rw [cons_append, isChain_cons] at hc
  exact ⟨hc.1 f (by rw [head?_append, hf]; rfl), (isChain_append.mp hc.2).2.2 l hlast tl rfl⟩

variable [DecidableEq ν]

/-! ## ordered insertion -/

theorem orderedPlace_eq {hd tl : ν} (hl : IsList h hd tl (as ++ zs))
    (he : (zs ++ [tl]).head? = some e) (hfuel : zs.length < fuel) :
    orderedPlace less h tl f fuel e = (zs.dropWhile (!less f ·) ++ [tl]).head? := by
  induction zs generalizing as e fuel with
  | nil =>
    obtain ⟨fuel, rfl⟩ := Nat.exists_eq_add_of_lt hfuel
    rw [orderedPlace, if_pos (some_inj.mp he).symm]
    exact he.symm
  | cons z zs ih =>
    obtain ⟨fuel, rfl⟩ := Nat.exists_eq_add_of_lt hfuel
    obtain rfl : z = e := some_inj.mp he
    have hne : z ≠ tl := by
      have := hl.nodup
      grind
    rw [orderedPlace, if_neg hne]
    cases hless : less f z with
    | true => simp [hless]
    | false =>
      obtain ⟨n, hn⟩ := exists_head zs tl
      have hl' : IsList h hd tl ((as ++ [z]) ++ zs) := by rwa [append_assoc]
      rw [listNext_eq hl, hn, Option.bind_some, ih hl' hn (Nat.lt_of_succ_lt_succ hfuel)]
      simp [hless]

/-! ## reversal -/

/-- The heap with the links of some elements swapped. -/
def turned (h : Heap ν) (zs : List ν) : Heap ν := fun y =>
  if y ∈ zs then ⟨(h y).next, (h y).prev⟩ else h y

theorem reverseLoop_eq {t : ν} (hc : (zs ++ [t]).IsChain fun x y => (h x).next = some y)
    (hnd : (zs ++ [t]).Nodup) (he : (zs ++ [t]).head? = some e) (hfuel : zs.length < fuel) :
    reverseLoop t fuel h e = some (turned h zs) := by
  induction zs generalizing h e fuel with
  | nil =>
    obtain ⟨fuel, rfl⟩ := Nat.exists_eq_add_of_lt hfuel
    rw [reverseLoop, if_pos (some_inj.mp he).symm]
    exact congrArg some (funext fun y => (if_neg not_mem_nil).symm)
  | cons z zs ih =>
    obtain ⟨fuel, rfl⟩ := Nat.exists_eq_add_of_lt hfuel
    obtain rfl : z = e := some_inj.mp he
    rw [cons_append, isChain_cons] at hc
    rw [cons_append, nodup_cons] at hnd
    obtain ⟨hz, hnd⟩ := hnd
    obtain ⟨n, hn⟩ := exists_head zs t
    have hzt : z ≠ t := fun heq => hz (heq ▸ mem_concat_self)
    have hc' : (zs ++ [t]).IsChain fun x y =>
        (update h z ⟨(h z).next, (h z).prev⟩ x).next = some y := by
      refine hc.2.imp_of_mem_imp fun x y hx _ hxy => ?_
      have hxz : x ≠ z := fun heq => hz (heq ▸ hx)
      rwa [update_of_ne hxz]
    rw [reverseLoop, if_neg hzt]
    refine (congrArg (Option.bind · _) (hc.1 n hn)).trans ?_
    rw [Option.bind_some, ih hc' hnd hn (Nat.lt_of_succ_lt_succ hfuel)]
    refine congrArg some (funext fun y => ?_)
    simp only [turned, update_apply]
    grind

theorem turned_bridge (hp : p ∉ zs) (hn : n ∉ zs) :
    turned (bridge h p n) zs = bridge (turned h zs) p n := by
  funext y
  ext1 <;> simp only [turned, bridge_prev, bridge_next] <;> grind [bridge_prev, bridge_next]

theorem linkRange_bridge : linkRange (bridge h p b) p b f l = linkRange h p b f l := by
  funext y
  ext1
  · rw [linkRange_prev, linkRange_prev, bridge_prev]
    grind
  · rw [linkRange_next, linkRange_next, bridge_next]
    grind

/-- `list_reverse` turns the elements and puts them back between the header elements. -/
theorem listReverse_eq {hd tl : ν} (hl : IsList h hd tl zs) (hf : zs.head? = some f)
    (hlast : zs.getLast? = some l) (hfuel : zs.length < fuel) :
    listReverse fuel h hd tl = some (linkRange (bridge (turned h zs) hd tl) hd tl l f) := by
  have hfirst : (zs ++ [tl]).head? = some f := by rw [head?_append, hf]; rfl
  obtain ⟨hadj, hadj'⟩ := adj_ends hl hf hlast
  have hloop := reverseLoop_eq ((isChain_cons.mp (chain_iff.mp hl.chain)).2.imp fun x y hxy => hxy.1)
    (nodup_cons.mp hl.nodup).2 hfirst hfuel
  have hne : hd ∉ zs ∧ tl ∉ zs ∧ f ∈ zs ∧ l ∈ zs ∧ f ≠ tl ∧ f ≠ hd ∧ l ≠ tl := by
    have := hl.nodup
    have := mem_of_mem_head? hf
    have := mem_of_mem_getLast? hlast
    grind
  obtain ⟨hhd, htl, hfm, hlm, hftl, hfhd, hltl⟩ := hne
  have hrun : listReverse fuel h hd tl = some (setNext (setPrev (setPrev
      (setNext (turned h zs) hd (some l)) tl (some f)) l (some hd)) f (some tl)) := by
    rw [listReverse, hl.next_head, hfirst]
    simp [hloop, hftl, turned, htl, hhd, hfm, hlm, hadj.1, hadj'.2, setNext_next, setPrev_prev, hfhd,
      hltl, hadj.2, hadj'.1]
  rw [hrun, linkRange_bridge]
  refine congrArg some (funext fun y => ?_)
  ext1
  · rw [linkRange_prev]
    simp only [setNext_prev, setPrev_prev]
    grind
  · rw [linkRange_next]
    simp only [setPrev_next, setNext_next]
    grind

/-! ## all the lists -/

namespace Lists

omit [DecidableEq ν] in
theorem get (H : Lists h hd tl xs) (hi : xs i = ys) : IsList h (hd i) (tl i) ys := hi ▸ H.isList i

section

variable [DecidableEq ι]

section

variable (H : Lists h hd tl xs) {dup : Option ι}
include H

omit [DecidableEq ν] in
/-- One list is changed, by nodes of its own and loose ones. -/
theorem set (hl : IsList h' (hd i) (tl i) ys) (hys : ∀ y ∈ ys, y ∈ xs i ∨ Loose hd tl xs y)
    (hsame : ∀ j, j ≠ i → ∀ y ∈ hd j :: xs j ++ [tl j], h' y = h y) :
    Lists h' hd tl (update xs i ys) := by
  have hnew : ∀ j, j ≠ i → ∀ y ∈ hd i :: ys ++ [tl i], y ∉ hd j :: xs j ++ [tl j] := by
    intro j hj y hy hmem
    have hdisj := H.disjoint j i hj y hmem
    have hloose := hys y
    unfold Loose at hloose
    grind
  refine ⟨(forall_update_iff xs fun j l => IsList h' (hd j) (tl j) l).mpr
    ⟨hl, fun j hj => (H.isList j).congr (hsame j hj)⟩, fun j k hjk y hj hk => ?_⟩
  rcases eq_or_ne j i with rfl | hji
  · rw [update_self] at hj
    rw [update_of_ne hjk.symm] at hk
    exact hnew k hjk.symm y hj hk
  · rw [update_of_ne hji] at hj
    rcases eq_or_ne k i with rfl | hki
    · rw [update_self] at hk
      exact hnew j hji y hk hj
    · rw [update_of_ne hki] at hk
      exact H.disjoint j k hjk y hj hk

/-- **A loose range is put into a list.** -/
theorem insertRange (hi : xs i = as ++ bs) (hzs : zs.IsChain (Adj h))
    (hnd : zs.Nodup) (hloose : ∀ z ∈ zs, Loose hd tl xs z) (hb : (bs ++ [tl i]).head? = some b)
    (hf : zs.head? = some f) (hlast : zs.getLast? = some l) :
    ∃ p, (h b).prev = some p ∧
      Lists (linkRange h p b f l) hd tl (update xs i (as ++ (zs ++ bs))) := by
  have hlist := H.get hi
  have hdisj := H.disjoint i
  rw [hi] at hdisj
  obtain ⟨p, hp, hpmem, hins⟩ :=
    hlist.insertRange hzs hnd (fun z hz => hi ▸ hloose z hz i) hb hf hlast
  have hbmem : b ∈ bs ++ [tl i] := mem_of_mem_head? hb
  refine ⟨p, hp, H.set hins (fun y hy => ?_) fun j hj y hy => ?_⟩
  · grind
  · have hne : ∀ z ∈ hd i :: (as ++ bs) ++ [tl i], y ≠ z := fun z hz heq =>
      hdisj j (Ne.symm hj) z hz (heq ▸ hy)
    have hnez : ∀ z ∈ zs, y ≠ z := fun z hz heq => hloose z hz j (heq ▸ hy)
    exact linkRange_of_ne (hne p (by grind)) (hne b (by grind)) (hnez f (mem_of_mem_head? hf))
      (hnez l (mem_of_mem_getLast? hlast))

/-- **A range is taken out of a list**, and is loose then. -/
theorem removeRange (hi : xs i = as ++ (zs ++ bs)) (hf : zs.head? = some f)
    (hlast : zs.getLast? = some l) :
    ∃ p n, (h f).prev = some p ∧ (h l).next = some n ∧
      Lists (bridge h p n) hd tl (update xs i (as ++ bs)) ∧ zs.IsChain (Adj (bridge h p n)) ∧
      zs.Nodup ∧ ∀ z ∈ zs, Loose hd tl (update xs i (as ++ bs)) z := by
  have hlist := H.get hi
  have hdisj := H.disjoint i
  rw [hi] at hdisj
  obtain ⟨p, n, hp, hn, hpmem, hnmem, hrem, hchain⟩ := hlist.removeRange hf hlast
  have hnodup := hlist.nodup
  refine ⟨p, n, hp, hn, H.set hrem (fun y hy => ?_) fun j hj y hy => ?_, hchain, ?_,
    fun z hz k hk => ?_⟩
  · grind
  · have hne : ∀ z ∈ hd i :: (as ++ (zs ++ bs)) ++ [tl i], y ≠ z := fun z hz heq =>
      hdisj j (Ne.symm hj) z hz (heq ▸ hy)
    exact bridge_of_ne (hne p (by grind)) (hne n (by grind))
  · exact hnodup.sublist (IsInfix.sublist ⟨hd i :: as, bs ++ [tl i], by simp⟩)
  · by_cases hki : k = i
    · subst hki
      rw [update_self] at hk
      grind
    · rw [update_of_ne hki] at hk
      exact hdisj k (Ne.symm hki) z (by simp [hz]) hk

/-- **`list_insert`** of a loose element. -/
theorem insert (hi : xs i = as ++ bs) (he : Loose hd tl xs e) (hb : (bs ++ [tl i]).head? = some b) :
    ∃ h', listInsert h b e = some h' ∧ Lists h' hd tl (update xs i (as ++ e :: bs)) := by
  obtain ⟨p, hp, hins⟩ := H.insertRange hi (.singleton e) (nodup_singleton e)
    (forall_mem_singleton.mpr he) hb rfl rfl
  exact ⟨_, listPushBack_of_prev hp e, hins⟩

/-- **`list_remove`**. -/
theorem remove (hi : xs i = as ++ e :: bs) :
    ∃ h' n, listRemove h e = some (h', n) ∧ (bs ++ [tl i]).head? = some n ∧
      Lists h' hd tl (update xs i (as ++ bs)) ∧ Loose hd tl (update xs i (as ++ bs)) e := by
  have hi' : xs i = as ++ ([e] ++ bs) := hi
  obtain ⟨p, n, hp, hn, hrem, -, -, hloose⟩ := H.removeRange hi' rfl rfl
  have hlist := H.get hi
  refine ⟨_, n, listRemove_of_links hp hn, ?_, hrem, hloose e (mem_singleton_self e)⟩
  rw [← listNext_eq hlist, listNext, isInterior_of_mem hlist (by simp), Bool.or_true, if_pos rfl]
  exact hn

/-- **`list_splice`** of a range that its target is not in. -/
theorem splice (hi : xs i = as ++ (zs ++ bs))
    (hj : update xs i (as ++ bs) j = cs ++ ds) (hb : (ds ++ [tl j]).head? = some b)
    (hf : (zs ++ (bs ++ [tl i])).head? = some f) (hlast : (bs ++ [tl i]).head? = some l) :
    ∃ h', listSplice h b f l = some h' ∧
      Lists h' hd tl (update (update xs i (as ++ bs)) j (cs ++ (zs ++ ds))) := by
  have hsub : ∀ y ∈ update xs i (as ++ bs) j, y ∈ xs j := by
    by_cases hji : j = i
    · subst hji
      rw [update_self, hi]
      grind
    · rw [update_of_ne hji]
      exact fun y hy => hy
  rw [hj] at hsub
  have hbmem : b ∈ xs j ++ [tl j] := by
    have := mem_of_mem_head? hb
    grind
  obtain ⟨q, hq⟩ := (H.isList j).exists_prev hbmem
  unfold listSplice
  rw [if_pos (interior_or_tail hq)]
  by_cases hzs : zs = []
  · subst hzs
    have hself : update xs i (as ++ bs) = xs := hi ▸ update_eq_self ..
    rw [hself] at hj ⊢
    refine ⟨h, if_pos (some_inj.mp (hf.symm.trans hlast)), ?_⟩
    have heq : cs ++ ([] ++ ds) = xs j := hj.symm
    rwa [heq, update_eq_self]
  · rw [head?_append_of_ne_nil _ hzs] at hf
    obtain ⟨k, hk⟩ := isSome_iff_exists.mp (getLast?_isSome.mpr hzs)
    obtain ⟨p, n, hp, hn, hrem, hchain, hnd, hloose⟩ := H.removeRange hi hf hk
    obtain ⟨q, hq, hins⟩ := hrem.insertRange hj hchain hnd hloose hb hf hk
    have hlist := H.isList i
    have hmem : ∀ z ∈ zs, z ∈ xs i := fun z hz => by simp [hi, hz]
    have hfirst := isInterior_of_mem hlist (hmem f (mem_of_mem_head? hf))
    have hback := isInterior_of_mem hlist (hmem k (mem_of_mem_getLast? hk))
    have hnodes : hd i :: xs i ++ [tl i] = (hd i :: as) ++ (zs ++ (bs ++ [tl i])) := by simp [hi]
    have hadj : Adj h k l := by
      have hc := chain_iff.mp hlist.chain
      rw [hnodes] at hc
      exact (isChain_append.mp hc.right_of_append).2.2 k hk l hlast
    have hne : f ≠ l := by
      have hnodup := hlist.nodup
      rw [hnodes] at hnodup
      exact disjoint_iff_ne.mp (disjoint_of_nodup_append hnodup.of_append_right) f
        (mem_of_mem_head? hf) l (mem_of_mem_head? hlast)
    refine ⟨_, ?_, hins⟩
    rw [if_neg hne, listPrev, if_pos (interior_or_tail hadj.2), hadj.2]
    simp [hfirst, hback, hp, hn, hq]

omit [DecidableEq ν] [DecidableEq ι] in
/-- Nodes of no list change. -/
theorem congr (heq : ∀ i, ∀ y ∈ hd i :: xs i ++ [tl i], h' y = h y) : Lists h' hd tl xs :=
  ⟨fun i => (H.isList i).congr (heq i), H.disjoint⟩

/-- **`list_reverse`**. -/
theorem reverse (hfuel : (xs i).length < fuel) :
    ∃ h', listReverse fuel h (hd i) (tl i) = some h' ∧
      Lists h' hd tl (update xs i (xs i).reverse) := by
  have hlist := H.isList i
  by_cases hzs : xs i = []
  · have hnil : (xs i).reverse = xs i := by rw [hzs]; rfl
    refine ⟨h, ?_, ?_⟩
    · rw [listReverse, hlist.next_head, hzs]
      simp
    · rwa [hnil, update_eq_self]
  obtain ⟨f, hf⟩ := isSome_iff_exists.mp (isSome_head?.mpr hzs)
  obtain ⟨l, hl⟩ := isSome_iff_exists.mp (getLast?_isSome.mpr hzs)
  have hi : xs i = [] ++ (xs i ++ []) := (append_nil _).symm
  have hnodes : hd i ∉ xs i ∧ tl i ∉ xs i := by
    have := hlist.nodup
    grind
  obtain ⟨p, n, hp, hn, H₁, hchain, hnd, hloose⟩ := H.removeRange hi hf hl
  obtain ⟨hadj, hadj'⟩ := adj_ends hlist hf hl
  obtain rfl : p = hd i := some_inj.mp (hp.symm.trans hadj.2)
  obtain rfl : n = tl i := some_inj.mp (hn.symm.trans hadj'.1)
  -- the elements are turned while they are in no list
  have H₂ : Lists (turned (bridge h (hd i) (tl i)) (xs i)) hd tl (update xs i []) :=
    H₁.congr fun j y hy => if_neg fun hmem => hloose y hmem j hy
  have hturned : (xs i).reverse.IsChain (Adj (turned (bridge h (hd i) (tl i)) (xs i))) := by
    refine isChain_reverse.mpr (hchain.imp_of_mem_imp fun x y hx hy hxy => ?_)
    unfold Adj turned
    rw [if_pos hx, if_pos hy]
    exact hxy.symm
  have hempty : update xs i [] i = [] ++ [] := update_self ..
  obtain ⟨p, hp, H₃⟩ := H₂.insertRange hempty hturned
    (nodup_reverse.mpr hnd) (fun z hz => hloose z (mem_reverse.mp hz)) rfl
    (head?_reverse.trans hl) (getLast?_reverse.trans hf)
  obtain rfl : p = hd i := by
    rw [turned, if_neg hnodes.2, bridge_prev, if_pos rfl] at hp
    exact (some_inj.mp hp).symm
  refine ⟨_, listReverse_eq hlist hf hl hfuel, ?_⟩
  rw [update_idem, nil_append, append_nil, turned_bridge hnodes.1 hnodes.2] at H₃
  exact H₃

/-- **`list_insert_ordered`**: before the first greater element. -/
theorem insertOrdered (he : Loose hd tl xs e) (hfuel : (xs i).length < fuel) :
    ∃ h', listInsertOrdered fuel h (hd i) (tl i) e less = some h' ∧ Lists h' hd tl
      (update xs i ((xs i).takeWhile (!less e ·) ++ e :: (xs i).dropWhile (!less e ·))) := by
  obtain ⟨n, hn⟩ := exists_head (xs i) (tl i)
  obtain ⟨b, hb⟩ := exists_head ((xs i).dropWhile (!less e ·)) (tl i)
  obtain ⟨h', hins, hlists⟩ := H.insert takeWhile_append_dropWhile.symm he hb
  have hl : IsList h (hd i) (tl i) ([] ++ xs i) := H.isList i
  refine ⟨h', ?_, hlists⟩
  unfold listInsertOrdered
  rw [hl.next_head, nil_append, hn, bind_eq_bind, Option.bind_some,
    orderedPlace_eq hl hn hfuel, hb, Option.bind_some, hins]

/-! ## adjacent duplicates -/

/-- The lists after list `i` has been left with `kept` and `removed` has been appended to the list of
duplicates, if there is one. -/
def afterUnique (xs : ι → List ν) (i : ι) (dup : Option ι) (kept removed : List ν) : ι → List ν :=
  match dup with
  | none => update xs i kept
  | some j => update (update xs i kept) j (xs j ++ removed)

/-- A duplicate is moved to its list. -/
theorem moveDuplicate (hi : xs i = as ++ b :: bs) (hdup : dup ≠ some i) :
    ∃ h₁ n h₂, listRemove h b = some (h₁, n) ∧ pushDuplicate h₁ (dup.map tl) b = some h₂ ∧
      Lists h₂ hd tl (afterUnique xs i dup (as ++ bs) [b]) := by
  obtain ⟨h₁, n, hrem, -, H₁, hloose⟩ := H.remove hi
  cases dup with
  | none => exact ⟨h₁, n, h₁, hrem, rfl, H₁⟩
  | some j =>
    have hji : j ≠ i := fun heq => hdup (heq ▸ rfl)
    have hj : update xs i (as ++ bs) j = xs j ++ [] := by rw [update_of_ne hji, append_nil]
    obtain ⟨h₂, hpush, H₂⟩ := H₁.insert hj hloose rfl
    exact ⟨h₁, n, h₂, hrem, hpush, H₂⟩

omit H [DecidableEq ν] in
theorem afterUnique_self (hdup : dup ≠ some i) :
    afterUnique xs i dup as ys i = as := by
  cases dup with
  | none => exact update_self ..
  | some j =>
    have hij : i ≠ j := fun heq => hdup (heq ▸ rfl)
    exact (update_of_ne hij ..).trans (update_self ..)

omit H [DecidableEq ν] in
theorem afterUnique_afterUnique (hdup : dup ≠ some i) :
    afterUnique (afterUnique xs i dup as ys) i dup bs zs = afterUnique xs i dup bs (ys ++ zs) := by
  cases dup with
  | none => exact update_idem ..
  | some j =>
    have hji : j ≠ i := fun heq => hdup (heq ▸ rfl)
    funext k
    simp only [afterUnique, update_apply]
    grind

omit H [DecidableEq ν] in
theorem afterUnique_nil : afterUnique xs i dup (xs i) [] = xs := by
  cases dup with
  | none => exact update_eq_self ..
  | some j => simp [afterUnique]

theorem uniqueLoop_spec (hi : xs i = as ++ e :: bs)
    (hdup : dup ≠ some i) (hfuel : bs.length < fuel) :
    ∃ h', uniqueLoop less (tl i) (dup.map tl) fuel h e = some h' ∧ Lists h' hd tl
      (afterUnique xs i dup (as ++ bs.destutter' (fun x y => (!less x y && !less y x) = false) e)
        (repeated less e bs)) := by
  induction bs generalizing h xs as e fuel with
  | nil =>
    obtain ⟨fuel, rfl⟩ := Nat.exists_eq_add_of_lt hfuel
    refine ⟨h, ?_, ?_⟩
    · rw [uniqueLoop, listNext_eq (H.get hi)]
      simp
    · rw [destutter'_nil, repeated, ← hi, afterUnique_nil]
      exact H
  | cons b bs ih =>
    obtain ⟨fuel, rfl⟩ := Nat.exists_eq_add_of_lt hfuel
    have hfuel' : bs.length < (b :: bs).length + fuel := Nat.lt_of_succ_lt_succ hfuel
    have hne : b ≠ tl i := by
      have := (H.get hi).nodup
      grind
    have hi' : xs i = (as ++ [e]) ++ b :: bs := by rw [hi, append_assoc]; rfl
    rw [uniqueLoop, listNext_eq (H.get hi), cons_append, head?_cons, bind_eq_bind,
      Option.bind_some, if_neg hne, repeated, destutter']
    cases hsame : !less e b && !less b e with
    | false =>
      obtain ⟨h', hrun, H'⟩ := ih H hi' hfuel'
      refine ⟨h', hrun, ?_⟩
      rwa [append_assoc] at H'
    | true =>
      obtain ⟨h₁, n, h₂, hrem, hpush, H₂⟩ := H.moveDuplicate hi' hdup
      have hi₂ : afterUnique xs i dup (as ++ [e] ++ bs) [b] i = as ++ e :: bs := by
        rw [afterUnique_self hdup, append_assoc]
        rfl
      obtain ⟨h', hrun, H'⟩ := ih H₂ hi₂ hfuel'
      refine ⟨h', ?_, ?_⟩
      · rw [if_pos rfl, hrem, bind_eq_bind, Option.bind_some]
        dsimp only
        rw [hpush, bind_eq_bind, Option.bind_some, hrun]
      · rwa [afterUnique_afterUnique hdup] at H'

/-- **`list_unique`**. -/
theorem unique (hdup : dup ≠ some i) (hfuel : (xs i).length ≤ fuel) :
    ∃ h', listUnique fuel h (hd i) (tl i) (dup.map tl) less = some h' ∧ Lists h' hd tl
      (afterUnique xs i dup ((xs i).destutter fun x y => (!less x y && !less y x) = false)
        (duplicatesOf less (xs i))) := by
  unfold listUnique
  rw [(H.isList i).next_head]
  cases hi : xs i with
  | nil =>
    have hself : afterUnique xs i dup (xs i) [] = xs := afterUnique_nil
    rw [hi] at hself
    refine ⟨h, by simp, ?_⟩
    rw [destutter_nil, duplicatesOf, hself]
    exact H
  | cons e bs =>
    have hne : e ≠ tl i := by
      have := (H.get hi).nodup
      grind
    rw [hi] at hfuel
    have hsplit : xs i = [] ++ e :: bs := hi
    obtain ⟨h', hrun, H'⟩ := H.uniqueLoop_spec hsplit hdup (Nat.lt_of_succ_le hfuel)
    refine ⟨h', ?_, H'⟩
    rw [cons_append, head?_cons, bind_eq_bind, Option.bind_some, if_neg hne, hrun]

end

end

end Lists

/-- **The primitives keep every collection of lists.**  Each gives one list its new elements, with
`prev` and `next` the inverse of each other in all lists, and leaves the other lists as they were;
`list_unique` appends what it takes out to the list of duplicates, if there is one. -/
theorem lists_primitives [DecidableEq ι] (H : Lists h hd tl xs) (less : ν → ν → Bool) :
    (∀ i as bs b e, xs i = as ++ bs → (bs ++ [tl i]).head? = some b → Loose hd tl xs e →
      ∃ h', listInsert h b e = some h' ∧ Lists h' hd tl (update xs i (as ++ e :: bs))) ∧
    (∀ i as bs e, xs i = as ++ e :: bs → ∃ h' n, listRemove h e = some (h', n) ∧
      (bs ++ [tl i]).head? = some n ∧ Lists h' hd tl (update xs i (as ++ bs)) ∧
      Loose hd tl (update xs i (as ++ bs)) e) ∧
    (∀ i j as zs bs cs ds b f l, xs i = as ++ (zs ++ bs) → update xs i (as ++ bs) j = cs ++ ds →
      (ds ++ [tl j]).head? = some b → (zs ++ (bs ++ [tl i])).head? = some f →
      (bs ++ [tl i]).head? = some l → ∃ h', listSplice h b f l = some h' ∧
        Lists h' hd tl (update (update xs i (as ++ bs)) j (cs ++ (zs ++ ds)))) ∧
    (∀ i fuel, (xs i).length < fuel → ∃ h', listReverse fuel h (hd i) (tl i) = some h' ∧
      Lists h' hd tl (update xs i (xs i).reverse)) ∧
    (∀ i dup fuel, dup ≠ some i → (xs i).length ≤ fuel →
      ∃ h', listUnique fuel h (hd i) (tl i) (dup.map tl) less = some h' ∧ Lists h' hd tl
        (Lists.afterUnique xs i dup
          ((xs i).destutter fun x y => (!less x y && !less y x) = false)
          (duplicatesOf less (xs i)))) ∧
    ∀ i e fuel, Loose hd tl xs e → (xs i).length < fuel →
      ∃ h', listInsertOrdered fuel h (hd i) (tl i) e less = some h' ∧ Lists h' hd tl
        (update xs i ((xs i).takeWhile (!less e ·) ++ e :: (xs i).dropWhile (!less e ·))) :=
  ⟨fun _ _ _ _ _ hi hb he => H.insert hi he hb, fun _ _ _ _ hi => H.remove hi,
    fun _ _ _ _ _ _ _ _ _ _ hi hj hb hf hl => H.splice hi hj hb hf hl,
    fun _ _ hfuel => H.reverse hfuel, fun _ _ _ hdup hfuel => H.unique hdup hfuel,
    fun _ _ _ he hfuel => H.insertOrdered he hfuel⟩

/-- Two lists, of the elements 1 and 2 and of none. -/
def twoLists : Heap Nat
  | 0 => ⟨none, some 1⟩
  | 1 => ⟨some 0, some 2⟩
  | 2 => ⟨some 1, some 3⟩
  | 3 => ⟨some 2, none⟩
  | 4 => ⟨none, some 5⟩
  | _ => ⟨some 4, none⟩

/-- The second of two equal elements is moved to the other list. -/
theorem lists_primitives_unique :
    Lists twoLists (cond · 0 4) (cond · 3 5) (cond · [1, 2] []) ∧
    ∃ h', listUnique 2 twoLists 0 3 (some 5) (fun _ _ => false) = some h' ∧
      Lists h' (cond · 0 4) (cond · 3 5)
        (Lists.afterUnique (cond · [1, 2] []) true (some false) [1] [2]) := by
  have hlists : Lists twoLists (cond · 0 4) (cond · 3 5) (cond · [1, 2] []) := by
    refine ⟨fun i => ?_, by decide⟩
    cases i with
    | false => exact ⟨rfl, rfl, ⟨rfl, rfl⟩, by decide⟩
    | true => exact ⟨rfl, rfl, ⟨rfl, rfl, rfl, rfl, rfl, rfl⟩, by decide⟩
  exact ⟨hlists, (lists_primitives hlists fun _ _ => false).2.2.2.2.1 true (some false) 2 nofun
    (Nat.le_refl 2)⟩

end Pintos

