import Pintos.Kernel.List
import Pintos.Lib.Bytes
import Pintos.Lib.Except

/-!
# Pintos.Kernel.ListMem

The lists of `lib/kernel/list.c` whose elements are in memory, byte by byte.

A `struct list_elem` is two words, `prev` and `next`, and a `struct list` is its head and
its tail.  `links` reads the element at any address; two of these overlap when they are less
than eight bytes apart, so that a list is described together with a set of addresses that
are not (`Spaced`).  On such a set a pointer that is written changes one element only, and
the functions do what those on a heap of elements do (`ListAt.pushFront`, `ListAt.pushBack`,
`ListAt.remove`).  They write to elements of the list only.
-/

namespace Pintos

open Bytes Dll Function List Option

namespace ListMem

/-- Memory, by bytes. -/
abbrev Memory : Type := Nat → UInt8

/-! ## the functions -/

/-- A pointer that may be null. -/
def ptr (w : Nat) : Option Nat := if w = 0 then none else some w

/-- The links of the element at each address. -/
def links (m : Memory) : Heap Nat := fun e => ⟨ptr (word m e), ptr (word m (e + 4))⟩

/-- `list_init`. -/
def listInit (m : Memory) (list : Nat) : Memory :=
  let m := setWord m list 0
  let m := setWord m (list + 4) (list + 8)
  let m := setWord m (list + 8) list
  setWord m (list + 12) 0

/-- `list_begin`. -/
def listBegin (m : Memory) (list : Nat) : Nat := word m (list + 4)

/-- `list_end`. -/
def listEnd (list : Nat) : Nat := list + 8

/-- `list_empty`. -/
def listEmpty (m : Memory) (list : Nat) : Bool := listBegin m list == listEnd list

/-- `list_insert`; `none` when an `ASSERT` fails. -/
def listInsert (m : Memory) (before elem : Nat) : Option Memory :=
  if before ≠ 0 ∧ (isInterior (links m) before || isTail (links m) before) ∧ elem ≠ 0 then
    let m := setWord m elem (word m before)
    let m := setWord m (elem + 4) before
    let m := setWord m (word m before + 4) elem
    some (setWord m before elem)
  else
    none

/-- `list_push_front`. -/
def listPushFront (m : Memory) (list elem : Nat) : Option Memory :=
  listInsert m (listBegin m list) elem

/-- `list_push_back`. -/
def listPushBack (m : Memory) (list elem : Nat) : Option Memory := listInsert m (listEnd list) elem

/-- `list_remove`. -/
def listRemove (m : Memory) (elem : Nat) : Option Memory :=
  if elem ≠ 0 ∧ isInterior (links m) elem then
    let m := setWord m (word m elem + 4) (word m (elem + 4))
    some (setWord m (word m (elem + 4)) (word m elem))
  else
    none

/-- `list_pop_front`. -/
def listPopFront (m : Memory) (list : Nat) : Option (Memory × Nat) :=
  if listEmpty m list then none else (listRemove m (listBegin m list)).map fun m' => (m', listBegin m list)

/-! ## elements that do not overlap -/

/-- Addresses of elements that do not overlap. -/
structure Spaced (S : Nat → Prop) : Prop where
  apart : ∀ x y, S x → S y → x ≠ y → x + 8 ≤ y ∨ y + 8 ≤ x
  pos : ∀ x, S x → 0 < x
  lt : ∀ x, S x → x < 2 ^ 32

/-- Two heaps have the same links at the addresses of a set. -/
def Agree (S : Nat → Prop) (h g : Heap Nat) : Prop := ∀ y, S y → h y = g y

variable {S : Nat → Prop} {m m' : Memory} {g : Heap Nat} {x y p n b e list : Nat} {xs ys : List Nat}

theorem ptr_of_pos (h : 0 < p) : ptr p = some p := if_neg (ne_of_gt h)

theorem eq_of_ptr {w : Nat} (h : ptr w = some p) : w = p := by
  unfold ptr at h
  split at h
  · cases h
  · exact some.inj h

theorem links_congr (h : ∀ i, x ≤ i → i < x + 8 → m' i = m i) : links m' x = links m x := by
  have hprev : word m' x = word m x := word_congr fun i _ _ => h i (by omega) (by omega)
  have hnext : word m' (x + 4) = word m (x + 4) :=
    word_congr fun i _ _ => h i (by omega) (by omega)
  rw [links, links, hprev, hnext]

theorem Agree.setPrev (hS : Spaced S) (h : Agree S (links m) g) (hx : S x) (hp : p < 2 ^ 32) :
    Agree S (links (setWord m x p)) (setPrev g x (ptr p)) := by
  intro y hy
  by_cases hyx : y = x
  · subst hyx
    have hnext : word (setWord m y p) (y + 4) = word m (y + 4) :=
      word_setWord_of_disjoint (by omega)
    rw [Dll.setPrev, update_self, ← h y hy, links, word_setWord_self hp, hnext]
    rfl
  · have happart := hS.apart y x hy hx hyx
    rw [Dll.setPrev, update_of_ne hyx, ← h y hy]
    exact links_congr fun i _ _ => setWord_of_outside (by omega)

theorem Agree.setNext (hS : Spaced S) (h : Agree S (links m) g) (hx : S x) (hp : p < 2 ^ 32) :
    Agree S (links (setWord m (x + 4) p)) (setNext g x (ptr p)) := by
  intro y hy
  by_cases hyx : y = x
  · subst hyx
    have hprev : word (setWord m (y + 4) p) y = word m y := word_setWord_of_disjoint (by omega)
    rw [Dll.setNext, update_self, ← h y hy, links, word_setWord_self hp, hprev]
    rfl
  · have happart := hS.apart y x hy hx hyx
    rw [Dll.setNext, update_of_ne hyx, ← h y hy]
    exact links_congr fun i _ _ => setWord_of_outside (by omega)

/-! ## a list in memory -/

/-- The list at an address, with elements among those of a set. -/
structure ListAt (S : Nat → Prop) (m : Memory) (list : Nat) (xs : List Nat) : Prop where
  isList : IsList (links m) list (list + 8) xs
  nodes : ∀ y ∈ list :: xs ++ [list + 8], S y

/-- The memory has changed in the given elements only. -/
def OnlyIn (m m' : Memory) (ys : List Nat) : Prop :=
  ∀ i, (∀ y ∈ ys, i < y ∨ y + 8 ≤ i) → m' i = m i

theorem OnlyIn.refl (m : Memory) (ys : List Nat) : OnlyIn m m ys := fun _ _ => rfl

theorem OnlyIn.trans {m'' : Memory} (h : OnlyIn m m' xs) (h' : OnlyIn m' m'' ys) {zs : List Nat}
    (hxs : ∀ y ∈ xs, y ∈ zs) (hys : ∀ y ∈ ys, y ∈ zs) : OnlyIn m m'' zs := fun i hi =>
  (h' i fun y hy => hi y (hys y hy)).trans (h i fun y hy => hi y (hxs y hy))

namespace ListAt

/-- A list keeps its members when its elements are not written to. -/
theorem congr (h : ListAt S m list xs)
    (heq : ∀ y ∈ list :: xs ++ [list + 8], ∀ i, y ≤ i → i < y + 8 → m' i = m i) :
    ListAt S m' list xs :=
  ⟨h.isList.congr fun y hy => links_congr (heq y hy), h.nodes⟩

theorem listBegin_eq (h : ListAt S m list xs) :
    (xs ++ [list + 8]).head? = some (listBegin m list) := by
  obtain ⟨n, hn⟩ := h.isList.chain.exists_next
  have hptr : ptr (word m (list + 4)) = some n := hn
  rw [listBegin, eq_of_ptr hptr, ← h.isList.next_head, hn]

theorem listEmpty_iff (h : ListAt S m list xs) : listEmpty m list = true ↔ xs = [] := by
  have hbegin := h.listBegin_eq
  have hnodup := h.isList.nodup
  rw [listEmpty, beq_iff_eq, listEnd]
  cases xs with
  | nil => exact ⟨fun _ => rfl, fun _ => (some.inj hbegin).symm⟩
  | cons x xs =>
    refine ⟨fun heq => ?_, nofun⟩
    have hx : x = list + 8 := (some.inj hbegin).trans heq
    rw [hx] at hnodup
    exact absurd (mem_append_right xs (mem_singleton_self (list + 8)))
      (nodup_cons.mp (nodup_cons.mp hnodup).2).1

/-- **`list_insert`** before a member or the tail. -/
theorem insert (h : ListAt S m list (xs ++ ys)) (hS : Spaced S) (he : S e)
    (hnot : e ∉ list :: (xs ++ ys) ++ [list + 8]) (hb : (ys ++ [list + 8]).head? = some b) :
    ∃ m', listInsert m b e = some m' ∧ ListAt S m' list (xs ++ e :: ys) ∧
      OnlyIn m m' (list :: (xs ++ e :: ys) ++ [list + 8]) := by
  obtain ⟨p, hp, hpmem, hins⟩ := h.isList.insert hnot hb
  have hword : word m b = p := eq_of_ptr hp
  have hmiddle : ∀ y, y ∈ list :: xs ∨ y = e ∨ y ∈ ys ++ [list + 8] ↔
      y ∈ list :: (xs ++ e :: ys) ++ [list + 8] := by
    intro y
    have hassoc : list :: (xs ++ e :: ys) ++ [list + 8] =
        (list :: xs) ++ e :: (ys ++ [list + 8]) := by simp
    rw [hassoc]
    exact (mem_append.trans (or_congr_right mem_cons)).symm
  have hmem : ∀ y, y ∈ list :: xs ∨ y ∈ ys ++ [list + 8] →
      y ∈ list :: (xs ++ ys) ++ [list + 8] := by
    intro y hy
    rw [← cons_append, append_assoc]
    exact mem_append.mpr hy
  have hbmem : b ∈ ys ++ [list + 8] := mem_of_mem_head? hb
  have hbS : S b := h.nodes b (hmem b (.inr hbmem))
  have hpS : S p := h.nodes p (hmem p (.inl hpmem))
  have hbe : b ≠ e := fun heq => hnot (heq ▸ hmem b (.inr hbmem))
  have hlt := hS.lt
  have hpos := hS.pos
  -- the four pointers that are written
  have h₁ : Agree S (links (setWord m e p)) (setPrev (links m) e (some p)) :=
    ptr_of_pos (hpos p hpS) ▸ Agree.setPrev hS (fun _ _ => rfl) he (hlt p hpS)
  have h₂ := ptr_of_pos (hpos b hbS) ▸ h₁.setNext hS he (hlt b hbS)
  have hword₂ : word (setWord (setWord m e p) (e + 4) b) b = p := by
    have happart := hS.apart b e hbS he hbe
    rw [word_setWord_of_disjoint (by omega), word_setWord_of_disjoint (by omega), hword]
  have h₃ := ptr_of_pos (hpos e he) ▸ h₂.setNext hS hpS (hlt e he)
  have h₄ := ptr_of_pos (hpos e he) ▸ h₃.setPrev hS hbS (hlt e he)
  have hguard : b ≠ 0 ∧ (isInterior (links m) b || isTail (links m) b) = true ∧ e ≠ 0 :=
    ⟨ne_of_gt (hpos b hbS), interior_or_tail hp, ne_of_gt (hpos e he)⟩
  have heq : listInsert m b e =
      some (setWord (setWord (setWord (setWord m e p) (e + 4) b) (p + 4) e) b e) := by
    rw [listInsert, if_pos hguard, hword]
    dsimp only
    rw [hword₂]
  have hnodes : ∀ y ∈ list :: (xs ++ e :: ys) ++ [list + 8], S y := by
    intro y hy
    rcases (hmiddle y).mpr hy with hy | rfl | hy
    · exact h.nodes y (hmem y (.inl hy))
    · exact he
    · exact h.nodes y (hmem y (.inr hy))
  refine ⟨_, heq, ⟨hins.congr fun y hy => h₄ y (hnodes y hy), hnodes⟩, fun i hi => ?_⟩
  have hip := hi p ((hmiddle p).mp (.inl hpmem))
  have hie := hi e ((hmiddle e).mp (.inr (.inl rfl)))
  have hib := hi b ((hmiddle b).mp (.inr (.inr hbmem)))
  rw [setWord_of_outside (by omega), setWord_of_outside (by omega),
    setWord_of_outside (by omega), setWord_of_outside (by omega)]

/-- **`list_push_front`**. -/
theorem pushFront (h : ListAt S m list xs) (hS : Spaced S) (he : S e)
    (hnot : e ∉ list :: xs ++ [list + 8]) :
    ∃ m', listPushFront m list e = some m' ∧ ListAt S m' list (e :: xs) ∧
      OnlyIn m m' (list :: e :: xs ++ [list + 8]) := by
  have h' : ListAt S m list ([] ++ xs) := h
  exact h'.insert hS he hnot h.listBegin_eq

/-- **`list_push_back`**. -/
theorem pushBack (h : ListAt S m list xs) (hS : Spaced S) (he : S e)
    (hnot : e ∉ list :: xs ++ [list + 8]) :
    ∃ m', listPushBack m list e = some m' ∧ ListAt S m' list (xs ++ [e]) ∧
      OnlyIn m m' (list :: (xs ++ [e]) ++ [list + 8]) := by
  have h' : ListAt S m list (xs ++ []) := (append_nil xs).symm ▸ h
  exact h'.insert hS he ((append_nil xs).symm ▸ hnot) rfl

/-- **`list_remove`** of a member. -/
theorem remove (h : ListAt S m list (xs ++ e :: ys)) (hS : Spaced S) :
    ∃ m', listRemove m e = some m' ∧ ListAt S m' list (xs ++ ys) ∧
      OnlyIn m m' (list :: (xs ++ ys) ++ [list + 8]) := by
  obtain ⟨p, n, hp, hn, hpmem, hnmem, hrem⟩ := h.isList.remove
  have hprev : word m e = p := eq_of_ptr hp
  have hnext : word m (e + 4) = n := eq_of_ptr hn
  have hmem : ∀ y, y ∈ list :: xs ∨ y ∈ ys ++ [list + 8] →
      y ∈ list :: (xs ++ ys) ++ [list + 8] := by
    intro y hy
    rw [← cons_append, append_assoc]
    exact mem_append.mpr hy
  have hsub : (list :: (xs ++ ys) ++ [list + 8]).Sublist (list :: (xs ++ e :: ys) ++ [list + 8]) :=
    (((sublist_cons_self e ys).append_left xs).cons_cons list).append_right _
  have hnodes : ∀ y ∈ list :: (xs ++ ys) ++ [list + 8], S y := fun y hy =>
    h.nodes y (hsub.subset hy)
  have heS : S e := h.nodes e (by simp)
  have hpS : S p := hnodes p (hmem p (.inl hpmem))
  have hnS : S n := hnodes n (hmem n (.inr hnmem))
  have hep : e ≠ p := by
    rintro rfl
    have hmiddle : list :: (xs ++ e :: ys) ++ [list + 8] =
        (list :: xs) ++ e :: (ys ++ [list + 8]) := by simp
    have hnodup := h.isList.nodup
    rw [hmiddle] at hnodup
    exact (nodup_append.mp hnodup).2.2 e hpmem e (mem_cons_self ..) rfl
  -- the two pointers that are written
  have h₁ : Agree S (links (setWord m (p + 4) n)) (setNext (links m) p (some n)) :=
    ptr_of_pos (hS.pos n hnS) ▸ Agree.setNext hS (fun _ _ => rfl) hpS (hS.lt n hnS)
  have h₂ := ptr_of_pos (hS.pos p hpS) ▸ h₁.setPrev hS hnS (hS.lt p hpS)
  have happart := hS.apart e p heS hpS hep
  have hprev₁ : word (setWord m (p + 4) n) e = p := by
    rw [word_setWord_of_disjoint (by omega), hprev]
  have hnext₁ : word (setWord m (p + 4) n) (e + 4) = n := by
    rw [word_setWord_of_disjoint (by omega), hnext]
  have hguard : e ≠ 0 ∧ isInterior (links m) e = true := by
    refine ⟨ne_of_gt (hS.pos e heS), ?_⟩
    unfold isInterior
    rw [hp, hn]
    rfl
  have heq : listRemove m e = some (setWord (setWord m (p + 4) n) n p) := by
    rw [listRemove, if_pos hguard, hprev, hnext]
    dsimp only
    rw [hprev₁, hnext₁]
  refine ⟨_, heq, ⟨hrem.congr fun y hy => h₂ y (hnodes y hy), hnodes⟩, fun i hi => ?_⟩
  have hip := hi p (hmem p (.inl hpmem))
  have hin := hi n (hmem n (.inr hnmem))
  rw [setWord_of_outside (by omega), setWord_of_outside (by omega)]

/-- **`list_pop_front`** of a list with a member. -/
theorem popFront (h : ListAt S m list (e :: xs)) (hS : Spaced S) :
    ∃ m', listPopFront m list = some (m', e) ∧ ListAt S m' list xs ∧
      OnlyIn m m' (list :: xs ++ [list + 8]) := by
  have h' : ListAt S m list ([] ++ e :: xs) := h
  obtain ⟨m', hrem, hlist, honly⟩ := h'.remove hS
  have hempty : ¬ listEmpty m list = true := fun hem => nomatch h.listEmpty_iff.mp hem
  have hbegin : listBegin m list = e := (some.inj h.listBegin_eq).symm
  refine ⟨m', ?_, hlist, honly⟩
  rw [listPopFront, if_neg hempty, hbegin, hrem]
  rfl

theorem listInit_of_outside {i : Nat} (hi : i < list ∨ list + 16 ≤ i) : listInit m list i = m i := by
  unfold listInit
  rw [setWord_of_outside (by omega), setWord_of_outside (by omega),
    setWord_of_outside (by omega), setWord_of_outside (by omega)]

/-- **`list_init`**. -/
theorem init (hlist : S list) (htail : S (list + 8)) (hlt : list + 8 < 2 ^ 32) (hpos : 0 < list) :
    ListAt S (listInit m list) list [] := by
  have hhead : links (listInit m list) list = ⟨none, some (list + 8)⟩ := by
    have hprev : word (listInit m list) list = 0 := by
      unfold listInit
      rw [word_setWord_of_disjoint (by omega), word_setWord_of_disjoint (by omega),
        word_setWord_of_disjoint (by omega), word_setWord_self (by decide)]
    have hnext : word (listInit m list) (list + 4) = list + 8 := by
      unfold listInit
      rw [word_setWord_of_disjoint (by omega), word_setWord_of_disjoint (by omega),
        word_setWord_self hlt]
    have hptr : ptr (list + 8) = some (list + 8) := ptr_of_pos (by omega)
    rw [links, hprev, hnext, hptr]
    rfl
  have htail' : links (listInit m list) (list + 8) = ⟨some list, none⟩ := by
    have hprev : word (listInit m list) (list + 8) = list := by
      unfold listInit
      rw [word_setWord_of_disjoint (by omega), word_setWord_self (by omega)]
    have hnext : word (listInit m list) (list + 8 + 4) = 0 := by
      unfold listInit
      exact word_setWord_self (by decide)
    rw [links, hprev, hnext, ptr_of_pos hpos]
    rfl
  refine ⟨⟨?_, ?_, ⟨?_, ?_⟩, ?_⟩, ?_⟩
  · rw [hhead]
  · rw [htail']
  · rw [hhead]
  · rw [htail']
  · simp
  · intro y hy
    rcases mem_cons.mp hy with rfl | hy
    · exact hlist
    · rwa [mem_singleton.mp hy]

end ListAt

end ListMem

end Pintos
