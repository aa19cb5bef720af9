import Pintos.Kernel.Hash
import Pintos.Lib.Simulation

/-!
# Pintos.Kernel.HashSet

A hash table is a set with one element of each class of equivalent elements.

`ClassSet.Step` says what the operations do to such a set and what they return, over any
type and relation.  `hash_refines_set` is the refinement: every run of the table, with any
outcome of the allocations in `rehash`, is a run of the set, and the table has exactly the
elements of the set in its buckets.
-/

namespace Pintos

/-! ## the operations -/

/-- An operation on a set of elements. -/
inductive SetOp (α : Type)
  | insert (new : α)
  | replace (new : α)
  | find (e : α)
  | delete (e : α)
  | clear (destructor : Bool)

/-- What it returns: an element, or those that the destructor was called for. -/
inductive SetResult (α : Type)
  | elem (e : Option α)
  | destroyed (es : List α)
deriving DecidableEq

/-! ## sets of representatives -/

namespace ClassSet

variable {α : Type} (r : α → α → Prop)

/-- The operations on a set in which `r`-equivalent elements are equal. -/
inductive Step : Set α → SetOp α × SetResult α → Set α → Prop
  | insertNew {S : Set α} {new : α} : (∀ a ∈ S, ¬ r a new) →
      Step S (.insert new, .elem none) (insert new S)
  | insertOld {S : Set α} {new old : α} : old ∈ S → r old new →
      Step S (.insert new, .elem (some old)) S
  | replaceNew {S : Set α} {new : α} : (∀ a ∈ S, ¬ r a new) →
      Step S (.replace new, .elem none) (insert new S)
  | replaceOld {S : Set α} {new old : α} : old ∈ S → r old new →
      Step S (.replace new, .elem (some old)) (insert new (S \ {old}))
  | findNone {S : Set α} {e : α} : (∀ a ∈ S, ¬ r a e) → Step S (.find e, .elem none) S
  | findSome {S : Set α} {e found : α} : found ∈ S → r found e →
      Step S (.find e, .elem (some found)) S
  | deleteNone {S : Set α} {e : α} : (∀ a ∈ S, ¬ r a e) → Step S (.delete e, .elem none) S
  | deleteSome {S : Set α} {e found : α} : found ∈ S → r found e →
      Step S (.delete e, .elem (some found)) (S \ {found})
  | clear {S : Set α} : Step S (.clear false, .destroyed []) ∅
  | destroy {S : Set α} {es : List α} : es.Nodup → (∀ a, a ∈ es ↔ a ∈ S) →
      Step S (.clear true, .destroyed es) ∅

/-- The sets, from the empty one on. -/
def lts : Lts (Set α) (SetOp α × SetResult α) where
  init := fun S => S = ∅
  step := Step r

/-- One element of each class. -/
def OnePerClass (S : Set α) : Prop := ∀ a ∈ S, ∀ b ∈ S, r a b → a = b

end ClassSet

/-! ## the table -/

/-- One operation on a table; `memory` when there is memory for new buckets. -/
def Table.exec (f : HashFuncs) (memory : Bool) (t : Table) :
    SetOp HashElem → Table × SetResult HashElem
  | .insert new =>
    let (t, old) := hashInsert f t new memory
    (t, .elem old)
  | .replace new =>
    let (t, old) := hashReplace f t new memory
    (t, .elem old)
  | .find e => (t, .elem (hashFind f t e))
  | .delete e =>
    let (t, found) := hashDelete f t e memory
    (t, .elem found)
  | .clear destructor =>
    let (t, destroyed) := hashClear t destructor
    (t, .destroyed destroyed)

/-- The table after `hash_init`, with any outcome of each allocation. -/
def hashLts (f : HashFuncs) : Lts Table (SetOp HashElem × SetResult HashElem) where
  init := fun t => ∃ junk memory, hashInit junk memory = some t
  step := fun t l t' => ∃ memory, t.exec f memory l.1 = (t', l.2)

/-- **The table has the elements of the set.** -/
structure Table.Represents (f : HashFuncs) (t : Table) (S : Set HashElem) : Prop where
  powerOf2 : ∃ n, t.bucketCnt = 2 ^ n
  four_le : 4 ≤ t.bucketCnt
  bucket : ∀ i < t.bucketCnt, ∀ e, e ∈ t.buckets i ↔
    e ∈ S ∧ (f.hash e).toNat &&& (t.bucketCnt - 1) = i
  nodup : ∀ i < t.bucketCnt, (t.buckets i).Nodup
  finite : S.Finite
  count : t.elemCnt = S.ncard

namespace Table

variable {f : HashFuncs} {t : Table}

/-- The elements as a set. -/
def toSet (t : Table) : Set HashElem := { e | e ∈ t.elems }

theorem toSet_eq {S : Set HashElem} (h : ∀ e, e ∈ t.elems ↔ e ∈ S) : t.toSet = S := Set.ext h

theorem Inv.represents (h : Inv f t) : t.Represents f t.toSet where
  powerOf2 := h.cnt.imp fun _ hn => hn.2
  four_le := by
    obtain ⟨n, hn, hcnt⟩ := h.cnt
    rw [hcnt]
    exact Nat.pow_le_pow_right (Nat.succ_pos 1) hn
  bucket := by
    intro i hi e
    change e ∈ t.buckets i ↔ e ∈ t.elems ∧ findBucket f t e = i
    constructor
    · intro he
      exact ⟨Table.mem_elems.mpr ⟨i, hi, he⟩, h.bucket i hi e he⟩
    · rintro ⟨he, rfl⟩
      exact h.mem_elems.mp he
  nodup := h.nodup
  finite := t.elems.finite_toSet
  count := by
    have hset : t.toSet = (t.elems.toFinset : Set HashElem) := by
      ext e
      simp [toSet]
    rw [hset, Set.ncard_coe_finset, List.toFinset_card_of_nodup h.nodup_elems, h.count]

/-! ## the operations are those of the set -/

/-- The table `t` goes to `t'` as the set of its elements does. -/
def Moves (f : HashFuncs) (t : Table) (op : SetOp HashElem) (r : SetResult HashElem) (t' : Table) :
    Prop :=
  Inv f t' ∧ ClassSet.Step f.Equiv t.toSet (op, r) t'.toSet

/-- An element without an equivalent is inserted, and the buckets may be changed. -/
theorem Inv.inserted {new : HashElem} (h : Inv f t) (hnew : ∀ a ∈ t.elems, ¬ f.Equiv a new)
    (memory : Bool) :
    Inv f (Pintos.rehash f (Pintos.insertElem t (findBucket f t new) new) memory) ∧
      (Pintos.rehash f (Pintos.insertElem t (findBucket f t new) new) memory).toSet =
        insert new t.toSet := by
  obtain ⟨hinv₁, hmem₁⟩ := h.insertElem hnew
  obtain ⟨hinv₂, hmem₂⟩ := hinv₁.rehash memory
  exact ⟨hinv₂, toSet_eq fun e => (hmem₂ e).trans (hmem₁ e)⟩

theorem Inv.hashInsert (h : Inv f t) (new : HashElem) (memory : Bool) :
    Moves f t (.insert new) (.elem (hashInsert f t new memory).2) (hashInsert f t new memory).1 := by
  unfold Pintos.hashInsert
  dsimp only
  split
  · next hnone =>
    have hnew := h.findElem_none hnone
    obtain ⟨hinv, hset⟩ := h.inserted hnew memory
    refine ⟨hinv, ?_⟩
    rw [hset]
    exact .insertNew hnew
  · next old hold =>
    obtain ⟨hmem, hequiv⟩ := h.findElem_some hold
    obtain ⟨hinv, hmem₁⟩ := h.rehash memory
    refine ⟨hinv, ?_⟩
    rw [toSet_eq hmem₁]
    exact .insertOld hmem hequiv

theorem Inv.hashReplace (h : Inv f t) (new : HashElem) (memory : Bool) :
    Moves f t (.replace new) (.elem (hashReplace f t new memory).2)
      (hashReplace f t new memory).1 := by
  unfold Pintos.hashReplace
  dsimp only
  split
  · next hnone =>
    have hnew := h.findElem_none hnone
    obtain ⟨hinv, hset⟩ := h.inserted hnew memory
    refine ⟨hinv, ?_⟩
    rw [hset]
    exact .replaceNew hnew
  · next old hold =>
    obtain ⟨hmem, hequiv⟩ := h.findElem_some hold
    obtain ⟨hinv₀, hmem₀⟩ := h.removeElem hmem
    -- no other element is equivalent to the new one
    have hnew : ∀ a ∈ (Pintos.removeElem t old).elems, ¬ f.Equiv a new := by
      intro a ha heq
      obtain ⟨hne, ha⟩ := (hmem₀ a).mp ha
      exact hne (h.unique a ha old hmem (heq.trans hequiv.symm))
    have hset₀ : (Pintos.removeElem t old).toSet = t.toSet \ {old} :=
      toSet_eq fun e => (hmem₀ e).trans and_comm
    obtain ⟨hinv, hset⟩ := hinv₀.inserted hnew memory
    rw [hset₀] at hset
    refine ⟨hinv, ?_⟩
    have hstep : ClassSet.Step f.Equiv t.toSet (.replace new, .elem (some old))
        (insert new (t.toSet \ {old})) := .replaceOld hmem hequiv
    rwa [← hset] at hstep

theorem Inv.hashFind (h : Inv f t) (e : HashElem) :
    Moves f t (.find e) (.elem (hashFind f t e)) t := by
  refine ⟨h, ?_⟩
  cases hfind : Pintos.hashFind f t e with
  | none => exact .findNone (h.findElem_none hfind)
  | some found =>
    obtain ⟨hmem, hequiv⟩ := h.findElem_some hfind
    exact .findSome hmem hequiv

theorem Inv.hashDelete (h : Inv f t) (e : HashElem) (memory : Bool) :
    Moves f t (.delete e) (.elem (hashDelete f t e memory).2) (hashDelete f t e memory).1 := by
  unfold Pintos.hashDelete
  split
  · next hnone => exact ⟨h, .deleteNone (h.findElem_none hnone)⟩
  · next found hfound =>
    obtain ⟨hmem, hequiv⟩ := h.findElem_some hfound
    obtain ⟨hinv₁, hmem₁⟩ := h.removeElem hmem
    obtain ⟨hinv₂, hmem₂⟩ := hinv₁.rehash memory
    refine ⟨hinv₂, ?_⟩
    rw [toSet_eq fun e => (hmem₂ e).trans ((hmem₁ e).trans and_comm)]
    exact .deleteSome hmem hequiv

theorem toSet_hashClear (t : Table) (destructor : Bool) : (hashClear t destructor).1.toSet = ∅ := by
  refine toSet_eq fun e => ?_
  rw [elems_hashClear]
  exact iff_of_false List.not_mem_nil id

theorem Inv.hashClear (h : Inv f t) (destructor : Bool) :
    Moves f t (.clear destructor) (.destroyed (hashClear t destructor).2)
      (hashClear t destructor).1 := by
  refine ⟨inv_hashClear h.cnt destructor, ?_⟩
  rw [toSet_hashClear, hashClear_eq]
  cases destructor with
  | false => exact .clear
  | true => exact .destroy h.nodup_elems fun _ => Iff.rfl

/-- **One operation** keeps the invariant and is a step of the set. -/
theorem Inv.exec (h : Inv f t) (memory : Bool) (op : SetOp HashElem) :
    Moves f t op (t.exec f memory op).2 (t.exec f memory op).1 := by
  cases op with
  | insert new => exact h.hashInsert new memory
  | replace new => exact h.hashReplace new memory
  | find e => exact h.hashFind e
  | delete e => exact h.hashDelete e memory
  | clear destructor => exact h.hashClear destructor

theorem hashLts_simulates (f : HashFuncs) :
    Lts.Simulates (hashLts f) (ClassSet.lts f.Equiv) fun t S => Inv f t ∧ S = t.toSet where
  init := by
    rintro t ⟨junk, memory, hinit⟩
    have hcnt : ∃ n, 2 ≤ n ∧ (⟨4, junk, 0⟩ : Table).bucketCnt = 2 ^ n := ⟨2, Nat.le_refl 2, rfl⟩
    unfold hashInit at hinit
    split at hinit
    · cases hinit
      exact ⟨∅, rfl, inv_hashClear hcnt false, (toSet_hashClear _ false).symm⟩
    · cases hinit
  step := by
    rintro t ⟨op, r⟩ t' S ⟨hinv, rfl⟩ ⟨memory, hexec⟩
    obtain ⟨hinv', hstep⟩ := hinv.exec memory op
    rw [hexec] at hinv' hstep
    exact ⟨_, hstep, hinv', rfl⟩

end Table

/-- **The hash table refines a set** with one element of each class: whatever sequence of
operations has been run and whichever allocations have failed, the results are those of the
set, and the table has the elements of the set, each in the bucket of its hash value. -/
theorem hash_refines_set {f : HashFuncs} {t : Table}
    {as : List (SetOp HashElem × SetResult HashElem)} (h : (hashLts f).Trace as t) :
    ∃ S, (ClassSet.lts f.Equiv).Trace as S ∧ ClassSet.OnePerClass f.Equiv S ∧
      t.Represents f S := by
  obtain ⟨S, htrace, hinv, rfl⟩ := h.simulate (Table.hashLts_simulates f)
  exact ⟨t.toSet, htrace, hinv.unique, hinv.represents⟩

theorem hashLts_exec {f : HashFuncs} {t : Table} {as : List (SetOp HashElem × SetResult HashElem)}
    (h : (hashLts f).Trace as t) (memory : Bool) (op : SetOp HashElem) (r : SetResult HashElem)
    (hr : (t.exec f memory op).2 = r) :
    (hashLts f).Trace (as ++ [(op, r)]) (t.exec f memory op).1 :=
  h.snoc ⟨memory, Prod.ext rfl hr⟩

/-- Elements in the same block of 16 bytes are for the same page. -/
def blockFuncs : HashFuncs := pageFuncs fun e => UInt32.ofNat (e.val.val / 16)

/-- The first element of a block. -/
def elemOne : HashElem := ⟨⟨16, by decide⟩, by decide⟩

/-- The second element of the block. -/
def elemTwo : HashElem := ⟨⟨24, by decide⟩, by decide⟩

/-- Two elements for the same page: the second takes the place of the first. -/
theorem hash_refines_set_pages :
    ∃ t as S, as = [(.insert elemOne, .elem none), (.insert elemTwo, .elem (some elemOne)),
        (.replace elemTwo, .elem (some elemOne)), (.find elemOne, .elem (some elemTwo))] ∧
      (hashLts blockFuncs).Trace as t ∧ (ClassSet.lts blockFuncs.Equiv).Trace as S ∧
      ClassSet.OnePerClass blockFuncs.Equiv S ∧ t.Represents blockFuncs S := by
  have hinit : (hashLts blockFuncs).Trace [] (hashClear ⟨4, fun _ => [], 0⟩ false).1 :=
    .nil ⟨fun _ => [], true, rfl⟩
  have h₁ := hashLts_exec hinit true (.insert elemOne) (.elem none) (by decide +kernel)
  have h₂ := hashLts_exec h₁ true (.insert elemTwo) (.elem (some elemOne)) (by decide +kernel)
  have h₃ := hashLts_exec h₂ false (.replace elemTwo) (.elem (some elemOne)) (by decide +kernel)
  have h₄ := hashLts_exec h₃ true (.find elemOne) (.elem (some elemTwo)) (by decide +kernel)
  obtain ⟨S, hS⟩ := hash_refines_set h₄
  exact ⟨_, _, S, rfl, h₄, hS⟩

end Pintos
