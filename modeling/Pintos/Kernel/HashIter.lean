import Pintos.Kernel.Hash
import Pintos.Kernel.List

/-!
# Pintos.Kernel.HashIter

The iterators of `lib/kernel/hash.c`, on the heap of the `struct list_elem`s of the buckets.

An iterator starts on the head of the first bucket, which is no element.  `hash_next` leaves
the bucket when it gets to the tail, and goes on until it finds a bucket with an element or has
seen all of them; the elements that are left are those behind it in its bucket and those of the
later buckets (`Ahead`).
-/

namespace Pintos

open Dll List

/-! ## the functions -/

/-- A `struct list_elem` of a hash table: the header elements of the buckets, and the elements. -/
inductive HashNode
  | head (bucket : Nat)
  | tail (bucket : Nat)
  | elem (e : HashElem)
deriving DecidableEq

/-- `struct hash_iterator`; `elem` may be null. -/
structure HashIterator where
  bucket : Nat
  elem : Option HashNode

/-- `hash_first`. -/
def hashFirst : HashIterator := ⟨0, some (.head 0)⟩

/-- The loop of `hash_next`. -/
def skipBuckets (h : Heap HashNode) (bucketCnt bucket : Nat) (elem : HashNode) :
    Option HashIterator :=
  if elem = .tail bucket then
    if bucket + 1 < bucketCnt then
      (h (.head (bucket + 1))).next.bind (skipBuckets h bucketCnt (bucket + 1))
    else
      some ⟨bucket + 1, none⟩
  else
    some ⟨bucket, some elem⟩
termination_by bucketCnt - bucket

/-- `hash_next`; the element that is returned is the one of the iterator. -/
def hashNext (h : Heap HashNode) (t : Table) (i : HashIterator) : Option HashIterator :=
  i.elem.bind fun elem => (listNext h elem).bind (skipBuckets h t.bucketCnt i.bucket)

/-- `hash_cur`. -/
def hashCur (i : HashIterator) : Option HashNode := i.elem

/-- `while (hash_next (&i))`, with what `hash_cur` returns in each round. -/
def hashLoop (h : Heap HashNode) (t : Table) : Nat → HashIterator → Option (List HashNode)
  | 0, _ => none
  | fuel + 1, i => (hashNext h t i).bind fun i =>
    match hashCur i with
    | none => some []
    | some e => (hashLoop h t fuel i).map (e :: ·)

/-! ## tables in memory -/

/-- There is a bucket, and the buckets are lists. -/
structure HashAt (h : Heap HashNode) (t : Table) : Prop where
  pos : 0 < t.bucketCnt
  bucket : ∀ i, i < t.bucketCnt → IsList h (.head i) (.tail i) ((t.buckets i).map .elem)

/-- The elements from a bucket on. -/
def Table.elemsFrom (t : Table) (bucket : Nat) : List HashElem :=
  (range' bucket (t.bucketCnt - bucket)).flatMap t.buckets

theorem Table.elemsFrom_of_lt {t : Table} {i : Nat} (hi : i < t.bucketCnt) :
    t.elemsFrom i = t.buckets i ++ t.elemsFrom (i + 1) := by
  have hleft : t.bucketCnt - i = t.bucketCnt - (i + 1) + 1 := by omega
  rw [elemsFrom, hleft, range'_succ, flatMap_cons]
  rfl

variable {h : Heap HashNode} {t : Table} {i : HashIterator} {e : HashElem} {b : Nat}
  {xs ys zs : List HashElem}

/-- `zs` are the elements from that of the iterator on. -/
def Ahead (t : Table) (i : HashIterator) : List HashElem → Prop
  | [] => i.elem = none
  | z :: zs => i.elem = some (.elem z) ∧ i.bucket < t.bucketCnt ∧
      ∃ xs ys, t.buckets i.bucket = xs ++ z :: ys ∧ zs = ys ++ t.elemsFrom (i.bucket + 1)

namespace HashAt

section

variable (H : HashAt h t)
include H

theorem path (hb : b < t.bucketCnt) (he : e ∈ t.buckets b) :
    ∃ ys : List HashElem, Path h (.elem e) (ys.map .elem) (.tail b) := by
  obtain ⟨xs, ys, hbucket⟩ := append_of_mem he
  have hlist := H.bucket b hb
  rw [hbucket, map_append, map_cons] at hlist
  exact ⟨ys, (chain_append_cons.mp hlist.chain).2.path⟩

/-- An element leads to the tail of its bucket, which leads nowhere. -/
theorem bucket_unique {c : Nat} (hb : b < t.bucketCnt) (hc : c < t.bucketCnt)
    (heb : e ∈ t.buckets b) (hec : e ∈ t.buckets c) : b = c := by
  obtain ⟨xs, hxs⟩ := H.path hb heb
  obtain ⟨ys, hys⟩ := H.path hc hec
  have hmem := hys.mem_of_walk (H.bucket c hc).tailNext hxs.walk
  simpa using hmem

theorem nodup_elems : t.elems.Nodup := by
  rw [Table.elems, nodup_flatMap]
  refine ⟨fun i hi => ?_, nodup_range.imp_of_mem fun {i j} hi hj hij e hei hej => ?_⟩
  · have hnodup := (H.bucket i (mem_range.mp hi)).nodup
    exact .of_map _ (nodup_append.mp (nodup_cons.mp hnodup).2).1
  · exact hij (H.bucket_unique (mem_range.mp hi) (mem_range.mp hj) hei hej)

/-- **The loop of `hash_next`** finds what is left of the bucket, or of those behind it. -/
theorem skipBuckets (hb : b < t.bucketCnt) (hxs : t.buckets b = xs ++ ys)
    {o : Option HashNode} (ho : o = (ys.map HashNode.elem ++ [HashNode.tail b]).head?) :
    ∃ i, o.bind (skipBuckets h t.bucketCnt b) = some i ∧
      Ahead t i (ys ++ t.elemsFrom (b + 1)) := by
  induction hk : t.bucketCnt - b generalizing b o xs ys with
  | zero => omega
  | succ k ih =>
    subst ho
    cases ys with
    | cons y ys =>
      refine ⟨⟨b, some (.elem y)⟩, ?_, rfl, hb, xs, ys, hxs, rfl⟩
      rw [map_cons, cons_append, head?_cons, Option.bind_some, Pintos.skipBuckets, if_neg nofun]
    | nil =>
      rw [map_nil, nil_append, head?_cons, Option.bind_some, Pintos.skipBuckets, if_pos rfl]
      by_cases hlast : b + 1 < t.bucketCnt
      · rw [if_pos hlast, nil_append, Table.elemsFrom_of_lt hlast]
        exact ih hlast (nil_append _).symm (H.bucket _ hlast).next_head (by omega)
      · rw [if_neg hlast, Table.elemsFrom, Nat.sub_eq_zero_of_le (Nat.le_of_not_lt hlast)]
        exact ⟨_, rfl, rfl⟩

/-- **`hash_next`** goes on to the next element. -/
theorem hashNext (hi : Ahead t i (e :: zs)) : ∃ i', hashNext h t i = some i' ∧ Ahead t i' zs := by
  obtain ⟨helem, hb, xs, ys, hbucket, rfl⟩ := hi
  have hlist := H.bucket _ hb
  rw [hbucket, map_append, map_cons] at hlist
  have hsplit : t.buckets i.bucket = (xs ++ [e]) ++ ys := by rw [hbucket, append_assoc]; rfl
  rw [Pintos.hashNext, helem, Option.bind_some]
  exact H.skipBuckets hb hsplit (listNext_eq hlist)

/-- The first call of `hash_next` gets to the first element. -/
theorem hashNext_hashFirst : ∃ i, Pintos.hashNext h t hashFirst = some i ∧ Ahead t i t.elems := by
  have hlist := H.bucket 0 H.pos
  obtain ⟨n, hn⟩ := hlist.chain.exists_next
  have hnext : listNext h (.head 0) = (h (.head 0)).next := by
    rw [listNext, isHead, hlist.headPrev, hn]
    rfl
  rw [Table.elems, range_eq_range', ← Nat.sub_zero t.bucketCnt, ← Table.elemsFrom,
    Table.elemsFrom_of_lt H.pos, Pintos.hashNext, hashFirst, Option.bind_some]
  exact H.skipBuckets H.pos (nil_append _).symm (hnext.trans hlist.next_head)

/-- The rest of the loop, from the element that `hash_next` has got to. -/
theorem hashLoop_eq {fuel : Nat} {i₀ : HashIterator}
    (hnext : Pintos.hashNext h t i₀ = some i) (hi : Ahead t i zs) (hfuel : zs.length < fuel) :
    hashLoop h t fuel i₀ = some (zs.map .elem) := by
  induction zs generalizing fuel i₀ i with
  | nil =>
    obtain ⟨fuel, rfl⟩ := Nat.exists_eq_add_of_lt hfuel
    have hnone : hashCur i = none := hi
    rw [hashLoop, hnext, Option.bind_some, hnone]
    rfl
  | cons z zs ih =>
    obtain ⟨fuel, rfl⟩ := Nat.exists_eq_add_of_lt hfuel
    have hcur : hashCur i = some (.elem z) := hi.1
    obtain ⟨i', hnext', hi'⟩ := H.hashNext hi
    rw [hashLoop, hnext, Option.bind_some, hcur]
    dsimp only
    rw [ih hnext' hi' (Nat.lt_of_succ_lt_succ hfuel)]
    rfl

end

end HashAt

/-- **Iteration is complete**: the loop returns, and has seen every element of every bucket once. -/
theorem hash_iteration_complete (H : HashAt h t) :
    (∀ fuel, t.elems.length < fuel → hashLoop h t fuel hashFirst = some (t.elems.map .elem)) ∧
      t.elems.Nodup ∧ ∀ e, e ∈ t.elems ↔ ∃ i < t.bucketCnt, e ∈ t.buckets i := by
  obtain ⟨i, hnext, hi⟩ := H.hashNext_hashFirst
  exact ⟨fun fuel hfuel => H.hashLoop_eq hnext hi hfuel, H.nodup_elems, fun e => Table.mem_elems⟩

/-- A table with one element, between two buckets without any. -/
theorem hash_iteration_complete_between : ∃ h : Heap HashNode, ∃ t, HashAt h t ∧
    t.bucketCnt = 3 ∧ t.elems = [⟨⟨8, by decide⟩, by decide⟩] ∧
      hashLoop h t 2 hashFirst = some (t.elems.map .elem) := by
  let e : HashElem := ⟨⟨8, by decide⟩, by decide⟩
  let h : Heap HashNode
    | .head 1 => ⟨none, some (.elem e)⟩
    | .elem _ => ⟨some (.head 1), some (.tail 1)⟩
    | .tail 1 => ⟨some (.elem e), none⟩
    | .head i => ⟨none, some (.tail i)⟩
    | .tail i => ⟨some (.head i), none⟩
  have H : HashAt h ⟨3, fun i => if i = 1 then [e] else [], 1⟩ := by
    refine ⟨by decide, fun i hi => ?_⟩
    match i, hi with
    | 0, _ | 2, _ => exact ⟨rfl, rfl, ⟨rfl, rfl⟩, by decide⟩
    | 1, _ => exact ⟨rfl, rfl, ⟨rfl, rfl, rfl, rfl⟩, by decide⟩
  exact ⟨h, _, H, rfl, rfl, (hash_iteration_complete H).1 2 (by decide)⟩

end Pintos

