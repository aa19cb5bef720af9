import Pintos.Kernel.Bitmap
import Pintos.Lib.Bytes

/-!
# Pintos.Kernel.Hash

The hash tables of `lib/kernel/hash.c`.

An element is a pointer to its `struct hash_elem`, and a bucket is the list of its
elements.  `list_remove` takes an element out of the bucket that it is in, whichever that
is.  `Table.Inv` says that every element is in the bucket of its hash value, that no two
elements are equivalent and that `elem_cnt` counts them; what `insert_elem`, `remove_elem`
and `rehash` do to the elements is in `Inv.insertElem`, `Inv.removeElem` and `Inv.rehash`.
-/

namespace Pintos

open Function List

/-! ## the model -/

/-- A pointer to a `struct hash_elem`, which is not null. -/
abbrev HashElem : Type := { p : Fin sizeTSize // p.val ≠ 0 }

/-- The functions of a hash table: `less` is a strict weak order, and elements that it does
not tell apart have the same hash value. -/
structure HashFuncs where
  hash : HashElem → UInt32
  less : HashElem → HashElem → Bool
  strictWeak : IsStrictWeakOrder HashElem fun a b => less a b = true
  hash_congr : ∀ a b, less a b = false → less b a = false → hash a = hash b

/-- The elements are equal as `less` tells them apart. -/
def HashFuncs.Equiv (f : HashFuncs) (a b : HashElem) : Prop := f.less a b = false ∧ f.less b a = false

/-- `struct hash`; the functions are passed beside it. -/
structure Table where
  bucketCnt : Nat
  buckets : Nat → List HashElem
  elemCnt : Nat

/-- `sizeof (struct list)`. -/
def listSize : Nat := 16

section

variable (f : HashFuncs)

/-- `find_bucket`: the index of the bucket. -/
def findBucket (t : Table) (e : HashElem) : Nat := (f.hash e).toNat &&& (t.bucketCnt - 1)

/-- `find_elem`. -/
def findElem (bucket : List HashElem) (e : HashElem) : Option HashElem :=
  bucket.find? fun hi => !f.less hi e && !f.less e hi

/-- `list_push_front` on a bucket. -/
def pushFront (buckets : Nat → List HashElem) (bucket : Nat) (e : HashElem) :
    Nat → List HashElem :=
  update buckets bucket (e :: buckets bucket)

/-- `insert_elem`. -/
def insertElem (t : Table) (bucket : Nat) (e : HashElem) : Table :=
  { t with elemCnt := (t.elemCnt + 1) % sizeTSize, buckets := pushFront t.buckets bucket e }

/-- `remove_elem`. -/
def removeElem (t : Table) (e : HashElem) : Table :=
  { t with
    elemCnt := (t.elemCnt + sizeTSize - 1) % sizeTSize
    buckets := fun i => (t.buckets i).erase e }

/-- `turn_off_least_1bit`. -/
def turnOffLeast1bit (x : Nat) : Nat := x &&& (x - 1)

/-- `is_power_of_2`. -/
def isPowerOf2 (x : Nat) : Bool := x != 0 && turnOffLeast1bit x == 0

/-- The loop of `rehash` that looks for a power of 2. -/
def roundLoop : Nat → Nat → Nat
  | 0, cnt => cnt
  | fuel + 1, cnt => if isPowerOf2 cnt then cnt else roundLoop fuel (turnOffLeast1bit cnt)

/-- The number of buckets for a number of elements. -/
def newBucketCnt (elemCnt : Nat) : Nat :=
  let cnt := if elemCnt / 2 < 4 then 4 else elemCnt / 2
  roundLoop cnt cnt

/-- `malloc` of an array of buckets; `memory` when there is memory.  A null pointer is the
answer to a request for 0 bytes. -/
def allocatesBuckets (cnt : Nat) (memory : Bool) : Bool := memory && listSize * cnt % sizeTSize != 0

/-- `rehash`. -/
def rehash (t : Table) (memory : Bool) : Table :=
  let cnt := newBucketCnt t.elemCnt
  if cnt = t.bucketCnt then
    t
  else if allocatesBuckets cnt memory then
    let new : Table := { t with bucketCnt := cnt, buckets := fun _ => [] }
    { new with
      buckets := (range t.bucketCnt).foldl
        (fun buckets i => (t.buckets i).foldl
          (fun buckets e => pushFront buckets (findBucket f new e) e) buckets)
        new.buckets }
  else
    t

/-- `hash_clear`, with the elements that the destructor is called for, if there is one. -/
def hashClear (t : Table) (destructor : Bool) : Table × List HashElem :=
  let (buckets, destroyed) := (range t.bucketCnt).foldl
    (fun (buckets, destroyed) i =>
      (update buckets i [], if destructor then destroyed ++ buckets i else destroyed))
    (t.buckets, [])
  (⟨t.bucketCnt, buckets, 0⟩, destroyed)

/-- `hash_init`; `junk` is in the memory of the buckets. -/
def hashInit (junk : Nat → List HashElem) (memory : Bool) : Option Table :=
  if allocatesBuckets 4 memory then some (hashClear ⟨4, junk, 0⟩ false).1 else none

/-- `hash_insert`. -/
def hashInsert (t : Table) (new : HashElem) (memory : Bool) : Table × Option HashElem :=
  let bucket := findBucket f t new
  match findElem f (t.buckets bucket) new with
  | none => (rehash f (insertElem t bucket new) memory, none)
  | some old => (rehash f t memory, some old)

/-- `hash_replace`. -/
def hashReplace (t : Table) (new : HashElem) (memory : Bool) : Table × Option HashElem :=
  let bucket := findBucket f t new
  match findElem f (t.buckets bucket) new with
  | none => (rehash f (insertElem t bucket new) memory, none)
  | some old => (rehash f (insertElem (removeElem t old) bucket new) memory, some old)

/-- `hash_find`. -/
def hashFind (t : Table) (e : HashElem) : Option HashElem :=
  findElem f (t.buckets (findBucket f t e)) e

/-- `hash_delete`. -/
def hashDelete (t : Table) (e : HashElem) (memory : Bool) : Table × Option HashElem :=
  match findElem f (t.buckets (findBucket f t e)) e with
  | none => (t, none)
  | some found => (rehash f (removeElem t found) memory, some found)

end

/-! ## equivalence and counting -/

variable {f : HashFuncs} {t : Table} {a b e : HashElem} {i x cnt fuel : Nat} {memory : Bool}

namespace HashFuncs

protected theorem Equiv.refl (f : HashFuncs) (a : HashElem) : f.Equiv a a := by
  have hirrefl : ¬ f.less a a = true := f.strictWeak.irrefl a
  rw [Bool.not_eq_true] at hirrefl
  exact ⟨hirrefl, hirrefl⟩

protected theorem Equiv.symm (h : f.Equiv a b) : f.Equiv b a := ⟨h.2, h.1⟩

protected theorem Equiv.trans {c : HashElem} (hab : f.Equiv a b) (hbc : f.Equiv b c) :
    f.Equiv a c := by
  have h := f.strictWeak.incomp_trans a b c
    ⟨Bool.not_eq_true _ ▸ hab.1, Bool.not_eq_true _ ▸ hab.2⟩
    ⟨Bool.not_eq_true _ ▸ hbc.1, Bool.not_eq_true _ ▸ hbc.2⟩
  exact ⟨eq_false_of_ne_true h.1, eq_false_of_ne_true h.2⟩

end HashFuncs

theorem length_lt_sizeTSize {es : List HashElem} (h : es.Nodup) : es.length < sizeTSize := by
  have hzero : (⟨0, by decide⟩ : Fin sizeTSize) ∉ es.map Subtype.val := by
    intro hmem
    obtain ⟨p, -, hp⟩ := mem_map.mp hmem
    exact p.property (congrArg Fin.val hp)
  have hnodup := nodup_cons.mpr ⟨hzero, h.map Subtype.val_injective⟩
  have hcard := hnodup.length_le_card
  rwa [Fintype.card_fin, length_cons, length_map] at hcard

/-! ## powers of two -/

/-- The highest bit stays on unless it is the only one. -/
theorem two_pow_log2_le_turnOffLeast1bit (hx : x ≠ 0) (h : x ≠ 2 ^ x.log2) :
    2 ^ x.log2 ≤ turnOffLeast1bit x := by
  have hle := Nat.log2_self_le hx
  have hlt : x < 2 ^ (x.log2 + 1) := Nat.lt_log2_self
  have hpred : (x - 1).log2 = x.log2 := by
    rw [Nat.log2_eq_iff (by omega)]
    omega
  have hbit : (turnOffLeast1bit x).testBit x.log2 = true := by
    rw [turnOffLeast1bit, Nat.testBit_and, Nat.testBit_log2 hx, Bool.true_and]
    conv_lhs => rw [← hpred]
    exact Nat.testBit_log2 (by omega)
  exact Nat.ge_two_pow_of_testBit hbit

theorem isPowerOf2_iff : isPowerOf2 x = true ↔ ∃ n, x = 2 ^ n := by
  rw [isPowerOf2, Bool.and_eq_true, bne_iff_ne, beq_iff_eq]
  constructor
  · rintro ⟨hne, hoff⟩
    refine ⟨x.log2, Decidable.byContradiction fun hx => ?_⟩
    have hle := two_pow_log2_le_turnOffLeast1bit hne hx
    rw [hoff] at hle
    exact absurd (Nat.two_pow_pos x.log2) (by omega)
  · rintro ⟨n, rfl⟩
    refine ⟨ne_of_gt (Nat.two_pow_pos n), ?_⟩
    rw [turnOffLeast1bit, Nat.and_two_pow_sub_one_eq_mod, Nat.mod_self]

/-- **The loop ends at a power of 2** that is not smaller than the one it starts above. -/
theorem roundLoop_spec (hfuel : cnt ≤ fuel) (hfour : 4 ≤ cnt) :
    ∃ n, 2 ≤ n ∧ roundLoop fuel cnt = 2 ^ n := by
  induction fuel generalizing cnt with
  | zero => omega
  | succ fuel ih =>
    rw [roundLoop]
    by_cases hpow : isPowerOf2 cnt = true
    · rw [if_pos hpow]
      obtain ⟨n, rfl⟩ := isPowerOf2_iff.mp hpow
      refine ⟨n, ?_, rfl⟩
      exact (Nat.pow_le_pow_iff_right (Nat.lt_succ_self 1)).mp (hfour)
    · rw [if_neg hpow]
      have hne : cnt ≠ 2 ^ cnt.log2 := fun heq => hpow (isPowerOf2_iff.mpr ⟨_, heq⟩)
      have hlow := two_pow_log2_le_turnOffLeast1bit (by omega) hne
      have hlog : 2 ≤ cnt.log2 := (Nat.le_log2 (by omega)).mpr hfour
      have hpow4 : 2 ^ 2 ≤ 2 ^ cnt.log2 := Nat.pow_le_pow_right (Nat.succ_pos 1) hlog
      have hhigh : turnOffLeast1bit cnt ≤ cnt - 1 := Nat.and_le_right
      exact ih (by omega) (by omega)

theorem newBucketCnt_spec (elemCnt : Nat) : ∃ n, 2 ≤ n ∧ newBucketCnt elemCnt = 2 ^ n := by
  refine roundLoop_spec le_rfl ?_
  split <;> omega

/-! ## the elements of a table -/

namespace Table

/-- The elements, bucket after bucket. -/
def elems (t : Table) : List HashElem := (range t.bucketCnt).flatMap t.buckets

theorem mem_elems : e ∈ t.elems ↔ ∃ i < t.bucketCnt, e ∈ t.buckets i := by
  simp [elems]

/-- The buckets: their number is a power of 2, and an element is in the bucket of its hash
value, once. -/
structure Placed (f : HashFuncs) (t : Table) : Prop where
  cnt : ∃ n, 2 ≤ n ∧ t.bucketCnt = 2 ^ n
  bucket : ∀ i < t.bucketCnt, ∀ e ∈ t.buckets i, findBucket f t e = i
  nodup : ∀ i < t.bucketCnt, (t.buckets i).Nodup

/-- **The invariant.** -/
structure Inv (f : HashFuncs) (t : Table) : Prop extends Placed f t where
  count : t.elemCnt = t.elems.length
  unique : ∀ a ∈ t.elems, ∀ b ∈ t.elems, f.Equiv a b → a = b

theorem Placed.findBucket_lt (h : Placed f t) (e : HashElem) : findBucket f t e < t.bucketCnt := by
  obtain ⟨n, -, hn⟩ := h.cnt
  rw [findBucket, hn, Nat.and_two_pow_sub_one_eq_mod]
  exact Nat.mod_lt _ (Nat.two_pow_pos n)

theorem Placed.mem_elems (h : Placed f t) : e ∈ t.elems ↔ e ∈ t.buckets (findBucket f t e) := by
  rw [Table.mem_elems]
  constructor
  · rintro ⟨i, hi, he⟩
    rwa [h.bucket i hi e he]
  · intro he
    exact ⟨_, h.findBucket_lt e, he⟩

theorem Placed.nodup_elems (h : Placed f t) : t.elems.Nodup := by
  rw [elems, nodup_flatMap]
  refine ⟨fun i hi => h.nodup i (mem_range.mp hi), ?_⟩
  refine nodup_range.imp_of_mem fun {i j} hi hj hne e hei hej => hne ?_
  rw [← h.bucket i (mem_range.mp hi) e hei, ← h.bucket j (mem_range.mp hj) e hej]

/-- The invariant from a list with the same elements. -/
theorem Placed.inv {es : List HashElem} (h : Placed f t) (hnodup : es.Nodup)
    (hmem : ∀ e, e ∈ t.elems ↔ e ∈ es) (hcount : t.elemCnt = es.length)
    (hunique : ∀ a ∈ es, ∀ b ∈ es, f.Equiv a b → a = b) : Inv f t where
  toPlaced := h
  count := by
    rw [hcount, ((perm_ext_iff_of_nodup h.nodup_elems hnodup).mpr hmem).length_eq]
  unique := fun a ha b hb => hunique a ((hmem a).mp ha) b ((hmem b).mp hb)

/-! ## finding -/

/-- **`find_elem` finds the equivalent element.** -/
theorem Placed.findElem_some (h : Placed f t) {found : HashElem}
    (hfind : findElem f (t.buckets (findBucket f t e)) e = some found) :
    found ∈ t.elems ∧ f.Equiv found e := by
  have hmem := mem_of_find?_eq_some hfind
  have heq := find?_some hfind
  rw [Bool.and_eq_true, Bool.not_eq_true', Bool.not_eq_true'] at heq
  exact ⟨Table.mem_elems.mpr ⟨_, h.findBucket_lt e, hmem⟩, heq⟩

theorem Placed.findElem_none (h : Placed f t)
    (hfind : findElem f (t.buckets (findBucket f t e)) e = none) :
    ∀ a ∈ t.elems, ¬ f.Equiv a e := by
  intro a ha hequiv
  -- an equivalent element has the same hash value, so it would be in the bucket
  have hbucket : findBucket f t a = findBucket f t e := by
    rw [findBucket, findBucket, f.hash_congr a e hequiv.1 hequiv.2]
  have hmem := h.mem_elems.mp ha
  rw [hbucket] at hmem
  have hnot := find?_eq_none.mp hfind a hmem
  rw [hequiv.1, hequiv.2] at hnot
  exact hnot rfl

/-! ## inserting and removing -/

theorem mem_pushFront {buckets : Nat → List HashElem} {j : Nat} :
    a ∈ pushFront buckets i e j ↔ (a = e ∧ j = i) ∨ a ∈ buckets j := by
  rw [pushFront]
  by_cases hj : j = i
  · subst hj
    rw [update_self, mem_cons, and_iff_left rfl]
  · rw [update_of_ne hj]
    exact (or_iff_right fun h => hj h.2).symm

/-- **`insert_elem`** of an element that has no equivalent in the table. -/
theorem Inv.insertElem (h : Inv f t) (hnew : ∀ a ∈ t.elems, ¬ f.Equiv a e) :
    Inv f (insertElem t (findBucket f t e) e) ∧
      ∀ a, a ∈ (insertElem t (findBucket f t e) e).elems ↔ a = e ∨ a ∈ t.elems := by
  have hout : e ∉ t.elems := fun he => hnew e he (.refl f e)
  have hplaced : Placed f (Pintos.insertElem t (findBucket f t e) e) := by
    refine ⟨h.cnt, ?_, ?_⟩
    · intro j hj a ha
      rcases mem_pushFront.mp ha with ⟨rfl, rfl⟩ | ha
      · rfl
      · exact h.bucket j hj a ha
    · intro j hj
      change (pushFront t.buckets (findBucket f t e) e j).Nodup
      rw [pushFront]
      by_cases hje : j = findBucket f t e
      · subst hje
        rw [update_self, nodup_cons]
        exact ⟨fun he => hout (h.mem_elems.mpr he), h.nodup _ hj⟩
      · rw [update_of_ne hje]
        exact h.nodup j hj
  have hmem : ∀ a, a ∈ (Pintos.insertElem t (findBucket f t e) e).elems ↔ a = e ∨ a ∈ t.elems := by
    intro a
    rw [hplaced.mem_elems, h.mem_elems]
    refine mem_pushFront.trans (or_congr_left (and_iff_left_of_imp ?_))
    rintro rfl
    rfl
  have hnodup : (e :: t.elems).Nodup := nodup_cons.mpr ⟨hout, h.nodup_elems⟩
  refine ⟨hplaced.inv hnodup ?_ ?_ ?_, hmem⟩
  · intro a
    rw [hmem, mem_cons]
  · have hlt := length_lt_sizeTSize hnodup
    rw [length_cons] at hlt ⊢
    change (t.elemCnt + 1) % sizeTSize = _
    rw [h.count, Nat.mod_eq_of_lt hlt]
  · intro a ha b hb hequiv
    rcases mem_cons.mp ha with hae | hat
    · rcases mem_cons.mp hb with hbe | hbt
      · rw [hae, hbe]
      · exact absurd (hae ▸ hequiv.symm) (hnew b hbt)
    · rcases mem_cons.mp hb with hbe | hbt
      · exact absurd (hbe ▸ hequiv) (hnew a hat)
      · exact h.unique a hat b hbt hequiv

/-- **`remove_elem`** of an element of the table. -/
theorem Inv.removeElem (h : Inv f t) (he : e ∈ t.elems) :
    Inv f (removeElem t e) ∧ ∀ a, a ∈ (removeElem t e).elems ↔ a ≠ e ∧ a ∈ t.elems := by
  have hplaced : Placed f (Pintos.removeElem t e) := by
    refine ⟨h.cnt, ?_, ?_⟩
    · intro j hj a ha
      exact h.bucket j hj a (mem_of_mem_erase ha)
    · intro j hj
      exact (h.nodup j hj).erase e
  have hmem : ∀ a, a ∈ (Pintos.removeElem t e).elems ↔ a ≠ e ∧ a ∈ t.elems := by
    intro a
    rw [hplaced.mem_elems, h.mem_elems]
    exact (h.nodup _ (h.findBucket_lt a)).mem_erase_iff
  refine ⟨hplaced.inv (h.nodup_elems.erase e) ?_ ?_ ?_, hmem⟩
  · intro a
    rw [hmem, h.nodup_elems.mem_erase_iff]
  · have hlt := length_lt_sizeTSize h.nodup_elems
    have hpos := length_pos_of_mem he
    change (t.elemCnt + sizeTSize - 1) % sizeTSize = _
    rw [h.count, length_erase_of_mem he]
    unfold sizeTSize at *
    omega
  · intro a ha b hb
    exact h.unique a (mem_of_mem_erase ha) b (mem_of_mem_erase hb)

/-! ## rehash -/

theorem foldl_pushFront (index : HashElem → Nat) (es : List HashElem)
    (buckets : Nat → List HashElem) (j : Nat) :
    es.foldl (fun buckets e => pushFront buckets (index e) e) buckets j =
      (es.filter fun e => index e = j).reverse ++ buckets j := by
  induction es generalizing buckets with
  | nil => rfl
  | cons e es ih =>
    rw [foldl_cons, ih, pushFront]
    by_cases hj : index e = j
    · subst hj
      rw [update_self, filter_cons_of_pos (by simp), reverse_cons,
        append_assoc, singleton_append]
    · rw [update_of_ne (Ne.symm hj), filter_cons_of_neg (by simpa using hj)]

/-- What `rehash` does: nothing, or all elements move to other buckets. -/
theorem rehash_cases (f : HashFuncs) (t : Table) (memory : Bool) :
    rehash f t memory = t ∨ ∃ new : Table, rehash f t memory = new ∧
      new.bucketCnt = newBucketCnt t.elemCnt ∧ new.elemCnt = t.elemCnt ∧
      ∀ j, new.buckets j = (t.elems.filter fun e => findBucket f new e = j).reverse := by
  unfold rehash
  dsimp only
  split
  · exact .inl rfl
  · split
    · refine .inr ⟨_, rfl, rfl, rfl, fun j => ?_⟩
      dsimp only
      rw [← foldl_flatMap, ← elems, foldl_pushFront, append_nil]
      rfl
    · exact .inl rfl

/-- **`rehash` keeps the elements**, whether there is memory or not. -/
theorem Inv.rehash (h : Inv f t) (memory : Bool) :
    Inv f (rehash f t memory) ∧ ∀ a, a ∈ (rehash f t memory).elems ↔ a ∈ t.elems := by
  rcases rehash_cases f t memory with heq | ⟨new, heq, hcnt, hcount, hbuckets⟩
  · rw [heq]
    exact ⟨h, fun _ => Iff.rfl⟩
  · rw [heq]
    have hbucket : ∀ j a, a ∈ new.buckets j ↔ a ∈ t.elems ∧ findBucket f new a = j := by
      intro j a
      rw [hbuckets, mem_reverse, mem_filter, decide_eq_true_eq]
    have hplaced : Placed f new := by
      refine ⟨hcnt ▸ newBucketCnt_spec _, fun j _ a ha => ((hbucket j a).mp ha).2, ?_⟩
      intro j _
      rw [hbuckets, nodup_reverse]
      exact h.nodup_elems.filter _
    have hmem : ∀ a, a ∈ new.elems ↔ a ∈ t.elems := by
      intro a
      rw [hplaced.mem_elems, hbucket, and_iff_left rfl]
    exact ⟨hplaced.inv h.nodup_elems hmem (hcount.trans h.count) h.unique, hmem⟩

/-! ## clearing -/

theorem foldl_clear (buckets : Nat → List HashElem) (destructor : Bool) (n : Nat) :
    (range n).foldl
      (fun (p : (Nat → List HashElem) × List HashElem) i =>
        (update p.1 i [], if destructor then p.2 ++ p.1 i else p.2)) (buckets, []) =
      (fun i => if i < n then [] else buckets i,
        if destructor then (range n).flatMap buckets else []) := by
  induction n with
  | zero => simp
  | succ n ih =>
    rw [range_succ, foldl_append, ih, foldl_cons, foldl_nil]
    refine Prod.ext ?_ ?_
    · funext i
      simp only [update_apply]
      split
      · rw [if_pos (by omega)]
      · exact if_congr (by omega) rfl rfl
    · cases destructor <;> simp

/-- **`hash_clear`.** -/
theorem hashClear_eq (t : Table) (destructor : Bool) :
    hashClear t destructor = (⟨t.bucketCnt, fun i => if i < t.bucketCnt then [] else t.buckets i, 0⟩,
      if destructor then t.elems else []) := by
  have hloop := foldl_clear t.buckets destructor t.bucketCnt
  unfold hashClear
  exact congrArg (fun p => ((⟨t.bucketCnt, p.1, 0⟩ : Table), p.2)) hloop

theorem bucket_hashClear (destructor : Bool) (hi : i < t.bucketCnt) :
    (hashClear t destructor).1.buckets i = [] := by
  rw [hashClear_eq]
  exact if_pos hi

theorem elems_hashClear (t : Table) (destructor : Bool) :
    (hashClear t destructor).1.elems = [] := by
  refine flatMap_eq_nil_iff.mpr fun i hi => bucket_hashClear destructor ?_
  rwa [mem_range, hashClear_eq] at hi

theorem inv_hashClear (hcnt : ∃ n, 2 ≤ n ∧ t.bucketCnt = 2 ^ n) (destructor : Bool) :
    Inv f (hashClear t destructor).1 := by
  have hbucketCnt : (hashClear t destructor).1.bucketCnt = t.bucketCnt := by rw [hashClear_eq]
  have helems := elems_hashClear t destructor
  have hplaced : Placed f (hashClear t destructor).1 := by
    constructor
    · rwa [hbucketCnt]
    · intro i hi e he
      rw [bucket_hashClear destructor (hbucketCnt ▸ hi)] at he
      cases he
    · intro i hi
      rw [bucket_hashClear destructor (hbucketCnt ▸ hi)]
      exact nodup_nil
  refine hplaced.inv nodup_nil ?_ ?_ ?_
  · intro e
    rw [helems]
  · rw [hashClear_eq]
    rfl
  · intro a ha
    cases ha

end Table

/-! ## the supplemental page table -/

/-- `FNV_32_PRIME`. -/
def fnv32Prime : UInt32 := 16777619

/-- `FNV_32_BASIS`. -/
def fnv32Basis : UInt32 := 2166136261

/-- `hash_bytes`. -/
def hashBytes (buf : List UInt8) : UInt32 :=
  buf.foldl (fun hash b => (hash * fnv32Prime) ^^^ b.toUInt32) fnv32Basis

/-- `page_hash` and `page_less`; `upage` is that of the `struct spage` of an element. -/
def pageFuncs (upage : HashElem → UInt32) : HashFuncs where
  hash := fun e => hashBytes (Bytes.le32 (upage e).toNat)
  less := fun a b => decide (upage a < upage b)
  strictWeak := by
    have hle : ∀ a b : UInt32, ¬ a < b ↔ b ≤ a := fun a b => UInt32.not_lt
    refine { irrefl := ?_, trans := ?_, incomp_trans := ?_ }
    · intro a
      simp
    · intro a b c hab hbc
      simp only [decide_eq_true_eq] at *
      exact UInt32.lt_trans hab hbc
    · intro a b c hab hbc
      simp only [decide_eq_true_eq, hle] at *
      exact ⟨UInt32.le_trans hbc.1 hab.1, UInt32.le_trans hab.2 hbc.2⟩
  hash_congr := by
    intro a b hab hba
    simp only [decide_eq_false_iff_not, UInt32.not_lt] at hab hba
    rw [UInt32.le_antisymm hba hab]

end Pintos
