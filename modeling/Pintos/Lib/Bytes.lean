import Mathlib

/-!
# Pintos.Lib.Bytes

Cells addressed by numbers: reading and writing a range, and numbers in
little-endian order.

A store is a function, so that two stores are equal when all their cells are; a
range is a list.  `read_write_of_disjoint` and `read_write_self` are the frame
rule and the round trip; `write_patch` says that writing back a range in which
some cells have been replaced writes those cells only.
-/

namespace Bytes

open List

variable {α : Type*} {m : Nat → α} {a b i k n : Nat} {bs cs : List α}

/-! ## ranges -/

/-- The `n` cells from `a` on. -/
def read (m : Nat → α) (a n : Nat) : List α := (List.range n).map fun i => m (a + i)

/-- The store after `bs` has been written from `a` on. -/
def write (m : Nat → α) (a : Nat) (bs : List α) : Nat → α := fun i =>
  if a ≤ i then bs.getD (i - a) (m i) else m i

/-- The list `bs` with `cs` in place of its elements from `i` on. -/
def patch (bs : List α) (i : Nat) (cs : List α) : List α :=
  bs.take i ++ cs ++ bs.drop (i + cs.length)

@[simp] theorem length_read : (read m a n).length = n := by simp [read]

@[simp] theorem read_zero : read m a 0 = [] := rfl

@[simp] theorem getElem_read (h : i < (read m a n).length) : (read m a n)[i] = m (a + i) := by
  simp [read]

theorem getD_read {d : α} (h : i < n) : (read m a n).getD i d = m (a + i) := by
  rw [getD_eq_getElem _ _ (by simpa using h), getElem_read]

theorem read_congr {m' : Nat → α} (h : ∀ i, i < n → m (a + i) = m' (b + i)) :
    read m a n = read m' b n := by
  refine ext_getElem (by simp) fun i hi _ => ?_
  rw [getElem_read, getElem_read]
  exact h i (by simpa using hi)

theorem read_append : read m a (n + k) = read m a n ++ read m (a + n) k := by
  refine ext_getElem (by simp) fun i hi _ => ?_
  rw [getElem_append]
  split
  · simp
  · next hle =>
    simp only [length_read] at hle
    rw [getElem_read, getElem_read]
    congr 1
    simp only [length_read]
    omega

theorem take_drop_read (h : i + k ≤ n) : ((read m a n).drop i).take k = read m (a + i) k := by
  refine ext_getElem (by simp; omega) fun j hj _ => ?_
  simp only [length_take, length_drop, length_read] at hj
  rw [getElem_take, getElem_drop, getElem_read, getElem_read, Nat.add_assoc]

/-! ## reading what has been written -/

theorem write_of_lt (h : i < a) : write m a bs i = m i := if_neg (by omega)

theorem write_of_le (h : a + bs.length ≤ i) : write m a bs i = m i := by
  unfold write
  split
  · exact getD_eq_default _ _ (by omega)
  · rfl

theorem write_add (h : i < bs.length) : write m a bs (a + i) = bs[i] := by
  rw [write, if_pos (by omega), Nat.add_sub_cancel_left, getD_eq_getElem _ _ h]

@[simp] theorem write_nil : write m a [] = m := by
  funext i
  simp [write]

/-- **Round trip.** -/
theorem read_write_self : read (write m a bs) a bs.length = bs := by
  refine ext_getElem (by simp) fun i _ hi => ?_
  rw [getElem_read, write_add hi]

/-- **Frame rule.** -/
theorem read_write_of_disjoint (h : a + n ≤ b ∨ b + bs.length ≤ a) :
    read (write m b bs) a n = read m a n := by
  refine read_congr fun i hi => ?_
  rcases h with h | h
  · exact write_of_lt (by omega)
  · exact write_of_le (by omega)

theorem read_write_of_subset (hb : b ≤ a) (h : a + n ≤ b + bs.length) :
    read (write m b bs) a n = (bs.drop (a - b)).take n := by
  refine ext_getElem (by simp; omega) fun i hi _ => ?_
  simp only [length_read] at hi
  rw [getElem_read, getElem_take, getElem_drop, show a + i = b + (a - b + i) by omega,
    write_add]

theorem write_append : write m a (bs ++ cs) = write (write m a bs) (a + bs.length) cs := by
  funext i
  by_cases hlt : i < a + bs.length
  · rw [write_of_lt hlt]
    by_cases hi : i < a
    · rw [write_of_lt hi, write_of_lt hi]
    · obtain ⟨j, rfl⟩ := Nat.exists_eq_add_of_le (Nat.le_of_not_lt hi)
      have hj : j < bs.length := by omega
      rw [write_add hj, write_add (by simp; omega), getElem_append_left hj]
  · by_cases hi : i < a + bs.length + cs.length
    · obtain ⟨j, rfl⟩ := Nat.exists_eq_add_of_le (Nat.le_of_not_lt hlt)
      have hj : j < cs.length := by omega
      rw [write_add hj, Nat.add_assoc, write_add (by simp; omega),
        getElem_append_right (by omega)]
      congr 1
      omega
    · rw [write_of_le (by simp; omega), write_of_le (by omega), write_of_le (by omega)]

theorem write_read_self : write m a (read m a n) = m := by
  funext i
  by_cases h : a ≤ i ∧ i < a + n
  · obtain ⟨j, rfl⟩ := Nat.exists_eq_add_of_le h.1
    rw [write_add (by simp; omega), getElem_read]
  · rcases Nat.lt_or_ge i a with hlt | hge
    · exact write_of_lt hlt
    · exact write_of_le (by simp; omega)

theorem patch_read (h : i + bs.length ≤ n) :
    patch (read m a n) i bs =
      read m a i ++ bs ++ read m (a + (i + bs.length)) (n - (i + bs.length)) := by
  have htake : (read m a n).take i = read m a i := by
    have hpart := take_drop_read (m := m) (a := a) (i := 0) (show 0 + i ≤ n by omega)
    simpa using hpart
  have hdrop : (read m a n).drop (i + bs.length) =
      read m (a + (i + bs.length)) (n - (i + bs.length)) := by
    have hpart := take_drop_read (m := m) (a := a) (i := i + bs.length)
      (show i + bs.length + (n - (i + bs.length)) ≤ n by omega)
    rwa [take_of_length_le (by simp)] at hpart
  rw [patch, htake, hdrop]

/-- **Read, modify, write** writes the modified cells only. -/
theorem write_patch (h : i + bs.length ≤ n) :
    write m a (patch (read m a n) i bs) = write m (a + i) bs := by
  have hrest : read m (a + (i + bs.length)) (n - (i + bs.length)) =
      read (write m (a + i) bs) (a + (i + bs.length)) (n - (i + bs.length)) :=
    (read_write_of_disjoint (by omega)).symm
  rw [patch_read h, write_append, write_append, write_read_self, length_read, length_append,
    length_read, hrest, write_read_self]

theorem read_write_patch (h : i + bs.length ≤ n) :
    read (write m (a + i) bs) a n = patch (read m a n) i bs := by
  have hlen : (patch (read m a n) i bs).length = n := by
    simp [patch]
    omega
  have hread : read (write m a (patch (read m a n) i bs)) a (patch (read m a n) i bs).length =
      patch (read m a n) i bs := read_write_self
  rwa [hlen, write_patch h] at hread

theorem length_patch (h : i + cs.length ≤ bs.length) : (patch bs i cs).length = bs.length := by
  simp [patch]
  omega

/-! ## little-endian numbers -/

/-- A 32-bit word. -/
def le32 (n : Nat) : List UInt8 :=
  [UInt8.ofNat n, UInt8.ofNat (n / 256), UInt8.ofNat (n / 65536), UInt8.ofNat (n / 16777216)]

/-- The number of its bytes. -/
def ofLe : List UInt8 → Nat
  | [] => 0
  | b :: bs => b.toNat + 256 * ofLe bs

@[simp] theorem length_le32 : (le32 n).length = 4 := rfl

theorem ofLe_le32 (h : n < 2 ^ 32) : ofLe (le32 n) = n := by
  simp only [le32, ofLe, UInt8.toNat_ofNat']
  omega

theorem ofLe_lt (bs : List UInt8) : ofLe bs < 256 ^ bs.length := by
  induction bs with
  | nil => exact Nat.one_pos
  | cons b bs ih =>
    have hb := b.toNat_lt
    rw [ofLe, length_cons, Nat.pow_succ]
    omega

/-! ## words in memory -/

section Words

variable {m m' : Nat → UInt8} {dst src c : Nat} {v : UInt8}

/-- The word at an address. -/
def word (m : Nat → UInt8) (a : Nat) : Nat := ofLe (read m a 4)

/-- A word is written. -/
def setWord (m : Nat → UInt8) (a n : Nat) : Nat → UInt8 := write m a (le32 n)

theorem word_lt : word m a < 2 ^ 32 := by
  have hlt := ofLe_lt (read m a 4)
  rwa [length_read] at hlt

theorem word_congr (h : ∀ i, a ≤ i → i < a + 4 → m' i = m i) : word m' a = word m a := by
  rw [word, word]
  exact congrArg ofLe (read_congr fun i hi => h (a + i) (by omega) (by omega))

theorem word_setWord_self (h : n < 2 ^ 32) : word (setWord m a n) a = n := by
  have hread : read (write m a (le32 n)) a 4 = le32 n := read_write_self
  rw [word, setWord, hread, ofLe_le32 h]

theorem setWord_of_outside (h : i < a ∨ a + 4 ≤ i) : setWord m a n i = m i := by
  rcases h with h | h
  · exact write_of_lt h
  · exact write_of_le h

theorem word_setWord_of_disjoint (h : a + 4 ≤ b ∨ b + 4 ≤ a) : word (setWord m b n) a = word m a :=
  word_congr fun i _ _ => setWord_of_outside (by omega)

/-! ## memset and memcpy -/

/-- The `n` bytes from `a` on are set to `v`. -/
def setRange (m : Nat → UInt8) (a n : Nat) (v : UInt8) : Nat → UInt8 := fun i =>
  if a ≤ i ∧ i < a + n then v else m i

/-- The `n` bytes from `src` on are copied to `dst`. -/
def copyRange (m : Nat → UInt8) (dst src n : Nat) : Nat → UInt8 := fun i =>
  if dst ≤ i ∧ i < dst + n then m (src + (i - dst)) else m i

theorem setRange_of_outside (h : i < a ∨ a + n ≤ i) : setRange m a n v i = m i := if_neg (by omega)

theorem copyRange_of_outside (h : i < dst ∨ dst + n ≤ i) : copyRange m dst src n i = m i :=
  if_neg (by omega)

end Words

end Bytes
