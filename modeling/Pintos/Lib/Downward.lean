import Pintos.Lib.Bytes

/-!
# Pintos.Lib.Downward

A block of bytes that is written downwards from an address `top`: each new part is put in front
of what is there (`write_downward`), and each part is found at its distance from `top`
(`read_downward`).

`StringAt` is a string with a zero byte behind it.
-/

namespace Bytes

open Function List

variable {m m' : Nat → UInt8} {a b n top : Nat} {bs cs pre post : List UInt8} {i lo hi : Nat}
  {rs : List (Nat × Nat)}

/-! ## blocks -/

/-- The store with `bs` right below `top`. -/
def below (m : Nat → UInt8) (top : Nat) (bs : List UInt8) : Nat → UInt8 :=
  write m (top - bs.length) bs

@[simp] theorem below_nil : below m top [] = m := write_nil

theorem below_of_le (h : bs.length ≤ top) (hi : top ≤ i) : below m top bs i = m i :=
  write_of_le (by omega)

theorem write_comm (h : a + bs.length ≤ b ∨ b + cs.length ≤ a) :
    write (write m a bs) b cs = write (write m b cs) a bs := by
  funext i
  by_cases ha : a ≤ i ∧ i < a + bs.length
  · obtain ⟨j, rfl⟩ := Nat.exists_eq_add_of_le ha.1
    have hj : j < bs.length := by omega
    rw [write_add hj]
    rcases h with h | h
    · rw [write_of_lt (by omega), write_add hj]
    · rw [write_of_le (by omega), write_add hj]
  · have hout : write (write m b cs) a bs i = write m b cs i := by
      rcases Nat.lt_or_ge i a with hlt | hge
      · exact write_of_lt hlt
      · exact write_of_le (by omega)
    have hin : write m a bs i = m i := by
      rcases Nat.lt_or_ge i a with hlt | hge
      · exact write_of_lt hlt
      · exact write_of_le (by omega)
    rw [hout]
    unfold write at hin ⊢
    rw [hin]

/-- **A new part is put in front of the block.** -/
theorem write_downward (h : cs.length + bs.length ≤ top) :
    write (below m top bs) (top - bs.length - cs.length) cs = below m top (cs ++ bs) := by
  have hbase : top - (cs ++ bs).length = top - bs.length - cs.length := by
    rw [length_append]
    omega
  have hnext : top - bs.length - cs.length + cs.length = top - bs.length := by omega
  unfold below
  rw [hbase, write_append, hnext, write_comm (.inr (by omega))]

/-- **A part of the block is found at its distance from `top`.** -/
theorem read_downward (h : (pre ++ (bs ++ post)).length ≤ top) (ha : a + (bs ++ post).length = top)
    (hn : n = bs.length) : read (below m top (pre ++ (bs ++ post))) a n = bs := by
  rw [length_append] at h ha
  rw [length_append] at h
  unfold below
  rw [length_append, length_append, hn,
    read_write_of_subset (by omega) (by simp only [length_append]; omega)]
  have hdrop : a - (top - (pre.length + (bs.length + post.length))) = pre.length := by omega
  rw [hdrop, drop_left, take_left]

theorem word_downward {v : Nat} (h : (pre ++ (le32 v ++ post)).length ≤ top)
    (ha : a + (le32 v ++ post).length = top) (hv : v < 2 ^ 32) :
    word (below m top (pre ++ (le32 v ++ post))) a = v := by
  have hread : read (below m top (pre ++ (le32 v ++ post))) a 4 = le32 v :=
    read_downward h ha length_le32.symm
  rw [word, hread, ofLe_le32 hv]

/-- The parts of a block, one after the other: a part is found below the parts behind it. -/
theorem read_part {parts : List (List UInt8)} (hi : i < parts.length)
    (h : (pre ++ (parts.flatten ++ post)).length ≤ top)
    (ha : a + ((parts.drop i).flatten ++ post).length = top) (hn : n = parts[i].length) :
    read (below m top (pre ++ (parts.flatten ++ post))) a n = parts[i] := by
  have hdrop : parts.drop i = parts[i] :: parts.drop (i + 1) := drop_eq_getElem_cons hi
  have hparts : pre ++ (parts.flatten ++ post) =
      pre ++ (parts.take i).flatten ++ (parts[i] ++ ((parts.drop (i + 1)).flatten ++ post)) := by
    have hsplit : parts.flatten = (parts.take i).flatten ++ (parts.drop i).flatten := by
      rw [← flatten_append, take_append_drop]
    rw [hsplit, hdrop, flatten_cons]
    simp only [append_assoc]
  rw [hdrop, flatten_cons, append_assoc] at ha
  rw [hparts] at h ⊢
  exact read_downward h ha hn

/-! ## regions -/

/-- The regions, each a start and a length, fill the addresses from `lo` to `hi` one after the
other. -/
def Tiles (lo : Nat) : List (Nat × Nat) → Nat → Prop
  | [], hi => lo = hi
  | r :: rs, hi => r.1 = lo ∧ Tiles (lo + r.2) rs hi

theorem Tiles.inside (h : Tiles lo rs hi) :
    lo ≤ hi ∧ ∀ r ∈ rs, lo ≤ r.1 ∧ r.1 + r.2 ≤ hi := by
  induction rs generalizing lo with
  | nil => exact ⟨Nat.le_of_eq h, by simp⟩
  | cons r rs ih =>
    obtain ⟨hr, hrest⟩ := h
    obtain ⟨hle, hin⟩ := ih hrest
    refine ⟨by omega, forall_mem_cons.mpr ⟨⟨by omega, by omega⟩, fun q hq => ?_⟩⟩
    obtain ⟨hlo, hhi⟩ := hin q hq
    exact ⟨by omega, hhi⟩

/-- Regions that fill an interval are disjoint. -/
theorem Tiles.disjoint (h : Tiles lo rs hi) :
    rs.Pairwise fun r q => r.1 + r.2 ≤ q.1 := by
  induction rs generalizing lo with
  | nil => exact .nil
  | cons r rs ih =>
    obtain ⟨hr, hrest⟩ := h
    refine .cons (fun q hq => ?_) (ih hrest)
    obtain ⟨hlo, -⟩ := hrest.inside.2 q hq
    omega

/-! ## strings -/

/-- The string `bs` and a zero byte. -/
def StringAt (m : Nat → UInt8) (a : Nat) (bs : List UInt8) : Prop :=
  read m a (bs.length + 1) = bs ++ [0]

theorem read_succ : read m a (n + 1) = m a :: read m (a + 1) n := by
  rw [Nat.add_comm, read_append]
  rfl

theorem stringAt_nil : StringAt m a [] ↔ m a = 0 := by
  unfold StringAt
  rw [length_nil, Nat.zero_add, read_succ, read_zero]
  simp

theorem stringAt_cons {c : UInt8} : StringAt m a (c :: cs) ↔ m a = c ∧ StringAt m (a + 1) cs := by
  unfold StringAt
  rw [length_cons, read_succ, cons_append, cons_eq_cons]

theorem StringAt.congr (h : StringAt m a bs) (hsame : ∀ i, a ≤ i → i ≤ a + bs.length → m' i = m i) :
    StringAt m' a bs := by
  unfold StringAt at h ⊢
  rw [← h]
  exact read_congr fun i hi => hsame (a + i) (by omega) (by omega)

theorem StringAt.right (h : StringAt m a (bs ++ cs)) : StringAt m (a + bs.length) cs := by
  induction bs generalizing a with
  | nil => exact h
  | cons b bs ih =>
    have hrest := ih (stringAt_cons.mp h).2
    rwa [Nat.add_assoc, Nat.add_comm 1] at hrest

theorem StringAt.left (h : StringAt m a (bs ++ cs)) :
    StringAt (update m (a + bs.length) 0) a bs := by
  induction bs generalizing a with
  | nil => exact stringAt_nil.mpr (update_self ..)
  | cons b bs ih =>
    obtain ⟨hb, hrest⟩ := stringAt_cons.mp h
    have haddr : a + (b :: bs).length = a + 1 + bs.length := by
      rw [length_cons]
      omega
    rw [haddr]
    refine stringAt_cons.mpr ⟨?_, ih hrest⟩
    rwa [update_of_ne (by omega)]

end Bytes
