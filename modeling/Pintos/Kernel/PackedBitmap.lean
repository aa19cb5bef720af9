import Pintos.Kernel.Bitmap

/-!
# Pintos.Kernel.PackedBitmap

The bitmaps of `lib/kernel/bitmap.c` as they lie in memory: bit `i` is bit
`i % 32` of element `i / 32`.  A bitmap of the model, an array of booleans, is
the `view` of a packed one.  The view keeps the bits beyond `bit_cnt` that share
the last element, so an equation between views also says which bits stay.
-/

namespace Pintos

open FirstFit Function List Option

/-- `struct bitmap`; `bit_cnt` is a `size_t`. -/
structure PackedBitmap where
  bitCnt : Nat
  bits : Nat → UInt32
  bitCnt_lt : bitCnt < sizeTSize

/-- `elem_idx`. -/
def elemIdx (bitIdx : Nat) : Nat := bitIdx / 32

/-- `bit_mask`. -/
def bitMask (bitIdx : Nat) : UInt32 := 1 <<< UInt32.ofNat (bitIdx % 32)

namespace PackedBitmap

/-- `bitmap_mark`; the instruction is `orl`. -/
def mark (b : PackedBitmap) (bitIdx : Nat) : PackedBitmap :=
  let idx := elemIdx bitIdx
  { b with bits := update b.bits idx (b.bits idx ||| bitMask bitIdx) }

/-- `bitmap_reset`; the instruction is `andl`. -/
def reset (b : PackedBitmap) (bitIdx : Nat) : PackedBitmap :=
  let idx := elemIdx bitIdx
  { b with bits := update b.bits idx (b.bits idx &&& ~~~ bitMask bitIdx) }

/-- `bitmap_flip`; the instruction is `xorl`. -/
def flip (b : PackedBitmap) (bitIdx : Nat) : PackedBitmap :=
  let idx := elemIdx bitIdx
  { b with bits := update b.bits idx (b.bits idx ^^^ bitMask bitIdx) }

/-- `bitmap_set`. -/
def set (b : PackedBitmap) (idx : Nat) (value : Bool) : Option PackedBitmap :=
  if idx < b.bitCnt then some (if value then b.mark idx else b.reset idx) else none

/-- `bitmap_test`. -/
def test (b : PackedBitmap) (idx : Nat) : Option Bool :=
  if idx < b.bitCnt then some (b.bits (elemIdx idx) &&& bitMask idx != 0) else none

/-- `bitmap_set_multiple`. -/
def setMultiple (b : PackedBitmap) (start cnt : Nat) (value : Bool) : Option PackedBitmap :=
  if start ≤ b.bitCnt ∧ (start + cnt) % sizeTSize ≤ b.bitCnt then
    (range cnt).foldlM (fun b i => b.set (start + i) value) b
  else
    none

/-- `bitmap_count`. -/
def count (b : PackedBitmap) (start cnt : Nat) (value : Bool) : Option Nat :=
  if start ≤ b.bitCnt ∧ (start + cnt) % sizeTSize ≤ b.bitCnt then
    (range cnt).foldlM (fun valueCnt i =>
      (b.test (start + i)).map fun bit => if bit = value then valueCnt + 1 else valueCnt) 0
  else
    none

/-- The loop of `bitmap_contains`, `left` bits before its end. -/
def containsFrom (b : PackedBitmap) (value : Bool) (i : Nat) : Nat → Option Bool
  | 0 => some false
  | left + 1 =>
    (b.test i).bind fun bit =>
      if bit = value then some true else b.containsFrom value (i + 1) left

/-- `bitmap_contains`. -/
def contains (b : PackedBitmap) (start cnt : Nat) (value : Bool) : Option Bool :=
  if start ≤ b.bitCnt ∧ (start + cnt) % sizeTSize ≤ b.bitCnt then
    b.containsFrom value start cnt
  else
    none

/-- The loop of `bitmap_scan`, `left` places before its end. -/
def scanFrom (b : PackedBitmap) (cnt : Nat) (value : Bool) (i : Nat) : Nat → Option Nat
  | 0 => some bitmapError
  | left + 1 =>
    (b.contains i cnt (!value)).bind fun found =>
      if found then b.scanFrom cnt value (i + 1) left else some i

/-- `bitmap_scan`. -/
def scan (b : PackedBitmap) (start cnt : Nat) (value : Bool) : Option Nat :=
  if start ≤ b.bitCnt then
    if cnt ≤ b.bitCnt then
      b.scanFrom cnt value start (b.bitCnt - cnt + 1 - start)
    else
      some bitmapError
  else
    none

/-- `bitmap_scan_and_flip`. -/
def scanAndFlip (b : PackedBitmap) (start cnt : Nat) (value : Bool) :
    Option (PackedBitmap × Nat) :=
  (b.scan start cnt value).bind fun idx =>
    if idx = bitmapError then
      some (b, idx)
    else
      (b.setMultiple idx cnt (!value)).map fun b => (b, idx)

/-- The array of booleans that the elements hold. -/
def view (b : PackedBitmap) : Bitmap :=
  ⟨b.bitCnt, fun i => b.bits (elemIdx i) &&& bitMask i != 0⟩

variable {b : PackedBitmap} {start cnt i : Nat} {value : Bool}

theorem view_bitCnt (b : PackedBitmap) : b.view.bitCnt = b.bitCnt := rfl

/-! ## bits of an element -/

theorem toNat_bitMask (i : Nat) : (bitMask i).toNat = 2 ^ (i % 32) := by
  have hlt : i % 32 < 32 := Nat.mod_lt _ (by decide)
  have hpow : 2 ^ (i % 32) < 2 ^ 32 := Nat.pow_lt_pow_right (by decide) hlt
  rw [bitMask, UInt32.toNat_shiftLeft, UInt32.toNat_ofNat']
  simp [Nat.shiftLeft_eq]
  omega

theorem and_bitMask_bne_zero (w : UInt32) (i : Nat) :
    (w &&& bitMask i != 0) = w.toNat.testBit (i % 32) := by
  rw [Bool.eq_iff_iff, bne_iff_ne, ne_eq, ← UInt32.toNat_inj, UInt32.toNat_and, toNat_bitMask,
    Nat.and_two_pow]
  cases w.toNat.testBit (i % 32) <;> simp

theorem testBit_not (w : UInt32) {k : Nat} (hk : k < 32) :
    (~~~ w).toNat.testBit k = !w.toNat.testBit k := by
  have hlt : w.toNat < 2 ^ 32 := w.toNat_lt
  have hnot : UInt32.size - 1 - w.toNat = 2 ^ 32 - (w.toNat + 1) := by
    simp [UInt32.size]
  rw [UInt32.toNat_not, hnot, Nat.testBit_two_pow_sub_succ hlt, decide_eq_true hk, Bool.true_and]

/-- Writing an element that differs in one bit writes that bit of the view. -/
theorem view_write {w : UInt32} (h : ∀ k < 32,
    w.toNat.testBit k = if i % 32 = k then value else (b.bits (elemIdx i)).toNat.testBit k) :
    view { b with bits := update b.bits (elemIdx i) w } =
      { b.view with bits := update b.view.bits i value } := by
  unfold view
  congr 1
  funext j
  simp only [and_bitMask_bne_zero, update_apply]
  by_cases helem : elemIdx j = elemIdx i
  · have hbit : i % 32 = j % 32 ↔ j = i := by
      unfold elemIdx at helem
      omega
    rw [if_pos helem, h _ (Nat.mod_lt _ (by decide)), helem]
    exact if_congr hbit rfl rfl
  · rw [if_neg helem, if_neg fun hji => helem (congrArg elemIdx hji)]

variable (b)

theorem view_mark (i : Nat) :
    (b.mark i).view = { b.view with bits := update b.view.bits i true } := by
  refine view_write fun k _ => ?_
  rw [UInt32.toNat_or, Nat.testBit_or, toNat_bitMask, Nat.testBit_two_pow]
  split <;> simp [*]

theorem view_reset (i : Nat) :
    (b.reset i).view = { b.view with bits := update b.view.bits i false } := by
  refine view_write fun k hk => ?_
  rw [UInt32.toNat_and, Nat.testBit_and, testBit_not _ hk, toNat_bitMask, Nat.testBit_two_pow]
  split <;> simp [*]

theorem view_flip (i : Nat) :
    (b.flip i).view = { b.view with bits := update b.view.bits i (!b.view.bits i) } := by
  refine view_write fun k _ => ?_
  rw [UInt32.toNat_xor, Nat.testBit_xor, toNat_bitMask, Nat.testBit_two_pow]
  split
  · next hik => simp [view, and_bitMask_bne_zero, hik]
  · next hik => simp [hik]

/-! ## the operations on views -/

theorem view_set (idx : Nat) (value : Bool) :
    (b.set idx value).map view = bitmapSet b.view idx value := by
  rw [set, bitmapSet, view_bitCnt]
  by_cases hidx : idx < b.bitCnt
  · rw [if_pos hidx, if_pos hidx]
    cases value with
    | true => exact congrArg some (view_mark b idx)
    | false => exact congrArg some (view_reset b idx)
  · rw [if_neg hidx, if_neg hidx]
    rfl

theorem view_foldlM_set (is : List Nat) :
    (is.foldlM (fun (b : PackedBitmap) i => b.set (start + i) value) b).map view =
      is.foldlM (fun b i => bitmapSet b (start + i) value) b.view := by
  induction is generalizing b with
  | nil => rfl
  | cons i is ih =>
    rw [foldlM_cons, foldlM_cons, ← view_set]
    cases b.set (start + i) value with
    | none => rfl
    | some b' => exact ih b'

theorem view_setMultiple (start cnt : Nat) (value : Bool) :
    (b.setMultiple start cnt value).map view = bitmapSetMultiple b.view start cnt value := by
  rw [setMultiple, bitmapSetMultiple, view_bitCnt]
  by_cases hassert : start ≤ b.bitCnt ∧ (start + cnt) % sizeTSize ≤ b.bitCnt
  · rw [if_pos hassert, if_pos hassert, view_foldlM_set]
  · rw [if_neg hassert, if_neg hassert]
    rfl

variable {b} in
/-- `bitmap_count` counts. -/
theorem count_eq (h : start + cnt ≤ b.bitCnt) :
    b.count start cnt value =
      some ((range cnt).countP fun i => b.view.bits (start + i) = value) := by
  have hassert : start ≤ b.bitCnt ∧ (start + cnt) % sizeTSize ≤ b.bitCnt := by
    rw [Nat.mod_eq_of_lt (Nat.lt_of_le_of_lt h b.bitCnt_lt)]
    omega
  rw [count, if_pos hassert]
  clear hassert
  induction cnt with
  | zero => rfl
  | succ cnt ih =>
    have htest : b.test (start + cnt) = some (b.view.bits (start + cnt)) := if_pos (by omega)
    rw [range_succ, foldlM_append, ih (by omega), countP_append]
    by_cases hbit : b.view.bits (start + cnt) = value <;> simp [htest, hbit]

theorem containsFrom_eq (value : Bool) (i left : Nat) :
    b.containsFrom value i left = Pintos.containsFrom b.view value i left := by
  induction left generalizing i with
  | zero => rfl
  | succ left ih =>
    simp only [containsFrom, Pintos.containsFrom, ih]
    rfl

theorem contains_eq (start cnt : Nat) (value : Bool) :
    b.contains start cnt value = bitmapContains b.view start cnt value := by
  rw [contains, containsFrom_eq]
  rfl

theorem scanFrom_eq (cnt : Nat) (value : Bool) (i left : Nat) :
    b.scanFrom cnt value i left = Pintos.scanFrom b.view cnt value i left := by
  induction left generalizing i with
  | zero => rfl
  | succ left ih => simp only [scanFrom, Pintos.scanFrom, ih, contains_eq]

theorem scan_eq (start cnt : Nat) (value : Bool) :
    b.scan start cnt value = bitmapScan b.view start cnt value := by
  rw [scan, scanFrom_eq]
  rfl

theorem view_scanAndFlip (start cnt : Nat) (value : Bool) :
    (b.scanAndFlip start cnt value).map (Prod.map view id) =
      bitmapScanAndFlip b.view start cnt value := by
  rw [scanAndFlip, bitmapScanAndFlip, scan_eq]
  cases bitmapScan b.view start cnt value with
  | none => rfl
  | some idx =>
    rw [bind_some, bind_some]
    split
    · rfl
    · rw [← view_setMultiple, Option.map_map, Option.map_map]
      rfl

/-- **The operations on packed elements are those on an array of booleans**: each
writes the bits it names and no other, a scan returns the least index of a run
or `BITMAP_ERROR`, and what it finds is what is flipped. -/
theorem packed_refines (b : PackedBitmap) :
    (∀ idx value, (b.set idx value).map view = bitmapSet b.view idx value) ∧
    (∀ idx, (b.flip idx).view =
      { b.view with bits := update b.view.bits idx (!b.view.bits idx) }) ∧
    (∀ idx, b.test idx = bitmapTest b.view idx) ∧
    (∀ start cnt value, start + cnt ≤ b.bitCnt →
      (b.setMultiple start cnt value).map view =
        some { b.view with bits := fill b.view.bits cnt start value } ∧
      b.count start cnt value =
        some ((range cnt).countP fun i => b.view.bits (start + i) = value) ∧
      ∃ found, b.contains start cnt value = some found ∧
        (found = true ↔ ∃ j, start ≤ j ∧ j < start + cnt ∧ b.view.bits j = value)) ∧
    ∀ start cnt value, start ≤ b.bitCnt →
      (∃ k, b.scan start cnt value = some k ∧
        IsLeast (runsFrom b.view.bits value b.bitCnt cnt start) k ∧
        (b.scanAndFlip start cnt value).map (Prod.map view id) =
          some ({ b.view with bits := fill b.view.bits cnt k (!value) }, k)) ∨
      b.scan start cnt value = some bitmapError ∧
        runsFrom b.view.bits value b.bitCnt cnt start = ∅ ∧
        (b.scanAndFlip start cnt value).map (Prod.map view id) = some (b.view, bitmapError) := by
  have hsize : b.view.bitCnt < sizeTSize := b.bitCnt_lt
  refine ⟨view_set b, view_flip b, fun _ => rfl, ?_, ?_⟩
  · intro start cnt value h
    rw [view_setMultiple, bitmapSetMultiple_of_le hsize h, contains_eq]
    exact ⟨rfl, count_eq h, bitmapContains_spec hsize h⟩
  · intro start cnt value h
    rw [scan_eq, view_scanAndFlip]
    exact bitmapScanAndFlip_least hsize h cnt value

theorem packed_refines_scan :
    ∃ b : PackedBitmap, b.bitCnt = 70 ∧ b.view.bits 33 = false ∧
      (b.scanAndFlip 33 2 true).map (Prod.map view id) =
        some ({ b.view with bits := fill b.view.bits 2 34 false }, 34) := by
  let b : PackedBitmap := ⟨70, update (fun _ => 0xffffffff) 1 0xfffffffd, by decide⟩
  refine ⟨b, rfl, by decide, ?_⟩
  have hscan : b.scan 33 2 true = some 34 := by decide +kernel
  rcases (packed_refines b).2.2.2.2 33 2 true (by decide) with ⟨k, hk, -, hflip⟩ | ⟨herr, -⟩
  · cases hscan.symm.trans hk
    exact hflip
  · exact absurd (hscan.symm.trans herr) (by decide)

end PackedBitmap

end Pintos
