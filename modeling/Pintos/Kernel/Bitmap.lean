import Pintos.Lib.FirstFit

/-!
# Pintos.Kernel.Bitmap

The bitmaps of `lib/kernel/bitmap.c`.  A `size_t` is a number below `2 ^ 32`
and `BITMAP_ERROR` is the largest of them; a function whose `ASSERT` fails
returns `none`.

`bitmapScan_spec` says that `bitmap_scan` is first fit, and
`bitmapSetMultiple_of_le` that `bitmap_set_multiple` writes one run.
-/

namespace Pintos

open FirstFit Function List Option

/-- The number of values of a `size_t`. -/
def sizeTSize : Nat := 2 ^ 32

/-- `BITMAP_ERROR`, which is `SIZE_MAX`. -/
def bitmapError : Nat := sizeTSize - 1

/-- `struct bitmap`. -/
structure Bitmap where
  bitCnt : Nat
  bits : Nat → Bool

/-- `elem_cnt`, in `size_t`. -/
def elemCnt (bitCnt : Nat) : Nat := (bitCnt + 31) % sizeTSize / 32

/-- `byte_cnt`. -/
def byteCnt (bitCnt : Nat) : Nat := 4 * elemCnt bitCnt

/-- `bitmap_create`; all bits are false. -/
def bitmapCreate (bitCnt : Nat) : Bitmap := ⟨bitCnt, fun _ => false⟩

/-- `bitmap_set`. -/
def bitmapSet (b : Bitmap) (idx : Nat) (value : Bool) : Option Bitmap :=
  if idx < b.bitCnt then some { b with bits := update b.bits idx value } else none

/-- `bitmap_test`. -/
def bitmapTest (b : Bitmap) (idx : Nat) : Option Bool :=
  if idx < b.bitCnt then some (b.bits idx) else none

/-- `bitmap_set_multiple`; the sum in its second `ASSERT` is a `size_t`. -/
def bitmapSetMultiple (b : Bitmap) (start cnt : Nat) (value : Bool) : Option Bitmap :=
  if start ≤ b.bitCnt ∧ (start + cnt) % sizeTSize ≤ b.bitCnt then
    (range cnt).foldlM (fun b i => bitmapSet b (start + i) value) b
  else
    none

/-- The loop of `bitmap_contains`, `left` bits before its end. -/
def containsFrom (b : Bitmap) (value : Bool) (i : Nat) : Nat → Option Bool
  | 0 => some false
  | left + 1 =>
    (bitmapTest b i).bind fun bit =>
      if bit = value then some true else containsFrom b value (i + 1) left

/-- `bitmap_contains`. -/
def bitmapContains (b : Bitmap) (start cnt : Nat) (value : Bool) : Option Bool :=
  if start ≤ b.bitCnt ∧ (start + cnt) % sizeTSize ≤ b.bitCnt then
    containsFrom b value start cnt
  else
    none

/-- The loop of `bitmap_scan`, `left` places before its end. -/
def scanFrom (b : Bitmap) (cnt : Nat) (value : Bool) (i : Nat) : Nat → Option Nat
  | 0 => some bitmapError
  | left + 1 =>
    (bitmapContains b i cnt (!value)).bind fun found =>
      if found then scanFrom b cnt value (i + 1) left else some i

/-- `bitmap_scan`. -/
def bitmapScan (b : Bitmap) (start cnt : Nat) (value : Bool) : Option Nat :=
  if start ≤ b.bitCnt then
    if cnt ≤ b.bitCnt then
      scanFrom b cnt value start (b.bitCnt - cnt + 1 - start)
    else
      some bitmapError
  else
    none

/-- `bitmap_scan_and_flip`. -/
def bitmapScanAndFlip (b : Bitmap) (start cnt : Nat) (value : Bool) : Option (Bitmap × Nat) :=
  (bitmapScan b start cnt value).bind fun idx =>
    if idx = bitmapError then
      some (b, idx)
    else
      (bitmapSetMultiple b idx cnt (!value)).map fun b => (b, idx)

/-- `bitmap_buf_size`; a `struct bitmap` has 8 bytes. -/
def bitmapBufSize (bitCnt : Nat) : Nat := 8 + byteCnt bitCnt

/-- `bitmap_create_in_buf`; `junk` is in the memory of the bits. -/
def bitmapCreateInBuf (bitCnt blockSize : Nat) (junk : Nat → Bool) : Option Bitmap :=
  if blockSize ≥ bitmapBufSize bitCnt then
    bitmapSetMultiple ⟨bitCnt, junk⟩ 0 bitCnt false
  else
    none

variable {b b' : Bitmap} {start cnt idx i left : Nat} {value : Bool}

/-! ## writing -/

theorem foldlM_bitmapSet (h : start + cnt ≤ b.bitCnt) :
    (range cnt).foldlM (fun b i => bitmapSet b (start + i) value) b =
      some { b with bits := fill b.bits cnt start value } := by
  induction cnt with
  | zero =>
    rw [fill_zero]
    rfl
  | succ cnt ih =>
    rw [range_succ, foldlM_append, ih (by omega)]
    have hlt : start + cnt < b.bitCnt := by omega
    have hfill : update (fill b.bits cnt start value) (start + cnt) value =
        fill b.bits (cnt + 1) start value := by
      funext j
      simp only [update_apply, fill]
      split
      · rw [if_pos (by omega)]
      · exact if_congr (by omega) rfl rfl
    simp [bitmapSet, hlt, hfill]

/-- **`bitmap_set_multiple` writes one run.** -/
theorem bitmapSetMultiple_of_le (hsize : b.bitCnt < sizeTSize) (h : start + cnt ≤ b.bitCnt) :
    bitmapSetMultiple b start cnt value =
      some { b with bits := fill b.bits cnt start value } := by
  rw [bitmapSetMultiple, if_pos, foldlM_bitmapSet h]
  rw [Nat.mod_eq_of_lt (lt_of_le_of_lt h hsize)]
  omega

theorem foldlM_bitmapSet_bounds
    (h : (range cnt).foldlM (fun b i => bitmapSet b (start + i) value) b = some b') :
    cnt = 0 ∨ start + cnt ≤ b.bitCnt := by
  induction cnt generalizing b' with
  | zero => exact .inl rfl
  | succ cnt ih =>
    rw [range_succ, foldlM_append] at h
    obtain ⟨b₁, h₁, hlast⟩ := bind_eq_some_iff.mp h
    have hcnt : b₁.bitCnt = b.bitCnt := by
      rcases ih h₁ with rfl | hle
      · rw [some.inj h₁]
      · rw [foldlM_bitmapSet hle] at h₁
        rw [← some.inj h₁]
    simp only [foldlM_cons, foldlM_nil, bitmapSet] at hlast
    split at hlast
    · next hlt => exact .inr (by omega)
    · contradiction

theorem bitmapSetMultiple_eq_some (h : bitmapSetMultiple b start cnt value = some b') :
    (cnt = 0 ∨ start + cnt ≤ b.bitCnt) ∧ b' = { b with bits := fill b.bits cnt start value } := by
  unfold bitmapSetMultiple at h
  split at h
  · have hbounds := foldlM_bitmapSet_bounds h
    refine ⟨hbounds, ?_⟩
    rcases hbounds with rfl | hle
    · rw [fill_zero]
      exact (some.inj h).symm
    · rw [foldlM_bitmapSet hle] at h
      exact (some.inj h).symm
  · contradiction

theorem bitmapSetMultiple_bitmapError (hsize : b.bitCnt < sizeTSize) (hcnt : 1 < cnt) :
    bitmapSetMultiple b bitmapError cnt value = none := by
  cases h : bitmapSetMultiple b bitmapError cnt value with
  | none => rfl
  | some b' =>
    have hle := (bitmapSetMultiple_eq_some h).1
    unfold bitmapError at hle
    omega

/-! ## searching -/

theorem containsFrom_spec (h : i + left ≤ b.bitCnt) :
    ∃ found, containsFrom b value i left = some found ∧
      (found = true ↔ ∃ j, i ≤ j ∧ j < i + left ∧ b.bits j = value) := by
  induction left generalizing i with
  | zero =>
    refine ⟨false, rfl, nofun, ?_⟩
    rintro ⟨j, hij, hj, -⟩
    omega
  | succ left ih =>
    rw [containsFrom, bitmapTest, if_pos (by omega), bind_some]
    split
    · next hbit => exact ⟨true, rfl, fun _ => ⟨i, le_refl i, by omega, hbit⟩, fun _ => rfl⟩
    · next hbit =>
      obtain ⟨found, heq, hiff⟩ := ih (i := i + 1) (by omega)
      refine ⟨found, heq, hiff.trans ⟨?_, ?_⟩⟩
      · rintro ⟨j, hij, hj, hv⟩
        exact ⟨j, by omega, by omega, hv⟩
      · rintro ⟨j, hij, hj, hv⟩
        have hne : j ≠ i := fun he => hbit (he ▸ hv)
        exact ⟨j, by omega, by omega, hv⟩

section

variable (hsize : b.bitCnt < sizeTSize)
include hsize

theorem bitmapContains_spec (h : start + cnt ≤ b.bitCnt) :
    ∃ found, bitmapContains b start cnt value = some found ∧
      (found = true ↔ ∃ j, start ≤ j ∧ j < start + cnt ∧ b.bits j = value) := by
  obtain ⟨found, heq, hiff⟩ := containsFrom_spec h
  refine ⟨found, ?_, hiff⟩
  rw [bitmapContains, if_pos, heq]
  rw [Nat.mod_eq_of_lt (lt_of_le_of_lt h hsize)]
  omega

/-- `bitmap_contains` as `bitmap_scan` asks it. -/
theorem bitmapContains_not (h : start + cnt ≤ b.bitCnt) :
    ∃ found, bitmapContains b start cnt (!value) = some found ∧
      (found = false ↔ start ∈ runsFrom b.bits value b.bitCnt cnt start) := by
  obtain ⟨found, heq, hiff⟩ := bitmapContains_spec hsize h
  refine ⟨found, heq, ?_⟩
  rw [← Bool.not_eq_true, hiff]
  constructor
  · intro hnone
    refine ⟨le_refl start, h, fun j hij hj => ?_⟩
    by_contra hv
    exact hnone ⟨j, hij, hj, Bool.eq_not.mpr hv⟩
  · rintro ⟨-, -, hrun⟩ ⟨j, hij, hj, hv⟩
    exact Bool.eq_not.mp hv (hrun j hij hj)

/-- The loop of `bitmap_scan`: it stops at the first run, or passes all of them. -/
theorem scanFrom_spec (hcnt : cnt ≤ b.bitCnt) (hleft : left = b.bitCnt - cnt + 1 - i) :
    (∃ k, scanFrom b cnt value i left = some k ∧
      IsLeast (runsFrom b.bits value b.bitCnt cnt i) k) ∨
    scanFrom b cnt value i left = some bitmapError ∧
      runsFrom b.bits value b.bitCnt cnt i = ∅ := by
  induction left generalizing i with
  | zero => exact .inr ⟨rfl, runsFrom_of_lt (by omega)⟩
  | succ left ih =>
    have hle : i + cnt ≤ b.bitCnt := by omega
    obtain ⟨found, hfound, hrun⟩ := bitmapContains_not hsize hle
    rw [scanFrom, hfound, bind_some]
    cases found with
    | false => exact .inl ⟨i, rfl, hrun.mp rfl, fun j hj => hj.1⟩
    | true =>
      rw [← runsFrom_succ fun hi => absurd (hrun.mpr hi) (by decide)]
      exact ih (by omega)

/-- **`bitmap_scan` returns the least index** of a run of `cnt` bits `value` from
`start` on, or `BITMAP_ERROR` when there is none. -/
theorem bitmapScan_least (hstart : start ≤ b.bitCnt) (cnt : Nat) (value : Bool) :
    (∃ k, bitmapScan b start cnt value = some k ∧
      IsLeast (runsFrom b.bits value b.bitCnt cnt start) k) ∨
    bitmapScan b start cnt value = some bitmapError ∧
      runsFrom b.bits value b.bitCnt cnt start = ∅ := by
  rw [bitmapScan, if_pos hstart]
  split
  · next hcnt => exact scanFrom_spec hsize hcnt rfl
  · exact .inr ⟨rfl, runsFrom_of_lt (by omega)⟩

/-- `bitmap_scan_and_flip` flips the bits that `bitmap_scan` finds; at
`SIZE_MAX` only a run of no bits can be found. -/
theorem bitmapScanAndFlip_least (hstart : start ≤ b.bitCnt) (cnt : Nat) (value : Bool) :
    (∃ k, bitmapScan b start cnt value = some k ∧
      IsLeast (runsFrom b.bits value b.bitCnt cnt start) k ∧
      bitmapScanAndFlip b start cnt value =
        some ({ b with bits := fill b.bits cnt k (!value) }, k)) ∨
    bitmapScan b start cnt value = some bitmapError ∧
      runsFrom b.bits value b.bitCnt cnt start = ∅ ∧
      bitmapScanAndFlip b start cnt value = some (b, bitmapError) := by
  unfold bitmapScanAndFlip
  rcases bitmapScan_least hsize hstart cnt value with ⟨k, hk, hleast⟩ | ⟨herr, hnone⟩
  · refine .inl ⟨k, hk, hleast, ?_⟩
    have hfits : k + cnt ≤ b.bitCnt := hleast.1.2.1
    rw [hk, bind_some]
    split
    · next heq =>
      obtain rfl : cnt = 0 := by
        unfold bitmapError at heq
        omega
      rw [fill_zero]
    · rw [bitmapSetMultiple_of_le hsize hfits, map_some]
  · refine .inr ⟨herr, hnone, ?_⟩
    rw [herr, bind_some, if_pos rfl]

/-- **`bitmap_scan` is first fit**: it finds the first run of clear bits, or
returns `BITMAP_ERROR` when there is none. -/
theorem bitmapScan_spec (cnt : Nat) :
    (∃ k, bitmapScan b 0 cnt false = some k ∧ IsFirst b.bits b.bitCnt cnt k) ∨
    bitmapScan b 0 cnt false = some bitmapError ∧ ∀ j, j + cnt ≤ b.bitCnt → ¬ Clear b.bits cnt j := by
  rcases bitmapScan_least hsize (Nat.zero_le _) cnt false with ⟨k, hk, hleast⟩ | ⟨herr, hnone⟩
  · exact .inl ⟨k, hk, .of_isLeast hleast⟩
  · exact .inr ⟨herr, not_clear_of_runsFrom hnone⟩

/-- `bitmap_scan_and_flip` takes the first clear run, or nothing when there is none. -/
theorem bitmapScanAndFlip_spec (cnt : Nat) :
    (∃ k, bitmapScanAndFlip b 0 cnt false =
        some ({ b with bits := fill b.bits cnt k true }, k) ∧ IsFirst b.bits b.bitCnt cnt k ∧
        k ≠ bitmapError) ∨
      bitmapScanAndFlip b 0 cnt false = some (b, bitmapError) ∧
        ∀ j, j + cnt ≤ b.bitCnt → ¬ Clear b.bits cnt j := by
  rcases bitmapScanAndFlip_least hsize (Nat.zero_le _) cnt false with
    ⟨k, -, hleast, hflip⟩ | ⟨-, hnone, hflip⟩
  · have hfirst := IsFirst.of_isLeast hleast
    refine .inl ⟨k, hflip, hfirst, ?_⟩
    have hfits := hfirst.fits
    have hzero : cnt = 0 → k = 0 := by
      rintro rfl
      exact Nat.le_zero.mp (hfirst.least fun j _ hj => absurd hj (by omega))
    unfold bitmapError
    unfold sizeTSize at hsize ⊢
    omega
  · exact .inr ⟨hflip, not_clear_of_runsFrom hnone⟩

end

theorem fill_one (bits : Nat → Bool) (i : Nat) (v : Bool) : fill bits 1 i v = update bits i v := by
  funext j
  simp only [fill, update_apply]
  exact if_congr (by omega) rfl rfl

end Pintos
