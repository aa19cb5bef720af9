import Pintos.Lib.Division

/-!
# Pintos.Kernel.Arithmetic

The 64-bit division routines of `lib/arithmetic.c`.

The unsigned quotient `udiv64` is made from the instruction `divl`, which divides 64 bits by
32 and traps if the quotient needs more than 32 bits.  `none` is that trap.

The quotients are right for every non-zero divisor (`udiv64_eq`, `sdiv64_eq`).  The remainders
go through return types of 32 bits (`umod64_eq`, `smod64_eq`).
-/

namespace Pintos.Arithmetic

open Option
open UInt64 (toNat_lt toNat_toUInt32 toNat_shiftRight toNat_add toNat_mul toNat_sub_of_le lt_iff_toNat_lt toNat_inj toNat_div toNat_mod)

/-! ## the routines -/

/-- The instruction `divl`; `none` is the divide error. -/
def divl (n : UInt64) (d : UInt32) : Option UInt32 :=
  let q := n.toNat / d.toNat
  if d = 0 ∨ 2 ^ 32 ≤ q then none else some (UInt32.ofNat q)

/-- One step of `nlz`: if `x` is at most `bound` then its `k` leading bits are zero. -/
def nlzStep (bound : UInt32) (k : Nat) (nx : Nat × UInt32) : Nat × UInt32 :=
  if nx.2 ≤ bound then (nx.1 + k, nx.2 <<< UInt32.ofNat k) else nx

/-- The number of leading zero bits of a non-zero `x`. -/
def nlz (x : UInt32) : Nat :=
  let nx := nlzStep 0x0000FFFF 16 (0, x)
  let nx := nlzStep 0x00FFFFFF 8 nx
  let nx := nlzStep 0x0FFFFFFF 4 nx
  let nx := nlzStep 0x3FFFFFFF 2 nx
  if nx.2 ≤ 0x7FFFFFFF then nx.1 + 1 else nx.1

/-- `udiv64` for a divisor below `2 ^ 32`. -/
def udivSmall (n : UInt64) (d0 : UInt32) : Option UInt64 := do
  let b := (1 : UInt64) <<< 32
  let n1 := (n >>> 32).toUInt32
  let n0 := n.toUInt32
  -- `n1 % d0` and `n1 / d0` are themselves divisions of the machine
  if d0 = 0 then none
  let q ← divl (b * (n1 % d0).toUInt64 + n0.toUInt64) d0
  return q.toUInt64 + b * (n1 / d0).toUInt64

/-- `udiv64` for a divisor of at least `2 ^ 32`, at most `n`. -/
def udivBig (n d : UInt64) : Option UInt64 := do
  let d1 := (d >>> 32).toUInt32
  let s := nlz d1
  let q0 ← divl (n >>> 1) ((d <<< UInt64.ofNat s) >>> 32).toUInt32
  let q := (q0 >>> UInt32.ofNat (31 - s)).toUInt64
  return if n - (q - 1) * d < d then q - 1 else q

/-- Divides unsigned 64-bit `n` by unsigned 64-bit `d` and returns the quotient. -/
def udiv64 (n d : UInt64) : Option UInt64 :=
  if d >>> 32 = 0 then udivSmall n d.toUInt32
  else if n < d then some 0
  else udivBig n d

/-- The remainder of the unsigned division, as a `uint32_t`. -/
def umod64 (n d : UInt64) : Option UInt32 := do
  let q ← udiv64 n d
  return (n - d * q).toUInt32

/-- The absolute value of a signed number, as an unsigned one. -/
def absolute (n : Int64) : UInt64 := if 0 ≤ n then n.toUInt64 else -n.toUInt64

/-- Divides signed 64-bit `n` by signed 64-bit `d` and returns the quotient. -/
def sdiv64 (n d : Int64) : Option Int64 := do
  let nAbs := absolute n
  let dAbs := absolute d
  let qAbs ← udiv64 nAbs dAbs
  return if decide (n < 0) = decide (d < 0) then qAbs.toInt64 else -qAbs.toInt64

/-- The remainder of the signed division, as an `int32_t`. -/
def smod64 (n d : Int64) : Option Int32 := do
  let q ← sdiv64 n d
  return (n - d * q).toInt32

/-- `__divdi3`. -/
def divdi3 (n d : Int64) : Option Int64 := sdiv64 n d

/-- `__moddi3`. -/
def moddi3 (n d : Int64) : Option Int64 := (smod64 n d).map Int32.toInt64

/-- `__udivdi3`. -/
def udivdi3 (n d : UInt64) : Option UInt64 := udiv64 n d

/-- `__umoddi3`. -/
def umoddi3 (n d : UInt64) : Option UInt64 := (umod64 n d).map UInt32.toUInt64

/-! ## the instruction -/

/-- `divl` gives the quotient, if it fits. -/
theorem divl_eq {n : UInt64} {d : UInt32} (hd : d ≠ 0) (h : n.toNat / d.toNat < 2 ^ 32) :
    ∃ q, divl n d = some q ∧ q.toNat = n.toNat / d.toNat := by
  refine ⟨UInt32.ofNat (n.toNat / d.toNat), ?_, ?_⟩
  · unfold divl
    dsimp only
    rw [if_neg]
    rintro (hzero | hbig)
    · exact hd hzero
    · omega
  · exact UInt32.toNat_ofNat_of_lt h

/-! ## leading zeros -/

/-- A step of `nlz` shifts `x` by what it adds to `n`, and leaves a word above the bound. -/
theorem nlzStep_spec (bound : UInt32) (k low : Nat) {x : Nat} {nx : Nat × UInt32} (hk : k < 32)
    (hbound : (bound.toNat + 1) * 2 ^ k = 2 ^ 32) (hlow : low * 2 ^ k = bound.toNat + 1)
    (hge : low ≤ nx.2.toNat) (hx : nx.2.toNat = x * 2 ^ nx.1) :
    bound.toNat + 1 ≤ (nlzStep bound k nx).2.toNat ∧
      (nlzStep bound k nx).2.toNat = x * 2 ^ (nlzStep bound k nx).1 := by
  unfold nlzStep
  split
  next hle =>
    have hle' : nx.2.toNat ≤ bound.toNat := UInt32.le_iff_toNat_le.mp hle
    have hlt : nx.2.toNat * 2 ^ k < 2 ^ 32 := by
      calc nx.2.toNat * 2 ^ k < (bound.toNat + 1) * 2 ^ k :=
            Nat.mul_lt_mul_of_pos_right (by omega) (Nat.two_pow_pos k)
        _ = 2 ^ 32 := hbound
    have hmod : (UInt32.ofNat k).toNat % 32 = k := by
      rw [UInt32.toNat_ofNat_of_lt' (by change k < 2 ^ 32; omega), Nat.mod_eq_of_lt hk]
    have hshift : (nx.2 <<< UInt32.ofNat k).toNat = nx.2.toNat * 2 ^ k := by
      rw [UInt32.toNat_shiftLeft, hmod, Nat.shiftLeft_eq, Nat.mod_eq_of_lt hlt]
    dsimp only
    rw [hshift]
    constructor
    · rw [← hlow]
      exact Nat.mul_le_mul_right _ hge
    · rw [hx, pow_add, mul_assoc]
  next hgt =>
    have hgt' : ¬ nx.2.toNat ≤ bound.toNat := fun h => hgt (UInt32.le_iff_toNat_le.mpr h)
    exact ⟨by omega, hx⟩

/-- **Shifted by `nlz x`, the word `x` has its first bit set and loses none.** -/
theorem nlz_spec {x : UInt32} (hx : x ≠ 0) :
    2 ^ 31 ≤ x.toNat * 2 ^ nlz x ∧ x.toNat * 2 ^ nlz x < 2 ^ 32 := by
  have hpos : 1 ≤ x.toNat := pos_of_ne_zero fun h => hx (UInt32.toNat_inj.mp h)
  have h0 : (0, x).2.toNat = x.toNat * 2 ^ (0, x).1 := by rw [Nat.pow_zero, mul_one]
  have h1 := nlzStep_spec 0x0000FFFF 16 1 (by decide) (by decide) (by decide) hpos h0
  have h2 := nlzStep_spec 0x00FFFFFF 8 _ (by decide) (by decide) (by decide) h1.1 h1.2
  have h3 := nlzStep_spec 0x0FFFFFFF 4 _ (by decide) (by decide) (by decide) h2.1 h2.2
  have h4 := nlzStep_spec 0x3FFFFFFF 2 _ (by decide) (by decide) (by decide) h3.1 h3.2
  unfold nlz
  dsimp only
  obtain ⟨hge, heq⟩ := h4
  generalize nlzStep 0x3FFFFFFF 2 _ = nx at hge heq
  have hlt := UInt32.toNat_lt nx.2
  change 2 ^ 30 ≤ nx.2.toNat at hge
  split
  next hle =>
    have hle' : nx.2.toNat ≤ 0x7FFFFFFF := UInt32.le_iff_toNat_le.mp hle
    have hsucc : x.toNat * 2 ^ (nx.1 + 1) = nx.2.toNat * 2 := by rw [heq]; ring
    rw [hsucc]
    omega
  next hgt =>
    have hgt' : ¬ nx.2.toNat ≤ 0x7FFFFFFF := fun h => hgt (UInt32.le_iff_toNat_le.mpr h)
    rw [← heq]
    omega

theorem nlz_lt {x : UInt32} (hx : x ≠ 0) : nlz x < 32 := by
  have hpos : 1 ≤ x.toNat := pos_of_ne_zero fun h => hx (UInt32.toNat_inj.mp h)
  refine (Nat.pow_lt_pow_iff_right (by decide : 1 < 2)).mp ?_
  calc 2 ^ nlz x ≤ x.toNat * 2 ^ nlz x := Nat.le_mul_of_pos_left _ hpos
    _ < 2 ^ 32 := (nlz_spec hx).2

/-! ## the unsigned quotient -/

theorem udivSmall_eq {n : UInt64} {d : UInt32} (hd : d ≠ 0) :
    ∃ q, udivSmall n d = some q ∧ q.toNat = n.toNat / d.toNat := by
  have hpos : 0 < d.toNat := pos_of_ne_zero fun h => hd (UInt32.toNat_inj.mp h)
  have hn := toNat_lt n
  have hd' := UInt32.toNat_lt d
  have hmod := Nat.mod_lt (n.toNat / 2 ^ 32) hpos
  have hb : ((1 : UInt64) <<< 32).toNat = 2 ^ 32 := by decide
  have hn1 : (n >>> 32).toUInt32.toNat = n.toNat / 2 ^ 32 := by
    rw [toNat_toUInt32, toNat_shiftRight, Nat.shiftRight_eq_div_pow]
    exact Nat.mod_eq_of_lt (by change n.toNat / 2 ^ 32 < 2 ^ 32; omega)
  have hmul : 2 ^ 32 * (n.toNat / 2 ^ 32 % d.toNat + 1) ≤ 2 ^ 32 * d.toNat :=
    Nat.mul_le_mul_left _ hmod
  -- the dividend of `divl`
  have hdividend : ((1 : UInt64) <<< 32 * ((n >>> 32).toUInt32 % d).toUInt64
      + n.toUInt32.toUInt64).toNat
        = 2 ^ 32 * (n.toNat / 2 ^ 32 % d.toNat) + n.toNat % 2 ^ 32 := by
    rw [toNat_add, toNat_mul, hb, UInt32.toNat_toUInt64, UInt32.toNat_mod, hn1,
      UInt32.toNat_toUInt64, toNat_toUInt32]
    rw [Nat.mod_eq_of_lt (by omega), Nat.mod_eq_of_lt (by omega)]
  have hfits : (2 ^ 32 * (n.toNat / 2 ^ 32 % d.toNat) + n.toNat % 2 ^ 32) / d.toNat < 2 ^ 32 :=
    (Nat.div_lt_iff_lt_mul hpos).mpr (by omega)
  obtain ⟨q, hq, hqn⟩ := divl_eq (n := (1 : UInt64) <<< 32 * ((n >>> 32).toUInt32 % d).toUInt64
    + n.toUInt32.toUInt64) hd (by rw [hdividend]; exact hfits)
  -- the quotient of the sum of the two parts
  have hsum : n.toNat / d.toNat
      = (2 ^ 32 * (n.toNat / 2 ^ 32 % d.toNat) + n.toNat % 2 ^ 32) / d.toNat
        + 2 ^ 32 * (n.toNat / 2 ^ 32 / d.toNat) := by
    rw [← Nat.add_mul_div_left _ _ hpos]
    congr 1
    have hsplit := Nat.div_add_mod (n.toNat / 2 ^ 32) d.toNat
    calc n.toNat = 2 ^ 32 * (n.toNat / 2 ^ 32) + n.toNat % 2 ^ 32 := by omega
      _ = 2 ^ 32 * (d.toNat * (n.toNat / 2 ^ 32 / d.toNat) + n.toNat / 2 ^ 32 % d.toNat)
            + n.toNat % 2 ^ 32 := by rw [hsplit]
      _ = _ := by ring
  have hle : n.toNat / d.toNat ≤ n.toNat := Nat.div_le_self _ _
  have hle1 : n.toNat / 2 ^ 32 / d.toNat ≤ n.toNat / 2 ^ 32 := Nat.div_le_self _ _
  refine ⟨_, by simp only [udivSmall, hd, if_false, hq]; rfl, ?_⟩
  rw [toNat_add, toNat_mul, hb, UInt32.toNat_toUInt64, UInt32.toNat_toUInt64,
    UInt32.toNat_div, hn1, hqn, hdividend]
  rw [Nat.mod_eq_of_lt (a := 2 ^ 32 * _) (by omega), ← hsum, Nat.mod_eq_of_lt (by omega)]

/-- The first word of a divisor that `nlz` has normalised: the divisor without its low part. -/
theorem normalised {d : UInt64} (hd : (d >>> 32).toUInt32 ≠ 0) {s : Nat}
    (hs : s = nlz (d >>> 32).toUInt32) :
    ((d <<< UInt64.ofNat s) >>> 32).toUInt32.toNat = d.toNat / 2 ^ (32 - s) ∧
      2 ^ 32 ≤ 2 * (d.toNat / 2 ^ (32 - s)) ∧ d.toNat / 2 ^ (32 - s) < 2 ^ 32 := by
  have hlt : s < 32 := hs ▸ nlz_lt hd
  obtain ⟨hge, hfits⟩ := nlz_spec hd
  rw [← hs] at hge hfits
  have hd64 := toNat_lt d
  have hd1 : (d >>> 32).toUInt32.toNat = d.toNat / 2 ^ 32 := by
    rw [toNat_toUInt32, toNat_shiftRight, Nat.shiftRight_eq_div_pow]
    exact Nat.mod_eq_of_lt (by change d.toNat / 2 ^ 32 < 2 ^ 32; omega)
  rw [hd1] at hge hfits
  have hpow : 2 ^ (32 - s) * 2 ^ s = 2 ^ 32 := by
    rw [← pow_add, Nat.sub_add_cancel (le_of_lt hlt)]
  have hS : 0 < 2 ^ s := Nat.two_pow_pos s
  -- no bit of the divisor is lost
  have hword : d.toNat / 2 ^ 32 < 2 ^ (32 - s) := by
    refine Nat.lt_of_mul_lt_mul_right (a := 2 ^ s) ?_
    rwa [hpow]
  have hdlt : d.toNat < 2 ^ (32 - s) * 2 ^ 32 := (Nat.div_lt_iff_lt_mul (by decide)).mp hword
  have hshifted : d.toNat * 2 ^ s < 2 ^ 64 := by
    calc d.toNat * 2 ^ s < 2 ^ (32 - s) * 2 ^ 32 * 2 ^ s := Nat.mul_lt_mul_of_pos_right hdlt hS
      _ = 2 ^ (32 - s) * 2 ^ s * 2 ^ 32 := by ring
      _ = 2 ^ 64 := by rw [hpow, ← pow_add]
  have hdiv : d.toNat * 2 ^ s / 2 ^ 32 = d.toNat / 2 ^ (32 - s) := by
    rw [← hpow]
    exact Nat.mul_div_mul_right _ _ hS
  have hvlt : d.toNat / 2 ^ (32 - s) < 2 ^ 32 := by
    rw [Nat.div_lt_iff_lt_mul (Nat.two_pow_pos _), mul_comm]
    exact hdlt
  refine ⟨?_, ?_, hvlt⟩
  · have hmod : (UInt64.ofNat s).toNat % 64 = s := by
      rw [UInt64.toNat_ofNat_of_lt' (by change s < 2 ^ 64; omega), Nat.mod_eq_of_lt (by omega)]
    rw [toNat_toUInt32, toNat_shiftRight, UInt64.toNat_shiftLeft, hmod,
      Nat.shiftLeft_eq, Nat.mod_eq_of_lt hshifted, Nat.shiftRight_eq_div_pow]
    change d.toNat * 2 ^ s / 2 ^ 32 % 2 ^ 32 = _
    rw [hdiv, Nat.mod_eq_of_lt hvlt]
  · have hle : d.toNat / 2 ^ 32 * 2 ^ 32 * 2 ^ s ≤ d.toNat * 2 ^ s :=
      Nat.mul_le_mul_right _ (Nat.div_mul_le_self _ _)
    have hswap : d.toNat / 2 ^ 32 * 2 ^ 32 * 2 ^ s = d.toNat / 2 ^ 32 * 2 ^ s * 2 ^ 32 := by ring
    rw [← hdiv]
    omega

/-- The estimate of `udiv64`: its `divl` does not trap, and what is left after the shift is the
quotient by the divisor without its low part. -/
theorem estimate {n d : UInt64} {s : Nat} (hd : (d >>> 32).toUInt32 ≠ 0)
    (hs : s = nlz (d >>> 32).toUInt32) :
    ∃ q0, divl (n >>> 1) ((d <<< UInt64.ofNat s) >>> 32).toUInt32 = some q0 ∧
      (q0 >>> UInt32.ofNat (31 - s)).toUInt64.toNat
        = n.toNat / (2 ^ (32 - s) * (d.toNat / 2 ^ (32 - s))) := by
  obtain ⟨hword, hhalf, hvlt⟩ := normalised hd hs
  have hlt : s < 32 := hs ▸ nlz_lt hd
  have hn := toNat_lt n
  have hn2 : (n >>> 1).toNat = n.toNat / 2 := by
    rw [toNat_shiftRight, Nat.shiftRight_eq_div_pow]
    rfl
  have hvpos : 0 < d.toNat / 2 ^ (32 - s) := by omega
  have hvne : ((d <<< UInt64.ofNat s) >>> 32).toUInt32 ≠ 0 := by
    intro h
    rw [h] at hword
    rw [← hword] at hvpos
    exact absurd hvpos (by decide)
  -- the dividend is below `2 ^ 63` and the divisor at least `2 ^ 31`
  have hfits : (n >>> 1).toNat / ((d <<< UInt64.ofNat s) >>> 32).toUInt32.toNat < 2 ^ 32 := by
    rw [hn2, hword, Nat.div_lt_iff_lt_mul hvpos]
    omega
  obtain ⟨q0, hq0, hq0n⟩ := divl_eq hvne hfits
  have hmod : (UInt32.ofNat (31 - s)).toNat % 32 = 31 - s := by
    rw [UInt32.toNat_ofNat_of_lt' (by change 31 - s < 2 ^ 32; omega), Nat.mod_eq_of_lt (by omega)]
  have hpow : 2 ^ (32 - s) = 2 * 2 ^ (31 - s) := by
    rw [← Nat.pow_succ']
    congr 1
    omega
  have hunit : 2 * (d.toNat / 2 ^ (32 - s) * 2 ^ (31 - s))
      = 2 ^ (32 - s) * (d.toNat / 2 ^ (32 - s)) := by
    generalize d.toNat / 2 ^ (32 - s) = v
    rw [hpow]
    ring
  refine ⟨q0, hq0, ?_⟩
  rw [UInt32.toNat_toUInt64, UInt32.toNat_shiftRight, hmod, Nat.shiftRight_eq_div_pow, hq0n,
    hn2, hword, Nat.div_div_eq_div_mul, Nat.div_div_eq_div_mul, hunit]

/-- The correction of `udiv64` on words: none of its operations wraps around. -/
theorem corrected {n d q : UInt64} (hd : 0 < d.toNat) (hle : d.toNat ≤ n.toNat)
    (hge : n.toNat / d.toNat ≤ q.toNat) (hle1 : q.toNat ≤ n.toNat / d.toNat + 1) :
    (if n - (q - 1) * d < d then q - 1 else q).toNat = n.toNat / d.toNat := by
  have hn := toNat_lt n
  have hone : 1 ≤ n.toNat / d.toNat := (Nat.one_le_div_iff hd).mpr hle
  have hq1 : (q - 1).toNat = q.toNat - 1 :=
    toNat_sub_of_le _ _ (UInt64.le_iff_toNat_le.mpr (by change 1 ≤ q.toNat; omega))
  have hmulle : (q.toNat - 1) * d.toNat ≤ n.toNat := by
    calc (q.toNat - 1) * d.toNat ≤ n.toNat / d.toNat * d.toNat :=
          Nat.mul_le_mul_right _ (by omega)
      _ ≤ n.toNat := Nat.div_mul_le_self _ _
  have hmul : ((q - 1) * d).toNat = (q.toNat - 1) * d.toNat := by
    rw [toNat_mul, hq1, Nat.mod_eq_of_lt (by omega)]
  have hsub : (n - (q - 1) * d).toNat = n.toNat - (q.toNat - 1) * d.toNat := by
    rw [toNat_sub_of_le _ _ (UInt64.le_iff_toNat_le.mpr (by rw [hmul]; exact hmulle)),
      hmul]
  rw [← Division.correct hd (by omega) hge hle1, apply_ite UInt64.toNat, hq1]
  simp only [lt_iff_toNat_lt, hsub]

theorem udivBig_eq {n d : UInt64} (hd : (d >>> 32).toUInt32 ≠ 0) (hle : d.toNat ≤ n.toNat) :
    ∃ q, udivBig n d = some q ∧ q.toNat = n.toNat / d.toNat := by
  obtain ⟨-, hhalf, -⟩ := normalised hd rfl
  obtain ⟨q0, hq0, hest⟩ := estimate (n := n) hd rfl
  have hs := nlz_lt hd
  have hpow : 2 ^ (32 - nlz (d >>> 32).toUInt32) * 2 ^ nlz (d >>> 32).toUInt32 = 2 ^ 32 := by
    rw [← pow_add, Nat.sub_add_cancel (le_of_lt hs)]
  have hge := Division.estimate_ge (n := n.toNat) (d := d.toNat)
    (P := 2 ^ (32 - nlz (d >>> 32).toUInt32)) (by omega)
  have hle1 := Division.estimate_le hpow (toNat_lt n) hhalf
  rw [← hest] at hge hle1
  have hdpos : 0 < d.toNat := by
    refine pos_of_ne_zero fun h => ?_
    rw [h, Nat.zero_div] at hhalf
    omega
  refine ⟨_, ?_, corrected hdpos hle hge hle1⟩
  simp only [udivBig, hq0]
  rfl

/-- **The unsigned quotient**: no division of `udiv64` traps, and the result is exact. -/
theorem udiv64_eq {n d : UInt64} (hd : d ≠ 0) : udiv64 n d = some (n / d) := by
  have hex : ∃ q, udiv64 n d = some q ∧ q.toNat = n.toNat / d.toNat := by
    have hd64 := toNat_lt d
    have hshift : (d >>> 32).toNat = d.toNat / 2 ^ 32 := by
      rw [toNat_shiftRight, Nat.shiftRight_eq_div_pow]
      rfl
    unfold udiv64
    split
    next hzero =>
      have hsmall : d.toNat / 2 ^ 32 = 0 := by
        rw [← hshift, hzero]
        rfl
      have hd0 : d.toUInt32.toNat = d.toNat := by
        rw [toNat_toUInt32]
        omega
      rw [← hd0]
      refine udivSmall_eq fun h => hd (toNat_inj.mp ?_)
      rw [← hd0, h]
      rfl
    next hbig =>
      split
      next hlt => exact ⟨0, rfl, (Nat.div_eq_of_lt (lt_iff_toNat_lt.mp hlt)).symm⟩
      next hge =>
        refine udivBig_eq (fun h => hbig (toNat_inj.mp ?_))
          (not_lt.mp fun h => hge (lt_iff_toNat_lt.mpr h))
        have hnat : (d >>> 32).toUInt32.toNat = 0 := by rw [h]; rfl
        rw [toNat_toUInt32, hshift] at hnat
        rw [hshift]
        change d.toNat / 2 ^ 32 = 0
        omega
  obtain ⟨q, hq, hqn⟩ := hex
  rw [hq]
  exact congrArg some (toNat_inj.mp (by rw [hqn, toNat_div]))

theorem umod64_eq {n d : UInt64} (hd : d ≠ 0) : umod64 n d = some (n % d).toUInt32 := by
  have hmod : n - d * (n / d) = n % d := by
    have hle : d.toNat * (n.toNat / d.toNat) ≤ n.toNat := Nat.mul_div_le _ _
    have hn := toNat_lt n
    have hmul : (d * (n / d)).toNat = d.toNat * (n.toNat / d.toNat) := by
      rw [toNat_mul, toNat_div, Nat.mod_eq_of_lt (by omega)]
    refine toNat_inj.mp ?_
    rw [toNat_sub_of_le _ _ (UInt64.le_iff_toNat_le.mpr (by rw [hmul]; exact hle)), hmul,
      toNat_mod]
    have := Nat.div_add_mod n.toNat d.toNat
    omega
  simp only [umod64, udiv64_eq hd, bind_eq_bind, bind_some, hmod]
  rfl

/-! ## the signed quotient -/

theorem toNat_absolute (n : Int64) : (absolute n).toNat = n.toInt.natAbs := by
  have hint : n.toInt = if 2 * n.toUInt64.toNat < 2 ^ 64 then (n.toUInt64.toNat : Int)
      else n.toUInt64.toNat - (2 ^ 64 : Nat) := BitVec.toInt_eq_toNat_cond n.toBitVec
  have hlt := toNat_lt n.toUInt64
  unfold absolute
  by_cases hneg : 0 ≤ n
  · rw [if_pos hneg]
    have hneg' : 0 ≤ n.toInt := Int64.le_iff_toInt_le.mp hneg
    split at hint <;> omega
  · rw [if_neg hneg, UInt64.toNat_neg]
    have hneg' : ¬ 0 ≤ n.toInt := fun h => hneg (Int64.le_iff_toInt_le.mpr h)
    have hsize : UInt64.size = 2 ^ 64 := rfl
    rw [hsize]
    split at hint <;> omega

theorem toInt64_eq (q : UInt64) : q.toInt64 = Int64.ofInt q.toNat := by
  conv_lhs => rw [← UInt64.ofNat_toNat (x := q)]
  rw [UInt64.toInt64_ofNat', Int64.ofInt_eq_ofNat]

theorem tdiv_eq_natAbs (n d : Int) :
    n.tdiv d = if decide (n < 0) = decide (d < 0) then ((n.natAbs / d.natAbs : Nat) : Int)
      else -((n.natAbs / d.natAbs : Nat) : Int) := by
  have hpos : ∀ a : Nat, decide (Int.ofNat a < 0) = false := fun a =>
    decide_eq_false (Int.not_lt.mpr (Int.natCast_nonneg a))
  have hneg : ∀ a : Nat, decide (Int.negSucc a < 0) = true := fun a =>
    decide_eq_true (Int.negSucc_lt_zero a)
  cases n with
  | ofNat a =>
    cases d with
    | ofNat b => rw [hpos, hpos, if_pos rfl]; rfl
    | negSucc b => rw [hpos, hneg, if_neg (by decide)]; rfl
  | negSucc a =>
    cases d with
    | ofNat b => rw [hpos, hneg, if_neg (by decide)]; rfl
    | negSucc b => rw [hneg, hneg, if_pos rfl]; rfl

/-- **The signed quotient** is truncated toward zero, modulo `2 ^ 64`. -/
theorem sdiv64_eq {n d : Int64} (hd : d ≠ 0) :
    sdiv64 n d = some (Int64.ofInt (n.toInt.tdiv d.toInt)) := by
  have habs : absolute d ≠ 0 := by
    intro h
    have hzero : d.toInt.natAbs = 0 := by rw [← toNat_absolute, h]; rfl
    exact hd (Int64.toInt_inj.mp (Int.natAbs_eq_zero.mp hzero))
  have hq : (absolute n / absolute d).toInt64
      = Int64.ofInt ((n.toInt.natAbs / d.toInt.natAbs : Nat) : Int) := by
    rw [toInt64_eq, toNat_div, toNat_absolute, toNat_absolute]
  have hsign : ∀ x : Int64, decide (x < 0) = decide (x.toInt < 0) := fun x =>
    decide_eq_decide.mpr Int64.lt_iff_toInt_lt
  simp only [sdiv64, udiv64_eq habs, bind_eq_bind, bind_some, hq, hsign]
  rw [tdiv_eq_natAbs, apply_ite Int64.ofInt, Int64.ofInt_neg]
  rfl

theorem smod64_eq {n d : Int64} (hd : d ≠ 0) :
    smod64 n d = some (Int64.ofInt (n.toInt.tmod d.toInt)).toInt32 := by
  have hmod : n - d * Int64.ofInt (n.toInt.tdiv d.toInt) = Int64.ofInt (n.toInt.tmod d.toInt) := by
    rw [Int.tmod_def, Int64.ofInt_sub, Int64.ofInt_mul, Int64.ofInt_toInt, Int64.ofInt_toInt]
  simp only [smod64, sdiv64_eq hd, bind_eq_bind, bind_some, hmod]
  rfl

/-! ## what the compiler calls -/

/-- **The 64-bit quotients are exact**, and no division on the way traps. -/
theorem quotients (n d : UInt64) (m e : Int64) :
    (d ≠ 0 → ∃ q, udivdi3 n d = some q ∧ q.toNat = n.toNat / d.toNat) ∧
      (e ≠ 0 → divdi3 m e = some (Int64.ofInt (m.toInt.tdiv e.toInt))) :=
  ⟨fun hd => ⟨n / d, udiv64_eq hd, toNat_div _ _⟩, fun he => sdiv64_eq he⟩

/-- Both quotients at operands of more than 32 bits, the signed one where it wraps around. -/
theorem quotients_large :
    (∃ q, udivdi3 0xFFFFFFFFFFFFFFFF 0x1FFFFFFFF = some q ∧
      q.toNat = (0xFFFFFFFFFFFFFFFF : UInt64).toNat / (0x1FFFFFFFF : UInt64).toNat) ∧
    divdi3 Int64.minValue (-1)
      = some (Int64.ofInt (Int64.minValue.toInt.tdiv (-1 : Int64).toInt)) :=
  ⟨(quotients _ _ 0 1).1 (by decide), (quotients 0 1 _ _).2 (by decide)⟩

theorem toUInt64_toUInt32 (r : UInt64) : r.toUInt32.toUInt64 = r ↔ r.toNat < 2 ^ 32 := by
  rw [← toNat_inj, UInt32.toNat_toUInt64, toNat_toUInt32]
  exact ⟨fun h => by omega, fun h => Nat.mod_eq_of_lt h⟩

theorem toInt64_toInt32 (r : Int64) :
    r.toInt32.toInt64 = r ↔ -2 ^ 31 ≤ r.toInt ∧ r.toInt < 2 ^ 31 := by
  rw [← Int64.toInt_inj, Int32.toInt_toInt64, Int64.toInt_toInt32]
  constructor
  · intro h
    have hge : -(((2 ^ 32 : Nat) : Int) / 2) ≤ r.toInt.bmod (2 ^ 32) := Int.le_bmod (by decide)
    have hlt : r.toInt.bmod (2 ^ 32) < ((2 ^ 32 : Nat) + 1 : Int) / 2 := Int.bmod_lt (by decide)
    rw [h] at hge hlt
    omega
  · rintro ⟨hge, hlt⟩
    exact Int.bmod_eq_of_le (by omega) (by omega)

theorem toInt_ofInt_tmod (m e : Int64) (he : e ≠ 0) :
    (Int64.ofInt (m.toInt.tmod e.toInt)).toInt = m.toInt.tmod e.toInt := by
  have he' : e.toInt ≠ 0 := fun h => he (Int64.toInt_inj.mp h)
  have hle := Int64.le_toInt m
  have hlt := Int64.toInt_lt m
  have habs : (m.toInt.tmod e.toInt).natAbs ≤ m.toInt.natAbs := by
    rw [Int.natAbs_tmod]
    exact Nat.mod_le _ _
  have hsmall : (m.toInt.tmod e.toInt).natAbs < e.toInt.natAbs := by
    rw [Int.natAbs_tmod]
    exact Nat.mod_lt _ (Int.natAbs_pos.mpr he')
  have hle' := Int64.le_toInt e
  have hlt' := Int64.toInt_lt e
  rw [Int64.toInt_ofInt]
  exact Int.bmod_eq_of_le (by change -2 ^ 63 ≤ _; omega) (by change _ < (2 ^ 63 : Int); omega)

/-- **The 64-bit remainders are right exactly when they survive the 32-bit return types.** -/
theorem remainders_iff (n d : UInt64) (m e : Int64) :
    (d ≠ 0 →
      ((∃ q r, udivdi3 n d = some q ∧ umoddi3 n d = some r ∧
          r.toNat = n.toNat % d.toNat ∧ q * d + r = n) ↔
        n.toNat % d.toNat < 2 ^ 32)) ∧
    (e ≠ 0 →
      ((∃ q r, divdi3 m e = some q ∧ moddi3 m e = some r ∧
          r.toInt = m.toInt - e.toInt * m.toInt.tdiv e.toInt ∧ q * e + r = m) ↔
        -2 ^ 31 ≤ m.toInt.tmod e.toInt ∧ m.toInt.tmod e.toInt < 2 ^ 31)) := by
  constructor
  · intro hd
    have hmod : umoddi3 n d = some (n % d).toUInt32.toUInt64 := by rw [umoddi3, umod64_eq hd]; rfl
    rw [← toNat_mod, ← toUInt64_toUInt32]
    constructor
    · rintro ⟨q, r, -, hr, hval, -⟩
      cases hmod.symm.trans hr
      exact toNat_inj.mp hval
    · intro hsurvives
      refine ⟨n / d, n % d, udiv64_eq hd, by rw [hmod, hsurvives], rfl, ?_⟩
      refine toNat_inj.mp ?_
      rw [toNat_add, toNat_mul, toNat_div, toNat_mod, Nat.mod_add_mod,
        Nat.div_add_mod', Nat.mod_eq_of_lt (toNat_lt n)]
  · intro he
    have hmod : moddi3 m e = some (Int64.ofInt (m.toInt.tmod e.toInt)).toInt32.toInt64 := by
      rw [moddi3, smod64_eq he]
      rfl
    have hint := toInt_ofInt_tmod m e he
    rw [← hint, ← toInt64_toInt32, ← Int.tmod_def]
    constructor
    · rintro ⟨q, r, -, hr, hval, -⟩
      cases hmod.symm.trans hr
      exact Int64.toInt_inj.mp (hval.trans hint.symm)
    · intro hsurvives
      refine ⟨_, _, sdiv64_eq he, by rw [hmod, hsurvives], hint, ?_⟩
      calc Int64.ofInt (m.toInt.tdiv e.toInt) * e + Int64.ofInt (m.toInt.tmod e.toInt)
          = Int64.ofInt (m.toInt.tdiv e.toInt * e.toInt + m.toInt.tmod e.toInt) := by
            rw [Int64.ofInt_add, Int64.ofInt_mul, Int64.ofInt_toInt]
        _ = Int64.ofInt m.toInt := by rw [Int.tdiv_mul_add_tmod]
        _ = m := Int64.ofInt_toInt m

/-- Both remainders at divisors of 33 bits, with dividends that leave a small remainder. -/
theorem remainders_small :
    (∃ q r, udivdi3 0x200000005 0x100000000 = some q ∧
      umoddi3 0x200000005 0x100000000 = some r ∧
      r.toNat = (0x200000005 : UInt64).toNat % (0x100000000 : UInt64).toNat ∧
      q * 0x100000000 + r = 0x200000005) ∧
    (∃ q r, divdi3 (-0x200000005) 0x100000000 = some q ∧
      moddi3 (-0x200000005) 0x100000000 = some r ∧
      r.toInt = (-0x200000005 : Int64).toInt
        - (0x100000000 : Int64).toInt
          * (-0x200000005 : Int64).toInt.tdiv (0x100000000 : Int64).toInt ∧
      q * 0x100000000 + r = -0x200000005) :=
  ⟨((remainders_iff _ _ 0 1).1 (by decide)).mpr (by decide),
    ((remainders_iff 0 1 _ _).2 (by decide)).mpr (by decide)⟩

/-- `2 ^ 32` modulo `2 ^ 33` is returned as `0`, and `2 ^ 31` modulo `2 ^ 32` as `-2 ^ 31`. -/
theorem remainders_truncated :
    umoddi3 0x100000000 0x200000000 = some 0 ∧
      (0x100000000 : UInt64).toNat % (0x200000000 : UInt64).toNat = 0x100000000 ∧
    moddi3 0x80000000 0x100000000 = some (-0x80000000) ∧
      (0x80000000 : Int64).toInt.tmod (0x100000000 : Int64).toInt = 0x80000000 := by
  decide +kernel

end Pintos.Arithmetic
