import Mathlib.Algebra.Order.Round
import Mathlib.Data.Int.Log
import Mathlib.Data.Rat.Floor
import Memlog.Mx.Element

/-!
# `mx_quantize` rounds to nearest

A quantised magnitude is the nearest multiple of the quantum, ties away from zero, or the largest
element of the block if that multiple is above it in the top binade (`quantMag_round`). The main
result reads this on exact values (`mxQuantize_rounds`).
-/

namespace Memlog

open Lib.Fp

/-- The largest finite magnitude of a format. -/
def FpFmt.maxFinite (f : FpFmt) : ℚ := (2 - 2 ^ (-(f.mant : Int))) * 2 ^ (f.bias : Int)

/-! ## Magnitudes -/

section Magnitude

variable {clo : Clo} {shared : Int} {mant n q : Nat}

/-- Rounding to a quantum above the units. -/
theorem round_div_two_pow (hq : 0 < q) : round ((n : ℚ) / 2 ^ (q : Int)) = roundTo q n := by
  have hhalf : 2 ^ q / 2 = 2 ^ (q - 1) := by
    rw [← Nat.pow_pred_mul hq, Nat.mul_div_cancel _ (by omega)]
  have hpos : (0 : ℚ) < ((2 ^ q : Nat) : ℚ) := by exact_mod_cast Nat.two_pow_pos q
  have htwo : ((2 ^ q : Nat) : ℚ) = 2 * ((2 ^ (q - 1) : Nat) : ℚ) := by
    rw [← Nat.pow_pred_mul hq]
    push_cast
    ring
  have hsum : (n : ℚ) / ((2 ^ q : Nat) : ℚ) + 1 / 2 =
      ((n + 2 ^ (q - 1) : Nat) : ℚ) / ((2 ^ q : Nat) : ℚ) := by
    rw [Nat.cast_add, add_div, add_right_inj, div_eq_div_iff (by norm_num) hpos.ne', htwo]
    ring
  rw [round_eq, ← two_zpow_natCast, hsum, Rat.floor_natCast_div_natCast, roundTo, hhalf]
  rfl

/-- A multiple of the quantum stays. -/
theorem round_mul_of_multiple {x : ℚ} {z : Int} (h : ∃ N : Nat, x = N * 2 ^ z) :
    (round (x / 2 ^ z) : ℚ) * 2 ^ z = x := by
  obtain ⟨N, rfl⟩ := h
  rw [mul_div_cancel_right₀ _ (two_zpow_pos z).ne', round_natCast, Int.cast_natCast]

theorem mxQuantum_eq_max (clo : Clo) (lead shared : Int) :
    mxQuantum clo lead shared = max lead (shared + clo.mxEmin) - clo.mxMbits := by
  unfold mxQuantum
  split <;> omega

/-- **A quantised magnitude** is the nearest multiple of its quantum, or the largest one of the top
binade if that is nearer than it may be. -/
theorem quantMag_round (hfit : Fits mant n) {z : Int} (hz : mxQuantum clo n.log2 shared = z) :
    (quantMag clo mant shared n : ℚ) = round ((n : ℚ) / 2 ^ z) * 2 ^ z ∨
      z = shared + clo.mxEmax - clo.mxMbits ∧ (clo.maxSig : Int) < round ((n : ℚ) / 2 ^ z) ∧
        (quantMag clo mant shared n : ℚ) = clo.maxSig * 2 ^ z := by
  rcases le_or_gt z (ulp mant n) with hle | hgt
  · have hstays : quantMag clo mant shared n = n := if_pos (hz ▸ hle)
    rw [hstays, round_mul_of_multiple (exists_multiple hfit hle)]
    exact .inl rfl
  · obtain ⟨q, rfl⟩ := Int.eq_ofNat_of_zero_le (by omega : 0 ≤ z)
    have hround := round_div_two_pow (n := n) (by omega : 0 < q)
    rw [quantMag_of_lt hz (by omega), hround, Nat.cast_mul, two_zpow_natCast]
    split
    · rename_i htop
      exact .inr ⟨htop.1, by exact_mod_cast htop.2, rfl⟩
    · exact .inl (by rw [Int.cast_natCast])

end Magnitude

/-! ## Elements -/

section Element

variable {f : FpFmt} (hf : f.Ieee) {v : ULong}
include hf

/-- `floor(log2|v|)`, computed and exact. -/
theorem log_absValue (hc : f.code v ≠ 0) : Int.log 2 (f.absValue v) = mxLead f v := by
  have hpos : 0 < f.absValue v :=
    lt_of_lt_of_le (two_zpow_pos (mxLead f v)) ((two_zpow_le_absValue_iff hf hc).2 le_rfl)
  refine eq_of_forall_le_iff fun z => ?_
  rw [← two_zpow_le_absValue_iff hf hc, ← Int.zpow_le_iff_le_log (by norm_num) hpos, Nat.cast_ofNat]

/-- The magnitude past the finite ones. -/
theorem overflow_mul : (f.overflow : ℚ) * 2 ^ f.minLsb = 2 ^ (f.bias + 1 : Int) := by
  have hem := hf.emask_pos
  have hb := hf.bias
  rw [FpFmt.overflow, two_zpow_natCast, ← two_zpow_add]
  congr 1
  unfold FpFmt.minLsb
  omega

omit hf in
theorem maxFinite_lt (f : FpFmt) : f.maxFinite < 2 ^ (f.bias + 1 : Int) := by
  have hpos := two_zpow_pos (-(f.mant : Int))
  rw [FpFmt.maxFinite, two_zpow_add, zpow_one, mul_comm (2 ^ (f.bias : Int))]
  exact mul_lt_mul_of_pos_right (by linarith) (two_zpow_pos _)

/-- An element whose rounded magnitude is in range. -/
theorem absValue_mxQuantize (clo : Clo) {shared : Int} (hv : f.Word v) (hfin : f.Finite v)
    (hrange : (quantMag clo f.mant (shared - f.minLsb) (f.mag v) : ℚ) * 2 ^ f.minLsb ≤
      f.maxFinite) :
    f.Finite (mxQuantize clo f v shared) ∧ f.absValue (mxQuantize clo f v shared) =
      quantMag clo f.mant (shared - f.minLsb) (f.mag v) * 2 ^ f.minLsb := by
  have hlt : quantMag clo f.mant (shared - f.minLsb) (f.mag v) < f.overflow := by
    have hmul := lt_of_le_of_lt hrange (maxFinite_lt f)
    rw [← overflow_mul hf, mul_lt_mul_iff_left₀ (two_zpow_pos _)] at hmul
    exact_mod_cast hmul
  exact ⟨(mxQuantize_finite_iff hf clo shared hv hfin).2 hlt, by
    rw [FpFmt.absValue, mag_mxQuantize hf clo shared hv hfin hlt]⟩

end Element

/-- Multiples of a quantum, seen from another unit. -/
theorem div_two_zpow_add (x : ℚ) (y z : Int) : x * 2 ^ y / 2 ^ (z + y) = x / 2 ^ z := by
  rw [two_zpow_add, mul_div_mul_right _ _ (two_zpow_pos y).ne']

/-- **`mx_quantize` rounds to nearest.** For every setting, every finite nonzero element and every
shared exponent, with the quantum `2^q` and the significand `N` of exact arithmetic: if `N * 2^q` is
not above the largest element of the block nor out of the finite range, the result stands for `N *
2^q` with the sign of the element. Its error is at most half a quantum, and ties go away from zero.
-/
theorem mxQuantize_rounds (clo : Clo) {f : FpFmt} (hf : f = fmt64 ∨ f = fmt32) {v : ULong}
    (hv : f.Word v) (hfin : f.Finite v) (hc : f.code v ≠ 0) {shared q N : Int}
    (hq : q = max (Int.log 2 (f.absValue v)) (shared + clo.mxEmin) - clo.mxMbits)
    (hN : N = ⌊f.absValue v / 2 ^ q + 1 / 2⌋)
    (hmax : (N : ℚ) * 2 ^ q ≤ (mxMaxSig clo).toNat * 2 ^ (shared + clo.mxEmax - clo.mxMbits))
    (hrange : (N : ℚ) * 2 ^ q ≤ f.maxFinite) :
    f.Word (mxQuantize clo f v shared) ∧ f.Finite (mxQuantize clo f v shared) ∧
      f.sgn (mxQuantize clo f v shared) = f.sgn v ∧
      f.absValue (mxQuantize clo f v shared) = N * 2 ^ q ∧
      |f.absValue (mxQuantize clo f v shared) - f.absValue v| ≤ 2 ^ q / 2 ∧
      ∀ k : Int, f.absValue v = (k + 1 / 2) * 2 ^ q →
        f.absValue (mxQuantize clo f v shared) = (k + 1) * 2 ^ q := by
  have hieee := FpFmt.ieee_of_eq hf
  have hpos := two_zpow_pos q
  rw [log_absValue hieee hc, mxLead_eq hieee hc] at hq
  have hunit : f.absValue v / 2 ^ q = (f.mag v : ℚ) / 2 ^ (q - f.minLsb) := by
    rw [FpFmt.absValue, ← div_two_zpow_add (f.mag v) f.minLsb (q - f.minLsb), Int.sub_add_cancel]
  have hround : N = round ((f.mag v : ℚ) / 2 ^ (q - f.minLsb)) := by
    rw [hN, hunit, round_eq]
  have hz : mxQuantum clo (f.mag v).log2 (shared - f.minLsb) = q - f.minLsb := by
    rw [mxQuantum_eq_max]
    omega
  have hback : ∀ x : ℚ, x * 2 ^ (q - f.minLsb) * 2 ^ f.minLsb = x * 2 ^ q := by
    intro x
    rw [mul_assoc, ← two_zpow_add, Int.sub_add_cancel]
  -- the largest element is not below the rounded one, so nothing is saturated
  have hmag : (quantMag clo f.mant (shared - f.minLsb) (f.mag v) : ℚ) * 2 ^ f.minLsb =
      N * 2 ^ q := by
    have hfit : Fits f.mant (f.mag v) := fits_mag _ _
    rcases quantMag_round hfit hz with heq | ⟨htop, hlt, -⟩
    · rw [heq, ← hround, hback]
    · have hexp : q = shared + clo.mxEmax - clo.mxMbits := by omega
      rw [← hexp, mxMaxSig_toNat, mul_le_mul_iff_left₀ hpos] at hmax
      have hle : N ≤ clo.maxSig := by exact_mod_cast hmax
      rw [← hround] at hlt
      omega
  obtain ⟨hfin', habs⟩ := absValue_mxQuantize hieee clo hv hfin (hmag ▸ hrange)
  obtain ⟨hword, hsgn, -⟩ := mxQuantize_word hieee clo shared hv hfin
  rw [hmag] at habs
  refine ⟨hword, hfin', hsgn, habs, ?_, ?_⟩
  · have herr := abs_sub_round (f.absValue v / 2 ^ q)
    rw [hunit, ← hround, ← hunit, abs_sub_comm] at herr
    have hscale : f.absValue (mxQuantize clo f v shared) - f.absValue v =
        (N - f.absValue v / 2 ^ q) * 2 ^ q := by
      rw [habs, sub_mul, div_mul_cancel₀ _ hpos.ne']
    rw [hscale, abs_mul, abs_of_pos hpos]
    calc |(N : ℚ) - f.absValue v / 2 ^ q| * 2 ^ q ≤ 1 / 2 * 2 ^ q :=
          mul_le_mul_of_nonneg_right herr hpos.le
      _ = 2 ^ q / 2 := by ring
  · intro k hk
    have hNk : N = k + 1 := by
      have hhalf : ((k : ℚ) + 1 / 2) * 2 ^ q / 2 ^ q + 1 / 2 = ((k + 1 : Int) : ℚ) := by
        rw [mul_div_cancel_right₀ _ hpos.ne']
        push_cast
        ring
      rw [hN, hk, hhalf, Int.floor_intCast]
    rw [habs, hNk]
    push_cast
    ring

/-- The float nearest to `1.2` is rounded to `1.25`. -/
theorem mxQuantize_rounds_float :
    fmt32.Finite 0x3F99999A#64 ∧
      fmt32.absValue (mxQuantize {} fmt32 0x3F99999A#64 (-8)) = (10 : Int) * 2 ^ (-3 : Int) := by
  have hc : fmt32.code 0x3F99999A#64 ≠ 0 := by decide
  have hlead : Int.log 2 (fmt32.absValue 0x3F99999A#64) = 0 := by
    rw [log_absValue FpFmt.fmt32_ieee hc]
    decide
  have hmag : fmt32.mag 0x3F99999A#64 = 10066330 * 2 ^ 126 := by decide
  have habs : fmt32.absValue 0x3F99999A#64 = 10066330 / 2 ^ 23 := by
    have hlsb : fmt32.minLsb = -149 := rfl
    rw [FpFmt.absValue, hmag, hlsb]
    norm_num
  have hmax : (mxMaxSig {}).toNat = 14 := by decide
  have hfin : fmt32.Finite 0x3F99999A#64 := by decide
  have hword : fmt32.Word 0x3F99999A#64 := by
    unfold FpFmt.Word
    decide
  refine ⟨hfin, (mxQuantize_rounds {} (.inr rfl) hword hfin hc ?_ ?_ ?_ ?_).2.2.2.1⟩
  · rw [hlead]
    decide
  · rw [habs, eq_comm, Int.floor_eq_iff]
    norm_num
  · rw [hmax]
    norm_num
  · unfold FpFmt.maxFinite
    rw [show fmt32.mant = 23 from rfl, show fmt32.bias = 127 from rfl]
    norm_num

end Memlog
