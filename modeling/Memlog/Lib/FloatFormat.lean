import Mathlib.Algebra.Order.Field.Rat
import Mathlib.Tactic.Linarith
import Mathlib.Tactic.LinearCombination
import Memlog.Lib.BinaryFloat

/-!
# The numbers of a binary format

A format is given by the widths of its fields and by which codes are not numbers: those whose
exponent field is all ones, or the code that is all ones only. A number in the format's range of
normal exponents is a number of the format if its significand has no bits below the format's last
place (`represents_iff`).
-/

namespace Memlog.Lib.Fp

/-- A binary format. -/
structure Format where
  ebits : Nat
  mbits : Nat
  /-- Only the code with all bits set is not a number. -/
  topOnly : Bool

namespace Format

variable (F : Format)

def bias : Int := 2 ^ (F.ebits - 1) - 1

/-- The least exponent of a normal number. -/
def emin : Int := 1 - F.bias

/-- The greatest exponent field of a number. -/
def topField : Nat := if F.topOnly then 2 ^ F.ebits - 1 else 2 ^ F.ebits - 2

/-- The greatest exponent of a normal number. -/
def emax : Int := F.topField - F.bias

/-- The code is one of a number. -/
def IsNumber (c : Nat) : Prop :=
  c < (F.topField + 1) * 2 ^ F.mbits ∧ (F.topOnly → c ≠ (F.topField + 1) * 2 ^ F.mbits - 1)

/-- The magnitude that a code has. -/
def absValue (c : Nat) : ℚ := mag F.mbits c * 2 ^ (F.emin - F.mbits)

/-- The magnitude that the code with all bits set would have if it were one of a number. -/
def top : ℚ := F.absValue ((F.topField + 1) * 2 ^ F.mbits - 1)

/-- `x` is a number of the format. -/
def Represents (x : ℚ) : Prop :=
  ∃ c, F.IsNumber c ∧ (x = F.absValue c ∨ x = -F.absValue c)

end Format

section Significand

variable {p d s u c : Nat} (hlo : 2 ^ (p + d) ≤ s) (hhi : s < 2 ^ (p + d + 1))
include hlo hhi

/-- The codes of a magnitude of which `s` are the leading bits. -/
theorem mag_mul_eq_iff : mag p c * 2 ^ d = s * 2 ^ u ↔ 2 ^ d ∣ s ∧ c = u * 2 ^ p + s / 2 ^ d := by
  have hd := Nat.two_pow_pos d
  have hs : s ≠ 0 := by
    have := Nat.two_pow_pos (p + d)
    omega
  constructor
  · intro h
    have hmag : mag p c ≠ 0 := by
      intro hzero
      rw [hzero, Nat.zero_mul] at h
      exact Nat.mul_ne_zero hs (Nat.two_pow_pos u).ne' h.symm
    have hlog : (mag p c).log2 + d = p + d + u := by
      rw [← log2_mul_two_pow hmag, h, log2_mul_two_pow hs, log2_eq hlo hhi]
    have hulp : ulp p (mag p c) = u := by
      unfold ulp
      omega
    -- the code's own significand divides the power of two out
    obtain ⟨r, hr⟩ : 2 ^ u ∣ mag p c := hulp ▸ fits_mag p c
    have hsig : r * 2 ^ d = s := by
      refine Nat.eq_of_mul_eq_mul_right (Nat.two_pow_pos u) ?_
      rw [← h, hr]
      ring
    refine ⟨⟨r, by rw [← hsig, Nat.mul_comm]⟩, ?_⟩
    have hcode := code_mag p c
    rw [code, hulp, hr, Nat.mul_div_cancel_left _ (Nat.two_pow_pos u)] at hcode
    rw [← hcode, ← hsig, Nat.mul_div_cancel _ hd]
  · rintro ⟨⟨r, rfl⟩, rfl⟩
    rw [Nat.mul_div_cancel_left _ hd]
    have hbounds : 2 ^ p ≤ r ∧ r < 2 ^ (p + 1) := by
      constructor
      · refine Nat.le_of_mul_le_mul_left ?_ hd
        rw [← pow_add, Nat.add_comm d p]
        exact hlo
      · refine Nat.lt_of_mul_lt_mul_left (a := 2 ^ d) ?_
        rw [← pow_add, ← Nat.add_assoc, Nat.add_comm d p]
        exact hhi
    have hr : r ≠ 0 := by
      have := Nat.two_pow_pos p
      omega
    have hcode : code p (r * 2 ^ u) = u * 2 ^ p + r := by
      have hlog := log2_eq hbounds.1 hbounds.2
      have hulp : ulp p (r * 2 ^ u) = u := by
        unfold ulp
        rw [log2_mul_two_pow hr]
        omega
      rw [code, hulp, Nat.mul_div_cancel _ (Nat.two_pow_pos u)]
    rw [← hcode, mag_code (fits_mul_two_pow hbounds.2)]
    ring

end Significand

namespace Format

variable {F : Format}

theorem absValue_nonneg (c : Nat) : 0 ≤ F.absValue c :=
  mul_nonneg (Nat.cast_nonneg _) (zpow_nonneg (by norm_num) _)

theorem represents_neg {x : ℚ} : F.Represents (-x) ↔ F.Represents x := by
  refine exists_congr fun c => and_congr_right fun _ => ?_
  rw [neg_eq_iff_eq_neg, neg_inj, or_comm]

/-- Of the codes, only the sign is missing for a positive number. -/
theorem represents_of_pos {x : ℚ} (hx : 0 < x) :
    F.Represents x ↔ ∃ c, F.IsNumber c ∧ F.absValue c = x := by
  refine exists_congr fun c => and_congr_right fun _ => ?_
  constructor
  · rintro (h | h)
    · exact h.symm
    · have := F.absValue_nonneg c
      linarith
  · intro h
    exact .inl h.symm

variable {d s u : Nat}

/-- A code's magnitude in terms of a significand with `d` bits more. -/
theorem absValue_eq_iff {c : Nat} : F.absValue c = s * 2 ^ (F.emin + u - (F.mbits + d : ℕ)) ↔
    mag F.mbits c * 2 ^ d = s * 2 ^ u := by
  have hsplit : (2 : ℚ) ^ (F.emin + u - (F.mbits + d : ℕ)) =
      2 ^ (F.emin - F.mbits) * 2 ^ u / 2 ^ d := by
    have hexp : F.emin + u - (F.mbits + d : ℕ) = F.emin - F.mbits + u - d := by
      push_cast
      ring
    rw [hexp, zpow_sub₀ (by norm_num), zpow_add₀ (by norm_num), zpow_natCast, zpow_natCast]
  have hunit : (2 : ℚ) ^ (F.emin - F.mbits) ≠ 0 := zpow_ne_zero _ (by norm_num)
  rw [absValue, hsplit, ← Nat.cast_inj (R := ℚ)]
  push_cast
  rw [mul_div_assoc', eq_div_iff (by positivity)]
  constructor
  · intro h
    refine mul_right_cancel₀ hunit ?_
    linarith
  · intro h
    linear_combination (2 : ℚ) ^ (F.emin - F.mbits) * h

/-- **Which numbers a format has**: in the range of its normal numbers, those without bits below its
last place. The number is `s * 2 ^ (e - M)` with a significand of `M + 1` bits. -/
theorem represents_iff {M : Nat} {e : Int} (hM : F.mbits ≤ M) (hlo : 2 ^ M ≤ s)
    (hhi : s < 2 ^ (M + 1)) (hmin : F.emin ≤ e) (hmax : e ≤ F.emax)
    (htop : F.topOnly → (s : ℚ) * 2 ^ (e - M) ≠ F.top) :
    F.Represents (s * 2 ^ (e - M)) ↔ 2 ^ (M - F.mbits) ∣ s := by
  obtain ⟨d, rfl⟩ := Nat.exists_eq_add_of_le hM
  obtain ⟨u, rfl⟩ := Int.le.dest hmin
  have hs : 0 < s := lt_of_lt_of_le (Nat.two_pow_pos _) hlo
  have hpos : (0 : ℚ) < s * 2 ^ (F.emin + u - (F.mbits + d : ℕ)) :=
    mul_pos (Nat.cast_pos.2 hs) (zpow_pos (by norm_num) _)
  rw [represents_of_pos hpos, Nat.add_sub_cancel_left]
  simp only [absValue_eq_iff, mag_mul_eq_iff hlo hhi]
  constructor
  · rintro ⟨c, -, hdvd, -⟩
    exact hdvd
  · intro hdvd
    refine ⟨_, ⟨?_, ?_⟩, hdvd, rfl⟩
    · have hfield : u + 1 ≤ F.topField := by
        unfold emax emin at hmax
        omega
      have hr : s / 2 ^ d < 2 ^ F.mbits * 2 := by
        rw [Nat.div_lt_iff_lt_mul (Nat.two_pow_pos d), ← pow_succ, ← pow_add]
        refine lt_of_lt_of_eq hhi (congrArg (2 ^ ·) ?_)
        omega
      have hmul := Nat.mul_le_mul_right (2 ^ F.mbits) hfield
      rw [Nat.succ_mul] at hmul ⊢
      omega
    · intro htopOnly hc
      refine htop htopOnly ?_
      rw [top, ← hc]
      exact (absValue_eq_iff.2 ((mag_mul_eq_iff hlo hhi).2 ⟨hdvd, rfl⟩)).symm

end Format

end Memlog.Lib.Fp
