import Mathlib.Algebra.Order.Field.Rat
import Mathlib.Order.Bounds.Basic
import Mathlib.Tactic.FieldSimp
import Mathlib.Tactic.Linarith
import Mathlib.Tactic.Positivity
import Memlog.Mx.Block

/-!
# What the MX encoder puts out

An element of an MX block with shared exponent `s` has the magnitude `N * 2 ^ (s + e - mbits)`, with
an element exponent `e` in range and a significand `N` of `mbits + 1` bits, and is at most
`max_norm` (`IsMxMagnitude`). `mxEncodeBlock_elements_iff` says exactly which groups are encoded to
such elements: those without the E4M3 subnormal that the early return of `mx_quantize` lets through
above `max_norm`, and without a rounding that carries out of the largest binade of the format under
a clamped scale.
-/

namespace Memlog

open Lib.Fp

/-- The exact magnitude of a finite element. -/
def FpFmt.absValue (f : FpFmt) (v : ULong) : ℚ := f.mag v * 2 ^ f.minLsb

/-- `floor(log2|v|)` of a finite nonzero element. -/
def FpFmt.expo (f : FpFmt) (v : ULong) : Int := (f.mag v).log2 + f.minLsb

/-- A magnitude that an MX element with this shared exponent can have. -/
structure IsMxMagnitude (clo : Clo) (shared : Int) (x : ℚ) : Prop where
  grid : ∃ (e : Int) (N : Nat), clo.mxEmin ≤ e ∧ e ≤ clo.mxEmax ∧ N < 2 ^ (clo.mxMbits + 1) ∧
    (e ≠ clo.mxEmin → 2 ^ clo.mxMbits ≤ N) ∧ x = N * 2 ^ (shared + e - clo.mxMbits)
  le_max : x ≤ (mxMaxSig clo).toNat * 2 ^ (shared + clo.mxEmax - clo.mxMbits)
  e4m3 : clo.mxMbits = 3 → clo.mxEmax = 8 → x ≤ 7 / 4 * 2 ^ (8 + shared)

/-! ## Magnitudes on the grid -/

section Grid

variable {clo : Clo} {shared : Int}

theorem two_zpow_natCast (k : Nat) : ((2 ^ k : Nat) : ℚ) = 2 ^ (k : Int) := by
  rw [zpow_natCast, Nat.cast_pow, Nat.cast_ofNat]

theorem two_zpow_pos (z : Int) : (0 : ℚ) < 2 ^ z := zpow_pos (by norm_num) z

theorem two_zpow_add (y z : Int) : (2 : ℚ) ^ (y + z) = 2 ^ y * 2 ^ z := zpow_add₀ (by norm_num) y z

/-- The bound for E4M3 is the general one. -/
theorem e4m3_max (hm : clo.mxMbits = 3) (he : clo.mxEmax = 8) :
    ((mxMaxSig clo).toNat : ℚ) * 2 ^ (shared + clo.mxEmax - clo.mxMbits) =
      7 / 4 * 2 ^ (8 + shared) := by
  have hmax : clo.maxSig = 14 := if_pos ⟨hm, he⟩
  have hexp : shared + ((8 : Nat) : Int) - ((3 : Nat) : Int) = (8 + shared) + (-3) := by
    push_cast
    ring
  rw [mxMaxSig_toNat, hmax, hm, he, hexp, two_zpow_add]
  norm_num
  ring

/-- A significand and an element exponent in range give an element. -/
theorem isMxMagnitude_of_grid {e : Int} {N : Nat} (hlo : clo.mxEmin ≤ e) (hhi : e ≤ clo.mxEmax)
    (hN : N < 2 ^ (clo.mxMbits + 1)) (hnorm : e ≠ clo.mxEmin → 2 ^ clo.mxMbits ≤ N)
    (htop : e = clo.mxEmax → N ≤ clo.maxSig) :
    IsMxMagnitude clo shared (N * 2 ^ (shared + e - clo.mxMbits)) := by
  have hmax : (N : ℚ) * 2 ^ (shared + e - clo.mxMbits) ≤
      (mxMaxSig clo).toNat * 2 ^ (shared + clo.mxEmax - clo.mxMbits) := by
    rw [mxMaxSig_toNat]
    rcases eq_or_lt_of_le hhi with rfl | hlt
    · have hle : (N : ℚ) ≤ clo.maxSig := by exact_mod_cast htop rfl
      exact mul_le_mul_of_nonneg_right hle (two_zpow_pos _).le
    · -- below the top binade the largest significand is still below `max_norm`
      have hN2 : (N : ℚ) ≤ 2 ^ clo.mxMbits * 2 := by
        have : N ≤ 2 ^ clo.mxMbits * 2 := by
          rw [pow_succ] at hN
          omega
        exact_mod_cast this
      have hsig : ((2 : ℚ) ^ clo.mxMbits) ≤ clo.maxSig := by exact_mod_cast two_pow_le_maxSig clo
      have hstep : (2 : ℚ) * 2 ^ (shared + e - clo.mxMbits) ≤
          2 ^ (shared + clo.mxEmax - clo.mxMbits) := by
        rw [← zpow_one_add₀ (by norm_num)]
        exact zpow_le_zpow_right₀ (by norm_num) (by omega)
      calc (N : ℚ) * 2 ^ (shared + e - clo.mxMbits)
          ≤ 2 ^ clo.mxMbits * 2 * 2 ^ (shared + e - clo.mxMbits) :=
            mul_le_mul_of_nonneg_right hN2 (two_zpow_pos _).le
        _ = 2 ^ clo.mxMbits * (2 * 2 ^ (shared + e - clo.mxMbits)) := by ring
        _ ≤ clo.maxSig * 2 ^ (shared + clo.mxEmax - clo.mxMbits) :=
            mul_le_mul hsig hstep (mul_pos two_pos (two_zpow_pos _)).le (Nat.cast_nonneg _)
  refine ⟨⟨e, N, hlo, hhi, hN, hnorm, rfl⟩, hmax, fun hm he => ?_⟩
  rw [← e4m3_max hm he]
  exact hmax

/-- Counting exponents from another origin. -/
theorem IsMxMagnitude.scale {x : ℚ} (h : IsMxMagnitude clo shared x) (d : Int) :
    IsMxMagnitude clo (shared + d) (x * 2 ^ d) := by
  obtain ⟨⟨e, N, hlo, hhi, hN, hnorm, rfl⟩, hmax, he⟩ := h
  have hsplit : ∀ z : Int, (2 : ℚ) ^ (shared + d + z - clo.mxMbits) =
      2 ^ (shared + z - clo.mxMbits) * 2 ^ d := by
    intro z
    rw [← two_zpow_add]
    congr 1
    ring
  have hle := mul_le_mul_of_nonneg_right hmax (two_zpow_pos d).le
  rw [mul_assoc, mul_assoc, ← hsplit, ← hsplit] at hle
  refine ⟨⟨e, N, hlo, hhi, hN, hnorm, ?_⟩, ?_, fun hm he' => ?_⟩
  · rw [mul_assoc, ← hsplit]
  · rw [mul_assoc, ← hsplit]
    exact hle
  · rw [mul_assoc, ← hsplit, ← e4m3_max hm he']
    exact hle

end Grid

/-! ## Quantised magnitudes are elements -/

section Quantised

variable {clo : Clo} {shared : Int} {mant n : Nat}

theorem two_zpow_log2_le (hn : n ≠ 0) : (2 : ℚ) ^ (n.log2 : Int) ≤ n := by
  rw [← two_zpow_natCast]
  exact_mod_cast Nat.log2_self_le hn

theorem lt_two_zpow_log2 (n : Nat) : (n : ℚ) < 2 ^ (n.log2 + 1 : Int) := by
  have h : ((n.log2 + 1 : Nat) : Int) = n.log2 + 1 := by push_cast; ring
  rw [← h, ← two_zpow_natCast]
  exact_mod_cast Nat.lt_log2_self (n := n)

/-- A magnitude without bits below a quantum is a multiple of it. -/
theorem exists_multiple (hfit : Fits mant n) {q : Int} (hq : q ≤ ulp mant n) :
    ∃ N : Nat, (n : ℚ) = N * 2 ^ q := by
  rcases Int.le_total 0 q with h | h
  · obtain ⟨k, rfl⟩ := Int.eq_ofNat_of_zero_le h
    obtain ⟨N, hN⟩ : 2 ^ k ∣ n := dvd_trans (pow_dvd_pow 2 (by omega)) hfit
    refine ⟨N, ?_⟩
    rw [← two_zpow_natCast, mul_comm]
    exact_mod_cast hN
  · obtain ⟨k, hk⟩ := Int.eq_ofNat_of_zero_le (by omega : 0 ≤ -q)
    obtain rfl : q = -(k : Int) := by omega
    refine ⟨n * 2 ^ k, ?_⟩
    rw [Nat.cast_mul, two_zpow_natCast, mul_assoc, ← two_zpow_add]
    simp

/-- Dividing a bound by a power of two. -/
theorem lt_of_mul_two_zpow_lt {N k : Nat} {q l : Int} (h : (N : ℚ) * 2 ^ q < 2 ^ l)
    (hl : l = k + q) :
    N < 2 ^ k := by
  rw [hl, two_zpow_add, mul_lt_mul_iff_left₀ (two_zpow_pos q), ← two_zpow_natCast] at h
  exact_mod_cast h

theorem le_of_le_mul_two_zpow {N k : Nat} {q l : Int} (h : (2 : ℚ) ^ l ≤ N * 2 ^ q)
    (hl : l = k + q) :
    2 ^ k ≤ N := by
  rw [hl, two_zpow_add, mul_le_mul_iff_left₀ (two_zpow_pos q), ← two_zpow_natCast] at h
  exact_mod_cast h

/-- Of the magnitudes with at most four bits, only fifteen has the significand fifteen. -/
theorem fifteen_units : ∀ n < 16, n * 2 ^ (3 - n.log2) = 15 → n = 15 := by decide

/-- The E4M3 subnormal whose significand is the one that the format reserves for NaN, in the top
binade. -/
def E4m3Top (clo : Clo) (shared : Int) (n : Nat) : Prop :=
  clo.mxMbits = 3 ∧ clo.mxEmax = 8 ∧ shared + 8 = 3 ∧ n = 15

/-- **A quantised magnitude** is that of an element, except for the E4M3 subnormal that is returned
unrounded. -/
theorem isMxMagnitude_quantMag (hfit : Fits mant n) (hmant : 3 < mant)
    (hq : quantMag clo mant shared n ≠ 0) (hcap : n.log2 ≤ shared + clo.mxEmax)
    (hbad : ¬E4m3Top clo shared n) :
    IsMxMagnitude clo shared (quantMag clo mant shared n) := by
  have hn : n ≠ 0 := by
    rintro rfl
    exact hq (quantMag_zero ..)
  have hemin := clo.mxEmin_range.2
  have hlo := two_zpow_log2_le hn
  have hhi := lt_two_zpow_log2 n
  have hmax := maxSig_lt clo
  have hmin := two_pow_le_maxSig clo
  rcases quantMag_spec clo mant shared hn with ⟨hle, heq⟩ | ⟨r, q, h, -, heq⟩
  · -- returned as it is
    rw [heq]
    obtain ⟨N, hN⟩ := exists_multiple hfit hle
    rcases le_or_gt clo.mxEmin (n.log2 - shared) with hnorm | hsub
    · rw [mxQuantum_normal hnorm] at hN hle
      have hexp : (n.log2 : Int) - clo.mxMbits = shared + (n.log2 - shared) - clo.mxMbits := by ring
      have hN1 : N < 2 ^ (clo.mxMbits + 1) :=
        lt_of_mul_two_zpow_lt (hN ▸ hhi) (by push_cast; ring)
      have hN2 : 2 ^ clo.mxMbits ≤ N := le_of_le_mul_two_zpow (hN ▸ hlo) (by ring)
      rw [hN, hexp]
      refine isMxMagnitude_of_grid hnorm (by omega) hN1 (fun _ => hN2) fun htop => ?_
      by_contra hgt
      -- only E4M3 has a significand above the maximum, and only fifteen units have it
      by_cases he : clo.mxMbits = 3 ∧ clo.mxEmax = 8
      · have hmax14 : clo.maxSig = 14 := if_pos he
        rw [he.1] at hN1 hN hle
        have hlog : n.log2 ≤ 3 := by
          unfold ulp at hle
          omega
        have hunits : n * 2 ^ (3 - n.log2) = 15 := by
          have hexp' : ((n.log2 : Int) - (3 : Nat)) + (3 - n.log2 : Nat) = 0 := by omega
          have hmul : (n : ℚ) * (2 ^ (3 - n.log2) : Nat) = N := by
            rw [hN, two_zpow_natCast, mul_assoc, ← two_zpow_add, hexp', zpow_zero, mul_one]
          have hN15 : N = 15 := by omega
          rw [hN15] at hmul
          exact_mod_cast hmul
        have hn15 : n = 15 := fifteen_units n ((Nat.log2_lt hn).1 (by omega : n.log2 < 4)) hunits
        have hlog3 : n.log2 = 3 := by
          rw [hn15]
          decide
        exact hbad ⟨he.1, he.2, by omega, hn15⟩
      · have hones : clo.maxSig = 2 ^ (clo.mxMbits + 1) - 1 := if_neg he
        omega
    · rw [mxQuantum_subnormal hsub.le] at hN
      have hN1 : N < 2 ^ clo.mxMbits := by
        have hl : shared + clo.mxEmin = clo.mxMbits + (shared + clo.mxEmin - clo.mxMbits) := by ring
        refine lt_of_mul_two_zpow_lt ?_ hl
        rw [← hN]
        exact lt_of_lt_of_le hhi (zpow_le_zpow_right₀ (by norm_num) (by omega))
      rw [hN]
      refine isMxMagnitude_of_grid le_rfl (by omega) ?_ (fun hne => absurd rfl hne) fun _ => by
        omega
      rw [pow_succ]
      omega
  · -- rounded
    rw [heq] at hq ⊢
    have hr : r ≠ 0 := Nat.ne_zero_of_mul_ne_zero_left hq
    have htop := h.log2_le_top hr hcap
    have hcast : ((r * 2 ^ q : Nat) : ℚ) = r * 2 ^ (q : Int) := by
      rw [Nat.cast_mul, two_zpow_natCast]
    rcases le_or_gt clo.mxEmin (n.log2 - shared) with hnorm | hsub
    · obtain ⟨hlog, hrlo, hrhi⟩ := h.normal hnorm
      rcases Nat.lt_or_ge r (2 ^ (clo.mxMbits + 1)) with hlt | hge
      · have hexp : (q : Int) = shared + (n.log2 - shared) - clo.mxMbits := by omega
        rw [hcast, hexp]
        refine isMxMagnitude_of_grid hnorm (by omega) hlt (fun _ => hrlo) fun he => ?_
        exact h.top (by omega)
      · -- the carry goes into the next binade
        obtain rfl : r = 2 ^ (clo.mxMbits + 1) := by omega
        rw [log2_mul_two_pow hr, Nat.log2_two_pow] at htop
        have hcarry : ((2 ^ (clo.mxMbits + 1) * 2 ^ q : Nat) : ℚ) =
            (2 ^ clo.mxMbits : Nat) * 2 ^ (shared + (n.log2 - shared + 1) - clo.mxMbits : Int) := by
          have hexp : shared + ((n.log2 : Int) - shared + 1) - clo.mxMbits = (q + 1 : Nat) := by
            push_cast
            omega
          rw [hexp, ← two_zpow_natCast]
          push_cast
          ring
        rw [hcarry]
        refine isMxMagnitude_of_grid (by omega) (by omega) ?_ (fun _ => le_rfl) fun _ => hmin
        exact Nat.pow_lt_pow_right (by omega) (by omega)
    · obtain ⟨hqe, hrle⟩ := h.subnormal hsub
      rw [hcast, hqe]
      refine isMxMagnitude_of_grid le_rfl (by omega) ?_ (fun hne => absurd rfl hne) fun _ => by
        omega
      rw [pow_succ]
      have := Nat.two_pow_pos clo.mxMbits
      omega

/-- The E4M3 subnormal is above `max_norm`. -/
theorem quantMag_of_e4m3Top (mant : Nat) (h : E4m3Top clo shared n) :
    quantMag clo mant shared n = 15 ∧ ¬IsMxMagnitude clo shared (15 : Nat) := by
  obtain ⟨hm, he, hs, rfl⟩ := h
  have hemin := clo.mxEmin_range.2
  have hlog : Nat.log2 15 = 3 := by decide
  constructor
  · unfold quantMag
    dsimp only
    rw [hlog, mxQuantum_normal (by omega), if_pos]
    rw [hm]
    omega
  · rintro ⟨-, -, hmax⟩
    have hexp : 8 + shared = 3 := by omega
    have hle := hmax hm he
    rw [hexp] at hle
    norm_num at hle

/-! ## Overflow -/

/-- The exponent of the largest binade of a format, from the smallest subnormal. -/
def FpFmt.topLog (f : FpFmt) : Nat := f.mant + (f.emask - 2)

/-- **Overflow**: a magnitude of the largest binade whose rounding carries, if that binade is not
the top one of the group. -/
theorem overflow_le_quantMag_iff {f : FpFmt} (hf : f.Ieee) (hfit : Fits f.mant n)
    (hn : n < f.overflow) (hroom : clo.mxMbits < f.topLog) (hlow : shared ≤ f.topLog) :
    f.overflow ≤ quantMag clo f.mant shared n ↔
      (f.topLog : Int) ≠ shared + clo.mxEmax ∧
        f.overflow ≤ n + 2 ^ (f.topLog - clo.mxMbits) / 2 := by
  have hem := hf.emask_pos
  have hemin := clo.mxEmin_range.2
  have htop : f.overflow = 2 ^ (f.topLog + 1) := by
    unfold FpFmt.overflow FpFmt.topLog
    congr 1
    omega
  rw [htop] at hn ⊢
  have hpow : 2 ^ (f.topLog + 1) = 2 ^ f.topLog * 2 := pow_succ 2 _
  have hpos := Nat.two_pow_pos f.topLog
  constructor
  · intro hover
    have hne : n ≠ 0 := by
      rintro rfl
      rw [quantMag_zero] at hover
      omega
    rcases quantMag_spec clo f.mant shared hne with ⟨-, heq⟩ | ⟨r, q, h, -, heq⟩
    · omega
    · rw [heq] at hover
      have hlog : n.log2 = f.topLog := by
        have hle : n.log2 < f.topLog + 1 := (Nat.log2_lt hne).2 hn
        have hge := (Nat.pow_le_pow_iff_right (by omega : 1 < 2)).1 (le_trans hover h.le)
        omega
      obtain ⟨hq, hlo, hhi⟩ := h.normal (by omega)
      have hq' : q = f.topLog - clo.mxMbits := by omega
      have hnear := h.near
      refine ⟨fun heq' => ?_, ?_⟩
      · have hmax := h.top (by omega)
        have hlt := Nat.mul_lt_mul_of_pos_right (lt_of_le_of_lt hmax (maxSig_lt clo))
          (Nat.two_pow_pos q)
        have hexp : 2 ^ (clo.mxMbits + 1) * 2 ^ q = 2 ^ (f.topLog + 1) := by
          rw [← pow_add]
          congr 1
          omega
        omega
      · rw [← hq']
        omega
  · rintro ⟨hne_top, hround⟩
    have hhalf : 2 ^ (f.topLog - clo.mxMbits) ≤ 2 ^ f.topLog :=
      Nat.pow_le_pow_right (by omega) (by omega)
    have hlog : n.log2 = f.topLog := log2_eq (by omega) hn
    have hquant : mxQuantum clo n.log2 shared = (f.topLog - clo.mxMbits : Nat) := by
      rw [mxQuantum_normal (by omega)]
      omega
    have hulp : ulp f.mant n < f.topLog - clo.mxMbits := by
      by_contra hge
      -- the next multiple of the unit in the last place would be the power of two itself
      have hu : f.topLog - clo.mxMbits ≤ ulp f.mant n := by omega
      have hu' : ulp f.mant n ≤ f.topLog + 1 := by
        unfold ulp
        omega
      obtain ⟨k, hk⟩ := hfit
      have hsplit : 2 ^ (f.topLog + 1) = 2 ^ ulp f.mant n * 2 ^ (f.topLog + 1 - ulp f.mant n) := by
        rw [← pow_add, Nat.add_sub_cancel' hu']
      have hklt : k < 2 ^ (f.topLog + 1 - ulp f.mant n) := by
        apply Nat.lt_of_mul_lt_mul_left (a := 2 ^ ulp f.mant n)
        omega
      have hkle := Nat.mul_le_mul_left (2 ^ ulp f.mant n) (Nat.succ_le_of_lt hklt)
      rw [Nat.mul_succ, ← hsplit, ← hk] at hkle
      have hunit : 2 ^ (f.topLog - clo.mxMbits) ≤ 2 ^ ulp f.mant n :=
        Nat.pow_le_pow_right (by omega) hu
      have := Nat.two_pow_pos (f.topLog - clo.mxMbits)
      omega
    rw [quantMag_of_ne_top hquant hulp (by omega)]
    have hexp : 2 ^ (clo.mxMbits + 1) * 2 ^ (f.topLog - clo.mxMbits) = 2 ^ (f.topLog + 1) := by
      rw [← pow_add]
      congr 1
      omega
    rw [← hexp] at hround ⊢
    exact Nat.mul_le_mul_right _ (le_roundTo_iff.2 hround)

/-- The same condition on the exact value of an element. -/
theorem carries_iff {f : FpFmt} (hf : f.Ieee) (hroom : clo.mxMbits < f.topLog) (v : ULong) :
    f.overflow ≤ f.mag v + 2 ^ (f.topLog - clo.mxMbits) / 2 ↔
      (2 - 2 ^ (-(clo.mxMbits + 1 : Int)) : ℚ) * 2 ^ (f.bias : Int) ≤ f.absValue v := by
  have hem := hf.emask_pos
  have hb := hf.bias
  obtain ⟨k, hk⟩ : ∃ k, f.topLog = clo.mxMbits + k + 1 := ⟨f.topLog - clo.mxMbits - 1, by omega⟩
  have hhalf : 2 ^ (f.topLog - clo.mxMbits) / 2 = 2 ^ k := by
    have : f.topLog - clo.mxMbits = k + 1 := by omega
    rw [this, pow_succ, Nat.mul_div_cancel _ (by omega)]
  have hover : f.overflow = 2 ^ (f.topLog + 1) := by
    unfold FpFmt.overflow FpFmt.topLog
    congr 1
    omega
  have hbias : (f.bias : Int) = f.topLog + f.minLsb := by
    unfold FpFmt.topLog FpFmt.minLsb
    omega
  have hval : (2 - 2 ^ (-(clo.mxMbits + 1 : Int)) : ℚ) * 2 ^ (f.bias : Int) =
      ((2 ^ (f.topLog + 1) : Nat) - (2 ^ k : Nat)) * 2 ^ f.minLsb := by
    have hlow : (2 : ℚ) ^ (-(clo.mxMbits + 1 : Int)) * 2 ^ (f.topLog : Int) = (2 ^ k : Nat) := by
      rw [← two_zpow_add, two_zpow_natCast]
      congr 1
      omega
    have hhigh : (2 : ℚ) * 2 ^ (f.topLog : Int) = (2 ^ (f.topLog + 1) : Nat) := by
      rw [← two_zpow_natCast]
      push_cast
      ring
    rw [hbias, two_zpow_add, ← mul_assoc, sub_mul, hlow, hhigh]
  rw [hval, FpFmt.absValue, mul_le_mul_iff_left₀ (two_zpow_pos _), sub_le_iff_le_add, hover, hhalf]
  exact_mod_cast Iff.rfl

end Quantised

/-! ## Leading exponents and magnitudes -/

section Magnitudes

variable {f : FpFmt} (hf : f.Ieee) {v : ULong} (hc : f.code v ≠ 0) {z : Int}
include hf hc

/-- The leading exponent as a bound on the magnitude. -/
theorem two_zpow_le_absValue_iff : (2 : ℚ) ^ z ≤ f.absValue v ↔ z ≤ mxLead f v := by
  have hpos := two_zpow_pos f.minLsb
  have hlo : (2 : ℚ) ^ mxLead f v ≤ f.absValue v := by
    rw [mxLead_eq hf hc, two_zpow_add]
    exact mul_le_mul_of_nonneg_right (two_zpow_log2_le (mag_ne_zero_iff.2 hc)) hpos.le
  have hhi : f.absValue v < (2 : ℚ) ^ (mxLead f v + 1) := by
    have hsum : mxLead f v + 1 = ((f.mag v).log2 + 1 : Int) + f.minLsb := by
      rw [mxLead_eq hf hc]
      omega
    rw [hsum, two_zpow_add]
    exact mul_lt_mul_of_pos_right (lt_two_zpow_log2 _) hpos
  constructor
  · intro h
    have hlt := lt_of_le_of_lt h hhi
    rw [zpow_lt_zpow_iff_right₀ (by norm_num)] at hlt
    omega
  · intro h
    exact le_trans (zpow_le_zpow_right₀ (by norm_num) h) hlo

theorem absValue_lt_two_zpow_iff : f.absValue v < (2 : ℚ) ^ z ↔ mxLead f v < z := by
  rw [← not_le, two_zpow_le_absValue_iff hf hc, not_le]

end Magnitudes

/-! ## Groups -/

section Group

variable {clo : Clo} {f : FpFmt} {vs : List ULong} {lmax : Int}

/-- The group whose largest element is the E4M3 subnormal of fifteen units, with a scale that is not
clamped. -/
def E4m3Subnormal (clo : Clo) (f : FpFmt) (vs : List ULong) (lmax : Int) : Prop :=
  clo.mxMbits = 3 ∧ clo.mxEmax = 8 ∧ -mxScaleMax clo ≤ lmax - 8 ∧ lmax = f.minLsb + 3 ∧
    ∃ v ∈ vs, f.absValue v = 15 * 2 ^ f.minLsb

/-- A group with a clamped scale and an element whose rounding carries out of the largest binade of
the format. -/
def CarriesOut (clo : Clo) (f : FpFmt) (vs : List ULong) (lmax : Int) : Prop :=
  lmax - clo.mxEmax < -mxScaleMax clo ∧
    ∃ v ∈ vs, (2 - 2 ^ (-(clo.mxMbits + 1 : Int)) : ℚ) * 2 ^ (f.bias : Int) ≤ f.absValue v

theorem absValue_eq_fifteen {v : ULong} : f.absValue v = 15 * 2 ^ f.minLsb ↔ f.mag v = 15 := by
  unfold FpFmt.absValue
  rw [mul_left_inj' (two_zpow_pos _).ne']
  exact_mod_cast Iff.rfl

/-- The leading exponents are those that the scan has found. -/
theorem ScanOf.lmax_eq {acc : MxScan} (hf : f.Ieee) (h : ScanOf f vs acc)
    (hfin : ∀ v ∈ vs, f.Finite v)
    (hlmax : IsGreatest {l | ∃ v ∈ vs, f.code v ≠ 0 ∧ f.expo v = l} lmax) :
    acc.nonfinite = false ∧ acc.any = true ∧ acc.lmax = lmax := by
  have hnf : acc.nonfinite = false := by
    rw [Bool.eq_false_iff, ne_eq, h.nonfinite]
    rintro ⟨v, hv, hno⟩
    exact hno (hfin v hv)
  obtain ⟨⟨v, hv, hc, hl⟩, hmax⟩ := hlmax
  have ha : f.Active v := ⟨hfin v hv, hc⟩
  have hany := h.any.2 ⟨v, hv, ha⟩
  refine ⟨hnf, hany, le_antisymm ?_ ?_⟩
  · obtain ⟨x, hx, hxa, hxl⟩ := h.attained hany
    rw [← hxl, mxLead_eq hf hxa.2]
    exact hmax ⟨x, hx, hxa.2, rfl⟩
  · have hle := h.le v hv ha
    rw [mxLead_eq hf hc] at hle
    rw [← hl]
    exact hle

/-- The exact value of an encoded element. -/
theorem isMxMagnitude_absValue {x : ULong} {shared : Int} :
    IsMxMagnitude clo shared (f.absValue x) ↔
      IsMxMagnitude clo (shared - f.minLsb) (f.mag x : ℚ) := by
  unfold FpFmt.absValue
  constructor
  · intro h
    have h' := h.scale (-f.minLsb)
    rwa [mul_assoc, ← two_zpow_add, add_neg_cancel, zpow_zero, mul_one,
      ← sub_eq_add_neg] at h'
  · intro h
    have h' := h.scale f.minLsb
    rwa [Int.sub_add_cancel] at h'

/-- The rounding of an element carries out of the largest binade only if the scale is clamped. -/
theorem overflow_le_iff_carries (hf : f.Ieee) (hroom : clo.mxMbits < f.topLog) {v : ULong}
    (ha : f.Active v) (hcap : f.expo v ≤ lmax) (hbias : lmax ≤ f.bias) :
    f.overflow ≤ quantMag clo f.mant (mxShared clo lmax - f.minLsb) (f.mag v) ↔
      lmax - clo.mxEmax < -mxScaleMax clo ∧
        (2 - 2 ^ (-(clo.mxMbits + 1 : Int)) : ℚ) * 2 ^ (f.bias : Int) ≤ f.absValue v := by
  have hem := hf.emask_pos
  have hb := hf.bias
  have hscale := mxScaleMax_nonneg clo
  have htop : (f.bias : Int) = f.topLog + f.minLsb := by
    unfold FpFmt.topLog FpFmt.minLsb
    omega
  have hlow : mxShared clo lmax - f.minLsb ≤ f.topLog := by
    rcases mxShared_cases clo lmax with ⟨-, h⟩ | ⟨-, h⟩ <;> omega
  have hlt := (finite_iff hf ha.2).1 ha.1
  have hfit : Fits f.mant (f.mag v) := fits_mag _ _
  rw [overflow_le_quantMag_iff hf hfit hlt hroom hlow, carries_iff hf hroom]
  refine and_congr_left fun hcarry => ?_
  -- a carry happens in the largest binade, which is then the one of the largest element
  have hlog : (f.mag v).log2 = f.topLog := by
    have hround := (carries_iff hf hroom v).2 hcarry
    have hover : f.overflow = 2 ^ f.topLog * 2 := by
      unfold FpFmt.overflow FpFmt.topLog
      rw [← pow_succ]
      congr 1
      omega
    have hhalf : 2 ^ (f.topLog - clo.mxMbits) ≤ 2 ^ f.topLog :=
      Nat.pow_le_pow_right (by omega) (by omega)
    apply log2_eq
    · omega
    · rw [pow_succ]
      omega
  unfold FpFmt.expo at hcap
  rcases mxShared_cases clo lmax with ⟨h, h'⟩ | ⟨h, h'⟩
  · constructor <;> intro <;> omega
  · constructor <;> intro <;> omega

/-- **One element** of a group, encoded. -/
theorem element_iff (hf : f.Ieee) (hmant : 3 < f.mant) (hroom : clo.mxMbits < f.topLog) {v : ULong}
    (hv : f.Word v) (hfin : f.Finite v) (hcap : f.code v ≠ 0 → f.expo v ≤ lmax)
    (hbias : lmax ≤ f.bias) :
    (f.code (mxQuantize clo f v (mxShared clo lmax)) ≠ 0 →
      f.Finite (mxQuantize clo f v (mxShared clo lmax)) ∧
        IsMxMagnitude clo (mxShared clo lmax)
          (f.absValue (mxQuantize clo f v (mxShared clo lmax)))) ↔
      ¬E4m3Top clo (mxShared clo lmax - f.minLsb) (f.mag v) ∧
        ¬(lmax - clo.mxEmax < -mxScaleMax clo ∧
          (2 - 2 ^ (-(clo.mxMbits + 1 : Int)) : ℚ) * 2 ^ (f.bias : Int) ≤ f.absValue v) := by
  have hfinite := mxQuantize_finite_iff hf clo (mxShared clo lmax) hv hfin
  have hmag := mag_mxQuantize hf clo (mxShared clo lmax) hv hfin
  by_cases hc : f.code v = 0
  · have hz : f.mag v = 0 := mag_eq_zero.2 hc
    have hq : f.mag (mxQuantize clo f v (mxShared clo lmax)) = 0 := by
      rw [hz, quantMag_zero] at hmag
      exact hmag f.overflow_pos
    refine iff_of_true (fun hne => absurd (mag_eq_zero.1 hq) hne) ⟨?_, ?_⟩
    · rintro ⟨-, -, -, h15⟩
      omega
    · rintro ⟨-, hcarry⟩
      have hpow : 2 ^ (f.topLog - clo.mxMbits) ≤ f.overflow := by
        unfold FpFmt.overflow FpFmt.topLog
        exact Nat.pow_le_pow_right (by omega) (by omega)
      have hover := f.overflow_pos
      rw [← carries_iff hf hroom, hz] at hcarry
      omega
  · have ha : f.Active v := ⟨hfin, hc⟩
    have hn : f.mag v ≠ 0 := mag_ne_zero hc
    have hcap := hcap hc
    rw [← overflow_le_iff_carries hf hroom ha hcap hbias, not_le, isMxMagnitude_absValue]
    by_cases hlt : quantMag clo f.mant (mxShared clo lmax - f.minLsb) (f.mag v) < f.overflow
    · rw [hmag hlt, ← mag_ne_zero_iff, hmag hlt]
      have hfinq := hfinite.2 hlt
      by_cases htop : E4m3Top clo (mxShared clo lmax - f.minLsb) (f.mag v)
      · obtain ⟨h15, hnot⟩ := quantMag_of_e4m3Top f.mant htop
        rw [h15]
        refine iff_of_false (fun h => hnot (h (by decide)).2) fun h => h.1 htop
      · refine iff_of_true (fun hq => ⟨hfinq, ?_⟩) ⟨htop, hlt⟩
        refine isMxMagnitude_quantMag (fits_mag _ _) hmant hq ?_ htop
        have hshared := le_mxShared_add clo lmax
        unfold FpFmt.expo at hcap
        omega
    · have hnotfin := mt hfinite.1 hlt
      refine iff_of_false (fun h => hnotfin (h ?_).1) fun h => hlt h.2
      exact code_ne_zero_of_not_finite hf hnotfin

/-- The settings and formats of the command line leave room above the mantissa. -/
theorem format_room (clo : Clo) (hf : f = fmt64 ∨ f = fmt32) :
    f.Ieee ∧ 3 < f.mant ∧ clo.mxMbits < f.topLog := by
  have hm := clo.mxMbits_range
  rcases hf with rfl | rfl
  · exact ⟨FpFmt.fmt64_ieee, by decide, lt_of_le_of_lt hm (by decide)⟩
  · exact ⟨FpFmt.fmt32_ieee, by decide, lt_of_le_of_lt hm (by decide)⟩

/-- **The encoder puts out MX elements**, for exactly these groups. Take a group of finite elements
whose largest leading exponent is `lmax`, with a scale that is not above the range. Every nonzero
element of the encoded group is finite and an MX element of the shared exponent if and only if the
group is neither led by the E4M3 subnormal that is returned unrounded, nor, under a clamped scale,
holds an element whose rounding carries out of the format. -/
theorem mxEncodeBlock_elements_iff (clo : Clo) (hf : f = fmt64 ∨ f = fmt32) (bk : Block)
    (bi : SizeT) (m : Mem) (lmax : Int) (hfin : ∀ v ∈ mxGroup f bk bi m, f.Finite v)
    (hlmax : IsGreatest {l | ∃ v ∈ mxGroup f bk bi m, f.code v ≠ 0 ∧ f.expo v = l} lmax)
    (hrange : lmax - clo.mxEmax ≤ mxScaleMax clo) :
    (∀ q ∈ mxGroup f bk bi (mxEncodeBlock clo f bk bi m), f.code q ≠ 0 →
      f.Finite q ∧ IsMxMagnitude clo (mxShared clo lmax) (f.absValue q)) ↔
      ¬E4m3Subnormal clo f (mxGroup f bk bi m) lmax ∧
        ¬CarriesOut clo f (mxGroup f bk bi m) lmax := by
  obtain ⟨hieee, hmant, hroom⟩ := format_room clo hf
  have hwords : ∀ v ∈ mxGroup f bk bi m, f.Word v := mxGroup_word hieee
  rw [mxEncodeBlock_elems clo hieee]
  generalize mxGroup f bk bi m = vs at *
  have hscan := scanOf_scanGroup hieee hwords
  obtain ⟨hnf, hany, hl⟩ := hscan.lmax_eq hieee hfin hlmax
  have hmap : mxElementMap clo f (scanGroup f vs) =
      fun v => mxQuantize clo f v (mxShared clo lmax) := by
    rw [mxElementMap_quantize clo hnf hany (by rwa [hl]), hl]
  have hcap : ∀ v ∈ vs, f.code v ≠ 0 → f.expo v ≤ lmax := fun v hv hc => hlmax.2 ⟨v, hv, hc, rfl⟩
  have hbias : lmax ≤ f.bias := by
    obtain ⟨⟨v, hv, hc, rfl⟩, -⟩ := hlmax
    rw [FpFmt.expo, ← mxLead_eq hieee hc]
    exact mxLead_le_bias hieee ⟨hfin v hv, hc⟩
  have helem := fun v (hv : v ∈ vs) =>
    element_iff hieee hmant hroom (hwords v hv) (hfin v hv) (hcap v hv) hbias
  have hall : (∀ q ∈ encodeGroup clo f vs, f.code q ≠ 0 →
      f.Finite q ∧ IsMxMagnitude clo (mxShared clo lmax) (f.absValue q)) ↔
      ∀ v ∈ vs, ¬E4m3Top clo (mxShared clo lmax - f.minLsb) (f.mag v) ∧
        ¬(lmax - clo.mxEmax < -mxScaleMax clo ∧
          (2 - 2 ^ (-(clo.mxMbits + 1 : Int)) : ℚ) * 2 ^ (f.bias : Int) ≤ f.absValue v) := by
    rw [encodeGroup, hmap, List.forall_mem_map]
    exact forall₂_congr helem
  rw [hall, forall₂_and]
  refine and_congr ?_ ?_
  · -- the subnormal of fifteen units is in the top binade exactly when it leads the group
    constructor
    · rintro h ⟨hm, he, hclamp, hlead, v, hv, h15⟩
      rw [absValue_eq_fifteen] at h15
      refine h v hv ⟨hm, he, ?_, h15⟩
      rcases mxShared_cases clo lmax with ⟨-, hs⟩ | ⟨hs, -⟩ <;> omega
    · rintro h v hv ⟨hm, he, hs, h15⟩
      have hc : f.code v ≠ 0 := by
        rw [← mag_ne_zero_iff, h15]
        decide
      have hexpo := hcap v hv hc
      have hlog : Nat.log2 15 = 3 := by decide
      rw [FpFmt.expo, h15, hlog] at hexpo
      have hshared := le_mxShared_add clo lmax
      refine h ⟨hm, he, ?_, ?_, v, hv, absValue_eq_fifteen.2 h15⟩
      · rcases mxShared_cases clo lmax with ⟨h', -⟩ | ⟨h', h''⟩ <;> omega
      · omega
  · constructor
    · rintro h ⟨hclamp, v, hv, hcarry⟩
      exact h v hv ⟨hclamp, hcarry⟩
    · rintro h v hv ⟨hclamp, hcarry⟩
      exact h ⟨hclamp, v, hv, hcarry⟩

end Group

/-- A block of one element. -/
def oneElement (f : FpFmt) (v : ULong) : Block × Mem :=
  (⟨0#64, BitVec.ofNat 64 f.esz, [], true⟩, mxStore f (fun _ => 0#8) 0#64 v)

/-- A block of two elements. -/
def twoElements (f : FpFmt) (v w : ULong) : Block × Mem :=
  (⟨0#64, BitVec.ofNat 64 (2 * f.esz), [], true⟩,
    mxStore f (mxStore f (fun _ => 0#8) 0#64 v) (BitVec.ofNat 64 f.esz) w)

/-- The floats `1.2` and `-0.01875` under the default settings: the shared exponent is `-8`. -/
theorem mxEncodeBlock_elements_iff_two :
    let (bk, m) := twoElements fmt32 0x3F99999A#64 0xBC99999A#64
    mxGroup fmt32 bk 0#64 m = [0x3F99999A#64, 0xBC99999A#64] ∧
      mxGroup fmt32 bk 0#64 (mxEncodeBlock {} fmt32 bk 0#64 m) = [0x3FA00000#64, 0xBCA00000#64] ∧
      ∀ q ∈ mxGroup fmt32 bk 0#64 (mxEncodeBlock {} fmt32 bk 0#64 m),
        fmt32.code q ≠ 0 → fmt32.Finite q ∧ IsMxMagnitude {} (-8) (fmt32.absValue q) := by
  have hgroup : mxGroup fmt32 (twoElements fmt32 0x3F99999A#64 0xBC99999A#64).1 0#64
      (twoElements fmt32 0x3F99999A#64 0xBC99999A#64).2 =
        [0x3F99999A#64, 0xBC99999A#64] := by decide
  refine ⟨hgroup, by decide, ?_⟩
  have hiff := mxEncodeBlock_elements_iff (f := fmt32) {} (.inr rfl)
    (twoElements fmt32 0x3F99999A#64 0xBC99999A#64).1 0#64
    (twoElements fmt32 0x3F99999A#64 0xBC99999A#64).2 0
  rw [hgroup] at hiff
  refine (hiff ?_ ?_ ?_).2 ⟨?_, ?_⟩
  · exact List.forall_mem_cons.2 ⟨by decide, List.forall_mem_singleton.2 (by decide)⟩
  · refine ⟨⟨_, List.mem_cons_self, by decide, by decide⟩, ?_⟩
    rintro l ⟨v, hv, -, rfl⟩
    revert v
    exact List.forall_mem_cons.2 ⟨by decide, List.forall_mem_singleton.2 (by decide)⟩
  · decide
  · rintro ⟨-, -, -, hl, -⟩
    exact absurd hl (by decide)
  · rintro ⟨hl, -⟩
    exact absurd hl (by decide)

/-- With a twelve-bit scale the E4M3 subnormal of fifteen units stays above `max_norm`, and with a
one-bit scale the largest float is rounded to an infinity. -/
theorem mxEncodeBlock_not_elements :
    (let clo : Clo := { mxScaleBits := 12 }
      let (bk, m) := oneElement fmt64 15#64
      mxGroup fmt64 bk 0#64 m = [15#64] ∧ fmt64.Finite 15#64 ∧
        fmt64.expo 15#64 - clo.mxEmax ≤ mxScaleMax clo ∧
        mxGroup fmt64 bk 0#64 (mxEncodeBlock clo fmt64 bk 0#64 m) = [15#64] ∧
        ¬IsMxMagnitude clo (mxShared clo (fmt64.expo 15#64)) (fmt64.absValue 15#64)) ∧
      (let clo : Clo := { mxScaleBits := 1, mxEmax := 1023 }
      let (bk, m) := oneElement fmt32 0x7F7FFFFF#64
      mxGroup fmt32 bk 0#64 m = [0x7F7FFFFF#64] ∧ fmt32.Finite 0x7F7FFFFF#64 ∧
        fmt32.expo 0x7F7FFFFF#64 - clo.mxEmax ≤ mxScaleMax clo ∧
        mxGroup fmt32 bk 0#64 (mxEncodeBlock clo fmt32 bk 0#64 m) = [0x7F800000#64] ∧
        ¬fmt32.Finite 0x7F800000#64) := by
  refine ⟨⟨by decide, by decide, by decide, by decide, ?_⟩, by decide, by decide, by decide,
    by decide, by decide⟩
  rw [isMxMagnitude_absValue]
  have hmag : fmt64.mag 15#64 = 15 := by decide
  rw [hmag]
  exact (quantMag_of_e4m3Top 52 (n := 15) ⟨rfl, rfl, by decide, rfl⟩).2

end Memlog
