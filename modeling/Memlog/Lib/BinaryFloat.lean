import Mathlib.Algebra.Order.Ring.Nat
import Mathlib.Data.Nat.Log
import Mathlib.Tactic.Ring

/-!
# Binary floating point by codes

A finite word of a binary format with `m` stored mantissa bits is, apart from its sign, a *code*:
the exponent field followed by the mantissa field, read as one number. Its *magnitude* is counted in
units of the smallest subnormal, so that every finite value is a natural number and no rational
arithmetic is needed.

* `code_mag`, `mag_code`: codes and the magnitudes that fit the format correspond.
* `roundTo`: the nearest multiple of a power of two, ties away from zero. `roundTo_scale` says that
  rounding a significand is rounding the magnitude.
-/

namespace Memlog.Lib.Fp

/-! ## Powers of two and logarithms -/

section Log

variable {a k n : Nat}

theorem log2_eq (hlo : 2 ^ k ≤ n) (hhi : n < 2 ^ (k + 1)) : n.log2 = k := by
  have hn : n ≠ 0 := by
    have := Nat.two_pow_pos k
    omega
  have h₁ := (Nat.le_log2 hn).2 hlo
  have h₂ := (Nat.log2_lt hn).2 hhi
  omega

theorem log2_mul_two_pow (hn : n ≠ 0) : (n * 2 ^ k).log2 = n.log2 + k := by
  apply log2_eq
  · rw [pow_add]
    exact Nat.mul_le_mul_right _ (Nat.log2_self_le hn)
  · have h := Nat.mul_lt_mul_of_pos_right (Nat.lt_log2_self (n := n)) (Nat.two_pow_pos k)
    calc n * 2 ^ k < 2 ^ (n.log2 + 1) * 2 ^ k := h
      _ = 2 ^ (n.log2 + k + 1) := by rw [← pow_add]; congr 1; omega

theorem log2_mono (ha : a ≠ 0) (h : a ≤ n) : a.log2 ≤ n.log2 := by
  have hn : n ≠ 0 := by omega
  rw [Nat.le_log2 hn]
  exact le_trans (Nat.log2_self_le ha) h

end Log

/-! ## Codes and magnitudes -/

/-- The exponent of the unit in the last place of a code. -/
def unit (m c : Nat) : Nat := c / 2 ^ m - 1

/-- The significand of a code, with the implicit bit of a normal one. -/
def sig (m c : Nat) : Nat := c - unit m c * 2 ^ m

/-- The magnitude of a code. -/
def mag (m c : Nat) : Nat := sig m c * 2 ^ unit m c

/-- The exponent of the unit in the last place of a magnitude. -/
def ulp (m n : Nat) : Nat := n.log2 - m

/-- The code of a magnitude. -/
def code (m n : Nat) : Nat := ulp m n * 2 ^ m + n / 2 ^ ulp m n

/-- A magnitude with at most `m + 1` significant bits. -/
def Fits (m n : Nat) : Prop := 2 ^ ulp m n ∣ n

section Codes

variable {m c n k r q : Nat}

/-- A code is subnormal, or it has the implicit bit. -/
theorem sig_cases (m c : Nat) :
    (c < 2 ^ m ∧ unit m c = 0 ∧ sig m c = c) ∨
      (2 ^ m ≤ c ∧ unit m c + 1 = c / 2 ^ m ∧ sig m c = 2 ^ m + c % 2 ^ m) := by
  have hpos := Nat.two_pow_pos m
  rcases Nat.lt_or_ge c (2 ^ m) with hc | hc
  · have hdiv : c / 2 ^ m = 0 := Nat.div_eq_of_lt hc
    refine .inl ⟨hc, ?_, ?_⟩ <;> simp [sig, unit, hdiv]
  · have hdiv : 0 < c / 2 ^ m := Nat.div_pos hc hpos
    have hmod := Nat.div_add_mod' c (2 ^ m)
    have hunit : unit m c + 1 = c / 2 ^ m := by
      unfold unit
      omega
    refine .inr ⟨hc, hunit, ?_⟩
    have hsplit : c / 2 ^ m * 2 ^ m = unit m c * 2 ^ m + 2 ^ m := by
      rw [← hunit, Nat.succ_mul]
    unfold sig
    omega

theorem sig_lt (m c : Nat) : sig m c < 2 ^ (m + 1) := by
  have hpos := Nat.two_pow_pos m
  have hmod := Nat.mod_lt c hpos
  rw [pow_succ]
  rcases sig_cases m c with ⟨hc, -, hs⟩ | ⟨-, -, hs⟩ <;> omega

theorem sig_ne_zero (hc : c ≠ 0) : sig m c ≠ 0 := by
  have hpos := Nat.two_pow_pos m
  rcases sig_cases m c with ⟨-, -, hs⟩ | ⟨-, -, hs⟩ <;> omega

theorem sig_add_unit (m c : Nat) : unit m c * 2 ^ m + sig m c = c := by
  have hmod := Nat.div_add_mod' c (2 ^ m)
  rcases sig_cases m c with ⟨-, hu, hs⟩ | ⟨-, hu, hs⟩
  · rw [hu, hs, Nat.zero_mul, Nat.zero_add]
  · rw [← hu, Nat.succ_mul] at hmod
    omega

@[simp] theorem mag_zero (m : Nat) : mag m 0 = 0 := by
  simp [mag, sig]

theorem mag_ne_zero (hc : c ≠ 0) : mag m c ≠ 0 :=
  Nat.mul_ne_zero (sig_ne_zero hc) (Nat.two_pow_pos _).ne'

theorem mag_eq_zero : mag m c = 0 ↔ c = 0 := by
  constructor
  · intro h
    by_contra hc
    exact mag_ne_zero hc h
  · rintro rfl
    exact mag_zero m

theorem log2_mag (hc : c ≠ 0) : (mag m c).log2 = (sig m c).log2 + unit m c :=
  log2_mul_two_pow (sig_ne_zero hc)

theorem ulp_mag (hc : c ≠ 0) : ulp m (mag m c) = unit m c := by
  have hlt := sig_lt m c
  have hne := sig_ne_zero (m := m) hc
  have hlog : (sig m c).log2 < m + 1 := (Nat.log2_lt hne).2 hlt
  unfold ulp
  rw [log2_mag hc]
  rcases sig_cases m c with ⟨hcm, hu, hs⟩ | ⟨-, -, hs⟩
  · have hlog' : (sig m c).log2 < m := (Nat.log2_lt hne).2 (by omega)
    omega
  · have hlog' : m ≤ (sig m c).log2 := (Nat.le_log2 hne).2 (by omega)
    omega

theorem fits_mag (m c : Nat) : Fits m (mag m c) := by
  rcases Nat.eq_zero_or_pos c with rfl | hc
  · simp [Fits]
  · unfold Fits
    rw [ulp_mag hc.ne']
    exact Dvd.intro_left _ rfl

@[simp] theorem code_mag (m c : Nat) : code m (mag m c) = c := by
  rcases Nat.eq_zero_or_pos c with rfl | hc
  · simp [code, ulp]
  · unfold code
    rw [ulp_mag hc.ne', mag, Nat.mul_div_cancel _ (Nat.two_pow_pos _)]
    exact sig_add_unit m c

/-- The leading `m + 1` bits of a magnitude. -/
theorem lead_bits (hn : n ≠ 0) :
    n / 2 ^ ulp m n < 2 ^ (m + 1) ∧ (ulp m n ≠ 0 → 2 ^ m ≤ n / 2 ^ ulp m n) := by
  have hpos := Nat.two_pow_pos (ulp m n)
  constructor
  · rw [Nat.div_lt_iff_lt_mul hpos, ← pow_add]
    refine lt_of_lt_of_le Nat.lt_log2_self (Nat.pow_le_pow_right (by omega) ?_)
    unfold ulp
    omega
  · intro hu
    rw [Nat.le_div_iff_mul_le hpos, ← pow_add]
    refine le_trans (Nat.pow_le_pow_right (by omega) ?_) (Nat.log2_self_le hn)
    unfold ulp at hu ⊢
    omega

theorem mag_code (h : Fits m n) : mag m (code m n) = n := by
  rcases Nat.eq_zero_or_pos n with rfl | hn
  · simp [code, ulp]
  obtain ⟨hlt, hge⟩ := lead_bits (m := m) hn.ne'
  have hpos := Nat.two_pow_pos m
  rw [pow_succ] at hlt
  have hunit : unit m (code m n) = ulp m n := by
    unfold unit code
    rcases Nat.eq_zero_or_pos (ulp m n) with hu | hu
    · rw [hu, Nat.zero_mul, Nat.zero_add]
      rw [hu] at hlt
      have : n / 2 ^ 0 / 2 ^ m < 2 := (Nat.div_lt_iff_lt_mul hpos).2 (by omega)
      omega
    · rw [Nat.add_comm, Nat.add_mul_div_right _ _ hpos]
      have hone : n / 2 ^ ulp m n / 2 ^ m = 1 := by
        apply Nat.div_eq_of_lt_le
        · rw [Nat.one_mul]
          exact hge hu.ne'
        · omega
      omega
  have hsig : sig m (code m n) = n / 2 ^ ulp m n := by
    unfold sig
    rw [hunit]
    exact Nat.add_sub_cancel_left _ _
  unfold mag
  rw [hsig, hunit]
  exact Nat.div_mul_cancel h

/-- The codes of magnitudes below a power of two. -/
theorem code_lt_iff (hk : 0 < k) (hn : n ≠ 0) : code m n < (k + 1) * 2 ^ m ↔ n < 2 ^ (m + k) := by
  obtain ⟨hlt, hge⟩ := lead_bits (m := m) hn
  have hpos := Nat.two_pow_pos m
  rw [pow_succ] at hlt
  rw [← Nat.log2_lt hn]
  unfold code
  constructor
  · intro hc
    by_contra hlog
    have hu : k ≤ ulp m n := by
      unfold ulp
      omega
    have hmul := Nat.mul_le_mul_right (2 ^ m) hu
    have hge := hge (by omega)
    rw [Nat.succ_mul] at hc
    omega
  · intro hlog
    have hu : ulp m n + 1 ≤ k := by
      unfold ulp
      omega
    have hmul := Nat.mul_le_mul_right (2 ^ m) hu
    rw [Nat.succ_mul] at hmul ⊢
    omega

theorem mag_lt_iff (hk : 0 < k) (hc : c ≠ 0) : mag m c < 2 ^ (m + k) ↔ c < (k + 1) * 2 ^ m := by
  rw [← code_lt_iff hk (mag_ne_zero hc), code_mag]

/-- A multiple of a power of two that is no finer than the unit in the last place fits. -/
theorem fits_of_ulp_le (hd : 2 ^ q ∣ n) (hu : ulp m n ≤ q) : Fits m n :=
  dvd_trans (pow_dvd_pow 2 hu) hd

theorem fits_mul_two_pow (hr : r < 2 ^ (m + 1)) : Fits m (r * 2 ^ q) := by
  rcases Nat.eq_zero_or_pos r with rfl | hpos
  · simp [Fits]
  · refine fits_of_ulp_le (q := q) (Dvd.intro_left _ rfl) ?_
    have hlog : r.log2 < m + 1 := (Nat.log2_lt hpos.ne').2 hr
    unfold ulp
    rw [log2_mul_two_pow hpos.ne']
    omega

/-- A significand, shifted until its leading bit is the implicit bit. -/
theorem normalize_bounds (hr : r ≠ 0) (hlog : r.log2 ≤ m) :
    2 ^ m ≤ r * 2 ^ (m - r.log2) ∧ r * 2 ^ (m - r.log2) < 2 ^ (m + 1) := by
  have hlog' : (r * 2 ^ (m - r.log2)).log2 = m := by
    rw [log2_mul_two_pow hr]
    omega
  have hlo := Nat.log2_self_le (Nat.mul_ne_zero hr (Nat.two_pow_pos (m - r.log2)).ne')
  have hhi := Nat.lt_log2_self (n := r * 2 ^ (m - r.log2))
  rw [hlog'] at hlo hhi
  exact ⟨hlo, hhi⟩

/-- The fields of a normal magnitude: its exponent field is `u + 1`, and the mantissa field is the
normalised significand without the implicit bit. -/
theorem code_of_normal {u : Nat} (hr : r ≠ 0) (hlog : r.log2 ≤ m) (hu : r.log2 + q = m + u) :
    code m (r * 2 ^ q) = (u + 1) * 2 ^ m + (r * 2 ^ (m - r.log2) - 2 ^ m) := by
  obtain ⟨hlo, -⟩ := normalize_bounds hr hlog
  have hulp : ulp m (r * 2 ^ q) = u := by
    unfold ulp
    rw [log2_mul_two_pow hr]
    omega
  have hlead : r * 2 ^ q = r * 2 ^ (m - r.log2) * 2 ^ u := by
    rw [Nat.mul_assoc, ← pow_add]
    congr 2
    omega
  unfold code
  rw [hulp, hlead, Nat.mul_div_cancel _ (Nat.two_pow_pos u), Nat.succ_mul]
  omega

end Codes

/-! ## Rounding -/

/-- The multiple of `2 ^ q` nearest to `n`, ties away from zero, in units of `2 ^ q`. -/
def roundTo (q n : Nat) : Nat := (n + 2 ^ q / 2) / 2 ^ q

section Round

variable {q n k u s : Nat}

theorem le_roundTo_iff : k ≤ roundTo q n ↔ k * 2 ^ q ≤ n + 2 ^ q / 2 :=
  Nat.le_div_iff_mul_le (Nat.two_pow_pos q)

theorem roundTo_mono {n' : Nat} (h : n ≤ n') : roundTo q n ≤ roundTo q n' :=
  Nat.div_le_div_right (by omega)

/-- A multiple is its own rounding. -/
@[simp] theorem roundTo_mul (q k : Nat) : roundTo q (k * 2 ^ q) = k := by
  have hpos := Nat.two_pow_pos q
  unfold roundTo
  rw [Nat.add_comm, Nat.add_mul_div_right _ _ hpos, Nat.div_eq_of_lt (by omega), Nat.zero_add]

theorem roundTo_mul_of_dvd (h : 2 ^ q ∣ n) : roundTo q n * 2 ^ q = n := by
  obtain ⟨k, rfl⟩ := h
  rw [Nat.mul_comm (2 ^ q) k, roundTo_mul]

theorem le_roundTo (h : k * 2 ^ q ≤ n) : k ≤ roundTo q n := by
  rw [← roundTo_mul q k]
  exact roundTo_mono h

theorem roundTo_le (h : n ≤ k * 2 ^ q) : roundTo q n ≤ k := by
  rw [← roundTo_mul q k]
  exact roundTo_mono h

/-- Rounding at a positive exponent does not enlarge the number. -/
theorem roundTo_le_self (hq : 0 < q) : roundTo q n ≤ n := by
  rcases Nat.eq_zero_or_pos n with rfl | hn
  · exact roundTo_le (Nat.zero_le _)
  · have h2 : 2 ≤ 2 ^ q := by
      calc 2 = 2 ^ 1 := rfl
        _ ≤ 2 ^ q := Nat.pow_le_pow_right (by omega) hq
    apply roundTo_le
    exact Nat.le_mul_of_pos_right n (by omega)

/-- Rounding a significand is rounding the magnitude. -/
theorem roundTo_scale (hs : 0 < s) : roundTo (u + s) (n * 2 ^ u) = roundTo s n := by
  obtain ⟨t, rfl⟩ : ∃ t, s = t + 1 := ⟨s - 1, by omega⟩
  have hhalf : ∀ x : Nat, 2 ^ (x + 1) / 2 = 2 ^ x := by
    intro x
    rw [pow_succ, Nat.mul_div_cancel _ (by omega)]
  unfold roundTo
  rw [← Nat.add_assoc, hhalf, hhalf, Nat.add_assoc, pow_add 2 u (t + 1), pow_add 2 u t,
    Nat.mul_comm n, ← Nat.mul_add, Nat.mul_div_mul_left _ _ (Nat.two_pow_pos u)]

theorem roundTo_eq_zero_iff (hq : 0 < q) : roundTo q n = 0 ↔ n < 2 ^ (q - 1) := by
  have h : ¬1 ≤ roundTo q n ↔ ¬1 * 2 ^ q ≤ n + 2 ^ q / 2 := not_congr le_roundTo_iff
  obtain ⟨t, rfl⟩ : ∃ t, q = t + 1 := ⟨q - 1, by omega⟩
  rw [pow_succ] at h
  rw [Nat.add_sub_cancel]
  omega

end Round

end Memlog.Lib.Fp
