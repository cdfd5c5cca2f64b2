import Memlog.Lib.BinaryFloat
import Memlog.Mx.Model

/-!
# Quantisation of magnitudes

`mx_quantize` without the bit fields: on the magnitude of an element, counted in units of the
smallest subnormal, with the shared exponent counted from there too. `quantMag_spec` says what a
quantised magnitude is: the element as it was, or a significand times a quantum (`Rounded`).
Quantising again at the same shared exponent changes nothing (`quantMag_idem`), and an element of
the top binade stays in it (`log2_quantMag_top`).
-/

namespace Memlog

open Lib.Fp

/-- `mx_max_sig` as a number. -/
def Clo.maxSig (clo : Clo) : Nat :=
  if clo.mxMbits = 3 ∧ clo.mxEmax = 8 then 14 else 2 ^ (clo.mxMbits + 1) - 1

/-- `mx_quantize` on magnitudes. -/
def quantMag (clo : Clo) (mant : Nat) (shared : Int) (n : Nat) : Nat :=
  let q := mxQuantum clo n.log2 shared
  if q ≤ ulp mant n then n
  else
    let r := roundTo q.toNat n
    (if q = shared + clo.mxEmax - clo.mxMbits ∧ clo.maxSig < r then clo.maxSig else r) * 2 ^ q.toNat

section MaxSig

variable (clo : Clo)

/-- All ones, or one less with the format of three bits. -/
theorem maxSig_cases : clo.maxSig = 2 ^ (clo.mxMbits + 1) - 1 ∨
    clo.mxMbits = 3 ∧ clo.maxSig = 2 ^ (clo.mxMbits + 1) - 2 := by
  unfold Clo.maxSig
  split
  · next h =>
    rw [h.1]
    exact .inr ⟨rfl, rfl⟩
  · exact .inl rfl

theorem two_pow_le_maxSig : 2 ^ clo.mxMbits ≤ clo.maxSig := by
  have hpos := Nat.two_pow_pos clo.mxMbits
  rcases maxSig_cases clo with heq | ⟨hbits, heq⟩
  · rw [heq, pow_succ]
    omega
  · rw [heq, hbits]
    decide

theorem maxSig_lt : clo.maxSig < 2 ^ (clo.mxMbits + 1) := by
  have hpos := Nat.two_pow_pos (clo.mxMbits + 1)
  rcases maxSig_cases clo with heq | ⟨-, heq⟩
  · omega
  · omega

theorem mxMaxSig_toNat : (mxMaxSig clo).toNat = clo.maxSig := by
  have hm := clo.mxMbits_range
  have hlt : 2 ^ (clo.mxMbits + 1) < 2 ^ 64 := Nat.pow_lt_pow_right (by omega) (by omega)
  have hpos := Nat.two_pow_pos (clo.mxMbits + 1)
  have hshift : (1#64 <<< (clo.mxMbits + 1)).toNat = 2 ^ (clo.mxMbits + 1) := by
    rw [BitVec.toNat_shiftLeft, Nat.shiftLeft_eq, BitVec.toNat_ofNat,
      Nat.one_mod_two_pow (by omega), Nat.one_mul, Nat.mod_eq_of_lt hlt]
  have hones : ((1#64 <<< (clo.mxMbits + 1)) - 1#64).toNat = 2 ^ (clo.mxMbits + 1) - 1 := by
    rw [BitVec.toNat_sub_of_le]
    · rw [hshift]
      rfl
    · rw [BitVec.le_def, hshift]
      exact hpos
  unfold mxMaxSig Clo.maxSig
  by_cases h : clo.mxMbits = 3 ∧ clo.mxEmax = 8
  · rw [if_pos h, if_pos h, h.1]
    rfl
  · rw [if_neg h, if_neg h, hones]

end MaxSig

section Quantum

variable {clo : Clo} {lead shared : Int}

theorem mxQuantum_add (clo : Clo) (lead shared d : Int) :
    mxQuantum clo (lead + d) (shared + d) = mxQuantum clo lead shared + d := by
  unfold mxQuantum
  have hsub : lead + d - (shared + d) = lead - shared := by omega
  rw [hsub]
  split <;> omega

theorem mxQuantum_normal (h : clo.mxEmin ≤ lead - shared) :
    mxQuantum clo lead shared = lead - clo.mxMbits := by
  rw [mxQuantum, if_pos h]

theorem mxQuantum_subnormal (h : lead - shared ≤ clo.mxEmin) :
    mxQuantum clo lead shared = shared + clo.mxEmin - clo.mxMbits := by
  unfold mxQuantum
  split <;> omega

end Quantum

/-! ## The significand and the quantum of a rounded magnitude -/

/-- The magnitude `n` is rounded to the significand `r` in units of `2 ^ q`. -/
structure Rounded (clo : Clo) (shared : Int) (n r q : Nat) : Prop where
  quantum : mxQuantum clo n.log2 shared = q
  le : r * 2 ^ q ≤ 2 ^ (n.log2 + 1)
  near : r * 2 ^ q ≤ n + 2 ^ q / 2
  top : (q : Int) = shared + clo.mxEmax - clo.mxMbits → r ≤ clo.maxSig
  normal : clo.mxEmin ≤ n.log2 - shared →
    n.log2 = q + clo.mxMbits ∧ 2 ^ clo.mxMbits ≤ r ∧ r ≤ 2 ^ (clo.mxMbits + 1)
  subnormal : n.log2 - shared < clo.mxEmin →
    (q : Int) = shared + clo.mxEmin - clo.mxMbits ∧ r ≤ 2 ^ clo.mxMbits

section Rounded

variable {clo : Clo} {shared : Int} {mant n r q : Nat}

/-- Rounding carries at most to the next power of two. -/
theorem roundTo_mul_le (n q : Nat) : roundTo q n * 2 ^ q ≤ 2 ^ (n.log2 + 1) := by
  rcases Nat.lt_or_ge (n.log2 + 1) q with hq | hq
  · have hzero : roundTo q n = 0 := by
      rw [roundTo_eq_zero_iff (by omega)]
      exact lt_of_lt_of_le Nat.lt_log2_self (Nat.pow_le_pow_right (by omega) (by omega))
    rw [hzero, Nat.zero_mul]
    exact Nat.zero_le _
  · have hle : roundTo q n ≤ 2 ^ (n.log2 + 1 - q) := by
      apply roundTo_le
      rw [← pow_add, Nat.sub_add_cancel hq]
      exact Nat.lt_log2_self.le
    calc roundTo q n * 2 ^ q ≤ 2 ^ (n.log2 + 1 - q) * 2 ^ q := Nat.mul_le_mul_right _ hle
      _ = 2 ^ (n.log2 + 1) := by rw [← pow_add, Nat.sub_add_cancel hq]

theorem rounded_roundTo (hn : n ≠ 0) (hq : mxQuantum clo n.log2 shared = q) :
    Rounded clo shared n
      (if (q : Int) = shared + clo.mxEmax - clo.mxMbits ∧ clo.maxSig < roundTo q n then clo.maxSig
        else roundTo q n) q := by
  have hmax := maxSig_lt clo
  have hmin := two_pow_le_maxSig clo
  have hle := roundTo_mul_le n q
  have hbound : (if (q : Int) = shared + clo.mxEmax - clo.mxMbits ∧ clo.maxSig < roundTo q n then
      clo.maxSig else roundTo q n) ≤ roundTo q n := by
    split <;> omega
  refine ⟨hq, le_trans (Nat.mul_le_mul_right _ hbound) hle, le_roundTo_iff.1 hbound, ?_, ?_, ?_⟩
  · intro htop
    split <;> omega
  · intro hnormal
    rw [mxQuantum_normal hnormal] at hq
    have hlog : n.log2 = q + clo.mxMbits := by omega
    have hlo : 2 ^ clo.mxMbits ≤ roundTo q n := by
      apply le_roundTo
      rw [← pow_add, Nat.add_comm, ← hlog]
      exact Nat.log2_self_le hn
    have hhi : roundTo q n ≤ 2 ^ (clo.mxMbits + 1) := by
      apply roundTo_le
      have hexp : clo.mxMbits + 1 + q = n.log2 + 1 := by omega
      rw [← pow_add, hexp]
      exact Nat.lt_log2_self.le
    refine ⟨hlog, ?_, by omega⟩
    split <;> omega
  · intro hsub
    rw [mxQuantum_subnormal hsub.le] at hq
    have hhi : roundTo q n ≤ 2 ^ clo.mxMbits := by
      apply roundTo_le
      rw [← pow_add]
      exact le_trans Nat.lt_log2_self.le (Nat.pow_le_pow_right (by omega) (by omega))
    exact ⟨hq.symm, by omega⟩

/-- **What quantisation does**: the magnitude has no bits below the quantum and stays, or it is
rounded. -/
theorem quantMag_spec (clo : Clo) (mant : Nat) (shared : Int) (hn : n ≠ 0) :
    (mxQuantum clo n.log2 shared ≤ ulp mant n ∧ quantMag clo mant shared n = n) ∨
      ∃ r q, Rounded clo shared n r q ∧ ulp mant n < q ∧
        quantMag clo mant shared n = r * 2 ^ q := by
  rcases le_or_gt (mxQuantum clo n.log2 shared) (ulp mant n) with h | h
  · exact .inl ⟨h, if_pos h⟩
  · obtain ⟨q, hq⟩ : ∃ q : Nat, mxQuantum clo n.log2 shared = q :=
      ⟨(mxQuantum clo n.log2 shared).toNat, by omega⟩
    refine .inr ⟨_, q, rounded_roundTo hn hq, by omega, ?_⟩
    unfold quantMag
    rw [if_neg (by omega), hq, Int.toNat_natCast]

/-- A magnitude with bits below its quantum is rounded, and saturated in the top binade. -/
theorem quantMag_of_lt (hq : mxQuantum clo n.log2 shared = q) (hu : ulp mant n < q) :
    quantMag clo mant shared n =
      (if (q : Int) = shared + clo.mxEmax - clo.mxMbits ∧ clo.maxSig < roundTo q n then clo.maxSig
        else roundTo q n) * 2 ^ q := by
  unfold quantMag
  dsimp only
  rw [hq, if_neg (by omega), Int.toNat_natCast]

/-- Outside the top binade nothing is saturated. -/
theorem quantMag_of_ne_top (hq : mxQuantum clo n.log2 shared = q) (hu : ulp mant n < q)
    (htop : (q : Int) ≠ shared + clo.mxEmax - clo.mxMbits) :
    quantMag clo mant shared n = roundTo q n * 2 ^ q := by
  rw [quantMag_of_lt hq hu, if_neg fun h => htop h.1]

/-- A magnitude without bits below its quantum, and not above the maximum, is left alone. -/
theorem quantMag_of_dvd (hq : mxQuantum clo n.log2 shared = q) (hd : 2 ^ q ∣ n)
    (htop : (q : Int) = shared + clo.mxEmax - clo.mxMbits → n ≤ clo.maxSig * 2 ^ q) :
    quantMag clo mant shared n = n := by
  unfold quantMag
  dsimp only
  split
  · rfl
  · rw [hq, Int.toNat_natCast, if_neg, roundTo_mul_of_dvd hd]
    rintro ⟨h, hlt⟩
    have := roundTo_le (htop h)
    omega

@[simp] theorem quantMag_zero (clo : Clo) (mant : Nat) (shared : Int) :
    quantMag clo mant shared 0 = 0 := by
  unfold quantMag
  dsimp only
  split
  · rfl
  · have hzero : roundTo (mxQuantum clo (Nat.log2 0) shared).toNat 0 = 0 :=
      Nat.le_zero.1 (roundTo_le (Nat.zero_le _))
    rw [hzero, if_neg (by omega), Nat.zero_mul]

theorem le_mxQuantum (clo : Clo) (lead shared : Int) :
    shared + clo.mxEmin - clo.mxMbits ≤ mxQuantum clo lead shared := by
  unfold mxQuantum
  split <;> omega

/-- **What quantisation flushes to zero**: the magnitudes below half the least quantum. -/
theorem quantMag_eq_zero_iff (hn : n ≠ 0) :
    quantMag clo mant shared n = 0 ↔ n.log2 + 1 < shared + clo.mxEmin - clo.mxMbits := by
  have hleast := le_mxQuantum clo n.log2 shared
  rcases le_or_gt (mxQuantum clo n.log2 shared) (ulp mant n) with h | h
  · have hstays : quantMag clo mant shared n = n := if_pos h
    have hulp : ulp mant n ≤ n.log2 := Nat.sub_le _ _
    rw [hstays]
    exact iff_of_false hn (by omega)
  · obtain ⟨q, hq⟩ : ∃ q : Nat, mxQuantum clo n.log2 shared = q :=
      ⟨(mxQuantum clo n.log2 shared).toNat, by omega⟩
    have hmax : 0 < clo.maxSig := lt_of_lt_of_le (Nat.two_pow_pos _) (two_pow_le_maxSig clo)
    have hround : quantMag clo mant shared n = 0 ↔ roundTo q n = 0 := by
      rw [quantMag_of_lt hq (by omega), Nat.mul_eq_zero, or_iff_left (Nat.two_pow_pos q).ne']
      split <;> omega
    rw [hround, roundTo_eq_zero_iff (by omega), ← Nat.log2_lt hn]
    rcases le_or_gt clo.mxEmin (n.log2 - shared) with hnormal | hsub
    · rw [mxQuantum_normal hnormal] at hq
      omega
    · rw [mxQuantum_subnormal hsub.le] at hq
      omega

theorem Rounded.log2_le (h : Rounded clo shared n r q) (hr : r ≠ 0) :
    (r * 2 ^ q).log2 ≤ n.log2 + 1 := by
  have hne : r * 2 ^ q ≠ 0 := Nat.mul_ne_zero hr (Nat.two_pow_pos q).ne'
  have := log2_mono hne h.le
  rwa [Nat.log2_two_pow] at this

/-- The quantum of a rounded magnitude: the same, or the next one after a carry. -/
theorem Rounded.quantum_again (h : Rounded clo shared n r q) (hr : r ≠ 0) :
    mxQuantum clo (r * 2 ^ q).log2 shared = q ∨
      (r = 2 ^ (clo.mxMbits + 1) ∧ mxQuantum clo (r * 2 ^ q).log2 shared = (q + 1 : Nat)) := by
  have hlog : (r * 2 ^ q).log2 = r.log2 + q := log2_mul_two_pow hr
  rw [hlog]
  rcases le_or_gt clo.mxEmin (n.log2 - shared) with hn | hn
  · obtain ⟨hnlog, hlo, hhi⟩ := h.normal hn
    rcases Nat.lt_or_ge r (2 ^ (clo.mxMbits + 1)) with hlt | hge
    · have hrlog : r.log2 = clo.mxMbits := log2_eq hlo hlt
      left
      rw [mxQuantum_normal (by omega)]
      omega
    · obtain rfl : r = 2 ^ (clo.mxMbits + 1) := by omega
      right
      rw [Nat.log2_two_pow, mxQuantum_normal (by omega)]
      exact ⟨rfl, by omega⟩
  · obtain ⟨hq, hle⟩ := h.subnormal hn
    have hrlog := log2_mono hr hle
    rw [Nat.log2_two_pow] at hrlog
    left
    rw [mxQuantum_subnormal (by omega)]
    exact hq.symm

/-- A rounded magnitude is left alone. -/
theorem Rounded.quantMag_eq (h : Rounded clo shared n r q) (mant : Nat) :
    quantMag clo mant shared (r * 2 ^ q) = r * 2 ^ q := by
  rcases Nat.eq_zero_or_pos r with rfl | hr
  · rw [Nat.zero_mul, quantMag_zero]
  · rcases h.quantum_again hr.ne' with hq | ⟨rfl, hq⟩
    · exact quantMag_of_dvd hq (Dvd.intro_left _ rfl) fun htop =>
        Nat.mul_le_mul_right _ (h.top htop)
    · have hcarry : 2 ^ (clo.mxMbits + 1) * 2 ^ q = 2 ^ clo.mxMbits * 2 ^ (q + 1) := by ring
      rw [hcarry] at hq ⊢
      exact quantMag_of_dvd hq (Dvd.intro_left _ rfl) fun _ =>
        Nat.mul_le_mul_right _ (two_pow_le_maxSig clo)

/-- **Quantising twice** at the same shared exponent is quantising once. -/
theorem quantMag_idem (clo : Clo) (mant : Nat) (shared : Int) (n : Nat) :
    quantMag clo mant shared (quantMag clo mant shared n) = quantMag clo mant shared n := by
  rcases Nat.eq_zero_or_pos n with rfl | hn
  · rw [quantMag_zero, quantMag_zero]
  · rcases quantMag_spec clo mant shared hn.ne' with ⟨-, heq⟩ | ⟨r, q, h, -, heq⟩
    · rw [heq, heq]
    · rw [heq, h.quantMag_eq]

/-! ## Binades -/

/-- Rounding carries at most into the next binade, and not out of the top one. -/
theorem Rounded.log2_le_top (h : Rounded clo shared n r q) (hr : r ≠ 0)
    (hn : n.log2 ≤ shared + clo.mxEmax) : ((r * 2 ^ q).log2 : Int) ≤ shared + clo.mxEmax := by
  have hmax := maxSig_lt clo
  have hlog : (r * 2 ^ q).log2 = r.log2 + q := log2_mul_two_pow hr
  rcases le_or_gt clo.mxEmin (n.log2 - shared) with hnorm | hsub
  · obtain ⟨hnlog, hlo, hhi⟩ := h.normal hnorm
    have htop := h.top
    rcases Nat.lt_or_ge r (2 ^ (clo.mxMbits + 1)) with hlt | hge
    · have hrlog : r.log2 = clo.mxMbits := log2_eq hlo hlt
      omega
    · have hrlog := h.log2_le hr
      have hne : (q : Int) ≠ shared + clo.mxEmax - clo.mxMbits := by
        intro heq
        have := htop heq
        omega
      omega
  · obtain ⟨hq, hle⟩ := h.subnormal hsub
    have hrlog := log2_mono hr hle
    have hemin := clo.mxEmin_range.2
    rw [Nat.log2_two_pow] at hrlog
    omega

/-- The top binade keeps its elements. -/
theorem Rounded.log2_top (h : Rounded clo shared n r q) (hn : n.log2 = shared + clo.mxEmax) :
    r ≠ 0 ∧ (r * 2 ^ q).log2 = n.log2 := by
  have hmax := maxSig_lt clo
  have hemin := clo.mxEmin_range.2
  obtain ⟨hnlog, hlo, -⟩ := h.normal (by omega)
  have hr : r ≠ 0 := by
    have := Nat.two_pow_pos clo.mxMbits
    omega
  have htop := h.top (by omega)
  have hrlog : r.log2 = clo.mxMbits := log2_eq hlo (by omega)
  refine ⟨hr, ?_⟩
  rw [log2_mul_two_pow hr, hrlog]
  omega

theorem log2_quantMag_le_succ (hq : quantMag clo mant shared n ≠ 0) :
    (quantMag clo mant shared n).log2 ≤ n.log2 + 1 := by
  have hn : n ≠ 0 := by
    rintro rfl
    exact hq (quantMag_zero ..)
  rcases quantMag_spec clo mant shared hn with ⟨-, heq⟩ | ⟨r, q, h, -, heq⟩
  · rw [heq]
    omega
  · rw [heq] at hq ⊢
    exact h.log2_le (Nat.ne_zero_of_mul_ne_zero_left hq)

theorem log2_quantMag_le (hq : quantMag clo mant shared n ≠ 0)
    (hn : n.log2 ≤ shared + clo.mxEmax) :
    ((quantMag clo mant shared n).log2 : Int) ≤ shared + clo.mxEmax := by
  have hne : n ≠ 0 := by
    rintro rfl
    exact hq (quantMag_zero ..)
  rcases quantMag_spec clo mant shared hne with ⟨-, heq⟩ | ⟨r, q, h, -, heq⟩
  · rwa [heq]
  · rw [heq] at hq ⊢
    exact h.log2_le_top (Nat.ne_zero_of_mul_ne_zero_left hq) hn

/-- **The top binade** of a group keeps its elements. -/
theorem log2_quantMag_top (mant : Nat) (hn : n ≠ 0) (htop : n.log2 = shared + clo.mxEmax) :
    quantMag clo mant shared n ≠ 0 ∧ (quantMag clo mant shared n).log2 = n.log2 := by
  rcases quantMag_spec clo mant shared hn with ⟨-, heq⟩ | ⟨r, q, h, -, heq⟩
  · rw [heq]
    exact ⟨hn, rfl⟩
  · obtain ⟨hr, hlog⟩ := h.log2_top htop
    rw [heq]
    exact ⟨Nat.mul_ne_zero hr (Nat.two_pow_pos q).ne', hlog⟩

/-- Every quantised magnitude of a format fits the format. -/
theorem fits_quantMag (hfit : Fits mant n) (hn : n ≠ 0) :
    Fits mant (quantMag clo mant shared n) := by
  rcases quantMag_spec clo mant shared hn with ⟨-, heq⟩ | ⟨r, q, h, hq, heq⟩
  · rwa [heq]
  · rw [heq]
    rcases Nat.eq_zero_or_pos r with rfl | hr
    · simp [Fits]
    · have hlog := h.log2_le hr.ne'
      refine fits_of_ulp_le (q := q) (Dvd.intro_left _ rfl) ?_
      unfold ulp at hq ⊢
      omega

end Rounded

end Memlog
