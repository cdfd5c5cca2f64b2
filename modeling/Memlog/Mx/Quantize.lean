import Mathlib.Data.Nat.Bitwise
import Memlog.Mx.Magnitude

/-!
# `mx_split`, `mx_lead` and `mx_quantize` on magnitudes

A word of an element format is a sign and a code, and a finite one stands for the magnitude of its
code (`FpFmt.mag`). `mxSplit_spec` and `mxLead_eq` say what the bit operations extract, and
**`mxQuantize_toNat`** that `mx_quantize` keeps the sign and quantises the magnitude, with overflow
to infinity.
-/

namespace Memlog

open Lib.Fp

/-! ## Formats and words -/

namespace FpFmt

/-- The width of the exponent field. -/
def ebits (f : FpFmt) : Nat := 8 * f.esz - 1 - f.mant

/-- The layout of an IEEE binary format of four or eight bytes. -/
structure Ieee (f : FpFmt) : Prop where
  esz : f.esz = 4 ∨ f.esz = 8
  width : 8 * f.esz = f.mant + f.ebits + 1
  mant : 0 < f.mant
  emask : f.emask + 1 = 2 ^ f.ebits
  bias : f.emask = 2 * f.bias + 1
  bias_pos : 0 < f.bias

theorem fmt64_ieee : fmt64.Ieee := by
  constructor <;> decide

theorem fmt32_ieee : fmt32.Ieee := by
  constructor <;> decide

theorem ieee_of_eq {f : FpFmt} (hf : f = fmt64 ∨ f = fmt32) : f.Ieee := by
  rcases hf with rfl | rfl
  · exact fmt64_ieee
  · exact fmt32_ieee

/-- The exponent of the smallest subnormal. -/
def minLsb (f : FpFmt) : Int := 1 - f.bias - f.mant

/-- A word as `mx_load` returns it. -/
def Word (f : FpFmt) (v : ULong) : Prop := v.toNat < 2 ^ (8 * f.esz)

/-- The sign bit. -/
def sgn (f : FpFmt) (v : ULong) : Nat := v.toNat / 2 ^ (8 * f.esz - 1)

/-- The word without its sign bit. -/
def code (f : FpFmt) (v : ULong) : Nat := v.toNat % 2 ^ (8 * f.esz - 1)

/-- Neither an infinity nor a NaN. -/
def Finite (f : FpFmt) (v : ULong) : Prop := f.code v < f.emask * 2 ^ f.mant

instance (f : FpFmt) (v : ULong) : Decidable (f.Finite v) := inferInstanceAs (Decidable (_ < _))

/-- The magnitude of a finite word, in units of the smallest subnormal. -/
def mag (f : FpFmt) (v : ULong) : Nat := Lib.Fp.mag f.mant (f.code v)

/-- The least magnitude above the finite ones. -/
def overflow (f : FpFmt) : Nat := 2 ^ (f.mant + (f.emask - 1))

theorem overflow_pos (f : FpFmt) : 0 < f.overflow := Nat.two_pow_pos _

end FpFmt

section Bits

theorem one_shiftLeft_toNat {k : Nat} (hk : k < 64) : (1#64 <<< k).toNat = 2 ^ k := by
  rw [BitVec.toNat_shiftLeft, Nat.shiftLeft_eq, BitVec.toNat_ofNat, Nat.one_mod_two_pow (by omega),
    Nat.one_mul, Nat.mod_eq_of_lt (Nat.pow_lt_pow_right (by omega) hk)]

theorem shiftLeft_toNat {x : ULong} {k : Nat} (h : x.toNat * 2 ^ k < 2 ^ 64) :
    (x <<< k).toNat = x.toNat * 2 ^ k := by
  rw [BitVec.toNat_shiftLeft, Nat.shiftLeft_eq, Nat.mod_eq_of_lt h]

theorem mask_toNat {k : Nat} (hk : k < 64) : ((1#64 <<< k) - 1#64).toNat = 2 ^ k - 1 := by
  have hpos := Nat.two_pow_pos k
  rw [BitVec.toNat_sub_of_le, one_shiftLeft_toNat hk]
  · rfl
  · rw [BitVec.le_def, one_shiftLeft_toNat hk]
    exact hpos

theorem and_mask_toNat (x : ULong) {k : Nat} (hk : k < 64) :
    (x &&& ((1#64 <<< k) - 1#64)).toNat = x.toNat % 2 ^ k := by
  rw [BitVec.toNat_and, mask_toNat hk, Nat.and_two_pow_sub_one_eq_mod]

/-- Fields that do not overlap are put together by an `or`. -/
theorem or_toNat {x y : ULong} {a k : Nat} (hx : x.toNat = a * 2 ^ k) (hy : y.toNat < 2 ^ k) :
    (x ||| y).toNat = a * 2 ^ k + y.toNat := by
  rw [BitVec.toNat_or, hx, Nat.mul_comm, Nat.two_pow_add_eq_or_of_lt hy]

/-- Nothing is left of a word outside a mask if and only if the mask keeps the word. -/
theorem and_not_eq_zero {x s : ULong} : x &&& ~~~s = 0#64 ↔ x &&& s = x := by
  constructor <;> intro h <;> apply BitVec.eq_of_getLsbD_eq <;> intro i hi
  · have hbit := congrArg (BitVec.getLsbD · i) h
    simp only [BitVec.getLsbD_and, BitVec.getLsbD_not, BitVec.getLsbD_zero, hi, decide_true,
      Bool.true_and] at hbit ⊢
    cases hs : s.getLsbD i <;> simp_all
  · have hbit := congrArg (BitVec.getLsbD · i) h
    simp only [BitVec.getLsbD_and, BitVec.getLsbD_not, BitVec.getLsbD_zero, hi, decide_true,
      Bool.true_and] at hbit ⊢
    cases hs : s.getLsbD i <;> simp_all

end Bits

section Words

variable {f : FpFmt} (hf : f.Ieee) {v : ULong}
include hf

theorem FpFmt.Ieee.width_le : f.mant + f.ebits + 1 ≤ 64 := by
  have := hf.width
  rcases hf.esz with h | h <;> omega

theorem FpFmt.Ieee.sign_bit : 8 * f.esz - 1 = f.mant + f.ebits := by
  have := hf.width
  omega

theorem FpFmt.Ieee.emask_pos : 3 ≤ f.emask := by
  have := hf.bias
  have := hf.bias_pos
  omega

theorem FpFmt.Ieee.mant_le : f.mant ≤ 61 := by
  have hem := hf.emask_pos
  have hw := hf.width_le
  have heb : 1 < f.ebits := by
    by_contra h
    have : 2 ^ f.ebits ≤ 2 ^ 1 := Nat.pow_le_pow_right (by omega) (by omega)
    have := hf.emask
    omega
  omega

theorem FpFmt.Ieee.code_lt (v : ULong) : f.code v < (f.emask + 1) * 2 ^ f.mant := by
  rw [FpFmt.code, hf.sign_bit, hf.emask, ← pow_add, Nat.add_comm f.ebits]
  exact Nat.mod_lt _ (Nat.two_pow_pos _)

theorem FpFmt.Ieee.emask_lt : f.emask < 2 ^ 64 := by
  have hw := hf.width_le
  have := hf.emask
  have : 2 ^ f.ebits < 2 ^ 64 := Nat.pow_lt_pow_right (by omega) (by omega)
  omega

omit hf in
theorem FpFmt.toNat_eq (f : FpFmt) (v : ULong) :
    v.toNat = f.sgn v * 2 ^ (8 * f.esz - 1) + f.code v :=
  (Nat.div_add_mod' _ _).symm

theorem FpFmt.Ieee.sgn_le (hv : f.Word v) : f.sgn v ≤ 1 := by
  have hw := hf.width
  unfold FpFmt.Word at hv
  have hpow : 2 ^ (8 * f.esz) = 2 * 2 ^ (8 * f.esz - 1) := by
    rw [← pow_succ']
    congr 1
    omega
  have : f.sgn v < 2 := by
    unfold FpFmt.sgn
    rw [Nat.div_lt_iff_lt_mul (Nat.two_pow_pos _)]
    omega
  omega

/-- The sign bit of a word, as the source masks it out. -/
theorem sign_toNat (hv : f.Word v) :
    (v &&& (1#64 <<< (8 * f.esz - 1))).toNat = f.sgn v * 2 ^ (8 * f.esz - 1) := by
  have hw := hf.width_le
  have hsb := hf.sign_bit
  have hs := hf.sgn_le hv
  rw [BitVec.toNat_and, one_shiftLeft_toNat (by omega), Nat.and_two_pow,
    Nat.testBit_eq_decide_div_mod_eq]
  congr 1
  unfold FpFmt.sgn at hs ⊢
  rcases Nat.le_one_iff_eq_zero_or_eq_one.1 hs with h | h <;> rw [h] <;> rfl

/-- The two tests for a zero element. -/
theorem and_not_sbit_eq_zero (hv : f.Word v) :
    v &&& ~~~(1#64 <<< (8 * f.esz - 1)) = 0#64 ↔ f.code v = 0 := by
  have hsum := f.toNat_eq v
  rw [and_not_eq_zero, ← BitVec.toNat_inj, sign_toNat hf hv]
  omega

theorem and_not_sign_eq_zero (hv : f.Word v) :
    v &&& ~~~(v &&& (1#64 <<< (8 * f.esz - 1))) = 0#64 ↔ f.code v = 0 := by
  have hsum := f.toNat_eq v
  rw [and_not_eq_zero, ← BitVec.and_assoc, BitVec.and_self, ← BitVec.toNat_inj, sign_toNat hf hv]
  omega

theorem mxExponent_toNat (v : ULong) : (mxExponent f v).toNat = f.code v / 2 ^ f.mant := by
  have hmask : f.emask = 2 ^ f.ebits - 1 := by
    have := hf.emask
    omega
  unfold mxExponent FpFmt.code
  rw [BitVec.toNat_and, BitVec.toNat_ushiftRight, Nat.shiftRight_eq_div_pow, BitVec.toNat_ofNat,
    Nat.mod_eq_of_lt hf.emask_lt, hmask, Nat.and_two_pow_sub_one_eq_mod, hf.sign_bit, pow_add,
    Nat.mod_mul_right_div_self]

theorem code_mod_mant (v : ULong) : f.code v % 2 ^ f.mant = v.toNat % 2 ^ f.mant := by
  rw [FpFmt.code, hf.sign_bit, pow_add, Nat.mod_mul_right_mod]

/-- The exponent field that marks infinities and NaNs. -/
theorem mxExponent_eq_emask : mxExponent f v = BitVec.ofNat 64 f.emask ↔ ¬f.Finite v := by
  have hpos := Nat.two_pow_pos f.mant
  have hlt : f.code v / 2 ^ f.mant < f.emask + 1 := (Nat.div_lt_iff_lt_mul hpos).2 (hf.code_lt v)
  have hle : f.emask ≤ f.code v / 2 ^ f.mant ↔ f.emask * 2 ^ f.mant ≤ f.code v :=
    Nat.le_div_iff_mul_le hpos
  rw [← BitVec.toNat_inj, mxExponent_toNat hf, BitVec.toNat_ofNat, Nat.mod_eq_of_lt hf.emask_lt]
  unfold FpFmt.Finite
  omega

/-- **`mx_split`** returns the significand and the exponent of its unit. -/
theorem mxSplit_spec (v : ULong) :
    (mxSplit f v).1.toNat = sig f.mant (f.code v) ∧
      (mxSplit f v).2 = unit f.mant (f.code v) + f.minLsb := by
  have hw := hf.width_le
  have hmant : f.mant < 64 := by omega
  have hmod := Nat.mod_lt (f.code v) (Nat.two_pow_pos f.mant)
  have hexp := mxExponent_toNat hf v
  have hzero : mxExponent f v = 0#64 ↔ f.code v / 2 ^ f.mant = 0 := by
    rw [← BitVec.toNat_inj, hexp]
    rfl
  unfold mxSplit FpFmt.minLsb
  dsimp only
  rcases sig_cases f.mant (f.code v) with ⟨hlt, hu, hs⟩ | ⟨hge, hu, hs⟩
  · have hdiv : f.code v / 2 ^ f.mant = 0 := Nat.div_eq_of_lt hlt
    rw [if_pos (hzero.2 hdiv), hs, hu, and_mask_toNat _ hmant, ← code_mod_mant hf,
      Nat.mod_eq_of_lt hlt]
    exact ⟨rfl, by omega⟩
  · rw [if_neg (by rw [hzero]; omega), hs]
    constructor
    · have hfield : (v &&& ((1#64 <<< f.mant) - 1#64)).toNat < 2 ^ f.mant := by
        rwa [and_mask_toNat _ hmant, ← code_mod_mant hf]
      have hone : (1#64 <<< f.mant).toNat = 1 * 2 ^ f.mant := by
        rw [one_shiftLeft_toNat hmant, Nat.one_mul]
      rw [BitVec.or_comm, or_toNat hone hfield, and_mask_toNat _ hmant, ← code_mod_mant hf,
        Nat.one_mul]
    · rw [hexp]
      omega

omit hf in
theorem mag_ne_zero_iff : f.mag v ≠ 0 ↔ f.code v ≠ 0 := not_congr mag_eq_zero

/-- **`mx_lead`** is the leading exponent of the magnitude. -/
theorem mxLead_eq (hv : f.code v ≠ 0) : mxLead f v = (f.mag v).log2 + f.minLsb := by
  obtain ⟨hsig, hlsb⟩ := mxSplit_spec hf v
  unfold mxLead clzll FpFmt.mag
  dsimp only
  rw [hsig, hlsb, log2_mag hv]
  omega

/-- The leading exponent of a normal element is its exponent field without the bias. -/
theorem mxLead_of_normal (hv : mxExponent f v ≠ 0#64) :
    mxLead f v = (mxExponent f v).toNat - f.bias := by
  have hexp := mxExponent_toNat hf v
  have hfield : (mxExponent f v).toNat ≠ 0 := fun h => hv (BitVec.eq_of_toNat_eq h)
  have hpos := Nat.two_pow_pos f.mant
  have hmod := Nat.mod_lt (f.code v) hpos
  rcases sig_cases f.mant (f.code v) with ⟨hlt, -, -⟩ | ⟨hle, hunit, hsig⟩
  · rw [hexp, Nat.div_eq_of_lt hlt] at hfield
    exact absurd rfl hfield
  · have hc : f.code v ≠ 0 := by omega
    have hlog : (sig f.mant (f.code v)).log2 = f.mant := by
      apply log2_eq
      · omega
      · rw [pow_succ]
        omega
    rw [mxLead_eq hf hc, FpFmt.mag, log2_mag hc, hlog, FpFmt.minLsb, hexp, ← hunit]
    omega

theorem finite_iff (hv : f.code v ≠ 0) : f.Finite v ↔ f.mag v < f.overflow := by
  have hem := hf.emask_pos
  unfold FpFmt.Finite FpFmt.overflow FpFmt.mag
  rw [mag_lt_iff (by omega) hv]
  have hsucc : f.emask - 1 + 1 = f.emask := by omega
  rw [hsucc]

end Words

/-! ## Assembling a word -/

section Assemble

variable {f : FpFmt} (hf : f.Ieee)
include hf

theorem code_lt_sign_bit {n : Nat} (hn : n < f.overflow) :
    Lib.Fp.code f.mant n < f.emask * 2 ^ f.mant := by
  have hem := hf.emask_pos
  rcases Nat.eq_zero_or_pos n with rfl | hpos
  · simp [Lib.Fp.code, ulp]
    omega
  · have := (code_lt_iff (m := f.mant) (k := f.emask - 1) (by omega) hpos.ne').2 hn
    have hsucc : f.emask - 1 + 1 = f.emask := by omega
    rwa [hsucc] at this

theorem emask_mul_lt : f.emask * 2 ^ f.mant < 2 ^ (8 * f.esz - 1) := by
  have hpos := Nat.two_pow_pos f.mant
  rw [hf.sign_bit, Nat.add_comm, pow_add, ← hf.emask, Nat.succ_mul]
  omega

/-- The end of `mx_quantize` builds the word of a sign and a magnitude. -/
theorem mxAssemble_toNat {sign r : ULong} {s q : Nat} (hsign : sign.toNat = s * 2 ^ (8 * f.esz - 1))
    (hr : r ≠ 0#64) (hlt : r.toNat < 2 ^ (f.mant + 1)) :
    (mxAssemble f sign r (q + f.minLsb)).toNat = s * 2 ^ (8 * f.esz - 1) +
      if r.toNat * 2 ^ q < f.overflow then Lib.Fp.code f.mant (r.toNat * 2 ^ q)
      else f.emask * 2 ^ f.mant := by
  have hw := hf.width_le
  have hsb := hf.sign_bit
  have hem := hf.emask_pos
  have hlt64 := emask_mul_lt hf
  have hrne : r.toNat ≠ 0 := fun h => hr (BitVec.eq_of_toNat_eq h)
  have hrlog : r.toNat.log2 ≤ f.mant := Nat.lt_succ_iff.1 ((Nat.log2_lt hrne).2 hlt)
  have hnne : r.toNat * 2 ^ q ≠ 0 := Nat.mul_ne_zero hrne (Nat.two_pow_pos q).ne'
  have hnlog : (r.toNat * 2 ^ q).log2 = r.toNat.log2 + q := log2_mul_two_pow hrne
  have hover : r.toNat * 2 ^ q < f.overflow ↔ r.toNat.log2 + q < f.mant + (f.emask - 1) := by
    rw [← hnlog, Nat.log2_lt hnne]
    rfl
  have hpow64 : 2 ^ (8 * f.esz - 1) < 2 ^ 64 := Nat.pow_lt_pow_right (by omega) (by omega)
  unfold mxAssemble clzll
  dsimp only
  have hbe : (q : Int) + f.minLsb + 63 - (63 - (r.toNat.log2 : Int)) + f.bias =
      r.toNat.log2 + q + 1 - f.mant := by
    unfold FpFmt.minLsb
    omega
  rw [hbe]
  split
  · -- overflow to infinity
    rename_i hge
    have hinf : (BitVec.ofNat 64 f.emask <<< f.mant).toNat = f.emask * 2 ^ f.mant := by
      have hmask : (BitVec.ofNat 64 f.emask).toNat = f.emask := by
        rw [BitVec.toNat_ofNat, Nat.mod_eq_of_lt hf.emask_lt]
      rw [shiftLeft_toNat (by rw [hmask]; omega), hmask]
    rw [if_neg (by rw [hover]; omega), or_toNat hsign (by omega), hinf]
  · rename_i hlt'
    have hfin : r.toNat * 2 ^ q < f.overflow := hover.2 (by omega)
    have hcode := code_lt_sign_bit hf hfin
    rw [if_pos hfin]
    split
    · -- a subnormal result is its own code
      rename_i hsub
      have hulp : ulp f.mant (r.toNat * 2 ^ q) = 0 := by
        unfold ulp
        omega
      have hself : Lib.Fp.code f.mant (r.toNat * 2 ^ q) = r.toNat * 2 ^ q := by
        rw [Lib.Fp.code, hulp, Nat.zero_mul, Nat.zero_add, pow_zero, Nat.div_one]
      have hshift : ((q : Int) + f.minLsb - (1 - f.bias - f.mant)).toNat = q := by
        unfold FpFmt.minLsb
        omega
      rw [hself] at hcode ⊢
      have hfield : (r <<< q).toNat = r.toNat * 2 ^ q := shiftLeft_toNat (by omega)
      rw [hshift, or_toNat hsign (by omega), hfield]
    · -- a normal result: exponent field and significand without the implicit bit
      rename_i hnorm
      obtain ⟨u, hu⟩ : ∃ u, r.toNat.log2 + q = f.mant + u := ⟨r.toNat.log2 + q - f.mant, by omega⟩
      have hexp : ((r.toNat.log2 : Int) + q + 1 - f.mant).toNat = u + 1 := by omega
      have hshift : ((f.mant : Int) -
          ((q : Int) + f.minLsb + 63 - (63 - (r.toNat.log2 : Int)) - (q + f.minLsb))).toNat =
            f.mant - r.toNat.log2 := by omega
      obtain ⟨hlo, hhi⟩ := normalize_bounds hrne hrlog
      have hmant64 : 2 ^ (f.mant + 1) ≤ 2 ^ 64 := Nat.pow_le_pow_right (by omega) (by omega)
      rw [hexp, hshift, code_of_normal hrne hrlog hu]
      rw [code_of_normal hrne hrlog hu] at hcode
      rw [pow_succ] at hhi hmant64
      have hfrac : (r <<< (f.mant - r.toNat.log2) &&& ((1#64 <<< f.mant) - 1#64)).toNat =
          r.toNat * 2 ^ (f.mant - r.toNat.log2) - 2 ^ f.mant := by
        rw [and_mask_toNat _ (by omega), shiftLeft_toNat (by omega), Nat.mod_eq_sub_mod hlo,
          Nat.mod_eq_of_lt (by omega)]
      have hu64 : u + 1 ≤ (u + 1) * 2 ^ f.mant := Nat.le_mul_of_pos_right _ (Nat.two_pow_pos _)
      have hfield : (BitVec.ofNat 64 (u + 1) <<< f.mant).toNat = (u + 1) * 2 ^ f.mant := by
        have hofNat : (BitVec.ofNat 64 (u + 1)).toNat = u + 1 := by
          rw [BitVec.toNat_ofNat, Nat.mod_eq_of_lt (by omega)]
        rw [shiftLeft_toNat (by rw [hofNat]; omega), hofNat]
      have hbits := or_toNat hfield (lt_of_eq_of_lt hfrac (by omega))
      rw [hfrac] at hbits
      rw [BitVec.or_assoc, or_toNat hsign (lt_of_eq_of_lt hbits (by omega)), hbits]

end Assemble

/-! ## `mx_quantize` -/

section Quantize

variable {f : FpFmt} (hf : f.Ieee) (clo : Clo) {v : ULong}
include hf

/-- The rounding step of `mx_quantize`, on a significand with the unit `2 ^ u`. -/
theorem mxRound_toNat {sg : ULong} {shift : Int} {u q : Nat} (hsg : sg.toNat < 2 ^ (f.mant + 1))
    (hq : (q : Int) = u + shift) (hshift : 0 < shift) :
    (if shift < 64 then (sg + (1#64 <<< (shift - 1).toNat)) >>> shift.toNat else 0#64).toNat =
      roundTo q (sg.toNat * 2 ^ u) := by
  have hmant := hf.mant_le
  obtain ⟨k, rfl⟩ : ∃ k : Nat, shift = (k + 1 : Nat) := ⟨(shift - 1).toNat, by omega⟩
  obtain rfl : q = u + (k + 1) := by omega
  have hpred : (((k + 1 : Nat) : Int) - 1).toNat = k := by omega
  have hhalf : 2 ^ (k + 1) / 2 = 2 ^ k := by
    rw [pow_succ, Nat.mul_div_cancel _ (by omega)]
  rw [roundTo_scale (by omega), hpred, Int.toNat_natCast]
  split
  · rename_i hlt
    have hpow : 2 ^ k ≤ 2 ^ 62 := Nat.pow_le_pow_right (by omega) (by omega)
    have hsmall : 2 ^ (f.mant + 1) ≤ 2 ^ 62 := Nat.pow_le_pow_right (by omega) (by omega)
    have hsum : sg.toNat + 2 ^ k < 2 ^ 64 := by omega
    rw [BitVec.toNat_ushiftRight, BitVec.toNat_add, one_shiftLeft_toNat (by omega),
      Nat.mod_eq_of_lt hsum, Nat.shiftRight_eq_div_pow, roundTo, hhalf]
  · rename_i hge
    have hzero : roundTo (k + 1) sg.toNat = 0 := by
      rw [roundTo_eq_zero_iff (by omega), Nat.add_sub_cancel]
      exact lt_of_lt_of_le hsg (Nat.pow_le_pow_right (by omega) (by omega))
    rw [hzero]
    rfl

/-- The quantum of an element that is not zero, in units of the smallest magnitude. -/
theorem mxQuantum_mxSplit (hc : f.code v ≠ 0) (shared : Int) :
    mxQuantum clo ((mxSplit f v).2 + 63 - clzll (mxSplit f v).1) shared =
      mxQuantum clo (f.mag v).log2 (shared - f.minLsb) + f.minLsb := by
  have hlead : (mxSplit f v).2 + 63 - clzll (mxSplit f v).1 = (f.mag v).log2 + f.minLsb :=
    mxLead_eq hf hc
  rw [hlead, ← mxQuantum_add, Int.sub_add_cancel]

/-- The shift leads from the unit of the element to the quantum. -/
theorem mxShift_mxSplit (v : ULong) (Q : Int) :
    Q + f.minLsb - (mxSplit f v).2 = Q - unit f.mant (f.code v) := by
  rw [(mxSplit_spec hf v).2]
  omega

/-- The rounded significand is the rounded magnitude, in units of the quantum. -/
theorem mxRound_mxSplit {q : Nat} {shift : Int}
    (hshift : (q : Int) - unit f.mant (f.code v) = shift) (hpos : 0 < shift) :
    (if shift < 64 then ((mxSplit f v).1 + (1#64 <<< (shift - 1).toNat)) >>> shift.toNat
      else 0#64).toNat = roundTo q (f.mag v) := by
  obtain ⟨hsig, -⟩ := mxSplit_spec hf v
  have hlt : (mxSplit f v).1.toNat < 2 ^ (f.mant + 1) := by
    rw [hsig]
    exact sig_lt _ _
  rw [mxRound_toNat hf hlt (by omega : (q : Int) = unit f.mant (f.code v) + shift) hpos, hsig]
  rfl

/-- **`mx_quantize`** keeps the sign and quantises the magnitude; a magnitude past the largest
finite one becomes an infinity. -/
theorem mxQuantize_toNat (shared : Int) (hv : f.Word v) (hfin : f.Finite v) :
    (mxQuantize clo f v shared).toNat = f.sgn v * 2 ^ (8 * f.esz - 1) +
      if quantMag clo f.mant (shared - f.minLsb) (f.mag v) < f.overflow then
        Lib.Fp.code f.mant (quantMag clo f.mant (shared - f.minLsb) (f.mag v))
      else f.emask * 2 ^ f.mant := by
  have hsum := f.toNat_eq v
  have hem := hf.emask_pos
  have hself : ∀ n, n = f.mag v → v.toNat = f.sgn v * 2 ^ (8 * f.esz - 1) +
      if n < f.overflow then Lib.Fp.code f.mant n else f.emask * 2 ^ f.mant := by
    rintro n rfl
    have hlt : f.mag v < f.overflow := by
      by_cases hc : f.code v = 0
      · have hz : f.mag v = 0 := mag_eq_zero.2 hc
        rw [hz]
        exact f.overflow_pos
      · exact (finite_iff hf hc).1 hfin
    rw [if_pos hlt, FpFmt.mag, code_mag]
    exact hsum
  unfold mxQuantize
  dsimp only
  split
  · -- a zero
    rename_i hz
    have hz : f.mag v = 0 := mag_eq_zero.2 ((and_not_sign_eq_zero hf hv).1 hz)
    apply hself
    rw [hz, quantMag_zero]
  · rename_i hz
    have hc : f.code v ≠ 0 := fun h => hz ((and_not_sign_eq_zero hf hv).2 h)
    have hn : f.mag v ≠ 0 := mag_ne_zero hc
    have hulp : ulp f.mant (f.mag v) = unit f.mant (f.code v) := ulp_mag hc
    rw [mxQuantum_mxSplit hf clo hc]
    generalize hQ : mxQuantum clo (f.mag v).log2 (shared - f.minLsb) = Q
    rw [mxShift_mxSplit hf]
    split
    · -- no bits below the quantum
      rename_i hle
      apply hself
      unfold quantMag
      rw [hQ, if_pos (by omega)]
    · rename_i hpos
      obtain ⟨q, rfl⟩ : ∃ q : Nat, Q = q := ⟨Q.toNat, by omega⟩
      have hround := mxRound_mxSplit hf (v := v) (q := q) rfl (by omega)
      generalize (if (q : Int) - unit f.mant (f.code v) < 64 then _ else 0#64) = r₀ at hround ⊢
      have hmag : quantMag clo f.mant (shared - f.minLsb) (f.mag v) =
          (if (q : Int) = shared - f.minLsb + clo.mxEmax - clo.mxMbits ∧ clo.maxSig < r₀.toNat then
            clo.maxSig else r₀.toNat) * 2 ^ q := by
        unfold quantMag
        rw [hQ, if_neg (by omega), Int.toNat_natCast, hround]
      split
      · -- flushed to zero
        rename_i hr
        have hzero : quantMag clo f.mant (shared - f.minLsb) (f.mag v) = 0 := by
          rw [hmag, hr, if_neg (by simp), BitVec.toNat_zero, Nat.zero_mul]
        rw [hzero, sign_toNat hf hv, if_pos f.overflow_pos]
        simp [Lib.Fp.code, ulp]
      · rename_i hr
        have htop : (q : Int) + f.minLsb = shared + clo.mxEmax - clo.mxMbits ∧ r₀ > mxMaxSig clo ↔
            (q : Int) = shared - f.minLsb + clo.mxEmax - clo.mxMbits ∧ clo.maxSig < r₀.toNat := by
          rw [gt_iff_lt, BitVec.lt_def, mxMaxSig_toNat]
          refine and_congr_left' ?_
          omega
        have hsel : (if (q : Int) + f.minLsb = shared + clo.mxEmax - clo.mxMbits ∧
            r₀ > mxMaxSig clo then mxMaxSig clo else r₀).toNat =
              if (q : Int) = shared - f.minLsb + clo.mxEmax - clo.mxMbits ∧ clo.maxSig < r₀.toNat
              then clo.maxSig else r₀.toNat := by
          rw [apply_ite BitVec.toNat, mxMaxSig_toNat]
          simp only [htop]
        have hr₀ : r₀.toNat ≠ 0 := fun h => hr (BitVec.eq_of_toNat_eq h)
        have hle : r₀.toNat < 2 ^ (f.mant + 1) := by
          have hsplit : q = unit f.mant (f.code v) + (q - unit f.mant (f.code v)) := by omega
          rw [hround, FpFmt.mag, Lib.Fp.mag, hsplit, roundTo_scale (by omega)]
          exact lt_of_le_of_lt (roundTo_le_self (by omega)) (sig_lt _ _)
        have hmax := two_pow_le_maxSig clo
        have hpow := Nat.two_pow_pos clo.mxMbits
        rw [mxAssemble_toNat hf (sign_toNat hf hv), hsel, ← hmag]
        · intro hzero
          rw [hzero, BitVec.toNat_zero] at hsel
          split at hsel <;> omega
        · rw [hsel]
          split <;> omega

/-- A word is its sign and its code. -/
theorem word_of_toNat {s c : Nat} (hs : s ≤ 1) (hc : c < 2 ^ (8 * f.esz - 1))
    (h : v.toNat = s * 2 ^ (8 * f.esz - 1) + c) : f.Word v ∧ f.sgn v = s ∧ f.code v = c := by
  have hw := hf.width
  have hpos := Nat.two_pow_pos (8 * f.esz - 1)
  refine ⟨?_, ?_, ?_⟩
  · have hpow : 2 ^ (8 * f.esz) = 2 * 2 ^ (8 * f.esz - 1) := by
      rw [← pow_succ']
      congr 1
      omega
    have hmul := Nat.mul_le_mul_right (2 ^ (8 * f.esz - 1)) hs
    unfold FpFmt.Word
    omega
  · rw [FpFmt.sgn, h, Nat.add_comm, Nat.add_mul_div_right _ _ hpos, Nat.div_eq_of_lt hc,
      Nat.zero_add]
  · rw [FpFmt.code, h, Nat.add_comm, Nat.add_mul_mod_self_right, Nat.mod_eq_of_lt hc]

/-- The word that `mx_quantize` returns. -/
theorem mxQuantize_word (shared : Int) (hv : f.Word v) (hfin : f.Finite v) :
    f.Word (mxQuantize clo f v shared) ∧ f.sgn (mxQuantize clo f v shared) = f.sgn v ∧
      f.code (mxQuantize clo f v shared) =
        if quantMag clo f.mant (shared - f.minLsb) (f.mag v) < f.overflow then
          Lib.Fp.code f.mant (quantMag clo f.mant (shared - f.minLsb) (f.mag v))
        else f.emask * 2 ^ f.mant := by
  apply word_of_toNat hf (hf.sgn_le hv) _ (mxQuantize_toNat hf clo shared hv hfin)
  have hlt := emask_mul_lt hf
  split
  · rename_i h
    exact lt_trans (code_lt_sign_bit hf h) hlt
  · exact hlt

theorem mxQuantize_finite_iff (shared : Int) (hv : f.Word v) (hfin : f.Finite v) :
    f.Finite (mxQuantize clo f v shared) ↔
      quantMag clo f.mant (shared - f.minLsb) (f.mag v) < f.overflow := by
  obtain ⟨-, -, hcode⟩ := mxQuantize_word hf clo shared hv hfin
  unfold FpFmt.Finite
  rw [hcode]
  split
  · rename_i h
    exact ⟨fun _ => h, fun _ => code_lt_sign_bit hf h⟩
  · rename_i h
    exact ⟨fun hlt => absurd hlt (Nat.lt_irrefl _), fun hlt => absurd hlt h⟩

theorem mag_mxQuantize (shared : Int) (hv : f.Word v) (hfin : f.Finite v)
    (hlt : quantMag clo f.mant (shared - f.minLsb) (f.mag v) < f.overflow) :
    f.mag (mxQuantize clo f v shared) = quantMag clo f.mant (shared - f.minLsb) (f.mag v) := by
  obtain ⟨-, -, hcode⟩ := mxQuantize_word hf clo shared hv hfin
  rw [FpFmt.mag, hcode, if_pos hlt]
  rcases Nat.eq_zero_or_pos (f.mag v) with hz | hpos
  · simp [hz, Lib.Fp.code, ulp]
  · exact mag_code (fits_quantMag (fits_mag _ _) hpos.ne')

/-- **Quantising twice** at the same shared exponent changes no bit. -/
theorem mxQuantize_idem (shared : Int) (hv : f.Word v) (hfin : f.Finite v)
    (hlt : quantMag clo f.mant (shared - f.minLsb) (f.mag v) < f.overflow) :
    mxQuantize clo f (mxQuantize clo f v shared) shared = mxQuantize clo f v shared := by
  obtain ⟨hword, hsgn, hcode⟩ := mxQuantize_word hf clo shared hv hfin
  have hfin' := (mxQuantize_finite_iff hf clo shared hv hfin).2 hlt
  have hmag := mag_mxQuantize hf clo shared hv hfin hlt
  apply BitVec.eq_of_toNat_eq
  rw [mxQuantize_toNat hf clo shared hword hfin', hmag, quantMag_idem, hsgn, ← hcode, ← hsgn]
  exact (f.toNat_eq _).symm

end Quantize

end Memlog
