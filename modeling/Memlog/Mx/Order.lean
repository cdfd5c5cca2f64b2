import Mathlib.Data.EReal.Operations
import Memlog.Mx.Rounding

/-!
# Encoding keeps the order and gains from precision

Two laws of `mx_encode_block` on the exact values of the elements of a group whose scale is not
NaN. The encoding is monotone and keeps signs (`mxEncodeBlock_mono`): elements of different binades
are separated by a power of two that no rounding crosses, and in one binade both are rounded to one
grid. And more mantissa bits bring every element nearer to its original
(`mxEncodeBlock_error_antitone`): the finer grid contains the coarser one, and its largest element
is no smaller, also where E4M3 has one value less.
-/

namespace Memlog

open Lib.Fp

/-! ## The scale of a group -/

/-- The scale of a group is not NaN: no element is infinite or NaN, and the largest one is in range.
-/
structure ScaleInRange (clo : Clo) (f : FpFmt) (vs : List ULong) : Prop where
  finite : ∀ v ∈ vs, f.Finite v
  le : ∀ v ∈ vs, f.code v ≠ 0 → Int.log 2 (f.absValue v) - clo.mxEmax ≤ mxScaleMax clo

section Scale

variable {clo : Clo} {f : FpFmt} (hf : f.Ieee) {vs : List ULong}
include hf

/-- Such a group is quantised with one shared exponent. -/
theorem ScaleInRange.encodeGroup_eq (h : ScaleInRange clo f vs) (hvs : ∀ v ∈ vs, f.Word v) :
    encodeGroup clo f vs =
      vs.map fun v => mxQuantize clo f v (mxShared clo (scanGroup f vs).lmax) := by
  have hscan := scanOf_scanGroup hf hvs
  rw [encodeGroup]
  generalize scanGroup f vs = acc at hscan
  have hnf := hscan.nonfinite_eq_false h.finite
  cases hany : acc.any with
  | false =>
    rw [mxElementMap_id clo hnf hany, List.map_id]
    exact (hscan.map_quantize_of_any_eq_false hf hany hvs h.finite _).symm
  | true =>
    obtain ⟨v, hv, hva, hlead⟩ := hscan.attained hany
    have hle := h.le v hv hva.2
    rw [log_absValue hf hva.2, hlead] at hle
    rw [mxElementMap_quantize clo hnf hany hle]

/-- No element of such a group overflows its format. -/
theorem ScaleInRange.no_overflow (h : ScaleInRange clo f vs) (hvs : ∀ v ∈ vs, f.Word v)
    (hemax : clo.mxEmax ≤ f.bias) {v : ULong} (hv : v ∈ vs) :
    quantMag clo f.mant (mxShared clo (scanGroup f vs).lmax - f.minLsb) (f.mag v) < f.overflow := by
  have hscan := scanOf_scanGroup hf hvs
  generalize scanGroup f vs = acc at hscan
  have hin : InScale clo f (mxShared clo acc.lmax) v :=
    hscan.inScale clo (hscan.nonfinite_eq_false h.finite) hvs hv
  by_cases hc : f.code v = 0
  · have hz : f.mag v = 0 := mag_eq_zero.2 hc
    rw [hz, quantMag_zero]
    exact f.overflow_pos
  · have hany : acc.any = true := hscan.any.2 ⟨v, hv, h.finite v hv, hc⟩
    obtain ⟨u, hu, hua, hlead⟩ := hscan.attained hany
    have hle := h.le u hu hua.2
    rw [log_absValue hf hua.2, hlead] at hle
    exact hin.no_overflow hf (hscan.mxScale hf clo hany hle hemax)

end Scale

/-! ## Quantisation is monotone -/

section Mono

variable {clo : Clo} {shared : Int} {mant n k : Nat}

/-- A quantised magnitude does not leave its binade upwards, except for the next power of two. -/
theorem quantMag_le_two_pow (clo : Clo) (mant : Nat) (shared : Int) (hn : n ≠ 0) :
    quantMag clo mant shared n ≤ 2 ^ (n.log2 + 1) := by
  rcases quantMag_spec clo mant shared hn with ⟨-, heq⟩ | ⟨r, q, hr, -, heq⟩
  · rw [heq]
    exact Nat.lt_log2_self.le
  · rw [heq]
    exact hr.le

/-- A normal magnitude does not leave its binade downwards. -/
theorem two_pow_le_quantMag (mant : Nat) (hk : k ≠ 0) (hnormal : clo.mxEmin ≤ k.log2 - shared) :
    2 ^ k.log2 ≤ quantMag clo mant shared k := by
  rcases quantMag_spec clo mant shared hk with ⟨-, heq⟩ | ⟨r, q, hr, -, heq⟩
  · rw [heq]
    exact Nat.log2_self_le hk
  · obtain ⟨hlog, hlo, -⟩ := hr.normal hnormal
    rw [heq, hlog, Nat.add_comm, pow_add]
    exact Nat.mul_le_mul_right _ hlo

/-- Two magnitudes with one quantum. -/
theorem quantMag_mono_of_quantum (hfit : Fits mant k) (hle : n ≤ k) (hn : n ≠ 0)
    (hq : mxQuantum clo n.log2 shared = mxQuantum clo k.log2 shared) :
    quantMag clo mant shared n ≤ quantMag clo mant shared k := by
  have hlog := log2_mono hn hle
  have hulp : ulp mant n ≤ ulp mant k := Nat.sub_le_sub_right hlog mant
  rcases le_or_gt (mxQuantum clo k.log2 shared) (ulp mant k) with hk | hk
  · -- the larger one is a multiple of the quantum
    have hkstays : quantMag clo mant shared k = k := if_pos hk
    rw [hkstays]
    rcases le_or_gt (mxQuantum clo n.log2 shared) (ulp mant n) with hn' | hn'
    · have hnstays : quantMag clo mant shared n = n := if_pos hn'
      rwa [hnstays]
    · obtain ⟨q, hqn⟩ : ∃ q : Nat, mxQuantum clo n.log2 shared = q :=
        ⟨(mxQuantum clo n.log2 shared).toNat, by omega⟩
      obtain ⟨K, hK⟩ : 2 ^ q ∣ k := dvd_trans (pow_dvd_pow 2 (by omega)) hfit
      have hround : roundTo q n ≤ K := roundTo_le (by rw [mul_comm K, ← hK]; exact hle)
      have hmag : quantMag clo mant shared n ≤ roundTo q n * 2 ^ q := by
        rw [quantMag_of_lt hqn (by omega)]
        apply Nat.mul_le_mul_right
        split <;> omega
      calc quantMag clo mant shared n ≤ roundTo q n * 2 ^ q := hmag
        _ ≤ K * 2 ^ q := Nat.mul_le_mul_right _ hround
        _ = k := by rw [mul_comm K, ← hK]
  · obtain ⟨q, hqk⟩ : ∃ q : Nat, mxQuantum clo k.log2 shared = q :=
      ⟨(mxQuantum clo k.log2 shared).toNat, by omega⟩
    have hround : roundTo q n ≤ roundTo q k := roundTo_mono hle
    rw [quantMag_of_lt (hq.trans hqk) (by omega), quantMag_of_lt hqk (by omega)]
    apply Nat.mul_le_mul_right
    split <;> split <;> omega

/-- **Quantisation is monotone.** -/
theorem quantMag_mono (hfit : Fits mant k) (hle : n ≤ k) :
    quantMag clo mant shared n ≤ quantMag clo mant shared k := by
  rcases Nat.eq_zero_or_pos n with rfl | hpos
  · rw [quantMag_zero]
    exact Nat.zero_le _
  · have hn := hpos.ne'
    have hk : k ≠ 0 := by omega
    have hlog := log2_mono hn hle
    rcases le_or_gt clo.mxEmin (k.log2 - shared) with hnormal | hsub
    · rcases Nat.eq_or_lt_of_le hlog with heq | hlt
      · exact quantMag_mono_of_quantum hfit hle hn (by rw [heq])
      · -- a power of two lies between the two
        calc quantMag clo mant shared n ≤ 2 ^ (n.log2 + 1) := quantMag_le_two_pow clo mant shared hn
          _ ≤ 2 ^ k.log2 := Nat.pow_le_pow_right (by omega) hlt
          _ ≤ quantMag clo mant shared k := two_pow_le_quantMag mant hk hnormal
    · refine quantMag_mono_of_quantum hfit hle hn ?_
      rw [mxQuantum_subnormal hsub.le, mxQuantum_subnormal (by omega)]

end Mono

/-! ## Values -/

/-- The exact value of a finite element. -/
def FpFmt.value (f : FpFmt) (v : ULong) : ℚ := if f.sgn v = 0 then f.absValue v else -f.absValue v

/-- The magnitude of an element that is not NaN. -/
noncomputable def FpFmt.absEReal (f : FpFmt) (v : ULong) : EReal :=
  if f.Finite v then (f.absValue v : ℝ) else ⊤

/-- The value of an element that is not NaN. -/
noncomputable def FpFmt.toEReal (f : FpFmt) (v : ULong) : EReal :=
  if f.sgn v = 0 then f.absEReal v else -f.absEReal v

section Value

variable {clo : Clo} {f : FpFmt} {x y : ULong} {shared : Int}

theorem absValue_nonneg (f : FpFmt) (v : ULong) : 0 ≤ f.absValue v :=
  mul_nonneg (Nat.cast_nonneg _) (two_zpow_pos _).le

theorem absValue_le_iff : f.absValue x ≤ f.absValue y ↔ f.mag x ≤ f.mag y := by
  unfold FpFmt.absValue
  rw [mul_le_mul_iff_left₀ (two_zpow_pos _)]
  exact_mod_cast Iff.rfl

theorem absEReal_nonneg (f : FpFmt) (v : ULong) : 0 ≤ f.absEReal v := by
  unfold FpFmt.absEReal
  split
  · exact_mod_cast absValue_nonneg f v
  · exact le_top

variable (hf : f.Ieee) (hx : f.Word x) (hxf : f.Finite x)
include hf hx hxf

/-- The code of a quantised element is that of a number or an infinity. -/
theorem code_mxQuantize_le : f.code (mxQuantize clo f x shared) ≤ f.emask * 2 ^ f.mant := by
  obtain ⟨-, -, hcode⟩ := mxQuantize_word hf clo shared hx hxf
  rw [hcode]
  split
  · rename_i h
    exact (code_lt_sign_bit hf h).le
  · exact le_rfl

/-- A zero stays a zero. -/
theorem absEReal_mxQuantize_zero (hzero : f.absValue x = 0) :
    f.absEReal (mxQuantize clo f x shared) = 0 := by
  have hmag : f.mag x = 0 := by
    unfold FpFmt.absValue at hzero
    exact_mod_cast (mul_eq_zero.1 hzero).resolve_right (two_zpow_pos _).ne'
  have hquant : mxQuantize clo f x shared = x := mxQuantize_of_code hf hx (mag_eq_zero.1 hmag)
  rw [hquant, FpFmt.absEReal, if_pos hxf, hzero]
  simp

variable (hy : f.Word y) (hyf : f.Finite y)
include hy hyf

/-- The magnitudes keep their order. -/
theorem absEReal_mxQuantize_le (h : f.mag x ≤ f.mag y) :
    f.absEReal (mxQuantize clo f x shared) ≤ f.absEReal (mxQuantize clo f y shared) := by
  have hfit : Fits f.mant (f.mag y) := fits_mag _ _
  have hmono : quantMag clo f.mant (shared - f.minLsb) (f.mag x) ≤
      quantMag clo f.mant (shared - f.minLsb) (f.mag y) := quantMag_mono hfit h
  have hxiff := mxQuantize_finite_iff hf clo shared hx hxf
  have hyiff := mxQuantize_finite_iff hf clo shared hy hyf
  unfold FpFmt.absEReal
  by_cases hfin : f.Finite (mxQuantize clo f y shared)
  · have hylt := hyiff.1 hfin
    have hxlt := lt_of_le_of_lt hmono hylt
    have hle : f.absValue (mxQuantize clo f x shared) ≤ f.absValue (mxQuantize clo f y shared) := by
      rw [absValue_le_iff, mag_mxQuantize hf clo shared hx hxf hxlt,
        mag_mxQuantize hf clo shared hy hyf hylt]
      exact hmono
    rw [if_pos (hxiff.2 hxlt), if_pos hfin]
    exact_mod_cast hle
  · rw [if_neg hfin]
    exact le_top

/-- **The values keep their order.** -/
theorem toEReal_mxQuantize_le (h : f.value x ≤ f.value y) :
    f.toEReal (mxQuantize clo f x shared) ≤ f.toEReal (mxQuantize clo f y shared) := by
  obtain ⟨-, hxs, -⟩ := mxQuantize_word hf clo shared hx hxf
  obtain ⟨-, hys, -⟩ := mxQuantize_word hf clo shared hy hyf
  have hxnn := absValue_nonneg f x
  have hynn := absValue_nonneg f y
  unfold FpFmt.value at h
  unfold FpFmt.toEReal
  rw [hxs, hys]
  by_cases hsx : f.sgn x = 0 <;> by_cases hsy : f.sgn y = 0 <;>
    simp only [hsx, hsy, if_true, if_false] at h ⊢
  · exact absEReal_mxQuantize_le hf hx hxf hy hyf (absValue_le_iff.1 h)
  · -- only zeros are both not negative and not above a negative one
    rw [absEReal_mxQuantize_zero hf hx hxf (by linarith),
      absEReal_mxQuantize_zero hf hy hyf (by linarith), neg_zero]
  · refine le_trans ?_ (absEReal_nonneg f _)
    rw [EReal.neg_le, neg_zero]
    exact absEReal_nonneg f _
  · rw [EReal.neg_le_neg_iff]
    exact absEReal_mxQuantize_le hf hy hyf hx hxf (absValue_le_iff.1 (by linarith))

end Value

/-! ## More mantissa bits -/

section Precision

variable {clo clo' : Clo} {shared : Int} {mant n d : Nat}

/-- The largest element of the finer grid is no smaller. -/
theorem maxSig_mul_le (hemax : clo'.mxEmax = clo.mxEmax) (hd : clo'.mxMbits = clo.mxMbits + d) :
    clo.maxSig * 2 ^ d ≤ clo'.maxSig := by
  rcases Nat.eq_zero_or_pos d with rfl | hpos
  · have hsame : clo'.maxSig = clo.maxSig := by
      unfold Clo.maxSig
      rw [hemax, hd, Nat.add_zero]
    rw [hsame, pow_zero, Nat.mul_one]
  · have hlt := maxSig_lt clo
    have hfine : 2 ^ (clo'.mxMbits + 1) - 2 ≤ clo'.maxSig := by
      rcases maxSig_cases clo' with heq | ⟨-, heq⟩
      · omega
      · omega
    have htwo : 2 ^ 1 ≤ 2 ^ d := Nat.pow_le_pow_right (by omega) hpos
    have hsplit : 2 ^ (clo'.mxMbits + 1) = 2 ^ (clo.mxMbits + 1) * 2 ^ d := by
      rw [← pow_add, hd]
      congr 1
      omega
    calc clo.maxSig * 2 ^ d ≤ (2 ^ (clo.mxMbits + 1) - 1) * 2 ^ d :=
          Nat.mul_le_mul_right _ (by omega)
      _ = 2 ^ (clo'.mxMbits + 1) - 2 ^ d := by rw [Nat.sub_mul, Nat.one_mul, hsplit]
      _ ≤ clo'.maxSig := by omega

/-- The nearest multiple of a fine quantum is no farther than any multiple of a coarser one. -/
theorem abs_round_sub_le (x : ℚ) (K : Int) {z : Int} (d : Nat) :
    |(round (x / 2 ^ z) : ℚ) * 2 ^ z - x| ≤ |(K : ℚ) * 2 ^ (z + d) - x| := by
  have hpos := two_zpow_pos z
  have hnear := round_le (x / 2 ^ z) (K * 2 ^ d)
  have hscale : ∀ N : ℚ, |N * 2 ^ z - x| = |x / 2 ^ z - N| * 2 ^ z := by
    intro N
    have hx : N * 2 ^ z - x = (N - x / 2 ^ z) * 2 ^ z := by
      rw [sub_mul, div_mul_cancel₀ _ hpos.ne']
    rw [hx, abs_mul, abs_of_pos hpos, abs_sub_comm]
  have hcoarse : (K : ℚ) * 2 ^ (z + d) = ((K * 2 ^ d : Int) : ℚ) * 2 ^ z := by
    rw [two_zpow_add, zpow_natCast]
    push_cast
    ring
  rw [hcoarse, hscale, hscale]
  exact mul_le_mul_of_nonneg_right hnear hpos.le

/-- A quantised magnitude is a multiple of its quantum. -/
theorem exists_mul_quantMag (hfit : Fits mant n) {z : Int} (hz : mxQuantum clo n.log2 shared = z) :
    ∃ K : Int, (quantMag clo mant shared n : ℚ) = K * 2 ^ z := by
  rcases quantMag_round hfit hz with h | ⟨-, -, h⟩
  · exact ⟨_, h⟩
  · exact ⟨clo.maxSig, by rw [h, Int.cast_natCast]⟩

/-- The nearest multiple of a quantum is at most half of it above. -/
theorem mul_le_of_lt_round {x : ℚ} {z : Int} {N : Nat} (h : (N : Int) < round (x / 2 ^ z)) :
    (N : ℚ) * 2 ^ z ≤ x := by
  have hpos := two_zpow_pos z
  have hhalf := (abs_le.1 (abs_sub_round (x / 2 ^ z))).1
  have hnext : ((N : ℚ) + 1) ≤ round (x / 2 ^ z) := by exact_mod_cast h
  rw [← le_div_iff₀ hpos]
  linarith

/-- In the top binade no rounded magnitude is above the largest element. -/
theorem quantMag_le_maxSig {z : Int} (hz : mxQuantum clo n.log2 shared = z) (hu : ulp mant n < z)
    (htop : z = shared + clo.mxEmax - clo.mxMbits) :
    (quantMag clo mant shared n : ℚ) ≤ clo.maxSig * 2 ^ z := by
  obtain ⟨q, rfl⟩ := Int.eq_ofNat_of_zero_le (by omega : 0 ≤ z)
  have hle : quantMag clo mant shared n ≤ clo.maxSig * 2 ^ q := by
    rw [quantMag_of_lt hz (by omega)]
    apply Nat.mul_le_mul_right
    split <;> omega
  rw [← two_zpow_natCast]
  exact_mod_cast hle

/-- **More mantissa bits never hurt** a magnitude. -/
theorem quantMag_error_le (hfit : Fits mant n) (hemax : clo'.mxEmax = clo.mxEmax)
    (hemin : clo'.mxEmin = clo.mxEmin) (hd : clo'.mxMbits = clo.mxMbits + d) :
    |(quantMag clo' mant shared n : ℚ) - n| ≤ |(quantMag clo mant shared n : ℚ) - n| := by
  have hquantum : mxQuantum clo n.log2 shared = mxQuantum clo' n.log2 shared + d := by
    unfold mxQuantum
    rw [hemin, hd]
    split <;> omega
  rcases le_or_gt (mxQuantum clo' n.log2 shared) (ulp mant n) with hstays | hmoves
  · have hexact : quantMag clo' mant shared n = n := if_pos hstays
    rw [hexact, sub_self, abs_zero]
    exact abs_nonneg _
  rcases quantMag_round hfit (rfl : mxQuantum clo' n.log2 shared = _) with h' | ⟨htop, hlt, h'⟩
  · -- the coarse result is on the fine grid
    obtain ⟨K, hK⟩ := exists_mul_quantMag hfit hquantum
    rw [h', hK]
    exact abs_round_sub_le n K d
  · -- the fine result is the largest one: the magnitude is above it and the coarse result below
    generalize mxQuantum clo' n.log2 shared = z at hquantum hmoves htop hlt h'
    have habove : (clo'.maxSig : ℚ) * 2 ^ z ≤ n := mul_le_of_lt_round hlt
    have hbelow : (quantMag clo mant shared n : ℚ) ≤ clo'.maxSig * 2 ^ z := by
      have hsig : ((clo.maxSig * 2 ^ d : Nat) : ℚ) ≤ clo'.maxSig := by
        exact_mod_cast maxSig_mul_le hemax hd
      calc (quantMag clo mant shared n : ℚ) ≤ clo.maxSig * 2 ^ (z + d) :=
            quantMag_le_maxSig hquantum (by omega) (by omega)
        _ = ((clo.maxSig * 2 ^ d : Nat) : ℚ) * 2 ^ z := by
            rw [two_zpow_add, zpow_natCast]
            push_cast
            ring
        _ ≤ clo'.maxSig * 2 ^ z := mul_le_mul_of_nonneg_right hsig (two_zpow_pos z).le
    rw [h', abs_of_nonpos (by linarith), abs_of_nonpos (by linarith)]
    linarith

end Precision

section Error

variable {clo clo' : Clo} {f : FpFmt} {x y : ULong} {shared : Int}

/-- Elements of one sign differ by their magnitudes. -/
theorem abs_value_sub (h : f.sgn x = f.sgn y) :
    |f.value x - f.value y| = |(f.mag x : ℚ) - f.mag y| * 2 ^ f.minLsb := by
  have hdiff : |f.value x - f.value y| = |f.absValue x - f.absValue y| := by
    unfold FpFmt.value
    rw [h]
    split
    · rfl
    · rw [neg_sub_neg, abs_sub_comm]
  rw [hdiff, FpFmt.absValue, FpFmt.absValue, ← sub_mul, abs_mul, abs_of_pos (two_zpow_pos _)]

/-- The error of a quantised element is that of its magnitude. -/
theorem abs_value_mxQuantize_sub (hf : f.Ieee) (hx : f.Word x) (hxf : f.Finite x)
    (hlt : quantMag clo f.mant (shared - f.minLsb) (f.mag x) < f.overflow) :
    |f.value (mxQuantize clo f x shared) - f.value x| =
      |(quantMag clo f.mant (shared - f.minLsb) (f.mag x) : ℚ) - f.mag x| * 2 ^ f.minLsb := by
  rw [abs_value_sub (mxQuantize_word hf clo shared hx hxf).2.1,
    mag_mxQuantize hf clo shared hx hxf hlt]

end Error

/-! ## Groups in memory -/

section Group

variable {clo : Clo} {f : FpFmt} {bk : Block} {bi : SizeT} {m : Mem}

/-- The element at a place of an encoded group. -/
theorem ScaleInRange.getElem?_mxEncodeBlock (hf : f.Ieee)
    (h : ScaleInRange clo f (mxGroup f bk bi m)) (i : Nat) :
    (mxGroup f bk bi (mxEncodeBlock clo f bk bi m))[i]? = ((mxGroup f bk bi m)[i]?).map fun v =>
      mxQuantize clo f v (mxShared clo (scanGroup f (mxGroup f bk bi m)).lmax) := by
  rw [mxEncodeBlock_elems clo hf, h.encodeGroup_eq hf (mxGroup_word hf), List.getElem?_map]

end Group

/-- **Encoding keeps the order.** For every setting and every group of finite elements whose scale
is not NaN, the encoding of each element is not NaN and has its sign, and elements `x ≤ y` have
encodings `x' ≤ y'`. -/
theorem mxEncodeBlock_mono (clo : Clo) {f : FpFmt} (hf : f = fmt64 ∨ f = fmt32) (bk : Block)
    (bi : SizeT) (m : Mem) (hscale : ScaleInRange clo f (mxGroup f bk bi m)) {i j : Nat}
    {x y : ULong} (hx : (mxGroup f bk bi m)[i]? = some x) (hy : (mxGroup f bk bi m)[j]? = some y) :
    ∃ x' y', (mxGroup f bk bi (mxEncodeBlock clo f bk bi m))[i]? = some x' ∧
      (mxGroup f bk bi (mxEncodeBlock clo f bk bi m))[j]? = some y' ∧
      f.code x' ≤ f.emask * 2 ^ f.mant ∧ f.sgn x' = f.sgn x ∧
      (f.value x ≤ f.value y → f.toEReal x' ≤ f.toEReal y') := by
  have hieee := FpFmt.ieee_of_eq hf
  have hxmem := List.mem_of_getElem? hx
  have hymem := List.mem_of_getElem? hy
  have hxw := mxGroup_word hieee x hxmem
  have hyw := mxGroup_word hieee y hymem
  have hxf := hscale.finite x hxmem
  have hyf := hscale.finite y hymem
  have hx' := hscale.getElem?_mxEncodeBlock hieee i
  have hy' := hscale.getElem?_mxEncodeBlock hieee j
  rw [hx] at hx'
  rw [hy] at hy'
  exact ⟨_, _, hx', hy', code_mxQuantize_le hieee hxw hxf,
    (mxQuantize_word hieee clo _ hxw hxf).2.1, toEReal_mxQuantize_le hieee hxw hxf hyw hyf⟩

/-- The doubles `1.0` and `1.2`. -/
def twoDoubles : List ULong := [0x3FF0000000000000#64, 0x3FF3333333333333#64]

/-- A block of two elements. -/
def twoBlock : Block := ⟨0#64, 16#64, [], true⟩

/-- Its memory. -/
def twoMem : Mem :=
  mxStore fmt64 (mxStore fmt64 (fun _ => 0#8) 0#64 0x3FF0000000000000#64) 8#64 0x3FF3333333333333#64

theorem mxGroup_twoMem : mxGroup fmt64 twoBlock 0#64 twoMem = twoDoubles := by decide

theorem scaleInRange_twoDoubles : ScaleInRange {} fmt64 twoDoubles := by
  have hone : ∀ v, v = 0x3FF0000000000000#64 ∨ v = 0x3FF3333333333333#64 →
      fmt64.Finite v ∧ mxLead fmt64 v - 8 ≤ mxScaleMax {} := by
    rintro v (rfl | rfl) <;> decide
  constructor
  · intro v hv
    exact (hone v (by simpa [twoDoubles] using hv)).1
  · intro v hv hc
    rw [log_absValue FpFmt.fmt64_ieee hc]
    exact (hone v (by simpa [twoDoubles] using hv)).2

/-- `1.0` and `1.2` keep their order: they are encoded as `1.0` and `1.25`. -/
theorem mxEncodeBlock_mono_two :
    mxGroup fmt64 twoBlock 0#64 (mxEncodeBlock {} fmt64 twoBlock 0#64 twoMem) =
        [0x3FF0000000000000#64, 0x3FF4000000000000#64] ∧
      fmt64.toEReal 0x3FF0000000000000#64 ≤ fmt64.toEReal 0x3FF4000000000000#64 := by
  have hencoded : mxGroup fmt64 twoBlock 0#64 (mxEncodeBlock {} fmt64 twoBlock 0#64 twoMem) =
      [0x3FF0000000000000#64, 0x3FF4000000000000#64] := by decide
  have hvalue : fmt64.value 0x3FF0000000000000#64 ≤ fmt64.value 0x3FF3333333333333#64 := by
    have hx : fmt64.sgn 0x3FF0000000000000#64 = 0 := by decide
    have hy : fmt64.sgn 0x3FF3333333333333#64 = 0 := by decide
    rw [FpFmt.value, FpFmt.value, if_pos hx, if_pos hy, absValue_le_iff]
    decide +kernel
  obtain ⟨x', y', hx', hy', -, -, hle⟩ := mxEncodeBlock_mono {} (.inl rfl) twoBlock 0#64 twoMem
    (mxGroup_twoMem ▸ scaleInRange_twoDoubles) (congrArg (·[0]?) mxGroup_twoMem)
    (congrArg (·[1]?) mxGroup_twoMem)
  rw [hencoded] at hx' hy'
  cases hx'
  cases hy'
  exact ⟨hencoded, hle hvalue⟩

/-- **More mantissa bits never hurt.** With the other settings fixed, every element of a group of
finite elements whose scale is not NaN is encoded as a finite number, and with more mantissa bits as
one that is at least as near. -/
theorem mxEncodeBlock_error_antitone (clo clo' : Clo) (hemax : clo'.mxEmax = clo.mxEmax)
    (hemin : clo'.mxEmin = clo.mxEmin) (hscaleBits : clo'.mxScaleBits = clo.mxScaleBits)
    (hmbits : clo.mxMbits ≤ clo'.mxMbits) {f : FpFmt} (hf : f = fmt64 ∨ f = fmt32)
    (hroom : f = fmt32 → clo.mxEmax ≤ 127) (bk : Block) (bi : SizeT) (m : Mem)
    (hscale : ScaleInRange clo f (mxGroup f bk bi m)) {i : Nat} {x : ULong}
    (hx : (mxGroup f bk bi m)[i]? = some x) :
    ∃ w w', (mxGroup f bk bi (mxEncodeBlock clo f bk bi m))[i]? = some w ∧
      (mxGroup f bk bi (mxEncodeBlock clo' f bk bi m))[i]? = some w' ∧
      f.Finite w ∧ f.Finite w' ∧ |f.value w' - f.value x| ≤ |f.value w - f.value x| := by
  have hieee := FpFmt.ieee_of_eq hf
  have hxmem := List.mem_of_getElem? hx
  have hwords : ∀ v ∈ mxGroup f bk bi m, f.Word v := mxGroup_word hieee
  have hxw := hwords x hxmem
  have hxf := hscale.finite x hxmem
  have hbias : clo.mxEmax ≤ f.bias := by
    have hrange := clo.mxEmax_range
    rcases hf with rfl | rfl
    · exact hrange
    · exact hroom rfl
  have hmax : mxScaleMax clo' = mxScaleMax clo := by
    unfold mxScaleMax
    rw [hscaleBits]
  have hshared : ∀ l, mxShared clo' l = mxShared clo l := by
    intro l
    unfold mxShared
    rw [hmax, hemax]
  have hscale' : ScaleInRange clo' f (mxGroup f bk bi m) := by
    refine ⟨hscale.finite, fun v hv hc => ?_⟩
    rw [hemax, hmax]
    exact hscale.le v hv hc
  have hw := hscale.getElem?_mxEncodeBlock hieee i
  have hw' := hscale'.getElem?_mxEncodeBlock hieee i
  have hlt := hscale.no_overflow hieee hwords hbias hxmem
  have hlt' := hscale'.no_overflow hieee hwords (hemax ▸ hbias) hxmem
  rw [hx] at hw hw'
  rw [hshared] at hw' hlt'
  refine ⟨_, _, hw, hw', (mxQuantize_finite_iff hieee clo _ hxw hxf).2 hlt,
    (mxQuantize_finite_iff hieee clo' _ hxw hxf).2 hlt', ?_⟩
  obtain ⟨d, hd⟩ := Nat.exists_eq_add_of_le hmbits
  have hfit : Fits f.mant (f.mag x) := fits_mag _ _
  rw [abs_value_mxQuantize_sub hieee hxw hxf hlt, abs_value_mxQuantize_sub hieee hxw hxf hlt']
  exact mul_le_mul_of_nonneg_right (quantMag_error_le hfit hemax hemin hd) (two_zpow_pos _).le

/-- `1.2` with three and with four bits: `1.25` and `1.1875`. -/
theorem mxEncodeBlock_error_antitone_two :
    mxGroup fmt64 twoBlock 0#64 (mxEncodeBlock { mxMbits := 3 } fmt64 twoBlock 0#64 twoMem) =
        [0x3FF0000000000000#64, 0x3FF4000000000000#64] ∧
      mxGroup fmt64 twoBlock 0#64 (mxEncodeBlock { mxMbits := 4 } fmt64 twoBlock 0#64 twoMem) =
        [0x3FF0000000000000#64, 0x3FF3000000000000#64] ∧
      |fmt64.value 0x3FF3000000000000#64 - fmt64.value 0x3FF3333333333333#64| ≤
        |fmt64.value 0x3FF4000000000000#64 - fmt64.value 0x3FF3333333333333#64| := by
  have hthree : mxGroup fmt64 twoBlock 0#64
      (mxEncodeBlock { mxMbits := 3 } fmt64 twoBlock 0#64 twoMem) =
        [0x3FF0000000000000#64, 0x3FF4000000000000#64] := by decide
  have hfour : mxGroup fmt64 twoBlock 0#64
      (mxEncodeBlock { mxMbits := 4 } fmt64 twoBlock 0#64 twoMem) =
        [0x3FF0000000000000#64, 0x3FF3000000000000#64] := by decide
  obtain ⟨w, w', hw, hw', -, -, hle⟩ :=
    mxEncodeBlock_error_antitone { mxMbits := 3 } { mxMbits := 4 }
    rfl rfl rfl (by decide) (.inl rfl) (fun h => by cases h) twoBlock 0#64 twoMem
    (mxGroup_twoMem ▸ scaleInRange_twoDoubles) (congrArg (·[1]?) mxGroup_twoMem)
  rw [hthree] at hw
  rw [hfour] at hw'
  cases hw
  cases hw'
  exact ⟨hthree, hfour, hle⟩

end Memlog
