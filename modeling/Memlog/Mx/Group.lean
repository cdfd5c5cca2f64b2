import Mathlib.Algebra.Order.Ring.Int
import Memlog.Mx.Quantize

/-!
# One group of elements

`mx_encode_block` on the list of the elements of a group. `ScanOf` is what the first loop finds out
about them, `encodeGroup` is the group after the second one. Encoding an encoded group changes
nothing (`encodeGroup_idem`): the shared exponent computed from the rounded elements is the one they
were rounded with (`encodeGroup_of_inScale`).
-/

namespace Memlog

open Lib.Fp

/-- The elements that count for the shared exponent. -/
def FpFmt.Active (f : FpFmt) (v : ULong) : Prop := f.Finite v ∧ f.code v ≠ 0

/-- The first loop of `mx_encode_block` over a list of elements. -/
def scanGroup (f : FpFmt) (vs : List ULong) : MxScan :=
  vs.foldl (mxScanElement f) ⟨false, false, 0⟩

/-- The shared exponent, clamped from below. -/
def mxShared (clo : Clo) (lmax : Int) : Int :=
  if lmax - clo.mxEmax < -mxScaleMax clo then -mxScaleMax clo else lmax - clo.mxEmax

/-- What `mx_encode_block` does with each element, after the first loop. -/
def mxElementMap (clo : Clo) (f : FpFmt) (acc : MxScan) : ULong → ULong :=
  if acc.nonfinite || (acc.any && acc.lmax - clo.mxEmax > mxScaleMax clo) then
    fun _ => mxNanElement f
  else if !acc.any then id
  else fun v => mxQuantize clo f v (mxShared clo acc.lmax)

/-- The elements of a group after `mx_encode_block`. -/
def encodeGroup (clo : Clo) (f : FpFmt) (vs : List ULong) : List ULong :=
  vs.map (mxElementMap clo f (scanGroup f vs))

theorem mxScaleMax_nonneg (clo : Clo) : 0 ≤ mxScaleMax clo := by
  have h : (1 : Int) ≤ 2 ^ (clo.mxScaleBits - 1) := one_le_pow₀ (by omega)
  unfold mxScaleMax
  omega

/-! ## The first loop -/

/-- What the first loop has found in the elements it has seen. -/
structure ScanOf (f : FpFmt) (vs : List ULong) (acc : MxScan) : Prop where
  any : acc.any = true ↔ ∃ v ∈ vs, f.Active v
  nonfinite : acc.nonfinite = true ↔ ∃ v ∈ vs, ¬f.Finite v
  le : ∀ v ∈ vs, f.Active v → mxLead f v ≤ acc.lmax
  attained : acc.any = true → ∃ v ∈ vs, f.Active v ∧ mxLead f v = acc.lmax

section Scan

variable {f : FpFmt} (hf : f.Ieee) {vs : List ULong} {acc : MxScan} {v : ULong}
include hf

theorem code_ne_zero_of_not_finite (hv : ¬f.Finite v) : f.code v ≠ 0 := by
  have hem := hf.emask_pos
  have hpos := Nat.two_pow_pos f.mant
  have hmul : 1 * 1 ≤ f.emask * 2 ^ f.mant := Nat.mul_le_mul (by omega) hpos
  unfold FpFmt.Finite at hv
  omega

theorem mxScanElement_of_zero (hv : f.Word v) (hc : f.code v = 0) : mxScanElement f acc v = acc :=
  if_pos ((and_not_sbit_eq_zero hf hv).2 hc)

theorem mxScanElement_of_not_finite (hv : f.Word v) (hfin : ¬f.Finite v) :
    mxScanElement f acc v = { acc with nonfinite := true } := by
  have hc := code_ne_zero_of_not_finite hf hfin
  rw [mxScanElement, if_neg (mt (and_not_sbit_eq_zero hf hv).1 hc),
    if_pos ((mxExponent_eq_emask hf).2 hfin)]

theorem mxScanElement_of_active (hv : f.Word v) (ha : f.Active v) :
    mxScanElement f acc v =
      { acc with
        any := true
        lmax := if !acc.any || mxLead f v > acc.lmax then mxLead f v else acc.lmax } := by
  rw [mxScanElement, if_neg (mt (and_not_sbit_eq_zero hf hv).1 ha.2),
    if_neg (mt (mxExponent_eq_emask hf).1 (not_not.2 ha.1))]

/-- One turn of the loop. -/
theorem ScanOf.step (h : ScanOf f vs acc) (hv : f.Word v) :
    ScanOf f (vs ++ [v]) (mxScanElement f acc v) := by
  have hex : ∀ P : ULong → Prop, (∃ x ∈ vs ++ [v], P x) ↔ (∃ x ∈ vs, P x) ∨ P v := by
    intro P
    simp only [List.mem_append, List.mem_singleton, or_and_right, exists_or, exists_eq_left]
  have hall : ∀ P : ULong → Prop, (∀ x ∈ vs ++ [v], P x) ↔ (∀ x ∈ vs, P x) ∧ P v := by
    intro P
    simp only [List.mem_append, List.mem_singleton, or_imp, forall_and, forall_eq]
  by_cases hc : f.code v = 0
  · have hna : ¬f.Active v := fun ha => ha.2 hc
    have hfin : f.Finite v := by
      by_contra hnf
      exact code_ne_zero_of_not_finite hf hnf hc
    rw [mxScanElement_of_zero hf hv hc]
    constructor
    · rw [hex, h.any, or_iff_left hna]
    · rw [hex, h.nonfinite, or_iff_left (not_not.2 hfin)]
    · rw [hall]
      exact ⟨h.le, fun ha => absurd ha hna⟩
    · intro hany
      rw [hex]
      exact .inl (h.attained hany)
  · by_cases hfin : f.Finite v
    · have ha : f.Active v := ⟨hfin, hc⟩
      rw [mxScanElement_of_active hf hv ha]
      constructor
      · rw [hex]
        exact iff_of_true rfl (.inr ha)
      · rw [hex, or_iff_left (not_not.2 hfin)]
        exact h.nonfinite
      · rw [hall]
        constructor
        · intro x hx hxa
          have hany := h.any.2 ⟨x, hx, hxa⟩
          have hle := h.le x hx hxa
          dsimp only
          rw [hany]
          simp only [Bool.not_true, Bool.false_or, decide_eq_true_eq]
          split <;> omega
        · intro _
          dsimp only
          split
          · exact le_refl _
          · rename_i hno
            simp only [gt_iff_lt, Bool.or_eq_true, decide_eq_true_eq, not_or, not_lt] at hno
            exact hno.2
      · intro _
        rw [hex]
        dsimp only
        split
        · exact .inr ⟨ha, rfl⟩
        · rename_i hno
          simp only [gt_iff_lt, Bool.or_eq_true, decide_eq_true_eq, not_or, not_lt,
            Bool.not_eq_true', Bool.not_eq_false] at hno
          exact .inl (h.attained hno.1)
    · have hna : ¬f.Active v := fun ha => hfin ha.1
      rw [mxScanElement_of_not_finite hf hv hfin]
      constructor
      · rw [hex, or_iff_left hna]
        exact h.any
      · rw [hex]
        exact iff_of_true rfl (.inr hfin)
      · rw [hall]
        exact ⟨h.le, fun ha => absurd ha hna⟩
      · intro hany
        rw [hex]
        exact .inl (h.attained hany)

/-- **The first loop** finds what `ScanOf` says. -/
theorem scanOf_scanGroup (hvs : ∀ v ∈ vs, f.Word v) : ScanOf f vs (scanGroup f vs) := by
  induction vs using List.reverseRecOn with
  | nil => constructor <;> simp [scanGroup]
  | append_singleton vs v ih =>
    have hlast : f.Word v := hvs v (by simp)
    have hinit : ∀ x ∈ vs, f.Word x := fun x hx => hvs x (by simp [hx])
    unfold scanGroup at ih ⊢
    rw [List.foldl_append]
    exact (ih hinit).step hf hlast

end Scan

/-! ## The shared exponent -/

section Shared

variable {clo : Clo} {lmax : Int}

/-- The shared exponent puts the largest element in the top binade, or it is clamped. -/
theorem mxShared_cases (clo : Clo) (lmax : Int) :
    (-mxScaleMax clo ≤ lmax - clo.mxEmax ∧ lmax = mxShared clo lmax + clo.mxEmax) ∨
      (lmax - clo.mxEmax < -mxScaleMax clo ∧ mxShared clo lmax = -mxScaleMax clo) := by
  unfold mxShared
  split <;> omega

theorem le_mxShared_add (clo : Clo) (lmax : Int) : lmax ≤ mxShared clo lmax + clo.mxEmax := by
  rcases mxShared_cases clo lmax with ⟨-, h⟩ | ⟨h, h'⟩ <;> omega

end Shared

/-! ## Quantised elements -/

section Elements

variable {f : FpFmt} (hf : f.Ieee) (clo : Clo) {v : ULong} {shared : Int}
include hf

/-- The quiet NaN has only the top bit of its significand. -/
theorem mxNanElement_code :
    f.Word (mxNanElement f) ∧
      f.code (mxNanElement f) = f.emask * 2 ^ f.mant + 2 ^ (f.mant - 1) := by
  have hmant := hf.mant
  have hw := hf.width_le
  have hlt := emask_mul_lt hf
  have hsb := hf.sign_bit
  have hpow : 2 ^ (8 * f.esz - 1) < 2 ^ 64 := Nat.pow_lt_pow_right (by omega) (by omega)
  have hhalf : 2 ^ (f.mant - 1) < 2 ^ f.mant := Nat.pow_lt_pow_right (by omega) (by omega)
  have hinf : (BitVec.ofNat 64 f.emask <<< f.mant).toNat = f.emask * 2 ^ f.mant := by
    have hmask : (BitVec.ofNat 64 f.emask).toNat = f.emask := by
      rw [BitVec.toNat_ofNat, Nat.mod_eq_of_lt hf.emask_lt]
    rw [shiftLeft_toNat (by rw [hmask]; omega), hmask]
  have hquiet : (1#64 <<< (f.mant - 1)).toNat = 2 ^ (f.mant - 1) := one_shiftLeft_toNat (by omega)
  have hnan : (mxNanElement f).toNat =
      0 * 2 ^ (8 * f.esz - 1) + (f.emask * 2 ^ f.mant + 2 ^ (f.mant - 1)) := by
    rw [mxNanElement, or_toNat hinf (by rw [hquiet]; exact hhalf), hquiet, Nat.zero_mul,
      Nat.zero_add]
  have hbound : f.emask * 2 ^ f.mant + 2 ^ (f.mant - 1) < 2 ^ (8 * f.esz - 1) := by
    have hsum : 2 ^ (8 * f.esz - 1) = (f.emask + 1) * 2 ^ f.mant := by
      rw [hsb, Nat.add_comm, pow_add, hf.emask]
    rw [hsum, Nat.succ_mul]
    omega
  obtain ⟨hword, -, hcode⟩ := word_of_toNat hf (Nat.zero_le 1) hbound hnan
  exact ⟨hword, hcode⟩

theorem mxNanElement_word : f.Word (mxNanElement f) ∧ ¬f.Finite (mxNanElement f) := by
  obtain ⟨hword, hcode⟩ := mxNanElement_code hf
  refine ⟨hword, ?_⟩
  unfold FpFmt.Finite
  rw [hcode]
  exact Nat.not_lt.2 (Nat.le_add_right _ _)

/-- The exponents of finite elements. -/
theorem mxLead_le_bias (ha : f.Active v) : mxLead f v ≤ f.bias := by
  have hem := hf.emask_pos
  have hb := hf.bias
  have hlt : (f.mag v).log2 < f.mant + (f.emask - 1) :=
    (Nat.log2_lt (mag_ne_zero ha.2)).2 ((finite_iff hf ha.2).1 ha.1)
  rw [mxLead_eq hf ha.2, FpFmt.minLsb]
  omega

/-- A finite element stays finite if rounding cannot carry out of the largest binade. -/
theorem quantMag_lt_overflow (ha : f.Active v)
    (hcap : mxLead f v ≤ shared + clo.mxEmax)
    (hroom : mxLead f v < f.bias ∨ shared + clo.mxEmax ≤ f.bias) :
    quantMag clo f.mant (shared - f.minLsb) (f.mag v) < f.overflow := by
  have hem := hf.emask_pos
  have hb := hf.bias
  have hlead := mxLead_eq hf ha.2
  rcases Nat.eq_zero_or_pos (quantMag clo f.mant (shared - f.minLsb) (f.mag v)) with hz | hpos
  · rw [hz]
    exact f.overflow_pos
  · have hsucc := log2_quantMag_le_succ hpos.ne'
    have htop := log2_quantMag_le hpos.ne' (by omega)
    rw [FpFmt.overflow, ← Nat.log2_lt hpos.ne']
    have hlsb : f.minLsb = 1 - f.bias - f.mant := rfl
    omega

variable (hlt : quantMag clo f.mant (shared - f.minLsb) (f.mag v) < f.overflow)
include hlt

/-- The leading exponent of a quantised element. -/
theorem mxLead_mxQuantize (hv : f.Word v) (hfin : f.Finite v)
    (ha : f.Active (mxQuantize clo f v shared)) :
    quantMag clo f.mant (shared - f.minLsb) (f.mag v) ≠ 0 ∧ mxLead f (mxQuantize clo f v shared) =
      (quantMag clo f.mant (shared - f.minLsb) (f.mag v)).log2 + f.minLsb := by
  have hmag := mag_mxQuantize hf clo shared hv hfin hlt
  rw [mxLead_eq hf ha.2, hmag]
  refine ⟨?_, rfl⟩
  rw [← hmag]
  exact mag_ne_zero ha.2

/-- Rounding carries no element above the top binade. -/
theorem mxLead_mxQuantize_le (hv : f.Word v) (hfin : f.Finite v)
    (ha : f.Active (mxQuantize clo f v shared))
    (hcap : f.code v ≠ 0 → mxLead f v ≤ shared + clo.mxEmax) :
    mxLead f (mxQuantize clo f v shared) ≤ shared + clo.mxEmax := by
  obtain ⟨hne, hlead⟩ := mxLead_mxQuantize hf clo hlt hv hfin ha
  have hc : f.code v ≠ 0 := by
    intro hc
    have hz : f.mag v = 0 := mag_eq_zero.2 hc
    rw [hz, quantMag_zero] at hne
    exact hne rfl
  have hv' := mxLead_eq hf hc
  have hcap := hcap hc
  have htop := log2_quantMag_le hne (by omega)
  omega

/-- The top binade keeps its elements. -/
theorem mxLead_mxQuantize_top (hv : f.Word v) (ha : f.Active v)
    (htop : mxLead f v = shared + clo.mxEmax) :
    f.Active (mxQuantize clo f v shared) ∧ mxLead f (mxQuantize clo f v shared) = mxLead f v := by
  have hlead := mxLead_eq hf ha.2
  have hmagne : f.mag v ≠ 0 := mag_ne_zero ha.2
  have hlogtop : ((f.mag v).log2 : Int) = shared - f.minLsb + clo.mxEmax := by omega
  obtain ⟨hne, hlog⟩ := log2_quantMag_top f.mant hmagne hlogtop
  have hmag := mag_mxQuantize hf clo shared hv ha.1 hlt
  have hact : f.Active (mxQuantize clo f v shared) := by
    refine ⟨(mxQuantize_finite_iff hf clo shared hv ha.1).2 hlt, ?_⟩
    rw [← mag_ne_zero_iff, hmag]
    exact hne
  refine ⟨hact, ?_⟩
  rw [mxLead_eq hf hact.2, hmag, hlog, hlead]

end Elements

/-! ## Encoding a group -/

section Encode

variable {f : FpFmt} (hf : f.Ieee) (clo : Clo) {vs : List ULong} {acc : MxScan}

theorem mxElementMap_nan
    (h : acc.nonfinite = true ∨ acc.any = true ∧ mxScaleMax clo < acc.lmax - clo.mxEmax) :
    mxElementMap clo f acc = fun _ => mxNanElement f := by
  apply if_pos
  simpa using h

theorem mxElementMap_id (hnf : acc.nonfinite = false) (hany : acc.any = false) :
    mxElementMap clo f acc = id := by
  unfold mxElementMap
  simp [hnf, hany]

theorem mxElementMap_quantize (hnf : acc.nonfinite = false) (hany : acc.any = true)
    (hrange : acc.lmax - clo.mxEmax ≤ mxScaleMax clo) :
    mxElementMap clo f acc = fun v => mxQuantize clo f v (mxShared clo acc.lmax) := by
  unfold mxElementMap
  simp [hnf, hany, hrange]

/-- The three kinds of group that `mx_encode_block` tells apart. -/
theorem scan_cases (clo : Clo) (acc : MxScan) :
    (acc.nonfinite = true ∨ acc.any = true ∧ mxScaleMax clo < acc.lmax - clo.mxEmax) ∨
      (acc.nonfinite = false ∧ acc.any = false) ∨
      (acc.nonfinite = false ∧ acc.any = true ∧ acc.lmax - clo.mxEmax ≤ mxScaleMax clo) := by
  cases acc.nonfinite with
  | true => exact .inl (.inl rfl)
  | false =>
    cases acc.any with
    | false => exact .inr (.inl ⟨rfl, rfl⟩)
    | true =>
      rcases lt_or_ge (mxScaleMax clo) (acc.lmax - clo.mxEmax) with h | h
      · exact .inl (.inr ⟨rfl, h⟩)
      · exact .inr (.inr ⟨rfl, rfl, h⟩)

end Encode

/-! ## Elements that fit a scale -/

/-- A shared exponent in range, with room for the top binade in the format. -/
structure MxScale (clo : Clo) (f : FpFmt) (shared : Int) : Prop where
  lower : -mxScaleMax clo ≤ shared
  upper : shared ≤ mxScaleMax clo
  room : shared + clo.mxEmax ≤ f.bias

/-- An element that is finite and not above the top binade of the scale. -/
structure InScale (clo : Clo) (f : FpFmt) (shared : Int) (v : ULong) : Prop where
  word : f.Word v
  finite : f.Finite v
  le : f.code v ≠ 0 → mxLead f v ≤ shared + clo.mxEmax

section Scale

variable {f : FpFmt} (hf : f.Ieee) {clo : Clo} {shared : Int} {v : ULong} {vs : List ULong}
  {acc : MxScan}
include hf

theorem InScale.of_code (hv : f.Word v) (hc : f.code v = 0) : InScale clo f shared v := by
  refine ⟨hv, ?_, fun hne => absurd hc hne⟩
  by_contra hfin
  exact code_ne_zero_of_not_finite hf hfin hc

theorem InScale.no_overflow (hs : MxScale clo f shared) (h : InScale clo f shared v) :
    quantMag clo f.mant (shared - f.minLsb) (f.mag v) < f.overflow := by
  by_cases hc : f.code v = 0
  · have hz : f.mag v = 0 := mag_eq_zero.2 hc
    rw [hz, quantMag_zero]
    exact f.overflow_pos
  · exact quantMag_lt_overflow hf clo ⟨h.finite, hc⟩ (h.le hc) (.inr hs.room)

/-- A rounded element fits the scale it was rounded with. -/
theorem InScale.quantize (hs : MxScale clo f shared) (h : InScale clo f shared v) :
    InScale clo f shared (mxQuantize clo f v shared) := by
  have hlt := h.no_overflow hf hs
  have hfin := (mxQuantize_finite_iff hf clo shared h.word h.finite).2 hlt
  refine ⟨(mxQuantize_word hf clo shared h.word h.finite).1, hfin, fun hc => ?_⟩
  exact mxLead_mxQuantize_le hf clo hlt h.word h.finite ⟨hfin, hc⟩ h.le

theorem InScale.quantize_idem (hs : MxScale clo f shared) (h : InScale clo f shared v) :
    mxQuantize clo f (mxQuantize clo f v shared) shared = mxQuantize clo f v shared :=
  mxQuantize_idem hf clo shared h.word h.finite (h.no_overflow hf hs)

theorem mxQuantize_of_code (hv : f.Word v) (hc : f.code v = 0) : mxQuantize clo f v shared = v := by
  unfold mxQuantize
  exact if_pos ((and_not_sign_eq_zero hf hv).2 hc)

omit hf in
/-- Finite elements only. -/
theorem ScanOf.nonfinite_eq_false (h : ScanOf f vs acc) (hfin : ∀ v ∈ vs, f.Finite v) :
    acc.nonfinite = false := by
  rw [Bool.eq_false_iff, ne_eq, h.nonfinite]
  rintro ⟨v, hv, hinf⟩
  exact hinf (hfin v hv)

/-- A group of zeros is left as it is with any scale. -/
theorem ScanOf.map_quantize_of_any_eq_false (h : ScanOf f vs acc) (hany : acc.any = false)
    (hvs : ∀ v ∈ vs, f.Word v) (hfin : ∀ v ∈ vs, f.Finite v) (shared : Int) :
    (vs.map fun v => mxQuantize clo f v shared) = vs := by
  have hsame : ∀ v ∈ vs, mxQuantize clo f v shared = v := by
    intro v hv
    have hc : f.code v = 0 := by
      by_contra hc
      rw [h.any.2 ⟨v, hv, hfin v hv, hc⟩] at hany
      cases hany
    exact mxQuantize_of_code hf (hvs v hv) hc
  rw [List.map_congr_left hsame, List.map_id']

/-- **A group that fits a scale is rounded with it**, if the scale is the least one or an element is
in its top binade. -/
theorem encodeGroup_of_inScale (hs : MxScale clo f shared) (h : ∀ v ∈ vs, InScale clo f shared v)
    (htop : shared ≠ -mxScaleMax clo → ∃ v ∈ vs, f.Active v ∧ mxLead f v = shared + clo.mxEmax) :
    encodeGroup clo f vs = vs.map fun v => mxQuantize clo f v shared := by
  have hscan := scanOf_scanGroup hf fun v hv => (h v hv).word
  rw [encodeGroup]
  generalize scanGroup f vs = acc at hscan
  have hnf := hscan.nonfinite_eq_false fun v hv => (h v hv).finite
  cases hany : acc.any with
  | false =>
    rw [mxElementMap_id clo hnf hany, List.map_id]
    exact (hscan.map_quantize_of_any_eq_false hf hany (fun v hv => (h v hv).word)
      (fun v hv => (h v hv).finite) shared).symm
  | true =>
    have hle : acc.lmax ≤ shared + clo.mxEmax := by
      obtain ⟨v, hv, hva, hlead⟩ := hscan.attained hany
      rw [← hlead]
      exact (h v hv).le hva.2
    have hshared : mxShared clo acc.lmax = shared := by
      by_cases hleast : shared = -mxScaleMax clo
      · rcases mxShared_cases clo acc.lmax with ⟨hge, heq⟩ | ⟨-, heq⟩ <;> omega
      · obtain ⟨v, hv, hva, hlead⟩ := htop hleast
        have hmax := hscan.le v hv hva
        have hlower := hs.lower
        rcases mxShared_cases clo acc.lmax with ⟨-, heq⟩ | ⟨hlt, -⟩ <;> omega
    have hupper := hs.upper
    rw [mxElementMap_quantize clo hnf hany (by omega), hshared]

end Scale

/-! ## Encoding twice -/

section Again

variable {f : FpFmt} (hf : f.Ieee) (clo : Clo) {vs : List ULong} {acc : MxScan}

theorem ScanOf.finite (h : ScanOf f vs acc) (hnf : acc.nonfinite = false) {v : ULong}
    (hv : v ∈ vs) :
    f.Finite v := by
  by_contra hno
  rw [h.nonfinite.2 ⟨v, hv, hno⟩] at hnf
  cases hnf

/-- The elements of a group fit the scale that the first loop finds. -/
theorem ScanOf.inScale (h : ScanOf f vs acc) (hnf : acc.nonfinite = false)
    (hvs : ∀ v ∈ vs, f.Word v) {v : ULong} (hv : v ∈ vs) :
    InScale clo f (mxShared clo acc.lmax) v where
  word := hvs v hv
  finite := h.finite hnf hv
  le hc := le_trans (h.le v hv ⟨h.finite hnf hv, hc⟩) (le_mxShared_add clo acc.lmax)

/-- The scale is the least one, or the largest element is in its top binade. -/
theorem ScanOf.top (h : ScanOf f vs acc) (hany : acc.any = true)
    (hleast : mxShared clo acc.lmax ≠ -mxScaleMax clo) :
    ∃ v ∈ vs, f.Active v ∧ mxLead f v = mxShared clo acc.lmax + clo.mxEmax := by
  obtain ⟨v, hv, hva, hlead⟩ := h.attained hany
  refine ⟨v, hv, hva, ?_⟩
  rcases mxShared_cases clo acc.lmax with ⟨-, heq⟩ | ⟨-, heq⟩ <;> omega

include hf

theorem ScanOf.mxScale (h : ScanOf f vs acc) (hany : acc.any = true)
    (hrange : acc.lmax - clo.mxEmax ≤ mxScaleMax clo) (hemax : clo.mxEmax ≤ f.bias) :
    MxScale clo f (mxShared clo acc.lmax) := by
  obtain ⟨x, -, hxa, hx⟩ := h.attained hany
  have hbias := mxLead_le_bias hf hxa
  have hscale := mxScaleMax_nonneg clo
  rcases mxShared_cases clo acc.lmax with ⟨hge, heq⟩ | ⟨hlt, heq⟩
  · exact ⟨by omega, by omega, by omega⟩
  · exact ⟨by omega, by omega, by omega⟩

/-- Encoding keeps elements within their format. -/
theorem mxElementMap_word (h : ScanOf f vs acc) (hvs : ∀ v ∈ vs, f.Word v) {v : ULong}
    (hv : v ∈ vs) :
    f.Word (mxElementMap clo f acc v) := by
  rcases scan_cases clo acc with hbad | ⟨hnf, hany⟩ | ⟨hnf, hany, hrange⟩
  · rw [mxElementMap_nan clo hbad]
    exact (mxNanElement_word hf).1
  · rw [mxElementMap_id clo hnf hany]
    exact hvs v hv
  · rw [mxElementMap_quantize clo hnf hany hrange]
    exact (mxQuantize_word hf clo _ (hvs v hv) (h.finite hnf hv)).1

/-- One infinity or NaN turns the whole group into NaN. -/
theorem encodeGroup_of_not_finite (hvs : ∀ v ∈ vs, f.Word v) (h : ∃ v ∈ vs, ¬f.Finite v) :
    encodeGroup clo f vs = vs.map fun _ => mxNanElement f := by
  rw [encodeGroup, mxElementMap_nan clo (.inl ((scanOf_scanGroup hf hvs).nonfinite.2 h))]

/-- **Encoding is idempotent**: every element of an encoded group is left alone by the next
encoding, if the format has room for the largest element exponent. -/
theorem encodeGroup_idem (hemax : clo.mxEmax ≤ f.bias) (hvs : ∀ v ∈ vs, f.Word v) :
    encodeGroup clo f (encodeGroup clo f vs) = encodeGroup clo f vs := by
  have h := scanOf_scanGroup hf hvs
  generalize hacc : scanGroup f vs = acc at h
  have henc : encodeGroup clo f vs = vs.map (mxElementMap clo f acc) := by
    rw [encodeGroup, hacc]
  rcases scan_cases clo acc with hbad | ⟨hnf, hany⟩ | ⟨hnf, hany, hrange⟩
  · -- every element is the NaN, which marks the group as not finite
    obtain ⟨hnan, hnotfin⟩ := mxNanElement_word hf
    rw [henc, mxElementMap_nan clo hbad]
    cases vs with
    | nil => rfl
    | cons v vs =>
      rw [encodeGroup_of_not_finite hf clo (fun x hx => ?_) ⟨mxNanElement f, by simp, hnotfin⟩,
        List.map_map]
      · rfl
      · obtain ⟨y, -, rfl⟩ := List.mem_map.1 hx
        exact hnan
  · -- only zeros
    have hid : encodeGroup clo f vs = vs := by
      rw [henc, mxElementMap_id clo hnf hany, List.map_id]
    rw [hid, hid]
  · have hs := h.mxScale hf clo hany hrange hemax
    have hin := fun v (hv : v ∈ vs) => h.inScale clo hnf hvs hv
    rw [henc, mxElementMap_quantize clo hnf hany hrange,
      encodeGroup_of_inScale hf hs (List.forall_mem_map.2 fun v hv => (hin v hv).quantize hf hs),
      List.map_map]
    · exact List.map_congr_left fun v hv => (hin v hv).quantize_idem hf hs
    · intro hleast
      obtain ⟨v, hv, hva, hlead⟩ := h.top clo hany hleast
      obtain ⟨hqa, hqlead⟩ :=
        mxLead_mxQuantize_top hf clo ((hin v hv).no_overflow hf hs) (hvs v hv) hva hlead
      exact ⟨_, List.mem_map_of_mem hv, hqa, hqlead.trans hlead⟩

end Again

end Memlog
