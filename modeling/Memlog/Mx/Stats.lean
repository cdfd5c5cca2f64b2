import Mathlib.Algebra.BigOperators.Group.Finset.Basic
import Mathlib.Algebra.Order.BigOperators.Group.List
import Memlog.Mx.Store

/-!
# The statistics of the MX encoder

`mx_quantize` to `mx_after_store` again, now with the counters that they keep and that `ml_fini`
prints. The counters do not change what is stored (`mxReencode_eq`), and they mean what their names
say, modulo 2^64: `values_changed` counts the elements of the block whose bits differ afterwards,
`values_flushed` those that were not zero and are zero now (`mxReencode_stats`). An element that is
flushed or saturated is a changed one, so the two never add up to more than the changes
(`flushedIn_add_saturatedIn_le`).
-/

namespace Memlog.Full

open Lib Lib.Fp

/-! ## Counting encoder -/

/-- The counters of `ml_main.c`. -/
structure MxStats where
  blocksMarked : ULong := 0
  bytesMarked : ULong := 0
  stores : ULong := 0
  valuesChanged : ULong := 0
  valuesFlushed : ULong := 0
  valuesSaturated : ULong := 0
  blocksNan : ULong := 0
  scalesClamped : ULong := 0
deriving DecidableEq

/-- `mx_quantize`. -/
def mxQuantize (clo : Clo) (f : FpFmt) (shared : Int) (v : ULong) (st : MxStats) :
    ULong × MxStats :=
  let sign := v &&& (1#64 <<< (8 * f.esz - 1))
  if v &&& ~~~sign = 0#64 then (v, st)
  else
    let (sig, lsb) := mxSplit f v
    let lead := lsb + 63 - clzll sig
    let qe := mxQuantum clo lead shared
    let shift := qe - lsb
    if shift ≤ 0 then (v, st)
    else
      let r := if shift < 64 then (sig + (1#64 <<< (shift - 1).toNat)) >>> shift.toNat else 0#64
      if r = 0#64 then (sign, { st with valuesFlushed := st.valuesFlushed + 1 })
      else if qe = shared + clo.mxEmax - clo.mxMbits ∧ r > mxMaxSig clo then
        (mxAssemble f sign (mxMaxSig clo) qe,
          { st with valuesSaturated := st.valuesSaturated + 1 })
      else (mxAssemble f sign r qe, st)

/-- The loops of `mx_encode_block` that rewrite the elements of a group. -/
def mxRewrite (f : FpFmt) (base : Addr) (g : ULong → MxStats → ULong × MxStats) (n : Nat)
    (m : Mem) (st : MxStats) : Mem × MxStats :=
  (List.range n).foldl
    (fun (m, st) i =>
      let a := mxElemAddr f base i
      let v := mxLoad f m a
      let (q, st) := g v st
      if q ≠ v then (mxStore f m a q, { st with valuesChanged := st.valuesChanged + 1 })
      else (m, st))
    (m, st)

/-- `mx_encode_block`. -/
def mxEncodeBlock (clo : Clo) (f : FpFmt) (bk : Block) (bi : SizeT) (m : Mem) (st : MxStats) :
    Mem × MxStats :=
  let base := mxGroupBase f bk bi
  let n := mxGroupLen f bk bi
  let acc := mxScan f base n m
  let shared := acc.lmax - clo.mxEmax
  if acc.nonfinite || (acc.any && shared > mxScaleMax clo) then
    mxRewrite f base (fun _ st => (mxNanElement f, st)) n m
      { st with blocksNan := st.blocksNan + 1 }
  else if !acc.any then (m, st)
  else if shared < -mxScaleMax clo then
    mxRewrite f base (mxQuantize clo f (-mxScaleMax clo)) n m
      { st with scalesClamped := st.scalesClamped + 1 }
  else mxRewrite f base (mxQuantize clo f shared) n m st

/-- `mx_after_store`, once the marked block that contains the address is found. -/
def mxReencode (clo : Clo) (bk : Block) (addr : Addr) (size : HWord) (m : Mem) (st : MxStats) :
    Mem × MxStats :=
  let f := mxFormat clo
  (mxTouched f bk addr size).foldl
    (fun (m, st) bi => mxEncodeBlock clo f bk (BitVec.ofNat 64 bi) m st)
    (m, { st with stores := st.stores + 1 })

/-! ## One element -/

/-- The magnitude is rounded at the quantum of the top binade, to more than the largest
significand. -/
def Saturates (clo : Clo) (mant : Nat) (shared : Int) (n : Nat) : Prop :=
  ulp mant n < mxQuantum clo n.log2 shared ∧
    mxQuantum clo n.log2 shared = shared + clo.mxEmax - clo.mxMbits ∧
    clo.maxSig < roundTo (mxQuantum clo n.log2 shared).toNat n

instance instDecidableSaturates (clo : Clo) (mant : Nat) (shared : Int) (n : Nat) :
    Decidable (Saturates clo mant shared n) :=
  inferInstanceAs (Decidable (_ ∧ _ ∧ _))

/-- What is counted for an element: whether it is flushed to zero and whether it is saturated. -/
def MxStats.addElement (st : MxStats) (flushed saturated : Bool) : MxStats :=
  { st with
    valuesFlushed := st.valuesFlushed + BitVec.ofNat 64 flushed.toNat
    valuesSaturated := st.valuesSaturated + BitVec.ofNat 64 saturated.toNat }

section Element

variable {f : FpFmt} (hf : f.Ieee) (clo : Clo) {v : ULong}

/-- The counters do not change the element. -/
theorem mxQuantize_fst (f : FpFmt) (shared : Int) (v : ULong) (st : MxStats) :
    (mxQuantize clo f shared v st).1 = Memlog.mxQuantize clo f v shared := by
  unfold mxQuantize Memlog.mxQuantize
  dsimp only
  split
  · rfl
  split
  · rfl
  generalize (if (_ : Int) < 64 then _ else 0#64) = r
  by_cases hr : r = 0#64
  · rw [if_pos hr, if_pos hr]
  · rw [if_neg hr, if_neg hr]
    split <;> rfl

include hf

/-- **What `mx_quantize` counts**, in terms of the magnitude. -/
theorem mxQuantize_snd (shared : Int) (hv : f.Word v) (st : MxStats) :
    (mxQuantize clo f shared v st).2 =
      st.addElement (f.mag v ≠ 0 ∧ quantMag clo f.mant (shared - f.minLsb) (f.mag v) = 0)
        (f.mag v ≠ 0 ∧ Saturates clo f.mant (shared - f.minLsb) (f.mag v)) := by
  unfold mxQuantize
  dsimp only
  split
  · -- a zero
    rename_i hz
    have hz : f.mag v = 0 := mag_eq_zero.2 ((and_not_sign_eq_zero hf hv).1 hz)
    simp [MxStats.addElement, hz]
  rename_i hz
  have hc : f.code v ≠ 0 := fun h => hz ((and_not_sign_eq_zero hf hv).2 h)
  have hn : f.mag v ≠ 0 := mag_ne_zero hc
  have hulp : ulp f.mant (f.mag v) = unit f.mant (f.code v) := ulp_mag hc
  rw [mxQuantum_mxSplit hf clo hc]
  generalize hQ : mxQuantum clo (f.mag v).log2 (shared - f.minLsb) = Q
  rw [mxShift_mxSplit hf]
  split
  · -- no bits below the quantum
    rename_i hle
    have hsat : ¬Saturates clo f.mant (shared - f.minLsb) (f.mag v) := by
      rintro ⟨hlt, -⟩
      omega
    have hself : quantMag clo f.mant (shared - f.minLsb) (f.mag v) = f.mag v := by
      unfold quantMag
      rw [hQ, if_pos (by omega)]
    simp [MxStats.addElement, hself, hn, hsat]
  rename_i hpos
  obtain ⟨q, rfl⟩ : ∃ q : Nat, Q = q := ⟨Q.toNat, by omega⟩
  have hround := mxRound_mxSplit hf (v := v) (q := q) rfl (by omega)
  generalize (if (q : Int) - unit f.mant (f.code v) < 64 then _ else 0#64) = r at hround ⊢
  have hmag : quantMag clo f.mant (shared - f.minLsb) (f.mag v) = _ :=
    quantMag_of_lt hQ (by omega)
  have hsat : Saturates clo f.mant (shared - f.minLsb) (f.mag v) ↔
      (q : Int) + f.minLsb = shared + clo.mxEmax - clo.mxMbits ∧ r > mxMaxSig clo := by
    rw [gt_iff_lt, BitVec.lt_def, mxMaxSig_toNat, hround, Saturates, hQ, Int.toNat_natCast]
    omega
  have hmax := two_pow_le_maxSig clo
  have hpow := Nat.two_pow_pos clo.mxMbits
  rw [← hround] at hmag
  by_cases hr : r = 0#64
  · rw [if_pos hr]
    have hno : ¬clo.maxSig < r.toNat := by
      rw [hr]
      exact Nat.not_lt_zero _
    have hzero : quantMag clo f.mant (shared - f.minLsb) (f.mag v) = 0 := by
      rw [hmag, if_neg fun h => hno h.2, hr]
      exact Nat.zero_mul _
    have hsat : ¬Saturates clo f.mant (shared - f.minLsb) (f.mag v) := by
      rintro ⟨-, -, hlt⟩
      rw [hQ, Int.toNat_natCast, ← hround] at hlt
      exact hno hlt
    simp [MxStats.addElement, hzero, hn, hsat]
  · rw [if_neg hr]
    have hr : r.toNat ≠ 0 := fun h => hr (BitVec.eq_of_toNat_eq h)
    have hne : quantMag clo f.mant (shared - f.minLsb) (f.mag v) ≠ 0 := by
      rw [hmag]
      refine Nat.mul_ne_zero ?_ (Nat.two_pow_pos q).ne'
      split <;> omega
    by_cases htop : (q : Int) + f.minLsb = shared + clo.mxEmax - clo.mxMbits ∧ r > mxMaxSig clo
    · rw [if_pos htop]
      simp [MxStats.addElement, hne, hn, hsat.2 htop]
    · rw [if_neg htop]
      simp [MxStats.addElement, hne, hn, mt hsat.1 htop]

omit hf in
/-- A saturated magnitude becomes smaller. -/
theorem Saturates.quantMag_lt {mant n : Nat} {shared : Int} (h : Saturates clo mant shared n) :
    quantMag clo mant shared n < n := by
  obtain ⟨hulp, htop, hmax⟩ := h
  obtain ⟨q, hq⟩ : ∃ q : Nat, mxQuantum clo n.log2 shared = q :=
    ⟨_, (Int.toNat_of_nonneg (by omega)).symm⟩
  rw [hq] at hulp htop hmax
  rw [Int.toNat_natCast] at hmax
  rw [quantMag_of_lt hq (by omega), if_pos ⟨htop, hmax⟩]
  -- the significand that is cut is a half above the largest one
  have hle := le_roundTo_iff.1 (Nat.succ_le_of_lt hmax)
  have hhalf : 2 ^ q = 2 * 2 ^ (q - 1) := by
    rw [← pow_succ']
    congr 1
    omega
  have hpos := Nat.two_pow_pos (q - 1)
  rw [Nat.succ_mul] at hle
  omega

omit hf in
/-- A saturated magnitude does not become zero. -/
theorem Saturates.quantMag_ne_zero {mant n : Nat} {shared : Int}
    (h : Saturates clo mant shared n) : quantMag clo mant shared n ≠ 0 := by
  obtain ⟨hulp, htop, hmax⟩ := h
  have hpos := two_pow_le_maxSig clo
  have hpow := Nat.two_pow_pos clo.mxMbits
  unfold quantMag
  dsimp only
  rw [if_neg (not_le.2 hulp), if_pos ⟨htop, hmax⟩]
  exact Nat.mul_ne_zero (by omega) (Nat.two_pow_pos _).ne'

/-- **Whatever is counted as flushed or saturated is changed.** -/
theorem mxQuantize_ne_of_counted (shared : Int) (hv : f.Word v) (hfin : f.Finite v)
    (h : f.mag v ≠ 0 ∧ quantMag clo f.mant (shared - f.minLsb) (f.mag v) = 0 ∨
      Saturates clo f.mant (shared - f.minLsb) (f.mag v)) :
    Memlog.mxQuantize clo f v shared ≠ v := by
  have hlt : quantMag clo f.mant (shared - f.minLsb) (f.mag v) < f.mag v := by
    rcases h with ⟨hne, hzero⟩ | hsat
    · omega
    · exact hsat.quantMag_lt
  have hc : f.code v ≠ 0 := mag_ne_zero_iff.1 (by omega)
  have hmag := mag_mxQuantize hf clo shared hv hfin (hlt.trans ((finite_iff hf hc).1 hfin))
  intro heq
  rw [heq] at hmag
  omega

/-- An element is flushed if and only if it was not zero and is now. -/
theorem flushed_iff (shared : Int) (hv : f.Word v) (hfin : f.Finite v) :
    f.mag v ≠ 0 ∧ quantMag clo f.mant (shared - f.minLsb) (f.mag v) = 0 ↔
      f.code v ≠ 0 ∧ f.code (Memlog.mxQuantize clo f v shared) = 0 := by
  rw [mag_ne_zero_iff]
  refine and_congr_right fun _ => ?_
  by_cases hlt : quantMag clo f.mant (shared - f.minLsb) (f.mag v) < f.overflow
  · rw [← mag_mxQuantize hf clo shared hv hfin hlt, FpFmt.mag, mag_eq_zero]
  · have hpos := f.overflow_pos
    have hinf := mt (mxQuantize_finite_iff hf clo shared hv hfin).1 hlt
    exact ⟨fun h => absurd h (by omega), fun h => absurd h (code_ne_zero_of_not_finite hf hinf)⟩

end Element

/-! ## One group -/

/-- What is counted when the elements of a group are rewritten. -/
def MxStats.addElements (st : MxStats) (changed flushed saturated : Nat) : MxStats :=
  { st with
    valuesChanged := st.valuesChanged + BitVec.ofNat 64 changed
    valuesFlushed := st.valuesFlushed + BitVec.ofNat 64 flushed
    valuesSaturated := st.valuesSaturated + BitVec.ofNat 64 saturated }

@[simp] theorem MxStats.addElements_zero (st : MxStats) : st.addElements 0 0 0 = st := by
  simp [addElements]

/-- One more element of a group. -/
theorem MxStats.addElements_addElement (st : MxStats) (a b c : Nat) (flushed saturated : Bool) :
    (st.addElements a b c).addElement flushed saturated =
      st.addElements a (b + flushed.toNat) (c + saturated.toNat) := by
  simp [addElements, addElement, BitVec.ofNat_add, BitVec.add_assoc]

/-- The scale of a scanned group is NaN. -/
def NanScale (clo : Clo) (acc : MxScan) : Prop :=
  acc.nonfinite = true ∨ acc.any = true ∧ mxScaleMax clo < acc.lmax - clo.mxEmax

instance instDecidableNanScale (clo : Clo) (acc : MxScan) : Decidable (NanScale clo acc) :=
  inferInstanceAs (Decidable (_ ∨ _))

/-- The element is cut to the largest magnitude of its group. -/
def Saturated (clo : Clo) (f : FpFmt) (acc : MxScan) (v : ULong) : Prop :=
  ¬NanScale clo acc ∧ acc.any = true ∧
    Saturates clo f.mant (mxShared clo acc.lmax - f.minLsb) (f.mag v)

instance instDecidableSaturated (clo : Clo) (f : FpFmt) (acc : MxScan) (v : ULong) :
    Decidable (Saturated clo f acc v) :=
  inferInstanceAs (Decidable (_ ∧ _ ∧ _))

/-- What is counted for the scale of a group. -/
def MxStats.addScale (st : MxStats) (nan clamped : Bool) : MxStats :=
  { st with
    blocksNan := st.blocksNan + BitVec.ofNat 64 nan.toNat
    scalesClamped := st.scalesClamped + BitVec.ofNat 64 clamped.toNat }

/-- What `mx_encode_block` counts for a group with the elements `vs`. -/
def MxStats.addGroup (clo : Clo) (f : FpFmt) (vs : List ULong) (st : MxStats) : MxStats :=
  let acc := scanGroup f vs
  let g := mxElementMap clo f acc
  (st.addScale (NanScale clo acc)
    (¬NanScale clo acc ∧ acc.any ∧ acc.lmax - clo.mxEmax < -mxScaleMax clo)).addElements
      (vs.countP fun v => g v ≠ v)
      (vs.countP fun v => f.code v ≠ 0 ∧ f.code (g v) = 0)
      (vs.countP fun v => Saturated clo f acc v)

section Group

variable {f : FpFmt} (hf : f.Ieee) (clo : Clo) {base : Addr} {n : Nat} {m : Mem}

theorem mxElems_succ (f : FpFmt) (base : Addr) (n : Nat) (m : Mem) :
    mxElems f base (n + 1) m = mxElems f base n m ++ [mxLoad f m (mxElemAddr f base n)] := by
  rw [mxElems, List.range_succ, List.map_append]
  rfl

include hf

/-- The loop that rewrites a group reads every element as it was before the loop, so the counts are
those of the elements. -/
theorem mxRewrite_eq {g : ULong → MxStats → ULong × MxStats} (h : ULong → ULong)
    (flushed saturated : ULong → Bool) (hn : n * f.esz ≤ 2 ^ 64)
    (hg : ∀ v ∈ mxElems f base n m, ∀ st, g v st = (h v, st.addElement (flushed v) (saturated v)))
    (hword : ∀ v ∈ mxElems f base n m, f.Word (h v)) (st : MxStats) :
    mxRewrite f base g n m st = (Memlog.mxRewrite f base h n m,
      st.addElements ((mxElems f base n m).countP fun v => h v ≠ v)
        ((mxElems f base n m).countP flushed) ((mxElems f base n m).countP saturated)) := by
  induction n with
  | zero => exact Prod.ext rfl st.addElements_zero.symm
  | succ n ih =>
    have hmul : (n + 1) * f.esz = n * f.esz + f.esz := Nat.succ_mul ..
    rw [mxElems_succ] at hg hword ⊢
    have ih := ih (by omega) (fun v hv => hg v (by simp [hv])) fun v hv => hword v (by simp [hv])
    have hload : mxLoad f (Memlog.mxRewrite f base h n m) (mxElemAddr f base n) =
        mxLoad f m (mxElemAddr f base n) := by
      rw [mxLoad_mxRewrite hf (by omega) _ hn, if_neg (Nat.lt_irrefl n)]
      intro i hi
      exact hword _ (List.mem_append_left _ (List.mem_map.2 ⟨i, List.mem_range.2 hi, rfl⟩))
    have hlast := hg (mxLoad f m (mxElemAddr f base n)) (by simp)
    rw [mxRewrite, List.range_succ, List.foldl_append, ← mxRewrite, ih, mxRewrite_succ]
    have hcount : ∀ p : ULong → Bool, ∀ v, (if p v = true then 1 else 0) = (p v).toNat := by
      intro p v
      cases p v <;> rfl
    simp only [List.foldl_cons, List.foldl_nil, hload, hlast, List.countP_append,
      List.countP_singleton, hcount, MxStats.addElements_addElement]
    generalize mxLoad f m (mxElemAddr f base n) = v
    by_cases hv : h v = v
    · rw [if_neg (not_not.2 hv), if_neg (not_not.2 hv), decide_eq_false (not_not.2 hv)]
      rfl
    · rw [if_pos hv, if_pos hv, decide_eq_true hv]
      simp [MxStats.addElements, BitVec.ofNat_add, BitVec.add_assoc]

/-- The counting `mx_quantize` on the elements of a group without infinities and NaNs. -/
theorem mxQuantize_eq (shared : Int) {v : ULong} (hv : f.Word v) (hfin : f.Finite v)
    (st : MxStats) :
    mxQuantize clo f shared v st = (Memlog.mxQuantize clo f v shared,
      st.addElement (f.code v ≠ 0 ∧ f.code (Memlog.mxQuantize clo f v shared) = 0)
        (Saturates clo f.mant (shared - f.minLsb) (f.mag v))) := by
  refine Prod.ext (mxQuantize_fst clo f shared v st) ?_
  have hsat : f.mag v ≠ 0 ∧ Saturates clo f.mant (shared - f.minLsb) (f.mag v) ↔
      Saturates clo f.mant (shared - f.minLsb) (f.mag v) :=
    and_iff_right_of_imp fun h => Nat.ne_of_gt (Nat.zero_lt_of_lt h.quantMag_lt)
  rw [mxQuantize_snd hf clo shared hv st]
  simp only [flushed_iff hf clo shared hv hfin, hsat]

/-- **One group**: the counters do not change what is stored, and they count what the elements of
the group say. -/
theorem mxEncodeBlock_eq (bk : Block) (bi : SizeT) (m : Mem) (st : MxStats) :
    mxEncodeBlock clo f bk bi m st =
      (Memlog.mxEncodeBlock clo f bk bi m, st.addGroup clo f (mxGroup f bk bi m)) := by
  have hword : ∀ v ∈ mxGroup f bk bi m, f.Word v := mxGroup_word hf
  have hscan := scanOf_scanGroup hf hword
  have hn : mxGroupLen f bk bi * f.esz ≤ 2 ^ 64 := mxGroupLen_mul_le hf
  have hacc : mxScan f (mxGroupBase f bk bi) (mxGroupLen f bk bi) m =
      scanGroup f (mxGroup f bk bi m) := mxScan_eq ..
  rw [Memlog.mxEncodeBlock_eq]
  unfold mxEncodeBlock MxStats.addGroup
  dsimp only
  rw [hacc]
  generalize scanGroup f (mxGroup f bk bi m) = acc at hscan ⊢
  rcases scan_cases clo acc with hbad | ⟨hnf, hany⟩ | ⟨hnf, hany, hrange⟩
  · -- the scale is NaN
    have hnan : NanScale clo acc := hbad
    have hcode := code_ne_zero_of_not_finite hf (mxNanElement_word hf).2
    have hsat : ∀ v, ¬Saturated clo f acc v := fun v hv => hv.1 hnan
    have hcond : (acc.nonfinite || acc.any && decide (acc.lmax - clo.mxEmax > mxScaleMax clo)) =
        true := by simpa using hbad
    have hrun : ∀ st, mxRewrite f (mxGroupBase f bk bi) (fun _ st => (mxNanElement f, st))
        (mxGroupLen f bk bi) m st = _ :=
      mxRewrite_eq hf (fun _ => mxNanElement f) (fun _ => false) (fun _ => false) hn
        (fun _ _ st => by simp [MxStats.addElement]) fun _ _ => (mxNanElement_word hf).1
    rw [if_pos hcond, mxElementMap_nan clo hbad, hrun]
    simp [MxStats.addElements, MxStats.addScale, hnan, hcode, hsat, mxGroup]
  · -- all elements are zeros
    have hnan : ¬NanScale clo acc := by simp [NanScale, hnf, hany]
    have hsat : ∀ v, ¬Saturated clo f acc v := by
      rintro v ⟨-, htrue, -⟩
      cases hany.symm.trans htrue
    rw [mxElementMap_id clo hnf hany, mxRewrite_eq_self fun _ _ => rfl]
    simp [MxStats.addElements, MxStats.addScale, hnan, hsat, hnf, hany]
  · -- the elements are quantised
    have hnan : ¬NanScale clo acc := by simp [NanScale, hnf, hany, hrange]
    have hsat : ∀ v, Saturated clo f acc v ↔
        Saturates clo f.mant (mxShared clo acc.lmax - f.minLsb) (f.mag v) := by
      intro v
      simp [Saturated, hnan, hany]
    have hrun : ∀ st, mxRewrite f (mxGroupBase f bk bi) (mxQuantize clo f (mxShared clo acc.lmax))
        (mxGroupLen f bk bi) m st = _ :=
      mxRewrite_eq hf (fun v => Memlog.mxQuantize clo f v (mxShared clo acc.lmax)) _ _ hn
        (fun v hv => mxQuantize_eq hf clo _ (hword v hv) (hscan.finite hnf hv))
        fun v hv => (mxQuantize_word hf clo _ (hword v hv) (hscan.finite hnf hv)).1
    rw [mxElementMap_quantize clo hnf hany hrange]
    simp only [hnf, hany, not_lt.2 hrange, hsat, hnan, decide_false, Bool.and_false, Bool.or_false,
      Bool.not_true, Bool.false_eq_true, if_false, not_false_eq_true, true_and]
    unfold mxShared at hrun ⊢
    by_cases hclamp : acc.lmax - clo.mxEmax < -mxScaleMax clo
    · simp only [if_pos hclamp] at hrun ⊢
      rw [hrun]
      simp [MxStats.addElements, MxStats.addScale, hclamp, mxGroup]
    · simp only [if_neg hclamp] at hrun ⊢
      rw [hrun]
      simp [MxStats.addElements, MxStats.addScale, hclamp, mxGroup]

end Group

/-! ## One store -/

/-- The number of elements of a group whose bits differ in two memories. -/
def changedIn (f : FpFmt) (bk : Block) (m m' : Mem) (bi : Nat) : Nat :=
  (List.range (mxLen f bk bi)).countP fun i => mxElem f bk bi m' i ≠ mxElem f bk bi m i

/-- The number of elements of a group that are not zero in the first memory and zero in the
second. -/
def flushedIn (f : FpFmt) (bk : Block) (m m' : Mem) (bi : Nat) : Nat :=
  (List.range (mxLen f bk bi)).countP fun i =>
    f.code (mxElem f bk bi m i) ≠ 0 ∧ f.code (mxElem f bk bi m' i) = 0

/-- The number of elements of a group that are cut to its largest magnitude. -/
def saturatedIn (clo : Clo) (bk : Block) (m : Mem) (bi : Nat) : Nat :=
  let vs := mxGroup (mxFormat clo) bk (BitVec.ofNat 64 bi) m
  vs.countP fun v => Saturated clo (mxFormat clo) (scanGroup (mxFormat clo) vs) v

/-- A count of a group, over all groups of a block. -/
def overGroups (f : FpFmt) (bk : Block) (count : Nat → Nat) : Nat :=
  ((List.range (mxGroups f bk).toNat).map count).sum

section Store

variable {clo : Clo} {bk : Block} {bi : Nat} {m : Mem} {addr : Addr} {size : HWord}

/-- The loop of `mx_after_store`: every group is counted as it was before the loop. -/
theorem foldl_mxEncodeBlock {l : List Nat}
    (hl : ∀ b ∈ l, b < (mxGroups (mxFormat clo) bk).toNat) (hnodup : l.Nodup) (st : MxStats) :
    l.foldl (fun (m, st) b => mxEncodeBlock clo (mxFormat clo) bk (BitVec.ofNat 64 b) m st)
        (m, st) =
      (l.foldl (fun m b => Memlog.mxEncodeBlock clo (mxFormat clo) bk (BitVec.ofNat 64 b) m) m,
        l.foldl (fun st b =>
          st.addGroup clo (mxFormat clo)
            (mxGroup (mxFormat clo) bk (BitVec.ofNat 64 b) m)) st) := by
  induction l generalizing m st with
  | nil => rfl
  | cons b l ih =>
    obtain ⟨hb, hl⟩ := List.forall_mem_cons.1 hl
    obtain ⟨hnot, hnodup⟩ := List.nodup_cons.1 hnodup
    simp only [List.foldl_cons]
    rw [mxEncodeBlock_eq (mxFormat_ieee clo), ih hl hnodup]
    refine congrArg (Prod.mk _) (List.foldl_ext _ _ _ fun st c hc => ?_)
    have hne : c ≠ b := fun h => hnot (h ▸ hc)
    rw [mxGroup_mxEncodeBlock_of_ne (hl c hc) hb hne]

theorem mxReencode_eq (clo : Clo) (bk : Block) (addr : Addr) (size : HWord) (m : Mem)
    (st : MxStats) :
    mxReencode clo bk addr size m st = (Memlog.mxReencode clo bk addr size m,
      (mxTouched (mxFormat clo) bk addr size).foldl
        (fun st b =>
          st.addGroup clo (mxFormat clo) (mxGroup (mxFormat clo) bk (BitVec.ofNat 64 b) m))
        { st with stores := st.stores + 1 }) :=
  foldl_mxEncodeBlock (fun _ hb => lt_mxGroups_of_mem hb) List.nodup_range' _

/-- The elements of a touched group after the loop. -/
theorem mxElem_mxReencode (hbi : bi ∈ mxTouched (mxFormat clo) bk addr size) {i : Nat}
    (hi : i < mxLen (mxFormat clo) bk bi) :
    mxElem (mxFormat clo) bk bi (Memlog.mxReencode clo bk addr size m) i =
      mxElementMap clo (mxFormat clo)
        (scanGroup (mxFormat clo) (mxGroup (mxFormat clo) bk (BitVec.ofNat 64 bi) m))
        (mxElem (mxFormat clo) bk bi m i) := by
  have hafter : mxGroup (mxFormat clo) bk (BitVec.ofNat 64 bi)
      (Memlog.mxReencode clo bk addr size m) = _ := mxGroup_mxReencode (lt_mxGroups_of_mem hbi)
  rw [if_pos hbi, mxGroup_eq_map, mxGroup_eq_map, encodeGroup_map_range, map_range_eq_iff] at hafter
  exact hafter i hi

/-- The counts of a touched group compare the memory before and after the loop. -/
theorem changedIn_touched (hbi : bi ∈ mxTouched (mxFormat clo) bk addr size) :
    changedIn (mxFormat clo) bk m (Memlog.mxReencode clo bk addr size m) bi =
      (mxGroup (mxFormat clo) bk (BitVec.ofNat 64 bi) m).countP fun v =>
        mxElementMap clo (mxFormat clo) (scanGroup (mxFormat clo)
          (mxGroup (mxFormat clo) bk (BitVec.ofNat 64 bi) m)) v ≠ v := by
  rw [changedIn, mxGroup_eq_map, List.countP_map]
  refine List.countP_congr fun i hi => ?_
  simp only [Function.comp_apply, mxElem_mxReencode hbi (List.mem_range.1 hi), mxGroup_eq_map]

theorem flushedIn_touched (hbi : bi ∈ mxTouched (mxFormat clo) bk addr size) :
    flushedIn (mxFormat clo) bk m (Memlog.mxReencode clo bk addr size m) bi =
      (mxGroup (mxFormat clo) bk (BitVec.ofNat 64 bi) m).countP fun v =>
        (mxFormat clo).code v ≠ 0 ∧ (mxFormat clo).code (mxElementMap clo (mxFormat clo)
          (scanGroup (mxFormat clo) (mxGroup (mxFormat clo) bk (BitVec.ofNat 64 bi) m)) v) = 0 := by
  rw [flushedIn, mxGroup_eq_map, List.countP_map]
  refine List.countP_congr fun i hi => ?_
  simp only [Function.comp_apply, mxElem_mxReencode hbi (List.mem_range.1 hi), mxGroup_eq_map]

end Store

/-! ## Flushed and saturated elements are changed elements -/

/-- Two properties that exclude each other and imply a third one. -/
theorem countP_add_countP_le {α : Type} {p q r : α → Bool} {l : List α}
    (hp : ∀ x ∈ l, p x → r x ∧ ¬q x) (hq : ∀ x ∈ l, q x → r x) :
    l.countP p + l.countP q ≤ l.countP r := by
  induction l with
  | nil => exact Nat.le_refl _
  | cons x l ih =>
    obtain ⟨hpx, hp⟩ := List.forall_mem_cons.1 hp
    obtain ⟨hqx, hq⟩ := List.forall_mem_cons.1 hq
    have ih := ih hp hq
    rw [List.countP_cons, List.countP_cons, List.countP_cons]
    cases hpc : p x with
    | true =>
      obtain ⟨hr, hnot⟩ := hpx hpc
      rw [if_pos rfl, if_neg hnot, if_pos hr]
      omega
    | false => cases hqc : q x with
      | true =>
        rw [if_neg Bool.false_ne_true, if_pos rfl, if_pos (hqx hqc)]
        omega
      | false =>
        rw [if_neg Bool.false_ne_true]
        omega

/-- A group with a saturated element is quantised. -/
theorem Saturated.elementMap {clo : Clo} {f : FpFmt} {acc : MxScan} {v : ULong}
    (h : Saturated clo f acc v) : acc.nonfinite = false ∧
      mxElementMap clo f acc = fun v => Memlog.mxQuantize clo f v (mxShared clo acc.lmax) := by
  obtain ⟨hnan, hany, -⟩ := h
  have hnf : acc.nonfinite = false := Bool.eq_false_iff.2 fun h => hnan (.inl h)
  have hrange : acc.lmax - clo.mxEmax ≤ mxScaleMax clo := not_lt.1 fun h => hnan (.inr ⟨hany, h⟩)
  exact ⟨hnf, mxElementMap_quantize clo hnf hany hrange⟩

theorem countP_flushed_add_saturated_le {f : FpFmt} (hf : f.Ieee) (clo : Clo) {vs : List ULong}
    (hvs : ∀ v ∈ vs, f.Word v) :
    (vs.countP fun v => f.code v ≠ 0 ∧ f.code (mxElementMap clo f (scanGroup f vs) v) = 0) +
      (vs.countP fun v => Saturated clo f (scanGroup f vs) v) ≤
      vs.countP fun v => mxElementMap clo f (scanGroup f vs) v ≠ v := by
  have hscan := scanOf_scanGroup hf hvs
  generalize scanGroup f vs = acc at hscan
  refine countP_add_countP_le (fun v hv hp => ?_) fun v hv hq => ?_
  · simp only [decide_eq_true_eq] at hp ⊢
    refine ⟨fun heq => hp.1 (heq ▸ hp.2), fun hsat => ?_⟩
    obtain ⟨hnf, hmap⟩ := hsat.elementMap
    rw [hmap, ← flushed_iff hf clo _ (hvs v hv) (hscan.finite hnf hv)] at hp
    exact hsat.2.2.quantMag_ne_zero clo hp.2
  · simp only [decide_eq_true_eq] at hq ⊢
    obtain ⟨hnf, hmap⟩ := hq.elementMap
    rw [hmap]
    exact mxQuantize_ne_of_counted hf clo _ (hvs v hv) (hscan.finite hnf hv) (.inr hq.2.2)

/-- **Flushed and saturated values never outnumber the changed ones.** -/
theorem flushedIn_add_saturatedIn_le {clo : Clo} {bk : Block} {bi : Nat} {m : Mem} {addr : Addr}
    {size : HWord} (hbi : bi ∈ mxTouched (mxFormat clo) bk addr size) :
    flushedIn (mxFormat clo) bk m (Memlog.mxReencode clo bk addr size m) bi +
        saturatedIn clo bk m bi ≤
      changedIn (mxFormat clo) bk m (Memlog.mxReencode clo bk addr size m) bi := by
  rw [changedIn_touched hbi, flushedIn_touched hbi]
  exact countP_flushed_add_saturated_le (mxFormat_ieee clo) clo (mxGroup_word (mxFormat_ieee clo))

/-! ## The counters of a store -/

/-- The loop over touched groups adds up their counts. -/
theorem foldl_addGroup {clo : Clo} {bk : Block} {addr : Addr} {size : HWord} {m : Mem}
    {l : List Nat} (hl : ∀ b ∈ l, b ∈ mxTouched (mxFormat clo) bk addr size) (st : MxStats) :
    let st' := l.foldl (fun st b =>
      st.addGroup clo (mxFormat clo) (mxGroup (mxFormat clo) bk (BitVec.ofNat 64 b) m)) st
    let m' := Memlog.mxReencode clo bk addr size m
    st'.blocksMarked = st.blocksMarked ∧ st'.bytesMarked = st.bytesMarked ∧
      st'.stores = st.stores ∧
      st'.valuesChanged = st.valuesChanged +
        BitVec.ofNat 64 (l.map (changedIn (mxFormat clo) bk m m')).sum ∧
      st'.valuesFlushed = st.valuesFlushed +
        BitVec.ofNat 64 (l.map (flushedIn (mxFormat clo) bk m m')).sum ∧
      st'.valuesSaturated = st.valuesSaturated +
        BitVec.ofNat 64 (l.map (saturatedIn clo bk m)).sum := by
  induction l generalizing st with
  | nil => simp
  | cons b l ih =>
    obtain ⟨hb, hl⟩ := List.forall_mem_cons.1 hl
    obtain ⟨hblocks, hbytes, hstores, hchanged, hflushed, hsaturated⟩ := ih hl
      (st.addGroup clo (mxFormat clo) (mxGroup (mxFormat clo) bk (BitVec.ofNat 64 b) m))
    simp only [List.map_cons, List.sum_cons, BitVec.ofNat_add, ← BitVec.add_assoc]
    rw [changedIn_touched hb, flushedIn_touched hb]
    exact ⟨hblocks, hbytes, hstores, hchanged, hflushed, hsaturated⟩

theorem sum_flushedIn_add_sum_saturatedIn_le {clo : Clo} {bk : Block} {addr : Addr} {size : HWord}
    {m : Mem} {l : List Nat} (hl : ∀ b ∈ l, b ∈ mxTouched (mxFormat clo) bk addr size) :
    (l.map (flushedIn (mxFormat clo) bk m (Memlog.mxReencode clo bk addr size m))).sum +
        (l.map (saturatedIn clo bk m)).sum ≤
      (l.map (changedIn (mxFormat clo) bk m (Memlog.mxReencode clo bk addr size m))).sum := by
  rw [← List.sum_map_add]
  exact List.sum_le_sum fun b hb => flushedIn_add_saturatedIn_le (hl b hb)

/-- Sums over two lists without duplicates that differ in zeros only. -/
theorem sum_map_eq_of_subset {l l' : List Nat} {g : Nat → Nat} (hl : l.Nodup) (hl' : l'.Nodup)
    (hsub : ∀ x ∈ l, x ∈ l') (hg : ∀ x ∈ l', x ∉ l → g x = 0) : (l.map g).sum = (l'.map g).sum := by
  rw [← List.sum_toFinset g hl, ← List.sum_toFinset g hl']
  refine Finset.sum_subset ?_ ?_
  · intro x hx
    exact List.mem_toFinset.2 (hsub x (List.mem_toFinset.1 hx))
  · intro x hx hnot
    exact hg x (List.mem_toFinset.1 hx) fun hin => hnot (List.mem_toFinset.2 hin)

/-- The groups that are not touched keep their elements, and add nothing. -/
theorem sum_touched {clo : Clo} {bk : Block} {addr : Addr} {size : HWord} {count : Nat → Nat}
    (hcount : ∀ bi < (mxGroups (mxFormat clo) bk).toNat,
      bi ∉ mxTouched (mxFormat clo) bk addr size → count bi = 0) :
    ((mxTouched (mxFormat clo) bk addr size).map count).sum =
      overGroups (mxFormat clo) bk count := by
  refine sum_map_eq_of_subset List.nodup_range' List.nodup_range ?_ ?_
  · intro b hb
    exact List.mem_range.2 (lt_mxGroups_of_mem hb)
  · intro b hb hnot
    exact hcount b (List.mem_range.1 hb) hnot

theorem mxElem_mxReencode_of_not_mem {clo : Clo} {bk : Block} {bi : Nat} {m : Mem} {addr : Addr}
    {size : HWord} (hbi : bi < (mxGroups (mxFormat clo) bk).toNat)
    (hnot : bi ∉ mxTouched (mxFormat clo) bk addr size) {i : Nat}
    (hi : i < mxLen (mxFormat clo) bk bi) :
    mxElem (mxFormat clo) bk bi (Memlog.mxReencode clo bk addr size m) i =
      mxElem (mxFormat clo) bk bi m i := by
  have hgroup : mxGroup (mxFormat clo) bk (BitVec.ofNat 64 bi)
      (Memlog.mxReencode clo bk addr size m) = _ := mxGroup_mxReencode hbi
  rw [if_neg hnot, mxGroup_eq_iff] at hgroup
  exact hgroup i hi

/-- **What a store counts.** `mx_after_store` leaves the memory that it leaves without counters. It
counts one store, as changed the elements of the block that differ afterwards, as flushed those that
were not zero and are zero; what it counts as saturated are further changed elements. -/
theorem mxReencode_stats (clo : Clo) (bk : Block) (addr : Addr) (size : HWord) (m : Mem)
    (st : MxStats) :
    ∃ m' st' saturated, mxReencode clo bk addr size m st = (m', st') ∧
      m' = Memlog.mxReencode clo bk addr size m ∧
      st'.blocksMarked = st.blocksMarked ∧ st'.bytesMarked = st.bytesMarked ∧
      st'.stores = st.stores + 1 ∧
      st'.valuesChanged = st.valuesChanged +
        BitVec.ofNat 64 (overGroups (mxFormat clo) bk (changedIn (mxFormat clo) bk m m')) ∧
      st'.valuesFlushed = st.valuesFlushed +
        BitVec.ofNat 64 (overGroups (mxFormat clo) bk (flushedIn (mxFormat clo) bk m m')) ∧
      st'.valuesSaturated = st.valuesSaturated + BitVec.ofNat 64 saturated ∧
      overGroups (mxFormat clo) bk (flushedIn (mxFormat clo) bk m m') + saturated ≤
        overGroups (mxFormat clo) bk (changedIn (mxFormat clo) bk m m') := by
  obtain ⟨hblocks, hbytes, hstores, hchanged, hflushed, hsaturated⟩ := foldl_addGroup (m := m)
    (fun _ hb => hb : ∀ b ∈ mxTouched (mxFormat clo) bk addr size, _)
    { st with stores := st.stores + 1 }
  have hle := sum_flushedIn_add_sum_saturatedIn_le (m := m)
    (fun _ hb => hb : ∀ b ∈ mxTouched (mxFormat clo) bk addr size, _)
  have hchangedAll : ((mxTouched (mxFormat clo) bk addr size).map
      (changedIn (mxFormat clo) bk m (Memlog.mxReencode clo bk addr size m))).sum =
      overGroups (mxFormat clo) bk
        (changedIn (mxFormat clo) bk m (Memlog.mxReencode clo bk addr size m)) := by
    refine sum_touched fun bi hbi hnot => List.countP_eq_zero.2 fun i hi => ?_
    rw [mxElem_mxReencode_of_not_mem hbi hnot (List.mem_range.1 hi)]
    simp
  have hflushedAll : ((mxTouched (mxFormat clo) bk addr size).map
      (flushedIn (mxFormat clo) bk m (Memlog.mxReencode clo bk addr size m))).sum =
      overGroups (mxFormat clo) bk
        (flushedIn (mxFormat clo) bk m (Memlog.mxReencode clo bk addr size m)) := by
    refine sum_touched fun bi hbi hnot => List.countP_eq_zero.2 fun i hi => ?_
    rw [mxElem_mxReencode_of_not_mem hbi hnot (List.mem_range.1 hi)]
    simp
  rw [hchangedAll] at hchanged hle
  rw [hflushedAll] at hflushed hle
  exact ⟨_, _, _, mxReencode_eq clo bk addr size m st, rfl, hblocks, hbytes, hstores, hchanged,
    hflushed, hsaturated, hle⟩

end Memlog.Full
