import Memlog.Mx.Block
import Memlog.Mx.Element
import Memlog.Query.Blocks

/-!
# Viable groups and the encoder

`14_mx_feasibility` counts a group as viable when its exponents are within 8 of each other. The
encoder keeps such a group apart from the range of the scale, which the query does not look at: with
the default settings no element of a viable group is lost if and only if every nonzero element has a
leading exponent from `-137` to `135` (`kept_iff`). All floats are in this range, and most doubles
are not (`mxEncodeBlock_viable`).
-/

namespace Memlog.Query

open Lib ToParquet

/-- `valid_n < 2 OR spread <= 8`, which `viable_blocks` counts. -/
def viable (block : List Snap) : Bool :=
  validN block < 2 || (spread block).any fun s => s ≤ 8

/-- The elements that the queries read as values of a type. -/
def formatOf : AllocType → Option FpFmt
  | .bits64 => some fmt64
  | .bits32 => some fmt32
  | .object => none

/-- The rows of a group of elements. -/
structure RowsOf (t : AllocType) (vs : List ULong) (block : List Snap) : Prop where
  allocType : ∀ r ∈ block, r.allocType = t
  values : block.map Snap.value = vs

/-- A zero, or neither subnormal nor infinite nor NaN. -/
def ZeroOrNormal (f : FpFmt) (v : ULong) : Prop :=
  f.code v = 0 ∨ mxExponent f v ≠ 0#64 ∧ mxExponent f v ≠ BitVec.ofNat 64 f.emask

def IsNan (f : FpFmt) (v : ULong) : Prop := f.emask * 2 ^ f.mant < f.code v

/-- No element of the group is turned into NaN, and no nonzero element into zero. -/
def Kept (f : FpFmt) (vs ws : List ULong) : Prop :=
  List.Forall₂ (fun v w => ¬IsNan f w ∧ (f.code v ≠ 0 → f.code w ≠ 0)) vs ws

/-- The default settings of the element format and the scale. -/
structure DefaultMx (clo : Clo) : Prop where
  mbits : clo.mxMbits = 3
  emax : clo.mxEmax = 8
  emin : clo.mxEmin = -6
  scaleBits : clo.mxScaleBits = 8

/-! ## Exponents -/

section Exponents

variable {t : AllocType} {f : FpFmt} {v w : ULong} {vs : List ULong} {block : List Snap}

theorem ieee_of_formatOf (ht : formatOf t = some f) : f.Ieee := by
  cases t with
  | bits64 =>
    cases ht
    exact FpFmt.fmt64_ieee
  | bits32 =>
    cases ht
    exact FpFmt.fmt32_ieee
  | object => cases ht

/-- The exponent that the query sees of a nonzero element. -/
theorem expBits_of_normal (ht : formatOf t = some f) (hzero : mxExponent f v ≠ 0#64)
    (hfin : mxExponent f v ≠ BitVec.ofNat 64 f.emask) :
    expBits t v = some (mxExponent f v).toNat := by
  have hv : v ≠ 0 := by
    rintro rfl
    apply hzero
    simp [mxExponent]
  cases t with
  | bits64 =>
    cases ht
    have h64 : ¬(AllocType.bits64 = .bits64 ∧
      ((v >>> 52 &&& 2047) = 0 ∨ (v >>> 52 &&& 2047) = 2047)) :=
      fun h => h.2.elim hzero hfin
    have h32 : ¬(AllocType.bits64 = .bits32 ∧
      ((v >>> 23 &&& 255) = 0 ∨ (v >>> 23 &&& 255) = 255)) :=
      fun h => nomatch h.1
    rw [expBits, if_neg hv, if_neg h64, if_neg h32]
    rfl
  | bits32 =>
    cases ht
    have h32 : ¬(AllocType.bits32 = .bits32 ∧
      ((v >>> 23 &&& 255) = 0 ∨ (v >>> 23 &&& 255) = 255)) :=
      fun h => h.2.elim hzero hfin
    have h64 : ¬(AllocType.bits32 = .bits64 ∧
      ((v >>> 52 &&& 2047) = 0 ∨ (v >>> 52 &&& 2047) = 2047)) :=
      fun h => nomatch h.1
    rw [expBits, if_neg hv, if_neg h64, if_neg h32]
    rfl
  | object => cases ht

theorem ZeroOrNormal.finite (hf : f.Ieee) (h : ZeroOrNormal f v) : f.Finite v := by
  rcases h with hc | ⟨-, hfin⟩
  · by_contra hno
    exact code_ne_zero_of_not_finite hf hno hc
  · by_contra hno
    exact hfin ((mxExponent_eq_emask hf).2 hno)

/-- **The exponents of a viable group** are within 8 of each other. -/
theorem expBits_le_of_viable (h : viable block = true) {r r' : Snap} (hr : r ∈ block)
    (hr' : r' ∈ block) {e e' : Nat} (he : expBits r.allocType r.value = some e)
    (he' : expBits r'.allocType r'.value = some e') : e ≤ e' + 8 := by
  rw [viable, Bool.or_eq_true, decide_eq_true_eq] at h
  rcases h with hcount | hspread
  · have heq : e = e' := eq_of_countOf_lt_two hr hcount he hr' he'
    omega
  · obtain ⟨s, hs, hle⟩ := (Option.any_eq_true _ _).1 hspread
    obtain ⟨m, hm, hs⟩ := Option.bind_eq_some_iff.1 hs
    obtain ⟨l, hl, hs⟩ := Option.bind_eq_some_iff.1 hs
    cases hs
    have hmax := le_maxOf hr hm he
    have hmin := minOf_le hr' hl he'
    have hdiff := of_decide_eq_true hle
    omega

/-- **The leading exponents of a viable group** are within 8 of each other. -/
theorem mxLead_le_of_viable (ht : formatOf t = some f) (hrows : RowsOf t vs block)
    (hvs : ∀ v ∈ vs, ZeroOrNormal f v) (h : viable block = true) (hv : v ∈ vs) (hw : w ∈ vs)
    (hvc : f.code v ≠ 0) (hwc : f.code w ≠ 0) : mxLead f v ≤ mxLead f w + 8 := by
  have hf := ieee_of_formatOf ht
  obtain ⟨hvz, hvf⟩ := (hvs v hv).resolve_left hvc
  obtain ⟨hwz, hwf⟩ := (hvs w hw).resolve_left hwc
  rw [← hrows.values] at hv hw
  obtain ⟨r, hr, rfl⟩ := List.mem_map.1 hv
  obtain ⟨r', hr', rfl⟩ := List.mem_map.1 hw
  have he := expBits_of_normal ht hvz hvf
  have he' := expBits_of_normal ht hwz hwf
  rw [← hrows.allocType r hr] at he
  rw [← hrows.allocType r' hr'] at he'
  have hle := expBits_le_of_viable h hr hr' he he'
  rw [mxLead_of_normal hf hvz, mxLead_of_normal hf hwz]
  omega

end Exponents

/-! ## Encoding with the default settings -/

section Encode

variable {clo : Clo} (hclo : DefaultMx clo) {f : FpFmt} (hf : f.Ieee) {v : ULong} {vs : List ULong}

theorem not_isNan_of_finite (h : f.Finite v) : ¬IsNan f v := by
  unfold FpFmt.Finite at h
  unfold IsNan
  omega

theorem kept_map {g : ULong → ULong} :
    Kept f vs (vs.map g) ↔ ∀ v ∈ vs, ¬IsNan f (g v) ∧ (f.code v ≠ 0 → f.code (g v) ≠ 0) := by
  unfold Kept
  rw [List.forall₂_map_right_iff, List.forall₂_same]

include hclo

theorem DefaultMx.scaleMax : mxScaleMax clo = 127 := by
  unfold mxScaleMax
  rw [hclo.scaleBits]
  rfl

include hf

/-- What the default settings flush to zero, at a given shared exponent. -/
theorem mxQuantize_kept_iff {shared : Int} (hs : MxScale clo f shared) (hv : InScale clo f shared v)
    (hc : f.code v ≠ 0) : f.code (mxQuantize clo f v shared) ≠ 0 ↔ shared - 10 ≤ mxLead f v := by
  have hlt := hv.no_overflow hf hs
  rw [← mag_ne_zero_iff, mag_mxQuantize hf clo shared hv.word hv.finite hlt, ne_eq,
    quantMag_eq_zero_iff (mag_ne_zero_iff.2 hc), mxLead_eq hf hc, hclo.emin, hclo.mbits]
  omega

/-- **What the encoder keeps of a group** whose leading exponents are within 8 of each other. -/
theorem kept_iff (hbias : 8 ≤ f.bias) (hvs : ∀ v ∈ vs, f.Word v ∧ f.Finite v)
    (hspread : ∀ v ∈ vs, ∀ w ∈ vs, f.code v ≠ 0 → f.code w ≠ 0 → mxLead f v ≤ mxLead f w + 8) :
    Kept f vs (encodeGroup clo f vs) ↔
      ∀ v ∈ vs, f.code v ≠ 0 → -137 ≤ mxLead f v ∧ mxLead f v ≤ 135 := by
  have hscan := scanOf_scanGroup hf fun v hv => (hvs v hv).1
  have hmax := hclo.scaleMax
  have hemax := hclo.emax
  rw [encodeGroup, kept_map]
  generalize scanGroup f vs = acc at hscan
  have hnf : acc.nonfinite = false := by
    rw [Bool.eq_false_iff, ne_eq, hscan.nonfinite]
    rintro ⟨v, hv, hinf⟩
    exact hinf (hvs v hv).2
  rcases scan_cases clo acc with (hbad | ⟨hany, hlarge⟩) | ⟨-, hany⟩ | ⟨-, hany, hrange⟩
  · rw [hnf] at hbad
    cases hbad
  · -- the scale is NaN
    obtain ⟨v, hv, hva, hlead⟩ := hscan.attained hany
    rw [mxElementMap_nan clo (.inr ⟨hany, hlarge⟩)]
    refine iff_of_false (fun h => (h v hv).1 ?_) fun h => ?_
    · unfold IsNan
      rw [(mxNanElement_code hf).2]
      exact Nat.lt_add_of_pos_right (Nat.two_pow_pos _)
    · have := (h v hv hva.2).2
      omega
  · -- only zeros
    rw [mxElementMap_id clo hnf hany]
    have hzero : ∀ v ∈ vs, f.code v = 0 := by
      intro v hv
      by_contra hc
      rw [hscan.any.2 ⟨v, hv, (hvs v hv).2, hc⟩] at hany
      cases hany
    exact iff_of_true (fun v hv => ⟨not_isNan_of_finite (hvs v hv).2, id⟩)
      fun v hv hc => absurd (hzero v hv) hc
  · have hs := hscan.mxScale hf clo hany hrange (by omega)
    have hin := fun v (hv : v ∈ vs) => hscan.inScale clo hnf (fun v hv => (hvs v hv).1) hv
    obtain ⟨w, hw, hwa, hwlead⟩ := hscan.attained hany
    rw [mxElementMap_quantize clo hnf hany hrange]
    refine forall₂_congr fun v hv => ?_
    have hfin : f.Finite (mxQuantize clo f v (mxShared clo acc.lmax)) :=
      ((hin v hv).quantize hf hs).finite
    rw [and_iff_right (not_isNan_of_finite hfin)]
    refine forall_congr' fun hc => ?_
    have hle := hscan.le v hv ⟨(hvs v hv).2, hc⟩
    have hnear := hspread w hw v hv hwa.2 hc
    rw [mxQuantize_kept_iff hclo hf hs (hin v hv) hc]
    rcases mxShared_cases clo acc.lmax with ⟨hge, heq⟩ | ⟨hlt, heq⟩
    · exact iff_of_true (by omega) ⟨by omega, by omega⟩
    · constructor
      · intro h
        exact ⟨by omega, by omega⟩
      · rintro ⟨h, -⟩
        omega

end Encode

/-! ## Main result -/

section Main

variable {clo : Clo} {t : AllocType} {f : FpFmt} {bk : Block} {bi : SizeT} {m : Mem}
  {block : List Snap}

/-- What the encoder keeps of a viable group in memory. -/
theorem kept_mxEncodeBlock_iff (hclo : DefaultMx clo) (ht : formatOf t = some f)
    (hbias : 8 ≤ f.bias) (hrows : RowsOf t (mxGroup f bk bi m) block)
    (hvs : ∀ v ∈ mxGroup f bk bi m, ZeroOrNormal f v) (hviable : viable block = true) :
    Kept f (mxGroup f bk bi m) (mxGroup f bk bi (mxEncodeBlock clo f bk bi m)) ↔
      ∀ v ∈ mxGroup f bk bi m, f.code v ≠ 0 → -137 ≤ mxLead f v ∧ mxLead f v ≤ 135 := by
  have hf := ieee_of_formatOf ht
  rw [mxEncodeBlock_elems clo hf]
  apply kept_iff hclo hf hbias
  · intro v hv
    exact ⟨mxGroup_word hf v hv, (hvs v hv).finite hf⟩
  · intro v hv w hw hvc hwc
    exact mxLead_le_of_viable ht hrows hvs hviable hv hw hvc hwc

/-- The leading exponents of normal floats. -/
theorem mxLead_fmt32 {v : ULong} (h : ZeroOrNormal fmt32 v) (hc : fmt32.code v ≠ 0) :
    -126 ≤ mxLead fmt32 v ∧ mxLead fmt32 v ≤ 127 := by
  have hf := FpFmt.fmt32_ieee
  have hle := mxLead_le_bias hf ⟨h.finite hf, hc⟩
  obtain ⟨hz, -⟩ := h.resolve_left hc
  have hfield : (mxExponent fmt32 v).toNat ≠ 0 := fun h => hz (BitVec.eq_of_toNat_eq h)
  have hlead := mxLead_of_normal hf hz
  have hbias : fmt32.bias = 127 := rfl
  rw [hbias] at hle hlead
  omega

end Main

/-- **The viability test and the encoder.** For every group in memory of elements that are zero or
normal and that `14_mx_feasibility` counts as viable, `mx_encode_block` with the default settings
keeps every element of a group of floats; of a group of doubles it keeps every element if and only
if each nonzero one has a magnitude of at least `2^-137` and less than `2^136`. -/
theorem mxEncodeBlock_viable {clo : Clo} (hclo : DefaultMx clo) (bk : Block) (bi : SizeT) (m : Mem)
    (block : List Snap) (hviable : viable block = true) :
    (RowsOf .bits32 (mxGroup fmt32 bk bi m) block →
        (∀ v ∈ mxGroup fmt32 bk bi m, ZeroOrNormal fmt32 v) →
        Kept fmt32 (mxGroup fmt32 bk bi m)
          (mxGroup fmt32 bk bi (mxEncodeBlock clo fmt32 bk bi m))) ∧
      (RowsOf .bits64 (mxGroup fmt64 bk bi m) block →
        (∀ v ∈ mxGroup fmt64 bk bi m, ZeroOrNormal fmt64 v) →
        (Kept fmt64 (mxGroup fmt64 bk bi m)
          (mxGroup fmt64 bk bi (mxEncodeBlock clo fmt64 bk bi m)) ↔
          ∀ v ∈ mxGroup fmt64 bk bi m, fmt64.code v ≠ 0 →
            2 ^ (-137 : Int) ≤ fmt64.absValue v ∧ fmt64.absValue v < 2 ^ (136 : Int))) := by
  constructor
  · intro hrows hvs
    rw [kept_mxEncodeBlock_iff (t := .bits32) hclo rfl (by decide) hrows hvs hviable]
    intro v hv hc
    obtain ⟨hlo, hhi⟩ := mxLead_fmt32 (hvs v hv) hc
    exact ⟨by omega, by omega⟩
  · intro hrows hvs
    rw [kept_mxEncodeBlock_iff (t := .bits64) hclo rfl (by decide) hrows hvs hviable]
    refine forall₂_congr fun v hv => forall_congr' fun hc => ?_
    rw [two_zpow_le_absValue_iff FpFmt.fmt64_ieee hc, absValue_lt_two_zpow_iff FpFmt.fmt64_ieee hc]
    omega

/-- The row of a group of one element. -/
def oneRow (t : AllocType) (v : ULong) : List Snap := [⟨t, 0#64, 1#32, 0#64, v⟩]

/-- The rows of a group of two elements. -/
def twoRows (t : AllocType) (step : BitVec 64) (v w : ULong) : List Snap :=
  [⟨t, 0#64, 1#32, 0#64, v⟩, ⟨t, 0#64, 1#32, step, w⟩]

theorem rowsOf_twoRows (t : AllocType) (step : BitVec 64) (v w : ULong) :
    RowsOf t [v, w] (twoRows t step v w) where
  allocType := List.forall_mem_cons.2 ⟨rfl, List.forall_mem_singleton.2 rfl⟩
  values := rfl

/-- Two floats and two doubles, as far apart as a viable group may be, are kept. -/
theorem mxEncodeBlock_viable_two :
    (viable (twoRows .bits32 4#64 0x3F99999A#64 0xBB99999A#64) = true ∧
      let (bk, m) := twoElements fmt32 0x3F99999A#64 0xBB99999A#64
      Kept fmt32 [0x3F99999A#64, 0xBB99999A#64]
        (mxGroup fmt32 bk 0#64 (mxEncodeBlock {} fmt32 bk 0#64 m))) ∧
      viable (twoRows .bits64 8#64 0x3FF0000000000000#64 0xBF7999999999999A#64) = true ∧
      let (bk, m) := twoElements fmt64 0x3FF0000000000000#64 0xBF7999999999999A#64
      Kept fmt64 [0x3FF0000000000000#64, 0xBF7999999999999A#64]
        (mxGroup fmt64 bk 0#64 (mxEncodeBlock {} fmt64 bk 0#64 m)) := by
  have hclo : DefaultMx {} := ⟨rfl, rfl, rfl, rfl⟩
  constructor
  · have hviable : viable (twoRows .bits32 4#64 0x3F99999A#64 0xBB99999A#64) = true := by decide
    have hgroup : mxGroup fmt32 (twoElements fmt32 0x3F99999A#64 0xBB99999A#64).1 0#64
        (twoElements fmt32 0x3F99999A#64 0xBB99999A#64).2 =
          [0x3F99999A#64, 0xBB99999A#64] := by decide
    have h := (mxEncodeBlock_viable hclo (twoElements fmt32 0x3F99999A#64 0xBB99999A#64).1 0#64
      (twoElements fmt32 0x3F99999A#64 0xBB99999A#64).2 _ hviable).1
    rw [hgroup] at h
    refine ⟨hviable, h (rowsOf_twoRows _ _ _ _) (List.forall_mem_cons.2 ⟨?_, ?_⟩)⟩
    · exact .inr (by decide)
    · exact List.forall_mem_singleton.2 (.inr (by decide))
  · have hviable : viable (twoRows .bits64 8#64 0x3FF0000000000000#64 0xBF7999999999999A#64) =
        true := by
      decide
    have hgroup : mxGroup fmt64 (twoElements fmt64 0x3FF0000000000000#64 0xBF7999999999999A#64).1
        0#64 (twoElements fmt64 0x3FF0000000000000#64 0xBF7999999999999A#64).2 =
          [0x3FF0000000000000#64, 0xBF7999999999999A#64] := by decide
    have h := (mxEncodeBlock_viable hclo
      (twoElements fmt64 0x3FF0000000000000#64 0xBF7999999999999A#64).1 0#64
      (twoElements fmt64 0x3FF0000000000000#64 0xBF7999999999999A#64).2 _ hviable).2
    rw [hgroup] at h
    have hone : fmt64.code 0x3FF0000000000000#64 ≠ 0 := by decide
    have hsmall : fmt64.code 0xBF7999999999999A#64 ≠ 0 := by decide
    refine ⟨hviable, (h (rowsOf_twoRows _ _ _ _) (List.forall_mem_cons.2 ⟨?_, ?_⟩)).2
      (List.forall_mem_cons.2 ⟨fun _ => ?_, List.forall_mem_singleton.2 fun _ => ?_⟩)⟩
    · exact .inr (by decide)
    · exact List.forall_mem_singleton.2 (.inr (by decide))
    · rw [two_zpow_le_absValue_iff FpFmt.fmt64_ieee hone,
        absValue_lt_two_zpow_iff FpFmt.fmt64_ieee hone]
      decide
    · rw [two_zpow_le_absValue_iff FpFmt.fmt64_ieee hsmall,
        absValue_lt_two_zpow_iff FpFmt.fmt64_ieee hsmall]
      decide

/-- The doubles `2^200` and `2^-200`, each a viable group of its own: the first becomes NaN, the
second zero. -/
theorem mxEncodeBlock_viable_lost :
    (viable (oneRow .bits64 0x4C70000000000000#64) = true ∧
      ZeroOrNormal fmt64 0x4C70000000000000#64 ∧
      mxGroup fmt64 (oneElement fmt64 0x4C70000000000000#64).1 0#64
        (oneElement fmt64 0x4C70000000000000#64).2 = [0x4C70000000000000#64] ∧
      mxGroup fmt64 (oneElement fmt64 0x4C70000000000000#64).1 0#64
        (mxEncodeBlock {} fmt64 (oneElement fmt64 0x4C70000000000000#64).1 0#64
          (oneElement fmt64 0x4C70000000000000#64).2) = [mxNanElement fmt64] ∧
      ¬Kept fmt64 [0x4C70000000000000#64] [mxNanElement fmt64]) ∧
      viable (oneRow .bits64 0x3370000000000000#64) = true ∧
      ZeroOrNormal fmt64 0x3370000000000000#64 ∧
      mxGroup fmt64 (oneElement fmt64 0x3370000000000000#64).1 0#64
        (oneElement fmt64 0x3370000000000000#64).2 = [0x3370000000000000#64] ∧
      mxGroup fmt64 (oneElement fmt64 0x3370000000000000#64).1 0#64
        (mxEncodeBlock {} fmt64 (oneElement fmt64 0x3370000000000000#64).1 0#64
          (oneElement fmt64 0x3370000000000000#64).2) = [0#64] ∧
      ¬Kept fmt64 [0x3370000000000000#64] [0#64] := by
  refine ⟨⟨by decide, .inr (by decide), by decide, by decide, fun h => ?_⟩, by decide,
    .inr (by decide), by decide, by decide, fun h => ?_⟩
  · cases h with
    | cons h _ =>
      apply h.1
      unfold IsNan
      decide
  · cases h with
    | cons h _ => exact h.2 (by decide) (by decide)

end Memlog.Query
