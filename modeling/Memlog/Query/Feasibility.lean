import Memlog.Lib.FloatFormat
import Memlog.Query.Concentration
import Memlog.Query.SiteProfile
import Memlog.Query.Viable

/-!
# Reduced-precision formats

`12_format_feasibility` and `36_per_buffer_feasibility` count the stores whose mantissas end in
enough zeros for a target format. Among the normal values in the range of a target these are the
values that the format represents (`passes_iff_represents`), so a column is the share of the stores
that the format represents, if all of them are in its range (`pct_eq_share`). Every row of the two
queries reports its stores in that way (`formatFeasibility_reports`,
`perBufferFeasibility_reports`).
-/

namespace Memlog.Query.Feasibility

open Lib ToParquet SiteProfile

/-! ## The queries -/

/-- The column `tz`. The casts to `BIGINT` keep the bits of a mantissa. -/
def tz (allocType : AllocType) (m : Option (BitVec 64)) : Option Nat :=
  if m = some 0 ∧ allocType = .bits64 then some 52
  else if m = some 0 ∧ allocType = .bits32 then some 23
  else m.map fun m => bitCount (m ^^^ (m - 1#64)) - 1

/-- The target formats. -/
inductive Target where
  | fp8E4m3
  | fp8E5m2
  | bf16
  | fp16
  | fp32
deriving DecidableEq

/-- The number of trailing zeros that a column asks for. -/
def threshold (target : Target) (allocType : AllocType) : Nat :=
  match target with
  | .fp8E4m3 => if allocType = .bits64 then 49 else 20
  | .fp8E5m2 => if allocType = .bits64 then 50 else 21
  | .bf16 => if allocType = .bits64 then 45 else 16
  | .fp16 => if allocType = .bits64 then 42 else 13
  | .fp32 => 29

/-- A column `pct_*`: `SUM(tz >= threshold)::DOUBLE / COUNT(*)`, and for FP32 `1.0` unless the type
is `64bits`. -/
def pct (target : Target) (allocType : AllocType) (group : List StoreRow) : Option ℚ :=
  if target = .fp32 ∧ allocType ≠ .bits64 then some 1
  else ratio (sumOf (fun r => (tz r.allocType (m r)).map fun tz =>
    if threshold target allocType ≤ tz then 1 else 0) group) group.length

/-- A row of `12_format_feasibility`. -/
structure FeasibilityRow where
  bench : Line
  allocType : AllocType
  total : Nat
  pct : Target → Option ℚ

def formatFeasibility (allStores : List Concentration.BenchStore) : List FeasibilityRow :=
  aggregate (fun r => (r.1, r.2.allocType)) (fun r group =>
    ⟨r.1, r.2.allocType, group.length, fun target => pct target r.2.allocType (group.map Prod.snd)⟩)
    (allStores.filter fun r => Typed r.2.allocType)

/-- A row of `36_per_buffer_feasibility`. -/
structure BufferFeasibilityRow where
  addr : Line
  generation : BitVec 32
  allocType : AllocType
  allocSize : BitVec 64
  total : Nat
  pct : Target → Option ℚ

def perBufferFeasibility (bench : List StoreRow) : List BufferFeasibilityRow :=
  aggregate (fun r => (r.allocAddr, r.generation, r.allocType, r.allocSize)) (fun r group =>
    { addr := "0x".toList ++ printHex r.allocAddr
      generation := r.generation
      allocType := r.allocType
      allocSize := r.allocSize
      total := group.length
      pct := fun target => pct target r.allocType group }) (bench.filter fun r => Typed r.allocType)

/-- A store counts for a target. -/
def Passes (target : Target) (r : StoreRow) : Prop :=
  target = .fp32 ∧ r.allocType ≠ .bits64 ∨
    ∃ zeros, tz r.allocType (m r) = some zeros ∧ threshold target r.allocType ≤ zeros

/-! ## What the columns are meant to count -/

/-- The formats: the widths of the fields, and whether only the code with all bits set is not a
number. -/
def Target.format : Target → Fp.Format
  | fp8E4m3 => ⟨4, 3, true⟩
  | fp8E5m2 => ⟨5, 2, false⟩
  | bf16 => ⟨8, 7, false⟩
  | fp16 => ⟨5, 10, false⟩
  | fp32 => ⟨8, 23, false⟩

/-- The exponent field is one of a normal number. -/
def Normal (f : FpFmt) (v : ULong) : Prop :=
  mxExponent f v ≠ 0#64 ∧ mxExponent f v ≠ BitVec.ofNat 64 f.emask

/-- The unbiased exponent of a normal number. -/
def exponent (f : FpFmt) (v : ULong) : Int := (mxExponent f v).toNat - f.bias

/-- The mantissa field. -/
def mantissa (f : FpFmt) (v : ULong) : Nat := v.toNat % 2 ^ f.mant

/-- The number that a stored value is. -/
def valueOf (f : FpFmt) (v : ULong) : ℚ :=
  if v.getLsbD (8 * f.esz - 1) then -f.absValue v else f.absValue v

/-- The exponent is one of the format's normal numbers, and the value is not where the format has
its code that is not a number. -/
structure InRange (F : Fp.Format) (f : FpFmt) (v : ULong) : Prop where
  emin : F.emin ≤ exponent f v
  emax : exponent f v ≤ F.emax
  top : F.topOnly → |valueOf f v| ≠ F.top

/-! ## Values -/

section Values

variable {t : AllocType} {f : FpFmt} {v : ULong}

/-- The zeros that the expression counts are those at the end of the mantissa. -/
theorem tz_eq {r : StoreRow} (hf : formatOf r.allocType = some f) :
    tz r.allocType (m r) = some (trailingZeros f.mant (mantissa f r.value)) := by
  have hzeros := trailingZ_eq r
  rw [mantissa, trailingZeros_mod]
  cases ht : r.allocType with
  | bits64 =>
    rw [ht] at hf
    cases hf
    simpa [trailingZ, mantissaZeros, tz, Typed, ht, fmt64] using hzeros
  | bits32 =>
    rw [ht] at hf
    cases hf
    simpa [trailingZ, mantissaZeros, tz, Typed, ht, fmt32] using hzeros
  | object =>
    rw [ht] at hf
    cases hf

theorem absValue_eq (hf : f.Ieee) (hv : Normal f v) :
    f.absValue v = (2 ^ f.mant + mantissa f v : ℕ) * 2 ^ (exponent f v - f.mant) := by
  have hfield := mxExponent_toNat hf v
  have hpos : (mxExponent f v).toNat ≠ 0 := fun h => hv.1 (BitVec.eq_of_toNat_eq h)
  have hmod : f.code v % 2 ^ f.mant = mantissa f v := by
    refine Nat.mod_mod_of_dvd _ (pow_dvd_pow 2 ?_)
    have := hf.width
    omega
  rcases Fp.sig_cases f.mant (f.code v) with ⟨hlt, -, -⟩ | ⟨-, hunit, hsig⟩
  · rw [Nat.div_eq_of_lt hlt] at hfield
    exact absurd hfield hpos
  · rw [← hfield] at hunit
    have hexp : exponent f v - f.mant = Fp.unit f.mant (f.code v) + f.minLsb := by
      unfold exponent FpFmt.minLsb
      omega
    rw [FpFmt.absValue, FpFmt.mag, Fp.mag, hsig, hmod, hexp, zpow_add₀ (by norm_num), zpow_natCast]
    push_cast
    ring

theorem abs_valueOf (f : FpFmt) (v : ULong) : |valueOf f v| = f.absValue v := by
  have hnonneg : 0 ≤ f.absValue v := mul_nonneg (Nat.cast_nonneg _) (zpow_nonneg (by norm_num) _)
  unfold valueOf
  split
  · rw [abs_neg, abs_of_nonneg hnonneg]
  · rw [abs_of_nonneg hnonneg]

theorem represents_valueOf {F : Fp.Format} :
    F.Represents (valueOf f v) ↔ F.Represents (f.absValue v) := by
  unfold valueOf
  split
  · exact Fp.Format.represents_neg
  · exact Iff.rfl

/-- **What a target represents**: a value in its range whose mantissa ends in as many zeros as the
target has fewer bits. -/
theorem represents_iff_zeros (hf : f.Ieee) (hv : Normal f v) {F : Fp.Format}
    (hbits : F.mbits ≤ f.mant) (hrange : InRange F f v) :
    F.Represents (valueOf f v) ↔ f.mant - F.mbits ≤ trailingZeros f.mant (mantissa f v) := by
  have hlt : mantissa f v < 2 ^ f.mant := Nat.mod_lt _ (Nat.two_pow_pos _)
  have htop : F.topOnly → ((2 ^ f.mant + mantissa f v : ℕ) : ℚ) * 2 ^ (exponent f v - f.mant) ≠
      F.top := by
    rw [← absValue_eq hf hv, ← abs_valueOf]
    exact hrange.top
  rw [represents_valueOf, absValue_eq hf hv, Fp.Format.represents_iff hbits (Nat.le_add_right _ _)
    (by rw [pow_succ]; omega) hrange.emin hrange.emax htop, le_trailingZeros_iff (Nat.sub_le _ _)]
  exact (Nat.dvd_add_right (pow_dvd_pow 2 (Nat.sub_le _ _)))

end Values

theorem passes_iff {r : StoreRow} {f : FpFmt} (hf : formatOf r.allocType = some f)
    (target : Target) :
    Passes target r ↔
      f.mant - target.format.mbits ≤ trailingZeros f.mant (mantissa f r.value) := by
  rw [Passes, tz_eq hf]
  simp only [Option.some.injEq, exists_eq_left']
  cases ht : r.allocType with
  | bits64 =>
    rw [ht] at hf
    cases hf
    cases target <;> simp [threshold, Target.format, fmt64]
  | bits32 =>
    rw [ht] at hf
    cases hf
    cases target <;> simp [threshold, Target.format, fmt32]
  | object =>
    rw [ht] at hf
    cases hf

/-- The targets have no more mantissa bits than the stored values. -/
theorem mbits_le_mant {t : AllocType} {f : FpFmt} (hf : formatOf t = some f) (target : Target) :
    target.format.mbits ≤ f.mant := by
  cases t with
  | bits64 =>
    cases hf
    cases target <;> decide
  | bits32 =>
    cases hf
    cases target <;> decide
  | object => cases hf

theorem represents_iff_passes {r : StoreRow} {f : FpFmt} (hf : formatOf r.allocType = some f)
    (hnormal : Normal f r.value) {target : Target} (hrange : InRange target.format f r.value) :
    target.format.Represents (valueOf f r.value) ↔ Passes target r := by
  rw [passes_iff hf, represents_iff_zeros (ieee_of_formatOf hf) hnormal (mbits_le_mant hf target)
    hrange]

/-- **The test is exact.** The expression counts the trailing zeros of the mantissa, and a normal
value in the range of a target passes the test for it if and only if the target represents the
value. -/
theorem passes_iff_represents (r : StoreRow) (f : FpFmt) (hf : formatOf r.allocType = some f)
    (hnormal : Normal f r.value) :
    tz r.allocType (m r) = some (trailingZeros f.mant (mantissa f r.value)) ∧
    ∀ target : Target, InRange target.format f r.value →
      (Passes target r ↔ target.format.Represents (valueOf f r.value)) :=
  ⟨tz_eq hf, fun _ hrange => (represents_iff_passes hf hnormal hrange).symm⟩

/-- A store of a `64bits` value. -/
def store64 (v : ULong) : StoreRow := ⟨0#64, 8#64, .bits64, 0#32, [], 0#64, v⟩

/-- E4M3 represents `1.75`, and E5M2 does not represent `1.875`. -/
theorem passes_store64 :
    Target.fp8E4m3.format.Represents (valueOf fmt64 0x3FFC000000000000) ∧
    ¬Target.fp8E5m2.format.Represents (valueOf fmt64 0x3FFE000000000000) := by
  have hnormal : Normal fmt64 0x3FFC000000000000 ∧ Normal fmt64 0x3FFE000000000000 := by
    unfold Normal
    decide
  have hrange : InRange Target.fp8E4m3.format fmt64 0x3FFC000000000000 :=
    ⟨by decide, by decide, by decide +kernel⟩
  have hrange' : InRange Target.fp8E5m2.format fmt64 0x3FFE000000000000 :=
    ⟨by decide, by decide, nofun⟩
  have hpasses : Passes .fp8E4m3 (store64 0x3FFC000000000000) := .inr ⟨50, by decide, by decide⟩
  have hfails : ¬Passes .fp8E5m2 (store64 0x3FFE000000000000) := by
    have hzeros : tz .bits64 (m (store64 0x3FFE000000000000)) = some 49 := by decide
    rintro (⟨-, htype⟩ | ⟨zeros, htz, hle⟩)
    · exact htype rfl
    · cases htz.symm.trans hzeros
      exact absurd hle (by decide)
  constructor
  · exact ((passes_iff_represents (store64 _) fmt64 rfl hnormal.1).2 _ hrange).1 hpasses
  · exact fun h => hfails (((passes_iff_represents (store64 _) fmt64 rfl hnormal.2).2 _
      hrange').2 h)

/-! ## Shares -/

open Classical in
/-- **A column is the share** of the stores that the target represents, if they are in its range. -/
theorem pct_eq_share {t : AllocType} {f : FpFmt} (hf : formatOf t = some f) {target : Target}
    {group : List StoreRow} (hne : group ≠ []) (htype : ∀ r ∈ group, r.allocType = t)
    (hrange : ∀ r ∈ group, Normal f r.value ∧ InRange target.format f r.value) :
    pct target t group = some
      (((group.countP fun r => target.format.Represents (valueOf f r.value) : ℕ) : ℚ) /
        group.length) := by
  have hpasses : ∀ r ∈ group, (target.format.Represents (valueOf f r.value) ↔ Passes target r) := by
    intro r hr
    have hr' : formatOf r.allocType = some f := by rw [htype r hr, hf]
    exact represents_iff_passes hr' (hrange r hr).1 (hrange r hr).2
  have hlen : group.length ≠ 0 := fun h => hne (List.length_eq_zero_iff.1 h)
  unfold pct
  split
  · next hfp32 =>
    have hall : (group.countP fun r => target.format.Represents (valueOf f r.value)) =
        group.length := by
      refine List.countP_eq_length.2 fun r hr => decide_eq_true ((hpasses r hr).2 ?_)
      rw [← htype r hr] at hfp32
      exact .inl hfp32
    rw [hall, div_self (Nat.cast_ne_zero.2 hlen)]
  · next hthreshold =>
    obtain ⟨r, hr⟩ := List.exists_mem_of_ne_nil _ hne
    have htz : ∀ r ∈ group, tz r.allocType (m r) =
      some (trailingZeros f.mant (mantissa f r.value)) :=
      fun r hr => tz_eq (by rw [htype r hr, hf])
    rw [ratio, if_neg hlen, sumOf_eq_some hr (by rw [htz r hr]; simp), Option.map_some,
      countP_eq_sum, Nat.cast_list_sum, List.map_map]
    refine congrArg (fun x : ℚ => some (x / group.length)) (congrArg List.sum ?_)
    refine List.map_congr_left fun r hr => ?_
    have hpass : Passes target r ↔
        threshold target t ≤ trailingZeros f.mant (mantissa f r.value) := by
      rw [Passes, htype r hr, or_iff_right hthreshold, ← htype r hr, htz r hr]
      simp
    simp only [htz r hr, Function.comp_apply, Option.map_some, Option.getD_some, decide_eq_true_eq,
      hpasses r hr, hpass, Nat.cast_ite, Nat.cast_one, Nat.cast_zero]

open Classical in
/-- What a row says about its stores, all of one type: how many there are, and for every target that
has all of them in its range, the share of them that it represents. -/
structure ReportsShares (t : AllocType) (group : List StoreRow) (total : Nat)
    (pct : Target → Option ℚ) : Prop where
  count : total = group.length
  share : ∀ f, formatOf t = some f → ∀ target : Target,
    (∀ r ∈ group, Normal f r.value ∧ InRange target.format f r.value) →
    pct target = some
      (((group.countP fun r => target.format.Represents (valueOf f r.value) : ℕ) : ℚ) / total)

/-- The rows that a query over the typed stores groups with one of them. -/
theorem filter_filter_typed {α κ : Type} [DecidableEq κ] (t : α → AllocType) {key : α → κ} {r : α}
    {rows : List α} (hkey : ∀ r', key r' = key r → t r' = t r)
    (hr : r ∈ (rows.filter fun r' => Typed (t r')).filter fun r' => key r' = key r) :
    ((rows.filter fun r' => Typed (t r')).filter fun r' => key r' = key r) =
      rows.filter fun r' => key r' = key r := by
  have htyped : Typed (t r) := of_decide_eq_true (List.mem_filter.1 (List.mem_filter.1 hr).1).2
  rw [List.filter_filter]
  refine List.filter_congr fun r' _ => ?_
  rw [← Bool.decide_and, decide_eq_decide, and_iff_left_iff_imp]
  exact fun h => hkey r' h ▸ htyped

theorem reportsShares_pct {t : AllocType} {group : List StoreRow} (hne : group ≠ [])
    (htype : ∀ r ∈ group, r.allocType = t) :
    ReportsShares t group group.length fun target => pct target t group where
  count := rfl
  share _ hf _ hrange := pct_eq_share hf hne htype hrange

/-- **The rows of `12_format_feasibility`** report the stores of a benchmark that have their
type. -/
theorem formatFeasibility_reports {allStores : List Concentration.BenchStore}
    {row : FeasibilityRow} (hrow : row ∈ formatFeasibility allStores) :
    ReportsShares row.allocType
      ((Concentration.storesOf allStores row.bench).filter fun r => r.allocType = row.allocType)
      row.total row.pct := by
  obtain ⟨r, hr, rfl⟩ := mem_aggregate.1 hrow
  have hmem := List.mem_of_head? hr
  have hrows := filter_filter_typed (fun r : Concentration.BenchStore => r.2.allocType)
    (fun r' h => (Prod.mk.inj h).2) hmem
  rw [hrows] at hmem ⊢
  have hgroup : (Concentration.storesOf allStores r.1).filter
      (fun r' => r'.allocType = r.2.allocType) =
        (allStores.filter fun r' => (r'.1, r'.2.allocType) = (r.1, r.2.allocType)).map
          Prod.snd := by
    rw [Concentration.storesOf, List.filter_map, List.filter_filter]
    refine congrArg (List.map Prod.snd) (List.filter_congr fun r' _ => ?_)
    simp [and_comm]
  rw [hgroup, ← List.length_map Prod.snd, ← hgroup]
  refine reportsShares_pct ?_ fun r' hr' => of_decide_eq_true (List.mem_filter.1 hr').2
  rw [hgroup]
  exact List.ne_nil_of_mem (List.mem_map.2 ⟨r, hmem, rfl⟩)

/-- **The rows of `36_per_buffer_feasibility`** report the stores of a buffer that have their type
and size. -/
theorem perBufferFeasibility_reports {bench : List StoreRow} {row : BufferFeasibilityRow}
    (hrow : row ∈ perBufferFeasibility bench) :
    ∃ r ∈ bench, row.addr = "0x".toList ++ printHex r.allocAddr ∧ row.generation = r.generation ∧
      row.allocType = r.allocType ∧ row.allocSize = r.allocSize ∧
      ReportsShares row.allocType
        (bench.filter fun r' => r'.key = r.key ∧ r'.allocType = r.allocType ∧
          r'.allocSize = r.allocSize) row.total row.pct := by
  obtain ⟨r, hr, rfl⟩ := mem_aggregate.1 hrow
  have hmem := List.mem_of_head? hr
  have hbench : r ∈ bench := (List.mem_filter.1 (List.mem_filter.1 hmem).1).1
  refine ⟨r, hbench, rfl, rfl, rfl, rfl, ?_⟩
  have hgroup : (bench.filter fun r' => r'.key = r.key ∧ r'.allocType = r.allocType ∧
      r'.allocSize = r.allocSize) = bench.filter fun r' =>
        (r'.allocAddr, r'.generation, r'.allocType, r'.allocSize) =
          (r.allocAddr, r.generation, r.allocType, r.allocSize) := by
    refine List.filter_congr fun r' _ => ?_
    simp [StoreRow.key, and_assoc]
  have hrows := filter_filter_typed StoreRow.allocType
    (fun r' h => (Prod.mk.inj (Prod.mk.inj (Prod.mk.inj h).2).2).1) hmem
  rw [hrows, ← hgroup]
  exact reportsShares_pct (List.ne_nil_of_mem (List.mem_filter.2 ⟨hbench, by simp⟩))
    fun r' hr' => (of_decide_eq_true (List.mem_filter.1 hr').2).2.1

end Memlog.Query.Feasibility
