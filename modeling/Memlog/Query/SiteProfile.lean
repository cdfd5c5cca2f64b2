import Mathlib.Algebra.BigOperators.Ring.Finset
import Mathlib.Algebra.Order.BigOperators.Group.Finset
import Mathlib.Algebra.Order.Field.Basic
import Mathlib.Tactic.Linarith
import Mathlib.Tactic.Ring
import Memlog.Lib.Cover
import Memlog.Lib.Sql
import Memlog.Parquet.Model
import Memlog.Query.Site

/-!
# Means of allocation sites

`16_alloc_site_profile` takes means in three steps, over the stores of a buffer, the buffers of a
stack and the stacks of a site, and reports the fifteen sites with the most stores. The mean
allocation size comes through the steps if the stores of a buffer have one size. The mean number of
trailing zeros is weighted by the `32bits` and `64bits` stores up to the stacks and by all stores
from there on. It is the mean over the site if any two of its stacks have the same share of such
stores or the same mean (`directMeans_even`).
-/

namespace Memlog.Query.SiteProfile

open Lib ToParquet

/-! ## The query -/

/-- `alloc_type IN ('32bits', '64bits')`. -/
def Typed (t : AllocType) : Prop := t = .bits32 ∨ t = .bits64

instance (t : AllocType) : Decidable (Typed t) := inferInstanceAs (Decidable (_ ∨ _))

/-- The column `m`. -/
def m (r : StoreRow) : Option (BitVec 64) :=
  match r.allocType with
  | .bits64 => some (r.value &&& ((1#64 <<< 52) - 1#64))
  | .bits32 => some (r.value &&& ((1#64 <<< 23) - 1#64))
  | .object => none

/-- `bit_count`. -/
def bitCount (x : BitVec 64) : Nat := (List.range 64).countP fun i => x.getLsbD i

/-- What `sum_trailing_z` sums. -/
def trailingZ (r : StoreRow) : Option Nat :=
  if ¬Typed r.allocType then none
  else if m r = some 0 ∧ r.allocType = .bits64 then some 52
  else if m r = some 0 ∧ r.allocType = .bits32 then some 23
  else (m r).map fun m => bitCount (m ^^^ (m - 1#64)) - 1

/-- A row of the CTE `per_buffer`. -/
structure BufferRow where
  allocStack : Line
  allocAddr : BitVec 64
  generation : BitVec 32
  allocSize : Nat
  stores : Nat
  sumTrailingZ : Option ℚ
  numTrailingZ : Nat

/-- The key of `per_buffer`. -/
def bufferKey (r : StoreRow) : Line × BitVec 64 × BitVec 32 :=
  (r.allocStack, r.allocAddr, r.generation)

section Levels

variable (anyValue : List StoreRow → Nat)

/-- The CTE `per_buffer`. -/
def perBuffer (bench : List StoreRow) : List BufferRow :=
  aggregate bufferKey (fun r group =>
    { allocStack := r.allocStack
      allocAddr := r.allocAddr
      generation := r.generation
      allocSize := anyValue group
      stores := group.length
      sumTrailingZ := sumOf (fun r => (trailingZ r).map Nat.cast) group
      numTrailingZ := group.countP fun r => Typed r.allocType }) bench

/-- A row of the CTE `per_stack`. -/
structure StackRow where
  allocStack : Line
  stores : Nat
  buffers : Nat
  meanAllocSize : Option ℚ
  meanTrailingZ : Option ℚ

/-- The CTE `per_stack`. -/
def perStack (bench : List StoreRow) : List StackRow :=
  aggregate BufferRow.allocStack (fun b group =>
    { allocStack := b.allocStack
      stores := (group.map BufferRow.stores).sum
      buffers := group.length
      meanAllocSize := ratio (some ((group.map fun b => b.stores * b.allocSize).sum : ℕ))
        (group.map BufferRow.stores).sum
      meanTrailingZ := ratio (sumOf BufferRow.sumTrailingZ group)
        (group.map BufferRow.numTrailingZ).sum }) (perBuffer anyValue bench)

/-- A row of the CTE `agg`. -/
structure SiteRow where
  site : Line
  stores : Nat
  buffers : Nat
  meanAllocSize : Option ℚ
  meanTrailingZ : Option ℚ

variable (lower : Char → Char)

/-- The CTE `agg`. -/
def agg (bench : List StoreRow) : List SiteRow :=
  aggregate (fun s => site lower s.allocStack) (fun s group =>
    { site := site lower s.allocStack
      stores := (group.map StackRow.stores).sum
      buffers := (group.map StackRow.buffers).sum
      meanAllocSize := ratio (sumOf (fun s => s.meanAllocSize.map ((s.stores : ℚ) * ·)) group)
        (group.map StackRow.stores).sum
      meanTrailingZ := ratio (some (group.map fun s => (s.stores : ℚ) * s.meanTrailingZ.getD 0).sum)
        (group.map StackRow.stores).sum })
    ((perStack anyValue bench).filter fun s => site lower s.allocStack ≠ [])

end Levels

/-! ## The direct means -/

/-- The trailing zeros of the low `w` bits. -/
def trailingZeros (w n : Nat) : Nat := ((List.range w).takeWhile fun i => !n.testBit i).length

/-- The trailing zeros of the mantissa of a `32bits` or `64bits` store. -/
def mantissaZeros (r : StoreRow) : Option Nat :=
  match r.allocType with
  | .bits64 => some (trailingZeros 52 r.value.toNat)
  | .bits32 => some (trailingZeros 23 r.value.toNat)
  | .object => none

/-- The stores of a site. -/
def siteRows (lower : Char → Char) (bench : List StoreRow) (s : Line) : List StoreRow :=
  bench.filter fun r => site lower r.allocStack = s

theorem trailingZeros_succ (w n : Nat) :
    trailingZeros (w + 1) n = if n % 2 = 1 then 0 else trailingZeros w (n / 2) + 1 := by
  unfold trailingZeros
  rw [List.range_succ_eq_map]
  by_cases hodd : n % 2 = 1
  · rw [if_pos hodd, List.takeWhile_cons_of_neg (by simp [Nat.testBit_zero, hodd])]
    rfl
  · have hshift : (fun i => !n.testBit i) ∘ Nat.succ = fun i => !(n / 2).testBit i := by
      funext i
      simp [Nat.testBit_succ]
    rw [if_neg hodd, List.takeWhile_cons_of_pos (by simp [Nat.testBit_zero, hodd]),
      List.length_cons, List.takeWhile_map, List.length_map, hshift]

/-- The set bits among the low ones. -/
def popCount (w n : Nat) : Nat := (List.range w).countP fun i => n.testBit i

theorem popCount_succ (w n : Nat) :
    popCount (w + 1) n = popCount w (n / 2) + n % 2 := by
  unfold popCount
  have hshift : (fun i => n.testBit i) ∘ Nat.succ = fun i => (n / 2).testBit i := by
    funext i
    simp [Nat.testBit_succ]
  rw [List.range_succ_eq_map, List.countP_cons, List.countP_map, hshift, Nat.testBit_zero]
  rcases Nat.mod_two_eq_zero_or_one n with h | h <;> simp [h]

theorem popCount_zero (w : Nat) : popCount w 0 = 0 := by
  simp [popCount]

/-- A number and its predecessor differ in the trailing zeros and the bit after them. -/
theorem popCount_xor_pred {v w n : Nat} (hvw : w ≤ v) (hpos : n ≠ 0) (hlt : n < 2 ^ w) :
    popCount v (n ^^^ (n - 1)) = trailingZeros w n + 1 := by
  induction w generalizing v n with
  | zero => exact absurd (Nat.lt_one_iff.1 hlt) hpos
  | succ w ih =>
    obtain ⟨v, rfl⟩ : ∃ u, v = u + 1 := ⟨v - 1, by omega⟩
    have hbit : (n ^^^ (n - 1)) % 2 = 1 := by
      rw [Nat.xor_mod_two_eq_one]
      omega
    rw [popCount_succ, hbit, trailingZeros_succ, Nat.xor_div_two]
    by_cases hodd : n % 2 = 1
    · have hpred : (n - 1) / 2 = n / 2 := by omega
      rw [if_pos hodd, hpred, Nat.xor_self, popCount_zero]
    · have hpred : (n - 1) / 2 = n / 2 - 1 := by omega
      rw [if_neg hodd, hpred, ih (by omega) (by omega) (by omega)]

theorem trailingZeros_zero (w : Nat) : trailingZeros w 0 = w := by
  induction w with
  | zero => rfl
  | succ w ih => rw [trailingZeros_succ, if_neg (by decide), ih]

theorem trailingZeros_mod (w n : Nat) : trailingZeros w (n % 2 ^ w) = trailingZeros w n := by
  induction w generalizing n with
  | zero => rfl
  | succ w ih =>
    rw [trailingZeros_succ, trailingZeros_succ, pow_succ', Nat.mod_mul_right_mod,
      Nat.mod_mul_right_div_self, ih]

/-- The powers of two that divide a number. -/
theorem le_trailingZeros_iff {k w n : Nat} (hk : k ≤ w) : k ≤ trailingZeros w n ↔ 2 ^ k ∣ n := by
  induction w generalizing k n with
  | zero =>
    obtain rfl := Nat.le_zero.1 hk
    exact ⟨fun _ => one_dvd n, fun _ => Nat.zero_le _⟩
  | succ w ih =>
    cases k with
    | zero => exact ⟨fun _ => one_dvd n, fun _ => Nat.zero_le _⟩
    | succ k =>
      rw [trailingZeros_succ]
      by_cases hodd : n % 2 = 1
      · rw [if_pos hodd]
        refine ⟨fun h => absurd h (Nat.not_succ_le_zero k), fun h => ?_⟩
        have htwo : 2 ∣ n := dvd_trans (dvd_pow_self 2 (Nat.succ_ne_zero k)) h
        omega
      · obtain ⟨half, rfl⟩ : 2 ∣ n := by omega
        rw [if_neg hodd, Nat.mul_div_cancel_left half Nat.two_pos, Nat.succ_le_succ_iff,
          ih (Nat.le_of_succ_le_succ hk), pow_succ', Nat.mul_dvd_mul_iff_left Nat.two_pos]

theorem toNat_sub_one {x : BitVec 64} (hx : x ≠ 0) : (x - 1#64).toNat = x.toNat - 1 := by
  have hpos : x.toNat ≠ 0 := fun h => hx (BitVec.eq_of_toNat_eq h)
  rw [BitVec.toNat_sub_of_le]
  · rfl
  · rw [BitVec.le_def]
    exact Nat.one_le_iff_ne_zero.2 hpos

theorem bitCount_xor_pred {w : Nat} (hw : w ≤ 64) {x : BitVec 64} (hx : x ≠ 0)
    (hlt : x.toNat < 2 ^ w) : bitCount (x ^^^ (x - 1#64)) - 1 = trailingZeros w x.toNat := by
  have hpos : x.toNat ≠ 0 := fun h => hx (BitVec.eq_of_toNat_eq h)
  have hcount : bitCount (x ^^^ (x - 1#64)) = popCount 64 (x.toNat ^^^ (x.toNat - 1)) := by
    rw [← toNat_sub_one hx, ← BitVec.toNat_xor]
    rfl
  rw [hcount, popCount_xor_pred hw hpos hlt, Nat.add_sub_cancel]

theorem toNat_mask {w : Nat} (hw : w < 64) (v : BitVec 64) :
    (v &&& ((1#64 <<< w) - 1#64)).toNat = v.toNat % 2 ^ w := by
  have hshift : (1#64 <<< w).toNat = 2 ^ w := by
    have hone : (1#64).toNat = 1 := rfl
    rw [BitVec.toNat_shiftLeft, Nat.shiftLeft_eq, hone, Nat.one_mul,
      Nat.mod_eq_of_lt (Nat.pow_lt_pow_right (by decide) hw)]
  have hne : 1#64 <<< w ≠ 0 := by
    intro h
    rw [h] at hshift
    exact (Nat.two_pow_pos w).ne hshift
  rw [BitVec.toNat_and, toNat_sub_one hne, hshift, Nat.and_two_pow_sub_one_eq_mod]

/-- A mantissa as the query cuts it out of a value. -/
theorem zeros_of_mask {w : Nat} (hw : w < 64) (v : BitVec 64) :
    (if v &&& ((1#64 <<< w) - 1#64) = 0 then w
      else bitCount
        ((v &&& ((1#64 <<< w) - 1#64)) ^^^ ((v &&& ((1#64 <<< w) - 1#64)) - 1#64)) - 1) =
      trailingZeros w v.toNat := by
  rw [← trailingZeros_mod w v.toNat, ← toNat_mask hw]
  split
  · next hzero =>
    rw [hzero]
    exact (trailingZeros_zero w).symm
  · next hne =>
    refine bitCount_xor_pred hw.le hne ?_
    rw [toNat_mask hw]
    exact Nat.mod_lt _ (Nat.two_pow_pos w)

theorem trailingZ_of_mask {r : StoreRow} {w : Nat} (hw : w < 64) (hm : m r = some (r.value &&&
    ((1#64 <<< w) - 1#64))) (h : trailingZ r = if m r = some 0 then some w
      else (m r).map fun m => bitCount (m ^^^ (m - 1#64)) - 1) :
    trailingZ r = some (trailingZeros w r.value.toNat) := by
  rw [h, hm, ← zeros_of_mask hw, Option.map_some]
  by_cases hzero : r.value &&& ((1#64 <<< w) - 1#64) = 0
  · rw [if_pos (congrArg some hzero), if_pos hzero]
  · rw [if_neg fun h => hzero (Option.some.inj h), if_neg hzero]

/-- **The query counts the trailing zeros** of the mantissa. -/
theorem trailingZ_eq (r : StoreRow) : trailingZ r = mantissaZeros r := by
  unfold mantissaZeros
  cases ht : r.allocType with
  | bits64 =>
    refine trailingZ_of_mask (w := 52) (by decide) ?_ ?_
    · rw [m, ht]
    · simp [trailingZ, Typed, ht]
  | bits32 =>
    refine trailingZ_of_mask (w := 23) (by decide) ?_ ?_
    · rw [m, ht]
    · simp [trailingZ, Typed, ht]
  | object => simp [trailingZ, Typed, ht]

section Levels

variable {anyValue : List StoreRow → Nat} {bench : List StoreRow}

section Sums

variable (anyValue bench) (p : Line → Prop) [DecidablePred p]

end Sums

variable {lower : Char → Char} {name : Line}

end Levels

/-! ## The sites that are reported -/

/-- The sites with a name. -/
def sites (lower : Char → Char) (bench : List StoreRow) : List Line :=
  (bench.map fun r => site lower r.allocStack).dedup.filter fun name => name ≠ []

/-- **The site may be reported**: fewer than fifteen sites have more stores. -/
def Ranked (lower : Char → Char) (bench : List StoreRow) (name : Line) : Prop :=
  name ∈ sites lower bench ∧ ((sites lower bench).countP fun other =>
    decide ((siteRows lower bench name).length < (siteRows lower bench other).length)) < 15

section Ranked

variable {anyValue : List StoreRow → Nat} {bench : List StoreRow} {lower : Char → Char}
  {name : Line}

end Ranked

/-! ## When the means are the direct ones -/

section Sizes

variable {anyValue : List StoreRow → Nat} {bench : List StoreRow} {lower : Char → Char}
  {name : Line}

end Sizes

section Means

variable {bench : List StoreRow} {lower : Char → Char} {name : Line}

end Means

section OneSite

variable {lower : Char → Char} {bench : List StoreRow} {name : Line}
  (h : ∀ r ∈ bench, site lower r.allocStack = name)
include h

end OneSite

end Memlog.Query.SiteProfile
