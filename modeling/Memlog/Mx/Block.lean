import Mathlib.Data.List.Range
import Memlog.Mx.Group

/-!
# The groups of a block in memory

`mx_encode_block` rewrites the elements of one group (`mxEncodeBlock_elems`) and touches nothing
else (`mxEncodeBlock_frame`), so a group is a fixed point exactly when its elements are one of
`encodeGroup` (`mxEncodeBlock_eq_self_iff`). The groups of a block do not overlap, and re-encoding
the groups that a store touches makes every group of the block a fixed point again
(`fixed_mxReencode`).

Positions in a block are distances from its payload, so nothing here depends on where the block
lies.
-/

namespace Memlog

open Lib

/-- The elements at `n` consecutive places. -/
def mxElems (f : FpFmt) (base : Addr) (n : Nat) (m : Mem) : List ULong :=
  (List.range n).map fun i => mxLoad f m (mxElemAddr f base i)

/-! ## Elements in memory -/

section Elements

variable {f : FpFmt} (hf : f.Ieee) {m m' : Mem} {a base x : Addr} {v : ULong} {i j n : Nat}
include hf

theorem mxLoad_eq : mxLoad f m a = BitVec.ofNat 64 (m.loadLE a f.esz) := by
  unfold mxLoad
  rcases hf.esz with h | h <;> rw [h] <;> rfl

theorem mxStore_eq : mxStore f m a v = m.storeLE a f.esz v.toNat := by
  unfold mxStore
  rcases hf.esz with h | h <;> rw [h] <;> rfl

omit hf in
theorem pow_esz (f : FpFmt) : 256 ^ f.esz = 2 ^ (8 * f.esz) := by
  rw [pow_mul]
  rfl

theorem pow_esz_le : 2 ^ (8 * f.esz) ≤ 2 ^ 64 := by
  apply Nat.pow_le_pow_right (by omega)
  rcases hf.esz with h | h <;> omega

theorem mxLoad_toNat : (mxLoad f m a).toNat = m.loadLE a f.esz := by
  have hlt := m.loadLE_lt a f.esz
  have hle := pow_esz_le hf
  rw [pow_esz] at hlt
  rw [mxLoad_eq hf, BitVec.toNat_ofNat, Nat.mod_eq_of_lt (by omega)]

theorem mxLoad_word : f.Word (mxLoad f m a) := by
  have hlt := m.loadLE_lt a f.esz
  rw [pow_esz] at hlt
  unfold FpFmt.Word
  rwa [mxLoad_toNat hf]

/-- An element reads back as it was stored. -/
theorem mxLoad_mxStore (hv : f.Word v) : mxLoad f (mxStore f m a v) a = v := by
  apply BitVec.eq_of_toNat_eq
  have hsz : f.esz ≤ 2 ^ 64 := by rcases hf.esz with h | h <;> omega
  rw [mxLoad_toNat hf, mxStore_eq hf, ByteMem.loadLE_storeLE _ _ _ hsz, pow_esz,
    Nat.mod_eq_of_lt hv]

theorem mxLoad_congr (h : ∀ k < f.esz, m (a + BitVec.ofNat 64 k) = m' (a + BitVec.ofNat 64 k)) :
    mxLoad f m a = mxLoad f m' a := by
  rw [mxLoad_eq hf, mxLoad_eq hf, ByteMem.loadLE_congr h]

omit hf in
/-- A byte of an element, from the start of the group. -/
theorem mxElemAddr_add (f : FpFmt) (base : Addr) (i k : Nat) :
    mxElemAddr f base i + BitVec.ofNat 64 k = base + BitVec.ofNat 64 (i * f.esz + k) := by
  rw [mxElemAddr, BitVec.ofNat_add, BitVec.add_assoc]

omit hf in
/-- The bytes of one element are not those of another. -/
theorem esz_le_dist (hij : i ≠ j) (hi : (i + 1) * f.esz ≤ 2 ^ 64) (hj : (j + 1) * f.esz ≤ 2 ^ 64)
    {k : Nat} (hk : k < f.esz) :
    f.esz ≤ dist (mxElemAddr f base i) (mxElemAddr f base j + BitVec.ofNat 64 k) := by
  rw [Nat.succ_mul] at hi hj
  have hd : dist base (base + BitVec.ofNat 64 (j * f.esz + k)) = j * f.esz + k :=
    dist_add base (by omega)
  rw [mxElemAddr_add]
  rcases dist_add_cases (i := i * f.esz) base (base + BitVec.ofNat 64 (j * f.esz + k)) (by omega)
    with ⟨hle, heq⟩ | ⟨hlt, heq⟩
  · rw [mxElemAddr, heq]
    have hmul : (i + 1) * f.esz ≤ j * f.esz := by
      apply Nat.mul_le_mul_right
      by_contra hno
      have hji : (j + 1) * f.esz ≤ i * f.esz := Nat.mul_le_mul_right _ (by omega)
      rw [Nat.succ_mul] at hji
      omega
    rw [Nat.succ_mul] at hmul
    omega
  · rw [mxElemAddr, heq]
    omega

/-- Storing one element leaves another alone. -/
theorem mxLoad_mxStore_of_ne (hij : i ≠ j) (hi : (i + 1) * f.esz ≤ 2 ^ 64)
    (hj : (j + 1) * f.esz ≤ 2 ^ 64) :
    mxLoad f (mxStore f m (mxElemAddr f base i) v) (mxElemAddr f base j) =
      mxLoad f m (mxElemAddr f base j) := by
  apply mxLoad_congr hf
  intro k hk
  rw [mxStore_eq hf]
  exact ByteMem.storeLE_of_le (esz_le_dist hij hi hj hk)

/-- Storing an element of a group leaves the bytes outside the group alone. -/
theorem mxStore_frame (hi : i < n) (hn : n * f.esz ≤ 2 ^ 64) (hx : n * f.esz ≤ dist base x) :
    mxStore f m (mxElemAddr f base i) v x = m x := by
  have hmul : (i + 1) * f.esz ≤ n * f.esz := Nat.mul_le_mul_right _ hi
  rw [Nat.succ_mul] at hmul
  rw [mxStore_eq hf]
  apply ByteMem.storeLE_of_le
  have hsz : 0 < f.esz := by rcases hf.esz with h | h <;> omega
  rcases dist_add_cases (i := i * f.esz) base x (by omega) with ⟨-, heq⟩ | ⟨hlt, -⟩
  · rw [mxElemAddr, heq]
    omega
  · omega

end Elements

/-! ## Rewriting the elements of a group -/

section Rewrite

variable {f : FpFmt} (hf : f.Ieee) {m m' : Mem} {base x : Addr} {g : ULong → ULong} {n : Nat}

@[simp] theorem mxRewrite_zero (f : FpFmt) (base : Addr) (g : ULong → ULong) (m : Mem) :
    mxRewrite f base g 0 m = m := rfl

theorem mxRewrite_succ (f : FpFmt) (base : Addr) (g : ULong → ULong) (n : Nat) (m : Mem) :
    mxRewrite f base g (n + 1) m =
      let m₁ := mxRewrite f base g n m
      let a := mxElemAddr f base n
      if g (mxLoad f m₁ a) ≠ mxLoad f m₁ a then mxStore f m₁ a (g (mxLoad f m₁ a)) else m₁ := by
  unfold mxRewrite
  rw [List.range_succ, List.foldl_append]
  rfl

/-- Elements that the map leaves alone are not written. -/
theorem mxRewrite_eq_self
    (h : ∀ i < n, g (mxLoad f m (mxElemAddr f base i)) = mxLoad f m (mxElemAddr f base i)) :
    mxRewrite f base g n m = m := by
  induction n with
  | zero => rfl
  | succ n ih =>
    have hn := ih fun i hi => h i (Nat.lt_succ_of_lt hi)
    rw [mxRewrite_succ, hn]
    exact if_neg (not_not.2 (h n (Nat.lt_succ_self n)))

include hf

theorem mxRewrite_frame (hn : n * f.esz ≤ 2 ^ 64) (hx : n * f.esz ≤ dist base x) :
    mxRewrite f base g n m x = m x := by
  induction n with
  | zero => rfl
  | succ n ih =>
    have hmul : n * f.esz ≤ (n + 1) * f.esz := Nat.mul_le_mul_right _ (Nat.le_succ n)
    rw [mxRewrite_succ]
    dsimp only
    split
    · rw [mxStore_frame hf (Nat.lt_succ_self n) hn hx]
      exact ih (by omega) (by omega)
    · exact ih (by omega) (by omega)

/-- **The second loop** maps each element of the group once. -/
theorem mxLoad_mxRewrite (hn : n * f.esz ≤ 2 ^ 64)
    (hg : ∀ i < n, f.Word (g (mxLoad f m (mxElemAddr f base i)))) {j : Nat}
    (hj : (j + 1) * f.esz ≤ 2 ^ 64) :
    mxLoad f (mxRewrite f base g n m) (mxElemAddr f base j) =
      if j < n then g (mxLoad f m (mxElemAddr f base j)) else mxLoad f m (mxElemAddr f base j) := by
  induction n generalizing j with
  | zero => rw [mxRewrite_zero, if_neg (Nat.not_lt_zero j)]
  | succ n ih =>
    have hmul : n * f.esz ≤ (n + 1) * f.esz := Nat.mul_le_mul_right _ (Nat.le_succ n)
    have ih := fun {j} hj => ih (by omega) (fun i hi => hg i (Nat.lt_succ_of_lt hi)) (j := j) hj
    have hlast : mxLoad f (mxRewrite f base g n m) (mxElemAddr f base n) =
        mxLoad f m (mxElemAddr f base n) := by
      rw [ih hn, if_neg (Nat.lt_irrefl n)]
    rw [mxRewrite_succ]
    dsimp only
    rw [hlast]
    by_cases hjn : j = n
    · subst hjn
      rw [if_pos (Nat.lt_succ_self j)]
      split
      · rw [mxLoad_mxStore hf (hg j (Nat.lt_succ_self j))]
      · rename_i hsame
        rw [hlast]
        exact (not_not.1 hsame).symm
    · have hiff : j < n + 1 ↔ j < n := by omega
      simp only [hiff]
      split
      · rw [mxLoad_mxStore_of_ne hf (Ne.symm hjn) hn hj, ih hj]
      · rw [ih hj]

theorem mxElems_mxRewrite (hn : n * f.esz ≤ 2 ^ 64)
    (hg : ∀ v ∈ mxElems f base n m, f.Word (g v)) :
    mxElems f base n (mxRewrite f base g n m) = (mxElems f base n m).map g := by
  unfold mxElems at hg ⊢
  rw [List.map_map]
  refine List.map_congr_left fun j hj => ?_
  have hj := List.mem_range.1 hj
  have hmul : (j + 1) * f.esz ≤ n * f.esz := Nat.mul_le_mul_right _ hj
  rw [mxLoad_mxRewrite hf hn _ (by omega), if_pos hj]
  · rfl
  · intro i hi
    exact hg _ (List.mem_map.2 ⟨i, List.mem_range.2 hi, rfl⟩)

theorem mxElems_congr (hn : n * f.esz ≤ 2 ^ 64)
    (h : ∀ x, dist base x < n * f.esz → m x = m' x) : mxElems f base n m = mxElems f base n m' := by
  refine List.map_congr_left fun j hj => ?_
  have hj := List.mem_range.1 hj
  have hmul : (j + 1) * f.esz ≤ n * f.esz := Nat.mul_le_mul_right _ hj
  rw [Nat.succ_mul] at hmul
  apply mxLoad_congr hf
  intro k hk
  rw [mxElemAddr_add]
  apply h
  rw [dist_add base (by omega)]
  omega

theorem mxElems_word (v : ULong) (hv : v ∈ mxElems f base n m) : f.Word v := by
  obtain ⟨i, -, rfl⟩ := List.mem_map.1 hv
  exact mxLoad_word hf

end Rewrite

/-! ## Encoding one group -/

section Encode

variable (clo : Clo) {f : FpFmt} {bk : Block} {bi : SizeT} {m m' : Mem} {x : Addr}

theorem mxGroupLen_le (f : FpFmt) (bk : Block) (bi : SizeT) : mxGroupLen f bk bi ≤ 32 := by
  unfold mxGroupLen
  dsimp only
  split
  · rename_i h
    rw [BitVec.lt_def] at h
    exact le_of_lt h
  · exact le_refl _

/-- The elements of a group in memory. -/
def mxGroup (f : FpFmt) (bk : Block) (bi : SizeT) (m : Mem) : List ULong :=
  mxElems f (mxGroupBase f bk bi) (mxGroupLen f bk bi) m

theorem mxScan_eq (f : FpFmt) (base : Addr) (n : Nat) (m : Mem) :
    mxScan f base n m = scanGroup f (mxElems f base n m) := by
  rw [mxScan, scanGroup, mxElems, List.foldl_map]

/-- `mx_encode_block` is one pass over the elements, with a map that depends on the scan. -/
theorem mxEncodeBlock_eq (clo : Clo) (f : FpFmt) (bk : Block) (bi : SizeT) (m : Mem) :
    mxEncodeBlock clo f bk bi m =
      mxRewrite f (mxGroupBase f bk bi) (mxElementMap clo f (scanGroup f (mxGroup f bk bi m)))
        (mxGroupLen f bk bi) m := by
  have hid : ∀ base n, mxRewrite f base id n m = m := fun base n =>
    mxRewrite_eq_self fun _ _ => rfl
  unfold mxEncodeBlock mxGroup
  dsimp only
  rw [mxScan_eq]
  generalize scanGroup f _ = acc
  unfold mxElementMap
  split
  · rfl
  · split
    · rw [hid]
    · rfl

variable (hf : f.Ieee)
include hf

theorem mxGroupLen_mul_le : mxGroupLen f bk bi * f.esz ≤ 2 ^ 64 := by
  have hlen := mxGroupLen_le f bk bi
  have hsz : f.esz ≤ 8 := by rcases hf.esz with h | h <;> omega
  have := Nat.mul_le_mul hlen hsz
  omega

theorem mxGroup_word (v : ULong) (hv : v ∈ mxGroup f bk bi m) : f.Word v := mxElems_word hf v hv

/-- **The elements** of a group after `mx_encode_block`. -/
theorem mxEncodeBlock_elems :
    mxGroup f bk bi (mxEncodeBlock clo f bk bi m) = encodeGroup clo f (mxGroup f bk bi m) := by
  have hword : ∀ v ∈ mxGroup f bk bi m, f.Word v := mxGroup_word hf
  have hscan := scanOf_scanGroup hf hword
  rw [mxEncodeBlock_eq]
  apply mxElems_mxRewrite hf (mxGroupLen_mul_le hf)
  intro v hv
  exact mxElementMap_word hf clo hscan (mxGroup_word hf) hv

/-- `mx_encode_block` writes only its group. -/
theorem mxEncodeBlock_frame (hx : mxGroupLen f bk bi * f.esz ≤ dist (mxGroupBase f bk bi) x) :
    mxEncodeBlock clo f bk bi m x = m x := by
  rw [mxEncodeBlock_eq]
  exact mxRewrite_frame hf (mxGroupLen_mul_le hf) hx

/-- A group is a fixed point if and only if its elements are. -/
theorem mxEncodeBlock_eq_self_iff :
    mxEncodeBlock clo f bk bi m = m ↔
      encodeGroup clo f (mxGroup f bk bi m) = mxGroup f bk bi m := by
  constructor
  · intro h
    rw [← mxEncodeBlock_elems clo hf, h]
  · intro h
    rw [mxEncodeBlock_eq]
    apply mxRewrite_eq_self
    intro i hi
    have hmem : mxLoad f m (mxElemAddr f (mxGroupBase f bk bi) i) ∈ mxGroup f bk bi m :=
      List.mem_map.2 ⟨i, List.mem_range.2 hi, rfl⟩
    exact (List.map_eq_map_iff.1 (h.trans (List.map_id _).symm)) _ hmem

/-- Being a fixed point depends on the bytes of the group only. -/
theorem mxEncodeBlock_eq_self_congr
    (h : ∀ x, dist (mxGroupBase f bk bi) x < mxGroupLen f bk bi * f.esz → m x = m' x) :
    mxEncodeBlock clo f bk bi m = m ↔ mxEncodeBlock clo f bk bi m' = m' := by
  have helems : mxGroup f bk bi m = mxGroup f bk bi m' := mxElems_congr hf (mxGroupLen_mul_le hf) h
  rw [mxEncodeBlock_eq_self_iff clo hf, mxEncodeBlock_eq_self_iff clo hf, helems]

/-- **`mx_encode_block` is idempotent** when the format has room for the largest element exponent.
-/
theorem mxEncodeBlock_idem_of_le (hemax : clo.mxEmax ≤ f.bias) :
    mxEncodeBlock clo f bk bi (mxEncodeBlock clo f bk bi m) = mxEncodeBlock clo f bk bi m := by
  rw [mxEncodeBlock_eq_self_iff clo hf, mxEncodeBlock_elems clo hf]
  exact encodeGroup_idem hf clo hemax (mxGroup_word hf)

end Encode

/-! ## The groups of a block -/

section Groups

variable {f : FpFmt} (hf : f.Ieee) {bk : Block} {bi bj : Nat} {x : Addr}
include hf

theorem mxSpan_toNat : (mxSpan f).toNat = 32 * f.esz := by
  unfold mxSpan
  rw [BitVec.toNat_ofNat, Nat.mod_eq_of_lt]
  rcases hf.esz with h | h <;> rw [h] <;> decide

theorem mxGroups_toNat : (mxGroups f bk).toNat =
    bk.reqSzB.toNat / (32 * f.esz) + if f.esz ≤ bk.reqSzB.toNat % (32 * f.esz) then 1 else 0 := by
  have hlt := bk.reqSzB.isLt
  have hesz : (BitVec.ofNat 64 f.esz).toNat = f.esz := by
    rw [BitVec.toNat_ofNat, Nat.mod_eq_of_lt]
    rcases hf.esz with h | h <;> omega
  have hquot : bk.reqSzB.toNat / (32 * f.esz) ≤ bk.reqSzB.toNat / 2 :=
    Nat.div_le_div_left (by rcases hf.esz with h | h <;> omega) (by decide)
  have hcond : bk.reqSzB % mxSpan f ≥ BitVec.ofNat 64 f.esz ↔
      f.esz ≤ bk.reqSzB.toNat % (32 * f.esz) := by
    rw [ge_iff_le, BitVec.le_def, BitVec.toNat_umod, mxSpan_toNat hf, hesz]
  unfold mxGroups
  rw [BitVec.toNat_add, BitVec.toNat_udiv, mxSpan_toNat hf, apply_ite BitVec.toNat]
  simp only [hcond]
  rw [Nat.mod_eq_of_lt]
  · rfl
  · split
    · rw [BitVec.toNat_ofNat]
      omega
    · rw [BitVec.toNat_ofNat]
      omega

/-- The groups are those that have a whole element. -/
theorem lt_mxGroups_iff :
    bi < (mxGroups f bk).toNat ↔ bi * (32 * f.esz) + f.esz ≤ bk.reqSzB.toNat := by
  rw [mxGroups_toNat hf]
  rcases hf.esz with h | h <;> rw [h] <;> split <;> omega

/-- The length of a group that starts in the block, without the machine arithmetic: the subtraction
does not go below zero. -/
theorem mxGroupLen_eq (hbi : bi * (32 * f.esz) ≤ bk.reqSzB.toNat) :
    BitVec.ofNat 64 bi * BitVec.ofNat 64 mxBlockElems ≤ bk.reqSzB / BitVec.ofNat 64 f.esz ∧
      mxGroupLen f bk (BitVec.ofNat 64 bi) = min 32 (bk.reqSzB.toNat / f.esz - bi * 32) := by
  have hlt := bk.reqSzB.isLt
  have hesz : (BitVec.ofNat 64 f.esz).toNat = f.esz := by
    rw [BitVec.toNat_ofNat, Nat.mod_eq_of_lt]
    rcases hf.esz with h | h <;> omega
  have hmul : (BitVec.ofNat 64 bi * BitVec.ofNat 64 mxBlockElems).toNat = bi * 32 := by
    rw [← BitVec.ofNat_mul, BitVec.toNat_ofNat, Nat.mod_eq_of_lt]
    rcases hf.esz with h | h <;> rw [h] at hbi <;> simp only [mxBlockElems] <;> omega
  have hquot : (bk.reqSzB / BitVec.ofNat 64 f.esz).toNat = bk.reqSzB.toNat / f.esz := by
    rw [BitVec.toNat_udiv, hesz]
  have hle : BitVec.ofNat 64 bi * BitVec.ofNat 64 mxBlockElems ≤
      bk.reqSzB / BitVec.ofNat 64 f.esz := by
    rw [BitVec.le_def, hquot, hmul]
    rcases hf.esz with h | h <;> rw [h] at hbi ⊢ <;> omega
  have hleft : (bk.reqSzB / BitVec.ofNat 64 f.esz -
      BitVec.ofNat 64 bi * BitVec.ofNat 64 mxBlockElems).toNat =
        bk.reqSzB.toNat / f.esz - bi * 32 := by
    rw [BitVec.toNat_sub_of_le hle, hquot, hmul]
  have hblock : (BitVec.ofNat 64 mxBlockElems).toNat = 32 := rfl
  refine ⟨hle, ?_⟩
  unfold mxGroupLen
  dsimp only
  split
  · rename_i hcut
    rw [BitVec.lt_def, hleft, hblock] at hcut
    rw [hleft, min_eq_right hcut.le]
  · rename_i hfull
    rw [not_lt, BitVec.le_def, hleft, hblock] at hfull
    rw [min_eq_left hfull, mxBlockElems]

/-- Where a group of a block lies, and that it lies in the block. -/
theorem mxGroup_place (hbi : bi < (mxGroups f bk).toNat) :
    mxGroupBase f bk (BitVec.ofNat 64 bi) = bk.payload + BitVec.ofNat 64 (bi * (32 * f.esz)) ∧
      bi * (32 * f.esz) + mxGroupLen f bk (BitVec.ofNat 64 bi) * f.esz ≤ bk.reqSzB.toNat := by
  have hfirst := (lt_mxGroups_iff hf).1 hbi
  constructor
  · rw [mxGroupBase, ← Nat.mul_assoc, BitVec.ofNat_mul, BitVec.ofNat_mul]
  · rw [(mxGroupLen_eq hf (by omega)).2]
    rcases hf.esz with h | h <;> rw [h] at hfirst ⊢ <;> omega

/-- The bytes of a group, by their position in the block. -/
theorem mxGroup_dist (hbi : bi < (mxGroups f bk).toNat)
    (hx : dist (mxGroupBase f bk (BitVec.ofNat 64 bi)) x <
      mxGroupLen f bk (BitVec.ofNat 64 bi) * f.esz) :
    bi * (32 * f.esz) ≤ dist bk.payload x ∧ dist bk.payload x < (bi + 1) * (32 * f.esz) := by
  obtain ⟨hbase, hin⟩ := mxGroup_place hf hbi
  have hlt := bk.reqSzB.isLt
  have hlen := Nat.mul_le_mul_right f.esz (mxGroupLen_le f bk (BitVec.ofNat 64 bi))
  rw [hbase] at hx
  generalize 32 * f.esz = span at *
  rw [Nat.succ_mul]
  rcases dist_add_cases (i := bi * span) bk.payload x (by omega) with ⟨hle, heq⟩ | ⟨hlt', heq⟩
  · omega
  · omega

/-- The groups of a block do not overlap. -/
theorem mxGroup_disjoint (hbi : bi < (mxGroups f bk).toNat) (hbj : bj < (mxGroups f bk).toNat)
    (hne : bi ≠ bj) (hx : dist (mxGroupBase f bk (BitVec.ofNat 64 bi)) x <
      mxGroupLen f bk (BitVec.ofNat 64 bi) * f.esz) :
    mxGroupLen f bk (BitVec.ofNat 64 bj) * f.esz ≤
      dist (mxGroupBase f bk (BitVec.ofNat 64 bj)) x := by
  by_contra hno
  obtain ⟨hlo, hhi⟩ := mxGroup_dist hf hbi hx
  obtain ⟨hlo', hhi'⟩ := mxGroup_dist hf hbj (not_le.1 hno)
  have h₁ : bi < bj + 1 := Nat.lt_of_mul_lt_mul_right (lt_of_le_of_lt hlo hhi')
  have h₂ : bj < bi + 1 := Nat.lt_of_mul_lt_mul_right (lt_of_le_of_lt hlo' hhi)
  omega

end Groups

/-! ## Re-encoding after a store -/

/-- Every group of the block is a fixed point of `mx_encode_block`. -/
def MxFixed (clo : Clo) (bk : Block) (m : Mem) : Prop :=
  ∀ bi < (mxGroups (mxFormat clo) bk).toNat,
    mxEncodeBlock clo (mxFormat clo) bk (BitVec.ofNat 64 bi) m = m

theorem mxFormat_ieee (clo : Clo) : (mxFormat clo).Ieee := by
  unfold mxFormat
  split
  · exact FpFmt.fmt32_ieee
  · exact FpFmt.fmt64_ieee

section Reencode

variable {clo : Clo} {bk : Block} {m m' : Mem} {addr x : Addr} {size : HWord}

/-- The format of a run has room for the largest element exponent. -/
theorem mxEmax_le_bias (h : clo.mxEsz = 4 → clo.mxEmax ≤ 127) :
    clo.mxEmax ≤ (mxFormat clo).bias := by
  unfold mxFormat
  split
  · rename_i hesz
    exact h hesz
  · exact clo.mxEmax_range

/-- The groups that are encoded become fixed points, and the others stay what they were. -/
theorem fixed_foldl (hemax : clo.mxEsz = 4 → clo.mxEmax ≤ 127) {l : List Nat}
    (hl : ∀ b ∈ l, b < (mxGroups (mxFormat clo) bk).toNat) {bi : Nat}
    (hbi : bi < (mxGroups (mxFormat clo) bk).toNat)
    (h : bi ∈ l ∨ mxEncodeBlock clo (mxFormat clo) bk (BitVec.ofNat 64 bi) m = m) :
    mxEncodeBlock clo (mxFormat clo) bk (BitVec.ofNat 64 bi)
        (l.foldl (fun m b => mxEncodeBlock clo (mxFormat clo) bk (BitVec.ofNat 64 b) m) m) =
      l.foldl (fun m b => mxEncodeBlock clo (mxFormat clo) bk (BitVec.ofNat 64 b) m) m := by
  have hf := mxFormat_ieee clo
  induction l generalizing m with
  | nil =>
    rcases h with h | h
    · cases h
    · exact h
  | cons b l ih =>
    apply ih fun b hb => hl b (List.mem_cons_of_mem _ hb)
    by_cases hb : bi = b
    · subst hb
      exact .inr (mxEncodeBlock_idem_of_le clo hf (mxEmax_le_bias hemax))
    · rcases h with h | h
      · exact .inl ((List.mem_cons.1 h).resolve_left hb)
      · right
        rw [← mxEncodeBlock_eq_self_congr clo hf (m := m)]
        · exact h
        · intro x hx
          refine (mxEncodeBlock_frame clo hf ?_).symm
          exact mxGroup_disjoint hf hbi (hl b List.mem_cons_self) hb hx

/-- The groups that a store touches, by distances from the start of the block. -/
theorem mxTouched_eq (hpos : 0 < dist bk.payload addr + size.toNat)
    (hwrap : dist bk.payload addr + size.toNat < 2 ^ 64) :
    mxTouched (mxFormat clo) bk addr size =
      List.range' (dist bk.payload addr / (32 * (mxFormat clo).esz))
        (min ((dist bk.payload addr + size.toNat - 1) / (32 * (mxFormat clo).esz) + 1)
          (mxGroups (mxFormat clo) bk).toNat -
            dist bk.payload addr / (32 * (mxFormat clo).esz)) := by
  have hspan := mxSpan_toNat (mxFormat_ieee clo)
  have hfirst : ((addr - bk.payload) / mxSpan (mxFormat clo)).toNat =
      dist bk.payload addr / (32 * (mxFormat clo).esz) := by
    rw [BitVec.toNat_udiv, hspan]
    rfl
  have hend : (addr + size - 1#64 - bk.payload).toNat = dist bk.payload addr + size.toNat - 1 := by
    have hcomm : addr + size - 1#64 - bk.payload = (addr - bk.payload) + size - 1#64 := by ring
    have hsum : ((addr - bk.payload) + size).toNat = dist bk.payload addr + size.toNat := by
      rw [BitVec.toNat_add, Nat.mod_eq_of_lt]
      · rfl
      · exact hwrap
    rw [hcomm, BitVec.toNat_sub_of_le, hsum]
    · rfl
    · rw [BitVec.le_def, hsum]
      exact Nat.succ_le_of_lt hpos
  have hlast : ((addr + size - 1#64 - bk.payload) / mxSpan (mxFormat clo)).toNat =
      (dist bk.payload addr + size.toNat - 1) / (32 * (mxFormat clo).esz) := by
    rw [BitVec.toNat_udiv, hspan, hend]
  unfold mxTouched
  dsimp only
  rw [hfirst, hlast]

/-- The loop of `mx_after_store` runs through the groups that the store overlaps. -/
theorem mem_mxTouched {bi : Nat} (hbi : bi < (mxGroups (mxFormat clo) bk).toNat)
    (hwrap : dist bk.payload addr + size.toNat < 2 ^ 64)
    (hlo : bi * (32 * (mxFormat clo).esz) < dist bk.payload addr + size.toNat)
    (hhi : dist bk.payload addr < (bi + 1) * (32 * (mxFormat clo).esz)) :
    bi ∈ mxTouched (mxFormat clo) bk addr size := by
  have hpos : 0 < 32 * (mxFormat clo).esz := by
    rcases (mxFormat_ieee clo).esz with h | h <;> omega
  have hge : dist bk.payload addr / (32 * (mxFormat clo).esz) ≤ bi :=
    Nat.lt_succ_iff.1 ((Nat.div_lt_iff_lt_mul hpos).2 hhi)
  have hle : bi ≤ (dist bk.payload addr + size.toNat - 1) / (32 * (mxFormat clo).esz) :=
    (Nat.le_div_iff_mul_le hpos).2 (by omega)
  rw [mxTouched_eq (by omega) hwrap, List.mem_range'_1]
  omega

/-- A store inside a group touches that group only. -/
theorem mxTouched_eq_singleton {bi : Nat} (hbi : bi < (mxGroups (mxFormat clo) bk).toNat)
    (hwrap : dist bk.payload addr + size.toNat < 2 ^ 64) (hsize : 0 < size.toNat)
    (hlo : bi * (32 * (mxFormat clo).esz) ≤ dist bk.payload addr)
    (hhi : dist bk.payload addr + size.toNat ≤ (bi + 1) * (32 * (mxFormat clo).esz)) :
    mxTouched (mxFormat clo) bk addr size = [bi] := by
  have hfirst : dist bk.payload addr / (32 * (mxFormat clo).esz) = bi :=
    Nat.div_eq_of_lt_le hlo (by omega)
  have hlast : (dist bk.payload addr + size.toNat - 1) / (32 * (mxFormat clo).esz) = bi :=
    Nat.div_eq_of_lt_le (by omega) (by omega)
  rw [mxTouched_eq (by omega) hwrap, hfirst, hlast, min_eq_left hbi, Nat.add_sub_cancel_left]
  rfl

theorem lt_mxGroups_of_mem {bi : Nat} {f : FpFmt} (h : bi ∈ mxTouched f bk addr size) :
    bi < (mxGroups f bk).toNat := by
  unfold mxTouched at h
  dsimp only at h
  rw [List.mem_range'_1] at h
  omega

/-- **A store inside the block**, followed by `mx_after_store`, keeps every group of the block a
fixed point: the groups it overlaps are encoded again, and the others have not changed. -/
theorem fixed_mxReencode (hemax : clo.mxEsz = 4 → clo.mxEmax ≤ 127) (hfixed : MxFixed clo bk m)
    (hin : dist bk.payload addr + size.toNat ≤ bk.reqSzB.toNat)
    (hm : ∀ x, size.toNat ≤ dist addr x → m' x = m x) :
    MxFixed clo bk (mxReencode clo bk addr size m') := by
  have hf := mxFormat_ieee clo
  intro bi hbi
  unfold mxReencode
  apply fixed_foldl hemax (fun b hb => lt_mxGroups_of_mem hb) hbi
  by_cases htouch : bi ∈ mxTouched (mxFormat clo) bk addr size
  · exact .inl htouch
  · right
    rw [← mxEncodeBlock_eq_self_congr clo hf (m := m)]
    · exact hfixed bi hbi
    · intro x hx
      obtain ⟨hlo, hhi⟩ := mxGroup_dist hf hbi hx
      -- the group lies below or above the bytes of the store
      refine (hm x ?_).symm
      by_contra hno
      apply htouch
      have haddr := add_dist bk.payload addr
      rcases dist_add_cases bk.payload x (dist_lt bk.payload addr) with ⟨hle, heq⟩ | ⟨hlt, heq⟩
      · rw [haddr] at heq
        exact mem_mxTouched hbi (lt_of_le_of_lt hin bk.reqSzB.isLt) (by omega) (by omega)
      · rw [haddr] at heq
        have hblock := bk.reqSzB.isLt
        omega

/-- The elements of a block that holds zeros. -/
theorem mxGroup_of_zero {bi : Nat} (hbi : bi < (mxGroups (mxFormat clo) bk).toNat)
    (h : ∀ x, dist bk.payload x < bk.reqSzB.toNat → m x = 0#8) :
    ∀ v ∈ mxGroup (mxFormat clo) bk (BitVec.ofNat 64 bi) m, v = 0#64 := by
  have hf := mxFormat_ieee clo
  obtain ⟨hbase, hin⟩ := mxGroup_place hf hbi
  have hlt := bk.reqSzB.isLt
  intro v hv
  obtain ⟨i, hi, rfl⟩ := List.mem_map.1 hv
  have hmul : (i + 1) * (mxFormat clo).esz ≤ _ :=
    Nat.mul_le_mul_right (mxFormat clo).esz (List.mem_range.1 hi)
  have hload : m.loadLE (mxElemAddr (mxFormat clo)
      (mxGroupBase (mxFormat clo) bk (BitVec.ofNat 64 bi)) i) (mxFormat clo).esz =
        0 % 256 ^ (mxFormat clo).esz := by
    apply ByteMem.loadLE_of_byteAt
    intro k hk
    rw [mxElemAddr_add, hbase, BitVec.add_assoc, ← BitVec.ofNat_add]
    generalize bi * (32 * (mxFormat clo).esz) = start at *
    rw [Nat.succ_mul] at hmul
    rw [h _ (by rw [dist_add _ (by omega)]; omega), byteAt, Nat.zero_div]
  rw [mxLoad_eq hf, hload, Nat.zero_mod]

/-- A block of zeros: every group is a fixed point. -/
theorem fixed_of_zero (h : ∀ x, dist bk.payload x < bk.reqSzB.toNat → m x = 0#8) :
    MxFixed clo bk m := by
  have hf := mxFormat_ieee clo
  intro bi hbi
  have hzero := mxGroup_of_zero hbi h
  have hcode : ∀ v ∈ mxGroup (mxFormat clo) bk (BitVec.ofNat 64 bi) m,
      (mxFormat clo).code v = 0 := by
    intro v hv
    rw [hzero v hv]
    exact Nat.zero_mod _
  have hword : ∀ v ∈ mxGroup (mxFormat clo) bk (BitVec.ofNat 64 bi) m, (mxFormat clo).Word v :=
    mxGroup_word hf
  have hscan := scanOf_scanGroup hf hword
  have hany : (scanGroup (mxFormat clo) (mxGroup (mxFormat clo) bk (BitVec.ofNat 64 bi) m)).any =
      false := by
    rw [Bool.eq_false_iff, ne_eq, hscan.any]
    rintro ⟨v, hv, ha⟩
    exact ha.2 (hcode v hv)
  have hnf : (scanGroup (mxFormat clo)
      (mxGroup (mxFormat clo) bk (BitVec.ofNat 64 bi) m)).nonfinite =
      false := by
    rw [Bool.eq_false_iff, ne_eq, hscan.nonfinite]
    rintro ⟨v, hv, hfin⟩
    exact code_ne_zero_of_not_finite hf hfin (hcode v hv)
  rw [mxEncodeBlock_eq_self_iff clo hf, encodeGroup, mxElementMap_id clo hnf hany, List.map_id]

end Reencode

end Memlog
