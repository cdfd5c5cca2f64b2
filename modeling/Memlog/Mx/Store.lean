import Mathlib.Data.List.Nodup
import Memlog.Mx.Run

/-!
# What a store does to a group

A store that `mx_after_store` attributes to a marked block replaces the elements that it overlaps,
and then encodes each group that it touches once (`mxGroup_mxReencode`). `mxElem_storeInto` is the
case of a store of one element.
-/

namespace Memlog

open Lib

/-! ## Groups by position -/

/-- The element of a group at a position. -/
def mxElem (f : FpFmt) (bk : Block) (bi : Nat) (m : Mem) (i : Nat) : ULong :=
  mxLoad f m (mxElemAddr f (mxGroupBase f bk (BitVec.ofNat 64 bi)) i)

/-- The number of elements of a group of a block. -/
def mxLen (f : FpFmt) (bk : Block) (bi : Nat) : Nat := mxGroupLen f bk (BitVec.ofNat 64 bi)

/-- The element at a position after `mx_encode_block` has run on the `n` elements `g`. -/
def encodeAt (clo : Clo) (f : FpFmt) (n : Nat) (g : Nat → ULong) (i : Nat) : ULong :=
  mxElementMap clo f (scanGroup f ((List.range n).map g)) (g i)

section Positions

variable {clo : Clo} {f : FpFmt} {bk : Block} {bi n : Nat} {m m' : Mem} {g g' : Nat → ULong}

theorem mxGroup_eq_map (f : FpFmt) (bk : Block) (bi : Nat) (m : Mem) :
    mxGroup f bk (BitVec.ofNat 64 bi) m = (List.range (mxLen f bk bi)).map (mxElem f bk bi m) := rfl

theorem encodeGroup_map_range (clo : Clo) (f : FpFmt) (n : Nat) (g : Nat → ULong) :
    encodeGroup clo f ((List.range n).map g) = (List.range n).map (encodeAt clo f n g) :=
  List.map_map

theorem map_range_eq_iff : (List.range n).map g = (List.range n).map g' ↔ ∀ i < n, g i = g' i := by
  rw [List.map_inj_left]
  simp only [List.mem_range]

theorem mxGroup_eq_iff :
    mxGroup f bk (BitVec.ofNat 64 bi) m = mxGroup f bk (BitVec.ofNat 64 bi) m' ↔
    ∀ i < mxLen f bk bi, mxElem f bk bi m i = mxElem f bk bi m' i := by
  rw [mxGroup_eq_map, mxGroup_eq_map, map_range_eq_iff]

theorem encodeAt_congr (h : ∀ i < n, g i = g' i) {i : Nat} (hi : i < n) :
    encodeAt clo f n g i = encodeAt clo f n g' i := by
  rw [encodeAt, encodeAt, map_range_eq_iff.2 h, h i hi]

end Positions

/-! ## The loop of `mx_after_store` -/

section Reencode

variable {clo : Clo} {bk : Block} {bi : Nat} {m m' : Mem} {addr : Addr} {size : HWord}

/-- Encoding one group leaves the elements of another one alone. -/
theorem mxGroup_mxEncodeBlock_of_ne {bj : Nat} (hbi : bi < (mxGroups (mxFormat clo) bk).toNat)
    (hbj : bj < (mxGroups (mxFormat clo) bk).toNat) (hne : bi ≠ bj) :
    mxGroup (mxFormat clo) bk (BitVec.ofNat 64 bi)
        (mxEncodeBlock clo (mxFormat clo) bk (BitVec.ofNat 64 bj) m) =
      mxGroup (mxFormat clo) bk (BitVec.ofNat 64 bi) m := by
  have hf := mxFormat_ieee clo
  apply mxElems_congr hf (mxGroupLen_mul_le hf)
  intro x hx
  exact mxEncodeBlock_frame clo hf (mxGroup_disjoint hf hbi hbj hne hx)

/-- Only the touched groups are written. -/
theorem mxReencode_eq_self {x : Addr} (hx : ∀ bi ∈ mxTouched (mxFormat clo) bk addr size,
    mxGroupLen (mxFormat clo) bk (BitVec.ofNat 64 bi) * (mxFormat clo).esz ≤
      dist (mxGroupBase (mxFormat clo) bk (BitVec.ofNat 64 bi)) x) :
    mxReencode clo bk addr size m x = m x := by
  rw [mxReencode]
  generalize mxTouched (mxFormat clo) bk addr size = l at hx
  induction l generalizing m with
  | nil => rfl
  | cons b l ih =>
    obtain ⟨hb, hl⟩ := List.forall_mem_cons.1 hx
    rw [List.foldl_cons, ih hl, mxEncodeBlock_frame clo (mxFormat_ieee clo) hb]

/-- **Each touched group is encoded once**, and the others are left alone. -/
theorem mxGroup_mxReencode (hbi : bi < (mxGroups (mxFormat clo) bk).toNat) :
    mxGroup (mxFormat clo) bk (BitVec.ofNat 64 bi) (mxReencode clo bk addr size m) =
      if bi ∈ mxTouched (mxFormat clo) bk addr size then
        encodeGroup clo (mxFormat clo) (mxGroup (mxFormat clo) bk (BitVec.ofNat 64 bi) m)
      else mxGroup (mxFormat clo) bk (BitVec.ofNat 64 bi) m := by
  have hf := mxFormat_ieee clo
  have hlt : ∀ b ∈ mxTouched (mxFormat clo) bk addr size, b < (mxGroups (mxFormat clo) bk).toNat :=
    fun b hb => lt_mxGroups_of_mem hb
  have hnodup : (mxTouched (mxFormat clo) bk addr size).Nodup := List.nodup_range'
  rw [mxReencode]
  generalize mxTouched (mxFormat clo) bk addr size = l at hlt hnodup
  induction l generalizing m with
  | nil => rfl
  | cons b l ih =>
    obtain ⟨hb, hl⟩ := List.forall_mem_cons.1 hlt
    obtain ⟨hnot, hnodup⟩ := List.nodup_cons.1 hnodup
    rw [List.foldl_cons, ih hl hnodup]
    by_cases heq : bi = b
    · subst heq
      rw [if_neg hnot, if_pos List.mem_cons_self, mxEncodeBlock_elems clo hf]
    · rw [mxGroup_mxEncodeBlock_of_ne hbi hb heq]
      simp only [List.mem_cons, heq, false_or]

end Reencode

/-! ## Stores of one element -/

section Element

variable {f : FpFmt} {bk : Block} {bi i : Nat} {v : ULong} {m : Mem}

/-- An aligned store of one element of a group. -/
def elementStore (f : FpFmt) (bk : Block) (bi i : Nat) (v : ULong) : StoreOp where
  addr := mxElemAddr f (mxGroupBase f bk (BitVec.ofNat 64 bi)) i
  size := BitVec.ofNat 64 f.esz
  value := v.toNat

theorem size_elementStore (hf : f.Ieee) : (elementStore f bk bi i v).size.toNat = f.esz := by
  rw [elementStore, BitVec.toNat_ofNat, Nat.mod_eq_of_lt]
  rcases hf.esz with h | h <;> omega

/-- The element is replaced and the others are left alone. -/
theorem mxElem_elementStore (hf : f.Ieee) (hi : i < mxLen f bk bi) (hv : f.Word v) {j : Nat}
    (hj : j < mxLen f bk bi) :
    mxElem f bk bi (m.storeLE (elementStore f bk bi i v).addr f.esz v.toNat) j =
      Function.update (mxElem f bk bi m) i v j := by
  have hle : mxLen f bk bi * f.esz ≤ 2 ^ 64 := mxGroupLen_mul_le hf
  have hstore : m.storeLE (elementStore f bk bi i v).addr f.esz v.toNat =
      mxStore f m (mxElemAddr f (mxGroupBase f bk (BitVec.ofNat 64 bi)) i) v := (mxStore_eq hf).symm
  rw [mxElem, hstore]
  by_cases hij : i = j
  · subst hij
    rw [mxLoad_mxStore hf hv, Function.update_self]
  · have hend : ∀ {k}, k < mxLen f bk bi → (k + 1) * f.esz ≤ 2 ^ 64 :=
      fun hk => (Nat.mul_le_mul_right f.esz hk).trans hle
    rw [mxLoad_mxStore_of_ne hf hij (hend hi) (hend hj), Function.update_of_ne (Ne.symm hij)]
    rfl

/-- The bytes of a group lie in the block. -/
theorem dist_lt_of_mem_group (hf : f.Ieee) (hbi : bi < (mxGroups f bk).toNat) {x : Addr}
    (hx : dist (mxGroupBase f bk (BitVec.ofNat 64 bi)) x < mxLen f bk bi * f.esz) :
    dist bk.payload x < bk.reqSzB.toNat := by
  obtain ⟨hbase, hin⟩ := mxGroup_place hf hbi
  have hlt := bk.reqSzB.isLt
  have hin' : bi * (32 * f.esz) + mxLen f bk bi * f.esz ≤ bk.reqSzB.toNat := hin
  rw [hbase] at hx
  have hbytes := (dist_add_lt_iff bk.payload x (by omega) (by omega)).1 hx
  omega

/-- Where an element of a group lies in the block. -/
theorem dist_mxElemAddr (hf : f.Ieee) (hbi : bi < (mxGroups f bk).toNat) (hi : i < mxLen f bk bi) :
    dist bk.payload (mxElemAddr f (mxGroupBase f bk (BitVec.ofNat 64 bi)) i) =
        bi * (32 * f.esz) + i * f.esz ∧
      bi * (32 * f.esz) + i * f.esz + f.esz ≤ bk.reqSzB.toNat := by
  obtain ⟨hbase, hin⟩ := mxGroup_place hf hbi
  have hlt := bk.reqSzB.isLt
  have hend : (i + 1) * f.esz ≤ mxLen f bk bi * f.esz := Nat.mul_le_mul_right f.esz hi
  rw [Nat.succ_mul] at hend
  have hfit : bi * (32 * f.esz) + i * f.esz + f.esz ≤ bk.reqSzB.toNat :=
    le_trans (by rw [Nat.add_assoc]; exact Nat.add_le_add_left hend _) hin
  refine ⟨?_, hfit⟩
  rw [mxElemAddr, hbase, BitVec.add_assoc, ← BitVec.ofNat_add]
  have hpos := hf.esz
  exact dist_add _ (by omega)

theorem touched_elementStore {clo : Clo} (hbi : bi < (mxGroups (mxFormat clo) bk).toNat)
    (hi : i < mxLen (mxFormat clo) bk bi) (v : ULong) :
    bi ∈ mxTouched (mxFormat clo) bk (elementStore (mxFormat clo) bk bi i v).addr
      (elementStore (mxFormat clo) bk bi i v).size := by
  have hf := mxFormat_ieee clo
  have hpos : 0 < (mxFormat clo).esz := by rcases hf.esz with h | h <;> omega
  have hplace := dist_mxElemAddr hf hbi hi
  change dist bk.payload (elementStore (mxFormat clo) bk bi i v).addr = _ ∧ _ at hplace
  obtain ⟨hdist, hfit⟩ := hplace
  have hsize : (elementStore (mxFormat clo) bk bi i v).size.toNat = (mxFormat clo).esz :=
    size_elementStore hf
  have hlen : mxLen (mxFormat clo) bk bi ≤ 32 := mxGroupLen_le ..
  have hi' : i * (mxFormat clo).esz < 32 * (mxFormat clo).esz :=
    Nat.mul_lt_mul_of_pos_right (hi.trans_le hlen) hpos
  refine mem_mxTouched hbi ?_ ?_ ?_
  · rw [hsize, hdist]
    exact lt_of_le_of_lt hfit bk.reqSzB.isLt
  · rw [hsize, hdist]
    omega
  · rw [hdist, Nat.add_mul bi, Nat.one_mul]
    exact Nat.add_lt_add_left hi' _

/-- **A store of one element** replaces it and encodes the group. -/
theorem mxElem_storeInto {clo : Clo} (hbi : bi < (mxGroups (mxFormat clo) bk).toNat)
    (hi : i < mxLen (mxFormat clo) bk bi) (hv : (mxFormat clo).Word v) {j : Nat}
    (hj : j < mxLen (mxFormat clo) bk bi) :
    mxElem (mxFormat clo) bk bi (storeInto clo bk (elementStore (mxFormat clo) bk bi i v) m) j =
      encodeAt clo (mxFormat clo) (mxLen (mxFormat clo) bk bi)
        (Function.update (mxElem (mxFormat clo) bk bi m) i v) j := by
  have hf := mxFormat_ieee clo
  let stored := m.storeLE (elementStore (mxFormat clo) bk bi i v).addr (mxFormat clo).esz v.toNat
  have hinto : storeInto clo bk (elementStore (mxFormat clo) bk bi i v) m =
      mxReencode clo bk (elementStore (mxFormat clo) bk bi i v).addr
        (elementStore (mxFormat clo) bk bi i v).size stored := by
    rw [storeInto, size_elementStore hf]
    rfl
  have hgroup : mxGroup (mxFormat clo) bk (BitVec.ofNat 64 bi)
      (storeInto clo bk (elementStore (mxFormat clo) bk bi i v) m) =
        encodeGroup clo (mxFormat clo) (mxGroup (mxFormat clo) bk (BitVec.ofNat 64 bi) stored) := by
    rw [hinto, mxGroup_mxReencode hbi, if_pos (touched_elementStore hbi hi v)]
  rw [mxGroup_eq_map, mxGroup_eq_map, encodeGroup_map_range, map_range_eq_iff] at hgroup
  rw [hgroup j hj]
  exact encodeAt_congr (fun k hk => mxElem_elementStore hf hi hv hk) hj

end Element

end Memlog
