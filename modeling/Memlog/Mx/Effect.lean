import Memlog.Mx.Store
import Memlog.Tool.Lookup
import Memlog.Vex.Exec
import Memlog.Wire.Model

/-!
# The effect of `mx_after_store`

`mx_after_store` is a dirty helper: VEX relies on the memory effect that `wire_mx` declares for it.
The groups of a block are counted from its payload. The last one may be short, and bytes of an
incomplete element may follow it, which belong to it but are never encoded. For a store of up to 32
bytes that starts in a marked block, the loop runs through the groups that the store overlaps
(`mem_mxTouched_iff`), no subtraction goes below zero, and every byte that is read or written lies
in the block and in the declared range (`mxFootprint_of_contains`). The groups are then encoded and
nothing else changes (`mxEffect_mxReencode`), unless a region that starts inside the block hides the
store from `find_block_containing` (`mxAfterStore_effect_iff`).
-/

namespace Memlog

open Lib Wire

/-! ## Bytes, groups and declared effects -/

/-- A byte of a whole element of a group. -/
def ElementByte (f : FpFmt) (bk : Block) (bi : Nat) (x : Addr) : Prop :=
  ∃ i < mxLen f bk bi, dist (mxElemAddr f (mxGroupBase f bk (BitVec.ofNat 64 bi)) i) x < f.esz

/-- A byte of the store lies in the block, in the `bi`-th 32 elements from the payload. -/
def StoreOverlaps (f : FpFmt) (bk : Block) (addr : Addr) (size : HWord) (bi : Nat) : Prop :=
  ∃ x, dist addr x < size.toNat ∧ bk.Contains x ∧ dist bk.payload x / (32 * f.esz) = bi

/-- A byte that a dirty call declares as modified. -/
def Declares (M : Vex.Machine) (s : Vex.GState) (d : Vex.IRDirty) (x : Addr) : Prop :=
  d.mFx = .modify ∧ ∃ e, d.mAddr = some e ∧ dist (Vex.evalAddr M s e) x < d.mSize.toNat

/-- The groups that the store overlaps are encoded, and nothing else changes. -/
structure MxEffect (clo : Clo) (bk : Block) (addr : Addr) (size : HWord) (m m' : Mem) : Prop where
  encoded : ∀ bi, StoreOverlaps (mxFormat clo) bk addr size bi →
    mxGroup (mxFormat clo) bk (BitVec.ofNat 64 bi) m' =
      mxGroup (mxFormat clo) bk (BitVec.ofNat 64 bi)
        (mxEncodeBlock clo (mxFormat clo) bk (BitVec.ofNat 64 bi) m)
  frame : ∀ x, m' x ≠ m x →
    ∃ bi, StoreOverlaps (mxFormat clo) bk addr size bi ∧ ElementByte (mxFormat clo) bk bi x

/-- The arithmetic of `mx_after_store` and the bytes that it reads and writes. -/
structure MxFootprint (clo : Clo) (bk : Block) (addr : Addr) (size : HWord) : Prop where
  /-- `addr - bk->payload` -/
  first : bk.payload ≤ addr
  /-- `addr + size - 1 - bk->payload` -/
  last : 1#64 ≤ addr + size ∧ bk.payload ≤ addr + size - 1#64
  /-- `(bk->req_szB / f->esz) - bi * MX_BLOCK_ELEMS` -/
  left : ∀ bi ∈ mxTouched (mxFormat clo) bk addr size,
    BitVec.ofNat 64 bi * BitVec.ofNat 64 mxBlockElems ≤
      bk.reqSzB / BitVec.ofNat 64 (mxFormat clo).esz
  /-- The elements that are loaded and stored lie in the block and in the declared range. -/
  bytes : ∀ bi ∈ mxTouched (mxFormat clo) bk addr size, ∀ x, ElementByte (mxFormat clo) bk bi x →
    bk.Contains x ∧ ∀ (fn : Helpers) (M : Vex.Machine) (s : Vex.GState)
      (addrTmp loTmp : Vex.IRTemp), s.temps addrTmp = addr.toNat →
      s.temps loTmp = Vex.evalExpr M s (.binop .sub64 (.rdTmp addrTmp) (.const (.u64 256))) →
        Declares M s (mxAfterStoreDirty fn addrTmp loTmp size.toNat) x
  /-- No other byte of memory is read. -/
  reads : ∀ m m' : Mem, (∀ bi ∈ mxTouched (mxFormat clo) bk addr size, ∀ x,
      ElementByte (mxFormat clo) bk bi x → m x = m' x) →
    ∀ bi ∈ mxTouched (mxFormat clo) bk addr size, ∀ x, ElementByte (mxFormat clo) bk bi x →
      mxReencode clo bk addr size m x = mxReencode clo bk addr size m' x

section Bytes

variable {f : FpFmt} {bk : Block} {bi : Nat} {x : Addr} {m m' : Mem} {a : Addr}

/-- The elements of a group follow each other. -/
theorem elementByte_iff (hf : f.Ieee) : ElementByte f bk bi x ↔
    dist (mxGroupBase f bk (BitVec.ofNat 64 bi)) x < mxLen f bk bi * f.esz := by
  have hpos : 0 < f.esz := by rcases hf.esz with h | h <;> omega
  have hle : mxLen f bk bi * f.esz ≤ 2 ^ 64 := mxGroupLen_mul_le hf
  generalize hbase : mxGroupBase f bk (BitVec.ofNat 64 bi) = base
  have hplace : ∀ {i}, i < mxLen f bk bi → (dist (mxElemAddr f base i) x < f.esz ↔
      i * f.esz ≤ dist base x ∧ dist base x < i * f.esz + f.esz) ∧
        i * f.esz + f.esz ≤ mxLen f bk bi * f.esz := by
    intro i hi
    have hend : (i + 1) * f.esz ≤ mxLen f bk bi * f.esz := Nat.mul_le_mul_right _ hi
    rw [Nat.succ_mul] at hend
    exact ⟨dist_add_lt_iff base x (by omega) (by omega), hend⟩
  constructor
  · rintro ⟨i, hi, hx⟩
    rw [hbase] at hx
    obtain ⟨hiff, hend⟩ := hplace hi
    have hbytes := hiff.1 hx
    omega
  · intro hx
    have hi : dist base x / f.esz < mxLen f bk bi := (Nat.div_lt_iff_lt_mul hpos).2 hx
    refine ⟨_, hi, ?_⟩
    rw [hbase]
    exact (hplace hi).1.2 ⟨Nat.div_mul_le_self .., Nat.lt_div_mul_add hpos⟩

/-- An element determines its bytes. -/
theorem eq_of_mxLoad_eq (hf : f.Ieee) (h : mxLoad f m a = mxLoad f m' a)
    (hx : dist a x < f.esz) : m x = m' x := by
  have hlt : ∀ m : Mem, m.loadLE a f.esz < 2 ^ 64 := by
    intro m
    have hload := ByteMem.loadLE_lt m a f.esz
    have hpow : 256 ^ f.esz ≤ 256 ^ 8 := Nat.pow_le_pow_right (by omega) (by
      rcases hf.esz with h | h <;> omega)
    omega
  rw [mxLoad_eq hf, mxLoad_eq hf] at h
  have hnat := congrArg BitVec.toNat h
  rw [BitVec.toNat_ofNat, BitVec.toNat_ofNat, Nat.mod_eq_of_lt (hlt m), Nat.mod_eq_of_lt (hlt m')]
    at hnat
  rw [← add_dist a x, ← ByteMem.byteAt_loadLE m a hx, ← ByteMem.byteAt_loadLE m' a hx, hnat]

/-- Groups with equal elements have equal bytes. -/
theorem eq_of_mxGroup_eq (hf : f.Ieee) (hx : ElementByte f bk bi x)
    (h : mxGroup f bk (BitVec.ofNat 64 bi) m = mxGroup f bk (BitVec.ofNat 64 bi) m') :
    m x = m' x := by
  obtain ⟨i, hi, hx⟩ := hx
  exact eq_of_mxLoad_eq hf (mxGroup_eq_iff.1 h i hi) hx

/-- The bytes around a store, from 256 bytes below its start. -/
theorem dist_sub_lt {b addr : Addr} {k : Nat} (hlo : dist b addr < dist b x + 256)
    (hhi : dist b x < dist b addr + k + 256) (hk : k ≤ 32) :
    dist (addr - 256#64) x < 512 + k := by
  have hsum : BitVec.ofNat 64 (dist b x + 256 - dist b addr) + BitVec.ofNat 64 (dist b addr) =
      BitVec.ofNat 64 (dist b x) + 256#64 := by
    rw [← BitVec.ofNat_add, Nat.sub_add_cancel hlo.le, BitVec.ofNat_add]
  have hx : x = addr - 256#64 + BitVec.ofNat 64 (dist b x + 256 - dist b addr) := by
    rw [eq_sub_of_add_eq hsum]
    calc x = b + BitVec.ofNat 64 (dist b x) := (add_dist b x).symm
      _ = b + BitVec.ofNat 64 (dist b addr) - 256#64 +
          (BitVec.ofNat 64 (dist b x) + 256#64 - BitVec.ofNat 64 (dist b addr)) := by ring
      _ = _ := by rw [add_dist b addr]
  rw [hx, dist_add _ (by omega)]
  omega

/-- The range that `wire_mx` declares. -/
theorem declares_iff (fn : Helpers) (M : Vex.Machine) {s : Vex.GState} {addrTmp loTmp : Vex.IRTemp}
    {addr : Addr} (size : Nat) (haddr : s.temps addrTmp = addr.toNat)
    (hlo : s.temps loTmp = Vex.evalExpr M s (.binop .sub64 (.rdTmp addrTmp) (.const (.u64 256)))) :
    Declares M s (mxAfterStoreDirty fn addrTmp loTmp size) x ↔
      dist (addr - 256#64) x < 512 + size := by
  have hrange : Vex.evalAddr M s (.rdTmp loTmp) = addr - 256#64 := by
    have hval : Vex.evalExpr M s (.binop .sub64 (.rdTmp addrTmp) (.const (.u64 256))) =
        (addr.toNat + (2 ^ 64 - 256)) % 2 ^ 64 := by
      simp only [Vex.evalExpr, Vex.evalOp, haddr]
      rfl
    apply BitVec.eq_of_toNat_eq
    rw [Vex.evalAddr, Vex.evalExpr, hlo, hval, BitVec.toNat_sub, BitVec.toNat_ofNat, Nat.mod_mod,
      Nat.add_comm]
    rfl
  have hsize : (512 + (size : Int)).toNat = 512 + size := by omega
  constructor
  · rintro ⟨-, e, he, hx⟩
    cases he
    rwa [hrange, mxAfterStoreDirty, hsize] at hx
  · intro hx
    refine ⟨rfl, _, rfl, ?_⟩
    rwa [hrange, mxAfterStoreDirty, hsize]

end Bytes

/-! ## A store that starts in the block -/

section Store

variable {clo : Clo} {bk : Block} {bi : Nat} {addr : Addr} {size : HWord}
  (hin : bk.Contains addr) (hpos : 1 ≤ size.toNat) (hend : addr.toNat + size.toNat < 2 ^ 64)

include hin hpos hend

/-- The bytes of the store, by their distance from the payload. -/
theorem dist_store_lt_iff (x : Addr) : dist addr x < size.toNat ↔
    dist bk.payload addr ≤ dist bk.payload x ∧
      dist bk.payload x < dist bk.payload addr + size.toNat := by
  obtain ⟨haddr, -⟩ := hin.dist_eq
  have hiff := dist_add_lt_iff bk.payload x (i := dist bk.payload addr) (j := size.toNat)
    (by omega) (by omega)
  rwa [add_dist] at hiff

/-- **The loop runs through the groups that the store overlaps** and that have a whole element. -/
theorem mem_mxTouched_iff (hwrap : bk.payload.toNat + bk.reqSzB.toNat < 2 ^ 64) :
    bi ∈ mxTouched (mxFormat clo) bk addr size ↔
      bi < (mxGroups (mxFormat clo) bk).toNat ∧ StoreOverlaps (mxFormat clo) bk addr size bi := by
  have hf := mxFormat_ieee clo
  have hspan : 0 < 32 * (mxFormat clo).esz := by rcases hf.esz with h | h <;> omega
  obtain ⟨haddr, hlt⟩ := hin.dist_eq
  have hstore := dist_store_lt_iff hin hpos hend
  constructor
  · intro h
    have hbi := lt_mxGroups_of_mem h
    have hfirst := (lt_mxGroups_iff hf).1 hbi
    refine ⟨hbi, ?_⟩
    rw [mxTouched_eq (by omega) (by omega), List.mem_range'_1] at h
    have hlo : dist bk.payload addr < (bi + 1) * (32 * (mxFormat clo).esz) :=
      (Nat.div_lt_iff_lt_mul hspan).1 (by omega)
    have hhi : bi * (32 * (mxFormat clo).esz) ≤ dist bk.payload addr + size.toNat - 1 :=
      (Nat.le_div_iff_mul_le hspan).1 (by omega)
    rw [Nat.succ_mul] at hlo
    -- the first byte of the store or of the group, whichever comes later
    let off := max (dist bk.payload addr) (bi * (32 * (mxFormat clo).esz))
    have hoff : off < bk.reqSzB.toNat := by
      rcases hf.esz with h | h <;> omega
    have hdist : dist bk.payload (bk.payload + BitVec.ofNat 64 off) = off := dist_add _ (by omega)
    refine ⟨bk.payload + BitVec.ofNat 64 off, (hstore _).2 ?_, contains_of_dist hwrap ?_, ?_⟩
    · rw [hdist]
      omega
    · rw [hdist]
      exact hoff
    · rw [hdist]
      refine Nat.div_eq_of_lt_le (by omega) ?_
      rw [Nat.succ_mul]
      omega
  · rintro ⟨hbi, x, hx, -, rfl⟩
    obtain ⟨hlo, hhi⟩ := (hstore x).1 hx
    refine mem_mxTouched hbi (by omega) (lt_of_le_of_lt (Nat.div_mul_le_self ..) hhi) ?_
    rw [Nat.mul_comm]
    exact lt_of_le_of_lt hlo (Nat.lt_mul_div_succ _ hspan)

omit hin hpos hend in
/-- An overlapped group that is not encoded has no whole element. -/
theorem mxLen_eq_zero {f : FpFmt} (hf : f.Ieee) (hbi : ¬ bi < (mxGroups f bk).toNat)
    (h : StoreOverlaps f bk addr size bi) : mxLen f bk bi = 0 := by
  obtain ⟨x, -, hx, rfl⟩ := h
  obtain ⟨-, hlt⟩ := hx.dist_eq
  have hle := Nat.div_mul_le_self (dist bk.payload x) (32 * f.esz)
  rw [lt_mxGroups_iff hf] at hbi
  rw [mxLen, (mxGroupLen_eq hf (by omega)).2]
  generalize dist bk.payload x / (32 * f.esz) = bi at *
  rcases hf.esz with h | h <;> rw [h] at hbi ⊢ <;> omega

/-- **What encoding the touched groups does to memory.** -/
theorem mxEffect_mxReencode (hwrap : bk.payload.toNat + bk.reqSzB.toNat < 2 ^ 64) (m : Mem) :
    MxEffect clo bk addr size m (mxReencode clo bk addr size m) := by
  have hf := mxFormat_ieee clo
  have htouched : ∀ bi, bi ∈ mxTouched (mxFormat clo) bk addr size ↔ _ :=
    fun bi => mem_mxTouched_iff hin hpos hend hwrap
  constructor
  · intro bi hover
    by_cases hbi : bi < (mxGroups (mxFormat clo) bk).toNat
    · rw [mxGroup_mxReencode hbi, if_pos ((htouched bi).2 ⟨hbi, hover⟩), mxEncodeBlock_elems clo hf]
    · have hnil : ∀ m, mxGroup (mxFormat clo) bk (BitVec.ofNat 64 bi) m = [] := by
        intro m
        rw [mxGroup_eq_map, mxLen_eq_zero hf hbi hover]
        rfl
      rw [hnil, hnil]
  · intro x hne
    by_contra hno
    refine hne (mxReencode_eq_self fun bi hbi => ?_)
    by_contra hlt
    exact hno ⟨bi, ((htouched bi).1 hbi).2, (elementByte_iff hf).2 (not_le.1 hlt)⟩

/-- **The footprint** of `mx_after_store`, for a store of at most 32 bytes. -/
theorem mxFootprint_of_contains (hwrap : bk.payload.toNat + bk.reqSzB.toNat < 2 ^ 64)
    (hsize : size.toNat ≤ 32) : MxFootprint clo bk addr size := by
  have hf := mxFormat_ieee clo
  have hplace : ∀ bi ∈ mxTouched (mxFormat clo) bk addr size,
      bi < (mxGroups (mxFormat clo) bk).toNat := fun bi hbi => lt_mxGroups_of_mem hbi
  have hsum : (addr + size).toNat = addr.toNat + size.toNat := by
    rw [BitVec.toNat_add, Nat.mod_eq_of_lt hend]
  have hone : 1#64 ≤ addr + size := by
    rw [BitVec.le_def, hsum]
    exact le_trans hpos (Nat.le_add_left ..)
  have hle := hin.1
  refine ⟨hle, ⟨hone, ?_⟩, ?_, ?_, ?_⟩
  · rw [BitVec.le_def] at hle ⊢
    rw [BitVec.toNat_sub_of_le hone, hsum, BitVec.toNat_ofNat]
    omega
  · intro bi hbi
    have hfirst := (lt_mxGroups_iff hf).1 (hplace bi hbi)
    exact (mxGroupLen_eq hf (by omega)).1
  · intro bi hbi x hx
    rw [elementByte_iff hf] at hx
    refine ⟨contains_of_dist hwrap (dist_lt_of_mem_group hf (hplace bi hbi) hx), ?_⟩
    intro fn M s addrTmp loTmp haddr hlo
    rw [declares_iff fn M size.toNat haddr hlo]
    -- the group has a byte of the store, and at most 256 bytes
    obtain ⟨hglo, hghi⟩ := mxGroup_dist hf (hplace bi hbi) hx
    obtain ⟨-, y, hy, -, hgroup⟩ := (mem_mxTouched_iff hin hpos hend hwrap).1 hbi
    obtain ⟨hylo, hyhi⟩ := (dist_store_lt_iff hin hpos hend y).1 hy
    have hspan : 0 < 32 * (mxFormat clo).esz ∧ 32 * (mxFormat clo).esz ≤ 256 := by
      rcases hf.esz with h | h <;> omega
    have hyle : bi * (32 * (mxFormat clo).esz) ≤ dist bk.payload y :=
      hgroup ▸ Nat.div_mul_le_self ..
    have hylt : dist bk.payload y < (bi + 1) * (32 * (mxFormat clo).esz) :=
      (Nat.div_lt_iff_lt_mul hspan.1).1 (by omega)
    rw [Nat.succ_mul] at hghi hylt
    exact dist_sub_lt (b := bk.payload) (by omega) (by omega) hsize
  · intro m m' hag bi hbi x hx
    have hgroup : mxGroup (mxFormat clo) bk (BitVec.ofNat 64 bi) m =
        mxGroup (mxFormat clo) bk (BitVec.ofNat 64 bi) m' :=
      mxElems_congr hf (mxGroupLen_mul_le hf) fun x hx => hag bi hbi x ((elementByte_iff hf).2 hx)
    apply eq_of_mxGroup_eq hf hx
    rw [mxGroup_mxReencode (hplace bi hbi), mxGroup_mxReencode (hplace bi hbi), hgroup]

end Store

/-! ## `mx_after_store` -/

/-- **The effect of `mx_after_store`.** For every run of the tool, every marked block and every
store of 1 to 32 bytes that starts in it, whatever memory holds after the store: the arithmetic does
not go below zero and the bytes of the groups in question lie in the block and in the range that
`wire_mx` declares. The call encodes the groups that the store overlaps and changes nothing else if
and only if no tracked region starts between the start of the block and the store, or these groups
are fixed points already. -/
theorem mxAfterStore_effect_iff (su : Setup) {m : Mem} {acts : List Action} {t : Tool}
    (hrun : Run su (.init m) acts t) {bs : List Block} (htracks : Tracks t.trackedBlocks bs)
    {bk : Block} (hbk : bk ∈ bs) (hmx : bk.mx) {addr : Addr} {size : HWord} (hin : bk.Contains addr)
    (hsize : 1 ≤ size.toNat ∧ size.toNat ≤ 32) (hend : addr.toNat + size.toNat < 2 ^ 64)
    (stored : Mem) :
    MxFootprint su.clo bk addr size ∧
      ∃ m', mxAfterStore su addr size { t with mem := stored } = some ((), { t with mem := m' }) ∧
        (MxEffect su.clo bk addr size stored m' ↔ bk.Unhidden addr bs ∨
          ∀ bi, StoreOverlaps (mxFormat su.clo) bk addr size bi →
            mxEncodeBlock su.clo (mxFormat su.clo) bk (BitVec.ofNat 64 bi) stored = stored) := by
  have hf := mxFormat_ieee su.clo
  have hinit := Refines.init su m
  have h : Refines su { t with mem := stored } _ := (hrun.refines hinit).congr rfl rfl rfl
  have howned := hrun.owned hinit .init
  obtain rfl := h.tracks.unique htracks
  have hwrap := (howned.marked hbk hmx).1
  refine ⟨mxFootprint_of_contains hin hsize.1 hend hwrap hsize.2, ?_⟩
  by_cases hfree : bk.Unhidden addr (Registry.init.run acts).blocks
  · have hfound := lookupBlock_of_contains h.tracks.sorted hbk hwrap hin hfree
    refine ⟨_, mxAfterStore_of_finds (h.finds hfound) hmx, ?_⟩
    exact iff_of_true (mxEffect_mxReencode hin hsize.1 hend hwrap stored) (.inl hfree)
  · refine ⟨stored, mxAfterStore_of_unmarked h fun b hb => ?_, ?_⟩
    · exact unmarked_of_hidden h howned hbk hmx hin hfree hb
    · -- nothing is done, which is right for fixed points only
      constructor
      · intro heffect
        refine .inr fun bi hover => ?_
        rw [mxEncodeBlock_eq_self_iff su.clo hf, ← mxEncodeBlock_elems su.clo hf]
        exact (heffect.encoded bi hover).symm
      · intro hor
        have hfixed := hor.resolve_left hfree
        refine ⟨fun bi hover => ?_, fun x hne => absurd rfl hne⟩
        rw [hfixed bi hover]

theorem storeOverlaps_second : StoreOverlaps fmt64 fourDoubles 0x10008#64 8#64 0 :=
  ⟨0x10008#64, by decide, by decide, by decide⟩

/-- The store is followed by an encoding. -/
theorem mxAfterStore_effect_iff_second :
    ∃ acts t m', Run markAll (.init fun _ => 0#8) acts t ∧
      mxAfterStore markAll 0x10008#64 8#64 { t with mem := secondStored } =
        some ((), { t with mem := m' }) ∧
      MxEffect markAll.clo fourDoubles 0x10008#64 8#64 secondStored m' := by
  obtain ⟨t, hrun, h, -⟩ := exists_run (Refines.init markAll fun _ => 0#8) [callocDoubles]
  have hblocks : (Registry.init.run (callActions markAll [] [callocDoubles])).blocks =
      [fourDoubles] := by decide
  have htracks : Tracks t.trackedBlocks [fourDoubles] := hblocks ▸ h.tracks
  obtain ⟨-, m', hafter, hiff⟩ := mxAfterStore_effect_iff markAll hrun htracks
    (List.mem_singleton.2 rfl) rfl (by decide : fourDoubles.Contains 0x10008#64)
    (by decide : 1 ≤ (8#64).toNat ∧ (8#64).toNat ≤ 32) (by decide) secondStored
  exact ⟨_, t, m', hrun, hafter, hiff.2 (.inl (by decide))⟩

/-- The region hides the store: the double stays `1.1`, which `mx_encode_block` would change. -/
theorem mxAfterStore_no_effect :
    ∃ acts t bs m', Run markAll (.init fun _ => 0#8) acts t ∧ Tracks t.trackedBlocks bs ∧
      fourDoubles ∈ bs ∧ fourDoubles.mx ∧ fourDoubles.Contains 0x10008#64 ∧
      mxAfterStore markAll 0x10008#64 8#64 { t with mem := secondStored } =
        some ((), { t with mem := m' }) ∧
      ¬ MxEffect markAll.clo fourDoubles 0x10008#64 8#64 secondStored m' := by
  obtain ⟨t, hrun, h, -⟩ := exists_run (Refines.init markAll fun _ => 0#8)
    [callocDoubles, trackSecond]
  have hblocks : (Registry.init.run (callActions markAll [] [callocDoubles, trackSecond])).blocks =
      [fourDoubles, ⟨0x10008#64, 8#64, [], false⟩] := by decide
  have hfound : lookupBlock 0x10008#64
      (Registry.init.run (callActions markAll [] [callocDoubles, trackSecond])).blocks =
        some ⟨0x10008#64, 8#64, [], false⟩ := by
    rw [hblocks]
    decide
  have hstored : Refines markAll { t with mem := secondStored } _ := h.congr rfl rfl rfl
  refine ⟨_, t, _, secondStored, hrun, hblocks ▸ h.tracks, List.mem_cons_self, rfl, by decide, ?_,
    ?_⟩
  · refine mxAfterStore_of_unmarked hstored fun b hb => ?_
    cases hfound.symm.trans hb
    rfl
  · intro heffect
    have hgroup : mxGroup fmt64 fourDoubles 0#64 secondStored = mxGroup fmt64 fourDoubles 0#64
        (mxEncodeBlock markAll.clo fmt64 fourDoubles 0#64 secondStored) :=
      heffect.encoded 0 storeOverlaps_second
    exact absurd hgroup (by decide)

end Memlog
