import Memlog.Mx.Store

/-!
# A group of NaN stays NaN

An instrumented store of at most 32 bytes overlaps at most nine elements, so it leaves a NaN in a
group of ten or more, and the encoding that follows it turns the whole group into NaN again. This
needs the store to be attributed to the block, which the tool decides by the address of the store
alone (`nan_group_permanent`): a store that starts before the block, or that another region hides,
is not followed by an encoding (`nan_group_overwritten`).
-/

namespace Memlog

open Lib

/-! ## Stores and groups -/

/-- Every element of the group is the quiet NaN of `mx_nan_element`. -/
def NanGroup (f : FpFmt) (bk : Block) (bi : Nat) (m : Mem) : Prop :=
  ∀ v ∈ mxGroup f bk (BitVec.ofNat 64 bi) m, v = mxNanElement f

/-- The store writes a byte of the group. -/
def StoreOp.Overlaps (st : StoreOp) (f : FpFmt) (bk : Block) (bi : Nat) : Prop :=
  ∃ x, dist st.addr x < st.size.toNat ∧
    dist (mxGroupBase f bk (BitVec.ofNat 64 bi)) x < mxLen f bk bi * f.esz

/-- The store starts inside the block, and no other tracked block starts between the start of the
block and the store. -/
def StoreOp.StartsIn (st : StoreOp) (bk : Block) (bs : List Block) : Prop :=
  dist bk.payload st.addr < bk.reqSzB.toNat ∧ st.Unhidden bk bs

section Group

variable {f : FpFmt} (hf : f.Ieee) {bk : Block} {bi : Nat} {m m' : Mem} {st : StoreOp}
include hf

theorem nanGroup_congr (h : ∀ x, dist (mxGroupBase f bk (BitVec.ofNat 64 bi)) x <
    mxLen f bk bi * f.esz → m x = m' x) : NanGroup f bk bi m ↔ NanGroup f bk bi m' := by
  have hgroup : mxGroup f bk (BitVec.ofNat 64 bi) m = mxGroup f bk (BitVec.ofNat 64 bi) m' :=
    mxElems_congr hf (mxGroupLen_mul_le hf) h
  rw [NanGroup, NanGroup, hgroup]

/-- A store that writes no byte of the group. -/
theorem nanGroup_storeLE_of_not_overlaps (h : NanGroup f bk bi m) (hno : ¬st.Overlaps f bk bi) :
    NanGroup f bk bi (m.storeLE st.addr st.size.toNat st.value) := by
  refine (nanGroup_congr hf fun x hx => ?_).2 h
  refine ByteMem.storeLE_of_le ?_
  by_contra hlt
  exact hno ⟨x, not_le.1 hlt, hx⟩

/-- Encoding a group that holds a NaN. -/
theorem nanGroup_encodeGroup (clo : Clo)
    (h : ∃ v ∈ mxGroup f bk (BitVec.ofNat 64 bi) m, ¬f.Finite v) :
    ∀ v ∈ encodeGroup clo f (mxGroup f bk (BitVec.ofNat 64 bi) m), v = mxNanElement f := by
  rw [encodeGroup_of_not_finite hf clo (mxGroup_word hf) h]
  exact List.forall_mem_map.2 fun _ _ => rfl

/-- **A store of at most 32 bytes misses an element** of a group of ten: the tenth if the store
starts in or reaches into the first, and the first otherwise. -/
theorem exists_untouched (hten : 10 ≤ mxLen f bk bi) (hsize : st.size.toNat ≤ 32) :
    ∃ i < mxLen f bk bi, ∀ k < f.esz, st.size.toNat ≤ dist st.addr
      (mxElemAddr f (mxGroupBase f bk (BitVec.ofNat 64 bi)) i + BitVec.ofNat 64 k) := by
  have hlen : mxLen f bk bi ≤ 32 := mxGroupLen_le ..
  generalize mxGroupBase f bk (BitVec.ofNat 64 bi) = base
  have hesz := hf.esz
  have hstart := add_dist base st.addr
  have hlt := dist_lt base st.addr
  -- a byte of an element, seen from the store
  have hbyte : ∀ i < 10, ∀ k < f.esz,
      (dist base st.addr ≤ i * f.esz + k ∧
        dist st.addr (mxElemAddr f base i + BitVec.ofNat 64 k) =
          i * f.esz + k - dist base st.addr) ∨
      (i * f.esz + k < dist base st.addr ∧
        dist st.addr (mxElemAddr f base i + BitVec.ofNat 64 k) =
          2 ^ 64 - (dist base st.addr - (i * f.esz + k))) := by
    intro i hi k hk
    have hmul : i * f.esz ≤ 9 * 8 := Nat.mul_le_mul (by omega) (by omega)
    have hdist : dist base (mxElemAddr f base i + BitVec.ofNat 64 k) = i * f.esz + k := by
      rw [mxElemAddr_add, dist_add _ (by omega)]
    have hcases := dist_add_cases base (mxElemAddr f base i + BitVec.ofNat 64 k) hlt
    rwa [hstart, hdist] at hcases
  by_cases hfirst : f.esz ≤ dist base st.addr ∧ dist base st.addr + 32 ≤ 2 ^ 64
  · refine ⟨0, by omega, fun k hk => ?_⟩
    rcases hbyte 0 (by omega) k hk with ⟨hle, heq⟩ | ⟨hlt', heq⟩ <;> omega
  · refine ⟨9, by omega, fun k hk => ?_⟩
    rcases hbyte 9 (by omega) k hk with ⟨hle, heq⟩ | ⟨hlt', heq⟩ <;> omega

/-- The NaN that a store of at most 32 bytes leaves. -/
theorem exists_nan_storeLE (h : NanGroup f bk bi m) (hten : 10 ≤ mxLen f bk bi)
    (hsize : st.size.toNat ≤ 32) : ∃ v ∈ mxGroup f bk (BitVec.ofNat 64 bi)
      (m.storeLE st.addr st.size.toNat st.value), ¬f.Finite v := by
  obtain ⟨i, hi, hmiss⟩ := exists_untouched hf hten hsize
  refine ⟨_, List.mem_map_of_mem (List.mem_range.2 hi), ?_⟩
  have hload : mxLoad f (m.storeLE st.addr st.size.toNat st.value)
      (mxElemAddr f (mxGroupBase f bk (BitVec.ofNat 64 bi)) i) = mxNanElement f := by
    rw [mxLoad_congr hf fun k hk => ByteMem.storeLE_of_le (hmiss k hk)]
    exact h _ (List.mem_map_of_mem (List.mem_range.2 hi))
  rw [hload]
  exact (mxNanElement_word hf).2

end Group

/-! ## One store -/

section Step

variable {su : Setup} {t : Tool} {r : Registry} {bk : Block} {bi : Nat} {st : StoreOp}

/-- Encoding the groups of a block writes into the block only. -/
theorem mxReencode_frame {clo : Clo} {addr x : Addr} {size : HWord} {m : Mem}
    (hx : bk.reqSzB.toNat ≤ dist bk.payload x) : mxReencode clo bk addr size m x = m x := by
  refine mxReencode_eq_self fun bi hbi => ?_
  by_contra hin
  exact absurd (dist_lt_of_mem_group (mxFormat_ieee clo) (lt_mxGroups_of_mem hbi) (not_le.1 hin))
    (not_lt.2 hx)

/-- A store that starts in the block is attributed to it. -/
theorem StoreOp.StartsIn.lookup {bs : List Block} (hsorted : SortedBy Block.payload bs)
    (hbk : bk ∈ bs) (hwrap : bk.payload.toNat + bk.reqSzB.toNat < 2 ^ 64) (h : st.StartsIn bk bs) :
    lookupBlock st.addr bs = some bk := by
  exact lookupBlock_of_contains hsorted hbk hwrap (contains_of_dist hwrap h.1) h.2

/-- A store that starts in the block and writes a byte of a group touches the group. -/
theorem touched_of_overlaps {clo : Clo} (hbi : bi < (mxGroups (mxFormat clo) bk).toNat)
    (hsmall : bk.reqSzB.toNat < 2 ^ 63) (hsize : st.size.toNat ≤ 32)
    (hin : dist bk.payload st.addr < bk.reqSzB.toNat) (h : st.Overlaps (mxFormat clo) bk bi) :
    bi ∈ mxTouched (mxFormat clo) bk st.addr st.size := by
  have hf := mxFormat_ieee clo
  obtain ⟨x, hx, hgroup⟩ := h
  obtain ⟨hlo, hhi⟩ := mxGroup_dist hf hbi hgroup
  rw [← add_dist bk.payload st.addr] at hx
  have hbytes := (dist_add_lt_iff bk.payload x (by omega) (by omega)).1 hx
  exact mem_mxTouched hbi (by omega) (by omega) (by omega)

/-- **One store** leaves a group of NaN as it is, if it is attributed to the block whenever it
writes a byte of the group. -/
theorem wiredStore_nanGroup (h : Refines su t r) (howned : Owned t.heap r.blocks)
    (hbk : bk ∈ r.blocks) (hmx : bk.mx) (hbi : bi < (mxGroups (mxFormat su.clo) bk).toNat)
    (hten : 10 ≤ mxLen (mxFormat su.clo) bk bi) (hnan : NanGroup (mxFormat su.clo) bk bi t.mem)
    (hsize : st.size.toNat ≤ 32)
    (hin : st.Overlaps (mxFormat su.clo) bk bi → st.StartsIn bk r.blocks) :
    ∃ t', wiredStore su st t = some ((), t') ∧ Refines su t' r ∧ Owned t'.heap r.blocks ∧
      NanGroup (mxFormat su.clo) bk bi t'.mem := by
  have hf := mxFormat_ieee su.clo
  obtain ⟨hwrap, hsmall⟩ := howned.marked hbk hmx
  have hwritten : ¬st.Overlaps (mxFormat su.clo) bk bi →
      NanGroup (mxFormat su.clo) bk bi (t.mem.storeLE st.addr st.size.toNat st.value) :=
    nanGroup_storeLE_of_not_overlaps hf hnan
  rcases wiredStore_cases h st with ⟨bk', hbk', hmx', hfound, hrun⟩ | hrun
  · refine ⟨_, hrun, h.congr rfl rfl rfl, howned, ?_⟩
    by_cases hsame : bk'.payload = bk.payload
    · -- the store is attributed to the block: the group is encoded, or not touched
      obtain rfl : bk' = bk := h.tracks.sorted.eq_of_key hbk' hbk hsame
      rw [NanGroup, storeInto, mxGroup_mxReencode hbi]
      split
      · exact nanGroup_encodeGroup hf su.clo (exists_nan_storeLE hf hnan hten hsize)
      · rename_i hmiss
        refine hwritten fun hover => hmiss ?_
        exact touched_of_overlaps hbi hsmall hsize (hin hover).1 hover
    · -- another marked block is encoded, which does not meet this one
      have hno : ¬st.Overlaps (mxFormat su.clo) bk bi := by
        intro hover
        rw [(hin hover).lookup h.tracks.sorted hbk hwrap] at hfound
        exact hsame (congrArg Block.payload (Option.some.inj hfound)).symm
      refine (nanGroup_congr hf fun x hx => ?_).2 (hwritten hno)
      refine mxReencode_frame ?_
      have hinside := dist_lt_of_mem_group hf hbi hx
      have hx' : x.toNat = bk.payload.toNat + dist bk.payload x := toNat_of_dist (by omega)
      obtain ⟨hwrap', -⟩ := howned.marked hbk' hmx'
      by_contra hlt
      have hx'' : x.toNat = bk'.payload.toNat + dist bk'.payload x := toNat_of_dist (by omega)
      rcases howned.marked_apart hbk' hmx' hbk hmx hsame with hapart | hapart <;> omega
  · refine ⟨_, hrun, h.congr rfl rfl rfl, howned, ?_⟩
    by_cases hover : st.Overlaps (mxFormat su.clo) bk bi
    · -- the tool finds the block, so this store is followed by an encoding
      have hfinds := h.finds ((hin hover).lookup h.tracks.sorted hbk hwrap)
      have hrun' : wiredStore su st t = some ((), { t with mem := storeInto su.clo bk st t.mem }) :=
        wiredStore_of_finds hfinds hmx
      rw [hrun] at hrun'
      have hmem : t.mem.storeLE st.addr st.size.toNat st.value = storeInto su.clo bk st t.mem :=
        congrArg Tool.mem (Prod.mk.inj (Option.some.inj hrun')).2
      change NanGroup (mxFormat su.clo) bk bi (t.mem.storeLE st.addr st.size.toNat st.value)
      rw [hmem, NanGroup, storeInto, mxGroup_mxReencode hbi,
        if_pos (touched_of_overlaps hbi hsmall hsize (hin hover).1 hover)]
      exact nanGroup_encodeGroup hf su.clo (exists_nan_storeLE hf hnan hten hsize)
    · exact hwritten hover

theorem wiredStores_nanGroup (h : Refines su t r) (howned : Owned t.heap r.blocks)
    (hbk : bk ∈ r.blocks) (hmx : bk.mx) (hbi : bi < (mxGroups (mxFormat su.clo) bk).toNat)
    (hten : 10 ≤ mxLen (mxFormat su.clo) bk bi) (hnan : NanGroup (mxFormat su.clo) bk bi t.mem)
    {sts : List StoreOp} (hsts : ∀ st ∈ sts, st.size.toNat ≤ 32 ∧
      (st.Overlaps (mxFormat su.clo) bk bi → st.StartsIn bk r.blocks)) :
    ∃ t', wiredStores su sts t = some ((), t') ∧ NanGroup (mxFormat su.clo) bk bi t'.mem := by
  induction sts generalizing t with
  | nil => exact ⟨t, rfl, hnan⟩
  | cons st sts ih =>
    obtain ⟨⟨hsize, hin⟩, hsts⟩ := List.forall_mem_cons.1 hsts
    obtain ⟨t₁, hrun₁, h₁, howned₁, hnan₁⟩ :=
      wiredStore_nanGroup h howned hbk hmx hbi hten hnan hsize hin
    obtain ⟨t₂, hrun₂, hnan₂⟩ := ih h₁ howned₁ hnan₁ hsts
    refine ⟨t₂, ?_, hnan₂⟩
    rw [wiredStores, toolM_bind, hrun₁, Option.bind_some]
    exact hrun₂

end Step

/-! ## Main result -/

/-- **NaN is permanent.** In every state of the tool, take a group of at least ten whole elements of
a marked block, all of them the quiet NaN. After every sequence of instrumented stores of at most 32
bytes each, whatever their addresses, alignment and data, all elements are still that NaN, if every
store that writes a byte of the group starts in the block and no other tracked block starts between
the start of the block and the store. -/
theorem nan_group_permanent (su : Setup) (m : Mem) (acts : List Action) (t : Tool)
    (hrun : Run su (.init m) acts t) (bs : List Block) (htracks : Tracks t.trackedBlocks bs)
    (bk : Block) (hbk : bk ∈ bs) (hmx : bk.mx) (bi : Nat)
    (hbi : bi < (mxGroups (mxFormat su.clo) bk).toNat) (hten : 10 ≤ mxLen (mxFormat su.clo) bk bi)
    (hnan : NanGroup (mxFormat su.clo) bk bi t.mem) (sts : List StoreOp)
    (hsts : ∀ st ∈ sts, st.size.toNat ≤ 32 ∧
      (st.Overlaps (mxFormat su.clo) bk bi → st.StartsIn bk bs)) :
    ∃ t', wiredStores su sts t = some ((), t') ∧ NanGroup (mxFormat su.clo) bk bi t'.mem := by
  have hinit := Refines.init su m
  have h := hrun.refines hinit
  obtain rfl := h.tracks.unique htracks
  exact wiredStores_nanGroup h (hrun.owned hinit .init) hbk hmx hbi hten hnan hsts

/-- A marked block of ten doubles. -/
def tenDoubles : Block := ⟨0x10000#64, 80#64, [], true⟩

/-- A memory in which every aligned double is the quiet NaN. -/
def nanMem : Mem := fun a =>
  if a.toNat % 8 = 7 then 0x7F#8 else if a.toNat % 8 = 6 then 0xF8#8 else 0#8

theorem nanGroup_nanMem : NanGroup fmt64 tenDoubles 0 nanMem := by
  have hgroup : mxGroup fmt64 tenDoubles 0#64 nanMem = List.replicate 10 (mxNanElement fmt64) := by
    decide +kernel
  intro v hv
  exact List.eq_of_mem_replicate (hgroup ▸ hv)

/-- Ten doubles from `malloc` that hold the NaN. -/
theorem exists_tenDoubles :
    ∃ t, Op.exec markAll ⟨[], []⟩ (some (0x10000#64, 80#64)) (.malloc 80) (.init nanMem) =
        some ((), t) ∧
      Refines markAll t (Registry.init.step (.track tenDoubles)) ∧ t.mem = nanMem := by
  have hb : allocated [] (some (0x10000#64, 80#64)) 80 mlMallocAlignment =
      some ⟨0x10000#64, 80#64, 80#64⟩ := by decide
  obtain ⟨t, hrun, h, -, hmem⟩ := newBlock_refines (Refines.init markAll nanMem) ⟨[], []⟩
    (some (0x10000#64, 80#64)) 80 mlMallocAlignment false
  refine ⟨t, ?_, h, hmem⟩
  rw [Op.exec, toolM_bind, mlMalloc, hrun]
  rfl

/-- Two of the ten doubles are overwritten by `1.1`. -/
theorem nan_group_permanent_ten :
    ∃ acts t t', Run markAll (.init nanMem) acts t ∧ NanGroup fmt64 tenDoubles 0 t.mem ∧
      wiredStores markAll [secondElement, secondElement] t = some ((), t') ∧
      NanGroup fmt64 tenDoubles 0 t'.mem := by
  obtain ⟨t, hexec, h, hmem⟩ := exists_tenDoubles
  have hrun : Run markAll (.init nanMem) _ t := .step _ _ _ hexec (.refl t)
  have hnan : NanGroup fmt64 tenDoubles 0 t.mem := hmem ▸ nanGroup_nanMem
  have htracks : Tracks t.trackedBlocks [tenDoubles] := h.tracks
  obtain ⟨t', hstores, hnan'⟩ := nan_group_permanent markAll nanMem _ t hrun [tenDoubles] htracks
    tenDoubles (List.mem_singleton.2 rfl) rfl 0 (by decide) (by decide) hnan
    [secondElement, secondElement] (by
      intro st hst
      obtain rfl : st = secondElement := by simpa using hst
      exact ⟨by decide, fun _ => ⟨by decide, by decide⟩⟩)
  exact ⟨_, t, t', hrun, hnan, hstores, hnan'⟩

/-- The client tracks the second of the ten doubles as a region of its own: a store to it is not
followed by an encoding. -/
theorem nan_group_overwritten :
    ∃ acts t t' bs, Run markAll (.init nanMem) acts t ∧ Tracks t.trackedBlocks bs ∧
      tenDoubles ∈ bs ∧ tenDoubles.mx ∧ 0 < (mxGroups fmt64 tenDoubles).toNat ∧
      10 ≤ mxLen fmt64 tenDoubles 0 ∧ NanGroup fmt64 tenDoubles 0 t.mem ∧
      secondElement.size.toNat ≤ 32 ∧ wiredStores markAll [secondElement] t = some ((), t') ∧
      ¬NanGroup fmt64 tenDoubles 0 t'.mem := by
  obtain ⟨t, hexec, h, hmem⟩ := exists_tenDoubles
  obtain ⟨t₁, hexec₁, h₁, hsame⟩ := exec_trackBlock h ⟨[], []⟩ 0x10008#64 (by decide : 0 < 8#64)
  have hrun : Run markAll (.init nanMem) _ t₁ := .step _ _ _ hexec (.step _ _ _ hexec₁ (.refl t₁))
  have hmem₁ : t₁.mem = nanMem := hsame.trans hmem
  have hblocks : ((Registry.init.step (.track tenDoubles)).step
      (.track (clientBlock ⟨[], []⟩ 0x10008#64 8#64))).blocks =
        [tenDoubles, ⟨0x10008#64, 8#64, [], false⟩] := by decide
  have hfound : lookupBlock secondElement.addr ((Registry.init.step (.track tenDoubles)).step
      (.track (clientBlock ⟨[], []⟩ 0x10008#64 8#64))).blocks =
        some ⟨0x10008#64, 8#64, [], false⟩ := by decide
  have hstores : wiredStores markAll [secondElement] t₁ =
      some ((), { t₁ with mem := t₁.mem.storeLE 0x10008#64 8 0x3FF199999999999A }) := by
    rw [wiredStores, toolM_bind, wiredStore_unmarked h₁ hfound rfl]
    rfl
  refine ⟨_, t₁, _, _, hrun, hblocks ▸ h₁.tracks, List.mem_cons_self, rfl, by decide, by decide,
    hmem₁ ▸ nanGroup_nanMem, by decide, hstores, ?_⟩
  -- the second element is the data of the store
  have hmem' : 0x3FF199999999999A#64 ∈ mxGroup fmt64 tenDoubles 0#64
      (nanMem.storeLE 0x10008#64 8 0x3FF199999999999A) := by decide +kernel
  rw [hmem₁]
  intro hnan
  exact absurd (hnan _ hmem') (by decide)

end Memlog
