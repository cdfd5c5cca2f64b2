import Memlog.Mx.Store

/-!
# Element writes in pieces

An element may reach memory in several stores, as `memcpy` writes single bytes when source and
destination are aligned differently. `mx_after_store` runs after each of them and rounds what is
there, half old and half new: bytes that are already written can be lost (`wiredStores_pieces_ne`).
The result is that of one store if each of the mixed groups on the way is a fixed point of the
encoder (`wiredStores_pieces`).
-/

namespace Memlog

open Lib

/-! ## Pieces of an element -/

/-- Stores of the bytes of `v` from `o` on, in pieces of these sizes and ascending order. -/
def pieceStores (a : Addr) (v : ULong) (o : Nat) : List Nat → List StoreOp
  | [] => []
  | size :: sizes =>
    ⟨a + BitVec.ofNat 64 o, BitVec.ofNat 64 size, v.toNat / 256 ^ o⟩ ::
      pieceStores a v (o + size) sizes

/-- The sizes cut a run of `k` bytes. -/
structure Cuts (sizes : List Nat) (k : Nat) : Prop where
  pos : ∀ size ∈ sizes, 0 < size
  sum : sizes.sum = k

/-- The memory in which the first `k` bytes of an element are those of `v`. -/
def mixed (f : FpFmt) (bk : Block) (bi i : Nat) (v : ULong) (m : Mem) (k : Nat) : Mem :=
  m.storeLE (mxElemAddr f (mxGroupBase f bk (BitVec.ofNat 64 bi)) i) k v.toNat

theorem exists_of_mem_pieceStores {a : Addr} {v : ULong} {o : Nat} {sizes : List Nat} {st : StoreOp}
    (hpos : ∀ size ∈ sizes, 0 < size) (h : st ∈ pieceStores a v o sizes) :
    ∃ k < o + sizes.sum, st.addr = a + BitVec.ofNat 64 k := by
  induction sizes generalizing o with
  | nil => exact absurd h List.not_mem_nil
  | cons size sizes ih =>
    obtain ⟨hsize, hsizes⟩ := List.forall_mem_cons.1 hpos
    rw [List.sum_cons]
    rcases List.mem_cons.1 h with rfl | hrest
    · exact ⟨o, by omega, rfl⟩
    · obtain ⟨k, hk, haddr⟩ := ih hsizes hrest
      exact ⟨k, by omega, haddr⟩

section Pieces

variable {clo : Clo} {bk : Block} {bi i : Nat} {v : ULong} {m : Mem}

/-- **One piece**: the bytes are written, and the group of the element is encoded. -/
theorem storeInto_piece (hbi : bi < (mxGroups (mxFormat clo) bk).toNat)
    (hi : i < mxLen (mxFormat clo) bk bi) {o size : Nat} (hsize : 0 < size)
    (hend : o + size ≤ (mxFormat clo).esz) :
    storeInto clo bk ⟨mxElemAddr (mxFormat clo) (mxGroupBase (mxFormat clo) bk (BitVec.ofNat 64 bi))
        i + BitVec.ofNat 64 o, BitVec.ofNat 64 size, v.toNat / 256 ^ o⟩
        (mixed (mxFormat clo) bk bi i v m o) =
      mxEncodeBlock clo (mxFormat clo) bk (BitVec.ofNat 64 bi)
        (mixed (mxFormat clo) bk bi i v m (o + size)) := by
  have hf := mxFormat_ieee clo
  have hesz := hf.esz
  obtain ⟨hdist, hfit⟩ := dist_mxElemAddr hf hbi hi
  have hlt := bk.reqSzB.isLt
  have hlen : mxLen (mxFormat clo) bk bi ≤ 32 := mxGroupLen_le ..
  have hi' : (i + 1) * (mxFormat clo).esz ≤ 32 * (mxFormat clo).esz :=
    Nat.mul_le_mul_right _ (Nat.succ_le_of_lt (hi.trans_le hlen))
  have hsize' : (BitVec.ofNat 64 size).toNat = size := by
    rw [BitVec.toNat_ofNat, Nat.mod_eq_of_lt (by omega)]
  rw [storeInto]
  dsimp only
  rw [hsize', mixed, mixed, ByteMem.storeLE_storeLE_add _ _ _ (by omega) (by omega), mxReencode]
  generalize mxElemAddr (mxFormat clo) (mxGroupBase (mxFormat clo) bk (BitVec.ofNat 64 bi)) i =
    a at *
  have hpiece : dist bk.payload (a + BitVec.ofNat 64 o) =
      bi * (32 * (mxFormat clo).esz) + i * (mxFormat clo).esz + o := by
    rw [← add_dist bk.payload a, hdist, BitVec.add_assoc, ← BitVec.ofNat_add]
    exact dist_add _ (by omega)
  have htouched : mxTouched (mxFormat clo) bk (a + BitVec.ofNat 64 o) (BitVec.ofNat 64 size) =
      [bi] := by
    rw [Nat.succ_mul] at hi'
    refine mxTouched_eq_singleton hbi ?_ (by omega) ?_ ?_
    · omega
    · omega
    · rw [hpiece, hsize', Nat.add_mul bi, Nat.one_mul]
      omega
  rw [htouched]
  rfl

/-- The store of a whole element is the piece of all its bytes. -/
theorem storeInto_elementStore (hbi : bi < (mxGroups (mxFormat clo) bk).toNat)
    (hi : i < mxLen (mxFormat clo) bk bi) :
    storeInto clo bk (elementStore (mxFormat clo) bk bi i v) m =
      mxEncodeBlock clo (mxFormat clo) bk (BitVec.ofNat 64 bi)
        (mixed (mxFormat clo) bk bi i v m (mxFormat clo).esz) := by
  have hesz := (mxFormat_ieee clo).esz
  have hpiece : storeInto clo bk _ (mixed (mxFormat clo) bk bi i v m 0) = _ :=
    storeInto_piece hbi hi (by omega : 0 < (mxFormat clo).esz) (Nat.zero_add _).le
  rw [BitVec.add_zero, pow_zero, Nat.div_one, Nat.zero_add] at hpiece
  exact hpiece

/-- **The run**: as long as the mixed groups are fixed points, the pieces add up, and the last one
is followed by an encoding of the whole element. -/
theorem foldl_storeInto_pieceStores (hbi : bi < (mxGroups (mxFormat clo) bk).toNat)
    (hi : i < mxLen (mxFormat clo) bk bi) {o : Nat} {sizes : List Nat} (hne : sizes ≠ [])
    (hpos : ∀ size ∈ sizes, 0 < size) (hsum : o + sizes.sum = (mxFormat clo).esz)
    (hfixed : ∀ k, 0 < k → k < sizes.length →
      mxEncodeBlock clo (mxFormat clo) bk (BitVec.ofNat 64 bi)
          (mixed (mxFormat clo) bk bi i v m (o + (sizes.take k).sum)) =
        mixed (mxFormat clo) bk bi i v m (o + (sizes.take k).sum)) :
    (pieceStores (mxElemAddr (mxFormat clo) (mxGroupBase (mxFormat clo) bk (BitVec.ofNat 64 bi)) i)
        v o sizes).foldl (fun m st => storeInto clo bk st m) (mixed (mxFormat clo) bk bi i v m o) =
      mxEncodeBlock clo (mxFormat clo) bk (BitVec.ofNat 64 bi)
        (mixed (mxFormat clo) bk bi i v m (mxFormat clo).esz) := by
  induction sizes generalizing o with
  | nil => exact absurd rfl hne
  | cons size sizes ih =>
    obtain ⟨hsize, hsizes⟩ := List.forall_mem_cons.1 hpos
    rw [List.sum_cons] at hsum
    rw [pieceStores, List.foldl_cons, storeInto_piece hbi hi hsize (by omega)]
    by_cases hlast : sizes = []
    · subst hlast
      rw [List.sum_nil, Nat.add_zero] at hsum
      rw [hsum]
      rfl
    · -- the encoder leaves this mixed group alone
      have hone := hfixed 1 Nat.one_pos (by
        rw [List.length_cons]
        exact Nat.succ_lt_succ (List.length_pos_iff.2 hlast))
      rw [List.take_succ_cons, List.take_zero, List.sum_singleton] at hone
      rw [hone]
      refine ih hlast hsizes (by omega) fun k hk hlen => ?_
      have hnext := hfixed (k + 1) (Nat.succ_pos k) (Nat.succ_lt_succ hlen)
      rw [List.take_succ_cons, List.sum_cons, ← Nat.add_assoc] at hnext
      exact hnext

end Pieces

/-! ## Main result -/

/-- **An element written in pieces.** Take an element of a group of a marked block, a new value and
a cut of the bytes of the element into consecutive stores in ascending order, each followed by
`mx_after_store`. If each of the mixed groups, in which the bytes written so far are the new ones
and the others the old ones, is a fixed point of `mx_encode_block`, then the stores end as one store
of the whole element does. -/
theorem wiredStores_pieces (su : Setup) (bk : Block) (hmx : bk.mx) (bi : Nat)
    (hbi : bi < (mxGroups (mxFormat su.clo) bk).toNat) (i : Nat)
    (hi : i < mxLen (mxFormat su.clo) bk bi) (t : Tool)
    (hfinds : ∀ k < (mxFormat su.clo).esz, Finds t
      (mxElemAddr (mxFormat su.clo) (mxGroupBase (mxFormat su.clo) bk (BitVec.ofNat 64 bi)) i +
        BitVec.ofNat 64 k) bk)
    (v : ULong) (sizes : List Nat) (hcuts : Cuts sizes (mxFormat su.clo).esz)
    (hfixed : ∀ k, 0 < k → k < sizes.length →
      mxEncodeBlock su.clo (mxFormat su.clo) bk (BitVec.ofNat 64 bi)
          (mixed (mxFormat su.clo) bk bi i v t.mem (sizes.take k).sum) =
        mixed (mxFormat su.clo) bk bi i v t.mem (sizes.take k).sum) :
    ∃ t', wiredStores su (pieceStores (mxElemAddr (mxFormat su.clo)
        (mxGroupBase (mxFormat su.clo) bk (BitVec.ofNat 64 bi)) i) v 0 sizes) t = some ((), t') ∧
      wiredStores su [elementStore (mxFormat su.clo) bk bi i v] t = some ((), t') := by
  have hesz := (mxFormat_ieee su.clo).esz
  have hne : sizes ≠ [] := by
    rintro rfl
    have hsum := hcuts.sum
    rw [List.sum_nil] at hsum
    omega
  have hpieces : ∀ st ∈ pieceStores (mxElemAddr (mxFormat su.clo)
      (mxGroupBase (mxFormat su.clo) bk (BitVec.ofNat 64 bi)) i) v 0 sizes, Finds t st.addr bk := by
    intro st hst
    obtain ⟨k, hk, haddr⟩ := exists_of_mem_pieceStores hcuts.pos hst
    rw [haddr]
    refine hfinds k ?_
    rwa [hcuts.sum, Nat.zero_add] at hk
  have hrun := foldl_storeInto_pieceStores (v := v) (m := t.mem) (o := 0) hbi hi hne hcuts.pos
    (by rw [hcuts.sum, Nat.zero_add]) (by simpa only [Nat.zero_add] using hfixed)
  have hfirst := hfinds 0 (by omega)
  rw [BitVec.add_zero] at hfirst
  refine ⟨_, wiredStores_of_finds hmx hpieces, ?_⟩
  rw [wiredStores_of_finds hmx (List.forall_mem_singleton.2 hfirst), List.foldl_cons,
    List.foldl_nil, storeInto_elementStore hbi hi, ← hrun]
  rfl

/-- The element of `fourDoubles` that the copies below write. -/
theorem finds_second {t : Tool} (h : Refines markAll t (Registry.init.step (.track fourDoubles))) :
    ∀ k < 8, Finds t (mxElemAddr fmt64 (mxGroupBase fmt64 fourDoubles 0#64) 1 + BitVec.ofNat 64 k)
      fourDoubles := by
  have hlookup : ∀ k < 8, lookupBlock
      (mxElemAddr fmt64 (mxGroupBase fmt64 fourDoubles 0#64) 1 + BitVec.ofNat 64 k)
      (Registry.init.step (.track fourDoubles)).blocks = some fourDoubles := by decide
  exact fun k hk => h.finds (hlookup k hk)

/-- `1.5` in halfwords: only the last one is not zero. -/
theorem wiredStores_pieces_halfwords :
    ∃ t₁ t₂, mlCalloc markAll ⟨[], []⟩ (some (0x10000#64, 32#64)) 4 8 (.init fun _ => 0#8) =
        some (some 0x10000#64, t₁) ∧
      wiredStores markAll (pieceStores (mxElemAddr fmt64 (mxGroupBase fmt64 fourDoubles 0#64) 1)
        0x3FF8000000000000#64 0 [2, 2, 2, 2]) t₁ = some ((), t₂) ∧
      wiredStores markAll [elementStore fmt64 fourDoubles 0 1 0x3FF8000000000000#64] t₁ =
        some ((), t₂) := by
  obtain ⟨t₁, hcalloc, h₁, hmem⟩ := exists_fourDoubles
  have hmem' : t₁.mem = fun _ => 0#8 := funext hmem
  have hfixed : ∀ k < 4, 0 < k → encodeGroup markAll.clo fmt64 (mxGroup fmt64 fourDoubles 0#64
      (mixed fmt64 fourDoubles 0 1 0x3FF8000000000000#64 (fun _ => 0#8)
        ([2, 2, 2, 2].take k).sum)) = mxGroup fmt64 fourDoubles 0#64
          (mixed fmt64 fourDoubles 0 1 0x3FF8000000000000#64 (fun _ => 0#8)
            ([2, 2, 2, 2].take k).sum) := by
    decide +kernel
  obtain ⟨t₂, hpieces, hwhole⟩ :=
    wiredStores_pieces markAll fourDoubles rfl 0 (by decide) 1 (by decide)
    t₁ (finds_second h₁) 0x3FF8000000000000#64 [2, 2, 2, 2] ⟨by decide, rfl⟩ (by
      intro k hk hlen
      rw [hmem', mxEncodeBlock_eq_self_iff markAll.clo (mxFormat_ieee _)]
      exact hfixed k hlen hk)
  exact ⟨t₁, t₂, hcalloc, hpieces, hwhole⟩

/-- `1.5` byte by byte into a group of zeros. When the seventh byte is there the element is about
`2^-1008`, which the encoder takes for zero, so the eighth byte makes it `2^-15`. -/
theorem wiredStores_pieces_ne :
    ∃ t₁ t₂ t₃, mlCalloc markAll ⟨[], []⟩ (some (0x10000#64, 32#64)) 4 8 (.init fun _ => 0#8) =
        some (some 0x10000#64, t₁) ∧
      Refines markAll t₁ (Registry.init.step (.track fourDoubles)) ∧
      mxEncodeBlock markAll.clo fmt64 fourDoubles 0#64 t₁.mem = t₁.mem ∧
      Cuts [1, 1, 1, 1, 1, 1, 1, 1] fmt64.esz ∧
      wiredStores markAll (pieceStores (mxElemAddr fmt64 (mxGroupBase fmt64 fourDoubles 0#64) 1)
        0x3FF8000000000000#64 0 [1, 1, 1, 1, 1, 1, 1, 1]) t₁ = some ((), t₂) ∧
      wiredStores markAll [elementStore fmt64 fourDoubles 0 1 0x3FF8000000000000#64] t₁ =
        some ((), t₃) ∧
      mxGroup fmt64 fourDoubles 0#64 t₂.mem ≠ mxGroup fmt64 fourDoubles 0#64 t₃.mem := by
  obtain ⟨t₁, hcalloc, h₁, hmem⟩ := exists_fourDoubles
  have hmem' : t₁.mem = fun _ => 0#8 := funext hmem
  have hpieces : ∀ st ∈ pieceStores (mxElemAddr fmt64 (mxGroupBase fmt64 fourDoubles 0#64) 1)
      0x3FF8000000000000#64 0 [1, 1, 1, 1, 1, 1, 1, 1], Finds t₁ st.addr fourDoubles := by
    intro st hst
    obtain ⟨k, hk, haddr⟩ := exists_of_mem_pieceStores (by decide) hst
    rw [haddr]
    exact finds_second h₁ k hk
  have hzero : encodeGroup markAll.clo fmt64 (mxGroup fmt64 fourDoubles 0#64 fun _ => 0#8) =
      mxGroup fmt64 fourDoubles 0#64 fun _ => 0#8 := by decide +kernel
  have hbytes : mxGroup fmt64 fourDoubles 0#64
      ((pieceStores (mxElemAddr fmt64 (mxGroupBase fmt64 fourDoubles 0#64) 1) 0x3FF8000000000000#64
        0 [1, 1, 1, 1, 1, 1, 1, 1]).foldl (fun m st => storeInto markAll.clo fourDoubles st m)
          fun _ => 0#8) = [0, 0x3F00000000000000#64, 0, 0] := by decide +kernel
  have hwhole : mxGroup fmt64 fourDoubles 0#64 (storeInto markAll.clo fourDoubles
      (elementStore fmt64 fourDoubles 0 1 0x3FF8000000000000#64) fun _ => 0#8) =
        [0, 0x3FF8000000000000#64, 0, 0] := by decide +kernel
  refine ⟨t₁, _, _, hcalloc, h₁, ?_, ⟨by decide, rfl⟩, wiredStores_of_finds rfl hpieces,
    wiredStores_of_finds rfl (List.forall_mem_singleton.2 (finds_second h₁ 0 (by decide))), ?_⟩
  · rw [hmem', mxEncodeBlock_eq_self_iff markAll.clo FpFmt.fmt64_ieee]
    exact hzero
  · rw [hmem', List.foldl_cons, List.foldl_nil]
    dsimp only
    rw [hbytes, hwhole]
    decide

end Memlog
