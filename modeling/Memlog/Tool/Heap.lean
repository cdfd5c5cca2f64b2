import Memlog.Tool.Registry

/-!
# The traced program's heap

In every state that a run reaches, the live heap blocks lie apart, and a tracked block that is
marked for re-encoding is a live heap block (`Run.owned`): a client region is never marked, and a
block that is freed has left the tree.
-/

namespace Memlog

open Lib

/-- What holds between the heap and the tracked blocks. -/
structure Owned (heap : List CliBlock) (blocks : List Block) : Prop where
  ok : ∀ b ∈ heap, b.Ok ∧ 0 < b.size.toNat
  small : ∀ b ∈ heap, b.size.toNat < 2 ^ 63
  apart : heap.Pairwise CliBlock.Apart
  mx : ∀ bk ∈ blocks, bk.mx → ∃ b ∈ heap, b.start = bk.payload ∧ b.size = bk.reqSzB

section Blocks

variable {b c : CliBlock}

theorem CliBlock.Ok.lt_end (h : b.Ok) (hpos : 0 < b.size.toNat) : b.start < b.start + b.size := by
  have hle := h.size_le
  have hwrap := h.no_wrap
  rw [BitVec.le_def] at hle
  rw [BitVec.lt_def, BitVec.toNat_add, Nat.mod_eq_of_lt (by omega)]
  omega

instance : Std.Symm CliBlock.Apart := ⟨fun _ _ h => h.symm⟩

/-- Blocks that lie apart start at different addresses. -/
theorem CliBlock.Apart.start_ne (h : b.Apart c) (hb : b.Ok) (hpos : 0 < b.size.toNat) (hc : c.Ok)
    (hpos' : 0 < c.size.toNat) : b.start ≠ c.start := by
  intro heq
  have hble := hb.size_le
  have hcle := hc.size_le
  rw [BitVec.le_def] at hble hcle
  unfold CliBlock.Apart at h
  rw [heq] at h
  omega

theorem allocated_pos {heap : List CliBlock} {place : Place} {szB alignB : SizeT}
    (h : allocated heap place szB alignB = some b) : 0 < b.size.toNat := by
  rw [(allocated_spec h).1]
  split
  · decide
  · rename_i hne
    rw [Nat.pos_iff_ne_zero]
    intro hzero
    exact hne (BitVec.eq_of_toNat_eq hzero)

/-- A size that is negative as a signed number is refused. -/
theorem allocated_small {heap : List CliBlock} {place : Place} {szB alignB : SizeT}
    (h : allocated heap place szB alignB = some b) : b.size.toNat < 2 ^ 63 := by
  have hsize := (allocated_spec h).1
  unfold allocated at h
  split at h
  · cases h
  · rename_i hneg
    have hlt : szB.toNat < 2 ^ 63 := by
      have := BitVec.toInt_eq_toNat_cond szB
      split at this <;> omega
    rw [hsize]
    split
    · decide
    · exact hlt

end Blocks

namespace Owned

variable {su : Setup} {heap : List CliBlock} {r : Registry}

theorem init : Owned [] Registry.init.blocks where
  ok := by simp
  small := by simp
  apart := .nil
  mx := by simp [Registry.init]

/-- What is known of a marked block. -/
theorem marked {blocks : List Block} (h : Owned heap blocks) {bk : Block} (hbk : bk ∈ blocks)
    (hmx : bk.mx) : bk.payload.toNat + bk.reqSzB.toNat < 2 ^ 64 ∧ bk.reqSzB.toNat < 2 ^ 63 := by
  obtain ⟨b, hb, hstart, hsize⟩ := h.mx bk hbk hmx
  have hle := (h.ok b hb).1.size_le
  have hwrap := (h.ok b hb).1.no_wrap
  have hsmall := h.small b hb
  rw [BitVec.le_def] at hle
  rw [← hstart, ← hsize]
  omega

/-- Two marked blocks do not meet. -/
theorem marked_apart {blocks : List Block} (h : Owned heap blocks) {bk bk' : Block}
    (hbk : bk ∈ blocks) (hmx : bk.mx) (hbk' : bk' ∈ blocks) (hmx' : bk'.mx)
    (hne : bk.payload ≠ bk'.payload) :
    bk.payload.toNat + bk.reqSzB.toNat ≤ bk'.payload.toNat ∨
      bk'.payload.toNat + bk'.reqSzB.toNat ≤ bk.payload.toNat := by
  obtain ⟨b, hb, hstart, hsize⟩ := h.mx bk hbk hmx
  obtain ⟨c, hc, hstart', hsize'⟩ := h.mx bk' hbk' hmx'
  have hbc : b ≠ c := by
    rintro rfl
    exact hne (hstart.symm.trans hstart')
  have hapart : b.Apart c := h.apart.forall hb hc hbc
  have hle := (h.ok b hb).1.size_le
  have hle' := (h.ok c hc).1.size_le
  rw [BitVec.le_def] at hle hle'
  rw [← hstart, ← hsize, ← hstart', ← hsize']
  unfold CliBlock.Apart at hapart
  omega

/-- A heap block is determined by its start. -/
theorem eq_of_start {blocks : List Block} (h : Owned heap blocks) {b c : CliBlock} (hb : b ∈ heap)
    (hc : c ∈ heap) (hstart : b.start = c.start) : b = c := by
  have hne : heap.Pairwise fun b c => b.start ≠ c.start :=
    h.apart.imp_of_mem fun hb hc hbc =>
      hbc.start_ne (h.ok _ hb).1 (h.ok _ hb).2 (h.ok _ hc).1 (h.ok _ hc).2
  exact List.inj_on_of_nodup_map (List.pairwise_map.2 hne) hb hc hstart

theorem newBlock (h : Owned heap r.blocks) (who : Caller) (place : Place) (szB alignB : SizeT) :
    Owned ((allocated heap place szB alignB).toList ++ heap)
      (r.run (newBlockActions su who (allocated heap place szB alignB))).blocks := by
  cases hb : allocated heap place szB alignB with
  | none => exact h
  | some b =>
    obtain ⟨-, hok, hapart⟩ := allocated_spec hb
    have hpos := allocated_pos hb
    constructor
    · intro c hc
      rcases List.mem_cons.1 hc with rfl | hc
      · exact ⟨hok, hpos⟩
      · exact h.ok c hc
    · exact List.forall_mem_cons.2 ⟨allocated_small hb, h.small⟩
    · exact List.pairwise_cons.2 ⟨hapart, h.apart⟩
    · intro bk hbk hmx
      have hcases : bk ∈ r.blocks ∨ bk = heapBlock su who b.start b.size := by
        unfold newBlockActions at hbk
        simp only at hbk
        split at hbk
        · rcases mem_addBlock.1 hbk with hbk | hbk
          · exact .inl hbk
          · exact .inr hbk.1
        · exact .inl hbk
      rcases hcases with hbk | rfl
      · obtain ⟨c, hc, hfields⟩ := h.mx bk hbk hmx
        exact ⟨c, List.mem_cons_of_mem _ hc, hfields⟩
      · exact ⟨b, List.mem_cons_self, rfl, rfl⟩

theorem dieBlock (h : Owned heap r.blocks) (hsorted : SortedBy Block.payload r.blocks)
    (who : Caller) (p : Addr) :
    Owned (dieBlockHeap p heap) (r.run (dieBlockActions who p)).blocks := by
  unfold dieBlockHeap dieBlockActions
  by_cases hp : p = 0
  · rw [if_pos hp, if_pos hp]
    exact h
  rw [if_neg hp, if_neg hp]
  constructor
  · intro b hb
    exact h.ok b (List.mem_filter.1 hb).1
  · intro b hb
    exact h.small b (List.mem_filter.1 hb).1
  · exact h.apart.sublist List.filter_sublist
  · intro bk hbk hmx
    obtain ⟨b, hb, hstart, hsize⟩ := h.mx bk (Registry.mem_of_mem_untrack hbk) hmx
    refine ⟨b, List.mem_filter.2 ⟨hb, ?_⟩, hstart, hsize⟩
    rw [decide_eq_true_eq]
    intro hbp
    -- a marked block does not wrap around, so the call takes it out of the tree
    have hend := (h.ok b hb).1.lt_end (h.ok b hb).2
    rw [hstart, hsize] at hend
    have hfound := lookupBlock_start hsorted (Registry.mem_of_mem_untrack hbk) hend
    rw [← hstart, hbp] at hfound
    rw [Registry.run_cons, Registry.run_nil, Registry.step, hfound] at hbk
    simp only [← hstart, hbp, if_true] at hbk
    exact (mem_eraseKey.1 hbk).2 (hstart.symm.trans hbp)

/-- Requests and stores leave the heap alone and mark no block. -/
theorem of_mem {blocks : List Block} (h : Owned heap r.blocks)
    (hmem : ∀ bk ∈ blocks, bk.mx → bk ∈ r.blocks) : Owned heap blocks where
  ok := h.ok
  small := h.small
  apart := h.apart
  mx bk hbk hmx := h.mx bk (hmem bk hbk hmx) hmx

theorem realloc (h : Owned heap r.blocks) (hsorted : SortedBy Block.payload r.blocks)
    (who : Caller) (place : Place) (pOld : Addr) (newSzB : SizeT) :
    Owned (reallocHeap su place heap pOld newSzB)
      (r.run (reallocActions su who place heap pOld newSzB)).blocks := by
  unfold reallocHeap reallocActions
  by_cases hp : pOld = 0
  · rw [if_pos hp, if_pos hp]
    exact h.newBlock who place newSzB mlMallocAlignment
  rw [if_neg hp, if_neg hp]
  by_cases hn : newSzB = 0 ∧ su.clo.reallocZeroBytesFrees
  · rw [if_pos hn, if_pos hn]
    exact h.dieBlock hsorted who pOld
  rw [if_neg hn, if_neg hn]
  have hnew : Owned _ (r.run (newBlockActions su who (allocated heap place
      (if newSzB = 0 then 1 else newSzB) mlMallocAlignment))).blocks := h.newBlock ..
  cases hb : allocated heap place (if newSzB = 0 then 1 else newSzB) mlMallocAlignment with
  | none => exact h
  | some b =>
    rw [hb] at hnew
    rw [Registry.run_append]
    exact hnew.dieBlock (Registry.sorted_run hsorted _) who pOld

theorem exec (h : Owned heap r.blocks) (hsorted : SortedBy Block.payload r.blocks) (who : Caller)
    (place : Place) (op : Op) :
    Owned (op.heapAfter su place heap) (r.run (op.actions su who place heap)).blocks := by
  cases op with
  | malloc szB => exact h.newBlock ..
  | builtinNew szB => exact h.newBlock ..
  | builtinNewAligned szB alignB => exact h.newBlock ..
  | builtinVecNew szB => exact h.newBlock ..
  | builtinVecNewAligned szB alignB => exact h.newBlock ..
  | memalign alignB szB => exact h.newBlock ..
  | calloc nmemb size1 => exact h.newBlock ..
  | free p => exact h.dieBlock hsorted who p
  | builtinDelete p => exact h.dieBlock hsorted who p
  | builtinDeleteAligned p => exact h.dieBlock hsorted who p
  | builtinVecDelete p => exact h.dieBlock hsorted who p
  | builtinVecDeleteAligned p => exact h.dieBlock hsorted who p
  | realloc pOld newSzB => exact h.realloc hsorted who place pOld newSzB
  | mallocUsableSize p => exact h
  | request req =>
    cases req with
    | trackBlock addr size =>
      rw [Op.actions]
      by_cases hsize : 0 < size
      · rw [if_pos hsize]
        refine h.of_mem fun bk hbk hmx => ?_
        rcases mem_addBlock.1 hbk with hbk | ⟨rfl, -⟩
        · exact hbk
        · cases hmx
      · rw [if_neg hsize]
        exact h
    | untrackBlock addr => exact h.of_mem fun bk hbk _ => Registry.mem_of_mem_untrack hbk
    | other => exact h
  | logStore addr value =>
    rw [Op.actions, Registry.run_cons, Registry.run_nil, Registry.blocks_store]
    exact h
  | mxAfterStore addr size => exact h
  | write addr size value => exact h

end Owned

/-- **Every reachable state** has its live heap blocks apart and its marked blocks among them. -/
theorem Run.owned {su : Setup} {t t' : Tool} {acts : List Action} {r : Registry}
    (hrun : Run su t acts t') (href : Refines su t r) (h : Owned t.heap r.blocks) :
    Owned t'.heap (r.run acts).blocks := by
  induction hrun generalizing r with
  | refl t => exact h
  | @step t t₁ t₂ acts who place op hexec hrun ih =>
    obtain ⟨t₁', hexec', href₁, hheap⟩ := exec_refines href who place op
    rw [hexec] at hexec'
    cases hexec'
    rw [Registry.run_append]
    refine ih href₁ ?_
    rw [hheap]
    exact h.exec href.tracks.sorted who place op

end Memlog
