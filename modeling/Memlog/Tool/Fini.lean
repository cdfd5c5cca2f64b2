import Memlog.Tool.Heap
import Memlog.Tool.Owned

/-!
# The end of the run

`ml_fini` frees the tree recursively: each node with its block, and the calls go no deeper than the
tree is high (`freeRbTreeRecursive_spec`, `Owns.freeRbTree`). Together with the lockstep of the
callbacks this gives the two results about objects: no run of the tool uses an object that is not
there or frees one twice (`objects_safe`), and what is left after `ml_fini` are exactly the blocks
that were tracked while their start was tracked already, none if the program makes no tracking
requests (`mlFini_frees`).
-/

namespace Memlog.Full

open Lib

/-! ## `free_rb_tree` -/

/-- `*node`. -/
theorem onTree_load {o : Tool} {p : Ptr} {nd : RbNode Addr (Option Ptr)}
    (h : o.trackedBlocks.mem p = some nd) : onTree (load (some p)) o = some (nd, o) := by
  rw [onTree, load_apply, h]
  rfl

/-- **`free_rb_tree_recursive`** frees the nodes of the subtree and their blocks, each once, and
nothing else; the calls go as deep as the subtree is high. -/
theorem freeRbTreeRecursive_spec {T : CTree Ptr Addr (Option Ptr)} {o : Tool} {par : Option Ptr}
    {cs : List Cell} {rest : List (Σ _ : Ptr, Block)} {fuel : Nat}
    (h : Rep o.trackedBlocks.mem par T) (hnodup : T.ids.Nodup) (hcs : T.cells = cs.map Cell.entry)
    (hobjects : o.blocks.entries.Perm (cs.map Cell.object ++ rest)) (hfuel : T.height ≤ fuel) :
    ∃ s' bs, freeRbTreeRecursive fuel T.ptr o =
        some ((), { o with trackedBlocks := s', blocks := bs }) ∧
      bs.entries.Perm rest ∧ s'.root = o.trackedBlocks.root ∧
      ∀ p, s'.mem p = if p ∈ T.ids then none else o.trackedBlocks.mem p := by
  induction T generalizing o par cs rest fuel with
  | nil =>
    obtain rfl : cs = [] := List.map_eq_nil_iff.1 hcs.symm
    refine ⟨o.trackedBlocks, o.blocks, ?_, hobjects, rfl, fun p => rfl⟩
    cases fuel <;> rfl
  | node l x c e r ihl ihr =>
    obtain ⟨hx, hl, hr⟩ := h
    rw [CTree.height] at hfuel
    obtain ⟨fuel, rfl⟩ : ∃ k, fuel = k + 1 := ⟨fuel - 1, by omega⟩
    rw [CTree.ids_node, List.nodup_append, List.nodup_cons] at hnodup
    obtain ⟨hnl, ⟨hxr, hnr⟩, hdisj⟩ := hnodup
    obtain ⟨ca, rest', rfl, hca, hrest'⟩ := List.map_eq_append_iff.1 hcs.symm
    obtain ⟨cell, cb, rfl, hcell, hcb⟩ := List.map_eq_cons_iff.1 hrest'
    obtain ⟨rfl, hpay, hptr⟩ : cell.node = x ∧ cell.payload = e.1 ∧ some cell.ptr = e.2 := by
      simpa [Cell.entry, Cell.payload, Prod.ext_iff] using hcell
    -- the left subtree
    have hobj₁ : o.blocks.entries.Perm
        (ca.map Cell.object ++ (cell.object :: cb.map Cell.object ++ rest)) := by
      rw [← List.append_assoc]
      simpa using hobjects
    obtain ⟨s₁, bs₁, hrun₁, hperm₁, hroot₁, hmem₁⟩ :=
      ihl hl hnl hca.symm hobj₁ (by omega : l.height ≤ fuel)
    have hxl : cell.node ∉ l.ids := fun hin => hdisj _ hin _ List.mem_cons_self rfl
    have hx₁ : s₁.mem cell.node = some ⟨par, l.ptr, r.ptr, c, e.1, e.2⟩ := by
      rw [hmem₁, if_neg hxl, hx]
    -- the right subtree
    have hr₁ : Rep s₁.mem (some cell.node) r := by
      refine hr.frame fun p hp => ?_
      rw [hmem₁, if_neg fun hin => hdisj _ hin _ (List.mem_cons_of_mem _ hp) rfl]
    have hobj₂ : bs₁.entries.Perm (cb.map Cell.object ++ (cell.object :: rest)) :=
      hperm₁.trans List.perm_middle.symm
    obtain ⟨s₂, bs₂, hrun₂, hperm₂, hroot₂, hmem₂⟩ :=
      ihr (o := { o with trackedBlocks := s₁, blocks := bs₁ }) hr₁ hnr hcb.symm hobj₂
        (by omega : r.height ≤ fuel)
    have hx₂ : s₂.mem cell.node = some ⟨par, l.ptr, r.ptr, c, e.1, e.2⟩ := by
      rw [hmem₂, if_neg hxr]
      exact hx₁
    -- the block and the node
    have hlookup : bs₂.lookup cell.ptr = some cell.block :=
      AList.mem_lookup_iff.2 (hperm₂.mem_iff.2 List.mem_cons_self)
    have hbs : (bs₂.erase cell.ptr).entries.Perm ([] ++ rest) := perm_erase hperm₂
    refine ⟨s₂.free cell.node, bs₂.erase cell.ptr, ?_, hbs, hroot₂.trans hroot₁, fun p => ?_⟩
    · have hload := onTree_load hx
      have hload₁ := onTree_load (o := { o with trackedBlocks := s₁, blocks := bs₁ }) hx₁
      have hload₂ := onTree_load (o := { o with trackedBlocks := s₂, blocks := bs₂ }) hx₂
      simp only [CTree.ptr_node, freeRbTreeRecursive, fullM_bind, hload, hload₁, hload₂,
        Option.bind_some, hrun₁, hrun₂, ← hptr, Option.isSome_some, if_true, freeBlock, hlookup,
        freeNode, hx₂, Option.map_some]
    · simp only [RbState.mem_free, hmem₂, hmem₁, CTree.ids_node, List.mem_append, List.mem_cons]
      by_cases hp : p = cell.node
      · rw [if_pos hp, if_pos (.inr (.inl hp))]
      · by_cases hpr : p ∈ r.ids
        · rw [if_neg hp, if_pos hpr, if_pos (.inr (.inr hpr))]
        · simp only [hp, hpr, or_false, if_false]

/-- The number of nodes. -/
theorem Owns.size_trackedBlocks {o : Tool} {cs : List Cell} {lost : List (Σ _ : Ptr, Block)}
    (h : Owns o cs lost) : o.trackedBlocks.size = cs.length := by
  have hnodup : (cs.map Cell.node).Nodup := by
    have hn := h.indexed.nodup
    rwa [List.map_map] at hn
  have hperm : o.trackedBlocks.nodes.keys.Perm (cs.map Cell.node) := by
    rw [List.perm_ext_iff_of_nodup o.trackedBlocks.nodes.keys_nodup hnodup]
    intro p
    rw [← h.nodes p, ← AList.mem_keys, ← AList.lookup_isSome]
    rfl
  rw [RbState.size, hperm.length_eq, List.length_map]

/-- A tree without nodes. -/
theorem rbState_eq_empty {s : RbState Addr (Option Ptr)} (hroot : s.root = none)
    (hmem : ∀ p, s.mem p = none) : s = .empty := by
  obtain ⟨root, nodes⟩ := s
  obtain rfl : root = none := hroot
  refine congrArg (RbState.mk none) (AList.ext ?_)
  refine List.eq_nil_iff_forall_not_mem.2 fun x hin => ?_
  have hnone : nodes.lookup x.1 = none := hmem x.1
  rw [AList.mem_lookup_iff.2 hin] at hnone
  cases hnone

/-- **`free_rb_tree`** leaves an empty tree and the blocks that are not in it. The calls need not go
deeper than twice the logarithm of the number of tracked blocks. -/
theorem Owns.freeRbTree {o : Tool} {cs : List Cell} {lost : List (Σ _ : Ptr, Block)} {depth : Nat}
    (h : Owns o cs lost) (hdepth : 2 * Real.logb 2 (cs.length + 1) ≤ depth) :
    ∃ bs, freeRbTree depth o =
        some ((), { o with trackedBlocks := .empty, blocks := bs }) ∧ bs.entries.Perm lost := by
  obtain ⟨T, hfocus, hcells, hheight⟩ := h.indexed.height_le
  rw [List.length_map] at hheight
  have hfuel : T.height ≤ depth := by exact_mod_cast le_trans hheight hdepth
  have hroot : o.trackedBlocks.root = T.ptr := hfocus.path
  obtain ⟨s', bs, hrun, hperm, -, hmem⟩ :=
    freeRbTreeRecursive_spec hfocus.tree hfocus.nodup hcells h.objects hfuel
  have hids : T.ids = cs.map Cell.node := by
    rw [CTree.ids, hcells, List.map_map]
    rfl
  have hempty : ({ s' with root := none } : RbState Addr (Option Ptr)) = .empty := by
    refine rbState_eq_empty rfl fun p => (hmem p).trans ?_
    by_cases hp : p ∈ T.ids
    · rw [if_pos hp]
    · rw [if_neg hp, ← Option.not_isSome_iff_eq_none]
      intro hlive
      exact hp (hids ▸ (h.nodes p).1 hlive)
  refine ⟨bs, ?_, hperm⟩
  rw [← hempty, Full.freeRbTree, fullM_bind, onTree, getRoot_apply, hroot]
  simp only [Option.map_some, Option.bind_some, fullM_bind, hrun, onTree, setRoot]

section Fini

variable {su : Setup} {o : Tool} {t : Memlog.Tool} {acts : List Action}

/-- The messages of `ml_fini`. -/
def finiMessages (su : Setup) (st : MxStats) : List Line :=
  if su.clo.mxRound then mxReport su st else []

/-- **`ml_fini`** prints what is left in the buffer and frees all objects but the blocks that were
left outside the tree. -/
theorem Stands.mlFini (h : Stands su o t acts) {depth : Nat}
    (hdepth : 2 * Real.logb 2 ((Registry.init.run acts).blocks.length + 1) ≤ depth) :
    ∃ o', mlFini su depth o = some ((), o') ∧ o'.trackedBlocks = .empty ∧
      (o'.blocks.entries.map Sigma.snd).Perm (dropped .init acts) ∧ o'.logBuffer = [] ∧
      o'.out = (Registry.init.run acts).log.flatMap LogEntry.print ∧
      o'.messages = o.messages ++ finiMessages su o.stats := by
  obtain ⟨cs, lost, howns, hcs, hlost⟩ := h.owns
  rw [← hcs, List.length_map] at hdepth
  have hbuffer : o.logBuffer = t.logBuffer := congrArg Memlog.Tool.logBuffer h.base
  have hout : o.out = t.out := congrArg Memlog.Tool.out h.base
  -- the state before the tree is freed
  let o₁ : Tool := { o with
    logBuffer := []
    out := o.out ++ o.logBuffer.flatMap LogEntry.print
    messages := o.messages ++ finiMessages su o.stats }
  have howns₁ : Owns o₁ cs lost := howns.congr rfl rfl
  obtain ⟨bs, hfree, hperm⟩ := howns₁.freeRbTree hdepth
  refine ⟨{ o₁ with trackedBlocks := .empty, blocks := bs }, ?_, rfl, ?_, rfl, ?_, rfl⟩
  · have hflush : Full.lift flushLogBuffer o = some ((), { o with
      logBuffer := []
      out := o.out ++ o.logBuffer.flatMap LogEntry.print }) := rfl
    rw [Full.mlFini, fullM_bind, hflush, Option.bind_some, ← hfree]
    by_cases hmx : su.clo.mxRound
    · simp only [o₁, if_pos hmx, fullM_bind, Option.bind_some, finiMessages]
    · simp only [o₁, if_neg hmx, finiMessages, List.append_nil]
  · rw [← hlost]
    exact hperm.map Sigma.snd
  · exact (congrArg₂ (· ++ ·.flatMap LogEntry.print) hout hbuffer).trans h.refines.printed

end Fini

/-! ## Runs without requests -/

/-- The program asks for no block to be tracked. -/
def NoTrackRequest (cs : List Call) : Prop :=
  ∀ c ∈ cs, ∀ addr size, c.op ≠ .request (.trackBlock addr size)

/-- Every tracked block is a live block of the heap. -/
structure Backed (heap : List CliBlock) (blocks : List Block) : Prop where
  owned : Owned heap blocks
  heap : ∀ bk ∈ blocks, ∃ b ∈ heap, b.start = bk.payload ∧ b.size = bk.reqSzB

namespace Backed

variable {su : Setup} {heap : List CliBlock} {r : Registry}

theorem newBlock (h : Backed heap r.blocks) (who : Caller) (place : Place) (szB alignB : SizeT) :
    Backed ((allocated heap place szB alignB).toList ++ heap)
        (r.run (newBlockActions su who (allocated heap place szB alignB))).blocks ∧
      dropped r (newBlockActions su who (allocated heap place szB alignB)) = [] := by
  have howned : Owned _ (r.run (newBlockActions su who (allocated heap place szB alignB))).blocks :=
    h.owned.newBlock who place szB alignB
  cases hb : allocated heap place szB alignB with
  | none => exact ⟨h, rfl⟩
  | some b =>
    rw [hb] at howned
    obtain ⟨-, hok, hapart⟩ := allocated_spec hb
    have hpos := allocated_pos hb
    have hkeep : ∀ bk ∈ r.blocks, ∃ c ∈ b :: heap, c.start = bk.payload ∧ c.size = bk.reqSzB := by
      intro bk hbk
      obtain ⟨c, hc, hfields⟩ := h.heap bk hbk
      exact ⟨c, List.mem_cons_of_mem _ hc, hfields⟩
    rw [newBlockActions] at howned ⊢
    by_cases hbig : su.clo.minBlockSize ≤ b.size.toNat
    · rw [if_pos hbig] at howned ⊢
      -- the new block lies apart from the live ones, and so does its start
      have hout : (heapBlock su who b.start b.size).payload ∉ r.blocks.map Block.payload := by
        intro hin
        obtain ⟨bk, hbk, heq⟩ := List.mem_map.1 hin
        obtain ⟨c, hc, hstart, -⟩ := h.heap bk hbk
        have hc' := h.owned.ok c hc
        exact (hapart c hc).start_ne hok hpos hc'.1 hc'.2 (hstart.trans heq).symm
      refine ⟨⟨howned, fun bk hbk => ?_⟩, ?_⟩
      · rcases mem_addBlock.1 hbk with hbk | ⟨rfl, -⟩
        · exact hkeep bk hbk
        · exact ⟨b, List.mem_cons_self, rfl, rfl⟩
      · rw [dropped, dropped, droppedBy_track, if_neg hout, List.append_nil]
    · rw [if_neg hbig] at howned ⊢
      exact ⟨⟨howned, hkeep⟩, rfl⟩

theorem untrack (h : Backed heap r.blocks) (hsorted : SortedBy Block.payload r.blocks)
    (addr : Addr) (ec : ExeContext) :
    Backed heap (r.step (.untrack addr ec)).blocks ∧
      ∀ bk ∈ (r.step (.untrack addr ec)).blocks, bk.payload ≠ addr := by
  have hmem : ∀ bk ∈ (r.step (.untrack addr ec)).blocks, bk ∈ r.blocks :=
    fun bk hbk => Registry.mem_of_mem_untrack hbk
  refine ⟨⟨h.owned.of_mem fun bk hbk _ => hmem bk hbk, fun bk hbk => h.heap bk (hmem bk hbk)⟩, ?_⟩
  intro bk hbk heq
  -- the block does not wrap around, so the call takes it out of the tree
  obtain ⟨b, hb, hstart, hsize⟩ := h.heap bk (hmem bk hbk)
  have hend := (h.owned.ok b hb).1.lt_end (h.owned.ok b hb).2
  rw [hstart, hsize] at hend
  have hfound := lookupBlock_start hsorted (hmem bk hbk) hend
  rw [heq] at hfound
  rw [Registry.step, hfound] at hbk
  simp only [heq, if_true] at hbk
  exact (mem_eraseKey.1 hbk).2 heq

theorem dieBlock (h : Backed heap r.blocks) (hsorted : SortedBy Block.payload r.blocks)
    (who : Caller) (p : Addr) :
    Backed (dieBlockHeap p heap) (r.run (dieBlockActions who p)).blocks ∧
      dropped r (dieBlockActions who p) = [] := by
  have howned := h.owned.dieBlock hsorted who p
  unfold dieBlockHeap dieBlockActions at *
  by_cases hp : p = 0
  · rw [if_pos hp, if_pos hp]
    exact ⟨h, rfl⟩
  · rw [if_neg hp, if_neg hp] at *
    obtain ⟨h', hne⟩ := h.untrack hsorted p who.ec
    refine ⟨⟨howned, fun bk hbk => ?_⟩, rfl⟩
    obtain ⟨b, hb, hstart, hsize⟩ := h'.heap bk hbk
    refine ⟨b, List.mem_filter.2 ⟨hb, ?_⟩, hstart, hsize⟩
    rw [decide_eq_true_eq, hstart]
    exact hne bk hbk

theorem realloc (h : Backed heap r.blocks) (hsorted : SortedBy Block.payload r.blocks)
    (who : Caller) (place : Place) (pOld : Addr) (newSzB : SizeT) :
    Backed (reallocHeap su place heap pOld newSzB)
        (r.run (reallocActions su who place heap pOld newSzB)).blocks ∧
      dropped r (reallocActions su who place heap pOld newSzB) = [] := by
  unfold reallocHeap reallocActions
  by_cases hp : pOld = 0
  · rw [if_pos hp, if_pos hp]
    exact h.newBlock who place newSzB mlMallocAlignment
  rw [if_neg hp, if_neg hp]
  by_cases hn : newSzB = 0 ∧ su.clo.reallocZeroBytesFrees
  · rw [if_pos hn, if_pos hn]
    exact h.dieBlock hsorted who pOld
  rw [if_neg hn, if_neg hn]
  have hnew : Backed _ (r.run (newBlockActions su who (allocated heap place
      (if newSzB = 0 then 1 else newSzB) mlMallocAlignment))).blocks ∧ _ := h.newBlock ..
  cases hb : allocated heap place (if newSzB = 0 then 1 else newSzB) mlMallocAlignment with
  | none => exact ⟨h, rfl⟩
  | some b =>
    rw [hb] at hnew
    obtain ⟨h₂, hdrop⟩ := hnew.1.dieBlock (Registry.sorted_run hsorted _) who pOld
    rw [Registry.run_append, dropped_append, hnew.2, hdrop]
    exact ⟨h₂, rfl⟩

theorem exec (h : Backed heap r.blocks) (hsorted : SortedBy Block.payload r.blocks) (who : Caller)
    (place : Place) {op : Op} (hop : ∀ addr size, op ≠ .request (.trackBlock addr size)) :
    Backed (op.heapAfter su place heap) (r.run (op.actions su who place heap)).blocks ∧
      dropped r (op.actions su who place heap) = [] := by
  cases op with
  | malloc szB => exact h.newBlock ..
  | builtinNew szB => exact h.newBlock ..
  | builtinNewAligned szB alignB => exact h.newBlock ..
  | builtinVecNew szB => exact h.newBlock ..
  | builtinVecNewAligned szB alignB => exact h.newBlock ..
  | memalign alignB szB => exact h.newBlock ..
  | calloc nmemb size1 => exact h.newBlock ..
  | free p => exact h.dieBlock hsorted who p
  | builtinDelete p => exact h.dieBlock hsorted who p
  | builtinDeleteAligned p => exact h.dieBlock hsorted who p
  | builtinVecDelete p => exact h.dieBlock hsorted who p
  | builtinVecDeleteAligned p => exact h.dieBlock hsorted who p
  | realloc pOld newSzB => exact h.realloc hsorted who place pOld newSzB
  | mallocUsableSize p => exact ⟨h, rfl⟩
  | request req =>
    cases req with
    | trackBlock addr size => exact absurd rfl (hop addr size)
    | untrackBlock addr => exact ⟨(h.untrack hsorted addr who.ec).1, rfl⟩
    | other => exact ⟨h, rfl⟩
  | logStore addr value =>
    rw [Op.actions, Registry.run_cons, Registry.run_nil, Registry.blocks_store]
    exact ⟨h, rfl⟩
  | mxAfterStore addr size => exact ⟨h, rfl⟩
  | write addr size value => exact ⟨h, rfl⟩

/-- **Without requests no block is left outside the tree.** -/
theorem dropped_callActions {cs : List Call} (h : Backed heap r.blocks)
    (hsorted : SortedBy Block.payload r.blocks) (hcs : NoTrackRequest cs) :
    dropped r (callActions su heap cs) = [] := by
  induction cs generalizing heap r with
  | nil => rfl
  | cons c cs ih =>
    obtain ⟨hc, hcs⟩ := List.forall_mem_cons.1 hcs
    obtain ⟨h₁, hdrop⟩ : Backed (c.op.heapAfter su c.place heap) _ ∧ _ :=
      h.exec hsorted c.who c.place hc
    rw [callActions, dropped_append, hdrop, List.nil_append]
    exact ih h₁ (Registry.sorted_run hsorted _) hcs

end Backed

/-! ## Runs -/

/-- **What is allocated and what is leaked.** After any run there is one node for every tracked
block, and one block object for every tracked block and for every block that was tracked while its
start was tracked already. `ml_fini` prints the rest of the log and frees all nodes and all block
objects but the latter; a program that makes no tracking requests leaks nothing. -/
theorem mlFini_frees {su : Setup} {m : Mem} {cs : List Call} {o : Tool}
    (hrun : Run su (.init m) cs o) :
    let acts := callActions su [] cs
    let r := Registry.init.run acts
    o.trackedBlocks.size = r.blocks.length ∧
      (o.blocks.entries.map Sigma.snd).Perm (r.blocks ++ dropped .init acts) ∧
      (∀ depth : Nat, 2 * Real.logb 2 (r.blocks.length + 1) ≤ depth →
        ∃ o', mlFini su depth o = some ((), o') ∧ o'.trackedBlocks = .empty ∧
          (o'.blocks.entries.map Sigma.snd).Perm (dropped .init acts) ∧
          o'.logBuffer = [] ∧ o'.out = r.log.flatMap LogEntry.print ∧
          o'.messages = o.messages ++ finiMessages su o.stats) ∧
      (NoTrackRequest cs → dropped .init acts = []) := by
  obtain ⟨t, -, h⟩ := hrun.stands (.init su m)
  obtain ⟨cells, lost, howns, hcs, hlost⟩ := h.owns
  refine ⟨?_, ?_, fun depth hdepth => h.mlFini hdepth, fun hplain => ?_⟩
  · have hlen := congrArg List.length hcs
    rw [List.length_map] at hlen
    exact howns.size_trackedBlocks.trans hlen
  · refine (howns.objects.map Sigma.snd).trans ?_
    rw [List.map_append, hlost, List.map_map]
    refine List.Perm.append_right _ (.of_eq ?_)
    exact hcs
  · have hinit : Backed [] Registry.init.blocks := ⟨.init, fun bk hbk => by cases hbk⟩
    exact hinit.dropped_callActions List.Pairwise.nil hplain

/-- A program that asks twice for the same block to be tracked. -/
def trackTwice : List Call :=
  List.replicate 2 ⟨⟨["at 0x1: main".toList], []⟩, none, .request (.trackBlock 0x1000 64)⟩

theorem mlFini_frees_trackTwice :
    ∃ o o', Run plainSetup (.init fun _ => 0) trackTwice o ∧ o.trackedBlocks.size = 1 ∧
      mlFini plainSetup 2 o = some ((), o') ∧ o'.trackedBlocks = .empty ∧
      o'.blocks.entries.map (fun x => x.2.payload) = [0x1000] := by
  obtain ⟨o, hrun⟩ := exists_fullRun (.init plainSetup fun _ => 0) trackTwice
  obtain ⟨hsize, -, hfini, -⟩ := mlFini_frees hrun
  have hdepth : 2 * Real.logb 2
      ((Registry.init.run (callActions plainSetup [] trackTwice)).blocks.length + 1) ≤
        ((2 : Nat) : ℝ) := by
    have hlen : (Registry.init.run (callActions plainSetup [] trackTwice)).blocks.length = 1 := by
      decide
    rw [hlen]
    norm_num
  obtain ⟨o', hrun', hempty, hperm, -⟩ := hfini 2 hdepth
  refine ⟨o, o', hrun, hsize.trans (by decide), hrun', hempty, ?_⟩
  have hpay := hperm.map Block.payload
  rw [show (dropped .init (callActions plainSetup [] trackTwice)).map Block.payload = [0x1000] by
    decide, List.perm_singleton, List.map_map] at hpay
  exact hpay

end Memlog.Full
