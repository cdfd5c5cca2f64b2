import Memlog.RbTree.Balance
import Memlog.Tool.Full
import Memlog.Tool.Site

/-!
# Who owns the objects of the tool

`Owns t cs lost`: every node object belongs to a tracked block (a `Cell`), every `Block` object to a
cell or to the list `lost` of blocks that nothing points to, and the tree holds the cells in address
order. Lookups, insertions and releases act on the cells (`Owns.find`, `Owns.insert`,
`Owns.unlink`): what they follow is there, and what they free is freed once.

With ownership a full state stands for a state in which blocks are values (`Stands`), and the two
tools run in lockstep, callback by callback (`exec_lockstep`) and over whole runs (`Run.stands`).
The relation also says which blocks are lost (`dropped`: those that were tracked while their start
was tracked already) and what the counters of marked blocks are (`Counted`).
-/

namespace Memlog.Full

open Lib

/-! ## Ownership -/

/-- A tracked block with its node and its block object. -/
structure Cell where
  node : Ptr
  ptr : Ptr
  block : Block

/-- The cell as an entry of the tree. -/
def Cell.entry (c : Cell) : Ptr × Addr × Option Ptr := (c.node, c.block.payload, some c.ptr)

/-- The cell's block object. -/
def Cell.object (c : Cell) : Σ _ : Ptr, Block := ⟨c.ptr, c.block⟩

/-- The objects of the tool are the nodes and the blocks of the cells, which the tree holds in this
order, and the block objects `lost`, which nothing points to. -/
structure Owns (t : Tool) (cs : List Cell) (lost : List (Σ _ : Ptr, Block)) : Prop where
  indexed : Indexed t.trackedBlocks (cs.map Cell.entry)
  nodes : ∀ p, t.trackedBlocks.live p = true ↔ p ∈ cs.map Cell.node
  objects : t.blocks.entries.Perm (cs.map Cell.object ++ lost)

/-- An object is taken out of a store. -/
theorem perm_erase {β : Ptr → Type} {s : AList β} {a : Ptr} {b : β a} {l₁ l₂ : List (Sigma β)}
    (h : s.entries.Perm (l₁ ++ ⟨a, b⟩ :: l₂)) : (s.erase a).entries.Perm (l₁ ++ l₂) := by
  have h' : s.entries.Perm (⟨a, b⟩ :: (l₁ ++ l₂)) := h.trans List.perm_middle
  have hk := h'.kerase s.nodupKeys (a := a)
  rwa [List.kerase_cons_eq (s := ⟨a, b⟩) rfl] at hk

section Owns

variable {t t' : Tool} {cs : List Cell} {lost : List (Σ _ : Ptr, Block)} {c : Cell} {addr : Addr}

/-- Ownership is about the tree and the block objects only. -/
theorem Owns.congr (h : Owns t cs lost) (htree : t'.trackedBlocks = t.trackedBlocks)
    (hblocks : t'.blocks = t.blocks) : Owns t' cs lost := by
  refine ⟨?_, ?_, ?_⟩
  · rw [htree]
    exact h.indexed
  · rw [htree]
    exact h.nodes
  · rw [hblocks]
    exact h.objects

theorem Owns.lookup (h : Owns t cs lost) {p : Ptr} {bk : Block}
    (hx : ⟨p, bk⟩ ∈ cs.map Cell.object ++ lost) : t.blocks.lookup p = some bk :=
  AList.mem_lookup_iff.2 (h.objects.mem_iff.2 hx)

theorem Owns.loadBlock (h : Owns t cs lost) {p : Ptr} {bk : Block}
    (hx : ⟨p, bk⟩ ∈ cs.map Cell.object ++ lost) : loadBlock (some p) t = some (bk, t) := by
  rw [Full.loadBlock, Option.bind_some, h.lookup hx]
  rfl

theorem Owns.loadBlock_cell (h : Owns t cs lost) (hc : c ∈ cs) :
    Full.loadBlock (some c.ptr) t = some (c.block, t) :=
  h.loadBlock (List.mem_append_left _ (List.mem_map.2 ⟨c, hc, rfl⟩))

/-- The start address of a cell. -/
def Cell.payload (c : Cell) : Addr := c.block.payload

theorem Owns.sorted (h : Owns t cs lost) : SortedBy Cell.payload cs := by
  have ho : (cs.map Cell.entry).Pairwise fun x y => x.2.1 < y.2.1 := h.indexed.ordered
  rwa [List.pairwise_map] at ho

/-- **A lookup** returns the object of the block that a lookup by value returns. -/
theorem Owns.find (h : Owns t cs lost) (addr : Addr) :
    ∃ bk, findBlockContaining addr t = some (bk, t) ∧
      ((bk = none ∧ lookupBlock addr (cs.map Cell.block) = none) ∨
        ∃ c ∈ cs, bk = some c.ptr ∧ lookupBlock addr (cs.map Cell.block) = some c.block) := by
  have hlast : lastLeq addr (cs.map Cell.entry) = (pred Cell.payload addr cs).map Cell.entry := by
    rw [lastLeq, List.filter_map, List.getLast?_map]
    rfl
  have hpred : pred Block.payload addr (cs.map Cell.block) =
      (pred Cell.payload addr cs).map Cell.block := pred_map ..
  have hsearch : onTree (rbSearchLeq addr) t =
      some ((pred Cell.payload addr cs).map Cell.node, t) := by
    rw [onTree, h.indexed.searchLeq, hlast, Option.map_map]
    rfl
  unfold findBlockContaining lookupBlock
  rw [hpred]
  cases hp : pred Cell.payload addr cs with
  | none =>
    rw [hp] at hsearch
    refine ⟨none, ?_, .inl ⟨rfl, rfl⟩⟩
    rw [fullM_bind, hsearch]
    rfl
  | some c =>
    rw [hp] at hsearch
    obtain ⟨hc, -⟩ := (pred_eq_some h.sorted).1 hp
    obtain ⟨nd, hnd, -, hdata⟩ := h.indexed.mem (List.mem_map.2 ⟨c, hc, rfl⟩)
    have hload : onTree (load (some c.node)) t = some (nd, t) := by
      rw [onTree, load_apply, hnd]
      rfl
    rw [fullM_bind, hsearch, Option.bind_some]
    simp only [Option.map_some, Option.isNone_some, Bool.false_eq_true, if_false, fullM_bind,
      hload, Option.bind_some, hdata, h.loadBlock_cell hc]
    by_cases hlt : addr < c.block.payload + c.block.reqSzB
    · rw [if_pos hlt, Option.filter_some_pos (by simpa using hlt)]
      exact ⟨some c.ptr, rfl, .inr ⟨c, hc, rfl, rfl⟩⟩
    · rw [if_neg hlt, Option.filter_some_neg (by simpa using hlt)]
      exact ⟨none, rfl, .inl ⟨rfl, rfl⟩⟩

/-- A new block object is not in the tree yet. -/
theorem Owns.malloc (h : Owns t cs lost) {p : Ptr} (hp : t.blocks.lookup p = none) (bk : Block) :
    Owns { t with blocks := t.blocks.insert p bk } cs (lost ++ [⟨p, bk⟩]) where
  indexed := h.indexed
  nodes := h.nodes
  objects := by
    rw [AList.entries_insert_of_notMem (AList.lookup_eq_none.1 hp), ← List.append_assoc]
    exact (h.objects.cons _).trans (List.perm_append_singleton _ _).symm

/-- **`insert_block_rb`** takes a block object into the tree, or leaves it out if a block with the
same start is there. -/
theorem Owns.insert {p : Ptr} {bk : Block} {new : New} (h : Owns t cs (lost ++ [⟨p, bk⟩]))
    (hnew : t.trackedBlocks.mem new.node = none) :
    ∃ s', insertBlockRb new (some p) t = some ((), { t with trackedBlocks := s' }) ∧
      ∃ cs' lost', Owns { t with trackedBlocks := s' } cs' lost' ∧
        ⟨p, bk⟩ ∈ cs'.map Cell.object ++ lost' ∧
        cs'.map Cell.block = addBlock bk (cs.map Cell.block) ∧
        lost' = lost ++
          if bk.payload ∈ (cs.map Cell.block).map Block.payload then [⟨p, bk⟩] else [] := by
  have hload : Full.loadBlock (some p) t = some (bk, t) := h.loadBlock (by simp)
  have hrun : ∀ {s'}, Memlog.insertBlockRb new.node bk.payload (some p) t.trackedBlocks =
      some ((), s') → insertBlockRb new (some p) t = some ((), { t with trackedBlocks := s' }) := by
    intro s' hs'
    rw [insertBlockRb, fullM_bind, hload, Option.bind_some, onTree, hs']
    rfl
  rcases h.indexed.insert_live hnew bk.payload (some p) with
    ⟨hs', x, hx, hkey⟩ | ⟨s', a, b, hs', hl, h', ha, hb, hlive⟩
  · obtain ⟨c, hc, rfl⟩ := List.mem_map.1 hx
    have hin : bk.payload ∈ (cs.map Cell.block).map Block.payload := by
      rw [List.map_map, List.mem_map]
      exact ⟨c, hc, hkey⟩
    refine ⟨_, hrun hs', cs, _, h, ?_, ?_, ?_⟩
    · simp
    · rw [addBlock, if_pos hin]
    · rw [if_pos hin]
  · obtain ⟨ca, cb, rfl, rfl, rfl⟩ := List.map_eq_append_iff.1 hl
    have ha' : ∀ y ∈ ca.map Cell.block, y.payload < bk.payload := by
      intro y hy
      obtain ⟨c, hc, rfl⟩ := List.mem_map.1 hy
      exact ha c.entry (List.mem_map.2 ⟨c, hc, rfl⟩)
    have hb' : ∀ y ∈ cb.map Cell.block, bk.payload < y.payload := by
      intro y hy
      obtain ⟨c, hc, rfl⟩ := List.mem_map.1 hy
      exact hb c.entry (List.mem_map.2 ⟨c, hc, rfl⟩)
    have hout : bk.payload ∉ ((ca ++ cb).map Cell.block).map Block.payload := by
      rw [List.map_append, List.map_append, List.mem_append, not_or]
      constructor
      · intro hmem
        obtain ⟨y, hy, heq⟩ := List.mem_map.1 hmem
        exact (ha' y hy).ne heq
      · intro hmem
        obtain ⟨y, hy, heq⟩ := List.mem_map.1 hmem
        exact (hb' y hy).ne' heq
    refine ⟨s', hrun hs', ca ++ ⟨new.node, p, bk⟩ :: cb, lost, ⟨?_, ?_, ?_⟩, ?_, ?_, ?_⟩
    · rw [List.map_append, List.map_cons]
      exact h'
    · intro q
      rw [hlive, Function.update_apply]
      have hq := h.nodes q
      by_cases heq : q = new.node
      · simp [heq]
      · rw [if_neg heq, hq]
        simp [heq]
    · refine h.objects.trans ?_
      simp only [List.map_append, List.map_cons, List.append_assoc, List.cons_append]
      refine List.Perm.append_left _ ?_
      rw [← List.append_assoc]
      exact List.perm_append_singleton _ _
    · simp [Cell.object]
    · rw [addBlock, if_neg hout, List.map_append, List.map_append, List.map_cons,
        insertKey_append ha' hb']
    · rw [if_neg hout, List.append_nil]

/-- **A release** frees the two objects of the cell, each once, and nothing else. -/
theorem Owns.unlink (h : Owns t cs lost) (hc : c ∈ cs) :
    ∃ s' bs, unlinkBlock (some c.ptr) t =
        some ((), { t with trackedBlocks := s', blocks := bs }) ∧
      ∃ cs', Owns { t with trackedBlocks := s', blocks := bs } cs' lost ∧
        cs'.map Cell.block = eraseKey Block.payload c.payload (cs.map Cell.block) := by
  rcases h.indexed.delete c.payload with ⟨-, hne⟩ | ⟨s', z, d, a, b, hrun, hl, h'⟩
  · exact absurd rfl (hne c.entry (List.mem_map.2 ⟨c, hc, rfl⟩))
  · obtain ⟨ca, rest, rfl, rfl, hrest⟩ := List.map_eq_append_iff.1 hl
    obtain ⟨c', cb, rfl, hc', rfl⟩ := List.map_eq_cons_iff.1 hrest
    -- the unlinked node is the one of the cell
    obtain ⟨rfl, hpay, rfl⟩ : c'.node = z ∧ c'.payload = c.payload ∧ some c'.ptr = d := by
      simpa [Cell.entry, Cell.payload, Prod.ext_iff] using hc'
    obtain rfl : c' = c := h.sorted.eq_of_key (by simp) hc hpay
    have hlive : s'.live = t.trackedBlocks.live := rbDelete_keeps _ _ _ _ hrun
    have hnode : ∃ nd, s'.mem c'.node = some nd := by
      have hin := (h.nodes c'.node).2 (by simp)
      rw [← hlive] at hin
      exact Option.isSome_iff_exists.1 hin
    obtain ⟨nd, hnd⟩ := hnode
    have hindexed := h.indexed
    rw [hl] at hindexed
    have hout : c'.node ∉ (ca.map Cell.entry ++ cb.map Cell.entry).map (·.1) :=
      hindexed.not_mem_of_delete
    refine ⟨s'.free c'.node, t.blocks.erase c'.ptr, ?_, ca ++ cb, ⟨?_, ?_, ?_⟩, ?_⟩
    · have hdel : onTree (rbDelete c'.block.payload) t =
          some (some c'.node, { t with trackedBlocks := s' }) := by
        rw [onTree, show rbDelete c'.block.payload t.trackedBlocks = _ from hrun]
        rfl
      have hlookup : t.blocks.lookup c'.ptr = some c'.block :=
        h.lookup (List.mem_append_left _ (List.mem_map.2 ⟨c', hc, rfl⟩))
      rw [unlinkBlock, fullM_bind, h.loadBlock_cell hc, Option.bind_some, fullM_bind, hdel]
      simp only [Option.bind_some, fullM_bind, freeNode, hnd, Option.map_some, freeBlock, hlookup]
    · rw [List.map_append]
      exact h'.free hout
    · intro q
      rw [RbState.live_free, hlive, Function.update_apply]
      by_cases heq : q = c'.node
      · rw [if_pos heq, heq]
        simpa [Cell.entry] using hout
      · rw [if_neg heq, h.nodes q]
        simp [heq]
    · have hobj := h.objects
      rw [List.map_append, List.map_cons, List.append_assoc, List.cons_append] at hobj
      rw [List.map_append, List.append_assoc]
      exact perm_erase hobj
    · have hsorted : SortedBy Block.payload ((ca ++ c' :: cb).map Cell.block) :=
        List.pairwise_map.2 h.sorted
      rw [List.map_append, List.map_cons] at hsorted
      rw [List.map_append, List.map_append, List.map_cons]
      exact (eraseKey_append hsorted).symm

end Owns

/-! ## The part of the state without objects -/

/-- The state without its tree. -/
def blind (t : Memlog.Tool) : Memlog.Tool := { t with trackedBlocks := .empty }

/-- The computation does not use the tree. -/
def Blind {α : Type} (x : ToolM α) : Prop :=
  ∀ t s, x { t with trackedBlocks := s } = (x t).map fun r => (r.1, { r.2 with trackedBlocks := s })

/-- The state with another part outside the objects. -/
def Tool.withBase (o : Tool) (t : Memlog.Tool) : Tool :=
  { o with logBuffer := t.logBuffer, out := t.out, heap := t.heap, mem := t.mem }

section Lift

variable {α : Type} {x : ToolM α} {o : Tool} {t t' : Memlog.Tool} {a : α}

/-- What does not use the tree does the same in both states. -/
theorem lift_run (hx : Blind x) (hbase : o.base = blind t) (hrun : x t = some (a, t')) :
    lift x o = some (a, o.withBase t') := by
  rw [lift, hbase, blind, hx, hrun]
  rfl

theorem withBase_self (hbase : o.base = blind t) : o.withBase t = o := by
  have hlog : o.logBuffer = t.logBuffer := congrArg Memlog.Tool.logBuffer hbase
  have hout : o.out = t.out := congrArg Memlog.Tool.out hbase
  have hheap : o.heap = t.heap := congrArg Memlog.Tool.heap hbase
  have hmem : o.mem = t.mem := congrArg Memlog.Tool.mem hbase
  rw [Tool.withBase, ← hlog, ← hout, ← hheap, ← hmem]

theorem blind_addToBuffer (su : Setup) (entry : LogEntry) : Blind (addToBuffer su entry) := by
  intro t s
  unfold addToBuffer
  dsimp only
  by_cases hfull : su.maxLogEntries ≤ (t.logBuffer ++ [entry]).length
  · rw [if_pos hfull, if_pos hfull]
    rfl
  · rw [if_neg hfull, if_neg hfull]
    rfl

theorem blind_cliMalloc (place : Place) (alignB szB : SizeT) :
    Blind (cliMalloc place alignB szB) := by
  intro t s
  unfold cliMalloc
  dsimp only
  cases cliBlock t.heap place alignB szB <;> rfl

end Lift

/-! ## Messages -/

/-- The message about an allocating statement. -/
def siteMessage (szB : SizeT) (statement : Addr × Line) : Line :=
  "MXSITE ".toList ++ ("0x".toList ++ printHexUpper statement.1) ++ " ".toList ++ statement.2 ++
    " ".toList ++ printDec szB

/-- The messages of `mx_site_selected` about a block. -/
def siteMessages (su : Setup) (szB : SizeT) (frames : List Frame) : List Line :=
  if su.clo.mxListSites then ((mxSiteFrame frames).map (siteMessage szB)).toList else []

theorem mxSiteSearch_run (su : Setup) (szB : SizeT) (frames : List Frame) (o : Tool) :
    mxSiteSearch su szB frames o = some (Memlog.mxSiteSearch su.mxSites frames,
      { o with messages := o.messages ++ siteMessages su szB frames }) := by
  have hnone : o = { o with messages := o.messages ++ [] } := by rw [List.append_nil]
  induction frames with
  | nil =>
    rw [mxSiteSearch, siteMessages]
    split
    · exact congrArg (fun o => some (false, o)) hnone
    · exact congrArg (fun o => some (false, o)) hnone
  | cons fr frames ih =>
    obtain ⟨ip, fn⟩ := fr
    cases fn with
    | none => exact ih
    | some fn =>
      rw [mxSiteSearch, Memlog.mxSiteSearch]
      by_cases halloc : isAllocatorFrame fn
      · have hframe : mxSiteFrame (⟨ip, some fn⟩ :: frames) = mxSiteFrame frames := by
          rw [mxSiteFrame, List.findSome?_cons, statement_some, if_pos halloc]
          rfl
        rw [if_pos halloc, if_pos halloc, siteMessages, hframe]
        exact ih
      · have hframe : mxSiteFrame (⟨ip, some fn⟩ :: frames) = some (ip, fn) := by
          rw [mxSiteFrame, List.findSome?_cons, statement_some, if_neg halloc]
        rw [if_neg halloc, if_neg halloc, siteMessages, hframe]
        cases su.clo.mxListSites with
        | true => rfl
        | false => exact congrArg (fun o => some (_, o)) hnone

/-- `mx_site_selected` decides as without messages. -/
theorem mxSiteSelected_run (su : Setup) (who : Caller) (szB : SizeT) (o : Tool) :
    ∃ lines, mxSiteSelected su who szB o =
      some (Memlog.mxSiteSelected su who, { o with messages := o.messages ++ lines }) := by
  unfold mxSiteSelected Memlog.mxSiteSelected
  by_cases hall : (su.mxSites.isEmpty && !su.clo.mxListSites) = true
  · refine ⟨[], ?_⟩
    rw [if_pos hall, hall, Bool.true_or, List.append_nil]
    rfl
  · refine ⟨siteMessages su szB (who.frames.take 16), ?_⟩
    rw [if_neg hall, Bool.eq_false_iff.2 hall, Bool.false_or]
    exact mxSiteSearch_run ..

/-! ## Full states and states without objects -/

/-- The block that an action leaves outside the tree, since its start is tracked. -/
def droppedBy (r : Registry) : Action → List Block
  | .track bk => if r.blocks.any fun b => b.payload = bk.payload then [bk] else []
  | .untrack _ _ | .store _ _ => []

theorem droppedBy_track (r : Registry) (bk : Block) : droppedBy r (.track bk) =
    if bk.payload ∈ r.blocks.map Block.payload then [bk] else [] := by
  have hiff : (r.blocks.any fun b => b.payload = bk.payload) = true ↔
      bk.payload ∈ r.blocks.map Block.payload := by
    simp
  rw [droppedBy]
  exact if_congr hiff rfl rfl

/-- The blocks that a run leaves outside the tree. -/
def dropped (r : Registry) : List Action → List Block
  | [] => []
  | act :: acts => droppedBy r act ++ dropped (r.step act) acts

theorem dropped_append (r : Registry) (acts acts' : List Action) :
    dropped r (acts ++ acts') = dropped r acts ++ dropped (r.run acts) acts' := by
  induction acts generalizing r with
  | nil => rfl
  | cons act acts ih =>
    rw [List.cons_append, dropped, dropped, ih, List.append_assoc, Registry.run_cons]

/-- The block that an action marks. -/
def markedBy : Action → List Block
  | .track bk => if bk.mx then [bk] else []
  | .untrack _ _ | .store _ _ => []

/-- What the counters of marked blocks say after the actions. -/
structure Counted (st : MxStats) (acts : List Action) : Prop where
  blocks : st.blocksMarked = BitVec.ofNat 64 (acts.flatMap markedBy).length
  bytes : st.bytesMarked =
    BitVec.ofNat 64 ((acts.flatMap markedBy).map fun bk => bk.reqSzB.toNat).sum

/-- The full state stands for the state without objects that the actions have led to: it has the
objects of the tracked blocks and of the blocks left outside the tree, and agrees otherwise. -/
structure Stands (su : Setup) (o : Tool) (t : Memlog.Tool) (acts : List Action) : Prop where
  refines : Refines su t (Registry.init.run acts)
  base : o.base = blind t
  owns : ∃ cs lost, Owns o cs lost ∧ cs.map Cell.block = (Registry.init.run acts).blocks ∧
    lost.map Sigma.snd = dropped .init acts
  counted : Counted o.stats acts

section Stands

variable {su : Setup} {o o' : Tool} {t t' : Memlog.Tool} {acts : List Action}

theorem Stands.init (su : Setup) (m : Mem) : Stands su (.init m) (.init m) [] where
  refines := .init su m
  base := rfl
  owns := by
    refine ⟨[], [], ⟨.empty, fun p => ?_, .nil⟩, rfl, rfl⟩
    simp [Tool.init, RbState.live, RbState.mem, RbState.empty]
  counted := ⟨rfl, rfl⟩

/-- The actions of a step. -/
theorem registry_run_snoc (r : Registry) (acts : List Action) (act : Action) :
    r.run (acts ++ [act]) = (r.run acts).step act := Registry.run_append r acts [act]

/-- A computation that uses neither the tree nor the log. -/
theorem Stands.lift {α : Type} {x : ToolM α} {a : α} (h : Stands su o t acts) (hx : Blind x)
    (hrun : x t = some (a, t')) (htree : t'.trackedBlocks = t.trackedBlocks)
    (hbuffer : t'.logBuffer = t.logBuffer) (hout : t'.out = t.out) :
    Full.lift x o = some (a, o.withBase t') ∧ Stands su (o.withBase t') t' acts := by
  refine ⟨lift_run hx h.base hrun, h.refines.congr htree hbuffer hout, rfl, ?_, h.counted⟩
  obtain ⟨cs, lost, howns, hcs, hlost⟩ := h.owns
  exact ⟨cs, lost, howns.congr rfl rfl, hcs, hlost⟩

/-- **Entering a new block object** does what tracking a block by value does. -/
theorem enterBlock_lockstep {cs : List Cell} {lost : List (Σ _ : Ptr, Block)} {p : Ptr} {bk : Block}
    {new : New} (hrefines : Refines su t (Registry.init.run acts)) (hbase : o.base = blind t)
    (howns : Owns o cs (lost ++ [⟨p, bk⟩]))
    (hcs : cs.map Cell.block = (Registry.init.run acts).blocks)
    (hlost : lost.map Sigma.snd = dropped .init acts)
    (hnode : o.trackedBlocks.mem new.node = none)
    (hcounted : Counted o.stats (acts ++ [.track bk])) :
    Lockstep (enterBlock su new (some p) bk.payload bk.reqSzB) o (trackBlock su bk) t
      fun _ o' _ t' => Stands su o' t' (acts ++ [.track bk]) := by
  obtain ⟨s', hinsert, cs', lost', howns', hobj, hcs', hlost'⟩ := howns.insert hnode
  obtain ⟨s₂, hins, htracks⟩ := hrefines.tracks.insert bk
  have hrefines₁ : Refines su { t with trackedBlocks := s₂ }
      ⟨addBlock bk (Registry.init.run acts).blocks, (Registry.init.run acts).log⟩ :=
    ⟨htracks, hrefines.printed, hrefines.pending⟩
  obtain ⟨t', hadd, hrefines', -⟩ :=
    addToBuffer_refines hrefines₁ (.alloc bk.payload bk.reqSzB (some bk.allocEc))
  have hbase₁ : ({ o with trackedBlocks := s' } : Tool).base =
      blind { t with trackedBlocks := s₂ } := hbase
  refine ⟨(), ({ o with trackedBlocks := s' } : Tool).withBase t', (), t', ?_, ?_, ?_, rfl, ?_,
    hcounted⟩
  · rw [enterBlock, fullM_bind, hinsert, Option.bind_some, fullM_bind, howns'.loadBlock hobj,
      Option.bind_some]
    exact lift_run (blind_addToBuffer su _) hbase₁ hadd
  · rw [trackBlock, toolM_bind, onTracked, hins]
    exact hadd
  · rw [registry_run_snoc]
    exact hrefines'
  · refine ⟨cs', lost', howns'.congr rfl rfl, ?_, ?_⟩
    · rw [hcs', hcs, registry_run_snoc]
      rfl
    · rw [hlost', dropped_append, List.map_append, hlost, hcs]
      congr 1
      rw [dropped, dropped, List.append_nil, droppedBy_track]
      split <;> rfl

/-- A lookup finds the object of the block that is found by value. -/
theorem Stands.find (h : Stands su o t acts) (addr : Addr) :
    ∃ bk, findBlockContaining addr o = some (bk, o) ∧
      onTracked (Memlog.findBlockContaining addr) t =
        some (lookupBlock addr (Registry.init.run acts).blocks, t) ∧
      ((bk = none ∧ lookupBlock addr (Registry.init.run acts).blocks = none) ∨
        ∃ b, lookupBlock addr (Registry.init.run acts).blocks = some b ∧ bk.isSome ∧
          loadBlock bk o = some (b, o)) := by
  obtain ⟨cs, lost, howns, hcs, -⟩ := h.owns
  obtain ⟨bk, hrun, hcase⟩ := howns.find addr
  rw [hcs] at hcase
  refine ⟨bk, hrun, h.refines.find addr, hcase.imp_right ?_⟩
  rintro ⟨c, hc, rfl, hlookup⟩
  exact ⟨c.block, hlookup, rfl, howns.loadBlock_cell hc⟩

/-- **Releasing a block object** does what untracking a block by value does. -/
theorem releaseBlock_lockstep (h : Stands su o t acts) (who : Caller) (addr : Addr) :
    Lockstep (releaseBlock su who addr) o (untrackBlock su who addr) t
      fun _ o' _ t' => Stands su o' t' (acts ++ [.untrack addr who.ec]) := by
  obtain ⟨cs, lost, howns, hcs, hlost⟩ := h.owns
  obtain ⟨bk, hfind, hcase⟩ := howns.find addr
  have hdrop : dropped .init (acts ++ [.untrack addr who.ec]) = dropped .init acts := by
    rw [dropped_append]
    exact List.append_nil _
  have hcounted : Counted o.stats (acts ++ [.untrack addr who.ec]) := by
    obtain ⟨hblocks, hbytes⟩ := h.counted
    constructor
    · rwa [List.flatMap_append, List.flatMap_singleton, markedBy, List.append_nil]
    · rwa [List.flatMap_append, List.flatMap_singleton, markedBy, List.append_nil]
  rw [hcs] at hcase
  have hstep := registry_run_snoc .init acts (.untrack addr who.ec)
  -- nothing is released unless the block starts at the address
  have hnothing : (Registry.init.run acts).step (.untrack addr who.ec) = Registry.init.run acts →
      Stands su o t (acts ++ [.untrack addr who.ec]) := by
    intro heq
    rw [heq] at hstep
    refine ⟨?_, h.base, ⟨cs, lost, howns, ?_, ?_⟩, hcounted⟩
    · rw [hstep]
      exact h.refines
    · rw [hstep, hcs]
    · rw [hdrop, hlost]
  unfold releaseBlock untrackBlock
  rcases hcase with ⟨rfl, hlookup⟩ | ⟨c, hc, rfl, hlookup⟩
  · refine ⟨(), o, (), t, ?_, ?_, hnothing ?_⟩
    · rw [fullM_bind, hfind]
      rfl
    · rw [toolM_bind, h.refines.find addr, hlookup]
      rfl
    · simp only [Registry.step, hlookup]
  · by_cases hstart : c.block.payload = addr
    · obtain ⟨t₁, hadd, h₁, -⟩ :=
        addToBuffer_refines h.refines (.free addr c.block.reqSzB (some who.ec))
      obtain ⟨s', hremove, htracks⟩ := h₁.tracks.remove c.block
      have hc₁ : Owns (o.withBase t₁) cs lost := howns.congr rfl rfl
      obtain ⟨s₂, bs, hunlink, cs', howns', hcs'⟩ := hc₁.unlink hc
      have hlog := lift_run (blind_addToBuffer su _) h.base hadd
      refine ⟨(), { o.withBase t₁ with trackedBlocks := s₂, blocks := bs }, (),
        { t₁ with trackedBlocks := s' }, ?_, ?_, ⟨?_, rfl, ?_, hcounted⟩⟩
      · simp only [fullM_bind, hfind, Option.bind_some, Option.isSome_some, if_true,
          howns.loadBlock_cell hc, if_pos hstart, hlog]
        exact hunlink
      · rw [toolM_bind, h.refines.find addr, hlookup]
        simp only [Option.bind_some, if_pos hstart, toolM_bind, hadd, onTracked, hremove,
          Option.map_some]
      · rw [hstep]
        simp only [Registry.step, hlookup, if_pos hstart]
        rw [← hstart]
        rw [← hstart] at h₁
        exact ⟨htracks, h₁.printed, h₁.pending⟩
      · refine ⟨cs', lost, howns', ?_, ?_⟩
        · rw [hcs', hcs, hstep]
          simp only [Registry.step, hlookup, if_pos hstart]
          rw [← hstart]
          rfl
        · rw [hdrop, hlost]
    · refine ⟨(), o, (), t, ?_, ?_, hnothing ?_⟩
      · simp only [fullM_bind, hfind, Option.bind_some, Option.isSome_some, if_true,
          howns.loadBlock_cell hc, if_neg hstart, fullM_pure]
      · rw [toolM_bind, h.refines.find addr, hlookup]
        simp only [Option.bind_some, if_neg hstart, toolM_pure]
      · simp only [Registry.step, hlookup, if_neg hstart]

/-- The messages play no part. -/
theorem Stands.messages (h : Stands su o t acts) (lines : List Line) :
    Stands su { o with messages := lines } t acts := by
  refine ⟨h.refines, h.base, ?_, h.counted⟩
  obtain ⟨cs, lost, howns, hcs, hlost⟩ := h.owns
  exact ⟨cs, lost, howns.congr rfl rfl, hcs, hlost⟩

/-- The counters when a block is tracked. -/
theorem Counted.track {st : MxStats} (h : Counted st acts) (bk : Block) :
    Counted (if bk.mx then countMarked bk.reqSzB st else st) (acts ++ [.track bk]) := by
  obtain ⟨hblocks, hbytes⟩ := h
  by_cases hmx : bk.mx
  · rw [if_pos hmx]
    constructor
    · simp [countMarked, hblocks, markedBy, hmx, BitVec.ofNat_add]
    · simp [countMarked, hbytes, markedBy, hmx, BitVec.ofNat_add]
  · rw [if_neg hmx]
    constructor
    · simp [hblocks, markedBy, hmx]
    · simp [hbytes, markedBy, hmx]

/-- The counters when no block is tracked. -/
theorem Counted.same {st : MxStats} {act : Action} (h : Counted st acts)
    (hact : markedBy act = []) : Counted st (acts ++ [act]) := by
  obtain ⟨hblocks, hbytes⟩ := h
  constructor
  · rwa [List.flatMap_append, List.flatMap_singleton, hact, List.append_nil]
  · rwa [List.flatMap_append, List.flatMap_singleton, hact, List.append_nil]

/-- **A block object is made and entered.** -/
theorem mallocBlock_lockstep {new : New} (h : Stands su o t acts) (hnew : new.Fresh o)
    (bk : Block) :
    Lockstep (do
        let p ← mallocBlock new.block bk
        if (← loadBlock p).mx then count (countMarked bk.reqSzB)
        enterBlock su new p bk.payload bk.reqSzB) o (trackBlock su bk) t
      fun _ o' _ t' => Stands su o' t' (acts ++ [.track bk]) := by
  obtain ⟨cs, lost, howns, hcs, hlost⟩ := h.owns
  have hmalloc := howns.malloc hnew.block bk
  have hload : loadBlock (some new.block) _ = some (bk, _) := hmalloc.loadBlock (by simp)
  have hcounted := h.counted.track bk
  refine Lockstep.left rfl (Lockstep.left hload ?_)
  by_cases hmx : bk.mx
  · rw [if_pos hmx] at hcounted ⊢
    refine Lockstep.left rfl ?_
    exact enterBlock_lockstep h.refines h.base (hmalloc.congr rfl rfl) hcs hlost hnew.node hcounted
  · rw [if_neg hmx] at hcounted ⊢
    exact enterBlock_lockstep h.refines h.base hmalloc hcs hlost hnew.node hcounted

theorem New.Fresh.congr {new : New} (hnew : new.Fresh o) (hblocks : o'.blocks = o.blocks)
    (htree : o'.trackedBlocks = o.trackedBlocks) : new.Fresh o' := by
  refine ⟨?_, ?_⟩
  · rw [hblocks]
    exact hnew.block
  · rw [htree]
    exact hnew.node

theorem trackNewBlock_lockstep {new : New} (h : Stands su o t acts) (hnew : new.Fresh o)
    (who : Caller) (p : Addr) (szB : SizeT) :
    Lockstep (trackNewBlock su who new p szB) o (trackBlock su (heapBlock su who p szB)) t
      fun _ o' _ t' => Stands su o' t' (acts ++ [.track (heapBlock su who p szB)]) := by
  unfold trackNewBlock
  by_cases hmx : su.clo.mxRound
  · obtain ⟨lines, hsel⟩ := mxSiteSelected_run su who szB o
    have hbk : heapBlock su who p szB = ⟨p, szB, who.ec, Memlog.mxSiteSelected su who⟩ := by
      rw [heapBlock, hmx, Bool.true_and]
    rw [if_pos hmx, hbk]
    refine Lockstep.left hsel ?_
    exact mallocBlock_lockstep (h.messages (o.messages ++ lines)) (hnew.congr rfl rfl)
      ⟨p, szB, who.ec, Memlog.mxSiteSelected su who⟩
  · have hbk : heapBlock su who p szB = ⟨p, szB, who.ec, false⟩ := by
      rw [heapBlock, Bool.eq_false_iff.2 hmx, Bool.false_and]
    rw [if_neg hmx, hbk]
    refine Lockstep.left (fullM_pure false o) ?_
    exact mallocBlock_lockstep h hnew ⟨p, szB, who.ec, false⟩

/-! ## Callbacks -/

theorem newBlock_lockstep {new : New} (h : Stands su o t acts) (hnew : new.Fresh o)
    (who : Caller) (place : Place) (szB alignB : SizeT) (isZeroed : Bool) :
    Lockstep (newBlock su who place new szB alignB isZeroed) o
      (Memlog.newBlock su who place szB alignB isZeroed) t
      fun a o' b t' => a = b ∧ a = (allocated t.heap place szB alignB).map CliBlock.start ∧
        Stands su o' t' (acts ++ newBlockActions su who (allocated t.heap place szB alignB)) := by
  unfold newBlock Memlog.newBlock allocated
  refine Lockstep.ite (fun hneg => ?_) (fun hneg => ?_)
  · rw [if_pos hneg, newBlockActions, List.append_nil]
    exact Lockstep.pure ⟨rfl, rfl, h⟩
  · rw [if_neg hneg]
    generalize (if szB = 0 then 1 else szB) = szB
    dsimp only
    cases hb : cliBlock t.heap place alignB szB with
    | none =>
      have hmalloc : cliMalloc place alignB szB t = some (none, t) := by rw [cliMalloc, hb]
      obtain ⟨hlift, h₁⟩ := h.lift (blind_cliMalloc place alignB szB) hmalloc rfl rfl rfl
      rw [newBlockActions, List.append_nil]
      refine ⟨none, o.withBase t, none, t, ?_, ?_, rfl, rfl, h₁⟩
      · rw [fullM_bind, hlift]
        rfl
      · rw [toolM_bind, hmalloc]
        rfl
    | some b =>
      have hsize : b.size = szB := (cliBlock_spec hb).1
      have hmalloc : cliMalloc place alignB szB t =
          some (some b.start, { t with heap := b :: t.heap }) := by rw [cliMalloc, hb]
      obtain ⟨hlift, h₁⟩ := h.lift (blind_cliMalloc place alignB szB) hmalloc rfl rfl rfl
      have htail : ∀ o₁ t₁, Stands su o₁ t₁ acts → new.Fresh o₁ →
          Lockstep (do
              if su.clo.minBlockSize ≤ szB.toNat then trackNewBlock su who new b.start szB
              return some b.start) o₁ (do
              if su.clo.minBlockSize ≤ szB.toNat then trackBlock su (heapBlock su who b.start szB)
              return some b.start) t₁
            fun a o' b' t' => a = b' ∧ a = some b.start ∧
              Stands su o' t' (acts ++ newBlockActions su who (some b)) := by
        intro o₁ t₁ h₁ hnew₁
        rw [newBlockActions, hsize]
        refine Lockstep.ite (fun hbig => ?_) (fun hbig => ?_)
        · rw [if_pos hbig]
          refine Lockstep.bind (trackNewBlock_lockstep h₁ hnew₁ who b.start szB) ?_
          intro _ o₂ _ t₂ h₂
          exact Lockstep.pure ⟨rfl, rfl, h₂⟩
        · rw [if_neg hbig, List.append_nil]
          exact Lockstep.pure ⟨rfl, rfl, h₁⟩
      refine Lockstep.bind (Q := fun a o' b' t' => a = some b.start ∧ b' = some b.start ∧
        Stands su o' t' acts ∧ new.Fresh o')
        ⟨_, _, _, _, hlift, hmalloc, rfl, rfl, h₁, hnew.congr rfl rfl⟩ ?_
      rintro a o₁ b' t₁ ⟨rfl, rfl, h₁, hnew₁⟩
      cases isZeroed with
      | false => exact htail o₁ t₁ h₁ hnew₁
      | true =>
        have hset : vgMemset b.start 0 szB t₁ =
          some ((), { t₁ with mem := t₁.mem.fill b.start 0 szB.toNat }) := rfl
        obtain ⟨hlift, h₂⟩ := h₁.lift (fun _ _ => rfl) hset rfl rfl rfl
        refine Lockstep.bind (Q := fun _ o' _ t' => Stands su o' t' acts ∧ new.Fresh o')
          ⟨_, _, _, _, hlift, hset, h₂, hnew₁.congr rfl rfl⟩ ?_
        intro _ o₂ _ t₂ h₂
        exact htail o₂ t₂ h₂.1 h₂.2

theorem dieBlock_lockstep (h : Stands su o t acts) (who : Caller) (p : Addr) :
    Lockstep (dieBlock su who p) o (Memlog.dieBlock su who p) t
      fun _ o' _ t' => Stands su o' t' (acts ++ dieBlockActions who p) := by
  unfold dieBlock Memlog.dieBlock dieBlockActions
  refine Lockstep.ite (fun hp => ?_) (fun hp => ?_)
  · rw [if_pos hp, List.append_nil]
    exact Lockstep.pure h
  · rw [if_neg hp]
    refine Lockstep.bind (releaseBlock_lockstep h who p) ?_
    intro _ o₁ _ t₁ h₁
    have hfree : cliFree p t₁ =
        some ((), { t₁ with heap := t₁.heap.filter fun b => b.start ≠ p }) := rfl
    obtain ⟨hlift, h₂⟩ := h₁.lift (fun _ _ => rfl) hfree rfl rfl rfl
    exact ⟨_, _, _, _, hlift, hfree, h₂⟩

/-- `ml_realloc` of a block that is neither `NULL` nor released. -/
theorem reallocCopy_lockstep {new : New} (h : Stands su o t acts) (hnew : new.Fresh o)
    (who : Caller) (place : Place) {pOld : Addr} {newSzB : SizeT} (hp : pOld ≠ 0)
    (hn : ¬(newSzB = 0 ∧ su.clo.reallocZeroBytesFrees)) (oldSzB : SizeT) :
    ∃ a o' t', reallocCopy su who place new pOld oldSzB (if newSzB = 0 then 1 else newSzB) o =
        some (a, o') ∧
      (Memlog.newBlock su who place (if newSzB = 0 then 1 else newSzB) mlMallocAlignment false
        t).bind (reallocMove su who pOld (min oldSzB (if newSzB = 0 then 1 else newSzB))) =
        some (a, t') ∧
      Stands su o' t' (acts ++ reallocActions su who place t.heap pOld newSzB) := by
  rw [reallocActions, if_neg hp, if_neg hn]
  generalize (if newSzB = 0 then 1 else newSzB) = newSzB
  obtain ⟨a, o₁, _, t₁, hrun, hrun', rfl, ha, h₁⟩ :=
    newBlock_lockstep h hnew who place newSzB mlMallocAlignment false
  rw [reallocCopy, fullM_bind, hrun, hrun', Option.bind_some, Option.bind_some]
  cases hb : allocated t.heap place newSzB mlMallocAlignment with
  | none =>
    rw [hb] at ha h₁
    subst ha
    exact ⟨none, o₁, t₁, rfl, rfl, h₁⟩
  | some b =>
    rw [hb] at ha h₁
    subst ha
    have hmove : vgMemmove b.start pOld (min oldSzB newSzB) t₁ = some ((), { t₁ with
      mem := t₁.mem.move b.start pOld (min oldSzB newSzB).toNat }) := rfl
    obtain ⟨hlift, h₂⟩ := h₁.lift (fun _ _ => rfl) hmove rfl rfl rfl
    obtain ⟨_, o₃, _, t₃, hdie, hdie', h₃⟩ := dieBlock_lockstep h₂ who pOld
    refine ⟨some b.start, o₃, t₃, ?_, ?_, ?_⟩
    · simp only [Option.map_some, fullM_bind, hlift, Option.bind_some, hdie, fullM_pure]
    · rw [Option.map_some, reallocMove, hdie']
      rfl
    · rwa [← List.append_assoc]

theorem mlRealloc_lockstep {new : New} (h : Stands su o t acts) (hnew : new.Fresh o)
    (who : Caller) (place : Place) (pOld : Addr) (newSzB : SizeT) :
    Lockstep (mlRealloc su who place new pOld newSzB) o
      (Memlog.mlRealloc su who place pOld newSzB) t
      fun a o' b t' => a = b ∧
        Stands su o' t' (acts ++ reallocActions su who place t.heap pOld newSzB) := by
  by_cases hp : pOld = 0
  · rw [mlRealloc, Memlog.mlRealloc, reallocActions, if_pos hp, if_pos hp, if_pos hp]
    refine (newBlock_lockstep h hnew who place newSzB mlMallocAlignment false).imp ?_
    intro a o' b t' h'
    exact ⟨h'.1, h'.2.2⟩
  by_cases hn : newSzB = 0 ∧ su.clo.reallocZeroBytesFrees
  · rw [mlRealloc, Memlog.mlRealloc, reallocActions, if_neg hp, if_pos hn, if_neg hp, if_pos hn,
      if_neg hp, if_pos hn]
    refine Lockstep.bind (dieBlock_lockstep h who pOld) ?_
    intro _ o₁ _ t₁ h₁
    exact Lockstep.pure ⟨rfl, h₁⟩
  -- the size of the old block is the one that is found by value
  obtain ⟨bk, hfind, -, hcase⟩ := h.find pOld
  have hsize : ∃ o₁, Stands su o₁ t acts ∧ new.Fresh o₁ ∧
      mlRealloc su who place new pOld newSzB o =
        reallocCopy su who place new pOld (reallocOldSize t (Registry.init.run acts) pOld)
          (if newSzB = 0 then 1 else newSzB) o₁ := by
    rw [mlRealloc, if_neg hp, if_neg hn, reallocOldSize]
    rcases hcase with ⟨rfl, hnone⟩ | ⟨b, hsome, hbk, hload⟩
    · have husable : cliMallocUsableSize pOld t = some (_, t) := rfl
      obtain ⟨hlift, h₁⟩ := h.lift (fun _ _ => rfl) husable rfl rfl rfl
      refine ⟨o.withBase t, h₁, hnew.congr rfl rfl, ?_⟩
      rw [hnone]
      simp only [fullM_bind, hfind, Option.bind_some, Option.isSome_none, Bool.false_eq_true,
        if_false, hlift]
    · refine ⟨o, h, hnew, ?_⟩
      rw [hsome]
      have hreq : (Block.reqSzB <$> loadBlock bk) o = some (b.reqSzB, o) :=
        congrArg (·.bind fun r => some (r.1.reqSzB, r.2)) hload
      simp only [fullM_bind, hfind, Option.bind_some, if_pos hbk, hreq]
  obtain ⟨o₁, h₁, hnew₁, hrun⟩ := hsize
  obtain ⟨a, o', t', hcopy, hcopy', h'⟩ := reallocCopy_lockstep h₁ hnew₁ who place hp hn
    (reallocOldSize t (Registry.init.run acts) pOld)
  refine ⟨a, o', a, t', hrun.trans hcopy, ?_, rfl, h'⟩
  exact (mlRealloc_copy h.refines who place hp hn).trans hcopy'

theorem mlMallocUsableSize_lockstep (h : Stands su o t acts) (p : Addr) :
    Lockstep (mlMallocUsableSize p) o (Memlog.mlMallocUsableSize p) t
      fun a o' b t' => a = b ∧ Stands su o' t' acts := by
  obtain ⟨bk, hfind, hfind', hcase⟩ := h.find p
  obtain ⟨n, husable⟩ : ∃ n, cliMallocUsableSize p t = some (n, t) := ⟨_, rfl⟩
  obtain ⟨hlift, h₁⟩ := h.lift (fun _ _ => rfl) husable rfl rfl rfl
  unfold mlMallocUsableSize Memlog.mlMallocUsableSize
  rcases hcase with ⟨rfl, hnone⟩ | ⟨b, hsome, hbk, hload⟩
  · rw [hnone] at hfind'
    refine ⟨n, o.withBase t, n, t, ?_, ?_, rfl, h₁⟩
    · simp only [fullM_bind, hfind, Option.bind_some, Option.isSome_none, Bool.false_eq_true,
        if_false]
      exact hlift
    · simp only [toolM_bind, hfind', Option.bind_some]
      exact husable
  · rw [hsome] at hfind'
    by_cases hstart : b.payload = p
    · refine ⟨b.reqSzB, o, b.reqSzB, t, ?_, ?_, rfl, h⟩
      · simp only [fullM_bind, hfind, Option.bind_some, if_pos hbk, hload, if_pos hstart,
          fullM_pure]
      · simp only [toolM_bind, hfind', Option.bind_some, if_pos hstart, toolM_pure]
    · refine ⟨n, o.withBase t, n, t, ?_, ?_, rfl, h₁⟩
      · simp only [fullM_bind, hfind, Option.bind_some, if_pos hbk, hload, if_neg hstart]
        exact hlift
      · simp only [toolM_bind, hfind', Option.bind_some, if_neg hstart]
        exact husable

theorem mlHandleClientRequest_lockstep {new : New} (h : Stands su o t acts) (hnew : new.Fresh o)
    (who : Caller) (place : Place) (req : ClientRequest) :
    Lockstep (mlHandleClientRequest su who new req) o (Memlog.mlHandleClientRequest su who req) t
      fun a o' b t' => a = b ∧
        Stands su o' t' (acts ++ (Op.request req).actions su who place t.heap) := by
  cases req with
  | trackBlock addr size =>
    rw [mlHandleClientRequest, Memlog.mlHandleClientRequest, Op.actions]
    refine Lockstep.ite (fun hsize => ?_) (fun hsize => ?_)
    · rw [if_pos hsize]
      obtain ⟨cs, lost, howns, hcs, hlost⟩ := h.owns
      have hmalloc := howns.malloc hnew.block (clientBlock who addr size)
      have hcounted := h.counted.track (clientBlock who addr size)
      have henter : Lockstep _ _ (trackBlock su (clientBlock who addr size)) t _ :=
        enterBlock_lockstep (o := { o with blocks := o.blocks.insert new.block _ }) h.refines
          h.base hmalloc hcs hlost hnew.node hcounted
      refine Lockstep.left rfl (Lockstep.bind henter ?_)
      intro _ o' _ t' h'
      exact Lockstep.pure ⟨rfl, h'⟩
    · rw [if_neg hsize, List.append_nil]
      exact Lockstep.pure ⟨rfl, h⟩
  | untrackBlock addr =>
    refine Lockstep.bind (releaseBlock_lockstep h who addr) ?_
    intro _ o' _ t' h'
    exact Lockstep.pure ⟨rfl, h'⟩
  | other =>
    rw [Op.actions, List.append_nil]
    exact Lockstep.pure ⟨rfl, h⟩

theorem logStore_lockstep (h : Stands su o t acts) (addr : Addr) (value : HWord) :
    Lockstep (logStore su addr value) o (Memlog.logStore su addr value) t
      fun _ o' _ t' => Stands su o' t' (acts ++ [.store addr value]) := by
  obtain ⟨cs, lost, howns, hcs, hlost⟩ := h.owns
  obtain ⟨bk, hfind, -, hcase⟩ := h.find addr
  have htracked : isTracked addr o =
      some ((lookupBlock addr (Registry.init.run acts).blocks).isSome, o) := by
    refine (congrArg (·.bind fun r => some (r.1.isSome, r.2)) hfind).trans ?_
    rcases hcase with ⟨rfl, hnone⟩ | ⟨b, hsome, hbk, -⟩
    · rw [hnone]
      rfl
    · rw [hsome, Option.bind_some, hbk]
      rfl
  obtain ⟨t', hrun', h', -⟩ := logStore_refines h.refines addr value
  rw [← registry_run_snoc] at h'
  -- the object side logs the same record
  have hrun : logStore su addr value o = some ((), o.withBase t') := by
    rw [Memlog.logStore, toolM_bind, h.refines.isTracked, Option.bind_some] at hrun'
    rw [logStore, fullM_bind, htracked, Option.bind_some]
    by_cases hsome : (lookupBlock addr (Registry.init.run acts).blocks).isSome = true
    · rw [if_pos hsome] at hrun' ⊢
      exact lift_run (blind_addToBuffer su _) h.base hrun'
    · rw [if_neg hsome] at hrun' ⊢
      cases hrun'
      exact congrArg (fun o => some ((), o)) (withBase_self h.base).symm
  refine ⟨(), o.withBase t', (), t', hrun, hrun', h', rfl, ⟨cs, lost, howns.congr rfl rfl, ?_, ?_⟩,
    h.counted.same rfl⟩
  · rw [hcs, registry_run_snoc, Registry.blocks_store]
  · rw [hlost, dropped_append]
    exact (List.append_nil _).symm

theorem mxAfterStore_lockstep (h : Stands su o t acts) (addr : Addr) (size : HWord) :
    Lockstep (mxAfterStore su addr size) o (Memlog.mxAfterStore su addr size) t
      fun _ o' _ t' => Stands su o' t' acts := by
  obtain ⟨bk, hfind, hfind', hcase⟩ := h.find addr
  unfold mxAfterStore Memlog.mxAfterStore
  rcases hcase with ⟨rfl, hnone⟩ | ⟨b, hsome, hbk, hload⟩
  · rw [hnone] at hfind'
    refine ⟨(), o, (), t, ?_, ?_, h⟩
    · rw [fullM_bind, hfind]
      rfl
    · rw [toolM_bind, hfind']
      rfl
  · rw [hsome] at hfind'
    by_cases hmx : b.mx
    · have hmem : o.mem = t.mem := congrArg Memlog.Tool.mem h.base
      obtain ⟨m', st', -, hrun, rfl, hblocks, hbytes, -⟩ :=
        mxReencode_stats su.clo b addr size o.mem o.stats
      rw [hmem] at hrun
      refine ⟨(), { o with mem := Memlog.mxReencode su.clo b addr size t.mem, stats := st' }, (),
        { t with mem := Memlog.mxReencode su.clo b addr size t.mem }, ?_, ?_, ?_⟩
      · simp only [fullM_bind, hfind, Option.bind_some, if_pos hbk, hload, if_pos hmx, hmem, hrun]
      · simp only [toolM_bind, hfind', Option.bind_some, if_pos hmx]
      · obtain ⟨cs, lost, howns, hcs, hlost⟩ := h.owns
        obtain ⟨hmarked, hsum⟩ := h.counted
        refine ⟨h.refines.congr rfl rfl rfl, ?_, ⟨cs, lost, howns.congr rfl rfl, hcs, hlost⟩,
          ⟨hblocks.trans hmarked, hbytes.trans hsum⟩⟩
        have hbase := h.base
        simp only [Tool.base, blind, Memlog.Tool.mk.injEq, true_and] at hbase ⊢
        exact ⟨hbase.1, hbase.2.1, hbase.2.2.1, trivial⟩
    · refine ⟨(), o, (), t, ?_, ?_, h⟩
      · simp only [fullM_bind, hfind, Option.bind_some, if_pos hbk, hload, if_neg hmx, fullM_pure]
      · simp only [toolM_bind, hfind', Option.bind_some, if_neg hmx, toolM_pure]

theorem discard_lockstep {α : Type} {x : FullM α} {y : ToolM α} {acts' : List Action}
    (h : Lockstep x o y t fun a o' b t' => a = b ∧ Stands su o' t' acts') :
    Lockstep (do let _ ← x : FullM Unit) o (do let _ ← y : ToolM Unit) t
      fun _ o' _ t' => Stands su o' t' acts' := by
  refine Lockstep.bind h ?_
  intro _ o' _ t' h'
  exact Lockstep.pure h'.2

/-- **A step with objects** goes through wherever the new objects are, and does what the step
without objects does. -/
theorem exec_lockstep {new : New} (h : Stands su o t acts) (hnew : new.Fresh o) (who : Caller)
    (place : Place) (op : Op) :
    Lockstep (exec su who place new op) o (op.exec su who place) t
      fun _ o' _ t' => Stands su o' t' (acts ++ op.actions su who place t.heap) := by
  have halloc : ∀ szB alignB isZeroed,
      Lockstep (do let _ ← newBlock su who place new szB alignB isZeroed : FullM Unit) o
        (do let _ ← Memlog.newBlock su who place szB alignB isZeroed : ToolM Unit) t
        fun _ o' _ t' => Stands su o' t'
          (acts ++ newBlockActions su who (allocated t.heap place szB alignB)) := by
    intro szB alignB isZeroed
    refine discard_lockstep ((newBlock_lockstep h hnew who place szB alignB isZeroed).imp ?_)
    intro a o' b t' h'
    exact ⟨h'.1, h'.2.2⟩
  cases op with
  | malloc szB => exact halloc ..
  | builtinNew szB => exact halloc ..
  | builtinNewAligned szB alignB => exact halloc ..
  | builtinVecNew szB => exact halloc ..
  | builtinVecNewAligned szB alignB => exact halloc ..
  | memalign alignB szB => exact halloc ..
  | calloc nmemb size1 => exact halloc ..
  | free p => exact dieBlock_lockstep h who p
  | builtinDelete p => exact dieBlock_lockstep h who p
  | builtinDeleteAligned p => exact dieBlock_lockstep h who p
  | builtinVecDelete p => exact dieBlock_lockstep h who p
  | builtinVecDeleteAligned p => exact dieBlock_lockstep h who p
  | realloc pOld newSzB => exact discard_lockstep (mlRealloc_lockstep h hnew who place pOld newSzB)
  | mallocUsableSize p =>
    rw [Op.actions, List.append_nil]
    exact discard_lockstep (mlMallocUsableSize_lockstep h p)
  | request req => exact discard_lockstep (mlHandleClientRequest_lockstep h hnew who place req)
  | logStore addr value => exact logStore_lockstep h addr value
  | mxAfterStore addr size =>
    rw [Op.actions, List.append_nil]
    exact mxAfterStore_lockstep h addr size
  | write addr size value =>
    have hwrite : write addr size value t =
      some ((), { t with mem := t.mem.storeLE addr size value }) := rfl
    obtain ⟨hlift, h'⟩ := h.lift (fun _ _ => rfl) hwrite rfl rfl rfl
    rw [Op.actions, List.append_nil]
    exact ⟨(), _, (), _, hlift, hwrite, h'⟩

/-- **A run with objects** is a run without. -/
theorem Run.stands {cs : List Call} (hrun : Run su o cs o') (h : Stands su o t acts) :
    ∃ t', Memlog.Run su t (callActions su t.heap cs) t' ∧
      Stands su o' t' (acts ++ callActions su t.heap cs) := by
  induction hrun generalizing t acts with
  | refl o =>
    refine ⟨t, .refl t, ?_⟩
    rwa [callActions, List.append_nil]
  | @step o o₁ o₂ cs c new hnew hexec hrun ih =>
    obtain ⟨_, o₁', _, t₁, hexec₁, hexec', h₁⟩ := exec_lockstep h hnew c.who c.place c.op
    rw [hexec] at hexec₁
    cases hexec₁
    obtain ⟨t₁', hsame, -, hheap⟩ := exec_refines h.refines c.who c.place c.op
    rw [hexec'] at hsame
    cases hsame
    obtain ⟨t₂, hrun₂, h₂⟩ := ih h₁
    rw [hheap] at hrun₂ h₂
    refine ⟨t₂, .step c.who c.place c.op hexec' hrun₂, ?_⟩
    rw [callActions, ← List.append_assoc]
    exact h₂

/-- There is always memory for the objects of a call. -/
theorem exists_fresh (o : Tool) : ∃ new : New, new.Fresh o := by
  obtain ⟨p, hp⟩ := Infinite.exists_notMem_finset o.blocks.keys.toFinset
  obtain ⟨n, hn⟩ := Infinite.exists_notMem_finset o.trackedBlocks.nodes.keys.toFinset
  rw [List.mem_toFinset, ← AList.mem_keys, ← AList.lookup_eq_none] at hp hn
  exact ⟨⟨p, n⟩, hp, hn⟩

/-- Every sequence of calls is a run. -/
theorem exists_fullRun (h : Stands su o t acts) (cs : List Call) : ∃ o', Run su o cs o' := by
  induction cs generalizing o t acts with
  | nil => exact ⟨o, .refl o⟩
  | cons c cs ih =>
    obtain ⟨new, hnew⟩ := exists_fresh o
    obtain ⟨_, o₁, _, t₁, hexec, -, h₁⟩ := exec_lockstep h hnew c.who c.place c.op
    obtain ⟨o₂, hrun⟩ := ih h₁
    exact ⟨o₂, .step c new hnew hexec hrun⟩

end Stands

end Memlog.Full
