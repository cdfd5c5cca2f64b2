import Memlog.Tool.Model

/-!
# The tool as a registry of blocks

An abstract machine over the callbacks: its state is the list of tracked blocks in address order and
the list of log records, and all that a callback does to it is a short list of actions, `track`,
`untrack` and `store`. Tree, buffer and printing are gone. `exec_refines` shows that every step of
the tool goes through and performs the actions of the step, `Run.refines` that a whole run does.
-/

namespace Memlog

open Lib

/-! ## The abstract machine -/

/-- What a callback does to the tracked blocks and to the log. -/
inductive Action where
  | track (bk : Block)
  | untrack (addr : Addr) (ec : ExeContext)
  | store (addr : Addr) (value : HWord)

/-- The tracked blocks in address order, and all records logged so far. -/
structure Registry where
  blocks : List Block
  log : List LogEntry

namespace Registry

def init : Registry := ⟨[], []⟩

def step (r : Registry) : Action → Registry
  | .track bk =>
    ⟨addBlock bk r.blocks, r.log ++ [.alloc bk.payload bk.reqSzB (some bk.allocEc)]⟩
  | .untrack addr ec =>
    match lookupBlock addr r.blocks with
    | some bk =>
      if bk.payload = addr then
        ⟨eraseKey Block.payload addr r.blocks, r.log ++ [.free addr bk.reqSzB (some ec)]⟩
      else r
    | none => r
  | .store addr value =>
    if (lookupBlock addr r.blocks).isSome then ⟨r.blocks, r.log ++ [.store addr value]⟩ else r

def run (r : Registry) (acts : List Action) : Registry := acts.foldl step r

@[simp] theorem run_nil (r : Registry) : r.run [] = r := rfl

@[simp] theorem run_cons (r : Registry) (act : Action) (acts : List Action) :
    r.run (act :: acts) = (r.step act).run acts := rfl

theorem run_append (r : Registry) (acts acts' : List Action) :
    r.run (acts ++ acts') = (r.run acts).run acts' := List.foldl_append

/-- Blocks stay in address order. -/
theorem sorted_step {r : Registry} (h : SortedBy Block.payload r.blocks) (act : Action) :
    SortedBy Block.payload (r.step act).blocks := by
  cases act with
  | track bk => exact sortedBy_addBlock h bk
  | untrack addr ec =>
    simp only [step]
    split
    · split
      · exact h.eraseKey addr
      · exact h
    · exact h
  | store addr value =>
    simp only [step]
    split <;> exact h

theorem sorted_run {r : Registry} (h : SortedBy Block.payload r.blocks) (acts : List Action) :
    SortedBy Block.payload (r.run acts).blocks := by
  induction acts generalizing r with
  | nil => exact h
  | cons act acts ih => exact ih (sorted_step h act)

theorem mem_of_mem_untrack {r : Registry} {addr : Addr} {ec : ExeContext} {bk : Block}
    (h : bk ∈ (r.step (.untrack addr ec)).blocks) : bk ∈ r.blocks := by
  simp only [step] at h
  split at h
  · split at h
    · exact (mem_eraseKey.1 h).1
    · exact h
  · exact h

theorem blocks_store (r : Registry) (addr : Addr) (value : HWord) :
    (r.step (.store addr value)).blocks = r.blocks := by
  simp only [step]
  split <;> rfl

end Registry

/-! ## The actions of a callback -/

/-- The heap block that `new_block` gets from the core. -/
def allocated (heap : List CliBlock) (place : Place) (szB alignB : SizeT) : Option CliBlock :=
  if szB.toInt < 0 then none else cliBlock heap place alignB (if szB = 0 then 1 else szB)

/-- The actions of `new_block`. -/
def newBlockActions (su : Setup) (who : Caller) : Option CliBlock → List Action
  | some b =>
    if su.clo.minBlockSize ≤ b.size.toNat then [.track (heapBlock su who b.start b.size)] else []
  | none => []

/-- The actions of `die_block`. -/
def dieBlockActions (who : Caller) (p : Addr) : List Action :=
  if p = 0 then [] else [.untrack p who.ec]

/-- The actions of `ml_realloc`. -/
def reallocActions (su : Setup) (who : Caller) (place : Place) (heap : List CliBlock) (pOld : Addr)
    (newSzB : SizeT) : List Action :=
  if pOld = 0 then newBlockActions su who (allocated heap place newSzB mlMallocAlignment)
  else if newSzB = 0 ∧ su.clo.reallocZeroBytesFrees then dieBlockActions who pOld
  else
    match allocated heap place (if newSzB = 0 then 1 else newSzB) mlMallocAlignment with
    | some b => newBlockActions su who (some b) ++ dieBlockActions who pOld
    | none => []

def Op.actions (su : Setup) (who : Caller) (place : Place) (heap : List CliBlock) : Op → List Action
  | malloc szB | builtinNew szB | builtinVecNew szB =>
    newBlockActions su who (allocated heap place szB mlMallocAlignment)
  | builtinNewAligned szB alignB | builtinVecNewAligned szB alignB | memalign alignB szB =>
    newBlockActions su who (allocated heap place szB alignB)
  | calloc nmemb size1 =>
    newBlockActions su who (allocated heap place (nmemb * size1) mlMallocAlignment)
  | free p | builtinDelete p | builtinDeleteAligned p | builtinVecDelete p
  | builtinVecDeleteAligned p => dieBlockActions who p
  | realloc pOld newSzB => reallocActions su who place heap pOld newSzB
  | request (.trackBlock addr size) => if 0 < size then [.track (clientBlock who addr size)] else []
  | request (.untrackBlock addr) => [.untrack addr who.ec]
  | logStore addr value => [.store addr value]
  | mallocUsableSize _ | request .other | mxAfterStore _ _ | write _ _ _ => []

/-- The heap after `die_block`. -/
def dieBlockHeap (p : Addr) (heap : List CliBlock) : List CliBlock :=
  if p = 0 then heap else heap.filter fun b => b.start ≠ p

/-- The heap after `ml_realloc`. -/
def reallocHeap (su : Setup) (place : Place) (heap : List CliBlock) (pOld : Addr) (newSzB : SizeT) :
    List CliBlock :=
  if pOld = 0 then (allocated heap place newSzB mlMallocAlignment).toList ++ heap
  else if newSzB = 0 ∧ su.clo.reallocZeroBytesFrees then dieBlockHeap pOld heap
  else
    match allocated heap place (if newSzB = 0 then 1 else newSzB) mlMallocAlignment with
    | some b => dieBlockHeap pOld (b :: heap)
    | none => heap

def Op.heapAfter (su : Setup) (place : Place) (heap : List CliBlock) : Op → List CliBlock
  | malloc szB | builtinNew szB | builtinVecNew szB =>
    (allocated heap place szB mlMallocAlignment).toList ++ heap
  | builtinNewAligned szB alignB | builtinVecNewAligned szB alignB | memalign alignB szB =>
    (allocated heap place szB alignB).toList ++ heap
  | calloc nmemb size1 => (allocated heap place (nmemb * size1) mlMallocAlignment).toList ++ heap
  | free p | builtinDelete p | builtinDeleteAligned p | builtinVecDelete p
  | builtinVecDeleteAligned p => dieBlockHeap p heap
  | realloc pOld newSzB => reallocHeap su place heap pOld newSzB
  | mallocUsableSize _ | request _ | logStore _ _ | mxAfterStore _ _ | write _ _ _ => heap

/-! ## Refinement -/

/-- The whole log of a run: what has been printed and what is still in the buffer. -/
def Tool.logLines (t : Tool) : List Line := t.out ++ t.logBuffer.flatMap LogEntry.print

/-- The tool's state stands for a state of the registry. -/
structure Refines (su : Setup) (t : Tool) (r : Registry) : Prop where
  tracks : Tracks t.trackedBlocks r.blocks
  printed : t.out ++ t.logBuffer.flatMap LogEntry.print = r.log.flatMap LogEntry.print
  pending : t.logBuffer.length < su.maxLogEntries

/-- Only the tree and the log differ. -/
structure SameClient (t t' : Tool) : Prop where
  heap : t'.heap = t.heap
  mem : t'.mem = t.mem

section Refines

variable {su : Setup} {t : Tool} {r : Registry}

@[simp] theorem toolM_bind {α β : Type} (x : ToolM α) (f : α → ToolM β) (t : Tool) :
    (x >>= f) t = (x t).bind fun r => f r.1 r.2 := rfl

@[simp] theorem toolM_pure {α : Type} (a : α) (t : Tool) : (pure a : ToolM α) t = some (a, t) := rfl

theorem Refines.init (su : Setup) (m : Mem) : Refines su (.init m) .init where
  tracks := .empty
  printed := rfl
  pending := su.maxLogEntries_pos

/-- The registry knows nothing of the traced program's heap and memory. -/
theorem Refines.congr (h : Refines su t r) {t' : Tool}
    (htracked : t'.trackedBlocks = t.trackedBlocks) (hbuffer : t'.logBuffer = t.logBuffer)
    (hout : t'.out = t.out) : Refines su t' r where
  tracks := htracked ▸ h.tracks
  printed := by rw [hout, hbuffer, h.printed]
  pending := hbuffer ▸ h.pending

theorem addToBuffer_refines (h : Refines su t r) (entry : LogEntry) :
    ∃ t', addToBuffer su entry t = some ((), t') ∧ Refines su t' ⟨r.blocks, r.log ++ [entry]⟩ ∧
      t'.trackedBlocks = t.trackedBlocks ∧ SameClient t t' := by
  unfold addToBuffer
  by_cases hfull : su.maxLogEntries ≤ (t.logBuffer ++ [entry]).length
  · refine ⟨_, if_pos hfull, ⟨h.tracks, ?_, su.maxLogEntries_pos⟩, rfl, ⟨rfl, rfl⟩⟩
    simp only [List.flatMap_append, List.flatMap_nil, List.append_nil]
    rw [← List.append_assoc, h.printed]
  · refine ⟨_, if_neg hfull, ⟨h.tracks, ?_, not_le.1 hfull⟩, rfl, ⟨rfl, rfl⟩⟩
    simp only [List.flatMap_append]
    rw [← List.append_assoc, h.printed]

theorem Refines.find (h : Refines su t r) (addr : Addr) :
    onTracked (findBlockContaining addr) t = some (lookupBlock addr r.blocks, t) := by
  unfold onTracked
  rw [h.tracks.find addr]
  rfl

theorem trackBlock_refines (h : Refines su t r) (bk : Block) :
    ∃ t', trackBlock su bk t = some ((), t') ∧ Refines su t' (r.step (.track bk)) ∧
      SameClient t t' := by
  obtain ⟨s', hrun, htracks⟩ := h.tracks.insert bk
  have h₁ : Refines su { t with trackedBlocks := s' } ⟨addBlock bk r.blocks, r.log⟩ :=
    ⟨htracks, h.printed, h.pending⟩
  obtain ⟨t', hadd, h', -, hsame⟩ :=
    addToBuffer_refines h₁ (.alloc bk.payload bk.reqSzB (some bk.allocEc))
  refine ⟨t', ?_, h', hsame.heap, hsame.mem⟩
  rw [trackBlock, toolM_bind, onTracked, hrun]
  exact hadd

theorem untrackBlock_refines (h : Refines su t r) (who : Caller) (addr : Addr) :
    ∃ t', untrackBlock su who addr t = some ((), t') ∧
      Refines su t' (r.step (.untrack addr who.ec)) ∧ SameClient t t' := by
  rw [untrackBlock, toolM_bind, h.find addr, Registry.step, Option.bind_some]
  cases lookupBlock addr r.blocks with
  | none => exact ⟨t, rfl, h, rfl, rfl⟩
  | some bk =>
    simp only
    by_cases hstart : bk.payload = addr
    · obtain ⟨t₁, hadd, h₁, -, hsame₁⟩ := addToBuffer_refines h (.free addr bk.reqSzB (some who.ec))
      obtain ⟨s', hrun, htracks⟩ := h₁.tracks.remove bk
      refine ⟨{ t₁ with trackedBlocks := s' }, ?_, ?_, hsame₁.heap, hsame₁.mem⟩
      · rw [if_pos hstart, toolM_bind, hadd, Option.bind_some, onTracked, hrun]
        rfl
      · rw [if_pos hstart, ← hstart]
        rw [← hstart] at h₁
        exact ⟨htracks, h₁.printed, h₁.pending⟩
    · rw [if_neg hstart, if_neg hstart]
      exact ⟨t, rfl, h, rfl, rfl⟩

theorem Refines.isTracked (h : Refines su t r) (a : Addr) :
    onTracked (isTracked a) t = some ((lookupBlock a r.blocks).isSome, t) := by
  unfold onTracked
  rw [h.tracks.isTracked a]
  rfl

theorem logStore_refines (h : Refines su t r) (addr : Addr) (value : HWord) :
    ∃ t', logStore su addr value t = some ((), t') ∧ Refines su t' (r.step (.store addr value)) ∧
      SameClient t t' := by
  rw [logStore, toolM_bind, h.isTracked addr, Registry.step, Option.bind_some]
  by_cases hsome : (lookupBlock addr r.blocks).isSome
  · rw [if_pos hsome, if_pos hsome]
    obtain ⟨t', hadd, h', -, hsame⟩ := addToBuffer_refines h (.store addr value)
    exact ⟨t', hadd, h', hsame⟩
  · rw [if_neg hsome, if_neg hsome]
    exact ⟨t, rfl, h, rfl, rfl⟩

end Refines

/-! ## Heap calls -/

section HeapCalls

variable {su : Setup} {t : Tool} {r : Registry}

/-- The memory of a block that `calloc` returns. -/
def zeroed (m : Mem) (isZeroed : Bool) : Option CliBlock → Mem
  | some b => if isZeroed then m.fill b.start 0 b.size.toNat else m
  | none => m

theorem cliBlock_spec {heap : List CliBlock} {place : Place} {alignB szB : SizeT} {b : CliBlock}
    (h : cliBlock heap place alignB szB = some b) :
    b.size = szB ∧ b.Ok ∧ ∀ c ∈ heap, b.Apart c := by
  unfold cliBlock at h
  obtain ⟨⟨p, usable⟩, -, hb⟩ := Option.bind_eq_some_iff.1 h
  simp only at hb
  split at hb
  · rename_i hok
    cases hb
    exact ⟨rfl, hok.1, hok.2.2⟩
  · cases hb

theorem allocated_spec {heap : List CliBlock} {place : Place} {szB alignB : SizeT} {b : CliBlock}
    (h : allocated heap place szB alignB = some b) :
    b.size = (if szB = 0 then 1 else szB) ∧ b.Ok ∧ ∀ c ∈ heap, b.Apart c := by
  unfold allocated at h
  split at h
  · cases h
  · exact cliBlock_spec h

/-- `new_block` without memory for the block. -/
theorem newBlock_none {who : Caller} {place : Place} {szB alignB : SizeT} {isZeroed : Bool}
    (h : allocated t.heap place szB alignB = none) :
    newBlock su who place szB alignB isZeroed t = some (none, t) := by
  unfold allocated at h
  unfold newBlock
  by_cases hneg : szB.toInt < 0
  · rw [if_pos hneg]
    rfl
  · rw [if_neg hneg] at h ⊢
    simp only [toolM_bind, cliMalloc]
    rw [h]
    rfl

theorem newBlock_refines (h : Refines su t r) (who : Caller) (place : Place) (szB alignB : SizeT)
    (isZeroed : Bool) :
    ∃ t', newBlock su who place szB alignB isZeroed t =
        some ((allocated t.heap place szB alignB).map CliBlock.start, t') ∧
      Refines su t' (r.run (newBlockActions su who (allocated t.heap place szB alignB))) ∧
      t'.heap = (allocated t.heap place szB alignB).toList ++ t.heap ∧
      t'.mem = zeroed t.mem isZeroed (allocated t.heap place szB alignB) := by
  cases hb : allocated t.heap place szB alignB with
  | none => exact ⟨t, newBlock_none hb, h, rfl, rfl⟩
  | some b =>
    unfold allocated at hb
    unfold newBlock
    by_cases hneg : szB.toInt < 0
    · rw [if_pos hneg] at hb
      cases hb
    · rw [if_neg hneg] at hb ⊢
      have hsize := (cliBlock_spec hb).1
      -- the state when the block has been taken and, for `calloc`, cleared
      have h₁ : Refines su ⟨t.trackedBlocks, t.logBuffer, t.out, b :: t.heap,
          zeroed t.mem isZeroed (some b)⟩ r := h.congr rfl rfl rfl
      simp only [toolM_bind, cliMalloc, hb, Option.bind_some]
      rw [← hsize]
      simp only [newBlockActions]
      by_cases hbig : su.clo.minBlockSize ≤ b.size.toNat
      · obtain ⟨t', htrack, h', hsame⟩ := trackBlock_refines h₁ (heapBlock su who b.start b.size)
        have hrun := congrArg (·.bind fun res => some (some b.start, res.2)) htrack
        rw [if_pos hbig, if_pos hbig]
        refine ⟨t', ?_, h', hsame.heap, hsame.mem⟩
        cases isZeroed <;> exact hrun
      · rw [if_neg hbig, if_neg hbig]
        cases isZeroed <;> exact ⟨_, rfl, h₁, rfl, rfl⟩

theorem dieBlock_refines (h : Refines su t r) (who : Caller) (p : Addr) :
    ∃ t', dieBlock su who p t = some ((), t') ∧ Refines su t' (r.run (dieBlockActions who p)) ∧
      t'.heap = dieBlockHeap p t.heap ∧ t'.mem = t.mem := by
  unfold dieBlock dieBlockActions dieBlockHeap
  by_cases hp : p = 0
  · simp only [if_pos hp]
    exact ⟨t, rfl, h, rfl, rfl⟩
  · simp only [if_neg hp]
    obtain ⟨t₁, huntrack, h₁, hsame⟩ := untrackBlock_refines h who p
    refine ⟨{ t₁ with heap := t₁.heap.filter fun b => b.start ≠ p }, ?_, h₁.congr rfl rfl rfl, ?_,
      hsame.mem⟩
    · rw [toolM_bind, huntrack]
      rfl
    · rw [hsame.heap]

/-- The size that `ml_realloc` takes the old block to have. -/
def reallocOldSize (t : Tool) (r : Registry) (pOld : Addr) : SizeT :=
  match lookupBlock pOld r.blocks with
  | some oldBk => oldBk.reqSzB
  | none => ((t.heap.find? fun b => b.start = pOld).map CliBlock.usable).getD 0

/-- What `ml_realloc` does once it has got the new block: copy `n` bytes and free the old block. -/
def reallocMove (su : Setup) (who : Caller) (pOld : Addr) (n : SizeT) :
    Option Addr × Tool → Option (Option Addr × Tool)
  | (none, t) => some (none, t)
  | (some pNew, t) =>
    (dieBlock su who pOld { t with mem := t.mem.move pNew pOld n.toNat }).bind fun res =>
      some (some pNew, res.2)

/-- `ml_realloc` of a block that is neither `NULL` nor released. -/
theorem mlRealloc_copy (h : Refines su t r) (who : Caller) (place : Place) {pOld : Addr}
    {newSzB : SizeT} (hp : pOld ≠ 0) (hn : ¬(newSzB = 0 ∧ su.clo.reallocZeroBytesFrees)) :
    mlRealloc su who place pOld newSzB t =
      (newBlock su who place (if newSzB = 0 then 1 else newSzB) mlMallocAlignment false t).bind
        (reallocMove su who pOld
          (min (reallocOldSize t r pOld) (if newSzB = 0 then 1 else newSzB))) := by
  unfold mlRealloc
  rw [if_neg hp, if_neg hn]
  simp only [toolM_bind, h.find pOld, Option.bind_some, reallocOldSize]
  cases lookupBlock pOld r.blocks with
  | none =>
    simp only [toolM_bind, cliMallocUsableSize, Option.bind_some, mlMalloc]
    congr 1
    funext out
    obtain ⟨pNew, t'⟩ := out
    cases pNew <;> rfl
  | some oldBk =>
    simp only [toolM_bind, toolM_pure, Option.bind_some, mlMalloc]
    congr 1
    funext out
    obtain ⟨pNew, t'⟩ := out
    cases pNew <;> rfl

theorem mlRealloc_refines (h : Refines su t r) (who : Caller) (place : Place) (pOld : Addr)
    (newSzB : SizeT) :
    ∃ res t', mlRealloc su who place pOld newSzB t = some (res, t') ∧
      Refines su t' (r.run (reallocActions su who place t.heap pOld newSzB)) ∧
      t'.heap = reallocHeap su place t.heap pOld newSzB := by
  unfold reallocActions reallocHeap
  by_cases hp : pOld = 0
  · obtain ⟨t', hrun, h', hheap, -⟩ := newBlock_refines h who place newSzB mlMallocAlignment false
    rw [mlRealloc, if_pos hp, if_pos hp, if_pos hp]
    exact ⟨_, t', hrun, h', hheap⟩
  by_cases hn : newSzB = 0 ∧ su.clo.reallocZeroBytesFrees
  · obtain ⟨t', hrun, h', hheap, -⟩ := dieBlock_refines h who pOld
    rw [if_neg hp, if_pos hn, if_neg hp, if_pos hn]
    refine ⟨none, t', ?_, h', hheap⟩
    rw [mlRealloc, if_neg hp, if_pos hn, toolM_bind, mlFree, hrun]
    rfl
  rw [mlRealloc_copy h who place hp hn, if_neg hp, if_neg hn, if_neg hp, if_neg hn]
  obtain ⟨t₁, hrun₁, h₁, hheap₁, -⟩ :=
    newBlock_refines h who place (if newSzB = 0 then 1 else newSzB) mlMallocAlignment false
  rw [hrun₁, Option.bind_some]
  cases hb : allocated t.heap place (if newSzB = 0 then 1 else newSzB) mlMallocAlignment with
  | none =>
    rw [hb] at h₁ hheap₁
    exact ⟨none, t₁, rfl, h₁, hheap₁⟩
  | some b =>
    rw [hb] at h₁ hheap₁
    rw [Registry.run_append, Option.map_some, reallocMove]
    generalize (min (reallocOldSize t r pOld) (if newSzB = 0 then 1 else newSzB)).toNat = n
    obtain ⟨t₂, hrun₂, h₂, hheap₂, -⟩ :=
      dieBlock_refines (t := { t₁ with mem := t₁.mem.move b.start pOld n }) (h₁.congr rfl rfl rfl)
        who pOld
    rw [hrun₂]
    refine ⟨_, t₂, rfl, h₂, hheap₂.trans ?_⟩
    rw [hheap₁]
    rfl

end HeapCalls

/-! ## Steps and runs -/

section Runs

variable {su : Setup} {t : Tool} {r : Registry}

theorem discard_refines {α : Type} {x : ToolM α} {r' : Registry} {heap : List CliBlock}
    (h : ∃ a t', x t = some (a, t') ∧ Refines su t' r' ∧ t'.heap = heap) :
    ∃ t', (do let _ ← x : ToolM Unit) t = some ((), t') ∧ Refines su t' r' ∧ t'.heap = heap := by
  obtain ⟨a, t', hrun, h'⟩ := h
  refine ⟨t', ?_, h'⟩
  rw [toolM_bind, hrun]
  rfl

/-- **A step of the tool** goes through and does what its actions do. -/
theorem exec_refines (h : Refines su t r) (who : Caller) (place : Place) (op : Op) :
    ∃ t', op.exec su who place t = some ((), t') ∧
      Refines su t' (r.run (op.actions su who place t.heap)) ∧
      t'.heap = op.heapAfter su place t.heap := by
  have hnew : ∀ szB alignB isZeroed,
      ∃ a t', newBlock su who place szB alignB isZeroed t = some (a, t') ∧
        Refines su t' (r.run (newBlockActions su who (allocated t.heap place szB alignB))) ∧
        t'.heap = (allocated t.heap place szB alignB).toList ++ t.heap := by
    intro szB alignB isZeroed
    obtain ⟨t', hrun, h', hheap, -⟩ := newBlock_refines h who place szB alignB isZeroed
    exact ⟨_, t', hrun, h', hheap⟩
  have hdie : ∀ p, ∃ t', dieBlock su who p t = some ((), t') ∧
      Refines su t' (r.run (dieBlockActions who p)) ∧ t'.heap = dieBlockHeap p t.heap := by
    intro p
    obtain ⟨t', hrun, h', hheap, -⟩ := dieBlock_refines h who p
    exact ⟨t', hrun, h', hheap⟩
  cases op with
  | malloc szB => exact discard_refines (hnew ..)
  | builtinNew szB => exact discard_refines (hnew ..)
  | builtinNewAligned szB alignB => exact discard_refines (hnew ..)
  | builtinVecNew szB => exact discard_refines (hnew ..)
  | builtinVecNewAligned szB alignB => exact discard_refines (hnew ..)
  | memalign alignB szB => exact discard_refines (hnew ..)
  | calloc nmemb size1 => exact discard_refines (hnew ..)
  | free p => exact hdie p
  | builtinDelete p => exact hdie p
  | builtinDeleteAligned p => exact hdie p
  | builtinVecDelete p => exact hdie p
  | builtinVecDeleteAligned p => exact hdie p
  | realloc pOld newSzB => exact discard_refines (mlRealloc_refines h who place pOld newSzB)
  | mallocUsableSize p =>
    refine discard_refines ?_
    rw [mlMallocUsableSize, toolM_bind, h.find p, Option.bind_some]
    cases lookupBlock p r.blocks with
    | none => exact ⟨_, t, rfl, h, rfl⟩
    | some bk =>
      by_cases hstart : bk.payload = p
      · simp only [if_pos hstart]
        exact ⟨_, t, rfl, h, rfl⟩
      · simp only [if_neg hstart]
        exact ⟨_, t, rfl, h, rfl⟩
  | request req =>
    refine discard_refines ?_
    cases req with
    | trackBlock addr size =>
      rw [mlHandleClientRequest, Op.actions]
      by_cases hsize : 0 < size
      · simp only [if_pos hsize]
        obtain ⟨t', hrun, h', hsame⟩ := trackBlock_refines h (clientBlock who addr size)
        refine ⟨true, t', ?_, h', hsame.heap⟩
        rw [toolM_bind, hrun]
        rfl
      · simp only [if_neg hsize]
        exact ⟨true, t, rfl, h, rfl⟩
    | untrackBlock addr =>
      obtain ⟨t', hrun, h', hsame⟩ := untrackBlock_refines h who addr
      refine ⟨true, t', ?_, h', hsame.heap⟩
      rw [mlHandleClientRequest, toolM_bind, hrun]
      rfl
    | other => exact ⟨false, t, rfl, h, rfl⟩
  | logStore addr value =>
    obtain ⟨t', hrun, h', hsame⟩ := logStore_refines h addr value
    exact ⟨t', hrun, h', hsame.heap⟩
  | mxAfterStore addr size =>
    rw [Op.exec, mxAfterStore, toolM_bind, h.find addr, Option.bind_some]
    cases lookupBlock addr r.blocks with
    | none => exact ⟨t, rfl, h, rfl⟩
    | some bk =>
      by_cases hmx : bk.mx
      · simp only [if_pos hmx]
        exact ⟨_, rfl, h.congr rfl rfl rfl, rfl⟩
      · simp only [if_neg hmx]
        exact ⟨t, rfl, h, rfl⟩
  | write addr size value => exact ⟨_, rfl, h.congr rfl rfl rfl, rfl⟩

/-- The runs of the tool, with the actions of their steps. -/
inductive Run (su : Setup) : Tool → List Action → Tool → Prop where
  | refl (t : Tool) : Run su t [] t
  | step {t t₁ t₂ : Tool} {acts : List Action} (who : Caller) (place : Place) (op : Op)
      (hexec : op.exec su who place t = some ((), t₁)) (hrun : Run su t₁ acts t₂) :
      Run su t (op.actions su who place t.heap ++ acts) t₂

/-- **A run of the tool** does what its actions do to the registry. -/
theorem Run.refines {t' : Tool} {acts : List Action} (hrun : Run su t acts t')
    (h : Refines su t r) : Refines su t' (r.run acts) := by
  induction hrun generalizing r with
  | refl t => exact h
  | @step t t₁ t₂ acts who place op hexec hrun ih =>
    obtain ⟨t₁', hexec', h₁, -⟩ := exec_refines h who place op
    rw [hexec] at hexec'
    cases hexec'
    rw [Registry.run_append]
    exact ih h₁

/-- A call with the thread that makes it and the place that the core's allocator would take. -/
structure Call where
  who : Caller
  place : Place
  op : Op

/-- The actions of a sequence of calls. -/
def callActions (su : Setup) : List CliBlock → List Call → List Action
  | _, [] => []
  | heap, c :: cs =>
    c.op.actions su c.who c.place heap ++ callActions su (c.op.heapAfter su c.place heap) cs

/-- The heap after a sequence of calls. -/
def callHeap (su : Setup) : List CliBlock → List Call → List CliBlock
  | heap, [] => heap
  | heap, c :: cs => callHeap su (c.op.heapAfter su c.place heap) cs

/-- **Every sequence of calls is a run**: the tool never gets stuck. -/
theorem exists_run (h : Refines su t r) (cs : List Call) :
    ∃ t', Run su t (callActions su t.heap cs) t' ∧
      Refines su t' (r.run (callActions su t.heap cs)) ∧ t'.heap = callHeap su t.heap cs := by
  induction cs generalizing t r with
  | nil => exact ⟨t, .refl t, h, rfl⟩
  | cons c cs ih =>
    obtain ⟨t₁, hexec, h₁, hheap₁⟩ := exec_refines h c.who c.place c.op
    obtain ⟨t₂, hrun, h₂, hheap₂⟩ := ih h₁
    rw [hheap₁] at hrun h₂ hheap₂
    refine ⟨t₂, .step c.who c.place c.op hexec hrun, ?_, hheap₂⟩
    rw [callActions, Registry.run_append]
    exact h₂

end Runs

end Memlog
