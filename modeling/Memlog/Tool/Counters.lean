import Memlog.Tool.Owned

/-!
# The counters over a run

`ml_fini` reports how many blocks were marked, how many stores hit them and how many of their values
the encoder changed or flushed to zero. Over every run of the tool the counters of the blocks are
those of the tracking actions, modulo 2^64, and a step adds to the others what the step does to the
memory: only `mx_after_store` adds anything (`exec_keeps`), and it adds the elements that it changes
(`run_counts`).
-/

namespace Memlog.Full

open Lib

/-! ## Calls that encode nothing -/

/-- The counters of the encoder. -/
def Tool.encoderStats (o : Tool) : MxStats := { o.stats with blocksMarked := 0, bytesMarked := 0 }

section Keeps

variable {α : Type}

theorem onTree_keeps (x : RbM Addr (Option Ptr) α) : Keeps Tool.encoderStats (onTree x) := by
  intro o a o' h
  obtain ⟨r, -, hr⟩ := Option.map_eq_some_iff.1 h
  cases hr
  rfl

theorem lift_keeps (x : ToolM α) : Keeps Tool.encoderStats (lift x) := by
  intro o a o' h
  obtain ⟨r, -, hr⟩ := Option.map_eq_some_iff.1 h
  cases hr
  rfl

theorem mallocBlock_keeps (p : Ptr) (bk : Block) : Keeps Tool.encoderStats (mallocBlock p bk) := by
  intro o a o' h
  cases h
  rfl

theorem loadBlock_keeps (bk : Option Ptr) : Keeps Tool.encoderStats (loadBlock bk) := by
  intro o a o' h
  obtain ⟨b, -, hb⟩ := Option.map_eq_some_iff.1 h
  cases hb
  rfl

theorem freeBlock_keeps (bk : Option Ptr) : Keeps Tool.encoderStats (freeBlock bk) := by
  intro o a o' h
  obtain ⟨p, -, hp⟩ := Option.bind_eq_some_iff.1 h
  obtain ⟨b, -, hb⟩ := Option.map_eq_some_iff.1 hp
  cases hb
  rfl

theorem freeNode_keeps (n : Ptr) : Keeps Tool.encoderStats (freeNode n) := by
  intro o a o' h
  obtain ⟨nd, -, hnd⟩ := Option.map_eq_some_iff.1 h
  cases hnd
  rfl

theorem countMarked_keeps (szB : SizeT) : Keeps Tool.encoderStats (count (countMarked szB)) := by
  intro o a o' h
  cases h
  rfl

theorem mxSiteSelected_keeps (su : Setup) (who : Caller) (szB : SizeT) :
    Keeps Tool.encoderStats (mxSiteSelected su who szB) := by
  intro o a o' h
  obtain ⟨lines, hrun⟩ := mxSiteSelected_run su who szB o
  rw [hrun] at h
  cases h
  rfl

theorem findBlockContaining_keeps (addr : Addr) :
    Keeps Tool.encoderStats (findBlockContaining addr) := by
  refine .bind (onTree_keeps _) fun n => .ite (.pure _) (.bind (onTree_keeps _) fun nd => ?_)
  exact .bind (loadBlock_keeps _) fun b => .ite (.pure _) (.pure _)

theorem enterBlock_keeps (su : Setup) (new : New) (bk : Option Ptr) (addr : Addr) (size : SizeT) :
    Keeps Tool.encoderStats (enterBlock su new bk addr size) := by
  refine .bind (.bind (loadBlock_keeps _) fun b => onTree_keeps _) fun _ => ?_
  exact .bind (loadBlock_keeps _) fun b => lift_keeps _

theorem unlinkBlock_keeps (bk : Option Ptr) : Keeps Tool.encoderStats (unlinkBlock bk) := by
  refine .bind (loadBlock_keeps _) fun b => .bind (onTree_keeps _) fun deleted => ?_
  cases deleted with
  | none => exact freeBlock_keeps bk
  | some z => exact .bind (freeNode_keeps z) fun _ => freeBlock_keeps bk

theorem releaseBlock_keeps (su : Setup) (who : Caller) (addr : Addr) :
    Keeps Tool.encoderStats (releaseBlock su who addr) := by
  refine .bind (findBlockContaining_keeps addr) fun bk => .ite ?_ (.pure _)
  refine .bind (loadBlock_keeps _) fun b => .ite ?_ (.pure _)
  exact .bind (lift_keeps _) fun _ => unlinkBlock_keeps bk

theorem logStore_keeps (su : Setup) (addr : Addr) (value : HWord) :
    Keeps Tool.encoderStats (logStore su addr value) := by
  refine .bind ((findBlockContaining_keeps addr).map _) fun tracked => ?_
  exact .ite (lift_keeps _) (.pure _)

theorem trackNewBlock_keeps (su : Setup) (who : Caller) (new : New) (p : Addr) (szB : SizeT) :
    Keeps Tool.encoderStats (trackNewBlock su who new p szB) := by
  have hrest : ∀ mx, Keeps Tool.encoderStats (do
      let bk ← mallocBlock new.block { payload := p, reqSzB := szB, allocEc := who.ec, mx := mx }
      if (← loadBlock bk).mx then count (countMarked szB)
      enterBlock su new bk p szB) := by
    intro mx
    refine .bind (mallocBlock_keeps _ _) fun bk => .bind (loadBlock_keeps _) fun b => ?_
    have henter := enterBlock_keeps su new bk p szB
    exact .ite (.bind (countMarked_keeps szB) fun _ => henter) henter
  exact .ite (.bind (mxSiteSelected_keeps su who szB) hrest) (.bind (.pure _) hrest)

theorem newBlock_keeps (su : Setup) (who : Caller) (place : Place) (new : New) (szB alignB : SizeT)
    (isZeroed : Bool) :
    Keeps Tool.encoderStats (newBlock su who place new szB alignB isZeroed) := by
  refine .ite (.pure _) (.bind (lift_keeps _) fun p => ?_)
  cases p with
  | none => exact .pure _
  | some p =>
    have htrack := Keeps.ite (c := su.clo.minBlockSize ≤ (if szB = 0 then 1 else szB).toNat)
      (Keeps.bind (trackNewBlock_keeps su who new p (if szB = 0 then 1 else szB))
        fun _ => Keeps.pure (some p)) (Keeps.pure (some p))
    exact .ite (.bind (lift_keeps _) fun _ => htrack) htrack

theorem dieBlock_keeps (su : Setup) (who : Caller) (p : Addr) :
    Keeps Tool.encoderStats (dieBlock su who p) :=
  .ite (.pure _) (.bind (releaseBlock_keeps su who p) fun _ => lift_keeps _)

theorem mlRealloc_keeps (su : Setup) (who : Caller) (place : Place) (new : New) (pOld : Addr)
    (newSzB : SizeT) : Keeps Tool.encoderStats (mlRealloc su who place new pOld newSzB) := by
  have hcopy : ∀ oldSzB newSzB,
      Keeps Tool.encoderStats (reallocCopy su who place new pOld oldSzB newSzB) := by
    intro oldSzB newSzB
    refine .bind (newBlock_keeps su who place new newSzB _ _) fun pNew => ?_
    cases pNew with
    | none => exact .pure _
    | some pNew =>
      exact .bind (lift_keeps _) fun _ => .bind (dieBlock_keeps su who pOld) fun _ => .pure _
  refine .ite (newBlock_keeps su who place new newSzB _ _) ?_
  refine .ite (.bind (dieBlock_keeps su who pOld) fun _ => .pure _) ?_
  refine .bind (findBlockContaining_keeps pOld) fun oldBk => ?_
  exact .ite (.bind ((loadBlock_keeps _).map _) fun oldSzB => hcopy _ _)
    (.bind (lift_keeps _) fun oldSzB => hcopy _ _)

theorem mlMallocUsableSize_keeps (p : Addr) :
    Keeps Tool.encoderStats (mlMallocUsableSize p) := by
  refine .bind (findBlockContaining_keeps p) fun bk => ?_
  exact .ite (.bind (loadBlock_keeps _) fun b => .ite (.pure _) (lift_keeps _)) (lift_keeps _)

theorem mlHandleClientRequest_keeps (su : Setup) (who : Caller) (new : New) (req : ClientRequest) :
    Keeps Tool.encoderStats (mlHandleClientRequest su who new req) := by
  cases req with
  | trackBlock addr size =>
    refine .ite (.bind (mallocBlock_keeps _ _) fun bk => ?_) (.pure _)
    exact .bind (enterBlock_keeps su new bk addr size) fun _ => .pure _
  | untrackBlock addr => exact .bind (releaseBlock_keeps su who addr) fun _ => .pure _
  | other => exact .pure _

/-- **Only `mx_after_store` counts stores and values.** -/
theorem exec_keeps (su : Setup) (who : Caller) (place : Place) (new : New) {op : Op}
    (hop : ∀ addr size, op ≠ .mxAfterStore addr size) :
    Keeps Tool.encoderStats (exec su who place new op) := by
  have hnew : ∀ szB alignB isZeroed, Keeps Tool.encoderStats
      (do let _ ← newBlock su who place new szB alignB isZeroed : FullM Unit) := by
    intro szB alignB isZeroed
    exact .bind (newBlock_keeps su who place new szB alignB isZeroed) fun _ => .pure _
  cases op with
  | malloc szB => exact hnew szB _ _
  | builtinNew szB => exact hnew szB _ _
  | builtinNewAligned szB alignB => exact hnew szB alignB _
  | builtinVecNew szB => exact hnew szB _ _
  | builtinVecNewAligned szB alignB => exact hnew szB alignB _
  | memalign alignB szB => exact hnew szB alignB _
  | calloc nmemb size1 => exact hnew (nmemb * size1) _ _
  | free p => exact dieBlock_keeps su who p
  | builtinDelete p => exact dieBlock_keeps su who p
  | builtinDeleteAligned p => exact dieBlock_keeps su who p
  | builtinVecDelete p => exact dieBlock_keeps su who p
  | builtinVecDeleteAligned p => exact dieBlock_keeps su who p
  | realloc pOld newSzB =>
    exact .bind (mlRealloc_keeps su who place new pOld newSzB) fun _ => .pure _
  | mallocUsableSize p => exact .bind (mlMallocUsableSize_keeps p) fun _ => .pure _
  | request req => exact .bind (mlHandleClientRequest_keeps su who new req) fun _ => .pure _
  | logStore addr value => exact logStore_keeps su addr value
  | mxAfterStore addr size => exact absurd rfl (hop addr size)
  | write addr size value => exact lift_keeps _

end Keeps

/-! ## The counters and the run -/

/-- The marked block that `mx_after_store` finds at the address of a store. -/
def hitBlock (blocks : List Block) : Op → Option Block
  | .mxAfterStore addr _ => (lookupBlock addr blocks).filter Block.mx
  | _ => none

/-- The number of elements of the block whose bits differ in two memories. -/
def changedElements (f : FpFmt) (m m' : Mem) (bk : Block) : Nat :=
  overGroups f bk (changedIn f bk m m')

/-- The number of elements of the block that are not zero in the first memory and zero in the
second. -/
def flushedElements (f : FpFmt) (m m' : Mem) (bk : Block) : Nat :=
  overGroups f bk (flushedIn f bk m m')

/-- The step from `o` to `o'` is counted as a store to the block, if there is one: the counters grow
by the elements of the block that differ afterwards, by those of them that have become zeros, and by
a number of others. -/
structure CountsStore (f : FpFmt) (bk : Option Block) (o o' : Tool) : Prop where
  stores : o'.stats.stores = o.stats.stores + BitVec.ofNat 64 bk.toList.length
  changed : o'.stats.valuesChanged = o.stats.valuesChanged +
    BitVec.ofNat 64 ((bk.map (changedElements f o.mem o'.mem)).getD 0)
  flushed : o'.stats.valuesFlushed = o.stats.valuesFlushed +
    BitVec.ofNat 64 ((bk.map (flushedElements f o.mem o'.mem)).getD 0)
  saturated : ∃ n, o'.stats.valuesSaturated = o.stats.valuesSaturated + BitVec.ofNat 64 n ∧
    (bk.map (flushedElements f o.mem o'.mem)).getD 0 + n ≤
      (bk.map (changedElements f o.mem o'.mem)).getD 0

/-- Nothing is counted. -/
theorem CountsStore.none {f : FpFmt} {o o' : Tool} (h : o'.encoderStats = o.encoderStats) :
    CountsStore f none o o' := by
  have hstores : o'.encoderStats.stores = o.encoderStats.stores := by rw [h]
  have hchanged : o'.encoderStats.valuesChanged = o.encoderStats.valuesChanged := by rw [h]
  have hflushed : o'.encoderStats.valuesFlushed = o.encoderStats.valuesFlushed := by rw [h]
  have hsaturated : o'.encoderStats.valuesSaturated = o.encoderStats.valuesSaturated := by rw [h]
  refine ⟨?_, ?_, ?_, 0, ?_, Nat.le_refl 0⟩
  · exact hstores.trans (BitVec.add_zero _).symm
  · exact hchanged.trans (BitVec.add_zero _).symm
  · exact hflushed.trans (BitVec.add_zero _).symm
  · exact hsaturated.trans (BitVec.add_zero _).symm

theorem mxAfterStore_counts {su : Setup} {o : Tool} {t : Memlog.Tool} {acts : List Action}
    (h : Stands su o t acts) (addr : Addr) (size : HWord) :
    ∃ o', mxAfterStore su addr size o = some ((), o') ∧
      CountsStore (mxFormat su.clo)
        ((lookupBlock addr (Registry.init.run acts).blocks).filter Block.mx) o o' := by
  obtain ⟨bk, hfind, -, hcase⟩ := h.find addr
  unfold mxAfterStore
  rcases hcase with ⟨rfl, hnone⟩ | ⟨b, hsome, hbk, hload⟩
  · refine ⟨o, ?_, ?_⟩
    · rw [fullM_bind, hfind]
      rfl
    · rw [hnone]
      exact .none rfl
  · rw [hsome]
    by_cases hmx : b.mx
    · obtain ⟨m', st', saturated, hrun, rfl, -, -, hstores, hchanged, hflushed, hsaturated⟩ :=
        mxReencode_stats su.clo b addr size o.mem o.stats
      refine ⟨{ o with mem := Memlog.mxReencode su.clo b addr size o.mem, stats := st' }, ?_, ?_⟩
      · simp only [fullM_bind, hfind, Option.bind_some, if_pos hbk, hload, if_pos hmx, hrun]
      · rw [Option.filter_some_pos hmx]
        exact ⟨hstores, hchanged, hflushed, saturated, hsaturated⟩
    · refine ⟨o, ?_, ?_⟩
      · simp only [fullM_bind, hfind, Option.bind_some, if_pos hbk, hload, if_neg hmx, fullM_pure]
      · rw [Option.filter_some_neg (Bool.eq_false_iff.2 hmx)]
        exact .none rfl

/-- **The counters mean what their names say**, modulo 2^64. After any run, the counted blocks and
bytes are those of the blocks that were marked when they were tracked. In the state that the run has
reached, every further call counts one store exactly if it is a store that starts in a marked block
that is found, and it counts as changed and as flushed the elements of that block that it changes
and that it turns into zeros; flushed and saturated values do not outnumber the changed ones. -/
theorem run_counts {su : Setup} {m : Mem} {cs : List Call} {o : Tool}
    (hrun : Run su (.init m) cs o) :
    let acts := callActions su [] cs
    o.stats.blocksMarked = BitVec.ofNat 64 (acts.flatMap markedBy).length ∧
      o.stats.bytesMarked =
        BitVec.ofNat 64 ((acts.flatMap markedBy).map fun bk => bk.reqSzB.toNat).sum ∧
      ∀ (c : Call) (new : New) (o' : Tool), exec su c.who c.place new c.op o = some ((), o') →
        CountsStore (mxFormat su.clo) (hitBlock (Registry.init.run acts).blocks c.op) o o' := by
  obtain ⟨t, -, h⟩ := hrun.stands (.init su m)
  refine ⟨h.counted.blocks, h.counted.bytes, fun c new o' hexec => ?_⟩
  by_cases hop : ∃ addr size, c.op = .mxAfterStore addr size
  · obtain ⟨addr, size, heq⟩ := hop
    obtain ⟨o₁, hrun₁, hcounts⟩ := mxAfterStore_counts h addr size
    rw [heq] at hexec ⊢
    rw [show exec su c.who c.place new (.mxAfterStore addr size) o = some ((), o₁) from hrun₁]
      at hexec
    cases hexec
    exact hcounts
  · have hnone : ∀ blocks, hitBlock blocks c.op = none := by
      intro blocks
      cases hc : c.op <;> first | rfl | exact absurd ⟨_, _, hc⟩ hop
    rw [hnone]
    exact .none <| exec_keeps su c.who c.place new (fun addr size heq => hop ⟨addr, size, heq⟩) o ()
      o' hexec

/-- A marked block of 64 bytes is allocated, where the values 1.0, 1.1 and 2^-200 stand. -/
def mallocMarked : Call := ⟨⟨["at 0x1: main".toList], []⟩, some (0x1000, 64), .malloc 64⟩

def threeValues : Mem :=
  mxStore fmt64 (mxStore fmt64 (mxStore fmt64 (fun _ => 0) 0x1000 0x3FF0000000000000)
    0x1008 0x3FF199999999999A) 0x1010 0x3370000000000000

/-- The block that is marked. -/
def markedBlock : Block :=
  { payload := 0x1000, reqSzB := 64, allocEc := ["at 0x1: main".toList], mx := true }

/-- The second value is rounded, and the third one is flushed to zero. -/
theorem run_counts_mallocMarked :
    ∃ o, Run markAll (.init threeValues) [mallocMarked] o ∧
      o.stats.blocksMarked = 1 ∧ o.stats.bytesMarked = 64 ∧
      ∃ o', exec markAll ⟨[], []⟩ none ⟨2, 2⟩ (.mxAfterStore 0x1008 8) o = some ((), o') ∧
        o'.stats.stores = 1 ∧ o'.stats.valuesChanged = 2 ∧ o'.stats.valuesFlushed = 1 := by
  obtain ⟨o, hexec, hfind, hload, hmem, hstores, hchanged, hflushed⟩ : ∃ o,
      exec markAll mallocMarked.who
      mallocMarked.place ⟨1, 1⟩ mallocMarked.op (.init threeValues) = some ((), o) ∧
      findBlockContaining 0x1008 o = some (some 1, o) ∧
      loadBlock (some 1) o = some (markedBlock, o) ∧ o.mem = threeValues ∧
      o.stats.stores = 0 ∧ o.stats.valuesChanged = 0 ∧ o.stats.valuesFlushed = 0 :=
    ⟨_, rfl, rfl, rfl, rfl, rfl, rfl, rfl⟩
  have hrun : Run markAll (.init threeValues) [mallocMarked] o :=
    .step mallocMarked ⟨1, 1⟩ ⟨rfl, rfl⟩ hexec (.refl o)
  obtain ⟨hblocks, hbytes, hnext⟩ := run_counts hrun
  obtain ⟨o', hstore, hmem'⟩ : ∃ o',
      exec markAll ⟨[], []⟩ none ⟨2, 2⟩ (.mxAfterStore 0x1008 8) o = some ((), o') ∧
        o'.mem = Memlog.mxReencode markAll.clo markedBlock 0x1008 8 threeValues := by
    refine ⟨{ o with
      mem := (mxReencode markAll.clo markedBlock 0x1008 8 o.mem o.stats).1
      stats := (mxReencode markAll.clo markedBlock 0x1008 8 o.mem o.stats).2 }, ?_, ?_⟩
    · have hmx : markedBlock.mx = true := rfl
      simp only [exec, mxAfterStore, fullM_bind, hfind, Option.bind_some,
        if_pos Option.isSome_some, hload, if_pos hmx]
    · rw [mxReencode_eq, hmem]
  have hcounts := hnext ⟨⟨[], []⟩, none, .mxAfterStore 0x1008 8⟩ ⟨2, 2⟩ o' hstore
  have hhit : hitBlock (Registry.init.run (callActions markAll [] [mallocMarked])).blocks
      (.mxAfterStore 0x1008 8) = some markedBlock := by decide +kernel
  have hcount : changedElements (mxFormat markAll.clo) threeValues
      (Memlog.mxReencode markAll.clo markedBlock 0x1008 8 threeValues) markedBlock = 2 ∧
      flushedElements (mxFormat markAll.clo) threeValues
        (Memlog.mxReencode markAll.clo markedBlock 0x1008 8 threeValues) markedBlock = 1 := by
    decide +kernel
  rw [hhit] at hcounts
  refine ⟨o, hrun, hblocks.trans (by decide), hbytes.trans (by decide), o', hstore, ?_, ?_, ?_⟩
  · rw [hcounts.stores, hstores]
    rfl
  · rw [hcounts.changed, hchanged, hmem, hmem', Option.map_some, hcount.1]
    rfl
  · rw [hcounts.flushed, hflushed, hmem, hmem', Option.map_some, hcount.2]
    rfl

end Memlog.Full
