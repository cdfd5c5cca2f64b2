import Memlog.Tool.Lookup
import Memlog.Vex.Scope
import Memlog.Wire.Logged

/-!
# The instrumented superblock does what the superblock does

`log_store` changes neither guest state nor memory, and the statements that `wire_memlog` adds
assign new temporaries only, so an instrumented superblock leaves the guest as the superblock does.
On the way it passes to `log_store` the chunks of the stores that are executed, and the log grows by
those that start in a tracked region (`wireMemlog_simulates`).
-/

namespace Memlog.Wire

open Vex

variable {fn : Helpers} {M : Machine} {tyenv ext : IRTypeEnv}

/-! ## Chunks -/

/-- The chunks that a store of a value passes to `log_store`, with their addresses. Values of type
`Ity_I1` are not stored in a superblock that passes the check. -/
def storeChunks (a : Addr) (v : Nat) : IRType → List (Addr × ULong)
  | .i1 => [(a, BitVec.ofNat 64 (v % 2))]
  | .f16 | .d32 | .d64 => []
  | ty => (List.range (numPieces ty)).map fun i => (a + BitVec.ofNat 64 (pieceSize ty * i),
      BitVec.ofNat 64 (chunk (pieceSize ty) v (numPieces ty - 1 - i)))

/-- The chunks of a statement that is executed in a state. -/
def chunksOf (M : Machine) (tyenv : IRTypeEnv) (s : GState) : IRStmt → List (Addr × ULong)
  | .store _ addr data =>
    (typeOfIRExpr M.prim tyenv data).elim [] (storeChunks (evalAddr M s addr) (evalExpr M s data))
  | _ => []

theorem logCalls_storePieces (addr data : IRExpr) (ty : IRType) (s : GState) :
    logCalls fn ((storePieces data ty).map (pieceCall fn M s addr)) =
      storeChunks (evalAddr M s addr) (evalExpr M s data) ty := by
  rw [logCalls_pieceCall]
  by_cases hty : Logged ty
  · have hmap := congrArg
      (List.map fun q : Nat × ULong => (evalAddr M s addr + BitVec.ofNat 64 q.1, q.2))
      (storePieces_eq M data hty s)
    rw [List.map_map, List.map_map] at hmap
    obtain ⟨h₁, h₂, h₃, h₄⟩ := hty
    refine hmap.trans ?_
    cases ty <;> first | rfl | contradiction
  · cases ty <;> first | rfl | exact absurd ⟨by decide, by decide, by decide, by decide⟩ hty | skip
    simp only [storePieces, storeChunks, List.map_cons, List.map_nil, BitVec.add_zero, evalExpr,
      evalOp]

/-- Only a dirty call makes an event of a call. -/
theorem logCalls_execStmt {st : IRStmt} (hst : ∀ d, st = .dirty d → d.cee ≠ logStoreCallee fn)
    (s : GState) : logCalls fn (execStmt M tyenv s st).events = [] := by
  cases st with
  | store endness addr data =>
    rw [execStmt]
    split <;> rfl
  | storeG sg =>
    rw [execStmt]
    split <;> rfl
  | cas c =>
    rw [execStmt, execCas]
    split
    · simp only
      split <;> rfl
    · simp only
      split <;> rfl
  | llsc endness result addr storedata =>
    cases storedata with
    | none => rfl
    | some data =>
      simp only [execStmt]
      split <;> rfl
  | dirty d =>
    have hcall : ∀ args, logCall fn (.call d.cee args) = none := by
      intro args
      rcases args with - | ⟨a, - | ⟨v, - | ⟨_, _⟩⟩⟩
      · rfl
      · rfl
      · exact if_neg (hst d rfl)
      · rfl
    rw [execStmt, execDirty]
    split
    · rfl
    · simp only [logCalls, List.filterMap_cons, hcall]
      split <;> rfl
  | exit guard dst jk offsIP =>
    rw [execStmt]
    split <;> rfl
  | _ => rfl

/-! ## The simulation -/

/-- `log_store` changes neither guest state nor memory; no helper sees temporaries. -/
structure Quiet (fn : Helpers) (M : Machine) : Prop extends M.SeesNoTemps where
  logStore : ∀ args s, (M.dirty (logStoreCallee fn) args s).2 = (s.guest, s.mem)

theorem Quiet.pieceFrame (h : Quiet fn M) (k : Nat) : PieceFrame fn M k (Agree k) where
  refl := Agree.refl k
  trans := Agree.trans
  setTemp s _ v hk := ⟨sameTemps_setTemp s v hk, rfl, rfl⟩
  logStore s args := by
    rw [h.logStore args s]
    exact Agree.refl k s

section Pass

variable {n : Nat} {addr data : IRExpr}

theorem inScope_pieceAddr (h : inScope n addr) (offset : Nat) :
    inScope n (pieceAddr addr offset) := by
  rw [pieceAddr]
  split
  · exact h
  · simp only [inScope, h, Bool.and_self]

theorem inScope_storePieces (h : inScope n data) (ty : IRType) :
    ∀ p ∈ storePieces data ty, inScope n p.2 := by
  cases ty <;> simp [storePieces, inScope, h]

/-- A statement that is copied. -/
theorem simulatesAt_copy (hM : Quiet fn M) {st : IRStmt} (hst : stmtInScope tyenv.length st)
    (hlog : ∀ d, st = .dirty d → d.cee ≠ logStoreCallee fn)
    (hexpand : ∀ n, (memlogPass fn M.prim tyenv).expand n st = [st])
    (hchunks : ∀ s, chunksOf M tyenv s st = []) :
    (memlogPass fn M.prim tyenv).SimulatesAt M tyenv ext (chunksOf M tyenv) (logCall fn) st := by
  intro n s s' _ hs
  have hagree : Result.Agree tyenv.length (execStmt M tyenv s st)
      (execStmt M (tyenv ++ ext) s' st) := execStmt_agree hM.toSeesNoTemps hs hst
  rw [hexpand, execStmts_singleton, hchunks]
  exact ⟨hagree.state, hagree.exit, logCalls_execStmt hlog s'⟩

/-- A store, which comes after the calls for its pieces. -/
theorem simulatesAt_store (hM : Quiet fn M) {endness : IREndness}
    (hst : stmtInScope tyenv.length (.store endness addr data)) :
    (memlogPass fn M.prim tyenv).SimulatesAt M tyenv ext (chunksOf M tyenv) (logCall fn)
      (.store endness addr data) := by
  intro n s s' hn hs
  obtain ⟨haddr, hdata⟩ := inScope_of_store hst
  let pieces := dataPieces M.prim tyenv data
  have hpieces : ∀ p ∈ pieces, inScope tyenv.length p.2 := by
    simp only [pieces, dataPieces]
    cases typeOfIRExpr M.prim tyenv data with
    | none => exact List.forall_mem_nil _
    | some ty => exact inScope_storePieces hdata ty
  obtain ⟨s₁, hrun, hs₁⟩ : ∃ s₁, execStmts M (tyenv ++ ext) (pieceStmts fn addr n pieces) s' =
      ⟨s₁, pieces.map (pieceCall fn M s' addr), none⟩ ∧ Agree tyenv.length s' s₁ :=
    (hM.pieceFrame tyenv.length).execStmts_pieceStmts hn
      (fun offset s s' h => evalExpr_agree h _ (inScope_pieceAddr haddr offset))
      (fun p hp s s' h => evalExpr_agree h _ (hpieces p hp)) s'
  have hstore : Result.Agree tyenv.length (execStmt M tyenv s (.store endness addr data))
      (execStmt M (tyenv ++ ext) s₁ (.store endness addr data)) :=
    execStmt_agree hM.toSeesNoTemps (hs.trans hs₁) hst
  have hnone : (execStmt M (tyenv ++ ext) s₁ (.store endness addr data)).exit = none := by
    rw [execStmt]
    split <;> rfl
  have hexec : execStmts M (tyenv ++ ext)
      ((memlogPass fn M.prim tyenv).expand n (.store endness addr data)) s' = _ :=
    execStmts_append (by rw [hrun])
  rw [hexec, hrun, execStmts_cons hnone]
  refine ⟨hstore.state, ?_, ?_⟩
  · exact hnone.symm.trans hstore.exit
  · have hcalls : logCalls fn (pieces.map (pieceCall fn M s' addr)) =
        chunksOf M tyenv s (.store endness addr data) := by
      simp only [pieces, dataPieces, chunksOf]
      cases typeOfIRExpr M.prim tyenv data with
      | none => rfl
      | some ty =>
        rw [← evalAddr_agree hs haddr, ← evalExpr_agree hs data hdata]
        exact logCalls_storePieces addr data ty s'
    have hquiet : logCalls fn
        (execStmt M (tyenv ++ ext) s₁ (.store endness addr data)).events = [] :=
      logCalls_execStmt (fun d hd => by cases hd) s₁
    simp only [execStmts_nil, List.append_nil, List.filterMap_append]
    rw [← logCalls, ← logCalls, hcalls, hquiet, List.append_nil]

/-- The statements of the superblock are all there, in their order. -/
theorem sublist_stmts (sts : List IRStmt) (n : Nat) :
    sts.Sublist ((memlogPass fn M.prim tyenv).stmts n sts) := by
  induction sts generalizing n with
  | nil => exact List.Sublist.refl []
  | cons st sts ih =>
    have hhead : [st].Sublist ((memlogPass fn M.prim tyenv).expand n st) := by
      cases st with
      | store endness addr data => exact List.sublist_append_right ..
      | _ => exact List.Sublist.refl _
    exact hhead.append (ih _)

end Pass

/-! ## The log -/

/-- The calls of `log_store`, one after the other. -/
def logStores (su : Setup) : List (Addr × ULong) → ToolM Unit
  | [] => pure ()
  | (addr, value) :: calls => do
    logStore su addr value
    logStores su calls

/-- What `is_tracked` answers. -/
def answersTracked (t : Tool) (a : Addr) : Bool := (onTracked (isTracked a) t).elim false Prod.fst

theorem logStores_refines {su : Setup} {t : Tool} {r : Registry} (h : Refines su t r)
    (calls : List (Addr × ULong)) :
    ∃ t', logStores su calls t = some ((), t') ∧
      Refines su t' ⟨r.blocks, r.log ++
        (calls.filter fun p => (lookupBlock p.1 r.blocks).isSome).map fun p => .store p.1 p.2⟩ := by
  induction calls generalizing t r with
  | nil =>
    refine ⟨t, rfl, ?_⟩
    rw [List.filter_nil, List.map_nil, List.append_nil]
    exact h
  | cons call calls ih =>
    obtain ⟨t₁, hstore, h₁, -⟩ := logStore_refines h call.1 call.2
    obtain ⟨t', hrest, h'⟩ := ih h₁
    refine ⟨t', ?_, ?_⟩
    · rw [logStores, toolM_bind, hstore, Option.bind_some]
      exact hrest
    · rw [Registry.blocks_store] at h'
      by_cases hfound : (lookupBlock call.1 r.blocks).isSome
      · have hkeep : List.filter (fun p => (lookupBlock p.1 r.blocks).isSome) (call :: calls) =
            call :: calls.filter fun p => (lookupBlock p.1 r.blocks).isSome :=
          List.filter_cons_of_pos hfound
        rw [hkeep, List.map_cons, List.append_cons]
        rw [Registry.step, if_pos hfound] at h'
        exact h'
      · have hdrop : List.filter (fun p => (lookupBlock p.1 r.blocks).isSome) (call :: calls) =
            calls.filter fun p => (lookupBlock p.1 r.blocks).isSome :=
          List.filter_cons_of_neg hfound
        rw [hdrop]
        rw [Registry.step, if_neg hfound] at h'
        exact h'

/-- Which lines the calls add to the log. -/
theorem logLines_logStores {su : Setup} {t : Tool} {r : Registry} (h : Refines su t r)
    (calls : List (Addr × ULong)) :
    ∃ t', logStores su calls t = some ((), t') ∧
      t'.logLines = t.logLines ++ (calls.filter fun p => answersTracked t p.1).flatMap
        fun p => (LogEntry.store p.1 p.2).print := by
  obtain ⟨t', hrun, h'⟩ := logStores_refines h calls
  refine ⟨t', hrun, ?_⟩
  have htracked : ∀ a, answersTracked t a = (lookupBlock a r.blocks).isSome := by
    intro a
    rw [answersTracked, h.isTracked a]
    rfl
  simp only [Tool.logLines, h.printed, h'.printed, htracked, List.flatMap_append, List.flatMap_map]

/-! ## Main result -/

/-- **The instrumented superblock simulates the superblock.** Take any superblock whose temporaries
are declared and which does not itself call `log_store`, and any state of guest and tool. Running
what `wire_memlog` makes of it leaves guest state, memory and the temporaries of the superblock as
running the superblock does, and control goes the same way; its statements are all there, in their
order. The calls of `log_store` go through, and add to the log the chunks of the stores that the
superblock executes, in order, whose address is tracked: none for a store after a taken exit. -/
theorem wireMemlog_simulates (fn : Helpers) (M : Machine) (hM : Quiet fn M) (bb : IRSB)
    (hdecl : bb.declared) (hlog : ∀ d, some (.dirty d) ∈ bb.stmts → d.cee ≠ logStoreCallee fn)
    (s : GState) (su : Setup) (m : Mem) (acts : List Action) (t : Tool)
    (hrun : Run su (.init m) acts t) :
    Outcome.Agree bb.tyenv.length (runIRSB M bb s) (runIRSB M (wireMemlog fn M.prim bb) s) ∧
      bb.stmts.reduceOption.Sublist (wireMemlog fn M.prim bb).stmts.reduceOption ∧
      ∃ t', logStores su (logCalls fn (runIRSB M (wireMemlog fn M.prim bb) s).events) t =
          some ((), t') ∧
        t'.logLines = t.logLines ++
          ((executed M bb.tyenv (chunksOf M bb.tyenv) bb.stmts.reduceOption s).filter
            fun p => answersTracked t p.1).flatMap fun p => (LogEntry.store p.1 p.2).print := by
  obtain ⟨hstmts, hnext⟩ := Bool.and_eq_true_iff.1 hdecl
  rw [List.all_eq_true] at hstmts
  have hsim : ∀ st ∈ bb.stmts.reduceOption, (memlogPass fn M.prim bb.tyenv).SimulatesAt M bb.tyenv
      (List.replicate ((memlogPass fn M.prim bb.tyenv).numTemps bb.stmts.reduceOption) .i64)
      (chunksOf M bb.tyenv) (logCall fn) st := by
    intro st hst
    have hcall : ∀ d, st = .dirty d → d.cee ≠ logStoreCallee fn := by
      rintro d rfl
      exact hlog d (List.reduceOption_mem_iff.1 hst)
    cases st with
    | store endness addr data => exact simulatesAt_store hM (hstmts _ hst)
    | _ => exact simulatesAt_copy hM (hstmts _ hst) hcall (fun _ => rfl) fun _ => rfl
  obtain ⟨hagree, hcalls⟩ := LocalPass.simulates hnext hsim s
  rw [wireMemlog_eq_run]
  refine ⟨hagree, ?_, ?_⟩
  · rw [LocalPass.reduceOption_run]
    exact sublist_stmts _ _
  · rw [logCalls, hcalls]
    exact logLines_logStores (hrun.refines (.init su m)) _

theorem quiet_idleMachine : Quiet someHelpers idleMachine where
  dirty cee args s s' hguest hmem := by simp only [idleMachine, hguest, hmem]
  succeeds _ _ _ _ _ := rfl
  logStore _ _ := rfl

/-- A store, an exit that is always taken, and another store. -/
def exitBlock : IRSB :=
  blockOf [] [.store .le (.const (.u64 0x1000)) (.const (.u64 7)),
    .exit (.const (.u1 true)) (.u64 0x402000) 1 184,
    .store .le (.const (.u64 0x1008)) (.const (.u64 9))]

theorem wireMemlog_simulates_exitBlock :
    ∃ t t', Run plainSetup (.init fun _ => 0) (trackTwoActions 0x1000 64 0x2000 8) t ∧
      Outcome.Agree 0 (runIRSB idleMachine exitBlock zeroState)
        (runIRSB idleMachine (wireMemlog someHelpers idleMachine.prim exitBlock) zeroState) ∧
      logStores plainSetup (logCalls someHelpers (runIRSB idleMachine
        (wireMemlog someHelpers idleMachine.prim exitBlock) zeroState).events) t = some ((), t') ∧
      t'.logLines = t.logLines ++ (LogEntry.store 0x1000 7).print := by
  obtain ⟨t, hrun, href, -⟩ :=
    exists_run (Refines.init plainSetup fun _ => 0) (trackTwo 0x1000 64 0x2000 8)
  have hsane : sanityCheckIRSB idleMachine.prim exitBlock := rfl
  have hnoLog : ∀ d, some (.dirty d) ∈ exitBlock.stmts → d.cee ≠ logStoreCallee someHelpers := by
    intro d hd
    simp [exitBlock, blockOf] at hd
  obtain ⟨hagree, -, t', hlog, hlines⟩ := wireMemlog_simulates someHelpers idleMachine
    quiet_idleMachine exitBlock (IRSB.declared_of_sane hsane) hnoLog zeroState
    plainSetup _ _ t hrun
  have htracked : answersTracked t 0x1000 = true := by
    rw [answersTracked, href.isTracked]
    rfl
  refine ⟨t, t', hrun, hagree, hlog, ?_⟩
  have hchunks : executed idleMachine exitBlock.tyenv (chunksOf idleMachine exitBlock.tyenv)
      exitBlock.stmts.reduceOption zeroState = [(0x1000, 7)] := rfl
  rw [hlines, hchunks, List.filter_singleton, htracked]
  rfl

end Memlog.Wire
