import Memlog.Pipeline.Table
import Memlog.Program.Model

/-!
# The client under the tool is the client

Step by step, the client under the tool goes the way that it is to go, and the tool records what it
is to record (`traced_refines`): for every core, every program and every number of steps. Put before
the results on the log, this gives what the table at the end of the pipeline has to do with the
client's program (`convertArchive_client`).
-/

namespace Memlog.Program

open Lib Vex Wire ToParquet

/-! ## The helpers -/

section Helpers

variable {fn : Helpers} {su : Setup} {t : Tool} {r : Registry} {M : Machine}

theorem mxAfterStoreCallee_ne (fn : Helpers) : mxAfterStoreCallee fn ≠ logStoreCallee fn := by
  intro h
  have hname : "mx_after_store" = "log_store" := congrArg IRCallee.name h
  exact absurd hname (by decide)

theorem helperDirty_of_ne {cee : IRCallee} (hlog : cee ≠ logStoreCallee fn)
    (hmx : cee ≠ mxAfterStoreCallee fn) (args : List Nat) (s : GState) :
    helperDirty fn su t M cee args s = M.dirty cee args s := by
  unfold helperDirty
  rw [if_neg hlog, if_neg hmx]

theorem seesNoTemps_toolMachine (hM : M.SeesNoTemps) : (toolMachine fn su t M).SeesNoTemps where
  dirty cee args s s' hguest hmem := by
    change helperDirty fn su t M cee args s' = helperDirty fn su t M cee args s
    simp only [helperDirty, hguest, hmem, hM.dirty cee args s s' hguest hmem]
  succeeds := hM.succeeds

theorem quiet_toolMachine (hM : M.SeesNoTemps) : Quiet fn (toolMachine fn su t M) where
  toSeesNoTemps := seesNoTemps_toolMachine hM
  logStore args s := by
    change (helperDirty fn su t M (logStoreCallee fn) args s).2 = _
    unfold helperDirty
    rw [if_pos rfl]

/-- `mx_after_store` in the state of the tool when the superblock starts. -/
theorem encodes_toolMachine (h : Refines su t r) (hM : M.SeesNoTemps) :
    Encodes fn (toolMachine fn su t M)
      fun a size => encodedMem r.blocks su.clo a (BitVec.ofNat 64 size) where
  toSeesNoTemps := seesNoTemps_toolMachine hM
  mxAfterStore a size s := by
    have h₁ : Refines su { t with mem := s.mem } r := h.congr rfl rfl rfl
    change (helperDirty fn su t M (mxAfterStoreCallee fn) [a, size] s).2 = _
    unfold helperDirty
    rw [if_neg (mxAfterStoreCallee_ne fn), if_pos rfl]
    simp only [mxAfterStore_eq_encodedMem h₁, Option.map_some, Option.getD_some]

variable (sb : Superblock fn)

/-- The superblock itself calls no helper of the tool. -/
theorem Superblock.dirty_eq (d : IRDirty) (hd : some (.dirty d) ∈ sb.bb.stmts) (args : List Nat)
    (s : GState) : helperDirty fn su t M d.cee args s = M.dirty d.cee args s := by
  obtain ⟨hlog, hmx⟩ := sb.noHelper d hd
  exact helperDirty_of_ne hlog hmx args s

theorem chunksOf_toolMachine (tyenv : IRTypeEnv) (s : GState) (st : IRStmt) :
    chunksOf (toolMachine fn su t M) tyenv s st = chunksOf M tyenv s st := by
  cases st with
  | store endness addr data =>
    simp only [chunksOf, toolMachine, evalAddr_withDirty, evalExpr_withDirty]
    rfl
  | _ => rfl

end Helpers

/-! ## One superblock -/

section Block

variable {fn : Helpers} {M : Machine} {tyenv : IRTypeEnv}

/-- **The superblock of `wire_memlog`** does what the superblock does, and passes the chunks of the
executed stores to `log_store`. -/
theorem runIRSB_wireMemlog_agree (hM : Quiet fn M) {bb : IRSB} (hdecl : bb.declared)
    (hlog : ∀ d, some (.dirty d) ∈ bb.stmts → d.cee ≠ logStoreCallee fn) (s : GState) :
    Outcome.Agree bb.tyenv.length (runIRSB M bb s) (runIRSB M (wireMemlog fn M.prim bb) s) ∧
      logCalls fn (runIRSB M (wireMemlog fn M.prim bb) s).events =
        executed M bb.tyenv (chunksOf M bb.tyenv) bb.stmts.reduceOption s := by
  obtain ⟨hstmts, hnext⟩ := Bool.and_eq_true_iff.1 hdecl
  rw [List.all_eq_true] at hstmts
  rw [wireMemlog_eq_run]
  refine LocalPass.simulates hnext (fun st hst => ?_) s
  have hcall : ∀ d, st = .dirty d → d.cee ≠ logStoreCallee fn := by
    rintro d rfl
    exact hlog d (List.reduceOption_mem_iff.1 hst)
  cases st with
  | store endness addr data => exact simulatesAt_store hM (hstmts _ hst)
  | _ => exact simulatesAt_copy hM (hstmts _ hst) hcall (fun _ => rfl) fun _ => rfl

theorem logCalls_execStmts {sts : List IRStmt}
    (h : ∀ d, .dirty d ∈ sts → d.cee ≠ logStoreCallee fn) (s : GState) :
    logCalls fn (execStmts M tyenv sts s).events = [] := by
  induction sts generalizing s with
  | nil => rfl
  | cons st sts ih =>
    have hhead : logCalls fn (execStmt M tyenv s st).events = [] :=
      logCalls_execStmt (fun d hd => h d (hd ▸ List.mem_cons_self)) s
    cases hx : (execStmt M tyenv s st).exit with
    | some x => rwa [execStmts_cons_of_exit hx]
    | none =>
      rw [execStmts_cons hx, logCalls, List.filterMap_append, ← logCalls, ← logCalls, hhead,
        ih fun d hd => h d (List.mem_cons_of_mem _ hd)]
      rfl

/-- The dirty calls of `wire_mx` are those of the superblock and of `mx_after_store`. -/
theorem dirty_mem_mxPass {prim : PrimopTable} {sts : List IRStmt} {n : Nat} {d : IRDirty}
    (h : .dirty d ∈ (mxPass fn prim tyenv).stmts n sts) :
    .dirty d ∈ sts ∨ d.cee = mxAfterStoreCallee fn := by
  induction sts generalizing n with
  | nil => cases h
  | cons st sts ih =>
    rw [LocalPass.stmts, List.mem_append] at h
    rcases h with hhead | htail
    · cases st with
      | store endness addr data =>
        simp only [mxPass, List.mem_cons, reduceCtorEq, IRStmt.dirty.injEq, List.not_mem_nil,
          or_false, false_or] at hhead
        right
        rw [hhead]
        rfl
      | _ => exact .inl (List.mem_cons.2 (.inl (List.mem_singleton.1 hhead)))
    · rcases ih htail with hmem | hcee
      · exact .inl (List.mem_cons_of_mem _ hmem)
      · exact .inr hcee

theorem logCalls_wireMx {bb : IRSB}
    (hlog : ∀ d, some (.dirty d) ∈ bb.stmts → d.cee ≠ logStoreCallee fn) (s : GState) :
    logCalls fn (runIRSB M (wireMx fn M.prim bb) s).events = [] := by
  rw [runIRSB, events_leaveIRSB, execIRSB, wireMx_eq_run, LocalPass.reduceOption_run]
  refine logCalls_execStmts (fun d hd => ?_) s
  rcases dirty_mem_mxPass hd with hmem | hcee
  · exact hlog d (List.reduceOption_mem_iff.1 hmem)
  · rw [hcee]
    exact mxAfterStoreCallee_ne fn

end Block

/-! ## The log -/

/-- The calls of `log_store` record their stores. -/
theorem logStores_run {su : Setup} {t : Tool} {r : Registry} (h : Refines su t r)
    (calls : List (Addr × ULong)) :
    ∃ t', logStores su calls t = some ((), t') ∧
      Refines su t' (r.run (calls.map fun p => .store p.1 p.2)) ∧ SameClient t t' := by
  induction calls generalizing t r with
  | nil => exact ⟨t, rfl, h, rfl, rfl⟩
  | cons call calls ih =>
    obtain ⟨t₁, hstore, h₁, hsame₁⟩ := logStore_refines h call.1 call.2
    obtain ⟨t', hrest, h', hsame⟩ := ih h₁
    refine ⟨t', ?_, h', hsame.heap.trans hsame₁.heap, hsame.mem.trans hsame₁.mem⟩
    rw [logStores, toolM_bind, hstore, Option.bind_some]
    exact hrest

/-! ## Steps and runs -/

section Run

variable {σ : Type} {fn : Helpers} {su : Setup}

/-- The client under the tool shows what the client is to see, and the tool has recorded what it is
to record. -/
structure Shows (su : Setup) (tr : Traced σ) (cl : Client σ) : Prop where
  core : tr.core = cl.core
  view : tr.view = cl.view
  refines : Refines su tr.tool (Registry.init.run cl.acts)

theorem Shows.init (su : Setup) (core : σ) (guest : ByteMem 64) (mem : Mem) (entry : Nat) :
    Shows su (.init core guest mem entry) (.init core guest mem entry) where
  core := rfl
  view := rfl
  refines := Refines.init su mem

variable {M : Machine} {tr : Traced σ} {cl : Client σ}

/-- **A superblock** does to the client what it is to do, and makes the calls of `log_store` that
are to be recorded. -/
theorem Shows.block (h : Shows su tr cl) (hM : M.SeesNoTemps) (sb : Superblock fn) (s : GState) :
    let o := runIRSB (toolMachine fn su tr.tool M) (mlInstrument fn M.prim su.clo sb.bb) s
    Outcome.Agree sb.bb.tyenv.length (Client.runBlock su M cl.blocks sb.bb s) o ∧
      (logCalls fn o.events).map (fun p => Action.store p.1 p.2) =
        Client.blockActions su M sb.bb s := by
  intro o
  have hlog : ∀ d, some (.dirty d) ∈ sb.bb.stmts → d.cee ≠ logStoreCallee fn :=
    fun d hd => (sb.noHelper d hd).1
  have hdirty : ∀ d, some (.dirty d) ∈ sb.bb.stmts → ∀ args s,
      helperDirty fn su tr.tool M d.cee args s = M.dirty d.cee args s := sb.dirty_eq
  cases hmode : su.clo.mxRound with
  | true =>
    have ho : o = runIRSB (toolMachine fn su tr.tool M)
        (wireMx fn (toolMachine fn su tr.tool M).prim sb.bb) s := by
      simp only [o, mlInstrument, hmode, if_true]
      rfl
    simp only [Client.runBlock, Client.blockActions, hmode, if_true]
    rw [ho]
    refine ⟨?_, by rw [logCalls_wireMx hlog, List.map_nil]⟩
    have hencodes : Encodes fn (toolMachine fn su tr.tool M) _ := encodes_toolMachine h.refines hM
    have hagree := runIRSB_wireMx_agree hencodes sb.declared s
    rwa [toolMachine, runHooked_withDirty hdirty] at hagree
  | false =>
    have ho : o = runIRSB (toolMachine fn su tr.tool M)
        (wireMemlog fn (toolMachine fn su tr.tool M).prim sb.bb) s := by
      simp only [o, mlInstrument, hmode, Bool.false_eq_true, if_false]
      rfl
    have hquiet : Quiet fn (toolMachine fn su tr.tool M) := quiet_toolMachine hM
    obtain ⟨hagree, hcalls⟩ := runIRSB_wireMemlog_agree hquiet sb.declared hlog s
    simp only [Client.runBlock, Client.blockActions, hmode, Bool.false_eq_true, if_false]
    rw [ho, hcalls]
    constructor
    · rwa [toolMachine, runIRSB_withDirty hdirty] at hagree
    · exact congrArg _
        (executed_withDirty hdirty (fun _ hst => hst) (chunksOf_toolMachine sb.bb.tyenv) s)

/-- **A step of the core** goes through. -/
theorem Shows.exec (h : Shows su tr cl) (hM : M.SeesNoTemps) (st : CoreStep fn) :
    ∃ tr', tr.exec su M st = some tr' ∧ Shows su tr' (cl.exec su M st) := by
  have hguest : tr.guest = cl.view.guest := congrArg View.guest h.view
  have hmem : tr.tool.mem = cl.view.mem := congrArg View.mem h.view
  have hheap : tr.tool.heap = cl.view.heap := congrArg View.heap h.view
  have htarget : tr.target = cl.view.target := congrArg View.target h.view
  have hkind : tr.jumpkind = cl.view.jumpkind := congrArg View.jumpkind h.view
  have hreply : tr.reply = cl.view.reply := congrArg View.reply h.view
  cases st with
  | block sb temps =>
    obtain ⟨hagree, hacts⟩ := h.block hM sb ⟨temps, tr.guest, tr.tool.mem⟩
    generalize ho : runIRSB (toolMachine fn su tr.tool M) (mlInstrument fn M.prim su.clo sb.bb)
      ⟨temps, tr.guest, tr.tool.mem⟩ = o at hagree hacts
    have h₁ : Refines su { tr.tool with mem := o.state.mem } (Registry.init.run cl.acts) :=
      h.refines.congr rfl rfl rfl
    obtain ⟨t', hlog, h', hsame⟩ := logStores_run h₁ (logCalls fn o.events)
    rw [hacts, ← Registry.run_append] at h'
    refine ⟨⟨tr.core, t', o.state.guest, o.target, o.jumpkind, tr.reply⟩, ?_, h.core, ?_, ?_⟩
    · simp only [Traced.exec, ho, hlog, Option.map_some]
    · rw [hguest, hmem] at hagree
      simp only [Traced.view, Client.exec, View.mk.injEq]
      exact ⟨hagree.state.guest, hsame.mem.trans hagree.state.mem, hsame.heap.trans hheap,
        hagree.target, hagree.jumpkind, hreply⟩
    · rw [hguest, hmem] at h'
      exact h'
  | call c =>
    obtain ⟨t', hcall, h', hheap', hmem'⟩ := call_refines h.refines c.who c.place c.op
    rw [← Registry.run_append, hheap] at h'
    rw [hheap] at hcall hheap' hmem'
    rw [hmem] at hmem'
    refine ⟨{ tr with tool := t', reply := c.op.reply su c.place cl.blocks cl.view.heap }, ?_,
      h.core, ?_, h'⟩
    · rw [Traced.exec, hcall, Option.map_some]
      rfl
    · simp only [Traced.view, Client.exec, View.mk.injEq]
      exact ⟨hguest, hmem', hheap', htarget, hkind, trivial⟩
  | other guest mem =>
    refine ⟨_, rfl, h.core, ?_, h.refines.congr rfl rfl rfl⟩
    rw [Traced.view, Client.exec, hheap, htarget, hkind, hreply]

variable (core : Core σ fn)

theorem Shows.step (h : Shows su tr cl) :
    ∃ tr', tr.step su core = some tr' ∧ Shows su tr' (cl.step su core) := by
  rw [Traced.step, Client.step, h.core, h.view]
  have h₁ : Shows su { tr with core := (core.next cl.core cl.view).1 }
      { cl with core := (core.next cl.core cl.view).1 } := ⟨rfl, h.view, h.refines⟩
  exact h₁.exec core.seesNoTemps _

theorem Shows.run (h : Shows su tr cl) (n : Nat) :
    ∃ tr', tr.run su core n = some tr' ∧ Shows su tr' (cl.run su core n) := by
  induction n generalizing tr cl with
  | zero => exact ⟨tr, rfl, h⟩
  | succ n ih =>
    obtain ⟨tr₁, hstep, h₁⟩ := h.step core
    obtain ⟨tr', hrun, h'⟩ := ih h₁
    refine ⟨tr', ?_, h'⟩
    rw [Traced.run, hstep, Option.bind_some, hrun]

/-! ## Main results -/

/-- **From the program to the table.** Let any program run under the tool for any number of steps
and end there. The parser accepts the log, any archive of its files is converted, and the table has
the chunks of the stores that the program executes at tracked addresses, each once. -/
theorem convertArchive_client (su : Setup) (core : Core σ fn) (c : σ) (guest : ByteMem 64)
    (mem : Mem) (entry n : Nat) {tr : Traced σ} {t' : Tool} {acts : List Action}
    {maxOpenFiles : Nat}
    (hrun : Traced.run su core n (.init c guest mem entry) = some tr)
    (hfini : mlFini tr.tool = some ((), t'))
    (hacts : (Client.run su core n (.init c guest mem entry)).acts = acts)
    (hplain : ∀ act ∈ acts, ∀ line ∈ act.trace, PlainLine line) (hopen : 1 ≤ maxOpenFiles)
    (hcount : (allocsOf (Registry.init.run acts).log).length ≤ 2 ^ 31) :
    ∃ files, parseLog maxOpenFiles (joinLines t'.out) (fun _ => none) = .ok files ∧
      ∀ (pa : Pyarrow) batchRows dir archive, Packs dir files archive →
        ∃ p, convertArchive pa batchRows archive = .ok p ∧
          FromLog (Registry.init.run acts).log p.rows := by
  obtain ⟨tr', hrun', h⟩ := (Shows.init su c guest mem entry).run core n
  cases hrun.symm.trans hrun'
  have href := h.refines
  rw [hacts] at href
  obtain ⟨-, l, -, hparse, hok, hfiled, hstored, hlog⟩ := href.exists_finished hfini hplain hopen
  rw [← hstored.heads, List.length_map] at hcount
  refine ⟨l.finished, hparse, fun pa batchRows dir archive hpacks => ?_⟩
  obtain ⟨p, hconvert, htab⟩ := hpacks.convertArchive hok hfiled hstored hlog hcount pa batchRows
  exact ⟨p, hconvert, htab.fromLog (by omega) hstored⟩

end Run

/-- A superblock with two stores, of which the first is executed. -/
def exitSuperblock : Superblock someHelpers where
  bb := exitBlock
  declared := by
    have hsane : sanityCheckIRSB idleMachine.prim exitBlock := rfl
    exact IRSB.declared_of_sane hsane
  noHelper d hd := by simp [exitBlock, blockOf] at hd

/-- The program tracks a region and runs a superblock. -/
def trackAndStore : Core Nat someHelpers where
  machine := idleMachine
  seesNoTemps := quiet_idleMachine.toSeesNoTemps
  next n _ :=
    (n + 1, if n = 0 then .call ⟨⟨⟨someTrace, []⟩, none, .request (.trackBlock 0x1000 64)⟩, rfl⟩
      else .block exitSuperblock fun _ => 0)

/-- The region, and the actions of the program on it. -/
def trackAndStoreBlock : Block := clientBlock ⟨someTrace, []⟩ 0x1000 64

def trackAndStoreActions : List Action := [.track trackAndStoreBlock, .store 0x1000 7]

def trackAndStoreRecord : Record where
  start := 0x1000
  size := 64
  stackLines := Parser.cleanTrace someTrace
  stores := [(0x1000, 7)]

theorem plain_trackAndStore : ∀ act ∈ trackAndStoreActions, ∀ line ∈ act.trace, PlainLine line :=
  List.forall_mem_cons.2 ⟨plain_someTrace, List.forall_mem_cons.2
    ⟨fun _ hline => absurd hline List.not_mem_nil, List.forall_mem_nil _⟩⟩

theorem noRetrack_trackAndStore : NoRetrack .init trackAndStoreActions := by
  refine ⟨fun bk _ b hb => absurd hb List.not_mem_nil, ?_, trivial⟩
  rintro bk ⟨⟩

/-- Two steps of the program under the tool, and the archive of what the parser makes of the log. -/
theorem exists_run_trackAndStore :
    ∃ tr, Traced.run plainSetup trackAndStore 2 (.init 0 (fun _ => 0) (fun _ => 0) 0x400000) =
        some tr ∧
      ∀ files, parseLog 1 (joinLines tr.tool.logLines) (fun _ => none) = .ok files →
        Packs parsedDir files (oneFile parsedDir trackAndStoreRecord) := by
  obtain ⟨tr, hrun, h⟩ := (Shows.init plainSetup 0 (fun _ => 0) (fun _ => 0) 0x400000).run
    trackAndStore 2
  have hacts : (Client.run plainSetup trackAndStore 2
      (.init 0 (fun _ => 0) (fun _ => 0) 0x400000)).acts = trackAndStoreActions := rfl
  refine ⟨tr, hrun, fun files hparse => ?_⟩
  exact packs_of_refines (hacts ▸ h.refines) rfl noRetrack_trackAndStore plain_trackAndStore hparse
    rfl (by decide) rfl

theorem convertArchive_client_trackAndStore :
    ∃ tr p, Traced.run plainSetup trackAndStore 2 (.init 0 (fun _ => 0) (fun _ => 0) 0x400000) =
        some tr ∧
      convertArchive .checking batchRows (oneFile parsedDir trackAndStoreRecord) = .ok p ∧
      FromLog (Registry.init.run
        [.track (clientBlock ⟨someTrace, []⟩ 0x1000 64), .store 0x1000 7]).log p.rows := by
  obtain ⟨tr, hrun, hpacks⟩ := exists_run_trackAndStore
  obtain ⟨files, hparse, htable⟩ := convertArchive_client plainSetup trackAndStore 0 (fun _ => 0)
    (fun _ => 0) 0x400000 2 hrun rfl rfl plain_trackAndStore (le_refl 1) (by decide)
  obtain ⟨p, hconvert, hfrom⟩ := htable .checking batchRows _ _ (hpacks files hparse)
  exact ⟨tr, p, hrun, hconvert, hfrom⟩

end Memlog.Program
