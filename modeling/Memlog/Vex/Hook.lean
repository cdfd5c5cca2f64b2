import Memlog.Vex.Scope

/-!
# Statements with a meaning of their own

A local pass may change what a statement does. `runWith` runs statements whose meaning is given by a
function, and `LocalPass.actsAs` says that a pass gives the superblock of that meaning, if what
replaces each statement alone does; `LocalPass.showsAs` says the same of the events that are picked
out of both runs. The meaning that is used here is the one in which every store is followed by a
change of the memory (`execHooked`).

A machine whose helpers are replaced runs a superblock that calls none of them as before
(`execStmt_withDirty`).
-/

namespace Memlog.Vex

open Lib

/-! ## Runs -/

/-- Statements run in order until an exit is taken, each as `step` says. -/
def runWith (step : GState → IRStmt → Result) : List IRStmt → GState → Result
  | [], s => ⟨s, [], none⟩
  | st :: sts, s =>
    let r := step s st
    match r.exit with
    | some _ => r
    | none =>
      let r' := runWith step sts r.state
      ⟨r'.state, r.events ++ r'.events, r'.exit⟩

section RunWith

variable {step step' : GState → IRStmt → Result} {st : IRStmt} {sts : List IRStmt} {s : GState}

theorem runWith_cons_of_exit {x : Exit} (h : (step s st).exit = some x) :
    runWith step (st :: sts) s = step s st := by
  rw [runWith]
  simp only [h]

theorem runWith_cons (h : (step s st).exit = none) :
    runWith step (st :: sts) s =
      ⟨(runWith step sts (step s st).state).state,
        (step s st).events ++ (runWith step sts (step s st).state).events,
        (runWith step sts (step s st).state).exit⟩ := by
  rw [runWith]
  simp only [h]

theorem runWith_execStmt (M : Machine) (tyenv : IRTypeEnv) (sts : List IRStmt) (s : GState) :
    runWith (execStmt M tyenv) sts s = execStmts M tyenv sts s := by
  induction sts generalizing s with
  | nil => rfl
  | cons st sts ih =>
    cases hx : (execStmt M tyenv s st).exit with
    | some x => rw [runWith_cons_of_exit hx, execStmts_cons_of_exit hx]
    | none => rw [runWith_cons hx, execStmts_cons hx, ih]

theorem runWith_congr (h : ∀ st ∈ sts, ∀ s, step s st = step' s st) (s : GState) :
    runWith step sts s = runWith step' sts s := by
  induction sts generalizing s with
  | nil => rfl
  | cons st sts ih =>
    obtain ⟨hhead, htail⟩ := List.forall_mem_cons.1 h
    simp only [runWith, hhead s, ih htail]

/-- `R` holds of every statement that a run executes, in the state in which it is executed. -/
def EachStmt (step : GState → IRStmt → Result) (R : GState → IRStmt → Prop) :
    List IRStmt → GState → Prop
  | [], _ => True
  | st :: sts, s => R s st ∧ ((step s st).exit = none → EachStmt step R sts (step s st).state)

/-- A property that every step keeps that is as it should be, like its events. -/
theorem runWith_keeps {P : GState → Prop} {Q : Event → Prop} {R : GState → IRStmt → Prop}
    (hstep : ∀ s st, P s → (∀ e ∈ (step s st).events, Q e) → R s st → P (step s st).state)
    (hs : P s) (hev : ∀ e ∈ (runWith step sts s).events, Q e) (heach : EachStmt step R sts s) :
    P (runWith step sts s).state := by
  induction sts generalizing s with
  | nil => exact hs
  | cons st sts ih =>
    obtain ⟨hst, hsts⟩ := heach
    cases hx : (step s st).exit with
    | some x =>
      rw [runWith_cons_of_exit hx] at hev ⊢
      exact hstep s st hs hev hst
    | none =>
      rw [runWith_cons hx] at hev ⊢
      rw [List.forall_mem_append] at hev
      exact ih (hstep s st hs hev.1 hst) hev.2 (hsts hx)

end RunWith

/-! ## What a statement leaves alone -/

theorem storeMem_of_le {m : Mem} {endness : IREndness} {a x : Addr} {size v : Nat}
    (h : size ≤ dist a x) : storeMem m endness a size v x = m x := by
  cases endness with
  | le => exact ByteMem.storeLE_of_le h
  | be => exact ByteMem.storeLE_of_le h

/-- If the statement calls a helper, the helper leaves the byte alone. -/
def HelperSpares (M : Machine) (x : Addr) (s : GState) (st : IRStmt) : Prop :=
  ∀ d, st = .dirty d → evalExpr M s d.guard ≠ 0 →
    (M.dirty d.cee (evalArgs M s d.args) s).2.2 x = s.mem x

/-- A byte changes only if a write that the statement performs covers it, or in a helper. -/
theorem execStmt_mem_of_le {M : Machine} {tyenv : IRTypeEnv} {s : GState} {st : IRStmt} {x : Addr}
    (hdirty : HelperSpares M x s st)
    (h : ∀ kind a size, .write kind a size ∈ (execStmt M tyenv s st).events → size ≤ dist a x) :
    (execStmt M tyenv s st).state.mem x = s.mem x := by
  have hwrite : ∀ (s' : GState) kind endness a size v, s'.mem = s.mem →
      (∀ kind' a' size', .write kind' a' size' ∈ (s'.write kind endness a size v).events →
        size' ≤ dist a' x) → (s'.write kind endness a size v).state.mem x = s.mem x := by
    intro s' kind endness a size v hmem hmiss
    exact (storeMem_of_le (hmiss kind a size List.mem_cons_self)).trans (congrFun hmem x)
  have hset : ∀ (s' : GState) tmp v, (s'.setTemp? tmp v).mem = s'.mem := by
    intro s' tmp v
    cases tmp <;> rfl
  cases st with
  | store endness addr data =>
    simp only [execStmt] at h ⊢
    split
    · rename_i ty hty
      simp only [hty] at h
      exact hwrite s _ _ _ _ _ rfl h
    · rfl
  | storeG sg =>
    simp only [execStmt] at h ⊢
    split
    · rfl
    · rename_i hguard
      rw [if_neg hguard] at h
      exact hwrite s _ _ _ _ _ rfl h
  | cas c =>
    simp only [execStmt, execCas] at h ⊢
    split
    · rename_i hdouble
      simp only [*] at h
      split
      · rename_i hold
        rw [if_pos hold] at h
        exact hwrite _ _ _ _ _ _ rfl h
      · rfl
    · simp only [*] at h
      split
      · rename_i hold
        rw [if_pos hold] at h
        exact hwrite _ _ _ _ _ _ rfl h
      · rfl
  | llsc endness result addr storedata =>
    cases storedata with
    | none => rfl
    | some data =>
      simp only [execStmt] at h ⊢
      split
      · rename_i hok
        rw [if_pos hok] at h
        exact hwrite (s.setTemp result 1) _ _ _ _ _ rfl h
      · rfl
  | dirty d =>
    simp only [execStmt, execDirty] at h ⊢
    split
    · rw [hset]
    · rename_i hguard
      rw [hset]
      exact hdirty d rfl hguard
  | exit guard dst jk offsIP =>
    simp only [execStmt]
    split <;> rfl
  | _ => rfl

theorem mem_leaveIRSB (M : Machine) (bb : IRSB) (r : Result) :
    (leaveIRSB M bb r).state.mem = r.state.mem := by
  rw [leaveIRSB]
  split <;> rfl

/-! ## Passes -/

namespace LocalPass

variable {P : LocalPass} {M M' : Machine} {tyenv' : IRTypeEnv} {k : Nat}
  {step : GState → IRStmt → Result}

/-- What replaces the statement does what `step` says. -/
def ActsAs (P : LocalPass) (M : Machine) (tyenv' : IRTypeEnv) (k : Nat)
    (step : GState → IRStmt → Result) (st : IRStmt) : Prop :=
  ∀ (n : Nat) (s s' : GState), k ≤ n → Agree k s s' →
    Agree k (step s st).state (execStmts M tyenv' (P.expand n st) s').state ∧
      (execStmts M tyenv' (P.expand n st) s').exit = (step s st).exit

theorem actsAs_stmts {sts : List IRStmt} (h : ∀ st ∈ sts, P.ActsAs M tyenv' k step st) {n : Nat}
    {s s' : GState} (hn : k ≤ n) (hs : Agree k s s') :
    Agree k (runWith step sts s).state (execStmts M tyenv' (P.stmts n sts) s').state ∧
      (execStmts M tyenv' (P.stmts n sts) s').exit = (runWith step sts s).exit := by
  induction sts generalizing n s s' with
  | nil => exact ⟨hs, rfl⟩
  | cons st sts ih =>
    obtain ⟨hhead, htail⟩ := List.forall_mem_cons.1 h
    obtain ⟨hstate, hexit⟩ := hhead n s s' hn hs
    rw [stmts]
    cases hx : (step s st).exit with
    | some x =>
      rw [hx] at hexit
      rw [execStmts_append_of_exit hexit, runWith_cons_of_exit hx]
      exact ⟨hstate, hexit.trans hx.symm⟩
    | none =>
      rw [hx] at hexit
      rw [execStmts_append hexit, runWith_cons hx]
      exact ih htail (hn.trans (Nat.le_add_right n (P.temps st))) hstate

/-- **A pass whose replacements do what `step` says** gives a superblock that does. -/
theorem actsAs {bb : IRSB} (hnext : inScope bb.tyenv.length bb.next)
    (h : ∀ st ∈ bb.stmts.reduceOption, P.ActsAs M
      (bb.tyenv ++ List.replicate (P.numTemps bb.stmts.reduceOption) .i64) bb.tyenv.length step st)
    (s : GState) :
    Outcome.Agree bb.tyenv.length (leaveIRSB M bb (runWith step bb.stmts.reduceOption s))
      (runIRSB M (P.run bb) s) := by
  obtain ⟨hstate, hexit⟩ := actsAs_stmts h le_rfl (Agree.refl bb.tyenv.length s)
  have hrun : execIRSB M (P.run bb) s = execStmts M
      (bb.tyenv ++ List.replicate (P.numTemps bb.stmts.reduceOption) .i64)
      (P.stmts bb.tyenv.length bb.stmts.reduceOption) s := by
    rw [execIRSB, reduceOption_run]
    rfl
  rw [← hrun] at hstate hexit
  exact leaveIRSB_agree hnext hstate hexit

/-- A statement that is copied, in a machine whose helpers see no temporaries. -/
theorem actsAs_copy {tyenv ext : IRTypeEnv} (hM : M.SeesNoTemps) {st : IRStmt}
    (hst : stmtInScope tyenv.length st) (hexpand : ∀ n, P.expand n st = [st])
    (hstep : ∀ s, step s st = execStmt M tyenv s st) :
    P.ActsAs M (tyenv ++ ext) tyenv.length step st := by
  intro n s s' _ hs
  have hagree : Result.Agree tyenv.length (execStmt M tyenv s st)
      (execStmt M (tyenv ++ ext) s' st) := execStmt_agree hM hs hst
  rw [hexpand, execStmts_singleton, hstep]
  exact ⟨hagree.state, hagree.exit⟩

theorem SimulatesAt.actsAs {α : Type} {tyenv ext : IRTypeEnv} {f : GState → IRStmt → List α}
    {obs : Event → Option α} {st : IRStmt} (h : P.SimulatesAt M tyenv ext f obs st) :
    P.ActsAs M (tyenv ++ ext) tyenv.length (execStmt M tyenv) st := by
  intro n s s' hn hs
  obtain ⟨hstate, hexit, -⟩ := h n s s' hn hs
  exact ⟨hstate, hexit⟩

/-- Of the events that `p` picks, what replaces the statement makes those that `step` makes. -/
def ShowsAs (P : LocalPass) (M : Machine) (tyenv' : IRTypeEnv) (k : Nat)
    (step : GState → IRStmt → Result) (p : Event → Bool) (st : IRStmt) : Prop :=
  ∀ (n : Nat) (s s' : GState), k ≤ n → Agree k s s' →
    (execStmts M tyenv' (P.expand n st) s').events.filter p = (step s st).events.filter p

theorem showsAs_stmts {p : Event → Bool} {sts : List IRStmt}
    (h : ∀ st ∈ sts, P.ActsAs M tyenv' k step st)
    (hp : ∀ st ∈ sts, P.ShowsAs M tyenv' k step p st) {n : Nat} {s s' : GState} (hn : k ≤ n)
    (hs : Agree k s s') :
    (execStmts M tyenv' (P.stmts n sts) s').events.filter p =
      (runWith step sts s).events.filter p := by
  induction sts generalizing n s s' with
  | nil => rfl
  | cons st sts ih =>
    obtain ⟨hhead, htail⟩ := List.forall_mem_cons.1 h
    obtain ⟨hpHead, hpTail⟩ := List.forall_mem_cons.1 hp
    obtain ⟨hstate, hexit⟩ := hhead n s s' hn hs
    have hevents := hpHead n s s' hn hs
    rw [stmts]
    cases hx : (step s st).exit with
    | some x =>
      rw [hx] at hexit
      rwa [execStmts_append_of_exit hexit, runWith_cons_of_exit hx]
    | none =>
      rw [hx] at hexit
      rw [execStmts_append hexit, runWith_cons hx, List.filter_append, List.filter_append, hevents,
        ih htail hpTail (hn.trans (Nat.le_add_right n (P.temps st))) hstate]

/-- **The events of a pass whose replacements act and show as `step` says**, as far as they are
picked. -/
theorem showsAs {p : Event → Bool} {bb : IRSB}
    (h : ∀ st ∈ bb.stmts.reduceOption, P.ActsAs M
        (bb.tyenv ++ List.replicate (P.numTemps bb.stmts.reduceOption) .i64) bb.tyenv.length
          step st ∧
      P.ShowsAs M (bb.tyenv ++ List.replicate (P.numTemps bb.stmts.reduceOption) .i64)
        bb.tyenv.length step p st) (s : GState) :
    (execIRSB M (P.run bb) s).events.filter p =
      (runWith step bb.stmts.reduceOption s).events.filter p := by
  rw [execIRSB, reduceOption_run]
  exact showsAs_stmts (fun st hst => (h st hst).1) (fun st hst => (h st hst).2) le_rfl
    (Agree.refl bb.tyenv.length s)

end LocalPass

/-! ## Stores that are followed by a change of the memory -/

/-- A statement in a machine that applies `hook` to the memory after every store, with the address
of the store and the number of its bytes. -/
def execHooked (M : Machine) (tyenv : IRTypeEnv) (hook : Addr → Nat → Mem → Mem) (s : GState)
    (st : IRStmt) : Result :=
  let r := execStmt M tyenv s st
  match st with
  | .store _ addr data =>
    { r with
      state :=
        { r.state with
          mem := hook (evalAddr M s addr) (sizeOfExpr M tyenv data) r.state.mem } }
  | _ => r

/-- A superblock in such a machine. -/
def runHooked (M : Machine) (hook : Addr → Nat → Mem → Mem) (bb : IRSB) (s : GState) : Outcome :=
  leaveIRSB M bb (runWith (execHooked M bb.tyenv hook) bb.stmts.reduceOption s)

/-! ## Other helpers -/

/-- The machine with other helpers. -/
def Machine.withDirty (M : Machine)
    (dirty : IRCallee → List Nat → GState → Nat × ByteMem 64 × Mem) : Machine :=
  { M with dirty := dirty }

section WithDirty

variable {M : Machine} {dirty : IRCallee → List Nat → GState → Nat × ByteMem 64 × Mem}

mutual

theorem evalExpr_withDirty (s : GState) : ∀ e, evalExpr (M.withDirty dirty) s e = evalExpr M s e
  | .binder _ | .const _ | .vecret | .gsptr | .rdTmp _ | .get _ _ => rfl
  | .getI descr ix bias => by rw [evalExpr, evalExpr, evalExpr_withDirty s ix]
  | .unop op arg => by
    rw [evalExpr, evalExpr, evalExpr_withDirty s arg]
    cases op <;> rfl
  | .load endness ty addr => by rw [evalExpr, evalExpr, evalExpr_withDirty s addr]
  | .qop op arg1 arg2 arg3 arg4 => by
    rw [evalExpr, evalExpr, evalExpr_withDirty s arg1, evalExpr_withDirty s arg2,
      evalExpr_withDirty s arg3, evalExpr_withDirty s arg4]
    cases op <;> rfl
  | .triop op arg1 arg2 arg3 => by
    rw [evalExpr, evalExpr, evalExpr_withDirty s arg1, evalExpr_withDirty s arg2,
      evalExpr_withDirty s arg3]
    cases op <;> rfl
  | .binop op arg1 arg2 => by
    rw [evalExpr, evalExpr, evalExpr_withDirty s arg1, evalExpr_withDirty s arg2]
    cases op <;> rfl
  | .ccall cee retty args => by
    rw [evalExpr, evalExpr, evalArgs_withDirty s args]
    rfl
  | .ite cond iftrue iffalse => by
    rw [evalExpr, evalExpr, evalExpr_withDirty s cond, evalExpr_withDirty s iftrue,
      evalExpr_withDirty s iffalse]

theorem evalArgs_withDirty (s : GState) :
    ∀ args, evalArgs (M.withDirty dirty) s args = evalArgs M s args
  | [] => rfl
  | arg :: args => by
    rw [evalArgs, evalArgs, evalExpr_withDirty s arg, evalArgs_withDirty s args]

end

theorem evalAddr_withDirty (s : GState) (e : IRExpr) :
    evalAddr (M.withDirty dirty) s e = evalAddr M s e := by
  rw [evalAddr, evalAddr, evalExpr_withDirty]

/-- **A statement that calls none of the helpers that differ** does as before. -/
theorem execStmt_withDirty {tyenv : IRTypeEnv} {st : IRStmt}
    (h : ∀ d, st = .dirty d → ∀ args s, dirty d.cee args s = M.dirty d.cee args s) (s : GState) :
    execStmt (M.withDirty dirty) tyenv s st = execStmt M tyenv s st := by
  have hsize : ∀ e, sizeOfExpr (M.withDirty dirty) tyenv e = sizeOfExpr M tyenv e := fun _ => rfl
  cases st with
  | noOp => rfl
  | iMark addr len delta => rfl
  | abiHint base len nia => rfl
  | mbe event => rfl
  | put offset data => simp only [execStmt, evalExpr_withDirty, hsize]
  | putI puti => simp only [execStmt, evalExpr_withDirty]
  | wrTmp tmp data => simp only [execStmt, evalExpr_withDirty]
  | store endness addr data =>
    have hprim : (M.withDirty dirty).prim = M.prim := rfl
    simp only [execStmt, evalExpr_withDirty, evalAddr_withDirty, hprim]
  | loadG lg => simp only [execStmt, evalExpr_withDirty, evalAddr_withDirty]
  | storeG sg => simp only [execStmt, evalExpr_withDirty, evalAddr_withDirty, hsize]
  | cas c => simp only [execStmt, execCas, evalExpr_withDirty, evalAddr_withDirty, hsize]
  | llsc endness result addr storedata =>
    have hsucceeds : (M.withDirty dirty).succeeds = M.succeeds := rfl
    simp only [execStmt, evalExpr_withDirty, evalAddr_withDirty, hsize, hsucceeds]
  | dirty d =>
    have hdirty : ∀ args s, (M.withDirty dirty).dirty d.cee args s = M.dirty d.cee args s := h d rfl
    simp only [execStmt, execDirty, evalExpr_withDirty, evalAddr_withDirty, evalArgs_withDirty,
      hdirty]
  | exit guard dst jk offsIP => simp only [execStmt, evalExpr_withDirty]

variable {bb : IRSB} (hbb : ∀ d, some (.dirty d) ∈ bb.stmts →
  ∀ args s, dirty d.cee args s = M.dirty d.cee args s)
include hbb

theorem execStmt_withDirty_of_mem {st : IRStmt} (hst : st ∈ bb.stmts.reduceOption) (s : GState) :
    execStmt (M.withDirty dirty) bb.tyenv s st = execStmt M bb.tyenv s st := by
  refine execStmt_withDirty (fun d hd => ?_) s
  subst hd
  exact hbb d (List.reduceOption_mem_iff.1 hst)

theorem runIRSB_withDirty (s : GState) : runIRSB (M.withDirty dirty) bb s = runIRSB M bb s := by
  have hexec : execIRSB (M.withDirty dirty) bb s = execIRSB M bb s := by
    rw [execIRSB, execIRSB, ← runWith_execStmt, ← runWith_execStmt]
    exact runWith_congr (fun st hst s => execStmt_withDirty_of_mem hbb hst s) s
  rw [runIRSB, runIRSB, hexec, leaveIRSB, leaveIRSB]
  simp only [evalExpr_withDirty]

theorem runHooked_withDirty (hook : Addr → Nat → Mem → Mem) (s : GState) :
    runHooked (M.withDirty dirty) hook bb s = runHooked M hook bb s := by
  have hstep : ∀ st ∈ bb.stmts.reduceOption, ∀ s,
      execHooked (M.withDirty dirty) bb.tyenv hook s st = execHooked M bb.tyenv hook s st := by
    intro st hst s
    have hsize : ∀ e, sizeOfExpr (M.withDirty dirty) bb.tyenv e = sizeOfExpr M bb.tyenv e :=
      fun _ => rfl
    simp only [execHooked, execStmt_withDirty_of_mem hbb hst, evalAddr_withDirty, hsize]
  rw [runHooked, runHooked, runWith_congr hstep, leaveIRSB, leaveIRSB]
  simp only [evalExpr_withDirty]

theorem executed_withDirty {α : Type} {f f' : GState → IRStmt → List α} {sts : List IRStmt}
    (hsts : ∀ st ∈ sts, st ∈ bb.stmts.reduceOption) (hf : ∀ s st, f s st = f' s st) (s : GState) :
    executed (M.withDirty dirty) bb.tyenv f sts s = executed M bb.tyenv f' sts s := by
  induction sts generalizing s with
  | nil => rfl
  | cons st sts ih =>
    obtain ⟨hhead, htail⟩ := List.forall_mem_cons.1 hsts
    simp only [executed, execStmt_withDirty_of_mem hbb hhead, hf, ih htail]

end WithDirty

end Memlog.Vex
