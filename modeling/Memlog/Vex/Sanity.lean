import Mathlib.Logic.Function.Basic
import Memlog.Vex.Syntax

/-!
# The sanity check of VEX

`sanityCheckIRSB` with the functions below it: flatness (`isFlatIRStmt`), single assignment before
use (`useBeforeDefStmt`, `assignedOnceStmt`) and typing (`tcStmt`). A check that fails in the source
aborts the program that is traced; here it is `false`, or `none` where the source goes on with a
changed `def_counts`.
-/

namespace Memlog.Vex

/-! ## Flatness -/

def isIRAtomOrVECRETorGSPTR (e : IRExpr) : Bool := isIRAtom e || isIRExprVECRETorGSPTR e

/-- Flatness of the right-hand side of an assignment: its operands are atoms. -/
def isFlatRhs : IRExpr → Bool
  | .binder _ => true
  | .get _ _ => true
  | .getI _ ix _ => isIRAtom ix
  | .rdTmp _ => true
  | .qop _ arg1 arg2 arg3 arg4 => isIRAtom arg1 && isIRAtom arg2 && isIRAtom arg3 && isIRAtom arg4
  | .triop _ arg1 arg2 arg3 => isIRAtom arg1 && isIRAtom arg2 && isIRAtom arg3
  | .binop _ arg1 arg2 => isIRAtom arg1 && isIRAtom arg2
  | .unop _ arg => isIRAtom arg
  | .load _ _ addr => isIRAtom addr
  | .const _ => true
  | .ccall _ _ args => args.all isIRAtom
  | .ite cond iftrue iffalse => isIRAtom cond && isIRAtom iftrue && isIRAtom iffalse
  | .vecret | .gsptr => false

def isFlatIRStmt : IRStmt → Bool
  | .abiHint base _ nia => isIRAtom base && isIRAtom nia
  | .put _ data => isIRAtom data
  | .putI puti => isIRAtom puti.ix && isIRAtom puti.data
  | .wrTmp _ data => isFlatRhs data
  | .store _ addr data => isIRAtom addr && isIRAtom data
  | .storeG sg => isIRAtom sg.addr && isIRAtom sg.data && isIRAtom sg.guard
  | .loadG lg => isIRAtom lg.addr && isIRAtom lg.alt && isIRAtom lg.guard
  | .cas c =>
    isIRAtom c.addr && c.expdHi.all isIRAtom && isIRAtom c.expdLo && c.dataHi.all isIRAtom &&
      isIRAtom c.dataLo
  | .llsc _ _ addr storedata => isIRAtom addr && storedata.all isIRAtom
  | .dirty d =>
    isIRAtom d.guard && d.args.all isIRAtomOrVECRETorGSPTR && d.mAddr.all isIRAtom
  | .noOp | .iMark _ _ _ | .mbe _ => true
  | .exit guard _ _ _ => isIRAtom guard

/-! ## Single assignment before use -/

/-- `def_counts`. -/
abbrev DefCounts := IRTemp → Nat

def useBeforeDefTemp (tyenv : IRTypeEnv) (defs : DefCounts) (tmp : IRTemp) : Bool :=
  decide (tmp < tyenv.length) && decide (1 ≤ defs tmp)

mutual

def useBeforeDefExpr (tyenv : IRTypeEnv) (defs : DefCounts) : IRExpr → Bool
  | .get _ _ => true
  | .getI _ ix _ => useBeforeDefExpr tyenv defs ix
  | .rdTmp tmp => useBeforeDefTemp tyenv defs tmp
  | .qop _ arg1 arg2 arg3 arg4 =>
    useBeforeDefExpr tyenv defs arg1 && useBeforeDefExpr tyenv defs arg2 &&
      useBeforeDefExpr tyenv defs arg3 && useBeforeDefExpr tyenv defs arg4
  | .triop _ arg1 arg2 arg3 =>
    useBeforeDefExpr tyenv defs arg1 && useBeforeDefExpr tyenv defs arg2 &&
      useBeforeDefExpr tyenv defs arg3
  | .binop _ arg1 arg2 => useBeforeDefExpr tyenv defs arg1 && useBeforeDefExpr tyenv defs arg2
  | .unop _ arg => useBeforeDefExpr tyenv defs arg
  | .load _ _ addr => useBeforeDefExpr tyenv defs addr
  | .const _ => true
  | .ccall _ _ args => useBeforeDefArgs tyenv defs args
  | .ite cond iftrue iffalse =>
    useBeforeDefExpr tyenv defs cond && useBeforeDefExpr tyenv defs iftrue &&
      useBeforeDefExpr tyenv defs iffalse
  | .binder _ | .vecret | .gsptr => false

/-- The arguments of a clean call. -/
def useBeforeDefArgs (tyenv : IRTypeEnv) (defs : DefCounts) : List IRExpr → Bool
  | [] => true
  | arg :: args =>
    !isIRExprVECRETorGSPTR arg && useBeforeDefExpr tyenv defs arg &&
      useBeforeDefArgs tyenv defs args

end

def useBeforeDefStmt (tyenv : IRTypeEnv) (defs : DefCounts) : IRStmt → Bool
  | .iMark _ _ _ => true
  | .abiHint base _ nia => useBeforeDefExpr tyenv defs base && useBeforeDefExpr tyenv defs nia
  | .put _ data => useBeforeDefExpr tyenv defs data
  | .putI puti => useBeforeDefExpr tyenv defs puti.ix && useBeforeDefExpr tyenv defs puti.data
  | .wrTmp _ data => useBeforeDefExpr tyenv defs data
  | .store _ addr data => useBeforeDefExpr tyenv defs addr && useBeforeDefExpr tyenv defs data
  | .storeG sg =>
    useBeforeDefExpr tyenv defs sg.addr && useBeforeDefExpr tyenv defs sg.data &&
      useBeforeDefExpr tyenv defs sg.guard
  | .loadG lg =>
    useBeforeDefExpr tyenv defs lg.addr && useBeforeDefExpr tyenv defs lg.alt &&
      useBeforeDefExpr tyenv defs lg.guard
  | .cas c =>
    useBeforeDefExpr tyenv defs c.addr && c.expdHi.all (useBeforeDefExpr tyenv defs) &&
      useBeforeDefExpr tyenv defs c.expdLo && c.dataHi.all (useBeforeDefExpr tyenv defs) &&
      useBeforeDefExpr tyenv defs c.dataLo
  | .llsc _ _ addr storedata =>
    useBeforeDefExpr tyenv defs addr && storedata.all (useBeforeDefExpr tyenv defs)
  | .dirty d =>
    (d.args.all fun arg => isIRExprVECRETorGSPTR arg || useBeforeDefExpr tyenv defs arg) &&
      (decide (d.mFx = .none) || d.mAddr.any (useBeforeDefExpr tyenv defs))
  | .noOp | .mbe _ => true
  | .exit guard _ _ _ => useBeforeDefExpr tyenv defs guard

def assignedOnceTemp (tyenv : IRTypeEnv) (defs : DefCounts) (tmp : IRTemp) : Option DefCounts :=
  if tyenv.length ≤ tmp then none
  else if 1 < defs tmp + 1 then none
  else some (Function.update defs tmp (defs tmp + 1))

/-- The temporaries that a statement assigns, in the order in which they are checked. -/
def assignedTemps : IRStmt → List IRTemp
  | .wrTmp tmp _ => [tmp]
  | .loadG lg => [lg.dst]
  | .dirty d => d.tmp.toList
  | .cas c => c.oldHi.toList ++ [c.oldLo]
  | .llsc _ result _ _ => [result]
  | _ => []

def assignedOnceStmt (tyenv : IRTypeEnv) (defs : DefCounts) (st : IRStmt) : Option DefCounts :=
  (assignedTemps st).foldlM (assignedOnceTemp tyenv) defs

/-! ## Typing -/

section Types

variable (prim : PrimopTable) (tyenv : IRTypeEnv)

def saneIRRegArray (arr : IRRegArray) : Bool :=
  decide (0 ≤ arr.base) && decide (arr.base ≤ 10000) && decide (arr.elemTy ≠ .i1) &&
    decide (0 < arr.nElems) && decide (arr.nElems ≤ 500)

def saneIRCallee (cee : IRCallee) : Bool :=
  decide (cee.addr ≠ 0) && decide (0 ≤ cee.regparms) && decide (cee.regparms ≤ 3)

/-- The operation takes arguments of these types. -/
def opTakes (op : IROp) (args : List IRExpr) : Bool :=
  decide (args.map (typeOfIRExpr prim tyenv) = (typeOfPrimop prim op).1.map some)

mutual

def tcExpr : IRExpr → Bool
  | .get _ _ => true
  | .rdTmp _ => true
  | .getI descr ix _ =>
    tcExpr ix && decide (typeOfIRExpr prim tyenv ix = some .i32) && saneIRRegArray descr
  | .qop op arg1 arg2 arg3 arg4 =>
    tcExpr arg1 && tcExpr arg2 && tcExpr arg3 && tcExpr arg4 &&
      opTakes prim tyenv op [arg1, arg2, arg3, arg4]
  | .triop op arg1 arg2 arg3 =>
    tcExpr arg1 && tcExpr arg2 && tcExpr arg3 && opTakes prim tyenv op [arg1, arg2, arg3]
  | .binop op arg1 arg2 => tcExpr arg1 && tcExpr arg2 && opTakes prim tyenv op [arg1, arg2]
  | .unop op arg => tcExpr arg && opTakes prim tyenv op [arg]
  | .load _ _ addr => tcExpr addr && decide (typeOfIRExpr prim tyenv addr = some .i64)
  | .ccall cee retty args =>
    saneIRCallee cee && decide (cee.regparms ≤ args.length) && decide (args.length ≤ 32) &&
      tcArgs args && decide (retty ≠ .i1)
  | .const _ => true
  | .ite cond iftrue iffalse =>
    tcExpr cond && tcExpr iftrue && tcExpr iffalse &&
      decide (typeOfIRExpr prim tyenv cond = some .i1) &&
      decide (typeOfIRExpr prim tyenv iftrue = typeOfIRExpr prim tyenv iffalse)
  | .binder _ | .vecret | .gsptr => false

/-- The arguments of a clean call. -/
def tcArgs : List IRExpr → Bool
  | [] => true
  | arg :: args =>
    !isIRExprVECRETorGSPTR arg && tcExpr arg && decide (typeOfIRExpr prim tyenv arg ≠ some .i1) &&
      tcArgs args

end

/-- The checks on the components of a compare-and-swap. -/
def tcCas (c : IRCAS) : Bool :=
  let tyLo := typeOfIRExpr prim tyenv c.expdLo
  let tyHi := c.expdHi.bind (typeOfIRExpr prim tyenv)
  decide (c.oldHi.isSome = c.expdHi.isSome) && decide (c.oldHi.isSome = c.dataHi.isSome) &&
    tcExpr prim tyenv c.addr && decide (typeOfIRExpr prim tyenv c.addr = some .i64) &&
    decide (tyLo = typeOfIRExpr prim tyenv c.dataLo) &&
    decide (tyLo = typeOfIRTemp tyenv c.oldLo) &&
    decide (tyLo ∈ [some .i8, some .i16, some .i32, some .i64]) &&
    (c.oldHi.all fun oldHi =>
      decide (tyHi = c.dataHi.bind (typeOfIRExpr prim tyenv)) &&
        decide (tyHi = typeOfIRTemp tyenv oldHi) &&
        decide (typeOfIRTemp tyenv oldHi = typeOfIRTemp tyenv c.oldLo))

def saneFxState (fx : FxState) : Bool :=
  decide (fx.fx ≠ .none) && decide (0 < fx.size) &&
    if fx.nRepeats = 0 then decide (fx.repeatLen = 0)
    else decide (fx.size < fx.repeatLen) && decide (fx.repeatLen % fx.size = 0)

/-- The loop over the arguments of a dirty call, which returns the number of `GSPTR` arguments. The
function returns a vector (`wide`) if and only if a `VECRET` argument has been seen, at every
argument. -/
def tcDirtyArgs (wide : Bool) : Nat → Nat → List IRExpr → Option Nat
  | _, nGSPTRs, [] => some nGSPTRs
  | nVECRETs, nGSPTRs, arg :: args =>
    let nVECRETs := if arg matches .vecret then nVECRETs + 1 else nVECRETs
    let nGSPTRs := if arg matches .gsptr then nGSPTRs + 1 else nGSPTRs
    if isIRExprVECRETorGSPTR arg = false ∧ typeOfIRExpr prim tyenv arg = some .i1 then none
    else if 1 < nGSPTRs then none
    else if nVECRETs = (if wide then 1 else 0) then tcDirtyArgs wide nVECRETs nGSPTRs args
    else none

def tcDirty (d : IRDirty) : Bool :=
  let retTy := d.tmp.bind (typeOfIRTemp tyenv)
  saneIRCallee d.cee && decide (d.cee.regparms ≤ d.args.length) &&
    (if d.mFx = .none then d.mAddr.isNone && decide (d.mSize = 0)
      else d.mAddr.isSome && decide (d.mSize ≠ 0)) &&
    decide (d.fxState.length ≤ 7) && d.fxState.all saneFxState &&
    tcExpr prim tyenv d.guard && decide (typeOfIRExpr prim tyenv d.guard = some .i1) &&
    decide (retTy ≠ some .i1) && decide (d.args.length ≤ 32) &&
    (tcDirtyArgs prim tyenv (decide (retTy = some .v128 ∨ retTy = some .v256)) 0 0 d.args).any
      fun nGSPTRs => !d.fxState.isEmpty || decide (nGSPTRs = 0)

def tcStmt : IRStmt → Bool
  | .iMark _ len delta => decide (len ≤ 24) && decide (delta ≤ 1)
  | .abiHint base _ nia =>
    decide (typeOfIRExpr prim tyenv base = some .i64) &&
      decide (typeOfIRExpr prim tyenv nia = some .i64)
  | .put _ data => tcExpr prim tyenv data && decide (typeOfIRExpr prim tyenv data ≠ some .i1)
  | .putI puti =>
    tcExpr prim tyenv puti.data && tcExpr prim tyenv puti.ix &&
      decide (typeOfIRExpr prim tyenv puti.data ≠ some .i1) &&
      decide (typeOfIRExpr prim tyenv puti.data = some puti.descr.elemTy) &&
      decide (typeOfIRExpr prim tyenv puti.ix = some .i32) && saneIRRegArray puti.descr
  | .wrTmp tmp data =>
    tcExpr prim tyenv data && decide (typeOfIRTemp tyenv tmp = typeOfIRExpr prim tyenv data)
  | .store _ addr data =>
    tcExpr prim tyenv addr && tcExpr prim tyenv data &&
      decide (typeOfIRExpr prim tyenv addr = some .i64) &&
      decide (typeOfIRExpr prim tyenv data ≠ some .i1)
  | .storeG sg =>
    tcExpr prim tyenv sg.addr && tcExpr prim tyenv sg.data && tcExpr prim tyenv sg.guard &&
      decide (typeOfIRExpr prim tyenv sg.addr = some .i64) &&
      decide (typeOfIRExpr prim tyenv sg.data ≠ some .i1) &&
      decide (typeOfIRExpr prim tyenv sg.guard = some .i1)
  | .loadG lg =>
    tcExpr prim tyenv lg.addr && tcExpr prim tyenv lg.alt && tcExpr prim tyenv lg.guard &&
      decide (typeOfIRExpr prim tyenv lg.guard = some .i1) &&
      decide (typeOfIRExpr prim tyenv lg.addr = some .i64) &&
      decide (typeOfIRExpr prim tyenv lg.alt = typeOfIRTemp tyenv lg.dst) &&
      decide (some (typeOfIRLoadGOp lg.cvt).1 = typeOfIRTemp tyenv lg.dst)
  | .cas c => tcCas prim tyenv c
  | .llsc _ result addr storedata =>
    let transfer := [some .i128, some .i64, some .i32, some .i16, some .i8]
    decide (typeOfIRExpr prim tyenv addr = some .i64) &&
      match storedata with
      | none => decide (typeOfIRTemp tyenv result ∈ transfer)
      | some data =>
        decide (typeOfIRTemp tyenv result = some .i1) &&
          decide (typeOfIRExpr prim tyenv data ∈ transfer)
  | .dirty d => tcDirty prim tyenv d
  | .noOp => true
  | .mbe _ => true
  | .exit guard dst _ offsIP =>
    tcExpr prim tyenv guard && decide (typeOfIRExpr prim tyenv guard = some .i1) &&
      decide (typeOfIRConst dst = .i64) && decide (16 ≤ offsIP)

end Types

/-! ## Superblocks -/

/-- The body of the loop that counts definitions. -/
def checkDefsStmt (tyenv : IRTypeEnv) (defs : DefCounts) (st : IRStmt) : Option DefCounts :=
  if useBeforeDefStmt tyenv defs st then assignedOnceStmt tyenv defs st else none

def checkDefs (tyenv : IRTypeEnv) (defs : DefCounts) (sts : List IRStmt) : Option DefCounts :=
  sts.foldlM (checkDefsStmt tyenv) defs

/-- `sanityCheckIRSB` for a 64-bit guest, with flatness required. -/
def sanityCheckIRSB (prim : PrimopTable) (bb : IRSB) : Bool :=
  bb.stmts.all Option.isSome && (bb.stmts.reduceOption.all isFlatIRStmt) && isIRAtom bb.next &&
    (checkDefs bb.tyenv (fun _ => 0) bb.stmts.reduceOption).isSome &&
    (bb.stmts.reduceOption.all (tcStmt prim bb.tyenv)) &&
    decide (typeOfIRExpr prim bb.tyenv bb.next = some .i64) && decide (16 ≤ bb.offsIP)

end Memlog.Vex
