import Mathlib.Logic.Function.Basic
import Memlog.Vex.Syntax

/-!
# Running a superblock

The meaning of expressions and statements as the comments of `libvex_ir.h` give it. Values are bit
patterns, as numbers; operations cut their operands to their widths. What a superblock takes from
outside, the operations that are not named, the helper functions and the fate of a
store-conditional, is a parameter (`Machine`). Besides the new state, running a statement gives the
memory writes that it performs and the calls that it makes, in order.
-/

namespace Memlog.Vex

open Lib

/-! ## State -/

/-- Temporaries, guest state (by offset) and memory. -/
structure GState where
  temps : IRTemp → Nat
  guest : ByteMem 64
  mem : Mem

/-- What a superblock takes from outside. A dirty helper returns its result with the new guest state
and memory; `succeeds` says whether a store-conditional to an address finds its reservation. -/
structure Machine where
  prim : PrimopTable
  op : Nat → List Nat → Nat
  ccall : IRCallee → List Nat → Nat
  dirty : IRCallee → List Nat → GState → Nat × ByteMem 64 × Mem
  succeeds : GState → Addr → Bool

/-- The kind of statement that writes memory; `store` has the type of the data. -/
inductive WriteKind where
  | store (ty : IRType)
  | storeG
  | cas
  | llsc
  | dirty
deriving DecidableEq

inductive Event where
  | write (kind : WriteKind) (addr : Addr) (size : Nat)
  | call (cee : IRCallee) (args : List Nat)
deriving DecidableEq

/-- The target and kind of a taken exit. -/
abbrev Exit := IRConst × Nat

/-- What running statements gives: state, events in order, and the exit if one was taken. -/
structure Result where
  state : GState
  events : List Event
  exit : Option Exit

/-! ## Expressions -/

/-- Each bit of the mask stands for a byte of ones. -/
def expandMask (k mask : Nat) : Nat :=
  (List.range k).foldl (fun acc i => acc + mask / 2 ^ i % 2 * 255 * 256 ^ i) 0

def constVal : IRConst → Nat
  | .u1 b => b.toNat
  | .u8 v => v.toNat
  | .u16 v => v.toNat
  | .u32 v => v.toNat
  | .u64 v => v.toNat
  | .u128 v => v.toNat
  | .f32 bits | .f32i bits => bits.toNat
  | .f64 bits | .f64i bits => bits.toNat
  | .v128 mask => expandMask 16 mask.toNat
  | .v256 mask => expandMask 32 mask.toNat

/-- A 64-bit lane of a vector, counted from the least significant one. -/
def lane64 (i v : Nat) : Nat := v / 2 ^ (64 * i) % 2 ^ 64

def evalOp (M : Machine) : IROp → List Nat → Nat
  | .op1Uto64, [v] => v % 2
  | .op8Uto64, [v] => v % 2 ^ 8
  | .op16Uto64, [v] => v % 2 ^ 16
  | .op32Uto64, [v] => v % 2 ^ 32
  | .reinterpF32asI32, [v] => v % 2 ^ 32
  | .reinterpF64asI64, [v] => v % 2 ^ 64
  | .reinterpD64asI64, [v] => v % 2 ^ 64
  | .v128to64, [v] => lane64 0 v
  | .v128HIto64, [v] => lane64 1 v
  | .op128to64, [v] => lane64 0 v
  | .op128HIto64, [v] => lane64 1 v
  | .f128LOtoF64, [v] => lane64 0 v
  | .f128HItoF64, [v] => lane64 1 v
  | .d128LOtoD64, [v] => lane64 0 v
  | .d128HItoD64, [v] => lane64 1 v
  | .v256to64 lane, [v] => lane64 lane v
  | .add64, [v, w] => (v + w) % 2 ^ 64
  | .sub64, [v, w] => (v + (2 ^ 64 - w % 2 ^ 64)) % 2 ^ 64
  | .other k, vs => M.op k vs
  | _, _ => 0

def loadMem (m : ByteMem 64) (endness : IREndness) (a : Addr) (size : Nat) : Nat :=
  match endness with
  | .le => m.loadLE a size
  | .be => m.loadBE a size

def storeMem (m : ByteMem 64) (endness : IREndness) (a : Addr) (size v : Nat) : ByteMem 64 :=
  match endness with
  | .le => m.storeLE a size v
  | .be => m.storeBE a size v

/-- The offset of an element of a circular array of the guest state. -/
def regArrayOffset (descr : IRRegArray) (ix : Nat) (bias : Int) : Int :=
  descr.base + (ix + bias) % descr.nElems * sizeofIRType descr.elemTy

mutual

def evalExpr (M : Machine) (s : GState) : IRExpr → Nat
  | .get offset ty => s.guest.loadLE (BitVec.ofInt 64 offset) (sizeofIRType ty)
  | .getI descr ix bias =>
    s.guest.loadLE (BitVec.ofInt 64 (regArrayOffset descr (evalExpr M s ix) bias))
      (sizeofIRType descr.elemTy)
  | .rdTmp tmp => s.temps tmp
  | .qop op arg1 arg2 arg3 arg4 =>
    evalOp M op [evalExpr M s arg1, evalExpr M s arg2, evalExpr M s arg3, evalExpr M s arg4]
  | .triop op arg1 arg2 arg3 =>
    evalOp M op [evalExpr M s arg1, evalExpr M s arg2, evalExpr M s arg3]
  | .binop op arg1 arg2 => evalOp M op [evalExpr M s arg1, evalExpr M s arg2]
  | .unop op arg => evalOp M op [evalExpr M s arg]
  | .load endness ty addr =>
    loadMem s.mem endness (BitVec.ofNat 64 (evalExpr M s addr)) (sizeofIRType ty)
  | .const con => constVal con
  | .ccall cee _ args => M.ccall cee (evalArgs M s args)
  | .ite cond iftrue iffalse =>
    if evalExpr M s cond = 0 then evalExpr M s iffalse else evalExpr M s iftrue
  | .binder _ | .vecret | .gsptr => 0

def evalArgs (M : Machine) (s : GState) : List IRExpr → List Nat
  | [] => []
  | arg :: args => evalExpr M s arg :: evalArgs M s args

end

/-- The value of an expression that is an address. -/
def evalAddr (M : Machine) (s : GState) (e : IRExpr) : Addr := BitVec.ofNat 64 (evalExpr M s e)

/-! ## Statements -/

def GState.setTemp (s : GState) (tmp : IRTemp) (v : Nat) : GState :=
  { s with temps := Function.update s.temps tmp v }

def GState.setTemp? (s : GState) (tmp : Option IRTemp) (v : Nat) : GState :=
  tmp.elim s fun tmp => s.setTemp tmp v

def GState.put (s : GState) (offset : Int) (size v : Nat) : GState :=
  { s with guest := s.guest.storeLE (BitVec.ofInt 64 offset) size v }

/-- The number of bytes of an expression. -/
def sizeOfExpr (M : Machine) (tyenv : IRTypeEnv) (e : IRExpr) : Nat :=
  ((typeOfIRExpr M.prim tyenv e).map sizeofIRType).getD 0

/-- A write to memory, with its event. -/
def GState.write (s : GState) (kind : WriteKind) (endness : IREndness) (a : Addr) (size v : Nat) :
    Result :=
  ⟨{ s with mem := storeMem s.mem endness a size v }, [.write kind a size], none⟩

/-- The conversion of a guarded load. -/
def evalLoadGOp (cvt : IRLoadGOp) (v : Nat) : Nat :=
  match cvt with
  | .identV128 | .ident64 | .ident32 | .op16Uto32 | .op8Uto32 => v
  | .op16Sto32 => if v < 2 ^ 15 then v else v + (2 ^ 32 - 2 ^ 16)
  | .op8Sto32 => if v < 2 ^ 7 then v else v + (2 ^ 32 - 2 ^ 8)

/-- Compare-and-swap; the two elements of a double one are adjacent, the `Hi` one at the higher
address if little-endian and at the lower address if big-endian. -/
def execCas (M : Machine) (tyenv : IRTypeEnv) (s : GState) (c : IRCAS) : Result :=
  let size := sizeOfExpr M tyenv c.expdLo
  let a := evalAddr M s c.addr
  match c.oldHi, c.expdHi, c.dataHi with
  | some oldHi, some expdHi, some dataHi =>
    let old := loadMem s.mem c.endness a (2 * size)
    let s' := (s.setTemp oldHi (old / 256 ^ size)).setTemp c.oldLo (old % 256 ^ size)
    if old = evalExpr M s expdHi * 256 ^ size + evalExpr M s c.expdLo then
      s'.write .cas c.endness a (2 * size)
        (evalExpr M s dataHi * 256 ^ size + evalExpr M s c.dataLo)
    else ⟨s', [], none⟩
  | _, _, _ =>
    let old := loadMem s.mem c.endness a size
    let s' := s.setTemp c.oldLo old
    if old = evalExpr M s c.expdLo then
      s'.write .cas c.endness a size (evalExpr M s c.dataLo)
    else ⟨s', [], none⟩

/-- A dirty call. Its arguments are evaluated before the guard; a result that is not produced has
the bit pattern `0x55…55`. -/
def execDirty (M : Machine) (tyenv : IRTypeEnv) (s : GState) (d : IRDirty) : Result :=
  let args := evalArgs M s d.args
  if evalExpr M s d.guard = 0 then
    let size := ((d.tmp.bind (typeOfIRTemp tyenv)).map sizeofIRType).getD 0
    ⟨s.setTemp? d.tmp ((256 ^ size - 1) / 3), [], none⟩
  else
    let (ret, guest, mem) := M.dirty d.cee args s
    let writes := match d.mFx, d.mAddr with
      | .write, some mAddr | .modify, some mAddr =>
        [Event.write .dirty (evalAddr M s mAddr) d.mSize.toNat]
      | _, _ => []
    ⟨({ s with guest := guest, mem := mem } : GState).setTemp? d.tmp ret,
      .call d.cee args :: writes, none⟩

def execStmt (M : Machine) (tyenv : IRTypeEnv) (s : GState) : IRStmt → Result
  | .noOp | .iMark _ _ _ | .abiHint _ _ _ | .mbe _ => ⟨s, [], none⟩
  | .put offset data => ⟨s.put offset (sizeOfExpr M tyenv data) (evalExpr M s data), [], none⟩
  | .putI puti =>
    let offset := regArrayOffset puti.descr (evalExpr M s puti.ix) puti.bias
    ⟨s.put offset (sizeofIRType puti.descr.elemTy) (evalExpr M s puti.data), [], none⟩
  | .wrTmp tmp data => ⟨s.setTemp tmp (evalExpr M s data), [], none⟩
  | .store endness addr data =>
    match typeOfIRExpr M.prim tyenv data with
    | some ty =>
      s.write (.store ty) endness (evalAddr M s addr) (sizeofIRType ty) (evalExpr M s data)
    | none => ⟨s, [], none⟩
  | .loadG lg =>
    let size := sizeofIRType (typeOfIRLoadGOp lg.cvt).2
    let v :=
      if evalExpr M s lg.guard = 0 then evalExpr M s lg.alt
      else evalLoadGOp lg.cvt (loadMem s.mem lg.endness (evalAddr M s lg.addr) size)
    ⟨s.setTemp lg.dst v, [], none⟩
  | .storeG sg =>
    if evalExpr M s sg.guard = 0 then ⟨s, [], none⟩
    else
      s.write .storeG sg.endness (evalAddr M s sg.addr) (sizeOfExpr M tyenv sg.data)
        (evalExpr M s sg.data)
  | .cas c => execCas M tyenv s c
  | .llsc endness result addr storedata =>
    let a := evalAddr M s addr
    match storedata with
    | none =>
      let size := ((typeOfIRTemp tyenv result).map sizeofIRType).getD 0
      ⟨s.setTemp result (loadMem s.mem endness a size), [], none⟩
    | some data =>
      if M.succeeds s a then
        (s.setTemp result 1).write .llsc endness a (sizeOfExpr M tyenv data) (evalExpr M s data)
      else ⟨s.setTemp result 0, [], none⟩
  | .dirty d => execDirty M tyenv s d
  | .exit guard dst jk offsIP =>
    if evalExpr M s guard = 0 then ⟨s, [], none⟩
    else ⟨s.put offsIP (sizeofIRType (typeOfIRConst dst)) (constVal dst), [], some (dst, jk)⟩

/-- Statements run in order until an exit is taken. -/
def execStmts (M : Machine) (tyenv : IRTypeEnv) : List IRStmt → GState → Result
  | [], s => ⟨s, [], none⟩
  | st :: sts, s =>
    let r := execStmt M tyenv s st
    match r.exit with
    | some _ => r
    | none =>
      let r' := execStmts M tyenv sts r.state
      ⟨r'.state, r.events ++ r'.events, r'.exit⟩

/-- A run of the statements of a superblock. -/
def execIRSB (M : Machine) (bb : IRSB) (s : GState) : Result :=
  execStmts M bb.tyenv bb.stmts.reduceOption s

/-! ## Sequences of statements -/

section Sequences

variable {M : Machine} {tyenv : IRTypeEnv}

@[simp] theorem execStmts_nil (s : GState) : execStmts M tyenv [] s = ⟨s, [], none⟩ := rfl

theorem execStmts_cons_of_exit {st : IRStmt} {sts : List IRStmt} {s : GState} {x : Exit}
    (h : (execStmt M tyenv s st).exit = some x) :
    execStmts M tyenv (st :: sts) s = execStmt M tyenv s st := by
  rw [execStmts]
  simp only [h]

theorem execStmts_cons {st : IRStmt} {sts : List IRStmt} {s : GState}
    (h : (execStmt M tyenv s st).exit = none) :
    execStmts M tyenv (st :: sts) s =
      ⟨(execStmts M tyenv sts (execStmt M tyenv s st).state).state,
        (execStmt M tyenv s st).events ++
          (execStmts M tyenv sts (execStmt M tyenv s st).state).events,
        (execStmts M tyenv sts (execStmt M tyenv s st).state).exit⟩ := by
  rw [execStmts]
  simp only [h]

theorem execStmts_singleton (M : Machine) (tyenv : IRTypeEnv) (st : IRStmt) (s : GState) :
    execStmts M tyenv [st] s = execStmt M tyenv s st := by
  cases hx : (execStmt M tyenv s st).exit with
  | some x => exact execStmts_cons_of_exit hx
  | none => rw [execStmts_cons hx, execStmts_nil, List.append_nil, ← hx]

/-- One statement, then the others. -/
theorem execStmts_step {st : IRStmt} {sts : List IRStmt} {s s' s'' : GState} {es es' : List Event}
    {x : Option Exit} (h : execStmt M tyenv s st = ⟨s', es, none⟩)
    (h' : execStmts M tyenv sts s' = ⟨s'', es', x⟩) :
    execStmts M tyenv (st :: sts) s = ⟨s'', es ++ es', x⟩ := by
  rw [execStmts_cons (by rw [h]), h, h']

/-- A sequence after one that takes no exit. -/
theorem execStmts_append {sts sts' : List IRStmt} {s : GState}
    (h : (execStmts M tyenv sts s).exit = none) :
    execStmts M tyenv (sts ++ sts') s =
      ⟨(execStmts M tyenv sts' (execStmts M tyenv sts s).state).state,
        (execStmts M tyenv sts s).events ++
          (execStmts M tyenv sts' (execStmts M tyenv sts s).state).events,
        (execStmts M tyenv sts' (execStmts M tyenv sts s).state).exit⟩ := by
  induction sts generalizing s with
  | nil => rfl
  | cons st sts ih =>
    cases hst : (execStmt M tyenv s st).exit with
    | some x =>
      rw [execStmts_cons_of_exit hst, hst] at h
      cases h
    | none =>
      rw [execStmts_cons hst] at h
      rw [List.cons_append, execStmts_cons hst, ih h, execStmts_cons hst]
      simp only [List.append_assoc]

/-- A sequence that takes an exit hides what follows it. -/
theorem execStmts_append_of_exit {sts sts' : List IRStmt} {s : GState} {x : Exit}
    (h : (execStmts M tyenv sts s).exit = some x) :
    execStmts M tyenv (sts ++ sts') s = execStmts M tyenv sts s := by
  induction sts generalizing s with
  | nil => cases h
  | cons st sts ih =>
    cases hst : (execStmt M tyenv s st).exit with
    | some y => rw [List.cons_append, execStmts_cons_of_exit hst, execStmts_cons_of_exit hst]
    | none =>
      rw [execStmts_cons hst] at h
      rw [List.cons_append, execStmts_cons hst, execStmts_cons hst, ih h]

end Sequences

end Memlog.Vex
