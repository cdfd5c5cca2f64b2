import Memlog.Tool.Basic

/-!
# The intermediate representation that memlog instruments

The part of VEX's IR (`libvex_ir.h`) that a tool sees: types, constants, expressions, statements and
superblocks, with the typing functions of `ir_defs.c`. `Ity_INVALID` is not a type here, so
`typeOfIRExpr` has no result where the source panics. Of the primitive operations, those that memlog
builds are named and typed as in `typeOfPrimop`; all others are `other k`, typed by a table that is
a parameter.
-/

namespace Memlog.Vex

/-! ## Types and constants -/

/-- `IRType`. -/
inductive IRType where
  | i1 | i8 | i16 | i32 | i64 | i128
  | f16 | f32 | f64 | f128
  | d32 | d64 | d128
  | v128 | v256
deriving DecidableEq

/-- The number of bytes of a value; the source panics for `Ity_I1`, which cannot be stored. -/
def sizeofIRType : IRType → Nat
  | .i1 => 0
  | .i8 => 1
  | .i16 | .f16 => 2
  | .i32 | .f32 | .d32 => 4
  | .i64 | .f64 | .d64 => 8
  | .i128 | .f128 | .d128 | .v128 => 16
  | .v256 => 32

/-- `IREndness`. -/
inductive IREndness where
  | le
  | be
deriving DecidableEq

/-- `IRConst`; floating-point constants are given by their bits. -/
inductive IRConst where
  | u1 (b : Bool)
  | u8 (v : BitVec 8)
  | u16 (v : BitVec 16)
  | u32 (v : BitVec 32)
  | u64 (v : BitVec 64)
  | u128 (v : BitVec 128)
  | f32 (bits : BitVec 32)
  | f32i (bits : BitVec 32)
  | f64 (bits : BitVec 64)
  | f64i (bits : BitVec 64)
  | v128 (mask : BitVec 16)
  | v256 (mask : BitVec 32)
deriving DecidableEq

def typeOfIRConst : IRConst → IRType
  | .u1 _ => .i1
  | .u8 _ => .i8
  | .u16 _ => .i16
  | .u32 _ => .i32
  | .u64 _ => .i64
  | .u128 _ => .i128
  | .f32 _ | .f32i _ => .f32
  | .f64 _ | .f64i _ => .f64
  | .v128 _ => .v128
  | .v256 _ => .v256

/-! ## Primitive operations -/

/-- `IROp`. -/
inductive IROp where
  | op1Uto64
  | op8Uto64
  | op16Uto64
  | op32Uto64
  | reinterpF32asI32
  | reinterpF64asI64
  | reinterpD64asI64
  | v128to64
  | v128HIto64
  | op128to64
  | op128HIto64
  | f128LOtoF64
  | f128HItoF64
  | d128LOtoD64
  | d128HItoD64
  | v256to64 (lane : Fin 4)
  | add64
  | sub64
  | other (k : Nat)
deriving DecidableEq

/-- The argument types and the result type of an operation. -/
abbrev PrimopType := List IRType × IRType

/-- The types of the operations that are not named. -/
abbrev PrimopTable := Nat → PrimopType

def typeOfPrimop (prim : PrimopTable) : IROp → PrimopType
  | .op1Uto64 => ([.i1], .i64)
  | .op8Uto64 => ([.i8], .i64)
  | .op16Uto64 => ([.i16], .i64)
  | .op32Uto64 => ([.i32], .i64)
  | .reinterpF32asI32 => ([.f32], .i32)
  | .reinterpF64asI64 => ([.f64], .i64)
  | .reinterpD64asI64 => ([.d64], .i64)
  | .v128to64 | .v128HIto64 => ([.v128], .i64)
  | .op128to64 | .op128HIto64 => ([.i128], .i64)
  | .f128LOtoF64 | .f128HItoF64 => ([.f128], .f64)
  | .d128LOtoD64 | .d128HItoD64 => ([.d128], .d64)
  | .v256to64 _ => ([.v256], .i64)
  | .add64 | .sub64 => ([.i64, .i64], .i64)
  | .other k => prim k

/-! ## Expressions -/

/-- `IRTemp`. -/
abbrev IRTemp := Nat

/-- `IRTypeEnv`: the types of the temporaries `0, 1, …`. -/
abbrev IRTypeEnv := List IRType

/-- `IRRegArray`: a part of the guest state that is indexed as a circular array. -/
structure IRRegArray where
  base : Int
  elemTy : IRType
  nElems : Int
deriving DecidableEq

/-- `IRCallee`. -/
structure IRCallee where
  regparms : Int
  name : String
  addr : Nat
deriving DecidableEq

/-- `IRExpr`. -/
inductive IRExpr where
  | binder (n : Int)
  | get (offset : Int) (ty : IRType)
  | getI (descr : IRRegArray) (ix : IRExpr) (bias : Int)
  | rdTmp (tmp : IRTemp)
  | qop (op : IROp) (arg1 arg2 arg3 arg4 : IRExpr)
  | triop (op : IROp) (arg1 arg2 arg3 : IRExpr)
  | binop (op : IROp) (arg1 arg2 : IRExpr)
  | unop (op : IROp) (arg : IRExpr)
  | load (endness : IREndness) (ty : IRType) (addr : IRExpr)
  | const (con : IRConst)
  | ccall (cee : IRCallee) (retty : IRType) (args : List IRExpr)
  | ite (cond iftrue iffalse : IRExpr)
  | vecret
  | gsptr

def typeOfIRTemp (tyenv : IRTypeEnv) (tmp : IRTemp) : Option IRType := tyenv[tmp]?

/-- `none` where the source panics. -/
def typeOfIRExpr (prim : PrimopTable) (tyenv : IRTypeEnv) : IRExpr → Option IRType
  | .load _ ty _ => some ty
  | .get _ ty => some ty
  | .getI descr _ _ => some descr.elemTy
  | .rdTmp tmp => typeOfIRTemp tyenv tmp
  | .const con => some (typeOfIRConst con)
  | .qop op _ _ _ _ => some (typeOfPrimop prim op).2
  | .triop op _ _ _ => some (typeOfPrimop prim op).2
  | .binop op _ _ => some (typeOfPrimop prim op).2
  | .unop op _ => some (typeOfPrimop prim op).2
  | .ccall _ retty _ => some retty
  | .ite _ _ iffalse => typeOfIRExpr prim tyenv iffalse
  | .binder _ | .vecret | .gsptr => none

def isIRAtom : IRExpr → Bool
  | .rdTmp _ | .const _ => true
  | _ => false

def isIRExprVECRETorGSPTR : IRExpr → Bool
  | .vecret | .gsptr => true
  | _ => false

/-! ## Statements -/

/-- `IREffect`. -/
inductive IREffect where
  | none
  | read
  | write
  | modify
deriving DecidableEq

/-- A piece of the guest state that a dirty call touches. -/
structure FxState where
  fx : IREffect
  offset : Nat
  size : Nat
  nRepeats : Nat
  repeatLen : Nat
deriving DecidableEq

/-- `IRDirty`; `tmp` is `none` for `IRTemp_INVALID` and `mAddr` is `none` for `NULL`. -/
structure IRDirty where
  cee : IRCallee
  guard : IRExpr
  args : List IRExpr
  tmp : Option IRTemp
  mFx : IREffect
  mAddr : Option IRExpr
  mSize : Int
  fxState : List FxState

/-- `IRCAS`; the `Hi` components are absent in a single-element operation. -/
structure IRCAS where
  oldHi : Option IRTemp
  oldLo : IRTemp
  endness : IREndness
  addr : IRExpr
  expdHi : Option IRExpr
  expdLo : IRExpr
  dataHi : Option IRExpr
  dataLo : IRExpr

/-- `IRPutI`. -/
structure IRPutI where
  descr : IRRegArray
  ix : IRExpr
  bias : Int
  data : IRExpr

/-- `IRStoreG`. -/
structure IRStoreG where
  endness : IREndness
  addr : IRExpr
  data : IRExpr
  guard : IRExpr

/-- `IRLoadGOp`. -/
inductive IRLoadGOp where
  | identV128 | ident64 | ident32
  | op16Uto32 | op16Sto32 | op8Uto32 | op8Sto32
deriving DecidableEq

/-- The result type and the argument type of a conversion. -/
def typeOfIRLoadGOp : IRLoadGOp → IRType × IRType
  | .identV128 => (.v128, .v128)
  | .ident64 => (.i64, .i64)
  | .ident32 => (.i32, .i32)
  | .op16Uto32 | .op16Sto32 => (.i32, .i16)
  | .op8Uto32 | .op8Sto32 => (.i32, .i8)

/-- `IRLoadG`. -/
structure IRLoadG where
  endness : IREndness
  cvt : IRLoadGOp
  dst : IRTemp
  addr : IRExpr
  alt : IRExpr
  guard : IRExpr

/-- `IRMBusEvent`. -/
inductive IRMBusEvent where
  | fence
  | cancelReservation
deriving DecidableEq

/-- `IRStmt`. -/
inductive IRStmt where
  | noOp
  | iMark (addr : Addr) (len : Nat) (delta : Nat)
  | abiHint (base : IRExpr) (len : Int) (nia : IRExpr)
  | put (offset : Int) (data : IRExpr)
  | putI (details : IRPutI)
  | wrTmp (tmp : IRTemp) (data : IRExpr)
  | store (endness : IREndness) (addr data : IRExpr)
  | loadG (details : IRLoadG)
  | storeG (details : IRStoreG)
  | cas (details : IRCAS)
  | llsc (endness : IREndness) (result : IRTemp) (addr : IRExpr) (storedata : Option IRExpr)
  | dirty (details : IRDirty)
  | mbe (event : IRMBusEvent)
  | exit (guard : IRExpr) (dst : IRConst) (jk : Nat) (offsIP : Int)

/-- `IRSB`; a statement is `none` for a `NULL` in the array. -/
structure IRSB where
  tyenv : IRTypeEnv
  stmts : List (Option IRStmt)
  next : IRExpr
  jumpkind : Nat
  offsIP : Int

/-! ## Building blocks -/

/-- The new temporary and the environment with it. -/
def newIRTemp (tyenv : IRTypeEnv) (ty : IRType) : IRTemp × IRTypeEnv :=
  (tyenv.length, tyenv ++ [ty])

def deepCopyIRSBExceptStmts (bb : IRSB) : IRSB := { bb with stmts := [] }

def addStmtToIRSB (bb : IRSB) (st : IRStmt) : IRSB := { bb with stmts := bb.stmts ++ [some st] }

/-- `unsafeIRDirty_0_N`: a call without result and with a constant guard, marked as touching neither
memory nor guest state. -/
def unsafeIRDirty0N (regparms : Int) (name : String) (addr : Nat) (args : List IRExpr) :
    IRDirty where
  cee := ⟨regparms, name, addr⟩
  guard := .const (.u1 true)
  args := args
  tmp := none
  mFx := .none
  mAddr := none
  mSize := 0
  fxState := []

end Memlog.Vex
