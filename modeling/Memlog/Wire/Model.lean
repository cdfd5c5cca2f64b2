import Memlog.Vex.Syntax

/-!
# Instrumentation: `wire_memlog` and `wire_mx`

Both passes copy the superblock and put calls of a helper next to every `Ist_Store`: `wire_memlog`
calls `log_store` before the store, once for each 64-bit piece of the data; `wire_mx` calls
`mx_after_store` after it. All other statements are copied.
-/

namespace Memlog.Wire

open Vex

/-- The entry points of the helpers, as `VG_(fnptr_to_fnentry)` gives them. -/
structure Helpers where
  logStore : Nat
  mxAfterStore : Nat
  logStore_ne : logStore ≠ 0
  mxAfterStore_ne : mxAfterStore ≠ 0

variable (fn : Helpers) (prim : PrimopTable)

/-- The call of `log_store`. -/
def logStoreDirty (addrTmp dataTmp : IRTemp) : IRDirty :=
  unsafeIRDirty0N 2 "log_store" fn.logStore [.rdTmp addrTmp, .rdTmp dataTmp]

def wireLogStore (out : IRSB) (addrTmp : IRTemp) (addr : IRExpr) (dataTmp : IRTemp)
    (dataWiden : IRExpr) : IRSB :=
  let out := addStmtToIRSB out (.wrTmp addrTmp addr)
  let out := addStmtToIRSB out (.wrTmp dataTmp dataWiden)
  addStmtToIRSB out (.dirty (logStoreDirty fn addrTmp dataTmp))

/-- The pieces that the `switch` over the data type logs: the offset from the address of the store,
and the piece as a 64-bit expression. -/
def storePieces (data : IRExpr) : IRType → List (Nat × IRExpr)
  | .i1 => [(0, .unop .op1Uto64 data)]
  | .i8 => [(0, .unop .op8Uto64 data)]
  | .i16 => [(0, .unop .op16Uto64 data)]
  | .i32 => [(0, .unop .op32Uto64 data)]
  | .i64 => [(0, data)]
  | .f32 => [(0, .unop .op32Uto64 (.unop .reinterpF32asI32 data))]
  | .f64 => [(0, .unop .reinterpF64asI64 data)]
  | .v128 => [(0, .unop .v128HIto64 data), (8, .unop .v128to64 data)]
  | .i128 => [(0, .unop .op128HIto64 data), (8, .unop .op128to64 data)]
  | .f128 => [(0, .unop .reinterpF64asI64 (.unop .f128HItoF64 data)),
    (8, .unop .reinterpF64asI64 (.unop .f128LOtoF64 data))]
  | .d128 => [(0, .unop .reinterpD64asI64 (.unop .d128HItoD64 data)),
    (8, .unop .reinterpD64asI64 (.unop .d128LOtoD64 data))]
  -- not fully supported in the source
  | .f16 => []
  | .v256 => [(0, .unop (.v256to64 3) data), (8, .unop (.v256to64 2) data),
    (16, .unop (.v256to64 1) data), (24, .unop (.v256to64 0) data)]
  -- to be added in the source
  | .d32 | .d64 => []

/-- The address of a piece. -/
def pieceAddr (addr : IRExpr) (offset : Nat) : IRExpr :=
  if offset = 0 then addr else .binop .add64 addr (.const (.u64 (BitVec.ofNat 64 offset)))

/-- The calls for the pieces of a store. The temporaries of the `i`-th piece are `addr_tmp<i>` and
`data_tmp<i>`, which are allocated in pairs. -/
def wirePieces (addr : IRExpr) : IRSB → IRTemp → List (Nat × IRExpr) → IRSB
  | out, _, [] => out
  | out, tmp, (offset, piece) :: pieces =>
    wirePieces addr (wireLogStore fn out tmp (pieceAddr addr offset) (tmp + 1) piece) (tmp + 2)
      pieces

/-- Allocate `n` temporaries of type `Ity_I64`. -/
def newIRTemps (out : IRSB) : Nat → IRSB
  | 0 => out
  | n + 1 => newIRTemps { out with tyenv := (newIRTemp out.tyenv .i64).2 } n

/-- The body of the loop of `wire_memlog`. -/
def wireMemlogStmt (bbIn : IRSB) (out : IRSB) : Option IRStmt → IRSB
  | none => out
  | some (.store endness addr data) =>
    let tmp := (newIRTemp out.tyenv .i64).1
    let pieces := (typeOfIRExpr prim bbIn.tyenv data).elim [] (storePieces data)
    addStmtToIRSB (wirePieces fn addr (newIRTemps out 8) tmp pieces) (.store endness addr data)
  | some st => addStmtToIRSB out st

def wireMemlog (bbIn : IRSB) : IRSB :=
  bbIn.stmts.foldl (wireMemlogStmt fn prim bbIn) (deepCopyIRSBExceptStmts bbIn)

/-- The call of `mx_after_store`; its declared effect covers the groups that it can change. -/
def mxAfterStoreDirty (addrTmp loTmp : IRTemp) (size : Nat) : IRDirty :=
  { unsafeIRDirty0N 2 "mx_after_store" fn.mxAfterStore
      [.rdTmp addrTmp, .const (.u64 (BitVec.ofNat 64 size))] with
    mFx := .modify
    mAddr := some (.rdTmp loTmp)
    mSize := 512 + size }

/-- The body of the loop of `wire_mx`. -/
def wireMxStmt (bbIn : IRSB) (out : IRSB) : Option IRStmt → IRSB
  | none => out
  | some (.store endness addr data) =>
    let addrTmp := (newIRTemp out.tyenv .i64).1
    let out := newIRTemps out 1
    let out := addStmtToIRSB out (.wrTmp addrTmp addr)
    let out := addStmtToIRSB out (.store endness (.rdTmp addrTmp) data)
    let size := ((typeOfIRExpr prim bbIn.tyenv data).map sizeofIRType).getD 0
    let loTmp := (newIRTemp out.tyenv .i64).1
    let out := newIRTemps out 1
    let out := addStmtToIRSB out
      (.wrTmp loTmp (.binop .sub64 (.rdTmp addrTmp) (.const (.u64 256))))
    addStmtToIRSB out (.dirty (mxAfterStoreDirty fn addrTmp loTmp size))
  | some st => addStmtToIRSB out st

def wireMx (bbIn : IRSB) : IRSB :=
  bbIn.stmts.foldl (wireMxStmt fn prim bbIn) (deepCopyIRSBExceptStmts bbIn)

def mlInstrument (clo : Clo) (bbIn : IRSB) : IRSB :=
  if clo.mxRound then wireMx fn prim bbIn else wireMemlog fn prim bbIn

end Memlog.Wire
