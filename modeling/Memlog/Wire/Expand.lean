import Memlog.Vex.Pass
import Memlog.Wire.Model

/-!
# The instrumentation as local passes

`wire_memlog` and `wire_mx` treat every statement alone: they are the runs of `memlogPass` and
`mxPass` (`wireMemlog_eq_run`, `wireMx_eq_run`).
-/

namespace Memlog.Wire

open Vex

variable (fn : Helpers) (prim : PrimopTable) (tyenv : IRTypeEnv)

/-! ## The passes -/

/-- The statements for the pieces of a store, with temporaries from `tmp` on. -/
def pieceStmts (addr : IRExpr) : IRTemp → List (Nat × IRExpr) → List IRStmt
  | _, [] => []
  | tmp, (offset, piece) :: pieces =>
    .wrTmp tmp (pieceAddr addr offset) :: .wrTmp (tmp + 1) piece ::
      .dirty (logStoreDirty fn tmp (tmp + 1)) :: pieceStmts addr (tmp + 2) pieces

def dataPieces (data : IRExpr) : List (Nat × IRExpr) :=
  (typeOfIRExpr prim tyenv data).elim [] (storePieces data)

def memlogPass : LocalPass where
  temps
    | .store _ _ _ => 8
    | _ => 0
  expand tmp
    | .store endness addr data =>
      pieceStmts fn addr tmp (dataPieces prim tyenv data) ++ [.store endness addr data]
    | st => [st]

def mxPass : LocalPass where
  temps
    | .store _ _ _ => 2
    | _ => 0
  expand tmp
    | .store endness addr data =>
      [.wrTmp tmp addr, .store endness (.rdTmp tmp) data,
        .wrTmp (tmp + 1) (.binop .sub64 (.rdTmp tmp) (.const (.u64 256))),
        .dirty (mxAfterStoreDirty fn tmp (tmp + 1)
          (((typeOfIRExpr prim tyenv data).map sizeofIRType).getD 0))]
    | st => [st]

/-! ## The loops are the passes -/

variable {fn prim}

theorem newIRTemps_eq (out : IRSB) (n : Nat) :
    newIRTemps out n = { out with tyenv := out.tyenv ++ List.replicate n .i64 } := by
  induction n generalizing out with
  | zero => simp [newIRTemps]
  | succ n ih =>
    rw [newIRTemps, ih]
    simp only [newIRTemp, List.append_assoc, List.singleton_append, List.replicate_succ]

theorem wirePieces_eq (addr : IRExpr) (out : IRSB) (tmp : IRTemp) (pieces : List (Nat × IRExpr)) :
    wirePieces fn addr out tmp pieces =
      { out with stmts := out.stmts ++ (pieceStmts fn addr tmp pieces).map some } := by
  induction pieces generalizing out tmp with
  | nil => simp [wirePieces, pieceStmts]
  | cons p pieces ih =>
    rw [wirePieces, ih]
    simp only [wireLogStore, addStmtToIRSB, pieceStmts, List.map_cons, List.append_assoc,
      List.cons_append, List.nil_append]

/-- Copying a statement is what a pass does that takes no temporaries for it. -/
theorem addStmtToIRSB_eq_add {P : LocalPass} {st : IRStmt} (out : IRSB) (htemps : P.temps st = 0)
    (hexpand : ∀ tmp, P.expand tmp st = [st]) : addStmtToIRSB out st = P.add out st := by
  rw [LocalPass.add, htemps, hexpand]
  simp only [addStmtToIRSB, List.replicate_zero, List.append_nil, List.map_cons, List.map_nil]

theorem wireMemlog_eq_run (bb : IRSB) :
    wireMemlog fn prim bb = (memlogPass fn prim bb.tyenv).run bb := by
  refine LocalPass.foldl_eq_run _ (fun out => rfl) (fun out st => ?_) bb
  cases st with
  | store endness addr data =>
    simp only [wireMemlogStmt, newIRTemps_eq, wirePieces_eq, addStmtToIRSB, LocalPass.add,
      memlogPass, dataPieces, newIRTemp, List.map_append, List.map_cons, List.map_nil,
      List.append_assoc]
  | _ => exact addStmtToIRSB_eq_add out rfl fun _ => rfl

theorem wireMx_eq_run (bb : IRSB) : wireMx fn prim bb = (mxPass fn prim bb.tyenv).run bb := by
  refine LocalPass.foldl_eq_run _ (fun out => rfl) (fun out st => ?_) bb
  cases st with
  | store endness addr data =>
    simp only [wireMxStmt, newIRTemps_eq, addStmtToIRSB, LocalPass.add, mxPass, newIRTemp,
      List.map_cons, List.map_nil, List.append_assoc, List.length_append, List.length_replicate,
      List.replicate_append_replicate, List.singleton_append]
    rfl
  | _ => exact addStmtToIRSB_eq_add out rfl fun _ => rfl

end Memlog.Wire
