import Mathlib.Data.List.Nodup
import Mathlib.Tactic.NormNum
import Memlog.Vex.Trace
import Memlog.Wire.Sane

/-!
# What the instrumented superblock logs

Running the statements that `wire_memlog` puts before a store calls `log_store` for the pieces of
the data, and the addresses of the pieces cut the stored bytes into runs of at most eight. The
values come in the order from the most to the least significant piece while the addresses ascend, so
they are the values in memory if and only if the pieces read the same in both orders
(`wireMemlog_logs_iff`).
-/

namespace Memlog.Wire

open Vex Lib

variable {fn : Helpers} {M : Machine} {tyenv tyenv' : IRTypeEnv}

/-! ## Calls of the helpers -/

def logStoreCallee (fn : Helpers) : IRCallee := ⟨2, "log_store", fn.logStore⟩

def mxAfterStoreCallee (fn : Helpers) : IRCallee := ⟨2, "mx_after_store", fn.mxAfterStore⟩

/-- The address and the value of a call of `log_store`, as words. -/
def logCall (fn : Helpers) : Event → Option (Addr × ULong)
  | .call cee [a, v] =>
    if cee = logStoreCallee fn then some (BitVec.ofNat 64 a, BitVec.ofNat 64 v) else none
  | _ => none

/-- The pairs that are passed to `log_store`, in order. -/
def logCalls (fn : Helpers) (es : List Event) : List (Addr × ULong) := es.filterMap (logCall fn)

theorem execStmt_mxAfterStoreDirty (s : GState) (addrTmp loTmp : IRTemp) (size : Nat) :
    ∃ guest mem, execStmt M tyenv s (.dirty (mxAfterStoreDirty fn addrTmp loTmp size)) =
      ⟨⟨s.temps, guest, mem⟩,
        [.call (mxAfterStoreCallee fn) [s.temps addrTmp, (BitVec.ofNat 64 size).toNat],
          .write .dirty (BitVec.ofNat 64 (s.temps loTmp)) (512 + size : Int).toNat], none⟩ :=
  ⟨_, _, rfl⟩

/-! ## The pieces of a store -/

section Pieces

variable {addr data : IRExpr} {endness : IREndness} {ty : IRType} {n : Nat}

theorem readsBelow_pieceAddr (h : ReadsBelow n addr) (offset : Nat) :
    ReadsBelow n (pieceAddr addr offset) := by
  rw [pieceAddr]
  split
  · exact h
  · exact h.binop_const _ _

theorem storePieces_readsBelow (h : ReadsBelow n data) :
    ∀ p ∈ storePieces data ty, ReadsBelow n p.2 := by
  cases ty <;> simp [storePieces, h, h.unop, (h.unop _).unop]

theorem ofNat_pieceAddr (s : GState) (offset : Nat) :
    BitVec.ofNat 64 (evalExpr M s (pieceAddr addr offset)) =
      evalAddr M s addr + BitVec.ofNat 64 offset := by
  rw [pieceAddr]
  split
  · rename_i hzero
    rw [hzero, BitVec.add_zero]
    rfl
  · apply BitVec.eq_of_toNat_eq
    simp [evalExpr, evalOp, constVal, evalAddr]

/-- The call for a piece. -/
def pieceCall (fn : Helpers) (M : Machine) (s : GState) (addr : IRExpr) (p : Nat × IRExpr) :
    Event :=
  .call (logStoreCallee fn) [evalExpr M s (pieceAddr addr p.1), evalExpr M s p.2]

/-- A relation between states that survives what the statements for the pieces of a store do: the
assignment of temporaries from `k` on and the calls of `log_store`. -/
structure PieceFrame (fn : Helpers) (M : Machine) (k : Nat) (R : GState → GState → Prop) :
    Prop where
  refl : ∀ s, R s s
  trans : ∀ {s s' s''}, R s s' → R s' s'' → R s s''
  setTemp : ∀ s {tmp} v, k ≤ tmp → R s (s.setTemp tmp v)
  logStore : ∀ s args, R s ⟨s.temps, (M.dirty (logStoreCallee fn) args s).2.1,
    (M.dirty (logStoreCallee fn) args s).2.2⟩

theorem PieceFrame.sameTemps (fn : Helpers) (M : Machine) (k : Nat) :
    PieceFrame fn M k (SameTemps k) where
  refl := SameTemps.refl k
  trans := SameTemps.trans
  setTemp s _ v h := sameTemps_setTemp s v h
  logStore s _ := SameTemps.refl k s

/-- The statements for the pieces make the calls for the pieces, if these keep the addresses and the
values. -/
theorem PieceFrame.execStmts_pieceStmts {k : Nat} {R : GState → GState → Prop}
    (hR : PieceFrame fn M k R) {pieces : List (Nat × IRExpr)} (hn : k ≤ n)
    (haddr : ∀ offset s s', R s s' →
      evalExpr M s' (pieceAddr addr offset) = evalExpr M s (pieceAddr addr offset))
    (hpieces : ∀ p ∈ pieces, ∀ s s', R s s' → evalExpr M s' p.2 = evalExpr M s p.2) (s : GState) :
    ∃ s', execStmts M tyenv (pieceStmts fn addr n pieces) s =
        ⟨s', pieces.map (pieceCall fn M s addr), none⟩ ∧ R s s' := by
  induction pieces generalizing n s with
  | nil => exact ⟨s, rfl, hR.refl s⟩
  | cons p pieces ih =>
    obtain ⟨hp, hrest⟩ := List.forall_mem_cons.1 hpieces
    let s₁ := s.setTemp n (evalExpr M s (pieceAddr addr p.1))
    let s₂ := s₁.setTemp (n + 1) (evalExpr M s₁ p.2)
    let after := M.dirty (logStoreCallee fn) [s₂.temps n, s₂.temps (n + 1)] s₂
    let s₃ : GState := ⟨s₂.temps, after.2.1, after.2.2⟩
    have hs₁ : R s s₁ := hR.setTemp s _ hn
    have hs₃ : R s s₃ :=
      hR.trans hs₁ (hR.trans (hR.setTemp s₁ _ (hn.trans (Nat.le_succ n))) (hR.logStore s₂ _))
    obtain ⟨s', hrun, hs'⟩ := ih (hn.trans (Nat.le_add_right n 2)) hrest s₃
    refine ⟨s', ?_, hR.trans hs₃ hs'⟩
    have hcalls : pieces.map (pieceCall fn M s₃ addr) = pieces.map (pieceCall fn M s addr) := by
      refine List.map_congr_left fun q hq => ?_
      rw [pieceCall, pieceCall, haddr q.1 s s₃ hs₃, hrest q hq s s₃ hs₃]
    have htmp₀ : s₂.temps n = evalExpr M s (pieceAddr addr p.1) := by
      simp [s₂, s₁, GState.setTemp]
    have htmp₁ : s₂.temps (n + 1) = evalExpr M s p.2 := by
      rw [← hp s s₁ hs₁]
      simp [s₂, GState.setTemp]
    have hdirty : execStmt M tyenv s₂ (.dirty (logStoreDirty fn n (n + 1))) =
        ⟨s₃, [.call (logStoreCallee fn) [s₂.temps n, s₂.temps (n + 1)]], none⟩ := rfl
    have hthree : execStmts M tyenv (pieceStmts fn addr n (p :: pieces)) s =
        ⟨s', [] ++ ([] ++ ([.call (logStoreCallee fn) [s₂.temps n, s₂.temps (n + 1)]] ++
          pieces.map (pieceCall fn M s₃ addr))), none⟩ :=
      execStmts_step rfl (execStmts_step rfl (execStmts_step hdirty hrun))
    rw [hthree, hcalls, htmp₀, htmp₁]
    rfl

theorem execStmts_pieceStmts {pieces : List (Nat × IRExpr)} (haddr : ReadsBelow n addr)
    (hpieces : ∀ p ∈ pieces, ReadsBelow n p.2) (s : GState) :
    ∃ s', execStmts M tyenv (pieceStmts fn addr n pieces) s =
        ⟨s', pieces.map (pieceCall fn M s addr), none⟩ ∧ SameTemps n s s' :=
  (PieceFrame.sameTemps fn M n).execStmts_pieceStmts le_rfl
    (fun offset => readsBelow_pieceAddr haddr offset M) (fun p hp => hpieces p hp M) s

/-- The run of what replaces a store: the calls for its pieces, then the store. -/
theorem execStmts_memlog_store (fn : Helpers) (endness : IREndness) (haddr : ReadsBelow n addr)
    (hdata : ReadsBelow n data) (hty : typeOfIRExpr M.prim tyenv data = some ty)
    (hty' : typeOfIRExpr M.prim tyenv' data = some ty) (s : GState) :
    ∃ s' mem, execStmts M tyenv'
          ((memlogPass fn M.prim tyenv).expand n (.store endness addr data)) s =
        ⟨s', (storePieces data ty).map (pieceCall fn M s addr) ++
          [.write (.store ty) (evalAddr M s addr) (sizeofIRType ty)], none⟩ ∧
      s'.mem = storeMem mem endness (evalAddr M s addr) (sizeofIRType ty) (evalExpr M s data) := by
  have hpieces : ∃ s', execStmts M tyenv' (pieceStmts fn addr n (storePieces data ty)) s = _ ∧ _ :=
    execStmts_pieceStmts haddr (storePieces_readsBelow hdata) s
  obtain ⟨s₁, hrun, hs₁⟩ := hpieces
  have hstore : execStmts M tyenv' [.store endness addr data] s₁ =
      ⟨⟨s₁.temps, s₁.guest,
          storeMem s₁.mem endness (evalAddr M s addr) (sizeofIRType ty) (evalExpr M s data)⟩,
        [.write (.store ty) (evalAddr M s addr) (sizeofIRType ty)], none⟩ := by
    have hst : execStmt M tyenv' s₁ (.store endness addr data) =
        s₁.write (.store ty) endness (evalAddr M s addr) (sizeofIRType ty) (evalExpr M s data) := by
      simp only [execStmt, hty', haddr.evalAddr M hs₁, hdata M s s₁ hs₁]
    exact execStmts_step hst rfl
  refine ⟨⟨s₁.temps, s₁.guest, _⟩, s₁.mem, ?_, rfl⟩
  simp only [memlogPass, dataPieces, hty, Option.elim_some]
  rw [execStmts_append (by rw [hrun]), hrun, hstore]
  rfl

end Pieces

/-! ## The logged pairs -/

section Pairs

variable {addr data : IRExpr} {ty : IRType}

/-- The types of data that `wire_memlog` logs. -/
def Logged (ty : IRType) : Prop := ty ≠ .i1 ∧ ty ≠ .f16 ∧ ty ≠ .d32 ∧ ty ≠ .d64

/-- The number of bytes that one call logs. -/
def pieceSize (ty : IRType) : Nat := min 8 (sizeofIRType ty)

/-- The number of calls. -/
def numPieces (ty : IRType) : Nat := sizeofIRType ty / pieceSize ty

/-- A run of `w` bytes of a value, counted from the least significant one. -/
def chunk (w v i : Nat) : Nat := v / 256 ^ (w * i) % 256 ^ w

theorem pieceSize_mul_numPieces (ty : IRType) : pieceSize ty * numPieces ty = sizeofIRType ty := by
  cases ty <;> rfl

theorem sizeofIRType_le (ty : IRType) : sizeofIRType ty ≤ 32 := by
  cases ty <;> simp [sizeofIRType]

theorem chunk_lt (w v i : Nat) : chunk w v i < 256 ^ w := Nat.mod_lt _ (Nat.pow_pos (by omega))

/-- The pieces: addresses ascend while significance descends. -/
theorem storePieces_eq (M : Machine) (data : IRExpr) (hty : Logged ty) (s : GState) :
    (storePieces data ty).map (fun p => (p.1, BitVec.ofNat 64 (evalExpr M s p.2))) =
      (List.range (numPieces ty)).map fun i => (pieceSize ty * i,
        BitVec.ofNat 64 (chunk (pieceSize ty) (evalExpr M s data) (numPieces ty - 1 - i))) := by
  obtain ⟨h₁, h₂, h₃, h₄⟩ := hty
  cases ty <;>
    simp_all [storePieces, numPieces, pieceSize, sizeofIRType, evalExpr, evalOp, lane64, chunk,
      List.range_succ]
  -- 64-bit integers are passed as they are
  exact BitVec.eq_of_toNat_eq (by simp)

theorem logCalls_pieceCall (pieces : List (Nat × IRExpr)) (s : GState) :
    logCalls fn (pieces.map (pieceCall fn M s addr)) =
      pieces.map fun p =>
        (evalAddr M s addr + BitVec.ofNat 64 p.1, BitVec.ofNat 64 (evalExpr M s p.2)) := by
  rw [logCalls, List.filterMap_map, ← List.filterMap_eq_map]
  refine congrFun (congrArg List.filterMap (funext fun p => ?_)) pieces
  simp only [Function.comp_apply, pieceCall, logCall, if_true, ofNat_pieceAddr]

/-- The pairs that are logged for a store. -/
theorem logCalls_store (hty : Logged ty) (s : GState) (a : Addr) (size : Nat) :
    logCalls fn ((storePieces data ty).map (pieceCall fn M s addr) ++ [.write (.store ty) a size]) =
      (List.range (numPieces ty)).map fun i =>
        (evalAddr M s addr + BitVec.ofNat 64 (pieceSize ty * i),
          BitVec.ofNat 64 (chunk (pieceSize ty) (evalExpr M s data) (numPieces ty - 1 - i))) := by
  have hmap := congrArg (List.map fun q : Nat × ULong =>
    (evalAddr M s addr + BitVec.ofNat 64 q.1, q.2))
    (storePieces_eq M data hty s)
  rw [List.map_map, List.map_map] at hmap
  rw [logCalls, List.filterMap_append, ← logCalls, logCalls_pieceCall]
  exact (List.append_nil _).trans hmap

/-- The pairs cover every byte of the store once. -/
theorem countP_logCalls_store (hty : Logged ty) (s : GState) (a : Addr) (size : Nat) (b : Addr) :
    (logCalls fn ((storePieces data ty).map (pieceCall fn M s addr) ++
        [.write (.store ty) a size])).countP (fun p => Lib.dist p.1 b < pieceSize ty) =
      if Lib.dist (evalAddr M s addr) b < sizeofIRType ty then 1 else 0 := by
  have hsize := sizeofIRType_le ty
  have hmul := pieceSize_mul_numPieces ty
  rw [logCalls_store hty, List.countP_map, ← hmul]
  exact countP_runs _ _ (by omega)

/-- The values are those of a memory after the store if and only if they read the same in both
orders. -/
theorem logCalls_store_values_iff (hty : Logged ty) (s : GState) (a : Addr) (size : Nat)
    (mem : Mem) :
    (∀ p ∈ logCalls fn ((storePieces data ty).map (pieceCall fn M s addr) ++
          [.write (.store ty) a size]),
        (mem.storeLE (evalAddr M s addr) (sizeofIRType ty) (evalExpr M s data)).loadLE p.1
          (pieceSize ty) = p.2.toNat) ↔
      ∀ i < numPieces ty, chunk (pieceSize ty) (evalExpr M s data) i =
        chunk (pieceSize ty) (evalExpr M s data) (numPieces ty - 1 - i) := by
  have hsize := sizeofIRType_le ty
  have hmul := pieceSize_mul_numPieces ty
  have hpow : 256 ^ pieceSize ty ≤ 2 ^ 64 :=
    (Nat.pow_le_pow_right (by omega) (Nat.min_le_left 8 _)).trans (by norm_num)
  rw [logCalls_store hty, List.forall_mem_map]
  simp only [List.mem_range]
  refine forall₂_congr fun i hi => ?_
  have hin : pieceSize ty * i + pieceSize ty ≤ sizeofIRType ty := by
    rw [← hmul, ← Nat.mul_succ]
    exact Nat.mul_le_mul_left _ hi
  rw [ByteMem.loadLE_storeLE_add _ _ _ (by omega) hin, BitVec.toNat_ofNat,
    Nat.mod_eq_of_lt (Nat.lt_of_lt_of_le (chunk_lt ..) hpow)]
  rfl

end Pairs

/-! ## Stores are logged with their values -/

/-- The statements that the loop of `wire_memlog` adds for `st` after it has gone through `pre`. -/
def addedStmts (fn : Helpers) (prim : PrimopTable) (bb : IRSB) (pre : List (Option IRStmt))
    (st : IRStmt) : List IRStmt :=
  ((wireMemlog fn prim { bb with stmts := pre ++ [some st] }).stmts.drop
    (wireMemlog fn prim { bb with stmts := pre }).stmts.length).reduceOption

theorem addedStmts_eq (fn : Helpers) (prim : PrimopTable) (bb : IRSB) (pre : List (Option IRStmt))
    (st : IRStmt) :
    ∃ n, bb.tyenv.length ≤ n ∧
      addedStmts fn prim bb pre st = (memlogPass fn prim bb.tyenv).expand n st := by
  refine ⟨_, Nat.le_add_right bb.tyenv.length
    ((memlogPass fn prim bb.tyenv).numTemps pre.reduceOption), ?_⟩
  have hone : ∀ n, (memlogPass fn prim bb.tyenv).stmts n [some st].reduceOption =
      (memlogPass fn prim bb.tyenv).expand n st := fun n => List.append_nil _
  simp only [addedStmts, wireMemlog_eq_run, LocalPass.run, List.reduceOption_append,
    LocalPass.stmts_append, List.map_append, List.drop_left, reduceOption_map_some, hone]

/-- The type of the data of a store is kept by the pass. -/
theorem typeOfIRExpr_wireMemlog (fn : Helpers) {bb : IRSB} {data : IRExpr} {ty : IRType}
    (hatom : isIRAtom data) (hty : typeOfIRExpr M.prim bb.tyenv data = some ty) :
    typeOfIRExpr M.prim (wireMemlog fn M.prim bb).tyenv data = some ty := by
  rw [wireMemlog_eq_run]
  exact typeOfAtom_append hatom hty

/-- **What a store logs.** Take any little-endian store of a sane superblock, of a type that
`wire_memlog` logs, and run the statements that it becomes in any state. Every pair passed to
`log_store` gives the value that the memory holds at the address right after the store, over `min 8
size` bytes, and the pairs cover every byte of the store once, if and only if the pieces of the
value read the same in both orders; which is so if there is only one piece. -/
theorem wireMemlog_logs_iff (fn : Helpers) (M : Machine) (bb : IRSB)
    (pre post : List (Option IRStmt)) (addr data : IRExpr) (ty : IRType)
    (hbb : bb.stmts = pre ++ some (.store .le addr data) :: post)
    (hsane : sanityCheckIRSB M.prim bb) (hty : typeOfIRExpr M.prim bb.tyenv data = some ty)
    (hlogged : Logged ty) (s : GState) :
    let r := execStmts M (wireMemlog fn M.prim bb).tyenv
      (addedStmts fn M.prim bb pre (.store .le addr data)) s
    ((∀ p ∈ logCalls fn r.events,
          r.state.mem.loadLE p.1 (min 8 (sizeofIRType ty)) = p.2.toNat) ∧
        ∀ b, (logCalls fn r.events).countP (fun p => Lib.dist p.1 b < min 8 (sizeofIRType ty)) =
          if Lib.dist (evalAddr M s addr) b < sizeofIRType ty then 1 else 0) ↔
      ∀ i < numPieces ty, chunk (pieceSize ty) (evalExpr M s data) i =
        chunk (pieceSize ty) (evalExpr M s data) (numPieces ty - 1 - i) := by
  have hmem : IRStmt.store .le addr data ∈ bb.stmts.reduceOption :=
    List.reduceOption_mem_iff.2 (by simp [hbb])
  obtain ⟨haddr, hdata, hatom, -⟩ := store_of_sane hsane hmem
  obtain ⟨n, hn, hadded⟩ := addedStmts_eq fn M.prim bb pre (.store .le addr data)
  obtain ⟨s', mem, hrun, hmem'⟩ := execStmts_memlog_store fn .le (haddr.mono hn) (hdata.mono hn) hty
    (typeOfIRExpr_wireMemlog fn hatom hty) s
  intro r
  have hr : r = _ := (congrArg (fun sts => execStmts M _ sts s) hadded).trans hrun
  rw [hr]
  simp only [hmem', storeMem]
  rw [← pieceSize, and_iff_left (countP_logCalls_store hlogged s _ _)]
  exact logCalls_store_values_iff hlogged s _ _ mem

/-- A machine whose helpers do nothing. -/
def idleMachine : Machine where
  prim := fun _ => ([], .i64)
  op := fun _ _ => 0
  ccall := fun _ _ => 0
  dirty := fun _ _ s => (0, s.guest, s.mem)
  succeeds := fun _ _ => true

def zeroState : GState := ⟨fun _ => 0, fun _ => 0, fun _ => 0⟩

/-- The run of what the store of `storeBlock con` becomes. -/
def storeBlockRun (con : IRConst) : Result :=
  execStmts idleMachine (wireMemlog someHelpers idleMachine.prim (storeBlock con)).tyenv
    (addedStmts someHelpers idleMachine.prim (storeBlock con) []
      (.store .le (.const (.u64 0x1000)) (.const con))) zeroState

/-- A vector whose halves are equal is logged as two values, and as it is stored. -/
theorem wireMemlog_logs_iff_v128 :
    logCalls someHelpers (storeBlockRun (.v128 0x1313)).events =
        [(0x1000, 0x000000FF0000FFFF), (0x1008, 0x000000FF0000FFFF)] ∧
      (∀ p ∈ logCalls someHelpers (storeBlockRun (.v128 0x1313)).events,
        (storeBlockRun (.v128 0x1313)).state.mem.loadLE p.1 8 = p.2.toNat) ∧
      ∀ b, (logCalls someHelpers (storeBlockRun (.v128 0x1313)).events).countP
          (fun p => Lib.dist p.1 b < 8) =
        if Lib.dist (0x1000 : Addr) b < 16 then 1 else 0 := by
  refine ⟨by decide +kernel, ?_⟩
  refine (wireMemlog_logs_iff someHelpers idleMachine (storeBlock (.v128 0x1313)) [] [] _ _ .v128
    rfl rfl rfl ⟨by decide, by decide, by decide, by decide⟩ zeroState).2 ?_
  decide +kernel

/-- Of a vector whose low half is all ones and whose high half is zero, the high half is logged at
the lower address, where the memory holds ones. -/
theorem wireMemlog_not_logs_v128 :
    sanityCheckIRSB idleMachine.prim (storeBlock (.v128 0x00FF)) = true ∧
      logCalls someHelpers (storeBlockRun (.v128 0x00FF)).events =
        [(0x1000, 0), (0x1008, 0xFFFFFFFFFFFFFFFF)] ∧
      (storeBlockRun (.v128 0x00FF)).state.mem.loadLE 0x1000 8 = 0xFFFFFFFFFFFFFFFF :=
  ⟨rfl, by decide +kernel, by decide +kernel⟩

/-- A superblock of these statements. -/
def blockOf (tyenv : IRTypeEnv) (sts : List IRStmt) : IRSB where
  tyenv := tyenv
  stmts := sts.map some
  next := .const (.u64 0x401000)
  jumpkind := 0
  offsIP := 184

end Memlog.Wire
