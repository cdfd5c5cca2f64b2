import Memlog.Vex.Hook
import Memlog.Wire.Logged

/-!
# What `wire_mx` makes of a superblock

`wire_mx` calls `mx_after_store` right after every store, and the statements that it adds for this
assign new temporaries only. The instrumented superblock therefore does what the superblock does in
a machine that changes the memory after every store as `mx_after_store` does
(`runIRSB_wireMx_agree`).
-/

namespace Memlog.Wire

open Vex

variable {fn : Helpers} {M : Machine} {tyenv ext : IRTypeEnv} {hook : Addr → Nat → Mem → Mem}

/-- `mx_after_store` changes the memory as `hook` says and nothing else; no helper sees temporaries.
-/
structure Encodes (fn : Helpers) (M : Machine) (hook : Addr → Nat → Mem → Mem) : Prop
    extends M.SeesNoTemps where
  mxAfterStore : ∀ a size s, (M.dirty (mxAfterStoreCallee fn) [a, size] s).2 =
    (s.guest, hook (BitVec.ofNat 64 a) size s.mem)

section Store

variable {endness : IREndness} {addr data : IRExpr} {n : Nat} {s s' : GState}

/-- The store that goes through the new temporary. -/
theorem execStmt_store_rdTmp (haddr : inScope tyenv.length addr) (hdata : inScope tyenv.length data)
    (hn : tyenv.length ≤ n) (hs : Agree tyenv.length s s') :
    Result.Agree tyenv.length (execStmt M tyenv s (.store endness addr data))
      (execStmt M (tyenv ++ ext) (s'.setTemp n (evalExpr M s' addr))
        (.store endness (.rdTmp n) data)) := by
  have hset : Agree tyenv.length s' (s'.setTemp n (evalExpr M s' addr)) :=
    ⟨sameTemps_setTemp s' _ hn, rfl, rfl⟩
  have hagree := hs.trans hset
  have htmp : evalAddr M (s'.setTemp n (evalExpr M s' addr)) (.rdTmp n) = evalAddr M s addr := by
    rw [← evalAddr_agree hs haddr]
    exact congrArg (BitVec.ofNat 64) (Function.update_self ..)
  simp only [execStmt, typeOfIRExpr_inScope data hdata, htmp, evalExpr_agree hagree data hdata]
  split
  · exact hagree.write ..
  · exact hagree.result ..

/-- The call after the store. -/
theorem execStmt_mxAfterStore (hM : Encodes fn M hook) {size : Nat} (hsize : size < 2 ^ 64)
    (s : GState) (addrTmp loTmp : IRTemp) :
    ∃ es, execStmt M tyenv s (.dirty (mxAfterStoreDirty fn addrTmp loTmp size)) =
      ⟨⟨s.temps, s.guest, hook (BitVec.ofNat 64 (s.temps addrTmp)) size s.mem⟩, es, none⟩ := by
  have hexec : ∃ es, execStmt M tyenv s (.dirty (mxAfterStoreDirty fn addrTmp loTmp size)) =
      ⟨⟨s.temps,
        (M.dirty (mxAfterStoreCallee fn) [s.temps addrTmp, (BitVec.ofNat 64 size).toNat] s).2.1,
        (M.dirty (mxAfterStoreCallee fn) [s.temps addrTmp, (BitVec.ofNat 64 size).toNat] s).2.2⟩,
        es, none⟩ := ⟨_, rfl⟩
  rwa [BitVec.toNat_ofNat, Nat.mod_eq_of_lt hsize, hM.mxAfterStore] at hexec

/-- **What replaces a store** does the store and then what `mx_after_store` does. -/
theorem actsAs_store (hM : Encodes fn M hook)
    (hst : stmtInScope tyenv.length (.store endness addr data)) :
    (mxPass fn M.prim tyenv).ActsAs M (tyenv ++ ext) tyenv.length (execHooked M tyenv hook)
      (.store endness addr data) := by
  intro n s s' hn hs
  obtain ⟨haddr, hdata⟩ := inScope_of_store hst
  let size := sizeOfExpr M tyenv data
  have hsize : size < 2 ^ 64 := by
    simp only [size, sizeOfExpr]
    cases typeOfIRExpr M.prim tyenv data with
    | none => exact Nat.two_pow_pos 64
    | some ty => exact (sizeofIRType_le ty).trans_lt (by decide)
  let s₁ := s'.setTemp n (evalExpr M s' addr)
  let r₂ := execStmt M (tyenv ++ ext) s₁ (.store endness (.rdTmp n) data)
  have hstore : Result.Agree tyenv.length (execStmt M tyenv s (.store endness addr data)) r₂ :=
    execStmt_store_rdTmp haddr hdata hn hs
  obtain ⟨s₂, es₂, hr₂, htmp⟩ : ∃ s₂ es₂, r₂ = ⟨s₂, es₂, none⟩ ∧ s₂.temps = s₁.temps := by
    simp only [r₂, execStmt]
    split
    · exact ⟨_, _, rfl, rfl⟩
    · exact ⟨_, _, rfl, rfl⟩
  let s₃ := s₂.setTemp (n + 1) (evalExpr M s₂ (.binop .sub64 (.rdTmp n) (.const (.u64 256))))
  obtain ⟨es₄, hcall⟩ : ∃ es, execStmt M (tyenv ++ ext) s₃
      (.dirty (mxAfterStoreDirty fn n (n + 1) size)) = _ :=
    execStmt_mxAfterStore hM hsize s₃ n (n + 1)
  have hrun : execStmts M (tyenv ++ ext)
      ((mxPass fn M.prim tyenv).expand n (.store endness addr data)) s' = ⟨_, _, none⟩ :=
    execStmts_step rfl (execStmts_step hr₂ (execStmts_step rfl (execStmts_step hcall rfl)))
  have haddrTmp : BitVec.ofNat 64 (s₃.temps n) = evalAddr M s addr := by
    have hne : s₃.temps n = s₂.temps n :=
      Function.update_of_ne (Nat.ne_of_lt (Nat.lt_succ_self n)) ..
    have hset : s₁.temps n = evalExpr M s' addr := Function.update_self ..
    rw [hne, htmp, hset, ← evalAddr_agree hs haddr, evalAddr]
  have hnone : (execStmt M tyenv s (.store endness addr data)).exit = none := by
    rw [execStmt]
    split <;> rfl
  rw [hrun, haddrTmp]
  rw [hr₂] at hstore
  refine ⟨⟨?_, hstore.state.guest, ?_⟩, hnone.symm⟩
  · exact hstore.state.temps.trans (sameTemps_setTemp s₂ _ (hn.trans (Nat.le_succ n)))
  · exact congrArg (hook (evalAddr M s addr) size) hstore.state.mem

end Store

/-- **The superblock of `wire_mx`** does what the superblock does when every store is followed by
what `mx_after_store` does: guest state, memory, the temporaries of the superblock and the way that
control takes are the same. -/
theorem runIRSB_wireMx_agree (hM : Encodes fn M hook) {bb : IRSB} (hdecl : bb.declared)
    (s : GState) : Outcome.Agree bb.tyenv.length (runHooked M hook bb s)
      (runIRSB M (wireMx fn M.prim bb) s) := by
  obtain ⟨hstmts, hnext⟩ := Bool.and_eq_true_iff.1 hdecl
  rw [List.all_eq_true] at hstmts
  rw [wireMx_eq_run]
  refine LocalPass.actsAs hnext (fun st hst => ?_) s
  cases st with
  | store endness addr data => exact actsAs_store hM (hstmts _ hst)
  | _ => exact LocalPass.actsAs_copy hM.toSeesNoTemps (hstmts _ hst) (fun _ => rfl) fun _ => rfl

end Memlog.Wire
