import Memlog.Wire.MxSimulates
import Memlog.Wire.Simulates

/-!
# Every executed store is instrumented

The run of an instrumented superblock performs the stores that the superblock itself performs, in
the same order and no others. In what `wire_memlog` makes of a superblock, every store of a type
that is not skipped comes right after calls of `log_store` for its bytes; in what `wire_mx` makes of
it, every store comes right before a call of `mx_after_store` for its range
(`wire_instruments_stores`). Writes of other kinds are copied without any call
(`wire_not_instruments_otherWrites`).
-/

namespace Memlog.Wire

open Vex

variable {fn : Helpers} {M : Machine} {tyenv tyenv' : IRTypeEnv}

/-! ## Stores of a whole run -/

/-- The calls right before a store cover its bytes. -/
def LoggedBefore (fn : Helpers) (pre : List Event) (ty : IRType) (a : Addr) (size : Nat)
    (_ : List Event) : Prop :=
  ty ≠ .f16 → ty ≠ .d32 → ty ≠ .d64 → ∃ pre' calls, pre = pre' ++ calls ∧
    (∀ e ∈ calls, (logCall fn e).isSome) ∧
    ∀ b, Lib.dist a b < size → ∃ p ∈ logCalls fn calls, Lib.dist p.1 b < min 8 size

/-- The event right after a store is a call of `mx_after_store` for its range. -/
def EncodedAfter (fn : Helpers) (_ : List Event) (_ : IRType) (a : Addr) (size : Nat)
    (post : List Event) : Prop :=
  ∃ x post', post = .call (mxAfterStoreCallee fn) [x, size] :: post' ∧ BitVec.ofNat 64 x = a

section Runs

variable {addr data : IRExpr} {endness : IREndness} {n : Nat}

theorem pieceCall_ne_write (pieces : List (Nat × IRExpr)) (s : GState) (kind : WriteKind) (a : Addr)
    (size : Nat) : .write kind a size ∉ pieces.map (pieceCall fn M s addr) := by
  simp [pieceCall]

/-- The calls for the pieces of a store cover it. -/
theorem loggedBefore_pieces (s : GState) (ty : IRType) (post : List Event) :
    LoggedBefore fn ((storePieces data ty).map (pieceCall fn M s addr)) ty (evalAddr M s addr)
      (sizeofIRType ty) post := by
  intro hf16 hd32 hd64
  refine ⟨[], _, rfl, ?_, fun b hb => ?_⟩
  · intro e he
    obtain ⟨p, -, rfl⟩ := List.mem_map.1 he
    simp [pieceCall, logCall]
  · have hi1 : ty ≠ .i1 := by
      rintro rfl
      exact absurd hb (Nat.not_lt_zero _)
    have hcount : (logCalls fn ((storePieces data ty).map (pieceCall fn M s addr) ++
        [.write (.store ty) (evalAddr M s addr) (sizeofIRType ty)])).countP _ = _ :=
      countP_logCalls_store ⟨hi1, hf16, hd32, hd64⟩ s _ _ b
    rw [if_pos hb] at hcount
    obtain ⟨p, hp, hdist⟩ := List.countP_pos_iff.1 (Nat.lt_of_lt_of_eq Nat.one_pos hcount.symm)
    rw [logCalls, List.filterMap_append] at hp
    exact ⟨p, (List.append_nil (logCalls fn _)) ▸ hp, of_decide_eq_true hdist⟩

theorem memlogPass_atStores_store (haddr : ReadsBelow n addr) (hdata : ReadsBelow n data)
    {ty : IRType} (hty : typeOfIRExpr M.prim tyenv data = some ty)
    (hty' : typeOfIRExpr M.prim tyenv' data = some ty) (s : GState) :
    AtStores (LoggedBefore fn) (execStmts M tyenv'
      ((memlogPass fn M.prim tyenv).expand n (.store endness addr data)) s).events := by
  obtain ⟨s', mem, hrun, -⟩ := execStmts_memlog_store fn endness haddr hdata hty hty' s
  rw [hrun]
  exact atStores_one (fun ty => pieceCall_ne_write _ s _) (by simp) (loggedBefore_pieces s ty [])

/-- The run of what replaces a store: the store, then the call. -/
theorem execStmts_mx_store {ty : IRType} (hty : typeOfIRExpr M.prim tyenv data = some ty)
    (hty' : typeOfIRExpr M.prim tyenv' data = some ty) (s : GState) :
    ∃ s' lo, execStmts M tyenv' ((mxPass fn M.prim tyenv).expand n (.store endness addr data)) s =
      ⟨s', [.write (.store ty) (evalAddr M s addr) (sizeofIRType ty),
        .call (mxAfterStoreCallee fn) [evalExpr M s addr, sizeofIRType ty],
        .write .dirty lo (512 + sizeofIRType ty : Int).toNat], none⟩ := by
  let s₁ := s.setTemp n (evalExpr M s addr)
  let s₂ : GState := ⟨s₁.temps, s₁.guest,
    storeMem s₁.mem endness (evalAddr M s addr) (sizeofIRType ty) (evalExpr M s₁ data)⟩
  let s₃ := s₂.setTemp (n + 1)
    (evalExpr M s₂ (.binop .sub64 (.rdTmp n) (.const (.u64 256))))
  have htmp₁ : s₁.temps n = evalExpr M s addr := Function.update_self ..
  have htmp₃ : s₃.temps n = evalExpr M s addr :=
    (Function.update_of_ne (Nat.ne_of_lt (Nat.lt_succ_self n)) ..).trans htmp₁
  have haddrTmp : execStmt M tyenv' s (.wrTmp n addr) = ⟨s₁, [], none⟩ := rfl
  have hlo : execStmt M tyenv' s₂
      (.wrTmp (n + 1) (.binop .sub64 (.rdTmp n) (.const (.u64 256)))) = ⟨s₃, [], none⟩ := rfl
  have hstore : execStmt M tyenv' s₁ (.store endness (.rdTmp n) data) =
      ⟨s₂, [.write (.store ty) (evalAddr M s addr) (sizeofIRType ty)], none⟩ := by
    have haddr : evalAddr M s₁ (.rdTmp n) = evalAddr M s addr := congrArg (BitVec.ofNat 64) htmp₁
    simp only [execStmt, hty', haddr]
    rfl
  obtain ⟨guest, mem, hdirty⟩ : ∃ guest mem, execStmt M tyenv' s₃
      (.dirty (mxAfterStoreDirty fn n (n + 1) (sizeofIRType ty))) = _ :=
    execStmt_mxAfterStoreDirty s₃ n (n + 1) (sizeofIRType ty)
  have hsize : (BitVec.ofNat 64 (sizeofIRType ty)).toNat = sizeofIRType ty := by
    have hle := sizeofIRType_le ty
    rw [BitVec.toNat_ofNat, Nat.mod_eq_of_lt (by omega)]
  rw [hsize, htmp₃] at hdirty
  refine ⟨⟨s₃.temps, guest, mem⟩, BitVec.ofNat 64 (s₃.temps (n + 1)), ?_⟩
  simp only [mxPass, hty, Option.map_some, Option.getD_some]
  exact execStmts_step haddrTmp
    (execStmts_step hstore (execStmts_step hlo (execStmts_step hdirty rfl)))

theorem mxPass_atStores_store {ty : IRType} (hty : typeOfIRExpr M.prim tyenv data = some ty)
    (hty' : typeOfIRExpr M.prim tyenv' data = some ty) (s : GState) :
    AtStores (EncodedAfter fn) (execStmts M tyenv'
      ((mxPass fn M.prim tyenv).expand n (.store endness addr data)) s).events := by
  have hexec : ∃ s' lo,
      execStmts M tyenv' ((mxPass fn M.prim tyenv).expand n (.store endness addr data)) s = _ :=
    execStmts_mx_store hty hty' s
  obtain ⟨s', lo, hrun⟩ := hexec
  rw [hrun]
  have hafter : EncodedAfter fn [] ty (evalAddr M s addr) (sizeofIRType ty)
      [.call (mxAfterStoreCallee fn) [evalExpr M s addr, sizeofIRType ty],
        .write .dirty lo (512 + sizeofIRType ty : Int).toNat] := ⟨_, _, rfl, rfl⟩
  exact atStores_one (by simp) (by simp) hafter

/-- Both properties survive more events around. -/
theorem loggedBefore_extend (before pre : List Event) (ty : IRType) (a : Addr) (size : Nat)
    (post after : List Event) (h : LoggedBefore fn pre ty a size post) :
    LoggedBefore fn (before ++ pre) ty a size (post ++ after) := by
  intro hf16 hd32 hd64
  obtain ⟨pre', calls, rfl, hcalls, hcover⟩ := h hf16 hd32 hd64
  exact ⟨before ++ pre', calls, (List.append_assoc ..).symm, hcalls, hcover⟩

theorem encodedAfter_extend (before pre : List Event) (ty : IRType) (a : Addr) (size : Nat)
    (post after : List Event) (h : EncodedAfter fn pre ty a size post) :
    EncodedAfter fn (before ++ pre) ty a size (post ++ after) := by
  obtain ⟨x, post', rfl, hx⟩ := h
  exact ⟨x, post' ++ after, rfl, hx⟩

end Runs

/-! ## The stores of both runs -/

section Stores

variable {ext : IRTypeEnv} {endness : IREndness} {addr data : IRExpr} {ty : IRType}

/-- A statement that is copied and no store shows no store. -/
theorem showsAs_copy (tyenv : IRTypeEnv) {P : LocalPass} {step : GState → IRStmt → Result}
    {k : Nat} {st : IRStmt} (hst : ∀ endness addr data, st ≠ .store endness addr data)
    (hexpand : ∀ n, P.expand n st = [st])
    (hstep : ∀ s, (step s st).events = (execStmt M tyenv s st).events) :
    P.ShowsAs M tyenv' k step Event.isStore st := by
  have hnone : ∀ env s, (execStmt M env s st).events.filter Event.isStore = [] := by
    intro env s
    refine List.filter_eq_nil_iff.2 fun e he hstore => ?_
    rcases e with ⟨kind, a, size⟩ | ⟨cee, args⟩
    · cases kind with
      | store ty => exact execStmt_noStore hst s ty a size he
      | _ => cases hstore
    · cases hstore
  intro n s s' _ _
  rw [hexpand, execStmts_singleton, hstep, hnone, hnone]

/-- The store of the superblock. -/
theorem events_store (hty : typeOfIRExpr M.prim tyenv data = some ty) (s : GState) :
    (execStmt M tyenv s (.store endness addr data)).events =
      [.write (.store ty) (evalAddr M s addr) (sizeofIRType ty)] := by
  simp only [execStmt, hty]
  rfl

variable (hst : stmtInScope tyenv.length (.store endness addr data))
  (hty : typeOfIRExpr M.prim tyenv data = some ty)
include hst hty

theorem memlogPass_showsAs_store (haddr : ReadsBelow tyenv.length addr)
    (hdata : ReadsBelow tyenv.length data) :
    (memlogPass fn M.prim tyenv).ShowsAs M (tyenv ++ ext) tyenv.length (execStmt M tyenv)
      Event.isStore (.store endness addr data) := by
  intro n s s' hn hs
  obtain ⟨haddrScope, hdataScope⟩ := inScope_of_store hst
  have hty' : typeOfIRExpr M.prim (tyenv ++ ext) data = some ty :=
    (typeOfIRExpr_inScope data hdataScope).trans hty
  obtain ⟨s₁, mem, hrun, -⟩ :=
    execStmts_memlog_store fn endness (haddr.mono hn) (hdata.mono hn) hty hty' s'
  have hcalls : ((storePieces data ty).map (pieceCall fn M s' addr)).filter Event.isStore = [] := by
    refine List.filter_eq_nil_iff.2 fun e he => ?_
    obtain ⟨p, -, rfl⟩ := List.mem_map.1 he
    exact Bool.false_ne_true
  rw [hrun, events_store hty, List.filter_append, hcalls, evalAddr_agree hs haddrScope]
  rfl

theorem mxPass_showsAs_store (hook : Addr → Nat → Mem → Mem) :
    (mxPass fn M.prim tyenv).ShowsAs M (tyenv ++ ext) tyenv.length (execHooked M tyenv hook)
      Event.isStore (.store endness addr data) := by
  intro n s s' hn hs
  obtain ⟨haddr, hdata⟩ := inScope_of_store hst
  obtain ⟨s₁, lo, hrun⟩ : ∃ s₁ lo, execStmts M (tyenv ++ ext)
      ((mxPass fn M.prim tyenv).expand n (.store endness addr data)) s' = _ :=
    execStmts_mx_store hty ((typeOfIRExpr_inScope data hdata).trans hty) s'
  have hevents : (execHooked M tyenv hook s (.store endness addr data)).events =
      (execStmt M tyenv s (.store endness addr data)).events := rfl
  rw [hrun, hevents, events_store hty, evalAddr_agree hs haddr]
  rfl

end Stores

/-- The stores of the superblock of `wire_memlog` are those of the superblock. -/
theorem storeEvents_wireMemlog (hM : Quiet fn M) {bb : IRSB} (hsane : sanityCheckIRSB M.prim bb)
    (s : GState) : storeEvents (execIRSB M (wireMemlog fn M.prim bb) s).events =
      storeEvents (execIRSB M bb s).events := by
  obtain ⟨hscope, -⟩ := Bool.and_eq_true_iff.1 (IRSB.declared_of_sane hsane)
  rw [List.all_eq_true] at hscope
  rw [storeEvents, storeEvents, wireMemlog_eq_run, execIRSB.eq_1 M bb, ← runWith_execStmt]
  refine LocalPass.showsAs (fun st hst => ?_) s
  cases st with
  | store endness addr data =>
    obtain ⟨haddr, hdata, -, ty, hty⟩ := store_of_sane hsane hst
    exact ⟨(simulatesAt_store hM (hscope _ hst)).actsAs,
      memlogPass_showsAs_store (hscope _ hst) hty haddr hdata⟩
  | _ => exact ⟨LocalPass.actsAs_copy hM.toSeesNoTemps (hscope _ hst) (fun _ => rfl) fun _ => rfl,
      showsAs_copy bb.tyenv (by simp) (fun _ => rfl) fun _ => rfl⟩

/-- The stores of the superblock of `wire_mx` are those of the superblock, each followed by what
`mx_after_store` does. -/
theorem storeEvents_wireMx {hook : Addr → Nat → Mem → Mem} (hM : Encodes fn M hook) {bb : IRSB}
    (hsane : sanityCheckIRSB M.prim bb) (s : GState) :
    storeEvents (execIRSB M (wireMx fn M.prim bb) s).events =
      storeEvents (runHooked M hook bb s).events := by
  obtain ⟨hscope, -⟩ := Bool.and_eq_true_iff.1 (IRSB.declared_of_sane hsane)
  rw [List.all_eq_true] at hscope
  rw [storeEvents, storeEvents, wireMx_eq_run, runHooked, events_leaveIRSB]
  refine LocalPass.showsAs (fun st hst => ?_) s
  cases st with
  | store endness addr data =>
    obtain ⟨-, -, -, ty, hty⟩ := store_of_sane hsane hst
    exact ⟨actsAs_store hM (hscope _ hst), mxPass_showsAs_store (hscope _ hst) hty hook⟩
  | _ => exact ⟨LocalPass.actsAs_copy hM.toSeesNoTemps (hscope _ hst) (fun _ => rfl) fun _ => rfl,
      showsAs_copy bb.tyenv (by simp) (fun _ => rfl) fun _ => rfl⟩

/-! ## Main result -/

/-- **Every executed `Ist_Store` is instrumented.** Take any superblock that passes the check and
any run of it. What `wire_memlog` makes of it performs the stores that the superblock performs, in
order (`log_store` changes neither guest state nor memory), and the calls of `log_store` right
before a store cover its bytes, unless its data is of type `F16`, `D32` or `D64`. What `wire_mx`
makes of it performs the stores that the superblock performs when each is followed by what
`mx_after_store` does to the memory, in order, and the call of `mx_after_store` for its range comes
right after a store. -/
theorem wire_instruments_stores (fn : Helpers) (M : Machine) (bb : IRSB)
    (hsane : sanityCheckIRSB M.prim bb) (s : GState) :
    ((Quiet fn M → storeEvents (execIRSB M (wireMemlog fn M.prim bb) s).events =
          storeEvents (execIRSB M bb s).events) ∧
        AtStores (LoggedBefore fn) (execIRSB M (wireMemlog fn M.prim bb) s).events) ∧
      (∀ hook, Encodes fn M hook → storeEvents (execIRSB M (wireMx fn M.prim bb) s).events =
          storeEvents (runHooked M hook bb s).events) ∧
        AtStores (EncodedAfter fn) (execIRSB M (wireMx fn M.prim bb) s).events := by
  refine ⟨⟨fun hM => storeEvents_wireMemlog hM hsane s, ?_⟩,
    fun hook hM => storeEvents_wireMx hM hsane s, ?_⟩
  · rw [execIRSB, wireMemlog_eq_run, LocalPass.reduceOption_run]
    refine LocalPass.atStores loggedBefore_extend (fun st hst n s' hn => ?_) s
    cases st with
    | store endness addr data =>
      obtain ⟨haddr, hdata, hatom, ty, hty⟩ := store_of_sane hsane hst
      exact memlogPass_atStores_store (haddr.mono hn) (hdata.mono hn) hty
        (typeOfAtom_append hatom hty) s'
    | _ => exact LocalPass.atStores_copy (by simp) rfl s'
  · rw [execIRSB, wireMx_eq_run, LocalPass.reduceOption_run]
    refine LocalPass.atStores encodedAfter_extend (fun st hst n s' hn => ?_) s
    cases st with
    | store endness addr data =>
      obtain ⟨-, -, hatom, ty, hty⟩ := store_of_sane hsane hst
      exact mxPass_atStores_store hty (typeOfAtom_append hatom hty) s'
    | _ => exact LocalPass.atStores_copy (by simp) rfl s'

/-- The machine whose helpers do nothing does after a store what changes nothing. -/
theorem encodes_idleMachine : Encodes someHelpers idleMachine fun _ _ m => m where
  toSeesNoTemps := quiet_idleMachine.toSeesNoTemps
  mxAfterStore _ _ _ := rfl

/-- A vector and a word, then a taken exit, then a store that is not executed. -/
def twoStores : IRSB :=
  blockOf [] [.store .le (.const (.u64 0x1000)) (.const (.v128 0x00FF)),
    .store .le (.const (.u64 0x1010)) (.const (.u32 7)),
    .exit (.const (.u1 true)) (.u64 0x401100) 0 184,
    .store .le (.const (.u64 0x1018)) (.const (.u64 9))]

theorem wire_instruments_stores_two :
    sanityCheckIRSB idleMachine.prim twoStores ∧
      storeEvents (execIRSB idleMachine twoStores zeroState).events =
        [.write (.store .v128) 0x1000 16, .write (.store .i32) 0x1010 4] ∧
      (storeEvents (execIRSB idleMachine
          (wireMemlog someHelpers idleMachine.prim twoStores) zeroState).events =
        [.write (.store .v128) 0x1000 16, .write (.store .i32) 0x1010 4] ∧
      AtStores (LoggedBefore someHelpers) (execIRSB idleMachine
        (wireMemlog someHelpers idleMachine.prim twoStores) zeroState).events) ∧
      storeEvents (execIRSB idleMachine
          (wireMx someHelpers idleMachine.prim twoStores) zeroState).events =
        [.write (.store .v128) 0x1000 16, .write (.store .i32) 0x1010 4] ∧
      AtStores (EncodedAfter someHelpers) (execIRSB idleMachine
        (wireMx someHelpers idleMachine.prim twoStores) zeroState).events := by
  obtain ⟨⟨hmemlog, hlogged⟩, hmx, hencoded⟩ :=
    wire_instruments_stores someHelpers idleMachine twoStores rfl zeroState
  exact ⟨rfl, rfl, ⟨hmemlog quiet_idleMachine, hlogged⟩, hmx _ encodes_idleMachine, hencoded⟩

/-- Writes to `0x1000` of every other kind: data of the types `F16`, `D32` and `D64`, a guarded
store, a compare-and-swap, a store-conditional and a helper that declares the write. -/
def otherWrites : List IRSB :=
  [blockOf [.f16] [.wrTmp 0 (.get 224 .f16), .store .le (.const (.u64 0x1000)) (.rdTmp 0)],
    blockOf [.d32] [.wrTmp 0 (.get 224 .d32), .store .le (.const (.u64 0x1000)) (.rdTmp 0)],
    blockOf [.d64] [.wrTmp 0 (.get 224 .d64), .store .le (.const (.u64 0x1000)) (.rdTmp 0)],
    blockOf [] [.storeG ⟨.le, .const (.u64 0x1000), .const (.u64 7), .const (.u1 true)⟩],
    blockOf [.i64]
      [.cas ⟨none, 0, .le, .const (.u64 0x1000), none, .const (.u64 0), none, .const (.u64 7)⟩],
    blockOf [.i1] [.llsc .le 0 (.const (.u64 0x1000)) (some (.const (.u64 7)))],
    blockOf [] [.dirty ⟨⟨0, "helper", 0x58003000⟩, .const (.u1 true), [], none, .write,
      some (.const (.u64 0x1000)), 8, []⟩]]

/-- The instrumented superblocks write but call no helper of memlog. -/
theorem wire_not_instruments_otherWrites :
    otherWrites.all (sanityCheckIRSB idleMachine.prim) = true ∧
      otherWrites.map (fun bb => (execIRSB idleMachine
          (wireMemlog someHelpers idleMachine.prim bb) zeroState).events) =
        [[.write (.store .f16) 0x1000 2], [.write (.store .d32) 0x1000 4],
          [.write (.store .d64) 0x1000 8], [.write .storeG 0x1000 8], [.write .cas 0x1000 8],
          [.write .llsc 0x1000 8],
          [.call ⟨0, "helper", 0x58003000⟩ [], .write .dirty 0x1000 8]] ∧
      (otherWrites.drop 3).map (fun bb => (execIRSB idleMachine
          (wireMx someHelpers idleMachine.prim bb) zeroState).events) =
        [[.write .storeG 0x1000 8], [.write .cas 0x1000 8], [.write .llsc 0x1000 8],
          [.call ⟨0, "helper", 0x58003000⟩ [], .write .dirty 0x1000 8]] :=
  ⟨rfl, rfl, rfl⟩

end Memlog.Wire
