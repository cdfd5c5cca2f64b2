import Memlog.Vex.Exec
import Memlog.Vex.Pass

/-!
# Events of a pass

What holds around every store of a run, and how it is proved for the result of a local pass: for
what replaces each statement alone (`LocalPass.atStores`). The statements that a pass adds write new
temporaries only, so they leave the value of an expression that reads older ones (`ReadsBelow`).
-/

namespace Memlog.Vex

/-! ## New temporaries -/

/-- The states agree on the temporaries below `n`. -/
def SameTemps (n : Nat) (s s' : GState) : Prop := ∀ tmp < n, s'.temps tmp = s.temps tmp

theorem SameTemps.refl (n : Nat) (s : GState) : SameTemps n s s := fun _ _ => rfl

theorem SameTemps.trans {n : Nat} {s s' s'' : GState} (h : SameTemps n s s')
    (h' : SameTemps n s' s'') :
    SameTemps n s s'' :=
  fun tmp htmp => (h' tmp htmp).trans (h tmp htmp)

theorem SameTemps.mono {n n' : Nat} {s s' : GState} (h : SameTemps n' s s') (hn : n ≤ n') :
    SameTemps n s s' :=
  fun tmp htmp => h tmp (Nat.lt_of_lt_of_le htmp hn)

theorem sameTemps_setTemp {n : Nat} {tmp : IRTemp} (s : GState) (v : Nat) (h : n ≤ tmp) :
    SameTemps n s (s.setTemp tmp v) :=
  fun _ htmp' => Function.update_of_ne (Nat.ne_of_lt (Nat.lt_of_lt_of_le htmp' h)) ..

/-- The value of the expression is given by the temporaries below `n`. -/
def ReadsBelow (n : Nat) (e : IRExpr) : Prop :=
  ∀ (M : Machine) (s s' : GState), SameTemps n s s' → evalExpr M s' e = evalExpr M s e

theorem ReadsBelow.mono {n n' : Nat} {e : IRExpr} (h : ReadsBelow n e) (hn : n ≤ n') :
    ReadsBelow n' e :=
  fun M s s' hs => h M s s' (hs.mono hn)

theorem ReadsBelow.evalAddr {n : Nat} {e : IRExpr} (h : ReadsBelow n e) (M : Machine)
    {s s' : GState} (hs : SameTemps n s s') : evalAddr M s' e = evalAddr M s e := by
  rw [Vex.evalAddr, Vex.evalAddr, h M s s' hs]

theorem ReadsBelow.unop {n : Nat} {e : IRExpr} (h : ReadsBelow n e) (op : IROp) :
    ReadsBelow n (.unop op e) := by
  intro M s s' hs
  rw [evalExpr, evalExpr, h M s s' hs]

theorem ReadsBelow.binop_const {n : Nat} {e : IRExpr} (h : ReadsBelow n e) (op : IROp)
    (con : IRConst) :
    ReadsBelow n (.binop op e (.const con)) := by
  intro M s s' hs
  simp only [evalExpr, h M s s' hs]

/-- Atoms that pass the check read old temporaries. -/
theorem readsBelow_of_isIRAtom {tyenv : IRTypeEnv} {defs : DefCounts} {e : IRExpr}
    (hatom : isIRAtom e) (huse : useBeforeDefExpr tyenv defs e) : ReadsBelow tyenv.length e := by
  cases e with
  | rdTmp tmp => exact fun M s s' hs => hs tmp (useBeforeDefTemp_lt huse)
  | const con => exact fun M s s' hs => rfl
  | _ => cases hatom

theorem exists_typeOfIRExpr {prim : PrimopTable} {tyenv : IRTypeEnv} {defs : DefCounts} {e : IRExpr}
    (hatom : isIRAtom e) (huse : useBeforeDefExpr tyenv defs e) :
    ∃ ty, typeOfIRExpr prim tyenv e = some ty := by
  cases e with
  | rdTmp tmp => exact ⟨_, List.getElem?_eq_getElem (useBeforeDefTemp_lt huse)⟩
  | const con => exact ⟨_, rfl⟩
  | _ => cases hatom

/-! ## Stores in a trace -/

/-- The event is that of an `Ist_Store`. -/
def Event.isStore : Event → Bool
  | .write (.store _) _ _ => true
  | _ => false

/-- The stores of a trace, in order. -/
def storeEvents (es : List Event) : List Event := es.filter Event.isStore

/-- At every store of the trace, `R` holds of what comes before it, the store and what comes after.
-/
def AtStores (R : List Event → IRType → Addr → Nat → List Event → Prop) (es : List Event) : Prop :=
  ∀ pre post ty a size, es = pre ++ .write (.store ty) a size :: post → R pre ty a size post

section AtStores

variable {R : List Event → IRType → Addr → Nat → List Event → Prop}

theorem atStores_of_noStore {es : List Event} (h : ∀ ty a size, .write (.store ty) a size ∉ es) :
    AtStores R es := by
  rintro pre post ty a size rfl
  exact absurd (by simp) (h ty a size)

/-- A trace with one store. -/
theorem atStores_one {es es' : List Event} {ty : IRType} {a : Addr} {size : Nat}
    (hes : ∀ ty a size, .write (.store ty) a size ∉ es)
    (hes' : ∀ ty a size, .write (.store ty) a size ∉ es') (h : R es ty a size es') :
    AtStores R (es ++ .write (.store ty) a size :: es') := by
  intro pre post ty' a' size' heq
  rcases List.append_eq_append_iff.1 heq with ⟨l, rfl, hl⟩ | ⟨l, rfl, hl⟩
  · cases l with
    | nil =>
      obtain ⟨hw, rfl⟩ := List.cons.inj hl
      cases hw
      rwa [List.append_nil]
    | cons e l =>
      obtain ⟨-, rfl⟩ := List.cons.inj hl
      exact absurd (by simp) (hes' ty' a' size')
  · cases l with
    | nil =>
      obtain ⟨hw, rfl⟩ := List.cons.inj hl
      cases hw
      rwa [List.append_nil] at h
    | cons e l =>
      obtain ⟨rfl, -⟩ := List.cons.inj hl
      exact absurd (by simp) (hes ty' a' size')

/-- Traces are put together if `R` survives more events on both sides. -/
theorem AtStores.append {es es' : List Event}
    (hR : ∀ before pre ty a size post after, R pre ty a size post →
      R (before ++ pre) ty a size (post ++ after))
    (h : AtStores R es) (h' : AtStores R es') : AtStores R (es ++ es') := by
  intro pre post ty a size heq
  rcases List.append_eq_append_iff.1 heq with ⟨pre', rfl, hes'⟩ | ⟨post', rfl, hes'⟩
  · have hlocal := hR es pre' ty a size post [] (h' pre' post ty a size hes')
    rwa [List.append_nil] at hlocal
  · cases post' with
    | nil =>
      have hlocal := hR pre [] ty a size post [] (h' [] post ty a size (by simpa using hes'.symm))
      simpa using hlocal
    | cons e post' =>
      obtain ⟨rfl, rfl⟩ := List.cons.inj hes'
      exact hR [] pre ty a size post' es' (h pre post' ty a size rfl)

end AtStores

/-- Only `Ist_Store` makes the event of a store. -/
theorem execStmt_noStore {M : Machine} {tyenv : IRTypeEnv} {st : IRStmt}
    (hst : ∀ endness addr data, st ≠ .store endness addr data) (s : GState) (ty : IRType) (a : Addr)
    (size : Nat) : .write (.store ty) a size ∉ (execStmt M tyenv s st).events := by
  cases st with
  | store endness addr data => exact absurd rfl (hst endness addr data)
  | storeG sg =>
    rw [execStmt]
    split <;> simp [GState.write]
  | cas c =>
    rw [execStmt, execCas]
    split
    · simp only
      split <;> simp [GState.write]
    · simp only
      split <;> simp [GState.write]
  | llsc endness result addr storedata =>
    cases storedata with
    | none => simp [execStmt]
    | some data =>
      simp only [execStmt]
      split <;> simp [GState.write]
  | dirty d =>
    rw [execStmt, execDirty]
    split
    · simp
    · simp only
      split <;> simp
  | exit guard dst jk offsIP =>
    rw [execStmt]
    split <;> simp
  | _ => simp [execStmt]

/-! ## Passes -/

namespace LocalPass

variable {P : LocalPass} {M : Machine} {tyenv : IRTypeEnv}
  {R : List Event → IRType → Addr → Nat → List Event → Prop}

theorem atStores_copy {st : IRStmt} (hst : ∀ endness addr data, st ≠ .store endness addr data)
    {n : Nat} (hexpand : P.expand n st = [st]) (s : GState) :
    AtStores R (execStmts M tyenv (P.expand n st) s).events := by
  rw [hexpand, execStmts_singleton]
  exact atStores_of_noStore (execStmt_noStore hst s)

/-- **What holds at the stores of each replacement holds at all stores of a run.** -/
theorem atStores (hR : ∀ before pre ty a size post after, R pre ty a size post →
      R (before ++ pre) ty a size (post ++ after)) {sts : List IRStmt} {n : Nat}
    (h : ∀ st ∈ sts, ∀ n' s, n ≤ n' → AtStores R (execStmts M tyenv (P.expand n' st) s).events)
    (s : GState) : AtStores R (execStmts M tyenv (P.stmts n sts) s).events := by
  induction sts generalizing n s with
  | nil => exact atStores_of_noStore (by simp [stmts])
  | cons st sts ih =>
    obtain ⟨hhead, htail⟩ := List.forall_mem_cons.1 h
    have hst := hhead n s le_rfl
    rw [stmts]
    cases hexit : (execStmts M tyenv (P.expand n st) s).exit with
    | some x => rwa [execStmts_append_of_exit hexit]
    | none =>
      rw [execStmts_append hexit]
      refine AtStores.append hR hst (ih (fun st' hst' n' s' hn' => ?_) _)
      exact htail st' hst' n' s' ((Nat.le_add_right ..).trans hn')

end LocalPass

/-- Every statement of a sane superblock is accepted where it stands. -/
theorem exists_checkDefsStmt {tyenv : IRTypeEnv} {sts : List IRStmt} {defs : DefCounts}
    {st : IRStmt} (h : (checkDefs tyenv defs sts).isSome) (hst : st ∈ sts) :
    ∃ defs₁ defs₂, checkDefsStmt tyenv defs₁ st = some defs₂ := by
  induction sts generalizing defs with
  | nil => cases hst
  | cons st' sts ih =>
    rw [checkDefs_cons] at h
    cases hhead : checkDefsStmt tyenv defs st' with
    | none =>
      rw [hhead] at h
      cases h
    | some defs₁ =>
      rw [hhead] at h
      rcases List.mem_cons.1 hst with rfl | hmem
      · exact ⟨defs, defs₁, hhead⟩
      · exact ih h hmem

/-- Every statement of a sane superblock uses temporaries that are defined before it. -/
theorem exists_useBeforeDefStmt {tyenv : IRTypeEnv} {sts : List IRStmt} {defs : DefCounts}
    {st : IRStmt} (h : (checkDefs tyenv defs sts).isSome) (hst : st ∈ sts) :
    ∃ defs', useBeforeDefStmt tyenv defs' st := by
  obtain ⟨defs₁, defs₂, hcheck⟩ := exists_checkDefsStmt h hst
  exact ⟨defs₁, useBeforeDefStmt_of_checkDefs hcheck⟩

/-- The operands of a store of a sane superblock. -/
theorem store_of_sane {prim : PrimopTable} {bb : IRSB} {endness : IREndness} {addr data : IRExpr}
    (h : sanityCheckIRSB prim bb) (hst : .store endness addr data ∈ bb.stmts.reduceOption) :
    ReadsBelow bb.tyenv.length addr ∧ ReadsBelow bb.tyenv.length data ∧ isIRAtom data ∧
      ∃ ty, typeOfIRExpr prim bb.tyenv data = some ty := by
  simp only [sanityCheckIRSB, Bool.and_eq_true, List.all_eq_true] at h
  obtain ⟨⟨⟨⟨⟨⟨-, hflat⟩, -⟩, hdefs⟩, -⟩, -⟩, -⟩ := h
  obtain ⟨haddr, hdata⟩ := Bool.and_eq_true_iff.1 (hflat _ hst)
  obtain ⟨defs, huse⟩ := exists_useBeforeDefStmt hdefs hst
  obtain ⟨huseAddr, huseData⟩ := Bool.and_eq_true_iff.1 huse
  exact ⟨readsBelow_of_isIRAtom haddr huseAddr, readsBelow_of_isIRAtom hdata huseData, hdata,
    exists_typeOfIRExpr hdata huseData⟩

end Memlog.Vex
