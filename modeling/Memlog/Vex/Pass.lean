import Mathlib.Data.List.ReduceOption
import Memlog.Vex.Sanity

/-!
# Local passes

A local pass replaces every statement of a superblock by a list of statements, which may use new
temporaries of type `Ity_I64`. `LocalPass.sane` reduces the sanity of the result to a condition on
each statement alone (`LocalPass.SaneAt`); a pass that copies a statement meets it (`saneAt_copy`).
-/

namespace Memlog.Vex

theorem reduceOption_map_some {α : Type} (l : List α) : (l.map some).reduceOption = l := by
  rw [List.reduceOption, List.filterMap_map]
  exact List.filterMap_some

/-! ## Passes -/

/-- For each statement: how many new temporaries it takes, and what replaces it when they are
numbered from `n` on. -/
structure LocalPass where
  temps : IRStmt → Nat
  expand : IRTemp → IRStmt → List IRStmt

namespace LocalPass

variable (P : LocalPass)

def numTemps (sts : List IRStmt) : Nat := (sts.map P.temps).sum

/-- The new statements, with temporaries from `n` on. -/
def stmts : IRTemp → List IRStmt → List IRStmt
  | _, [] => []
  | n, st :: sts => P.expand n st ++ stmts (n + P.temps st) sts

def run (bb : IRSB) : IRSB :=
  { bb with
    tyenv := bb.tyenv ++ List.replicate (P.numTemps bb.stmts.reduceOption) .i64
    stmts := (P.stmts bb.tyenv.length bb.stmts.reduceOption).map some }

theorem numTemps_cons (st : IRStmt) (sts : List IRStmt) :
    P.numTemps (st :: sts) = P.temps st + P.numTemps sts := by
  rw [numTemps, List.map_cons, List.sum_cons]
  rfl

theorem stmts_append (n : IRTemp) (sts sts' : List IRStmt) :
    P.stmts n (sts ++ sts') = P.stmts n sts ++ P.stmts (n + P.numTemps sts) sts' := by
  induction sts generalizing n with
  | nil => rfl
  | cons st sts ih =>
    rw [List.cons_append, stmts, stmts, ih, numTemps_cons, List.append_assoc, Nat.add_assoc]

/-- Adding what replaces a statement to a superblock under construction. -/
def add (out : IRSB) (st : IRStmt) : IRSB :=
  { out with
    tyenv := out.tyenv ++ List.replicate (P.temps st) .i64
    stmts := out.stmts ++ (P.expand out.tyenv.length st).map some }

theorem foldl_add (sts : List IRStmt) (out : IRSB) :
    sts.foldl P.add out =
      { out with
        tyenv := out.tyenv ++ List.replicate (P.numTemps sts) .i64
        stmts := out.stmts ++ (P.stmts out.tyenv.length sts).map some } := by
  induction sts generalizing out with
  | nil => simp [numTemps, stmts]
  | cons st sts ih =>
    rw [List.foldl_cons, ih]
    simp only [add, stmts, numTemps_cons, List.length_append, List.length_replicate,
      List.map_append, List.append_assoc, List.replicate_append_replicate]

/-- A loop over the statements that skips `NULL` and otherwise adds what replaces the statement. -/
theorem foldl_eq_run {f : IRSB → Option IRStmt → IRSB} (hnone : ∀ out, f out none = out)
    (hsome : ∀ out st, f out (some st) = P.add out st) (bb : IRSB) :
    bb.stmts.foldl f (deepCopyIRSBExceptStmts bb) = P.run bb := by
  have hfold : ∀ (sts : List (Option IRStmt)) out,
      sts.foldl f out = sts.reduceOption.foldl P.add out := by
    intro sts
    induction sts with
    | nil => exact fun out => rfl
    | cons st sts ih =>
      intro out
      cases st with
      | none => rw [List.foldl_cons, hnone, ih, List.reduceOption_cons_of_none]
      | some st => rw [List.foldl_cons, hsome, ih, List.reduceOption_cons_of_some, List.foldl_cons]
  rw [hfold, foldl_add]
  rfl

theorem reduceOption_run (bb : IRSB) :
    (P.run bb).stmts.reduceOption = P.stmts bb.tyenv.length bb.stmts.reduceOption := by
  exact reduceOption_map_some _

end LocalPass

/-! ## More temporaries -/

section Weaken

variable {prim : PrimopTable} {tyenv tyenv' ext : IRTypeEnv} {defs defs' : DefCounts}

/-- Every temporary that may be used on the left may be used on the right. -/
def UseMono (tyenv tyenv' : IRTypeEnv) (defs defs' : DefCounts) : Prop :=
  ∀ tmp, useBeforeDefTemp tyenv defs tmp → useBeforeDefTemp tyenv' defs' tmp

mutual

theorem useBeforeDefExpr_mono (h : UseMono tyenv tyenv' defs defs') :
    ∀ e, useBeforeDefExpr tyenv defs e → useBeforeDefExpr tyenv' defs' e
  | .get _ _, _ => rfl
  | .getI _ ix _, he => useBeforeDefExpr_mono h ix he
  | .rdTmp tmp, he => h tmp he
  | .qop _ arg1 arg2 arg3 arg4, he => by
    simp only [useBeforeDefExpr, Bool.and_eq_true] at he ⊢
    obtain ⟨⟨⟨h₁, h₂⟩, h₃⟩, h₄⟩ := he
    exact ⟨⟨⟨useBeforeDefExpr_mono h arg1 h₁, useBeforeDefExpr_mono h arg2 h₂⟩,
      useBeforeDefExpr_mono h arg3 h₃⟩, useBeforeDefExpr_mono h arg4 h₄⟩
  | .triop _ arg1 arg2 arg3, he => by
    simp only [useBeforeDefExpr, Bool.and_eq_true] at he ⊢
    obtain ⟨⟨h₁, h₂⟩, h₃⟩ := he
    exact ⟨⟨useBeforeDefExpr_mono h arg1 h₁, useBeforeDefExpr_mono h arg2 h₂⟩,
      useBeforeDefExpr_mono h arg3 h₃⟩
  | .binop _ arg1 arg2, he => by
    simp only [useBeforeDefExpr, Bool.and_eq_true] at he ⊢
    exact ⟨useBeforeDefExpr_mono h arg1 he.1, useBeforeDefExpr_mono h arg2 he.2⟩
  | .unop _ arg, he => useBeforeDefExpr_mono h arg he
  | .load _ _ addr, he => useBeforeDefExpr_mono h addr he
  | .const _, _ => rfl
  | .ccall _ _ args, he => useBeforeDefArgs_mono h args he
  | .ite cond iftrue iffalse, he => by
    simp only [useBeforeDefExpr, Bool.and_eq_true] at he ⊢
    obtain ⟨⟨h₁, h₂⟩, h₃⟩ := he
    exact ⟨⟨useBeforeDefExpr_mono h cond h₁, useBeforeDefExpr_mono h iftrue h₂⟩,
      useBeforeDefExpr_mono h iffalse h₃⟩

theorem useBeforeDefArgs_mono (h : UseMono tyenv tyenv' defs defs') :
    ∀ args, useBeforeDefArgs tyenv defs args → useBeforeDefArgs tyenv' defs' args
  | [], _ => rfl
  | arg :: args, he => by
    simp only [useBeforeDefArgs, Bool.and_eq_true] at he ⊢
    obtain ⟨⟨h₁, h₂⟩, h₃⟩ := he
    exact ⟨⟨h₁, useBeforeDefExpr_mono h arg h₂⟩, useBeforeDefArgs_mono h args h₃⟩

end

theorem useBeforeDefStmt_mono (h : UseMono tyenv tyenv' defs defs') (st : IRStmt)
    (hst : useBeforeDefStmt tyenv defs st) : useBeforeDefStmt tyenv' defs' st := by
  have he := useBeforeDefExpr_mono h
  have hopt : ∀ o : Option IRExpr, o.all (useBeforeDefExpr tyenv defs) →
      o.all (useBeforeDefExpr tyenv' defs') := by
    intro o ho
    cases o with
    | none => rfl
    | some e => exact he e ho
  cases st with
  | noOp => rfl
  | iMark addr len delta => rfl
  | mbe event => rfl
  | put offset data => exact he data hst
  | wrTmp tmp data => exact he data hst
  | exit guard dst jk offsIP => exact he guard hst
  | abiHint base len nia =>
    simp only [useBeforeDefStmt, Bool.and_eq_true] at hst ⊢
    exact ⟨he base hst.1, he nia hst.2⟩
  | putI puti =>
    simp only [useBeforeDefStmt, Bool.and_eq_true] at hst ⊢
    exact ⟨he puti.ix hst.1, he puti.data hst.2⟩
  | store endness addr data =>
    simp only [useBeforeDefStmt, Bool.and_eq_true] at hst ⊢
    exact ⟨he addr hst.1, he data hst.2⟩
  | storeG sg =>
    simp only [useBeforeDefStmt, Bool.and_eq_true] at hst ⊢
    exact ⟨⟨he sg.addr hst.1.1, he sg.data hst.1.2⟩, he sg.guard hst.2⟩
  | loadG lg =>
    simp only [useBeforeDefStmt, Bool.and_eq_true] at hst ⊢
    exact ⟨⟨he lg.addr hst.1.1, he lg.alt hst.1.2⟩, he lg.guard hst.2⟩
  | cas c =>
    simp only [useBeforeDefStmt, Bool.and_eq_true] at hst ⊢
    obtain ⟨⟨⟨⟨haddr, hexpdHi⟩, hexpdLo⟩, hdataHi⟩, hdataLo⟩ := hst
    exact ⟨⟨⟨⟨he c.addr haddr, hopt c.expdHi hexpdHi⟩, he c.expdLo hexpdLo⟩,
      hopt c.dataHi hdataHi⟩, he c.dataLo hdataLo⟩
  | llsc endness result addr storedata =>
    simp only [useBeforeDefStmt, Bool.and_eq_true] at hst ⊢
    exact ⟨he addr hst.1, hopt storedata hst.2⟩
  | dirty d =>
    simp only [useBeforeDefStmt, Bool.and_eq_true, List.all_eq_true, Bool.or_eq_true] at hst ⊢
    refine ⟨fun arg harg => (hst.1 arg harg).imp_right (he arg), hst.2.imp_right fun hm => ?_⟩
    cases hmAddr : d.mAddr with
    | none =>
      rw [hmAddr] at hm
      cases hm
    | some e =>
      rw [hmAddr] at hm
      exact he e hm

/-- The type of a temporary in scope does not depend on later ones. -/
theorem typeOfIRTemp_append {tmp : IRTemp} (h : tmp < tyenv.length) :
    typeOfIRTemp (tyenv ++ ext) tmp = typeOfIRTemp tyenv tmp := List.getElem?_append_left h

theorem useBeforeDefTemp_lt {tmp : IRTemp} (h : useBeforeDefTemp tyenv defs tmp) :
    tmp < tyenv.length := by
  simp only [useBeforeDefTemp, Bool.and_eq_true, decide_eq_true_eq] at h
  exact h.1

theorem typeOfIRExpr_append : ∀ e, useBeforeDefExpr tyenv defs e →
    typeOfIRExpr prim (tyenv ++ ext) e = typeOfIRExpr prim tyenv e
  | .rdTmp tmp, he => typeOfIRTemp_append (useBeforeDefTemp_lt he)
  | .ite cond iftrue iffalse, he => by
    simp only [useBeforeDefExpr, Bool.and_eq_true] at he
    exact typeOfIRExpr_append iffalse he.2
  | .get _ _, _ | .getI _ _ _, _ | .qop _ _ _ _ _, _ | .triop _ _ _ _, _ | .binop _ _ _, _
  | .unop _ _, _ | .load _ _ _, _ | .const _, _ | .ccall _ _ _, _ => rfl

mutual

theorem tcExpr_append : ∀ e, useBeforeDefExpr tyenv defs e →
    tcExpr prim (tyenv ++ ext) e = tcExpr prim tyenv e
  | .get _ _, _ => rfl
  | .rdTmp _, _ => rfl
  | .const _, _ => rfl
  | .getI descr ix bias, he => by
    rw [tcExpr, tcExpr, tcExpr_append ix he, typeOfIRExpr_append ix he]
  | .qop op arg1 arg2 arg3 arg4, he => by
    simp only [useBeforeDefExpr, Bool.and_eq_true] at he
    obtain ⟨⟨⟨h₁, h₂⟩, h₃⟩, h₄⟩ := he
    simp only [tcExpr, opTakes, List.map_cons, List.map_nil, tcExpr_append arg1 h₁,
      tcExpr_append arg2 h₂, tcExpr_append arg3 h₃, tcExpr_append arg4 h₄,
      typeOfIRExpr_append arg1 h₁, typeOfIRExpr_append arg2 h₂, typeOfIRExpr_append arg3 h₃,
      typeOfIRExpr_append arg4 h₄]
  | .triop op arg1 arg2 arg3, he => by
    simp only [useBeforeDefExpr, Bool.and_eq_true] at he
    obtain ⟨⟨h₁, h₂⟩, h₃⟩ := he
    simp only [tcExpr, opTakes, List.map_cons, List.map_nil, tcExpr_append arg1 h₁,
      tcExpr_append arg2 h₂, tcExpr_append arg3 h₃, typeOfIRExpr_append arg1 h₁,
      typeOfIRExpr_append arg2 h₂, typeOfIRExpr_append arg3 h₃]
  | .binop op arg1 arg2, he => by
    simp only [useBeforeDefExpr, Bool.and_eq_true] at he
    simp only [tcExpr, opTakes, List.map_cons, List.map_nil, tcExpr_append arg1 he.1,
      tcExpr_append arg2 he.2, typeOfIRExpr_append arg1 he.1, typeOfIRExpr_append arg2 he.2]
  | .unop op arg, he => by
    simp only [tcExpr, opTakes, List.map_cons, List.map_nil, tcExpr_append arg he,
      typeOfIRExpr_append arg he]
  | .load endness ty addr, he => by
    rw [tcExpr, tcExpr, tcExpr_append addr he, typeOfIRExpr_append addr he]
  | .ccall cee retty args, he => by
    rw [tcExpr, tcExpr, tcArgs_append args he]
  | .ite cond iftrue iffalse, he => by
    simp only [useBeforeDefExpr, Bool.and_eq_true] at he
    obtain ⟨⟨h₁, h₂⟩, h₃⟩ := he
    simp only [tcExpr, tcExpr_append cond h₁, tcExpr_append iftrue h₂, tcExpr_append iffalse h₃,
      typeOfIRExpr_append cond h₁, typeOfIRExpr_append iftrue h₂, typeOfIRExpr_append iffalse h₃]

theorem tcArgs_append : ∀ args, useBeforeDefArgs tyenv defs args →
    tcArgs prim (tyenv ++ ext) args = tcArgs prim tyenv args
  | [], _ => rfl
  | arg :: args, he => by
    simp only [useBeforeDefArgs, Bool.and_eq_true] at he
    obtain ⟨⟨-, h₂⟩, h₃⟩ := he
    rw [tcArgs, tcArgs, tcExpr_append arg h₂, typeOfIRExpr_append arg h₂, tcArgs_append args h₃]

end

theorem tcExpr_atom {e : IRExpr} (h : isIRAtom e) : tcExpr prim tyenv e := by
  cases e with
  | rdTmp tmp => rfl
  | const con => rfl
  | _ => cases h

/-- The type of an atom is kept when temporaries are added. -/
theorem typeOfAtom_append {e : IRExpr} {ty : IRType} (h : isIRAtom e)
    (hty : typeOfIRExpr prim tyenv e = some ty) : typeOfIRExpr prim (tyenv ++ ext) e = some ty := by
  cases e with
  | rdTmp tmp =>
    have hlt : tmp < tyenv.length := (List.getElem?_eq_some_iff.1 hty).1
    exact (typeOfIRTemp_append hlt).trans hty
  | const con => exact hty
  | _ => cases h

theorem tcDirtyArgs_append {wide : Bool} {nVECRETs nGSPTRs : Nat} {args : List IRExpr}
    (h : ∀ arg ∈ args, isIRExprVECRETorGSPTR arg ∨ useBeforeDefExpr tyenv defs arg) :
    tcDirtyArgs prim (tyenv ++ ext) wide nVECRETs nGSPTRs args =
      tcDirtyArgs prim tyenv wide nVECRETs nGSPTRs args := by
  induction args generalizing nVECRETs nGSPTRs with
  | nil => rfl
  | cons arg args ih =>
    have hty : isIRExprVECRETorGSPTR arg = false ∧
          typeOfIRExpr prim (tyenv ++ ext) arg = some .i1 ↔
        isIRExprVECRETorGSPTR arg = false ∧ typeOfIRExpr prim tyenv arg = some .i1 := by
      rcases h arg (by simp) with hv | hdef
      · rw [hv]
        simp only [Bool.true_eq_false, false_and]
      · rw [typeOfIRExpr_append arg hdef]
    simp only [tcDirtyArgs, hty, ih fun arg harg => h arg (by simp [harg])]

/-- A statement stays well-typed when temporaries are added. -/
theorem tcStmt_append {st : IRStmt} (hflat : isFlatIRStmt st)
    (huse : useBeforeDefStmt tyenv defs st) (hassign : ∀ tmp ∈ assignedTemps st, tmp < tyenv.length)
    (htc : tcStmt prim tyenv st) :
    tcStmt prim (tyenv ++ ext) st := by
  have hty : ∀ {e}, useBeforeDefExpr tyenv defs e →
      typeOfIRExpr prim (tyenv ++ ext) e = typeOfIRExpr prim tyenv e := typeOfIRExpr_append _
  have hexpr : ∀ {e}, useBeforeDefExpr tyenv defs e →
      tcExpr prim (tyenv ++ ext) e = tcExpr prim tyenv e := tcExpr_append _
  have htmp : ∀ {tmp}, tmp ∈ assignedTemps st →
      typeOfIRTemp (tyenv ++ ext) tmp = typeOfIRTemp tyenv tmp :=
    fun h => typeOfIRTemp_append (hassign _ h)
  have hopt : ∀ {o : Option IRExpr}, o.all (useBeforeDefExpr tyenv defs) →
      o.bind (typeOfIRExpr prim (tyenv ++ ext)) = o.bind (typeOfIRExpr prim tyenv) := by
    intro o ho
    cases o with
    | none => rfl
    | some e => exact hty ho
  cases st with
  | noOp => exact htc
  | iMark addr len delta => exact htc
  | mbe event => exact htc
  | abiHint base len nia =>
    simp only [useBeforeDefStmt, Bool.and_eq_true] at huse
    rwa [tcStmt, hty huse.1, hty huse.2]
  | put offset data => rwa [tcStmt, hexpr huse, hty huse]
  | putI puti =>
    simp only [useBeforeDefStmt, Bool.and_eq_true] at huse
    rwa [tcStmt, hexpr huse.1, hexpr huse.2, hty huse.1, hty huse.2]
  | wrTmp tmp data => rwa [tcStmt, hexpr huse, hty huse, htmp (by simp [assignedTemps])]
  | store endness addr data =>
    simp only [useBeforeDefStmt, Bool.and_eq_true] at huse
    rwa [tcStmt, hexpr huse.1, hexpr huse.2, hty huse.1, hty huse.2]
  | storeG sg =>
    simp only [useBeforeDefStmt, Bool.and_eq_true] at huse
    rwa [tcStmt, hexpr huse.1.1, hexpr huse.1.2, hexpr huse.2, hty huse.1.1, hty huse.1.2,
      hty huse.2]
  | loadG lg =>
    simp only [useBeforeDefStmt, Bool.and_eq_true] at huse
    rwa [tcStmt, hexpr huse.1.1, hexpr huse.1.2, hexpr huse.2, hty huse.1.1, hty huse.1.2,
      hty huse.2, htmp (by simp [assignedTemps])]
  | cas c =>
    simp only [useBeforeDefStmt, Bool.and_eq_true] at huse
    obtain ⟨⟨⟨⟨haddr, hexpdHi⟩, hexpdLo⟩, hdataHi⟩, hdataLo⟩ := huse
    rw [tcStmt, tcCas] at htc ⊢
    have holdLo : c.oldLo ∈ assignedTemps (.cas c) := by simp [assignedTemps]
    simp only [hexpr haddr, hty haddr, hty hexpdLo, hty hdataLo, hopt hexpdHi, hopt hdataHi,
      htmp holdLo]
    cases hold : c.oldHi with
    | none => rwa [hold] at htc
    | some oldHi =>
      have holdHi : oldHi ∈ assignedTemps (.cas c) := by simp [assignedTemps, hold]
      rw [hold] at htc
      simp only [Option.all_some, htmp holdHi]
      exact htc
  | llsc endness result addr storedata =>
    simp only [useBeforeDefStmt, Bool.and_eq_true] at huse
    cases storedata with
    | none => rwa [tcStmt, hty huse.1, htmp (by simp [assignedTemps])]
    | some data => rwa [tcStmt, hty huse.1, htmp (by simp [assignedTemps]), hty huse.2]
  | dirty d =>
    simp only [useBeforeDefStmt, Bool.and_eq_true, List.all_eq_true, Bool.or_eq_true] at huse
    simp only [isFlatIRStmt, Bool.and_eq_true] at hflat
    have hret : d.tmp.bind (typeOfIRTemp (tyenv ++ ext)) = d.tmp.bind (typeOfIRTemp tyenv) := by
      cases hd : d.tmp with
      | none => rfl
      | some tmp => exact htmp (by simp [assignedTemps, hd])
    simp only [tcStmt, tcDirty, Bool.and_eq_true, decide_eq_true_eq] at htc ⊢
    rw [hret, tcDirtyArgs_append huse.1]
    obtain ⟨⟨⟨⟨⟨hcee, hguard⟩, hguardTy⟩, hret⟩, hlen⟩, hargs⟩ := htc
    exact ⟨⟨⟨⟨⟨hcee, tcExpr_atom hflat.1.1⟩, typeOfAtom_append hflat.1.1 hguardTy⟩, hret⟩, hlen⟩,
      hargs⟩
  | exit guard dst jk offsIP => rwa [tcStmt, hexpr huse, hty huse]

end Weaken

/-! ## Counting definitions -/

section Counts

variable {tyenv ext : IRTypeEnv} {n k : Nat} {defs defs' out : DefCounts}

theorem checkDefs_cons (defs : DefCounts) (st : IRStmt) (sts : List IRStmt) :
    checkDefs tyenv defs (st :: sts) =
      (checkDefsStmt tyenv defs st).bind fun defs => checkDefs tyenv defs sts :=
  List.foldlM_cons ..

theorem checkDefs_append (defs : DefCounts) (sts sts' : List IRStmt) :
    checkDefs tyenv defs (sts ++ sts') =
      (checkDefs tyenv defs sts).bind fun defs => checkDefs tyenv defs sts' :=
  List.foldlM_append ..

/-- The counts of a superblock (`defs`) and of the result of a pass (`out`): they agree on the `k`
temporaries of the superblock, and those from `n` on are still free. -/
structure Agrees (k n : Nat) (defs out : DefCounts) : Prop where
  old : ∀ tmp < k, out tmp = defs tmp
  free : ∀ tmp, n ≤ tmp → out tmp = 0

theorem Agrees.mono {n' : Nat} (h : Agrees k n defs out) (hn : n ≤ n') : Agrees k n' defs out :=
  ⟨h.old, fun tmp htmp => h.free tmp (hn.trans htmp)⟩

theorem Agrees.useMono (h : Agrees tyenv.length n defs out) :
    UseMono tyenv (tyenv ++ ext) defs out := by
  intro tmp htmp
  simp only [useBeforeDefTemp, Bool.and_eq_true, decide_eq_true_eq] at htmp ⊢
  refine ⟨?_, ?_⟩
  · rw [List.length_append]
    exact Nat.lt_add_right _ htmp.1
  · rw [h.old tmp htmp.1]
    exact htmp.2

/-- A new temporary is assigned. -/
theorem Agrees.assign (h : Agrees k n defs out) (hk : k ≤ n) :
    Agrees k (n + 1) defs (Function.update out n 1) := by
  refine ⟨fun tmp htmp => ?_, fun tmp htmp => ?_⟩
  · rw [Function.update_of_ne (Nat.ne_of_lt (htmp.trans_le hk))]
    exact h.old tmp htmp
  · rw [Function.update_of_ne (Nat.ne_of_gt htmp)]
    exact h.free tmp (Nat.le_of_succ_le htmp)

theorem assignedOnceTemp_eq_some {tmp : IRTemp} :
    assignedOnceTemp tyenv defs tmp = some defs' ↔
      tmp < tyenv.length ∧ defs tmp = 0 ∧ defs' = Function.update defs tmp 1 := by
  rw [assignedOnceTemp]
  split
  · rename_i hle
    simp only [reduceCtorEq, false_iff]
    exact fun h => Nat.not_lt.2 hle h.1
  · rename_i hlt
    split
    · simp only [reduceCtorEq, false_iff]
      omega
    · have hzero : defs tmp = 0 := by omega
      rw [Option.some.injEq, hzero]
      constructor
      · rintro rfl
        exact ⟨Nat.not_le.1 hlt, rfl, rfl⟩
      · rintro ⟨-, -, rfl⟩
        rfl

/-- An assignment of the superblock is accepted after the pass too. -/
theorem assignedOnceTemp_copy {tmp : IRTemp} (hk : tyenv.length ≤ n)
    (hag : Agrees tyenv.length n defs out) (h : assignedOnceTemp tyenv defs tmp = some defs') :
    ∃ out', (∀ ext, assignedOnceTemp (tyenv ++ ext) out tmp = some out') ∧
      Agrees tyenv.length n defs' out' := by
  obtain ⟨hlt, hzero, rfl⟩ := assignedOnceTemp_eq_some.1 h
  refine ⟨_, fun ext => assignedOnceTemp_eq_some.2 ⟨?_, (hag.old tmp hlt).trans hzero, rfl⟩, ?_, ?_⟩
  · rw [List.length_append]
    exact Nat.lt_add_right _ hlt
  · intro tmp' htmp'
    by_cases heq : tmp' = tmp
    · rw [heq, Function.update_self, Function.update_self]
    · rw [Function.update_of_ne heq, Function.update_of_ne heq, hag.old tmp' htmp']
  · intro tmp' htmp'
    rw [Function.update_of_ne (Nat.ne_of_gt (hlt.trans_le (hk.trans htmp')))]
    exact hag.free tmp' htmp'

theorem assignedOnceTemps_copy {tmps : List IRTemp} (hk : tyenv.length ≤ n)
    (hag : Agrees tyenv.length n defs out)
    (h : tmps.foldlM (assignedOnceTemp tyenv) defs = some defs') :
    (∀ tmp ∈ tmps, tmp < tyenv.length) ∧
      ∀ ext, ∃ out', tmps.foldlM (assignedOnceTemp (tyenv ++ ext)) out = some out' ∧
        Agrees tyenv.length n defs' out' := by
  induction tmps generalizing defs out with
  | nil =>
    cases h
    exact ⟨by simp, fun ext => ⟨out, rfl, hag⟩⟩
  | cons tmp tmps ih =>
    rw [List.foldlM_cons] at h
    obtain ⟨defs₁, hhead, htail⟩ := Option.bind_eq_some_iff.1 h
    obtain ⟨out₁, hout₁, hag₁⟩ := assignedOnceTemp_copy hk hag hhead
    obtain ⟨hlt, hcopy⟩ := ih hag₁ htail
    refine ⟨List.forall_mem_cons.2 ⟨(assignedOnceTemp_eq_some.1 hhead).1, hlt⟩, fun ext => ?_⟩
    obtain ⟨out₂, hout₂, hag₂⟩ := hcopy ext
    refine ⟨out₂, ?_, hag₂⟩
    rw [List.foldlM_cons, hout₁ ext]
    exact hout₂

theorem useBeforeDefStmt_of_checkDefs {st : IRStmt} (h : checkDefsStmt tyenv defs st = some defs') :
    useBeforeDefStmt tyenv defs st := by
  rw [checkDefsStmt] at h
  split at h
  · assumption
  · cases h

/-- A statement of the superblock is accepted after the pass too. -/
theorem checkDefsStmt_copy {st : IRStmt} (hk : tyenv.length ≤ n)
    (hag : Agrees tyenv.length n defs out) (h : checkDefsStmt tyenv defs st = some defs') :
    useBeforeDefStmt tyenv defs st ∧ (∀ tmp ∈ assignedTemps st, tmp < tyenv.length) ∧
      ∀ ext, ∃ out', checkDefsStmt (tyenv ++ ext) out st = some out' ∧
        Agrees tyenv.length n defs' out' := by
  have huse := useBeforeDefStmt_of_checkDefs h
  rw [checkDefsStmt, if_pos huse] at h
  obtain ⟨hlt, hcopy⟩ := assignedOnceTemps_copy hk hag h
  refine ⟨huse, hlt, fun ext => ?_⟩
  obtain ⟨out', hout', hag'⟩ := hcopy ext
  refine ⟨out', ?_, hag'⟩
  rw [checkDefsStmt, if_pos (useBeforeDefStmt_mono hag.useMono st huse)]
  exact hout'

/-- The assignment of a free temporary is accepted. -/
theorem checkDefsStmt_wrTmp {tmp : IRTemp} {e : IRExpr} (huse : useBeforeDefExpr tyenv out e)
    (hlt : tmp < tyenv.length) (hzero : out tmp = 0) :
    checkDefsStmt tyenv out (.wrTmp tmp e) = some (Function.update out tmp 1) := by
  have hassign : assignedOnceTemp tyenv out tmp = some (Function.update out tmp 1) :=
    assignedOnceTemp_eq_some.2 ⟨hlt, hzero, rfl⟩
  rw [checkDefsStmt, useBeforeDefStmt, if_pos huse, assignedOnceStmt, assignedTemps,
    List.foldlM_cons, hassign]
  rfl

end Counts

/-! ## Sane passes -/

namespace LocalPass

variable (P : LocalPass) (prim : PrimopTable) (tyenv : IRTypeEnv)

/-- What replaces a sane statement is sane, wherever its temporaries are numbered from. -/
def SaneAt (st : IRStmt) : Prop :=
  ∀ (ext : IRTypeEnv) (n : Nat) (defs defs' out : DefCounts), tyenv.length ≤ n →
    (∀ i < P.temps st, typeOfIRTemp (tyenv ++ ext) (n + i) = some .i64) →
    Agrees tyenv.length n defs out → isFlatIRStmt st → tcStmt prim tyenv st →
    checkDefsStmt tyenv defs st = some defs' →
    (∀ st' ∈ P.expand n st, isFlatIRStmt st' ∧ tcStmt prim (tyenv ++ ext) st') ∧
      ∃ out', checkDefs (tyenv ++ ext) out (P.expand n st) = some out' ∧
        Agrees tyenv.length (n + P.temps st) defs' out'

variable {P prim tyenv}

theorem saneAt_copy {st : IRStmt} (hexpand : ∀ n, P.expand n st = [st]) :
    P.SaneAt prim tyenv st := by
  intro ext n defs defs' out hk _ hag hflat htc hdefs
  obtain ⟨huse, hlt, hcopy⟩ := checkDefsStmt_copy hk hag hdefs
  obtain ⟨out', hout', hag'⟩ := hcopy ext
  rw [hexpand]
  refine ⟨fun st' hst' => ?_, out', ?_, hag'.mono (Nat.le_add_right ..)⟩
  · obtain rfl := List.mem_singleton.1 hst'
    exact ⟨hflat, tcStmt_append hflat huse hlt htc⟩
  · rw [checkDefs_cons, hout']
    rfl

/-- The run lemma of `sane`: along the statements, the counts go on agreeing. -/
theorem sane_stmts {ext : IRTypeEnv} {sts : List IRStmt} {n : Nat} {defs out : DefCounts}
    (hat : ∀ st ∈ sts, P.SaneAt prim tyenv st) (hk : tyenv.length ≤ n)
    (htys : ∀ i < P.numTemps sts, typeOfIRTemp (tyenv ++ ext) (n + i) = some .i64)
    (hag : Agrees tyenv.length n defs out) (hflat : ∀ st ∈ sts, isFlatIRStmt st)
    (htc : ∀ st ∈ sts, tcStmt prim tyenv st) (hdefs : (checkDefs tyenv defs sts).isSome) :
    (∀ st' ∈ P.stmts n sts, isFlatIRStmt st' ∧ tcStmt prim (tyenv ++ ext) st') ∧
      (checkDefs (tyenv ++ ext) out (P.stmts n sts)).isSome := by
  induction sts generalizing n defs out with
  | nil => exact ⟨by simp [stmts], rfl⟩
  | cons st sts ih =>
    rw [checkDefs_cons] at hdefs
    cases hst : checkDefsStmt tyenv defs st with
    | none =>
      rw [hst] at hdefs
      cases hdefs
    | some defs₁ =>
      rw [hst] at hdefs
      rw [numTemps_cons] at htys
      obtain ⟨hat₁, hat₂⟩ := List.forall_mem_cons.1 hat
      obtain ⟨hflat₁, hflat₂⟩ := List.forall_mem_cons.1 hflat
      obtain ⟨htc₁, htc₂⟩ := List.forall_mem_cons.1 htc
      obtain ⟨hhead, out₁, hout₁, hag₁⟩ :=
        hat₁ ext n defs defs₁ out hk (fun i hi => htys i (by omega)) hag hflat₁ htc₁ hst
      have htys₂ : ∀ i < P.numTemps sts,
          typeOfIRTemp (tyenv ++ ext) (n + P.temps st + i) = some .i64 := by
        intro i hi
        rw [Nat.add_assoc]
        exact htys (P.temps st + i) (by omega)
      obtain ⟨htail, hout₂⟩ := ih hat₂ (by omega) htys₂ hag₁ hflat₂ htc₂ hdefs
      rw [stmts]
      refine ⟨fun st' hst' => ?_, ?_⟩
      · rcases List.mem_append.1 hst' with h | h
        · exact hhead st' h
        · exact htail st' h
      · rw [checkDefs_append, hout₁]
        exact hout₂

/-- **A pass that keeps every statement sane keeps the superblock sane.** -/
theorem sane {bb : IRSB} (h : sanityCheckIRSB prim bb)
    (hat : ∀ st ∈ bb.stmts.reduceOption, P.SaneAt prim bb.tyenv st) :
    sanityCheckIRSB prim (P.run bb) := by
  simp only [sanityCheckIRSB, Bool.and_eq_true, List.all_eq_true, decide_eq_true_eq] at h
  obtain ⟨⟨⟨⟨⟨⟨-, hflat⟩, hnext⟩, hdefs⟩, htc⟩, hty⟩, hoffs⟩ := h
  have htys : ∀ i < P.numTemps bb.stmts.reduceOption,
      typeOfIRTemp (P.run bb).tyenv (bb.tyenv.length + i) = some .i64 := by
    intro i hi
    rw [typeOfIRTemp, run, List.getElem?_append_right (by omega), List.getElem?_replicate,
      if_pos (by omega)]
  obtain ⟨hstmts, hcounts⟩ :=
    sane_stmts hat le_rfl htys ⟨fun _ _ => rfl, fun _ _ => rfl⟩ hflat htc hdefs
  simp only [sanityCheckIRSB, Bool.and_eq_true, List.all_eq_true, decide_eq_true_eq,
    reduceOption_run]
  refine ⟨⟨⟨⟨⟨⟨?_, fun st hst => (hstmts st hst).1⟩, hnext⟩, hcounts⟩,
    fun st hst => (hstmts st hst).2⟩, typeOfAtom_append hnext hty⟩, hoffs⟩
  intro o ho
  obtain ⟨st, -, rfl⟩ := List.mem_map.1 ho
  rfl

/-- Where a statement of the superblock has gone. -/
theorem mem_stmts {st : IRStmt} {sts : List IRStmt} (h : st ∈ sts) (n : Nat) :
    ∃ n', P.expand n' st ⊆ P.stmts n sts := by
  induction sts generalizing n with
  | nil => cases h
  | cons st' sts ih =>
    rw [stmts]
    rcases List.mem_cons.1 h with rfl | hmem
    · exact ⟨n, List.subset_append_left ..⟩
    · obtain ⟨n', hn'⟩ := ih hmem (n + P.temps st')
      exact ⟨n', List.Subset.trans hn' (List.subset_append_right ..)⟩

end LocalPass

end Memlog.Vex
