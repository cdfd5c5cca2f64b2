import Memlog.Vex.Trace

/-!
# Superblocks whose temporaries are declared

An expression is in scope below `n` if all temporaries in it are. Running a statement that is in
scope gives the same in two states that agree on these temporaries, on guest state and on memory,
also when the type environment has grown (`execStmt_agree`). A local pass whose replacements do what
the statements do therefore gives a superblock that does what the superblock does
(`LocalPass.simulates`).
-/

namespace Memlog.Vex

/-! ## Scope -/

mutual

/-- All temporaries of the expression are below `n`. -/
def inScope (n : Nat) : IRExpr → Bool
  | .rdTmp tmp => decide (tmp < n)
  | .getI _ ix _ => inScope n ix
  | .qop _ arg1 arg2 arg3 arg4 =>
    inScope n arg1 && inScope n arg2 && inScope n arg3 && inScope n arg4
  | .triop _ arg1 arg2 arg3 => inScope n arg1 && inScope n arg2 && inScope n arg3
  | .binop _ arg1 arg2 => inScope n arg1 && inScope n arg2
  | .unop _ arg => inScope n arg
  | .load _ _ addr => inScope n addr
  | .ccall _ _ args => argsInScope n args
  | .ite cond iftrue iffalse => inScope n cond && inScope n iftrue && inScope n iffalse
  | .binder _ | .get _ _ | .const _ | .vecret | .gsptr => true

def argsInScope (n : Nat) : List IRExpr → Bool
  | [] => true
  | arg :: args => inScope n arg && argsInScope n args

end

/-- The expressions of a statement. -/
def exprsOf : IRStmt → List IRExpr
  | .noOp | .iMark _ _ _ | .mbe _ => []
  | .abiHint base _ nia => [base, nia]
  | .put _ data => [data]
  | .putI puti => [puti.ix, puti.data]
  | .wrTmp _ data => [data]
  | .store _ addr data => [addr, data]
  | .loadG lg => [lg.addr, lg.alt, lg.guard]
  | .storeG sg => [sg.addr, sg.data, sg.guard]
  | .cas c => [c.addr, c.expdLo, c.dataLo] ++ c.expdHi.toList ++ c.dataHi.toList
  | .llsc _ _ addr storedata => addr :: storedata.toList
  | .dirty d => d.guard :: d.args ++ d.mAddr.toList
  | .exit guard _ _ _ => [guard]

def stmtInScope (n : Nat) (st : IRStmt) : Bool :=
  (exprsOf st).all (inScope n) && (assignedTemps st).all fun tmp => decide (tmp < n)

theorem inScope_of_store {n : Nat} {endness : IREndness} {addr data : IRExpr}
    (h : stmtInScope n (.store endness addr data)) : inScope n addr ∧ inScope n data := by
  have hexprs := List.all_eq_true.1 (Bool.and_eq_true_iff.1 h).1
  exact ⟨hexprs addr (by simp [exprsOf]), hexprs data (by simp [exprsOf])⟩

/-- Every temporary of the superblock is declared in its type environment. -/
def IRSB.declared (bb : IRSB) : Bool :=
  bb.stmts.reduceOption.all (stmtInScope bb.tyenv.length) && inScope bb.tyenv.length bb.next

theorem argsInScope_eq_all (n : Nat) (args : List IRExpr) :
    argsInScope n args = args.all (inScope n) := by
  induction args with
  | nil => rfl
  | cons arg args ih => rw [argsInScope, ih, List.all_cons]

/-- An atom that has a type is in scope. -/
theorem inScope_of_isIRAtom {prim : PrimopTable} {tyenv : IRTypeEnv} {e : IRExpr} {ty : IRType}
    (hatom : isIRAtom e) (hty : typeOfIRExpr prim tyenv e = some ty) : inScope tyenv.length e := by
  cases e with
  | rdTmp tmp => exact decide_eq_true (List.getElem?_eq_some_iff.1 hty).1
  | const con => rfl
  | _ => cases hatom

mutual

theorem inScope_of_useBeforeDef {tyenv : IRTypeEnv} {defs : DefCounts} :
    ∀ e, useBeforeDefExpr tyenv defs e → inScope tyenv.length e
  | .get _ _, _ | .const _, _ => rfl
  | .rdTmp tmp, h => decide_eq_true (useBeforeDefTemp_lt h)
  | .getI _ ix _, h => inScope_of_useBeforeDef ix h
  | .unop _ arg, h => inScope_of_useBeforeDef arg h
  | .load _ _ addr, h => inScope_of_useBeforeDef addr h
  | .qop _ arg1 arg2 arg3 arg4, h => by
    simp only [useBeforeDefExpr, inScope, Bool.and_eq_true] at h ⊢
    obtain ⟨⟨⟨h₁, h₂⟩, h₃⟩, h₄⟩ := h
    exact ⟨⟨⟨inScope_of_useBeforeDef arg1 h₁, inScope_of_useBeforeDef arg2 h₂⟩,
      inScope_of_useBeforeDef arg3 h₃⟩, inScope_of_useBeforeDef arg4 h₄⟩
  | .triop _ arg1 arg2 arg3, h => by
    simp only [useBeforeDefExpr, inScope, Bool.and_eq_true] at h ⊢
    obtain ⟨⟨h₁, h₂⟩, h₃⟩ := h
    exact ⟨⟨inScope_of_useBeforeDef arg1 h₁, inScope_of_useBeforeDef arg2 h₂⟩,
      inScope_of_useBeforeDef arg3 h₃⟩
  | .binop _ arg1 arg2, h => by
    simp only [useBeforeDefExpr, inScope, Bool.and_eq_true] at h ⊢
    exact ⟨inScope_of_useBeforeDef arg1 h.1, inScope_of_useBeforeDef arg2 h.2⟩
  | .ccall _ _ args, h => argsInScope_of_useBeforeDef args h
  | .ite cond iftrue iffalse, h => by
    simp only [useBeforeDefExpr, inScope, Bool.and_eq_true] at h ⊢
    obtain ⟨⟨h₁, h₂⟩, h₃⟩ := h
    exact ⟨⟨inScope_of_useBeforeDef cond h₁, inScope_of_useBeforeDef iftrue h₂⟩,
      inScope_of_useBeforeDef iffalse h₃⟩

theorem argsInScope_of_useBeforeDef {tyenv : IRTypeEnv} {defs : DefCounts} :
    ∀ args, useBeforeDefArgs tyenv defs args → argsInScope tyenv.length args
  | [], _ => rfl
  | arg :: args, h => by
    simp only [useBeforeDefArgs, argsInScope, Bool.and_eq_true] at h ⊢
    exact ⟨inScope_of_useBeforeDef arg h.1.2, argsInScope_of_useBeforeDef args h.2⟩

end

theorem assignedTemps_lt {tyenv : IRTypeEnv} {tmps : List IRTemp} {defs defs' : DefCounts}
    (h : tmps.foldlM (assignedOnceTemp tyenv) defs = some defs') :
    ∀ tmp ∈ tmps, tmp < tyenv.length := by
  induction tmps generalizing defs with
  | nil => simp
  | cons tmp tmps ih =>
    rw [List.foldlM_cons] at h
    obtain ⟨defs₁, hhead, htail⟩ := Option.bind_eq_some_iff.1 h
    exact List.forall_mem_cons.2 ⟨(assignedOnceTemp_eq_some.1 hhead).1, ih htail⟩

/-- What a statement uses that passes the checks is in scope; the guard of a dirty call has no check
of its own, but it has a type. -/
theorem exprsOf_inScope {prim : PrimopTable} {tyenv : IRTypeEnv} {defs : DefCounts} {st : IRStmt}
    (hflat : isFlatIRStmt st) (huse : useBeforeDefStmt tyenv defs st) (htc : tcStmt prim tyenv st) :
    ∀ e ∈ exprsOf st, inScope tyenv.length e := by
  have hdef : ∀ e, useBeforeDefExpr tyenv defs e → inScope tyenv.length e := inScope_of_useBeforeDef
  have hopt : ∀ (o : Option IRExpr), o.all (useBeforeDefExpr tyenv defs) →
      ∀ e ∈ o.toList, inScope tyenv.length e := by
    intro o ho e he
    cases o with
    | none => cases he
    | some e' =>
      obtain rfl := List.mem_singleton.1 he
      exact hdef e ho
  cases st with
  | noOp => exact List.forall_mem_nil _
  | iMark addr len delta => exact List.forall_mem_nil _
  | mbe event => exact List.forall_mem_nil _
  | put offset data => exact List.forall_mem_singleton.2 (hdef data huse)
  | wrTmp tmp data => exact List.forall_mem_singleton.2 (hdef data huse)
  | exit guard dst jk offsIP => exact List.forall_mem_singleton.2 (hdef guard huse)
  | abiHint base len nia =>
    simp only [useBeforeDefStmt, Bool.and_eq_true] at huse
    exact List.forall_mem_cons.2 ⟨hdef _ huse.1, List.forall_mem_singleton.2 (hdef _ huse.2)⟩
  | putI puti =>
    simp only [useBeforeDefStmt, Bool.and_eq_true] at huse
    exact List.forall_mem_cons.2 ⟨hdef _ huse.1, List.forall_mem_singleton.2 (hdef _ huse.2)⟩
  | store endness addr data =>
    simp only [useBeforeDefStmt, Bool.and_eq_true] at huse
    exact List.forall_mem_cons.2 ⟨hdef _ huse.1, List.forall_mem_singleton.2 (hdef _ huse.2)⟩
  | storeG sg =>
    simp only [useBeforeDefStmt, Bool.and_eq_true] at huse
    exact List.forall_mem_cons.2 ⟨hdef _ huse.1.1, List.forall_mem_cons.2
      ⟨hdef _ huse.1.2, List.forall_mem_singleton.2 (hdef _ huse.2)⟩⟩
  | loadG lg =>
    simp only [useBeforeDefStmt, Bool.and_eq_true] at huse
    exact List.forall_mem_cons.2 ⟨hdef _ huse.1.1, List.forall_mem_cons.2
      ⟨hdef _ huse.1.2, List.forall_mem_singleton.2 (hdef _ huse.2)⟩⟩
  | cas c =>
    simp only [useBeforeDefStmt, Bool.and_eq_true] at huse
    obtain ⟨⟨⟨⟨haddr, hexpdHi⟩, hexpdLo⟩, hdataHi⟩, hdataLo⟩ := huse
    simp only [exprsOf, List.mem_append, List.mem_cons, List.not_mem_nil, or_false]
    rintro e (((rfl | rfl | rfl) | he) | he)
    · exact hdef _ haddr
    · exact hdef _ hexpdLo
    · exact hdef _ hdataLo
    · exact hopt _ hexpdHi e he
    · exact hopt _ hdataHi e he
  | llsc endness result addr storedata =>
    simp only [useBeforeDefStmt, Bool.and_eq_true] at huse
    exact List.forall_mem_cons.2 ⟨hdef _ huse.1, hopt _ huse.2⟩
  | dirty d =>
    simp only [useBeforeDefStmt, Bool.and_eq_true, List.all_eq_true, Bool.or_eq_true,
      decide_eq_true_eq] at huse
    simp only [isFlatIRStmt, Bool.and_eq_true] at hflat
    simp only [tcStmt, tcDirty, Bool.and_eq_true, decide_eq_true_eq] at htc
    obtain ⟨⟨⟨⟨⟨⟨⟨⟨-, hmem⟩, -⟩, -⟩, -⟩, hguard⟩, -⟩, -⟩, -⟩ := htc
    simp only [exprsOf, List.mem_append, List.mem_cons, List.cons_append]
    rintro e (rfl | he | he)
    · exact inScope_of_isIRAtom hflat.1.1 hguard
    · rcases huse.1 e he with hspecial | huse
      · cases e with
        | vecret => rfl
        | gsptr => rfl
        | _ => cases hspecial
      · exact hdef e huse
    · have hmAddr : d.mAddr = some e := Option.mem_toList.1 he
      rw [hmAddr] at huse hmem
      rcases huse.2 with hnone | huse
      · rw [if_pos hnone] at hmem
        cases hmem
      · exact hdef e huse

/-- The check of VEX makes sure of it. -/
theorem IRSB.declared_of_sane {prim : PrimopTable} {bb : IRSB} (h : sanityCheckIRSB prim bb) :
    bb.declared := by
  simp only [sanityCheckIRSB, Bool.and_eq_true, List.all_eq_true, decide_eq_true_eq] at h
  obtain ⟨⟨⟨⟨⟨⟨-, hflat⟩, hnext⟩, hdefs⟩, htc⟩, hty⟩, -⟩ := h
  rw [IRSB.declared, Bool.and_eq_true, List.all_eq_true]
  refine ⟨fun st hst => ?_, inScope_of_isIRAtom hnext hty⟩
  obtain ⟨defs₁, defs₂, hcheck⟩ := exists_checkDefsStmt hdefs hst
  have huse := useBeforeDefStmt_of_checkDefs hcheck
  rw [checkDefsStmt, if_pos huse] at hcheck
  rw [stmtInScope, Bool.and_eq_true, List.all_eq_true, List.all_eq_true]
  exact ⟨exprsOf_inScope (hflat st hst) huse (htc st hst),
    fun tmp htmp => decide_eq_true (assignedTemps_lt hcheck tmp htmp)⟩

/-! ## Agreement -/

/-- The states agree on guest state, memory and the temporaries below `n`. -/
structure Agree (n : Nat) (s s' : GState) : Prop where
  temps : SameTemps n s s'
  guest : s'.guest = s.guest
  mem : s'.mem = s.mem

namespace Agree

variable {n : Nat} {s s' s'' : GState}

theorem refl (n : Nat) (s : GState) : Agree n s s := ⟨SameTemps.refl n s, rfl, rfl⟩

theorem trans (h : Agree n s s') (h' : Agree n s' s'') : Agree n s s'' :=
  ⟨h.temps.trans h'.temps, h'.guest.trans h.guest, h'.mem.trans h.mem⟩

theorem setTemp (h : Agree n s s') (tmp : IRTemp) (v : Nat) :
    Agree n (s.setTemp tmp v) (s'.setTemp tmp v) := by
  refine ⟨fun tmp' htmp' => ?_, h.guest, h.mem⟩
  by_cases heq : tmp' = tmp
  · simp only [GState.setTemp, heq, Function.update_self]
  · simp only [GState.setTemp, Function.update_of_ne heq, h.temps tmp' htmp']

theorem setTemp? (h : Agree n s s') (tmp : Option IRTemp) (v : Nat) :
    Agree n (s.setTemp? tmp v) (s'.setTemp? tmp v) := by
  cases tmp with
  | none => exact h
  | some tmp => exact h.setTemp tmp v

theorem put (h : Agree n s s') (offset : Int) (size v : Nat) :
    Agree n (s.put offset size v) (s'.put offset size v) := by
  refine ⟨h.temps, ?_, h.mem⟩
  rw [GState.put, GState.put, h.guest]

end Agree

section Eval

variable {M : Machine} {n : Nat} {s s' : GState}

mutual

/-- The value of an expression in scope. -/
theorem evalExpr_agree (h : Agree n s s') :
    ∀ e, inScope n e → evalExpr M s' e = evalExpr M s e
  | .binder _, _ | .const _, _ | .vecret, _ | .gsptr, _ => rfl
  | .rdTmp tmp, he => h.temps tmp (of_decide_eq_true he)
  | .get offset ty, _ => by rw [evalExpr, evalExpr, h.guest]
  | .getI descr ix bias, he => by rw [evalExpr, evalExpr, evalExpr_agree h ix he, h.guest]
  | .unop op arg, he => by rw [evalExpr, evalExpr, evalExpr_agree h arg he]
  | .load endness ty addr, he => by rw [evalExpr, evalExpr, evalExpr_agree h addr he, h.mem]
  | .qop op arg1 arg2 arg3 arg4, he => by
    simp only [inScope, Bool.and_eq_true] at he
    obtain ⟨⟨⟨h₁, h₂⟩, h₃⟩, h₄⟩ := he
    rw [evalExpr, evalExpr, evalExpr_agree h arg1 h₁, evalExpr_agree h arg2 h₂,
      evalExpr_agree h arg3 h₃, evalExpr_agree h arg4 h₄]
  | .triop op arg1 arg2 arg3, he => by
    simp only [inScope, Bool.and_eq_true] at he
    obtain ⟨⟨h₁, h₂⟩, h₃⟩ := he
    rw [evalExpr, evalExpr, evalExpr_agree h arg1 h₁, evalExpr_agree h arg2 h₂,
      evalExpr_agree h arg3 h₃]
  | .binop op arg1 arg2, he => by
    simp only [inScope, Bool.and_eq_true] at he
    rw [evalExpr, evalExpr, evalExpr_agree h arg1 he.1, evalExpr_agree h arg2 he.2]
  | .ccall cee retty args, he => by rw [evalExpr, evalExpr, evalArgs_agree h args he]
  | .ite cond iftrue iffalse, he => by
    simp only [inScope, Bool.and_eq_true] at he
    obtain ⟨⟨h₁, h₂⟩, h₃⟩ := he
    rw [evalExpr, evalExpr, evalExpr_agree h cond h₁, evalExpr_agree h iftrue h₂,
      evalExpr_agree h iffalse h₃]

theorem evalArgs_agree (h : Agree n s s') :
    ∀ args, argsInScope n args → evalArgs M s' args = evalArgs M s args
  | [], _ => rfl
  | arg :: args, he => by
    simp only [argsInScope, Bool.and_eq_true] at he
    rw [evalArgs, evalArgs, evalExpr_agree h arg he.1, evalArgs_agree h args he.2]

end

theorem evalAddr_agree (h : Agree n s s') {e : IRExpr} (he : inScope n e) :
    evalAddr M s' e = evalAddr M s e := by
  rw [evalAddr, evalAddr, evalExpr_agree h e he]

/-- The type of an expression in scope does not depend on later temporaries. -/
theorem typeOfIRExpr_inScope {prim : PrimopTable} {tyenv ext : IRTypeEnv} :
    ∀ e, inScope tyenv.length e →
      typeOfIRExpr prim (tyenv ++ ext) e = typeOfIRExpr prim tyenv e
  | .rdTmp tmp, he => typeOfIRTemp_append (of_decide_eq_true he)
  | .ite cond iftrue iffalse, he => by
    simp only [inScope, Bool.and_eq_true] at he
    exact typeOfIRExpr_inScope iffalse he.2
  | .get _ _, _ | .getI _ _ _, _ | .qop _ _ _ _ _, _ | .triop _ _ _ _, _ | .binop _ _ _, _
  | .unop _ _, _ | .load _ _ _, _ | .const _, _ | .ccall _ _ _, _ | .binder _, _ | .vecret, _
  | .gsptr, _ => rfl

theorem sizeOfExpr_inScope {tyenv ext : IRTypeEnv} {e : IRExpr} (he : inScope tyenv.length e) :
    sizeOfExpr M (tyenv ++ ext) e = sizeOfExpr M tyenv e := by
  rw [sizeOfExpr, sizeOfExpr, typeOfIRExpr_inScope e he]

end Eval

/-! ## Statements in scope -/

/-- The helpers and the reservations of a machine see guest state and memory, but no temporaries. -/
structure Machine.SeesNoTemps (M : Machine) : Prop where
  dirty : ∀ cee args s s', s'.guest = s.guest → s'.mem = s.mem →
    M.dirty cee args s' = M.dirty cee args s
  succeeds : ∀ a s s', s'.guest = s.guest → s'.mem = s.mem → M.succeeds s' a = M.succeeds s a

/-- The results differ in temporaries from `n` on only. -/
structure Result.Agree (n : Nat) (r r' : Result) : Prop where
  state : Vex.Agree n r.state r'.state
  events : r'.events = r.events
  exit : r'.exit = r.exit

section Stmts

variable {M : Machine} {tyenv ext : IRTypeEnv} {s s' : GState}

theorem Agree.result {n : Nat} (h : Agree n s s') (es : List Event) (x : Option Exit) :
    Result.Agree n ⟨s, es, x⟩ ⟨s', es, x⟩ := ⟨h, rfl, rfl⟩

theorem Agree.write {n : Nat} (h : Agree n s s') (kind : WriteKind) (endness : IREndness) (a : Addr)
    (size v : Nat) :
    Result.Agree n (s.write kind endness a size v) (s'.write kind endness a size v) := by
  refine ⟨⟨h.temps, h.guest, ?_⟩, rfl, rfl⟩
  rw [GState.write, GState.write, h.mem]

theorem execCas_agree {c : IRCAS} (h : Agree tyenv.length s s')
    (hc : ∀ e ∈ exprsOf (.cas c), inScope tyenv.length e) :
    Result.Agree tyenv.length (execCas M tyenv s c) (execCas M (tyenv ++ ext) s' c) := by
  have haddr : inScope tyenv.length c.addr := hc _ (by simp [exprsOf])
  have hexpdLo : inScope tyenv.length c.expdLo := hc _ (by simp [exprsOf])
  have hdataLo : inScope tyenv.length c.dataLo := hc _ (by simp [exprsOf])
  have hlow : evalAddr M s' c.addr = evalAddr M s c.addr ∧
      sizeOfExpr M (tyenv ++ ext) c.expdLo = sizeOfExpr M tyenv c.expdLo ∧
      evalExpr M s' c.expdLo = evalExpr M s c.expdLo ∧
      evalExpr M s' c.dataLo = evalExpr M s c.dataLo :=
    ⟨evalAddr_agree h haddr, sizeOfExpr_inScope hexpdLo, evalExpr_agree h _ hexpdLo,
      evalExpr_agree h _ hdataLo⟩
  obtain ⟨h₁, h₂, h₃, h₄⟩ := hlow
  obtain ⟨oldHi, oldLo, endness, addr, expdHi, expdLo, dataHi, dataLo⟩ := c
  have hsingle : Result.Agree tyenv.length
      (execCas M tyenv s ⟨none, oldLo, endness, addr, expdHi, expdLo, dataHi, dataLo⟩)
      (execCas M (tyenv ++ ext) s'
        ⟨none, oldLo, endness, addr, expdHi, expdLo, dataHi, dataLo⟩) := by
    simp only [execCas, h₁, h₂, h₃, h₄, h.mem]
    split
    · exact (h.setTemp _ _).write ..
    · exact (h.setTemp _ _).result ..
  rcases oldHi with - | oldHi
  · exact hsingle
  rcases expdHi with - | expdHi
  · exact hsingle
  rcases dataHi with - | dataHi
  · exact hsingle
  · have h₅ : evalExpr M s' expdHi = evalExpr M s expdHi :=
      evalExpr_agree h _ (hc _ (by simp [exprsOf]))
    have h₆ : evalExpr M s' dataHi = evalExpr M s dataHi :=
      evalExpr_agree h _ (hc _ (by simp [exprsOf]))
    simp only [execCas, h₁, h₂, h₃, h₄, h₅, h₆, h.mem]
    split
    · exact ((h.setTemp _ _).setTemp _ _).write ..
    · exact ((h.setTemp _ _).setTemp _ _).result ..

theorem execDirty_agree {d : IRDirty} (hM : M.SeesNoTemps) (h : Agree tyenv.length s s')
    (hd : stmtInScope tyenv.length (.dirty d)) :
    Result.Agree tyenv.length (execDirty M tyenv s d) (execDirty M (tyenv ++ ext) s' d) := by
  simp only [stmtInScope, exprsOf, assignedTemps, Bool.and_eq_true, List.all_eq_true,
    List.mem_cons, List.mem_append, List.cons_append, Option.mem_toList, decide_eq_true_eq] at hd
  obtain ⟨hexprs, htmps⟩ := hd
  have hguard : evalExpr M s' d.guard = evalExpr M s d.guard :=
    evalExpr_agree h _ (hexprs _ (.inl rfl))
  have hargs : evalArgs M s' d.args = evalArgs M s d.args := by
    refine evalArgs_agree h _ ?_
    rw [argsInScope_eq_all, List.all_eq_true]
    exact fun arg harg => hexprs arg (.inr (.inl harg))
  have hret : d.tmp.bind (typeOfIRTemp (tyenv ++ ext)) = d.tmp.bind (typeOfIRTemp tyenv) := by
    cases htmp : d.tmp with
    | none => rfl
    | some tmp => exact typeOfIRTemp_append (htmps tmp htmp)
  have hwrite : ∀ mAddr, d.mAddr = some mAddr → evalAddr M s' mAddr = evalAddr M s mAddr :=
    fun mAddr hmAddr => evalAddr_agree h (hexprs mAddr (.inr (.inr hmAddr)))
  simp only [execDirty, hguard, hargs, hret, hM.dirty d.cee _ s s' h.guest h.mem]
  split
  · exact (h.setTemp? _ _).result ..
  · have hafter : Agree tyenv.length
        ⟨s.temps, (M.dirty d.cee (evalArgs M s d.args) s).2.1,
          (M.dirty d.cee (evalArgs M s d.args) s).2.2⟩
        ⟨s'.temps, (M.dirty d.cee (evalArgs M s d.args) s).2.1,
          (M.dirty d.cee (evalArgs M s d.args) s).2.2⟩ := ⟨h.temps, rfl, rfl⟩
    refine ⟨hafter.setTemp? _ _, ?_, rfl⟩
    cases hmAddr : d.mAddr with
    | none => cases d.mFx <;> rfl
    | some mAddr => cases d.mFx <;> simp only [hwrite mAddr hmAddr]

/-- **A statement in scope does the same** in states that agree, also in a larger environment. -/
theorem execStmt_agree {st : IRStmt} (hM : M.SeesNoTemps) (h : Agree tyenv.length s s')
    (hst : stmtInScope tyenv.length st) :
    Result.Agree tyenv.length (execStmt M tyenv s st) (execStmt M (tyenv ++ ext) s' st) := by
  have hscope := hst
  rw [stmtInScope, Bool.and_eq_true, List.all_eq_true] at hscope
  obtain ⟨hexprs, htmps⟩ := hscope
  have hval : ∀ e ∈ exprsOf st, evalExpr M s' e = evalExpr M s e :=
    fun e he => evalExpr_agree h e (hexprs e he)
  have haddr : ∀ e ∈ exprsOf st, evalAddr M s' e = evalAddr M s e :=
    fun e he => evalAddr_agree h (hexprs e he)
  have hsize : ∀ e ∈ exprsOf st, sizeOfExpr M (tyenv ++ ext) e = sizeOfExpr M tyenv e :=
    fun e he => sizeOfExpr_inScope (hexprs e he)
  cases st with
  | noOp => exact h.result ..
  | iMark addr len delta => exact h.result ..
  | abiHint base len nia => exact h.result ..
  | mbe event => exact h.result ..
  | put offset data =>
    simp only [execStmt, hval data (by simp [exprsOf]), hsize data (by simp [exprsOf])]
    exact (h.put ..).result ..
  | putI puti =>
    simp only [execStmt, hval puti.ix (by simp [exprsOf]), hval puti.data (by simp [exprsOf])]
    exact (h.put ..).result ..
  | wrTmp tmp data =>
    simp only [execStmt, hval data (by simp [exprsOf])]
    exact (h.setTemp ..).result ..
  | store endness addr data =>
    have hty : typeOfIRExpr M.prim (tyenv ++ ext) data = typeOfIRExpr M.prim tyenv data :=
      typeOfIRExpr_inScope data (hexprs data (by simp [exprsOf]))
    simp only [execStmt, hty, hval data (by simp [exprsOf]), haddr addr (by simp [exprsOf])]
    split
    · exact h.write ..
    · exact h.result ..
  | loadG lg =>
    simp only [execStmt, hval lg.guard (by simp [exprsOf]), hval lg.alt (by simp [exprsOf]),
      haddr lg.addr (by simp [exprsOf]), h.mem]
    exact (h.setTemp ..).result ..
  | storeG sg =>
    simp only [execStmt, hval sg.guard (by simp [exprsOf]), hval sg.data (by simp [exprsOf]),
      haddr sg.addr (by simp [exprsOf]), hsize sg.data (by simp [exprsOf])]
    split
    · exact h.result ..
    · exact h.write ..
  | cas c => exact execCas_agree h hexprs
  | llsc endness result addr storedata =>
    cases storedata with
    | none =>
      have hty : typeOfIRTemp (tyenv ++ ext) result = typeOfIRTemp tyenv result :=
        typeOfIRTemp_append (of_decide_eq_true (List.all_eq_true.1 htmps result
          (by simp [assignedTemps])))
      simp only [execStmt, hty, haddr addr (by simp [exprsOf]), h.mem]
      exact (h.setTemp ..).result ..
    | some data =>
      simp only [execStmt, haddr addr (by simp [exprsOf]), hval data (by simp [exprsOf]),
        hsize data (by simp [exprsOf]), hM.succeeds _ s s' h.guest h.mem]
      split
      · exact (h.setTemp ..).write ..
      · exact (h.setTemp ..).result ..
  | dirty d => exact execDirty_agree hM h hst
  | exit guard dst jk offsIP =>
    simp only [execStmt, hval guard (by simp [exprsOf])]
    split
    · exact h.result ..
    · exact (h.put ..).result ..

end Stmts

/-! ## Whole superblocks -/

/-- What running a superblock comes to: the side exit that was taken, if any, and where control
goes. -/
structure Outcome where
  state : GState
  events : List Event
  exit : Option Exit
  target : Nat
  jumpkind : Nat

/-- The end of a superblock after its statements. If no side exit is taken, control goes to `next`,
and the guest's instruction pointer is set to it. -/
def leaveIRSB (M : Machine) (bb : IRSB) (r : Result) : Outcome :=
  match r.exit with
  | some (dst, jk) => ⟨r.state, r.events, r.exit, constVal dst, jk⟩
  | none =>
    let dst := evalExpr M r.state bb.next
    ⟨r.state.put bb.offsIP 8 dst, r.events, r.exit, dst, bb.jumpkind⟩

def runIRSB (M : Machine) (bb : IRSB) (s : GState) : Outcome := leaveIRSB M bb (execIRSB M bb s)

/-- The outcomes differ in events and in temporaries from `n` on only. -/
structure Outcome.Agree (n : Nat) (o o' : Outcome) : Prop where
  state : Vex.Agree n o.state o'.state
  exit : o'.exit = o.exit
  target : o'.target = o.target
  jumpkind : o'.jumpkind = o.jumpkind

theorem events_leaveIRSB (M : Machine) (bb : IRSB) (r : Result) :
    (leaveIRSB M bb r).events = r.events := by
  rw [leaveIRSB]
  split <;> rfl

theorem leaveIRSB_agree {M : Machine} {n : Nat} {bb : IRSB} {r r' : Result}
    (hnext : inScope n bb.next) (hstate : Agree n r.state r'.state) (hexit : r'.exit = r.exit) :
    Outcome.Agree n (leaveIRSB M bb r) (leaveIRSB M bb r') := by
  simp only [leaveIRSB, hexit, evalExpr_agree hstate bb.next hnext]
  split
  · exact ⟨hstate, rfl, rfl, rfl⟩
  · exact ⟨hstate.put .., rfl, rfl, rfl⟩

section Executed

variable {α : Type}

/-- What `f` gives at the statements that a run executes, in order: none after a taken exit. -/
def executed (M : Machine) (tyenv : IRTypeEnv) (f : GState → IRStmt → List α) :
    List IRStmt → GState → List α
  | [], _ => []
  | st :: sts, s =>
    let r := execStmt M tyenv s st
    match r.exit with
    | some _ => f s st
    | none => f s st ++ executed M tyenv f sts r.state

variable {M : Machine} {tyenv ext : IRTypeEnv} {f : GState → IRStmt → List α}
  {obs : Event → Option α}

namespace LocalPass

variable {P : LocalPass}

/-- What replaces the statement does what the statement does, and what is seen of it is what `f`
gives. -/
def SimulatesAt (P : LocalPass) (M : Machine) (tyenv ext : IRTypeEnv) (f : GState → IRStmt → List α)
    (obs : Event → Option α) (st : IRStmt) : Prop :=
  ∀ (n : Nat) (s s' : GState), tyenv.length ≤ n → Agree tyenv.length s s' →
    Agree tyenv.length (execStmt M tyenv s st).state
        (execStmts M (tyenv ++ ext) (P.expand n st) s').state ∧
      (execStmts M (tyenv ++ ext) (P.expand n st) s').exit = (execStmt M tyenv s st).exit ∧
      (execStmts M (tyenv ++ ext) (P.expand n st) s').events.filterMap obs = f s st

/-- **The run lemma**: statement by statement, the replacements do what the statements do. -/
theorem simulates_stmts {sts : List IRStmt} (h : ∀ st ∈ sts, P.SimulatesAt M tyenv ext f obs st)
    {n : Nat} {s s' : GState} (hn : tyenv.length ≤ n) (hs : Agree tyenv.length s s') :
    Agree tyenv.length (execStmts M tyenv sts s).state
        (execStmts M (tyenv ++ ext) (P.stmts n sts) s').state ∧
      (execStmts M (tyenv ++ ext) (P.stmts n sts) s').exit = (execStmts M tyenv sts s).exit ∧
      (execStmts M (tyenv ++ ext) (P.stmts n sts) s').events.filterMap obs =
        executed M tyenv f sts s := by
  induction sts generalizing n s s' with
  | nil => exact ⟨hs, rfl, rfl⟩
  | cons st sts ih =>
    obtain ⟨hhead, htail⟩ := List.forall_mem_cons.1 h
    obtain ⟨hstate, hexit, hobs⟩ := hhead n s s' hn hs
    rw [stmts]
    cases hx : (execStmt M tyenv s st).exit with
    | some x =>
      rw [hx] at hexit
      rw [execStmts_append_of_exit hexit, execStmts_cons_of_exit hx]
      refine ⟨hstate, hexit.trans hx.symm, hobs.trans ?_⟩
      simp only [executed, hx]
    | none =>
      rw [hx] at hexit
      obtain ⟨hstate', hexit', hobs'⟩ :=
        ih htail (hn.trans (Nat.le_add_right n (P.temps st))) hstate
      rw [execStmts_append hexit, execStmts_cons hx]
      refine ⟨hstate', hexit', ?_⟩
      simp only [executed, hx, List.filterMap_append, hobs, hobs']

/-- **A pass whose replacements do what the statements do** gives a superblock that does what the
superblock does. -/
theorem simulates {bb : IRSB} (hnext : inScope bb.tyenv.length bb.next)
    (h : ∀ st ∈ bb.stmts.reduceOption, P.SimulatesAt M bb.tyenv
      (List.replicate (P.numTemps bb.stmts.reduceOption) .i64) f obs st) (s : GState) :
    Outcome.Agree bb.tyenv.length (runIRSB M bb s) (runIRSB M (P.run bb) s) ∧
      (runIRSB M (P.run bb) s).events.filterMap obs =
        executed M bb.tyenv f bb.stmts.reduceOption s := by
  obtain ⟨hstate, hexit, hobs⟩ := simulates_stmts h le_rfl (Agree.refl bb.tyenv.length s)
  have hrun : execIRSB M (P.run bb) s = execStmts M
      (bb.tyenv ++ List.replicate (P.numTemps bb.stmts.reduceOption) .i64)
      (P.stmts bb.tyenv.length bb.stmts.reduceOption) s := by
    rw [execIRSB, reduceOption_run]
    rfl
  rw [← hrun] at hstate hexit hobs
  refine ⟨leaveIRSB_agree hnext hstate hexit, ?_⟩
  rw [runIRSB, events_leaveIRSB]
  exact hobs

end LocalPass

end Executed

end Memlog.Vex
