import Memlog.Wire.Expand

/-!
# Sanity of the instrumented superblock

VEX checks a superblock again after instrumentation. `wire_mx` keeps every sane superblock sane.
`wire_memlog` does so if and only if the superblock has no store of an `F32`, `F128` or `D128`
value, for which it assigns a nested operation to a temporary (`wire_sane_iff`).
-/

namespace Memlog.Wire

open Vex

variable {fn : Helpers} {prim : PrimopTable} {tyenv ext : IRTypeEnv} {defs out : DefCounts}

/-! ## Pieces -/

/-- The types whose pieces are nested operations. -/
def Nested (ty : IRType) : Prop := ty = .f32 ∨ ty = .f128 ∨ ty = .d128

instance (ty : IRType) : Decidable (Nested ty) := inferInstanceAs (Decidable (_ ∨ _ ∨ _))

section Pieces

variable {data addr : IRExpr} {ty : IRType}

theorem isFlatRhs_of_isIRAtom {e : IRExpr} (h : isIRAtom e) : isFlatRhs e := by
  cases e with
  | rdTmp tmp => rfl
  | const con => rfl
  | _ => cases h

theorem storePieces_length (data : IRExpr) (ty : IRType) : (storePieces data ty).length ≤ 4 := by
  cases ty <;> simp [storePieces]

theorem storePieces_flat (hatom : isIRAtom data) (hty : ¬ Nested ty) :
    ∀ p ∈ storePieces data ty, isFlatRhs p.2 := by
  have hrhs := isFlatRhs_of_isIRAtom hatom
  cases ty <;> simp_all [storePieces, isFlatRhs, Nested]

theorem storePieces_not_flat (hty : Nested ty) :
    ∃ p ∈ storePieces data ty, isFlatRhs p.2 = false := by
  rcases hty with rfl | rfl | rfl
  all_goals exact ⟨_, List.mem_cons_self, rfl⟩

theorem storePieces_typed (hatom : isIRAtom data) (hty : typeOfIRExpr prim tyenv data = some ty) :
    ∀ p ∈ storePieces data ty,
      tcExpr prim tyenv p.2 ∧ typeOfIRExpr prim tyenv p.2 = some .i64 := by
  have htc : tcExpr prim tyenv data := tcExpr_atom hatom
  cases ty <;> simp [storePieces, tcExpr, opTakes, typeOfIRExpr, typeOfPrimop, hty, htc]

theorem storePieces_use (huse : useBeforeDefExpr tyenv out data) :
    ∀ p ∈ storePieces data ty, useBeforeDefExpr tyenv out p.2 := by
  cases ty <;> simp [storePieces, useBeforeDefExpr, huse]

theorem pieceAddr_flat (hatom : isIRAtom addr) (offset : Nat) :
    isFlatRhs (pieceAddr addr offset) := by
  rw [pieceAddr]
  split
  · exact isFlatRhs_of_isIRAtom hatom
  · rw [isFlatRhs, hatom]
    rfl

theorem pieceAddr_typed (hatom : isIRAtom addr) (hty : typeOfIRExpr prim tyenv addr = some .i64)
    (offset : Nat) :
    tcExpr prim tyenv (pieceAddr addr offset) ∧
      typeOfIRExpr prim tyenv (pieceAddr addr offset) = some .i64 := by
  have htc : tcExpr prim tyenv addr := tcExpr_atom hatom
  rw [pieceAddr]
  split
  · exact ⟨htc, hty⟩
  · simp [tcExpr, opTakes, typeOfIRExpr, typeOfPrimop, typeOfIRConst, hty, htc]

theorem pieceAddr_use (huse : useBeforeDefExpr tyenv out addr) (offset : Nat) :
    useBeforeDefExpr tyenv out (pieceAddr addr offset) := by
  rw [pieceAddr]
  split
  · exact huse
  · simp [useBeforeDefExpr, huse]

end Pieces

/-! ## Statements that the passes add -/

theorem tcStmt_wrTmp {tmp : IRTemp} {e : IRExpr} (htmp : typeOfIRTemp tyenv tmp = some .i64)
    (he : tcExpr prim tyenv e ∧ typeOfIRExpr prim tyenv e = some .i64) :
    tcStmt prim tyenv (.wrTmp tmp e) := by
  simp [tcStmt, he, htmp]

theorem lt_of_typeOfIRTemp {tmp : IRTemp} {ty : IRType} (h : typeOfIRTemp tyenv tmp = some ty) :
    tmp < tyenv.length :=
  (List.getElem?_eq_some_iff.1 h).1

theorem checkDefsStmt_of_noTemps {st : IRStmt} (huse : useBeforeDefStmt tyenv out st)
    (hassign : assignedTemps st = []) : checkDefsStmt tyenv out st = some out := by
  rw [checkDefsStmt, if_pos huse, assignedOnceStmt, hassign]
  rfl

theorem useBeforeDefTemp_of_one {tmp : IRTemp} (hlt : tmp < tyenv.length) (h : out tmp = 1) :
    useBeforeDefTemp tyenv out tmp := by
  simp [useBeforeDefTemp, hlt, h]

theorem logStoreDirty_sane {addrTmp dataTmp : IRTemp}
    (haddr : typeOfIRTemp tyenv addrTmp = some .i64)
    (hdata : typeOfIRTemp tyenv dataTmp = some .i64) :
    isFlatIRStmt (.dirty (logStoreDirty fn addrTmp dataTmp)) ∧
      tcStmt prim tyenv (.dirty (logStoreDirty fn addrTmp dataTmp)) := by
  refine ⟨rfl, ?_⟩
  simp [tcStmt, tcDirty, tcDirtyArgs, logStoreDirty, unsafeIRDirty0N, saneIRCallee, tcExpr,
    typeOfIRExpr, typeOfIRConst, isIRExprVECRETorGSPTR, fn.logStore_ne, haddr, hdata]

theorem mxAfterStoreDirty_sane {addrTmp loTmp : IRTemp} {size : Nat}
    (haddr : typeOfIRTemp tyenv addrTmp = some .i64) :
    isFlatIRStmt (.dirty (mxAfterStoreDirty fn addrTmp loTmp size)) ∧
      tcStmt prim tyenv (.dirty (mxAfterStoreDirty fn addrTmp loTmp size)) := by
  refine ⟨rfl, ?_⟩
  have hsize : (512 + size : Int) ≠ 0 := by omega
  simp [tcStmt, tcDirty, tcDirtyArgs, mxAfterStoreDirty, unsafeIRDirty0N, saneIRCallee, tcExpr,
    typeOfIRExpr, typeOfIRConst, isIRExprVECRETorGSPTR, fn.mxAfterStore_ne, haddr, hsize]

/-! ## `wire_memlog` -/

section Memlog

variable {addr data : IRExpr} {endness : IREndness} {k : Nat}

/-- The statements for the pieces are flat and well-typed. -/
theorem pieceStmts_flat_typed {pieces : List (Nat × IRExpr)} {tmp : IRTemp}
    (haddr : ∀ offset, isFlatRhs (pieceAddr addr offset) ∧
      tcExpr prim tyenv (pieceAddr addr offset) ∧
      typeOfIRExpr prim tyenv (pieceAddr addr offset) = some .i64)
    (hpieces : ∀ p ∈ pieces, isFlatRhs p.2 ∧ tcExpr prim tyenv p.2 ∧
      typeOfIRExpr prim tyenv p.2 = some .i64)
    (htmps : ∀ i < 2 * pieces.length, typeOfIRTemp tyenv (tmp + i) = some .i64) :
    ∀ st ∈ pieceStmts fn addr tmp pieces, isFlatIRStmt st ∧ tcStmt prim tyenv st := by
  induction pieces generalizing tmp with
  | nil => simp [pieceStmts]
  | cons p pieces ih =>
    rw [List.length_cons] at htmps
    obtain ⟨hp, hrest⟩ := List.forall_mem_cons.1 hpieces
    have htmp₀ : typeOfIRTemp tyenv tmp = some .i64 := htmps 0 (by omega)
    have htmp₁ : typeOfIRTemp tyenv (tmp + 1) = some .i64 := htmps 1 (by omega)
    have htail : ∀ i < 2 * pieces.length, typeOfIRTemp tyenv (tmp + 2 + i) = some .i64 := by
      intro i hi
      rw [Nat.add_assoc]
      exact htmps (2 + i) (by omega)
    rw [pieceStmts]
    refine List.forall_mem_cons.2 ⟨⟨(haddr p.1).1, tcStmt_wrTmp htmp₀ (haddr p.1).2⟩, ?_⟩
    refine List.forall_mem_cons.2 ⟨⟨hp.1, tcStmt_wrTmp htmp₁ hp.2⟩, ?_⟩
    exact List.forall_mem_cons.2 ⟨logStoreDirty_sane htmp₀ htmp₁, ih hrest htail⟩

/-- The statements for the pieces assign their own temporaries and use what the store uses. -/
theorem pieceStmts_defs {pieces : List (Nat × IRExpr)} {tmp : IRTemp}
    (hk : tyenv.length ≤ tmp) (hag : Agrees tyenv.length tmp defs out)
    (haddr : useBeforeDefExpr tyenv defs addr)
    (hpieces : ∀ p ∈ pieces, useBeforeDefExpr tyenv defs p.2)
    (htmps : ∀ i < 2 * pieces.length, tmp + i < (tyenv ++ ext).length) :
    ∃ out', checkDefs (tyenv ++ ext) out (pieceStmts fn addr tmp pieces) = some out' ∧
      Agrees tyenv.length (tmp + 2 * pieces.length) defs out' := by
  induction pieces generalizing tmp out with
  | nil => exact ⟨out, rfl, hag⟩
  | cons p pieces ih =>
    rw [List.length_cons] at htmps
    obtain ⟨hp, hrest⟩ := List.forall_mem_cons.1 hpieces
    have hlt₀ : tmp < (tyenv ++ ext).length := htmps 0 (by omega)
    have hlt₁ : tmp + 1 < (tyenv ++ ext).length := htmps 1 (by omega)
    have hag₁ := hag.assign hk
    have hag₂ := hag₁.assign (hk.trans (Nat.le_succ tmp))
    have hdef₀ : checkDefsStmt (tyenv ++ ext) out (.wrTmp tmp (pieceAddr addr p.1)) = _ :=
      checkDefsStmt_wrTmp (useBeforeDefExpr_mono hag.useMono _ (pieceAddr_use haddr p.1)) hlt₀
        (hag.free tmp le_rfl)
    have hdef₁ : checkDefsStmt (tyenv ++ ext) _ (.wrTmp (tmp + 1) p.2) = _ :=
      checkDefsStmt_wrTmp (useBeforeDefExpr_mono hag₁.useMono _ hp) hlt₁
        (hag₁.free (tmp + 1) le_rfl)
    have huse : useBeforeDefStmt (tyenv ++ ext)
        (Function.update (Function.update out tmp 1) (tmp + 1) 1)
        (.dirty (logStoreDirty fn tmp (tmp + 1))) := by
      have h₀ : useBeforeDefTemp (tyenv ++ ext)
          (Function.update (Function.update out tmp 1) (tmp + 1) 1) tmp := by
        refine useBeforeDefTemp_of_one hlt₀ ?_
        rw [Function.update_of_ne (Nat.ne_of_lt (Nat.lt_succ_self tmp)), Function.update_self]
      have h₁ : useBeforeDefTemp (tyenv ++ ext)
          (Function.update (Function.update out tmp 1) (tmp + 1) 1) (tmp + 1) :=
        useBeforeDefTemp_of_one hlt₁ (Function.update_self ..)
      simp [useBeforeDefStmt, logStoreDirty, unsafeIRDirty0N, useBeforeDefExpr, h₀, h₁]
    have htail : ∀ i < 2 * pieces.length, tmp + 2 + i < (tyenv ++ ext).length := by
      intro i hi
      rw [Nat.add_assoc]
      exact htmps (2 + i) (by omega)
    obtain ⟨out', hout', hag'⟩ := ih (hk.trans (Nat.le_add_right ..)) hag₂ hrest htail
    refine ⟨out', ?_, ?_⟩
    · rw [pieceStmts, checkDefs_cons, hdef₀, Option.bind_some, checkDefs_cons, hdef₁,
        Option.bind_some, checkDefs_cons, checkDefsStmt_of_noTemps huse rfl, Option.bind_some,
        hout']
    · rw [List.length_cons, Nat.mul_succ, Nat.add_comm (2 * pieces.length), ← Nat.add_assoc]
      exact hag'

/-- **A store whose pieces are flat is kept sane.** -/
theorem memlogPass_saneAt_store
    (hnested : ∀ ty, typeOfIRExpr prim tyenv data = some ty → ¬ Nested ty) :
    (memlogPass fn prim tyenv).SaneAt prim tyenv (.store endness addr data) := by
  intro ext n defs defs' out hk htmps hag hst htc hdefs
  obtain ⟨haddr, hdata⟩ := Bool.and_eq_true_iff.1 hst
  have huse : useBeforeDefStmt tyenv defs (.store endness addr data) :=
    useBeforeDefStmt_of_checkDefs hdefs
  obtain ⟨huseAddr, huseData⟩ := Bool.and_eq_true_iff.1 huse
  have haddrTy : typeOfIRExpr prim (tyenv ++ ext) addr = some .i64 := by
    simp only [tcStmt, Bool.and_eq_true, decide_eq_true_eq] at htc
    exact typeOfAtom_append haddr htc.1.2
  have hpieces : ∀ p ∈ dataPieces prim tyenv data, isFlatRhs p.2 ∧
      (tcExpr prim (tyenv ++ ext) p.2 ∧ typeOfIRExpr prim (tyenv ++ ext) p.2 = some .i64) ∧
      useBeforeDefExpr tyenv defs p.2 := by
    rw [dataPieces]
    cases hty : typeOfIRExpr prim tyenv data with
    | none => simp
    | some ty =>
      intro p hp
      exact ⟨storePieces_flat hdata (hnested ty hty) p hp,
        storePieces_typed hdata (typeOfAtom_append hdata hty) p hp, storePieces_use huseData p hp⟩
  have hlen : 2 * (dataPieces prim tyenv data).length ≤ 8 := by
    rw [dataPieces]
    cases typeOfIRExpr prim tyenv data with
    | none => simp
    | some ty =>
      have := storePieces_length data ty
      simp only [Option.elim_some]
      omega
  have htys : ∀ i < 2 * (dataPieces prim tyenv data).length,
      typeOfIRTemp (tyenv ++ ext) (n + i) = some .i64 :=
    fun i hi => htmps i (Nat.lt_of_lt_of_le hi hlen)
  have hbefore : ∃ out₁, checkDefs (tyenv ++ ext) out
        (pieceStmts fn addr n (dataPieces prim tyenv data)) = some out₁ ∧
      Agrees tyenv.length (n + 2 * (dataPieces prim tyenv data).length) defs out₁ :=
    pieceStmts_defs hk hag huseAddr (fun p hp => (hpieces p hp).2.2)
      fun i hi => lt_of_typeOfIRTemp (htys i hi)
  obtain ⟨out₁, hout₁, hag₁⟩ := hbefore
  obtain ⟨-, hassign, hcopy⟩ := checkDefsStmt_copy (hk.trans (Nat.le_add_right ..)) hag₁ hdefs
  obtain ⟨out₂, hout₂, hag₂⟩ := hcopy ext
  refine ⟨fun st' hst' => ?_, out₂, ?_, hag₂.mono (Nat.add_le_add_left hlen n)⟩
  · rcases List.mem_append.1 hst' with h | h
    · exact pieceStmts_flat_typed
        (fun offset => ⟨pieceAddr_flat haddr offset, pieceAddr_typed haddr haddrTy offset⟩)
        (fun p hp => ⟨(hpieces p hp).1, (hpieces p hp).2.1⟩) htys st' h
    · obtain rfl := List.mem_singleton.1 h
      exact ⟨hst, tcStmt_append hst huse hassign htc⟩
  · have happend : checkDefs (tyenv ++ ext) out
        (pieceStmts fn addr n (dataPieces prim tyenv data) ++
        [.store endness addr data]) = some out₂ := by
      rw [checkDefs_append, hout₁, Option.bind_some, checkDefs_cons, hout₂]
      rfl
    exact happend

end Memlog

/-! ## `wire_mx` -/

section Mx

variable {addr data : IRExpr} {endness : IREndness}

/-- **Every store is kept sane.** -/
theorem mxPass_saneAt_store :
    (mxPass fn prim tyenv).SaneAt prim tyenv (.store endness addr data) := by
  intro ext n defs defs' out hk htmps hag hst htc hdefs
  obtain ⟨haddr, hdata⟩ := Bool.and_eq_true_iff.1 hst
  have huse : useBeforeDefStmt tyenv defs (.store endness addr data) :=
    useBeforeDefStmt_of_checkDefs hdefs
  obtain rfl : defs = defs' :=
    Option.some.inj ((checkDefsStmt_of_noTemps huse rfl).symm.trans hdefs)
  obtain ⟨huseAddr, huseData⟩ := Bool.and_eq_true_iff.1 huse
  simp only [tcStmt, Bool.and_eq_true, decide_eq_true_eq] at htc
  have htemps : (mxPass fn prim tyenv).temps (.store endness addr data) = 2 := rfl
  have htmp₀ : typeOfIRTemp (tyenv ++ ext) n = some .i64 := htmps 0 (by omega)
  have htmp₁ : typeOfIRTemp (tyenv ++ ext) (n + 1) = some .i64 := htmps 1 (by omega)
  have hlt₀ := lt_of_typeOfIRTemp htmp₀
  have hlt₁ := lt_of_typeOfIRTemp htmp₁
  have hag₁ := hag.assign hk
  have hag₂ := hag₁.assign (hk.trans (Nat.le_succ n))
  have huse₀ : useBeforeDefTemp (tyenv ++ ext) (Function.update out n 1) n :=
    useBeforeDefTemp_of_one hlt₀ (Function.update_self ..)
  have huse₁ : useBeforeDefTemp (tyenv ++ ext)
      (Function.update (Function.update out n 1) (n + 1) 1) n := by
    refine useBeforeDefTemp_of_one hlt₀ ?_
    rw [Function.update_of_ne (Nat.ne_of_lt (Nat.lt_succ_self n)), Function.update_self]
  have huse₂ : useBeforeDefTemp (tyenv ++ ext)
      (Function.update (Function.update out n 1) (n + 1) 1) (n + 1) :=
    useBeforeDefTemp_of_one hlt₁ (Function.update_self ..)
  have hwrAddr : checkDefsStmt (tyenv ++ ext) out (.wrTmp n addr) = _ :=
    checkDefsStmt_wrTmp (useBeforeDefExpr_mono hag.useMono addr huseAddr) hlt₀ (hag.free n le_rfl)
  have hstore : useBeforeDefStmt (tyenv ++ ext) (Function.update out n 1)
      (.store endness (.rdTmp n) data) :=
    Bool.and_eq_true_iff.2 ⟨huse₀, useBeforeDefExpr_mono hag₁.useMono data huseData⟩
  have hwrLo : checkDefsStmt (tyenv ++ ext) (Function.update out n 1)
      (.wrTmp (n + 1) (.binop .sub64 (.rdTmp n) (.const (.u64 256)))) = _ :=
    checkDefsStmt_wrTmp (Bool.and_eq_true_iff.2 ⟨huse₀, rfl⟩) hlt₁ (hag₁.free (n + 1) le_rfl)
  refine ⟨?_, _, ?_, hag₂⟩
  · refine List.forall_mem_cons.2 ⟨⟨isFlatRhs_of_isIRAtom haddr, tcStmt_wrTmp htmp₀
      ⟨tcExpr_atom haddr, typeOfAtom_append haddr htc.1.2⟩⟩, ?_⟩
    refine List.forall_mem_cons.2 ⟨⟨hdata, ?_⟩, ?_⟩
    · simp only [tcStmt, Bool.and_eq_true, decide_eq_true_eq]
      refine ⟨⟨⟨rfl, tcExpr_atom hdata⟩, htmp₀⟩, ?_⟩
      rw [typeOfIRExpr_append data huseData]
      exact htc.2
    refine List.forall_mem_cons.2 ⟨⟨rfl, tcStmt_wrTmp htmp₁ ?_⟩, ?_⟩
    · simp [tcExpr, opTakes, typeOfIRExpr, typeOfPrimop, typeOfIRConst, htmp₀]
    · exact List.forall_mem_cons.2 ⟨mxAfterStoreDirty_sane htmp₀, by simp⟩
  · have hdirty : ∀ size, useBeforeDefStmt (tyenv ++ ext)
        (Function.update (Function.update out n 1) (n + 1) 1)
        (.dirty (mxAfterStoreDirty fn n (n + 1) size)) := by
      intro size
      simp [useBeforeDefStmt, mxAfterStoreDirty, unsafeIRDirty0N, useBeforeDefExpr, huse₁, huse₂]
    simp only [mxPass]
    rw [checkDefs_cons, hwrAddr, Option.bind_some, checkDefs_cons,
      checkDefsStmt_of_noTemps hstore rfl, Option.bind_some, checkDefs_cons, hwrLo,
      Option.bind_some, checkDefs_cons, checkDefsStmt_of_noTemps (hdirty _) rfl]
    rfl

end Mx

/-! ## The instrumented superblock -/

/-- The superblock stores a value whose pieces are nested operations. -/
def StoresNested (prim : PrimopTable) (bb : IRSB) : Prop :=
  ∃ endness addr data ty, some (.store endness addr data) ∈ bb.stmts ∧
    typeOfIRExpr prim bb.tyenv data = some ty ∧ Nested ty

theorem wireMx_sane {bb : IRSB} (h : sanityCheckIRSB prim bb) :
    sanityCheckIRSB prim (wireMx fn prim bb) := by
  rw [wireMx_eq_run]
  refine LocalPass.sane h fun st _ => ?_
  cases st with
  | store endness addr data => exact mxPass_saneAt_store
  | _ => exact LocalPass.saneAt_copy fun _ => rfl

theorem wireMemlog_sane {bb : IRSB} (h : sanityCheckIRSB prim bb)
    (hnested : ¬ StoresNested prim bb) :
    sanityCheckIRSB prim (wireMemlog fn prim bb) := by
  rw [wireMemlog_eq_run]
  refine LocalPass.sane h fun st hst => ?_
  cases st with
  | store endness addr data =>
    refine memlogPass_saneAt_store fun ty hty hn => hnested ?_
    exact ⟨endness, addr, data, ty, List.reduceOption_mem_iff.1 hst, hty, hn⟩
  | _ => exact LocalPass.saneAt_copy fun _ => rfl

theorem mem_pieceStmts {addr : IRExpr} {pieces : List (Nat × IRExpr)} {p : Nat × IRExpr}
    (h : p ∈ pieces) (tmp : IRTemp) :
    ∃ dataTmp, .wrTmp dataTmp p.2 ∈ pieceStmts fn addr tmp pieces := by
  induction pieces generalizing tmp with
  | nil => cases h
  | cons p' pieces ih =>
    rw [pieceStmts]
    rcases List.mem_cons.1 h with rfl | hmem
    · exact ⟨tmp + 1, by simp⟩
    · obtain ⟨dataTmp, hdataTmp⟩ := ih hmem (tmp + 2)
      exact ⟨dataTmp, by simp [hdataTmp]⟩

/-- The nested operation is assigned to a temporary, which is not flat. -/
theorem wireMemlog_not_sane {bb : IRSB} (h : StoresNested prim bb) :
    ¬ sanityCheckIRSB prim (wireMemlog fn prim bb) := by
  obtain ⟨endness, addr, data, ty, hmem, hty, hnested⟩ := h
  obtain ⟨p, hp, hflat⟩ := storePieces_not_flat hnested
  intro hsane
  rw [wireMemlog_eq_run] at hsane
  simp only [sanityCheckIRSB, Bool.and_eq_true, List.all_eq_true,
    LocalPass.reduceOption_run] at hsane
  obtain ⟨⟨⟨⟨⟨⟨-, hall⟩, -⟩, -⟩, -⟩, -⟩, -⟩ := hsane
  have hin : IRStmt.store endness addr data ∈ bb.stmts.reduceOption :=
    List.reduceOption_mem_iff.2 hmem
  obtain ⟨n, hsub⟩ := LocalPass.mem_stmts hin bb.tyenv.length
  have hpieces : dataPieces prim bb.tyenv data = storePieces data ty := by
    rw [dataPieces, hty]
    rfl
  obtain ⟨dataTmp, hdataTmp⟩ := mem_pieceStmts hp n
  have hst : isFlatIRStmt (.wrTmp dataTmp p.2) := by
    refine hall _ (hsub (List.mem_append_left _ ?_))
    rw [hpieces]
    exact hdataTmp
  rw [isFlatIRStmt, hflat] at hst
  cases hst

/-- **Instrumented superblocks are sane.** For every sane superblock, the result of `wire_mx` is
sane, and the result of `wire_memlog` is sane if and only if no store of the superblock has `F32`,
`F128` or `D128` data. -/
theorem wire_sane_iff (fn : Helpers) (prim : PrimopTable) (bb : IRSB)
    (h : sanityCheckIRSB prim bb) :
    sanityCheckIRSB prim (wireMx fn prim bb) ∧
      (sanityCheckIRSB prim (wireMemlog fn prim bb) ↔ ¬ StoresNested prim bb) := by
  refine ⟨wireMx_sane h, fun hsane hnested => wireMemlog_not_sane hnested hsane, wireMemlog_sane h⟩

/-- Some entry points. -/
def someHelpers : Helpers := ⟨0x58001000, 0x58002000, by decide, by decide⟩

/-- A superblock whose only statement stores the value. -/
def storeBlock (con : IRConst) : IRSB where
  tyenv := []
  stmts := [some (.store .le (.const (.u64 0x1000)) (.const con))]
  next := .const (.u64 0x401000)
  jumpkind := 0
  offsIP := 184

/-- A sane superblock that stores a vector is sane after both passes. -/
theorem wire_sane_iff_v128 :
    sanityCheckIRSB (fun _ => ([], .i64)) (storeBlock (.v128 0x1313)) ∧
      sanityCheckIRSB (fun _ => ([], .i64))
        (wireMx someHelpers (fun _ => ([], .i64)) (storeBlock (.v128 0x1313))) ∧
      sanityCheckIRSB (fun _ => ([], .i64))
        (wireMemlog someHelpers (fun _ => ([], .i64)) (storeBlock (.v128 0x1313))) := by
  have h := wire_sane_iff someHelpers (fun _ => ([], .i64)) (storeBlock (.v128 0x1313)) rfl
  refine ⟨rfl, h.1, h.2.2 ?_⟩
  rintro ⟨endness, addr, data, ty, hmem, hty, hnested⟩
  cases List.mem_singleton.1 hmem
  cases hty
  exact absurd hnested (by decide)

/-- A sane superblock that stores a `float`, and is not flat after `wire_memlog`. -/
theorem wireMemlog_not_sane_f32 :
    sanityCheckIRSB (fun _ => ([], .i64)) (storeBlock (.f32 0x3F800000)) = true ∧
      sanityCheckIRSB (fun _ => ([], .i64))
        (wireMemlog someHelpers (fun _ => ([], .i64)) (storeBlock (.f32 0x3F800000))) = false :=
  ⟨rfl, rfl⟩

end Memlog.Wire
