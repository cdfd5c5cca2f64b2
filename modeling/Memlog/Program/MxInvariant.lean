import Memlog.Mx.Poison
import Memlog.Program.Simulates

/-!
# Marked blocks over a whole program

When values are rounded, a marked block that holds values of the format is to hold such values from
then on. `mxFixed_traced` proves this over the run of a whole program: superblocks with stores and
other statements, heap calls and client requests in between, with other marked blocks around. What
it takes is that the block stays tracked, and that whoever writes into the block does so by a store
that lies in the block and is attributed to it.
-/

namespace Memlog.Program

open Lib Vex Wire

/-! ## Memory outside of a block -/

section Blocks

variable {clo : Clo} {bk : Block} {m m' : Mem} {x : Addr}

/-- The byte lies in the block. -/
def InBlock (bk : Block) (x : Addr) : Prop := dist bk.payload x < bk.reqSzB.toNat

theorem inBlock_of_lookup {blocks : List Block} (hsorted : SortedBy Block.payload blocks) {a : Addr}
    (h : lookupBlock a blocks = some bk) : InBlock bk a := by
  obtain ⟨-, hle, -, hlt⟩ := (lookupBlock_eq_some hsorted).1 h
  have hle' := BitVec.le_def.1 hle
  have hlt' := toNat_lt_of_lt_add hlt
  rw [InBlock, dist_eq_sub hle']
  omega

/-- Whether a block consists of fixed points is a matter of its bytes. -/
theorem mxFixed_congr (h : ∀ x, InBlock bk x → m' x = m x) (hfixed : MxFixed clo bk m) :
    MxFixed clo bk m' := by
  intro bi hbi
  rw [← mxEncodeBlock_eq_self_congr clo (mxFormat_ieee clo) (m := m)]
  · exact hfixed bi hbi
  · intro x hx
    exact (h x (dist_lt_of_mem_group (mxFormat_ieee clo) hbi hx)).symm

/-- A byte of one of two places that do not meet is not in the other one. -/
theorem le_dist_of_apart {a b : Addr} {k l : Nat} (ha : a.toNat + k < 2 ^ 64)
    (hb : b.toNat + l < 2 ^ 64) (h : a.toNat + k ≤ b.toNat ∨ b.toNat + l ≤ a.toNat)
    (hx : dist b x < l) : k ≤ dist a x := by
  have hx' : x.toNat = b.toNat + dist b x := toNat_of_dist (by omega)
  rcases Nat.lt_or_ge x.toNat a.toNat with hlt | hge
  · rw [dist_of_lt hlt]
    omega
  · rw [dist_eq_sub hge]
    omega

variable {heap : List CliBlock} {blocks : List Block} (howned : Owned heap blocks)
  (hbk : bk ∈ blocks) (hmx : bk.mx) (hx : InBlock bk x)
include howned hbk hmx hx

/-- A block that the core's allocator gives out does not meet a marked block. -/
theorem le_dist_of_allocated {place : Place} {szB alignB : SizeT} {b : CliBlock}
    (hb : allocated heap place szB alignB = some b) : b.size.toNat ≤ dist b.start x := by
  obtain ⟨-, hok, hapart⟩ := allocated_spec hb
  obtain ⟨c, hc, hstart, hsize⟩ := howned.mx bk hbk hmx
  have hcok := (howned.ok c hc).1
  have hble := BitVec.le_def.1 hok.size_le
  have hcle := BitVec.le_def.1 hcok.size_le
  have hbwrap := hok.no_wrap
  have hcwrap := hcok.no_wrap
  have hmeet : b.start.toNat + b.usable.toNat ≤ c.start.toNat ∨
      c.start.toNat + c.usable.toNat ≤ b.start.toNat := hapart c hc
  rw [InBlock, ← hstart, ← hsize] at hx
  exact le_dist_of_apart (by omega) (by omega) (by omega) hx

/-- **No callback writes into a marked block.** -/
theorem memAfter_of_inBlock {su : Setup} {place : Place} {op : Op} (hop : isCallback op) :
    op.memAfter su place blocks heap m x = m x := by
  cases op with
  | calloc nmemb size1 =>
    simp only [Op.memAfter]
    cases hb : allocated heap place (nmemb * size1) mlMallocAlignment with
    | none => rfl
    | some b =>
      refine if_neg ?_
      have hle := le_dist_of_allocated howned hbk hmx hx hb
      omega
  | realloc pOld newSzB =>
    simp only [Op.memAfter, reallocMem]
    cases hb : reallocated su place heap pOld newSzB with
    | none => rfl
    | some b =>
      simp only
      split
      · rfl
      · rename_i hp
        rw [reallocated, if_neg hp] at hb
        split at hb
        · cases hb
        have hle := le_dist_of_allocated howned hbk hmx hx hb
        have hsize : (reallocSize newSzB).toNat ≤ b.size.toNat := by
          rw [(allocated_spec hb).1]
          split
          · rename_i hzero
            rw [hzero]
            exact Nat.zero_le _
          · exact le_rfl
        refine if_neg ?_
        rw [toNat_min]
        omega
  | logStore addr value => cases hop
  | mxAfterStore addr size => cases hop
  | write addr size value => cases hop
  | _ => rfl

end Blocks

/-! ## Superblocks -/

/-- A write misses the block, or is a store that lies in the block and is attributed to it. -/
def Spares (blocks : List Block) (bk : Block) : Event → Prop
  | .write kind a size =>
    (∀ x, InBlock bk x → size ≤ dist a x) ∨
      (∃ ty, kind = .store ty) ∧ dist bk.payload a + size ≤ bk.reqSzB.toNat ∧
        lookupBlock a blocks = some bk
  | .call _ _ => True

section Stmts

variable {su : Setup} {heap : List CliBlock} {blocks : List Block} {bk : Block}
  (howned : Owned heap blocks) (hsorted : SortedBy Block.payload blocks) (hbk : bk ∈ blocks)
  (hmx : bk.mx) (hemax : su.clo.mxEsz = 4 → su.clo.mxEmax ≤ 127)
include howned hsorted hbk hmx

/-- Encoding after a store keeps the bytes of a marked block, unless the store is attributed to it.
-/
theorem encodedMem_of_inBlock {clo : Clo} {addr x : Addr} {size : HWord} {m : Mem}
    (hne : lookupBlock addr blocks ≠ some bk) (hx : InBlock bk x) :
    encodedMem blocks clo addr size m x = m x := by
  unfold encodedMem
  cases hfound : lookupBlock addr blocks with
  | none => rfl
  | some b =>
    simp only
    split
    · rename_i hbmx
      have hb := ((lookupBlock_eq_some hsorted).1 hfound).1
      have hstart : b.payload ≠ bk.payload := by
        intro heq
        exact hne (hfound.trans (congrArg some (hsorted.eq_of_key hb hbk heq)))
      obtain ⟨hwrap, -⟩ := howned.marked hbk hmx
      obtain ⟨hwrap', -⟩ := howned.marked hb hbmx
      exact mxReencode_frame
        (le_dist_of_apart hwrap' hwrap (howned.marked_apart hb hbmx hbk hmx hstart) hx)
    · rfl

include hemax

/-- **A store that spares the block** keeps it, with the encoding after it. -/
theorem fixed_store {m m' : Mem} {ty : IRType} {a : Addr} {size : Nat} (hsize : size < 2 ^ 64)
    (hspares : Spares blocks bk (.write (.store ty) a size))
    (hm : ∀ x, size ≤ dist a x → m' x = m x) (hfixed : MxFixed su.clo bk m) :
    MxFixed su.clo bk (encodedMem blocks su.clo a (BitVec.ofNat 64 size) m') := by
  have hmod : (BitVec.ofNat 64 size).toNat = size := by
    rw [BitVec.toNat_ofNat, Nat.mod_eq_of_lt hsize]
  by_cases hfound : lookupBlock a blocks = some bk
  · simp only [encodedMem, hfound, hmx, if_true]
    refine fixed_mxReencode hemax hfixed ?_ (by rwa [hmod])
    rw [hmod]
    rcases hspares with hmiss | ⟨-, hin, -⟩
    · -- the address is in the block, so that a store that misses the block is empty
      have hin := inBlock_of_lookup hsorted hfound
      have hempty := hmiss a hin
      rw [dist_self] at hempty
      rw [InBlock] at hin
      omega
    · exact hin
  · have hmiss : ∀ x, InBlock bk x → size ≤ dist a x :=
      hspares.resolve_right fun h => hfound h.2.2
    refine mxFixed_congr (fun x hx => ?_) hfixed
    rw [encodedMem_of_inBlock howned hsorted hbk hmx hfound hx]
    exact hm x (hmiss x hx)

/-- **A statement whose writes spare the block** keeps it. -/
theorem fixed_execHooked {M : Machine} {tyenv : IRTypeEnv} {s : GState} {st : IRStmt}
    (hfixed : MxFixed su.clo bk s.mem) (hdirty : ∀ x, InBlock bk x → HelperSpares M x s st)
    (hspares : ∀ e ∈ (execHooked M tyenv
      (fun a size => encodedMem blocks su.clo a (BitVec.ofNat 64 size)) s st).events,
        Spares blocks bk e) :
    MxFixed su.clo bk (execHooked M tyenv
      (fun a size => encodedMem blocks su.clo a (BitVec.ofNat 64 size)) s st).state.mem := by
  cases st with
  | store endness addr data =>
    simp only [execHooked, execStmt, sizeOfExpr] at hspares ⊢
    cases hty : typeOfIRExpr M.prim tyenv data with
    | none =>
      have hempty : Spares blocks bk (.write (.store .i1) (evalAddr M s addr) 0) :=
        .inl fun _ _ => Nat.zero_le _
      exact fixed_store howned hsorted hbk hmx hemax (Nat.two_pow_pos 64) hempty (fun _ _ => rfl)
        hfixed
    | some ty =>
      simp only [hty, Option.map_some, Option.getD_some] at hspares ⊢
      have hsize : sizeofIRType ty < 2 ^ 64 := (sizeofIRType_le ty).trans_lt (by decide)
      exact fixed_store howned hsorted hbk hmx hemax hsize (hspares _ List.mem_cons_self)
        (fun x hx => storeMem_of_le hx) hfixed
  | _ =>
    refine mxFixed_congr (fun x hx => ?_) hfixed
    refine execStmt_mem_of_le (hdirty x hx) fun kind a size he => ?_
    rcases hspares _ he with hmiss | ⟨⟨ty, rfl⟩, -⟩
    · exact hmiss x hx
    · exact absurd he (execStmt_noStore (by simp) s ty a size)

end Stmts

/-! ## Programs -/

section Programs

variable {σ : Type} {fn : Helpers} {su : Setup} {M : Machine} {bk : Block}

namespace Client

variable {core : Core σ fn} {cl : Client σ}

theorem run_add (k n : Nat) : cl.run su core (k + n) = (cl.run su core k).run su core n := by
  induction k generalizing cl with
  | zero => rw [Nat.zero_add, run]
  | succ k ih => rw [Nat.succ_add, run, run, ih]

theorem blocks_blockActions (bb : IRSB) (s : GState) (r : Registry) :
    (r.run (blockActions su M bb s)).blocks = r.blocks := by
  have hstores : ∀ (l : List (Addr × ULong)) (r : Registry),
      (r.run (l.map fun p => .store p.1 p.2)).blocks = r.blocks := by
    intro l
    induction l with
    | nil => exact fun r => rfl
    | cons p l ih =>
      intro r
      rw [List.map_cons, Registry.run_cons, ih, Registry.blocks_store]
  unfold blockActions
  split
  · rfl
  · exact hstores _ r

theorem sorted_blocks (cl : Client σ) : SortedBy Block.payload cl.blocks := by
  have hinit : SortedBy Block.payload Registry.init.blocks := List.Pairwise.nil
  exact Registry.sorted_run hinit cl.acts

/-- **Every state of a program** has its heap blocks apart and its marked blocks among them. -/
theorem owned_exec (h : Owned cl.view.heap cl.blocks) (st : CoreStep fn) :
    Owned (cl.exec su M st).view.heap (cl.exec su M st).blocks := by
  cases st with
  | block sb temps =>
    simp only [exec, blocks, Registry.run_append, blocks_blockActions]
    exact h
  | call c =>
    simp only [exec, blocks, Registry.run_append]
    exact h.exec cl.sorted_blocks c.who c.place c.op
  | other guest mem => exact h

theorem owned_run (h : Owned cl.view.heap cl.blocks) (n : Nat) :
    Owned (cl.run su core n).view.heap (cl.run su core n).blocks := by
  induction n generalizing cl with
  | zero => exact h
  | succ n ih =>
    have h₁ : Owned (Client.mk (core.next cl.core cl.view).1 cl.view cl.acts).view.heap
        (Client.mk (core.next cl.core cl.view).1 cl.view cl.acts).blocks := h
    exact ih (owned_exec h₁ _)

end Client

/-- The step writes into the block, if at all, by stores that lie in it and are attributed to it:
none of the helpers that it calls does. -/
def Respects (su : Setup) (M : Machine) (bk : Block) (cl : Client σ) : CoreStep fn → Prop
  | .block sb temps =>
    let s : GState := ⟨temps, cl.view.guest, cl.view.mem⟩
    (∀ e ∈ (Client.runBlock su M cl.blocks sb.bb s).events, Spares cl.blocks bk e) ∧
      EachStmt
        (execHooked M sb.bb.tyenv fun a size =>
          encodedMem cl.blocks su.clo a (BitVec.ofNat 64 size))
        (fun s st => ∀ x, InBlock bk x → HelperSpares M x s st) sb.bb.stmts.reduceOption s
  | .call _ => True
  | .other _ mem => ∀ x, InBlock bk x → mem x = cl.view.mem x

variable {cl : Client σ} (hmode : su.clo.mxRound) (hemax : su.clo.mxEsz = 4 → su.clo.mxEmax ≤ 127)
  (hmx : bk.mx)
include hmode hemax hmx

/-- **A step that respects the block** keeps it. -/
theorem fixed_exec (c : σ) (howned : Owned cl.view.heap cl.blocks) (hbk : bk ∈ cl.blocks)
    (hfixed : MxFixed su.clo bk cl.view.mem) {st : CoreStep fn} (hst : Respects su M bk cl st) :
    MxFixed su.clo bk (Client.exec su M { cl with core := c } st).view.mem := by
  cases st with
  | block sb temps =>
    simp only [Respects, Client.runBlock, hmode, if_true, runHooked, events_leaveIRSB] at hst
    have hrun := runWith_keeps (P := fun s => MxFixed su.clo bk s.mem)
      (s := ⟨temps, cl.view.guest, cl.view.mem⟩)
      (fun s st hs hev hdirty =>
        fixed_execHooked howned cl.sorted_blocks hbk hmx hemax hs hdirty hev)
      hfixed hst.1 hst.2
    simp only [Client.exec, Client.runBlock, hmode, if_true, runHooked, mem_leaveIRSB]
    exact hrun
  | call c =>
    refine mxFixed_congr (fun x hx => ?_) hfixed
    exact memAfter_of_inBlock howned hbk hmx hx c.isCallback
  | other guest mem => exact mxFixed_congr hst hfixed

/-- **Marked blocks over a whole program.** Let a marked block consist of fixed points of the
encoder at some point of the run of any program, and stay tracked for `n` steps of the core. If in
these steps every write into the block is a store that lies in the block and that no other tracked
block hides, the block consists of fixed points at their end: every group that the program reads
then is as `mx_encode_block` leaves it. -/
theorem mxFixed_traced (core : Core σ fn) (c : σ) (guest : ByteMem 64) (mem : Mem) (entry k n : Nat)
    (hlive : ∀ i < n, bk ∈ (Client.run su core (k + i) (.init c guest mem entry)).blocks)
    (hrespects : ∀ i < n, Respects su core.machine bk
      (Client.run su core (k + i) (.init c guest mem entry))
      (core.next (Client.run su core (k + i) (.init c guest mem entry)).core
        (Client.run su core (k + i) (.init c guest mem entry)).view).2)
    (hfixed : MxFixed su.clo bk (Client.run su core k (.init c guest mem entry)).view.mem) :
    ∃ tr, Traced.run su core (k + n) (.init c guest mem entry) = some tr ∧
      MxFixed su.clo bk tr.tool.mem := by
  obtain ⟨tr, hrun, h⟩ := (Shows.init su c guest mem entry).run core (k + n)
  refine ⟨tr, hrun, ?_⟩
  have hmem : tr.tool.mem = (Client.run su core (k + n) (.init c guest mem entry)).view.mem :=
    congrArg View.mem h.view
  rw [hmem]
  clear hrun h hmem tr
  induction n with
  | zero => exact hfixed
  | succ n ih =>
    have hprev := ih (fun i hi => hlive i (by omega)) fun i hi => hrespects i (by omega)
    have howned : Owned (Client.run su core (k + n) (.init c guest mem entry)).view.heap
        (Client.run su core (k + n) (.init c guest mem entry)).blocks := Client.owned_run .init _
    rw [← Nat.add_assoc, Client.run_add]
    exact fixed_exec hmode hemax hmx _ howned (hlive n (Nat.lt_succ_self n)) hprev
      (hrespects n (Nat.lt_succ_self n))

end Programs

/-- A superblock that stores `1.1` into the second of four doubles. -/
def storeSecond : Superblock someHelpers where
  bb := blockOf [] [.store .le (.const (.u64 0x10008)) (.const (.f64i 0x3FF199999999999A))]
  declared := rfl
  noHelper d hd := by simp [blockOf] at hd

/-- The program gets four doubles from `calloc` and runs a superblock again and again. -/
def callocAndStore : Core Nat someHelpers where
  machine := idleMachine
  seesNoTemps := quiet_idleMachine.toSeesNoTemps
  next n _ :=
    (n + 1, if n = 0 then .call ⟨⟨⟨[], []⟩, some (0x10000, 32), .calloc 4 8⟩, rfl⟩
      else .block storeSecond fun _ => 0)

theorem mxFixed_traced_callocAndStore :
    ∃ tr, Traced.run markAll callocAndStore 2 (.init 0 (fun _ => 0) (fun _ => 0) 0x400000) =
        some tr ∧
      MxFixed markAll.clo fourDoubles tr.tool.mem := by
  have hblocks : (Client.run markAll callocAndStore 1
      (.init 0 (fun _ => 0) (fun _ => 0) 0x400000)).blocks = [fourDoubles] := by decide
  refine mxFixed_traced (by decide) (by decide) rfl callocAndStore 0 (fun _ => 0) (fun _ => 0)
    0x400000 1 1 (fun i hi => ?_) (fun i hi => ?_) (fixed_of_zero fun x _ => ?_)
  · obtain rfl : i = 0 := by omega
    rw [hblocks]
    exact List.mem_singleton.2 rfl
  · obtain rfl : i = 0 := by omega
    refine ⟨List.forall_mem_singleton.2 (.inr ⟨⟨.f64, rfl⟩, by decide, ?_⟩), ?_, fun _ => trivial⟩
    · rw [hblocks]
      decide
    · rintro x - d ⟨⟩
  · exact ite_self _

end Memlog.Program
