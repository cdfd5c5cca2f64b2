import Memlog.Parser.Current
import Memlog.Pipeline.Snapshot
import Memlog.Program.MxInvariant

/-!
# What the snapshot has to do with the memory

A block whose only writes are stores of whole words holds, at every word that was stored to, the
value that was logged last: `Reflects` is kept by every step of a program (`recorded_exec`). At the
end of the pipeline the last-write snapshot that the queries take of the buffer is therefore what
the program has in memory (`snapshot_traced`).
-/

namespace Memlog.Program

open Lib Vex Wire ToParquet

/-! ## Words of a block -/

section Words

variable {k : Nat} {bk : Block} {stores : List (Addr × HWord)} {m m' : Mem}

/-- The stores are of words of `k` bytes of the block, and the memory has at each of them the value
that was stored last. -/
structure Reflects (k : Nat) (bk : Block) (stores : List (Addr × HWord)) (m : Mem) : Prop where
  words : ∀ st ∈ stores, k ∣ dist bk.payload st.1 ∧ dist bk.payload st.1 + k ≤ bk.reqSzB.toNat
  values : ∀ a v, lastOf Prod.fst Prod.snd stores a = some v → m.loadLE a k = v.toNat

/-- The bytes of a word of the block. -/
theorem dist_word {a : Addr} (h : dist bk.payload a + k ≤ bk.reqSzB.toNat) {i : Nat} (hi : i < k) :
    dist bk.payload (a + BitVec.ofNat 64 i) = dist bk.payload a + i := by
  have hsize := bk.reqSzB.isLt
  have hadd : bk.payload + BitVec.ofNat 64 (dist bk.payload a + i) = a + BitVec.ofNat 64 i := by
    rw [BitVec.ofNat_add, ← BitVec.add_assoc, add_dist]
  rw [← hadd, dist_add _ (by omega)]

theorem inBlock_of_word {a : Addr} (h : dist bk.payload a + k ≤ bk.reqSzB.toNat) {i : Nat}
    (hi : i < k) : InBlock bk (a + BitVec.ofNat 64 i) := by
  rw [InBlock, dist_word h hi]
  omega

/-- What happens outside of the block does not matter. -/
theorem Reflects.congr (h : Reflects k bk stores m) (hm : ∀ x, InBlock bk x → m' x = m x) :
    Reflects k bk stores m' where
  words := h.words
  values a v hv := by
    obtain ⟨st, hst, rfl, -⟩ := mem_of_lastOf hv
    rw [← h.values _ v hv]
    exact ByteMem.loadLE_congr fun i hi => hm _ (inBlock_of_word (h.words st hst).2 hi)

/-- Words of a block are the same or do not meet. -/
theorem word_apart {a b : Addr} (ha : k ∣ dist bk.payload a)
    (hb : k ∣ dist bk.payload b) (hale : dist bk.payload a + k ≤ bk.reqSzB.toNat)
    (hble : dist bk.payload b + k ≤ bk.reqSzB.toNat) (hne : a ≠ b) {i : Nat} (hi : i < k) :
    k ≤ dist a (b + BitVec.ofNat 64 i) := by
  have hsize := bk.reqSzB.isLt
  have hdist : dist bk.payload a ≠ dist bk.payload b := by
    intro heq
    rw [← add_dist bk.payload a, ← add_dist bk.payload b, heq] at hne
    exact hne rfl
  have hcases := dist_add_cases bk.payload (b + BitVec.ofNat 64 i) (dist_lt bk.payload a)
  rw [add_dist, dist_word hble hi] at hcases
  obtain ⟨x, hx⟩ := ha
  obtain ⟨y, hy⟩ := hb
  rcases hcases with ⟨hle, heq⟩ | ⟨hlt, heq⟩
  · -- the word lies above, by a multiple of the word size
    rw [heq]
    rcases Nat.lt_trichotomy x y with hlt | rfl | hgt
    · have hmul := Nat.mul_le_mul_left k (Nat.succ_le_of_lt hlt)
      rw [Nat.mul_succ] at hmul
      omega
    · exact absurd (hx.trans hy.symm) hdist
    · have hmul := Nat.mul_le_mul_left k (Nat.succ_le_of_lt hgt)
      rw [Nat.mul_succ] at hmul
      omega
  · rw [heq]
    omega

/-- **A store of a word** is logged and written. -/
theorem Reflects.store (h : Reflects k bk stores m) {a : Addr} (ha : k ∣ dist bk.payload a)
    (hle : dist bk.payload a + k ≤ bk.reqSzB.toNat) {v : Nat} {value : HWord}
    (hvalue : value.toNat = v % 256 ^ k) :
    Reflects k bk (stores ++ [(a, value)]) (m.storeLE a k v) where
  words := List.forall_mem_append.2 ⟨h.words, List.forall_mem_singleton.2 ⟨ha, hle⟩⟩
  values b w hw := by
    have hsize := bk.reqSzB.isLt
    rw [lastOf_append] at hw
    split at hw
    · rename_i heq
      cases hw
      obtain rfl : a = b := heq
      rw [hvalue, ByteMem.loadLE_storeLE m a v (by omega)]
    · rename_i hne
      obtain ⟨st, hst, rfl, -⟩ := mem_of_lastOf hw
      obtain ⟨hb, hble⟩ := h.words st hst
      rw [← h.values _ w hw]
      exact ByteMem.loadLE_congr fun i hi =>
        ByteMem.storeLE_of_le (word_apart ha hb hle hble hne hi)

end Words

/-! ## Superblocks -/

/-- A write misses the block, or is a store of one word of `k` bytes of the block that is attributed
to it. -/
def StoresWords (k : Nat) (blocks : List Block) (bk : Block) : Event → Prop
  | .write kind a size =>
    (kind ≠ .store .i1 ∧ ∀ x, InBlock bk x → size ≤ dist a x) ∨
      (∃ ty, kind = .store ty ∧ Logged ty) ∧ size = k ∧ k ∣ dist bk.payload a ∧
        dist bk.payload a + k ≤ bk.reqSzB.toNat ∧ lookupBlock a blocks = some bk
  | .call _ _ => True

/-- A value of at most eight bytes is one chunk. -/
theorem storeChunks_of_le {ty : IRType} (hty : Logged ty) (hle : sizeofIRType ty ≤ 8) (a : Addr)
    (v : Nat) : storeChunks a v ty = [(a, BitVec.ofNat 64 (v % 256 ^ sizeofIRType ty))] := by
  obtain ⟨h₁, h₂, h₃, h₄⟩ := hty
  cases ty <;> first | contradiction | skip
  all_goals
    simp [storeChunks, numPieces, pieceSize, chunk, sizeofIRType] at hle ⊢

/-- The chunks of a store lie in it. -/
theorem dist_of_mem_storeChunks {ty : IRType} (hty : ty ≠ .i1) {a : Addr} {v : Nat}
    {p : Addr × ULong} (hp : p ∈ storeChunks a v ty) : dist a p.1 < sizeofIRType ty := by
  have hpieces : ∀ i < numPieces ty,
      dist a (a + BitVec.ofNat 64 (pieceSize ty * i)) < sizeofIRType ty := by
    intro i hi
    have hmul := Nat.mul_le_mul_left (pieceSize ty) (Nat.succ_le_of_lt hi)
    rw [pieceSize_mul_numPieces, Nat.mul_succ] at hmul
    have hle := sizeofIRType_le ty
    have hpos : 0 < pieceSize ty := by
      cases ty <;> first | contradiction | decide
    rw [dist_add _ (by omega)]
    omega
  cases ty with
  | i1 => contradiction
  | f16 => cases hp
  | d32 => cases hp
  | d64 => cases hp
  | _ =>
    obtain ⟨i, hi, rfl⟩ := List.mem_map.1 hp
    exact hpieces i (List.mem_range.1 hi)

section Stmts

variable {k : Nat} {blocks : List Block} {bk : Block} {M : Machine} {tyenv : IRTypeEnv}
  (hk : k ≤ 8) (hsorted : SortedBy Block.payload blocks)

/-- The chunks that are attributed to the block. -/
def chunksIn (blocks : List Block) (bk : Block) (chunks : List (Addr × ULong)) :
    List (Addr × ULong) := chunks.filter fun p => lookupBlock p.1 blocks = some bk

include hk hsorted

/-- **A statement** logs what it writes into the block. -/
theorem reflects_execStmt {stores : List (Addr × HWord)} {s : GState} {st : IRStmt}
    (hst : ∀ endness addr data, st = .store endness addr data → endness = .le)
    (hev : ∀ e ∈ (execStmt M tyenv s st).events, StoresWords k blocks bk e)
    (hdirty : ∀ x, InBlock bk x → HelperSpares M x s st) (h : Reflects k bk stores s.mem) :
    Reflects k bk (stores ++ chunksIn blocks bk (chunksOf M tyenv s st))
      (execStmt M tyenv s st).state.mem := by
  cases st with
  | store endness addr data =>
    obtain rfl := hst endness addr data rfl
    simp only [execStmt, chunksOf] at hev ⊢
    cases hty : typeOfIRExpr M.prim tyenv data with
    | none =>
      simp only [Option.elim_none, chunksIn, List.filter_nil, List.append_nil]
      exact h
    | some ty =>
      simp only [hty, Option.elim_some] at hev ⊢
      rcases hev _ List.mem_cons_self with
        ⟨hone, hmiss⟩ | ⟨⟨ty', hkind, hlogged⟩, hsize, ha, hle, hfound⟩
      · -- no chunk of a store that misses the block is attributed to it
        have hnone : chunksIn blocks bk
            (storeChunks (evalAddr M s addr) (evalExpr M s data) ty) = [] := by
          refine List.filter_eq_nil_iff.2 fun p hp hfound => ?_
          have hin := inBlock_of_lookup hsorted (of_decide_eq_true hfound)
          have hlt := dist_of_mem_storeChunks (fun heq => hone (congrArg _ heq)) hp
          have hout := hmiss p.1 hin
          omega
        rw [hnone, List.append_nil]
        refine h.congr fun x hx => ?_
        change storeMem s.mem .le _ _ _ x = s.mem x
        exact storeMem_of_le (hmiss x hx)
      · cases hkind
        subst hsize
        have hone : chunksIn blocks bk
            (storeChunks (evalAddr M s addr) (evalExpr M s data) ty) =
              [(evalAddr M s addr,
                BitVec.ofNat 64 (evalExpr M s data % 256 ^ sizeofIRType ty))] := by
          rw [storeChunks_of_le hlogged hk, chunksIn]
          exact List.filter_eq_self.2 (List.forall_mem_singleton.2 (decide_eq_true hfound))
        rw [hone]
        refine h.store ha hle ?_
        rw [BitVec.toNat_ofNat]
        refine Nat.mod_eq_of_lt (lt_of_lt_of_le (Nat.mod_lt _ (Nat.pow_pos (by decide))) ?_)
        calc 256 ^ sizeofIRType ty ≤ 256 ^ 8 := Nat.pow_le_pow_right (by decide) hk
          _ = 2 ^ 64 := by decide
  | _ =>
    simp only [chunksOf, chunksIn, List.filter_nil, List.append_nil]
    refine h.congr fun x hx => ?_
    refine execStmt_mem_of_le (hdirty x hx) fun kind a size he => ?_
    rcases hev _ he with hmiss | ⟨⟨ty, rfl, -⟩, -⟩
    · exact hmiss.2 x hx
    · exact absurd he (execStmt_noStore (by simp) s ty a size)

/-- **The statements of a superblock** log what they write into the block. -/
theorem reflects_execStmts {stores : List (Addr × HWord)} {s : GState} {sts : List IRStmt}
    (hst : ∀ endness addr data, .store endness addr data ∈ sts → endness = .le)
    (hev : ∀ e ∈ (execStmts M tyenv sts s).events, StoresWords k blocks bk e)
    (hdirty : EachStmt (execStmt M tyenv)
      (fun s st => ∀ x, InBlock bk x → HelperSpares M x s st) sts s)
    (h : Reflects k bk stores s.mem) :
    Reflects k bk (stores ++ chunksIn blocks bk (executed M tyenv (chunksOf M tyenv) sts s))
      (execStmts M tyenv sts s).state.mem := by
  induction sts generalizing stores s with
  | nil =>
    rw [executed, chunksIn, List.filter_nil, List.append_nil]
    exact h
  | cons st sts ih =>
    have hhead : ∀ endness addr data, st = .store endness addr data → endness = .le := by
      rintro endness addr data rfl
      exact hst endness addr data List.mem_cons_self
    cases hx : (execStmt M tyenv s st).exit with
    | some x =>
      rw [execStmts_cons_of_exit hx] at hev ⊢
      simp only [executed, hx]
      exact reflects_execStmt hk hsorted hhead hev hdirty.1 h
    | none =>
      rw [execStmts_cons hx] at hev ⊢
      rw [List.forall_mem_append] at hev
      simp only [executed, hx]
      have h₁ := reflects_execStmt hk hsorted hhead hev.1 hdirty.1 h
      have h₂ := ih (fun endness addr data hmem =>
        hst endness addr data (List.mem_cons_of_mem st hmem)) hev.2 (hdirty.2 hx) h₁
      rwa [List.append_assoc, chunksIn, chunksIn, ← List.filter_append] at h₂

end Stmts

/-! ## Programs -/

theorem store_not_mem_actions {su : Setup} {who : Caller} {place : Place} {heap : List CliBlock}
    {op : Op} (hop : isCallback op) (a : Addr) (v : HWord) :
    Action.store a v ∉ op.actions su who place heap := by
  have hnew : ∀ b, Action.store a v ∉ newBlockActions su who b := by
    intro b
    cases b <;> simp [newBlockActions]
  have hdie : ∀ p, Action.store a v ∉ dieBlockActions who p := by
    intro p
    unfold dieBlockActions
    split <;> simp
  cases op with
  | logStore addr value => cases hop
  | mxAfterStore addr size => cases hop
  | write addr size value => cases hop
  | realloc pOld newSzB =>
    simp only [Op.actions, reallocActions]
    split
    · exact hnew _
    · split
      · exact hdie pOld
      · split
        · rw [List.mem_append, not_or]
          exact ⟨hnew _, hdie pOld⟩
        · exact List.not_mem_nil
  | request req => cases req <;> simp [Op.actions]
  | mallocUsableSize p => simp [Op.actions]
  | _ => simp only [Op.actions, hnew, hdie, not_false_eq_true]

section Programs

variable {σ : Type} {fn : Helpers} {su : Setup} {M : Machine} {k : Nat} {bk : Block}

/-- If the block is tracked, its record reflects the memory. -/
def Recorded (k : Nat) (bk : Block) (acts : List Action) (m : Mem) : Prop :=
  bk ∈ (Registry.init.run acts).blocks →
    ∃ stores, Current acts bk stores ∧ Reflects k bk stores m

theorem Recorded.congr {acts : List Action} {m m' : Mem} (h : Recorded k bk acts m)
    (hm : bk ∈ (Registry.init.run acts).blocks → ∀ x, InBlock bk x → m' x = m x) :
    Recorded k bk acts m' := by
  intro hbk
  obtain ⟨stores, hcurrent, hreflects⟩ := h hbk
  exact ⟨stores, hcurrent, hreflects.congr (hm hbk)⟩

/-- **Tracking and untracking**: a new record is empty. -/
theorem Recorded.action {acts : List Action} {act : Action} {m : Mem} (h : Recorded k bk acts m)
    (hnew : NoRetrack .init (acts ++ [act])) (hact : ∀ a v, act ≠ .store a v) :
    Recorded k bk (acts ++ [act]) m := by
  intro hbk
  rw [Registry.run_append] at hbk
  have hold : bk ∈ (Registry.init.run acts).blocks → ∃ stores,
      Current (acts ++ [act]) bk stores ∧ Reflects k bk stores m := by
    intro hbk
    obtain ⟨stores, hcurrent, hreflects⟩ := h hbk
    have hnone : attributed (Registry.init.run acts).blocks bk act = [] := by
      cases act with
      | store a v => exact absurd rfl (hact a v)
      | _ => rfl
    refine ⟨_, hcurrent.step hnew hbk, ?_⟩
    rwa [hnone, List.append_nil]
  cases act with
  | track b =>
    rcases mem_addBlock.1 hbk with hbk | ⟨rfl, -⟩
    · exact hold hbk
    · refine ⟨[], .track acts bk, fun st hst => absurd hst List.not_mem_nil, fun a v hv => ?_⟩
      cases hv
  | untrack addr ec => exact hold (Registry.mem_of_mem_untrack hbk)
  | store a v => exact absurd rfl (hact a v)

theorem Recorded.actions {acts more : List Action} {m : Mem} (h : Recorded k bk acts m)
    (hnew : NoRetrack .init (acts ++ more)) (hmore : ∀ a v, .store a v ∉ more) :
    Recorded k bk (acts ++ more) m := by
  induction more generalizing acts with
  | nil => rwa [List.append_nil]
  | cons act more ih =>
    rw [List.append_cons] at hnew ⊢
    refine ih (h.action (NoRetrack.append.1 hnew).1 fun a v heq => ?_) hnew fun a v hmem => ?_
    · exact hmore a v (heq ▸ List.mem_cons_self)
    · exact hmore a v (List.mem_cons_of_mem act hmem)

/-- The step writes into the block, if at all, by stores of whole words that are attributed to it:
none of the helpers that it calls does. -/
def WritesWords (k : Nat) (su : Setup) (M : Machine) (bk : Block) (cl : Client σ) :
    CoreStep fn → Prop
  | .block sb temps =>
    let s : GState := ⟨temps, cl.view.guest, cl.view.mem⟩
    (∀ endness addr data, some (.store endness addr data) ∈ sb.bb.stmts → endness = .le) ∧
      (∀ e ∈ (runIRSB M sb.bb s).events, StoresWords k cl.blocks bk e) ∧
      EachStmt (execStmt M sb.bb.tyenv) (fun s st => ∀ x, InBlock bk x → HelperSpares M x s st)
        sb.bb.stmts.reduceOption s
  | .call c => ∀ x, InBlock bk x →
      c.op.memAfter su c.place cl.blocks cl.view.heap cl.view.mem x = cl.view.mem x
  | .other _ mem => ∀ x, InBlock bk x → mem x = cl.view.mem x

variable {cl : Client σ}

theorem Client.exists_acts_exec (cl : Client σ) (st : CoreStep fn) :
    ∃ more, (cl.exec su M st).acts = cl.acts ++ more := by
  cases st with
  | block sb temps => exact ⟨_, rfl⟩
  | call c => exact ⟨_, rfl⟩
  | other guest mem => exact ⟨[], (List.append_nil _).symm⟩

variable (hmode : su.clo.mxRound = false) (hk : k ≤ 8)
include hmode hk

/-- **A step** that writes whole words, if it writes into the block while it is tracked. -/
theorem recorded_exec (c : σ) {st : CoreStep fn} (h : Recorded k bk cl.acts cl.view.mem)
    (hnew : NoRetrack .init (Client.exec su M { cl with core := c } st).acts)
    (hst : bk ∈ cl.blocks → WritesWords k su M bk cl st) :
    Recorded k bk (Client.exec su M { cl with core := c } st).acts
      (Client.exec su M { cl with core := c } st).view.mem := by
  cases st with
  | block sb temps =>
    simp only [Client.exec, Client.runBlock, Client.blockActions, hmode, Bool.false_eq_true,
      if_false] at hnew ⊢
    intro hbk
    have hblocks : ((Registry.init.run cl.acts).run (Client.blockActions su M sb.bb
        ⟨temps, cl.view.guest, cl.view.mem⟩)).blocks = cl.blocks := Client.blocks_blockActions ..
    simp only [Client.blockActions, hmode, Bool.false_eq_true, if_false] at hblocks
    rw [Registry.run_append, hblocks] at hbk
    obtain ⟨stores, hcurrent, hreflects⟩ := h hbk
    obtain ⟨hle, hev, hdirty⟩ := hst hbk
    rw [runIRSB, events_leaveIRSB] at hev
    refine ⟨_, hcurrent.addStores (NoRetrack.append.1 hnew).1 hbk _, ?_⟩
    rw [runIRSB, mem_leaveIRSB]
    refine reflects_execStmts (s := ⟨temps, cl.view.guest, cl.view.mem⟩) hk cl.sorted_blocks
      (fun endness addr data hmem => ?_) hev hdirty hreflects
    exact hle endness addr data (List.reduceOption_mem_iff.1 hmem)
  | call c =>
    have hmem : Recorded k bk cl.acts
        (c.op.memAfter su c.place cl.blocks cl.view.heap cl.view.mem) := h.congr hst
    exact hmem.actions hnew (store_not_mem_actions c.isCallback)
  | other guest mem => exact h.congr hst

end Programs

/-! ## The snapshot -/

/-- A buffer whose stores are of words of four or eight bytes is not an object. -/
theorem type_of_words {bk : Block} {k : Nat} {rec : Record} (hstart : rec.start = bk.payload)
    (hwords : ∀ st ∈ rec.stores, k ∣ dist bk.payload st.1) (hk : 4 ∣ k) :
    rec.type = .bits32 ∨ rec.type = .bits64 := by
  have hall : (rec.stores.all fun st => 4 ∣ rec.offset st.1) = true := by
    rw [List.all_eq_true]
    intro st hst
    refine decide_eq_true ?_
    rw [Record.offset, hstart]
    rcases Nat.lt_or_ge st.1.toNat bk.payload.toNat with hlt | hge
    · rw [Nat.sub_eq_zero_of_le hlt.le]
      exact Nat.dvd_zero 4
    · rw [← dist_eq_sub hge]
      exact Nat.dvd_trans hk (hwords st hst)
  rw [Record.type, hall]
  by_cases h8 : (rec.stores.all fun st => 8 ∣ rec.offset st.1) = true
  · rw [if_pos h8]
    exact .inr rfl
  · rw [if_neg h8, if_pos rfl]
    exact .inl rfl

section Snapshot

variable {σ : Type} {fn : Helpers} {su : Setup} {k : Nat} {bk : Block}

/-- The record of a block at every point of a program. -/
theorem recorded_run (hmode : su.clo.mxRound = false) (hk : k ≤ 8) (core : Core σ fn)
    {cl : Client σ} (hcl : Recorded k bk cl.acts cl.view.mem) (n : Nat)
    (hnew : NoRetrack .init (cl.run su core n).acts)
    (hwords : ∀ i < n, bk ∈ (cl.run su core i).blocks →
      WritesWords k su core.machine bk (cl.run su core i)
        (core.next (cl.run su core i).core (cl.run su core i).view).2) :
    Recorded k bk (cl.run su core n).acts (cl.run su core n).view.mem := by
  induction n with
  | zero => exact hcl
  | succ n ih =>
    rw [Client.run_add] at hnew ⊢
    have hprefix : ∃ more, ((cl.run su core n).run su core 1).acts =
        (cl.run su core n).acts ++ more := Client.exists_acts_exec _ _
    obtain ⟨more, hmore⟩ := hprefix
    have hnew' := (NoRetrack.append.1 (hmore ▸ hnew)).1
    exact recorded_exec hmode hk _ (ih hnew' fun i hi => hwords i (by omega)) hnew
      (hwords n (Nat.lt_succ_self n))

/-- The rows of the snapshot for a record that reflects a memory. -/
theorem snapshot_of_reflects {l : Ledger} {rows : List StoreRow} {i : Ref} {m : Mem}
    (htab : Tabulates l rows) (hlen : l.records.length < 2 ^ 32) (hi : i < l.records.length)
    (hstart : (l.record i).start = bk.payload) (h : Reflects k bk (l.record i).stores m) :
    (∀ s ∈ Query.snapshot rows, (s.allocAddr, s.generation) = l.keyOf i →
      s.value.toNat = m.loadLE (bk.payload + s.offset) k) ∧
    (4 ∣ k → ∀ st ∈ (l.record i).stores, ∃ s ∈ Query.snapshot rows,
      (s.allocAddr, s.generation) = l.keyOf i ∧ s.offset = st.1 - bk.payload) := by
  constructor
  · intro s hs hkey
    obtain ⟨j, hj, -, a, v, hlast, rfl⟩ := htab.mem_snapshot.1 hs
    obtain rfl := Ledger.keyOf_inj hlen hj hi hkey
    have haddr : bk.payload + (a - bk.payload) = a := by
      rw [BitVec.add_comm, BitVec.sub_add_cancel]
    rw [Record.snap, hstart, haddr]
    exact (h.values a v hlast).symm
  · intro h4 st hst
    obtain ⟨v, hv⟩ : ∃ v, lastOf Prod.fst Prod.snd (l.record i).stores st.1 = some v :=
      exists_lastOf hst
    have htype := type_of_words hstart (fun st hst => (h.words st hst).1) h4
    refine ⟨_, htab.mem_snapshot.2 ⟨i, hi, htype, st.1, v, hv, rfl⟩, rfl, ?_⟩
    rw [Record.snap, hstart]

/-- **The snapshot is the memory.** Let a program run under the tool, and let every write into a
block while it is tracked be an aligned store of one word of `k` bytes that no other tracked block
hides. Then the last-write snapshot that the queries take of the converted log has, in the rows of
the block, what the program has in memory when the block is freed or when the run ends. If words
have four or eight bytes, every word that the program has stored to since the block was tracked has
such a row. -/
theorem snapshot_traced (core : Core σ fn) (c : σ) (guest : ByteMem 64) (mem : Mem)
    (entry m n : Nat) {cl : Nat → Client σ} {tr tr' : Traced σ} {t' : Tool} {later : List Action}
    {maxOpenFiles : Nat} (hmode : su.clo.mxRound = false) (hk : k ≤ 8)
    (hcl : ∀ i, Client.run su core i (.init c guest mem entry) = cl i)
    (hwords : ∀ i < m, bk ∈ (cl i).blocks →
      WritesWords k su core.machine bk (cl i) (core.next (cl i).core (cl i).view).2)
    (hbk : bk ∈ (cl m).blocks) (hsize : bk.payload < bk.payload + bk.reqSzB)
    (hlater : (cl n).acts = (cl m).acts ++ later) (hends : Ends bk later)
    (hrun : Traced.run su core m (.init c guest mem entry) = some tr)
    (hrun' : Traced.run su core n (.init c guest mem entry) = some tr')
    (hfini : mlFini tr'.tool = some ((), t')) (hnew : NoRetrack .init (cl n).acts)
    (hplain : ∀ act ∈ (cl n).acts, ∀ line ∈ act.trace, PlainLine line)
    (hopen : 1 ≤ maxOpenFiles) (hcount : (history (cl n).acts).records.length ≤ 2 ^ 31) :
    ∃ files, parseLog maxOpenFiles (joinLines t'.out) (fun _ => none) = .ok files ∧
      ∀ (pa : Pyarrow) batchRows dir archive, Packs dir files archive →
        ∃ p key, convertArchive pa batchRows archive = .ok p ∧
          key = (bk.payload, BitVec.ofNat 32
            (((cl m).acts.filterMap Action.start?).count bk.payload)) ∧
          (∀ s ∈ Query.snapshot p.rows, (s.allocAddr, s.generation) = key →
            s.value.toNat = tr.tool.mem.loadLE (bk.payload + s.offset) k) ∧
          (4 ∣ k → ∀ a, StoredTo (cl m).acts bk a → ∃ s ∈ Query.snapshot p.rows,
            (s.allocAddr, s.generation) = key ∧ s.offset = a - bk.payload) := by
  obtain ⟨tr₁, hrun₁, hshows⟩ := (Shows.init su c guest mem entry).run core m
  cases hrun.symm.trans hrun₁
  obtain ⟨tr₁', hrun₁', hshows'⟩ := (Shows.init su c guest mem entry).run core n
  cases hrun'.symm.trans hrun₁'
  have hmem : tr.tool.mem = (cl m).view.mem := by
    rw [← hcl]
    exact congrArg View.mem hshows.view
  -- the record of the block at the point in question, and at the end
  have hnew₁ : NoRetrack .init (cl m).acts := (NoRetrack.append.1 (hlater ▸ hnew)).1
  have hrecorded : Recorded k bk (cl m).acts (cl m).view.mem := by
    have hinit : Recorded k bk (Client.init c guest mem entry).acts mem := by
      intro hbk
      cases hbk
    have hrec := recorded_run hmode hk core hinit m
    simp only [hcl] at hrec
    exact hrec hnew₁ hwords
  obtain ⟨stores, hcurrent, hreflects⟩ := hrecorded hbk
  have hrec := hcurrent.ends hends (hlater ▸ hnew) hbk hsize
  rw [← hlater] at hrec
  -- the table
  have href : Refines su tr'.tool (Registry.init.run (cl n).acts) := by
    rw [← hcl]
    exact hshows'.refines
  obtain ⟨-, l, hl, hparse, hok, hfiled, hstored, hlog⟩ := href.exists_finished hfini hplain hopen
  have hm := mirrors_history hnew hl
  rw [← hm.records] at hcount
  obtain ⟨hrecord, hnumber⟩ := hm.record hrec
  have hi : (history (cl m).acts).latest bk.payload < l.records.length := by
    rw [hm.records]
    exact (List.getElem?_eq_some_iff.1 hrec).1
  have hkey : l.keyOf ((history (cl m).acts).latest bk.payload) = (bk.payload, BitVec.ofNat 32
      (((cl m).acts.filterMap Action.start?).count bk.payload)) := by
    rw [Ledger.keyOf, hrecord, hnumber, number, Ledger.countP_start, List.map_take,
      map_start_history, hlater, List.filterMap_append,
      List.take_append_of_le_length hcurrent.lt_length.le, hcurrent.number]
  refine ⟨l.finished, hparse, fun pa batchRows dir archive hpacks => ?_⟩
  obtain ⟨p, hconvert, htab⟩ := hpacks.convertArchive hok hfiled hstored hlog hcount pa batchRows
  have hstores : (l.record ((history (cl m).acts).latest bk.payload)).stores = stores := by
    rw [hrecord]
  rw [← hstores, ← hmem] at hreflects
  obtain ⟨hvalues, hrows⟩ := snapshot_of_reflects htab (by omega) hi (by rw [hrecord]) hreflects
  refine ⟨p, _, hconvert, rfl, ?_⟩
  rw [← hkey]
  refine ⟨hvalues, fun h4 a ha => ?_⟩
  obtain ⟨v, hv⟩ := hcurrent.mem_of_storedTo hnew₁ ha
  exact hrows h4 (a, v) (by rwa [hstores])

end Snapshot

/-- The clients on the way of the program. -/
def trackAndStoreClient (i : Nat) : Client Nat :=
  Client.run plainSetup trackAndStore i (.init 0 (fun _ => 0) (fun _ => 0) 0x400000)

/-- The program writes a word of eight bytes into the region, and calls no helper. -/
theorem writesWords_trackAndStore : ∀ i < 2, trackAndStoreBlock ∈ (trackAndStoreClient i).blocks →
    WritesWords 8 plainSetup trackAndStore.machine trackAndStoreBlock (trackAndStoreClient i)
      (trackAndStore.next (trackAndStoreClient i).core (trackAndStoreClient i).view).2 := by
  intro i hi hbk
  obtain rfl | rfl : i = 0 ∨ i = 1 := by omega
  · cases hbk
  · constructor
    · intro endness addr data hmem
      simp only [exitSuperblock, exitBlock, blockOf, List.map_cons, List.map_nil, List.mem_cons,
        Option.some.injEq, IRStmt.store.injEq, reduceCtorEq, List.not_mem_nil, or_false,
        false_or] at hmem
      rcases hmem with ⟨hle, -, -⟩ | ⟨hle, -, -⟩ <;> exact hle
    · have hlogged : Logged .i64 := by
        unfold Logged
        decide
      constructor
      · refine List.forall_mem_singleton.2 (.inr ⟨⟨.i64, rfl, hlogged⟩, rfl, ?_, ?_, ?_⟩) <;>
          decide
      · refine ⟨?_, fun _ => ⟨?_, fun hexit => absurd hexit (by decide)⟩⟩
        · rintro x - d ⟨⟩
        · rintro x - d ⟨⟩

theorem storedTo_trackAndStore : StoredTo trackAndStoreActions trackAndStoreBlock 0x1000 := by
  refine ⟨[.track trackAndStoreBlock], 7, [], rfl, by decide, fun mid hmid => ?_⟩
  rw [List.prefix_nil.1 hmid]
  decide

theorem snapshot_traced_trackAndStore :
    ∃ tr p, Traced.run plainSetup trackAndStore 2 (.init 0 (fun _ => 0) (fun _ => 0) 0x400000) =
        some tr ∧
      convertArchive .checking batchRows (oneFile parsedDir trackAndStoreRecord) = .ok p ∧
      ∃ s ∈ Query.snapshot p.rows, (s.allocAddr, s.generation) = (0x1000, 1) ∧ s.offset = 0 ∧
        s.value.toNat = tr.tool.mem.loadLE 0x1000 8 := by
  obtain ⟨tr, hrun, hpacks⟩ := exists_run_trackAndStore
  obtain ⟨files, hparse, htable⟩ := snapshot_traced trackAndStore 0 (fun _ => 0) (fun _ => 0)
    0x400000 2 2 rfl (by decide) (fun _ => rfl) writesWords_trackAndStore (by decide) (by decide)
    (List.append_nil _).symm (.inl rfl) hrun hrun rfl noRetrack_trackAndStore plain_trackAndStore
    (le_refl 1) (by decide)
  obtain ⟨p, key, hconvert, rfl, hvalues, hrows⟩ :=
    htable .checking batchRows _ _ (hpacks files hparse)
  obtain ⟨s, hs, hkey, hoffset⟩ := hrows (by decide) 0x1000 storedTo_trackAndStore
  have hzero : s.offset = 0 := hoffset.trans (by decide)
  have hvalue := hvalues s hs hkey
  rw [hzero] at hvalue
  exact ⟨tr, p, hrun, hconvert, s, hs, hkey, hzero, hvalue⟩

end Memlog.Program
