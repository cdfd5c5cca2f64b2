import Memlog.Mx.Block
import Memlog.Tool.Lookup

/-!
# Runs over a marked block

A block that `calloc` clears and the tool marks is made of fixed points of `mx_encode_block`, and
every instrumented store into it keeps it so, as long as the store is attributed to the block: the
tool looks a store up by its address, and a client region that starts inside the block hides the
part of the block above its start.
-/

namespace Memlog

open Lib

/-! ## Instrumented stores -/

/-- A store of the traced program: `size` bytes of `value` at `addr`. -/
structure StoreOp where
  addr : Addr
  size : HWord
  value : Nat

/-- A store as `wire_mx` instruments it: `mx_after_store` is called right after it. -/
def wiredStore (su : Setup) (st : StoreOp) : ToolM Unit := do
  write st.addr st.size.toNat st.value
  mxAfterStore su st.addr st.size

def wiredStores (su : Setup) : List StoreOp → ToolM Unit
  | [] => pure ()
  | st :: sts => do
    wiredStore su st
    wiredStores su sts

/-- The store lies inside the block. -/
def StoreOp.Inside (st : StoreOp) (bk : Block) : Prop :=
  0 < st.size.toNat ∧ dist bk.payload st.addr + st.size.toNat ≤ bk.reqSzB.toNat

/-- No tracked block starts between the start of the block and the store. -/
def StoreOp.Unhidden (st : StoreOp) (bk : Block) (bs : List Block) : Prop := bk.Unhidden st.addr bs

instance (st : StoreOp) (bk : Block) : Decidable (st.Inside bk) :=
  inferInstanceAs (Decidable (_ ∧ _))

instance (st : StoreOp) (bk : Block) (bs : List Block) : Decidable (st.Unhidden bk bs) :=
  inferInstanceAs (Decidable (bk.Unhidden st.addr bs))

/-- `find_block_containing` finds the block for the address. -/
def Finds (t : Tool) (a : Addr) (bk : Block) : Prop :=
  findBlockContaining a t.trackedBlocks = some (some bk, t.trackedBlocks)

/-- The memory after a store that is attributed to a marked block. -/
def storeInto (clo : Clo) (bk : Block) (st : StoreOp) (m : Mem) : Mem :=
  mxReencode clo bk st.addr st.size (m.storeLE st.addr st.size.toNat st.value)

/-! ## One store -/

section Step

variable {su : Setup} {t : Tool} {r : Registry} {bk : Block} {st : StoreOp}

theorem Refines.finds {a : Addr} (h : Refines su t r) (hfound : lookupBlock a r.blocks = some bk) :
    Finds t a bk := by
  rw [Finds, h.tracks.find a, hfound]

theorem mxAfterStore_of_finds {a : Addr} {size : HWord} (h : Finds t a bk) (hmx : bk.mx) :
    mxAfterStore su a size t =
      some ((), { t with mem := mxReencode su.clo bk a size t.mem }) := by
  have hfind : onTracked (findBlockContaining a) t = some (some bk, t) := by
    unfold onTracked
    rw [h]
    rfl
  rw [mxAfterStore, toolM_bind, hfind, Option.bind_some]
  simp only [if_pos hmx]

theorem mxAfterStore_of_unmarked {a : Addr} {size : HWord} (h : Refines su t r)
    (hno : ∀ b, lookupBlock a r.blocks = some b → b.mx = false) :
    mxAfterStore su a size t = some ((), t) := by
  rw [mxAfterStore, toolM_bind, h.find, Option.bind_some]
  cases hfound : lookupBlock a r.blocks with
  | none => rfl
  | some b => simp only [hno b hfound, Bool.false_eq_true, if_false, toolM_pure]

theorem wiredStore_of_finds (h : Finds t st.addr bk) (hmx : bk.mx) :
    wiredStore su st t = some ((), { t with mem := storeInto su.clo bk st t.mem }) := by
  have h₁ : Finds { t with mem := t.mem.storeLE st.addr st.size.toNat st.value } st.addr bk := h
  rw [wiredStore, toolM_bind, write, Option.bind_some, mxAfterStore_of_finds h₁ hmx]
  rfl

theorem wiredStores_of_finds (hmx : bk.mx) {sts : List StoreOp}
    (h : ∀ st ∈ sts, Finds t st.addr bk) :
    wiredStores su sts t =
      some ((), { t with mem := sts.foldl (fun m st => storeInto su.clo bk st m) t.mem }) := by
  induction sts generalizing t with
  | nil => rfl
  | cons st sts ih =>
    obtain ⟨hst, hsts⟩ := List.forall_mem_cons.1 h
    rw [wiredStores, toolM_bind, wiredStore_of_finds hst hmx, Option.bind_some]
    exact ih hsts

/-- A store inside a block that nothing hides is attributed to the block. -/
theorem lookupBlock_inside {bs : List Block} (hsorted : SortedBy Block.payload bs) (hbk : bk ∈ bs)
    (hwrap : bk.payload.toNat + bk.reqSzB.toNat < 2 ^ 64) (hin : st.Inside bk)
    (hfree : st.Unhidden bk bs) : lookupBlock st.addr bs = some bk := by
  refine lookupBlock_of_contains hsorted hbk hwrap (contains_of_dist hwrap ?_) hfree
  have hlt := hin.1
  exact lt_of_lt_of_le (Nat.lt_add_of_pos_right hlt) hin.2

theorem wiredStore_fixed (h : Refines su t r) (hbk : bk ∈ r.blocks) (hmx : bk.mx)
    (hwrap : bk.payload.toNat + bk.reqSzB.toNat < 2 ^ 64)
    (hemax : su.clo.mxEsz = 4 → su.clo.mxEmax ≤ 127) (hfixed : MxFixed su.clo bk t.mem)
    (hin : st.Inside bk) (hfree : st.Unhidden bk r.blocks) :
    ∃ t', wiredStore su st t = some ((), t') ∧ Refines su t' r ∧ MxFixed su.clo bk t'.mem := by
  have hfound := lookupBlock_inside h.tracks.sorted hbk hwrap hin hfree
  refine ⟨_, wiredStore_of_finds (h.finds hfound) hmx, h.congr rfl rfl rfl,
    fixed_mxReencode hemax hfixed hin.2 ?_⟩
  intro x hx
  exact ByteMem.storeLE_of_le hx

/-- A store that is attributed to no marked block stays as it is. -/
theorem wiredStore_of_unmarked (h : Refines su t r)
    (hno : ∀ b, lookupBlock st.addr r.blocks = some b → b.mx = false) : wiredStore su st t =
      some ((), { t with mem := t.mem.storeLE st.addr st.size.toNat st.value }) := by
  have h₁ : Refines su { t with mem := t.mem.storeLE st.addr st.size.toNat st.value } r :=
    h.congr rfl rfl rfl
  rw [wiredStore, toolM_bind, write, Option.bind_some, mxAfterStore_of_unmarked h₁ hno]

theorem wiredStore_unmarked (h : Refines su t r) (hfound : lookupBlock st.addr r.blocks = some bk)
    (hmx : bk.mx = false) : wiredStore su st t =
      some ((), { t with mem := t.mem.storeLE st.addr st.size.toNat st.value }) := by
  refine wiredStore_of_unmarked h fun b hb => ?_
  rw [hfound, Option.some.injEq] at hb
  rw [← hb, hmx]

theorem wiredStores_of_unmarked (h : Refines su t r) {sts : List StoreOp}
    (hno : ∀ st ∈ sts, ∀ b, lookupBlock st.addr r.blocks = some b → b.mx = false) :
    wiredStores su sts t = some ((), { t with
      mem := sts.foldl (fun m st => m.storeLE st.addr st.size.toNat st.value) t.mem }) := by
  induction sts generalizing t with
  | nil => rfl
  | cons st sts ih =>
    obtain ⟨hst, hsts⟩ := List.forall_mem_cons.1 hno
    have h₁ : Refines su { t with mem := t.mem.storeLE st.addr st.size.toNat st.value } r :=
      h.congr rfl rfl rfl
    rw [wiredStores, toolM_bind, wiredStore_of_unmarked h hst, Option.bind_some]
    exact ih h₁ hsts

/-- What a store does to the memory, by the block that the tool finds. -/
theorem wiredStore_cases (h : Refines su t r) (st : StoreOp) :
    (∃ bk ∈ r.blocks, bk.mx ∧ lookupBlock st.addr r.blocks = some bk ∧
        wiredStore su st t = some ((), { t with mem := storeInto su.clo bk st t.mem })) ∨
      wiredStore su st t =
        some ((), { t with mem := t.mem.storeLE st.addr st.size.toNat st.value }) := by
  cases hfound : lookupBlock st.addr r.blocks with
  | none =>
    refine .inr (wiredStore_of_unmarked h fun b hb => ?_)
    rw [hfound] at hb
    cases hb
  | some bk =>
    cases hmx : bk.mx with
    | false => exact .inr (wiredStore_unmarked h hfound hmx)
    | true =>
      have hbk := ((lookupBlock_eq_some h.tracks.sorted).1 hfound).1
      exact .inl ⟨bk, hbk, hmx, rfl, wiredStore_of_finds (h.finds hfound) hmx⟩

/-- Stores leave the regions and the heap as they are. -/
theorem wiredStores_refines (h : Refines su t r) (sts : List StoreOp) :
    ∃ t', wiredStores su sts t = some ((), t') ∧ Refines su t' r ∧ t'.heap = t.heap := by
  induction sts generalizing t with
  | nil => exact ⟨t, rfl, h, rfl⟩
  | cons st sts ih =>
    obtain ⟨m, hrun⟩ : ∃ m, wiredStore su st t = some ((), { t with mem := m }) := by
      rcases wiredStore_cases h st with ⟨_, _, _, _, hrun⟩ | hrun
      · exact ⟨_, hrun⟩
      · exact ⟨_, hrun⟩
    have h₁ : Refines su { t with mem := m } r := h.congr rfl rfl rfl
    obtain ⟨t', hrest, h', hheap⟩ := ih h₁
    refine ⟨t', ?_, h', hheap⟩
    rw [wiredStores, toolM_bind, hrun, Option.bind_some]
    exact hrest

theorem wiredStores_append {sts : List StoreOp} {t₁ : Tool}
    (h : wiredStores su sts t = some ((), t₁)) (sts' : List StoreOp) :
    wiredStores su (sts ++ sts') t = wiredStores su sts' t₁ := by
  induction sts generalizing t with
  | nil =>
    cases h
    rfl
  | cons st sts ih =>
    rw [wiredStores, toolM_bind] at h
    obtain ⟨p, hst, hsts⟩ := Option.bind_eq_some_iff.1 h
    rw [List.cons_append, wiredStores, toolM_bind, hst, Option.bind_some]
    exact ih hsts

/-- A region that hides an address of a marked block is not marked: marked blocks lie apart. -/
theorem unmarked_of_hidden {addr : Addr} (h : Refines su t r) (howned : Owned t.heap r.blocks)
    (hbk : bk ∈ r.blocks) (hmx : bk.mx) (hin : bk.Contains addr)
    (hhidden : ¬bk.Unhidden addr r.blocks) {b : Block}
      (hfound : lookupBlock addr r.blocks = some b) :
    b.mx = false := by
  obtain ⟨hb, hble, hmax, hbend⟩ := (lookupBlock_eq_some h.tracks.sorted).1 hfound
  rw [Bool.eq_false_iff]
  intro hbmx
  have hne : bk.payload ≠ b.payload := by
    rintro heq
    exact hhidden fun c hc hcle => heq ▸ hmax c hc hcle
  have hwrap := (howned.marked hb hbmx).1
  obtain ⟨hle, hlt⟩ := hin
  rw [BitVec.lt_def, BitVec.toNat_add, Nat.mod_eq_of_lt hwrap] at hbend
  rw [BitVec.le_def] at hle hble
  rcases howned.marked_apart hbk hmx hb hbmx hne with hapart | hapart <;> omega

theorem wiredStores_fixed (h : Refines su t r) (hbk : bk ∈ r.blocks) (hmx : bk.mx)
    (hwrap : bk.payload.toNat + bk.reqSzB.toNat < 2 ^ 64)
    (hemax : su.clo.mxEsz = 4 → su.clo.mxEmax ≤ 127) (hfixed : MxFixed su.clo bk t.mem)
    (sts : List StoreOp) (hsts : ∀ st ∈ sts, st.Inside bk ∧ st.Unhidden bk r.blocks) :
    ∃ t', wiredStores su sts t = some ((), t') ∧ MxFixed su.clo bk t'.mem := by
  induction sts generalizing t with
  | nil => exact ⟨t, rfl, hfixed⟩
  | cons st sts ih =>
    obtain ⟨hin, hfree⟩ := hsts st (by simp)
    obtain ⟨t₁, hrun₁, h₁, hfixed₁⟩ := wiredStore_fixed h hbk hmx hwrap hemax hfixed hin hfree
    obtain ⟨t₂, hrun₂, hfixed₂⟩ := ih h₁ hfixed₁ fun st' hst' => hsts st' (by simp [hst'])
    refine ⟨t₂, ?_, hfixed₂⟩
    rw [wiredStores, toolM_bind, hrun₁, Option.bind_some]
    exact hrun₂

end Step

/-! ## Blocks from `calloc` -/

/-- A marked block that starts where `calloc` just allocated is the block it allocated. -/
theorem calloc_marked {su : Setup} {t t₁ : Tool} {r : Registry} {who : Caller} {place : Place}
    {nmemb size1 : SizeT} {p : Addr} {bs : List Block} {bk : Block} (h : Refines su t r)
    (howned : Owned t.heap r.blocks)
    (hcalloc : mlCalloc su who place nmemb size1 t = some (some p, t₁))
    (htracks : Tracks t₁.trackedBlocks bs) (hbk : bk ∈ bs) (hp : bk.payload = p) (hmx : bk.mx) :
    ∃ r₁, Refines su t₁ r₁ ∧ r₁.blocks = bs ∧
      bk.payload.toNat + bk.reqSzB.toNat < 2 ^ 64 ∧
      ∀ x, dist bk.payload x < bk.reqSzB.toNat → t₁.mem x = 0#8 := by
  obtain ⟨t₁', hrun, h₁, hheap, hmem⟩ :=
    newBlock_refines h who place (nmemb * size1) mlMallocAlignment true
  unfold mlCalloc at hcalloc
  rw [hrun, Option.some.injEq, Prod.mk.injEq] at hcalloc
  obtain ⟨hres, rfl⟩ := hcalloc
  have hblocks := h₁.tracks.unique htracks
  obtain ⟨b, hb, hstart⟩ := Option.map_eq_some_iff.1 hres
  have howned₁ : Owned _ (r.run (newBlockActions su who
      (allocated t.heap place (nmemb * size1) mlMallocAlignment))).blocks := howned.newBlock ..
  rw [hb] at howned₁ hmem
  rw [hb] at hblocks
  obtain ⟨c, hc, hcstart, hcsize⟩ := howned₁.mx bk (hblocks ▸ hbk) hmx
  have hcb : c = b := by
    refine howned₁.eq_of_start hc (by simp) ?_
    rw [hcstart, hp, hstart]
  subst hcb
  refine ⟨_, hb ▸ h₁, hblocks, ?_, ?_⟩
  · exact (howned₁.marked (hblocks ▸ hbk) hmx).1
  · intro x hx
    rw [hmem, ← hcstart] at *
    rw [← hcsize] at hx
    exact if_pos hx

/-- **Fixed points of the encoder.** Encoding a group twice changes no bit, for doubles under every
setting and for floats under every setting with `emax ≤ 127`. A marked block from `calloc` consists
of fixed points after every sequence of instrumented stores inside it, if no tracked block starts
between the block's start and the address of a store. -/
theorem mxEncodeBlock_fixed_after_stores (su : Setup) :
    (∀ (f : FpFmt) (bk : Block) (bi : SizeT) (m : Mem),
      f = fmt64 ∨ f = fmt32 ∧ su.clo.mxEmax ≤ 127 →
      mxEncodeBlock su.clo f bk bi (mxEncodeBlock su.clo f bk bi m) =
        mxEncodeBlock su.clo f bk bi m) ∧
    ∀ (m : Mem) (acts : List Action) (t : Tool), Run su (.init m) acts t →
      ∀ (who : Caller) (place : Place) (nmemb size1 : SizeT) (p : Addr) (t₁ : Tool),
        mlCalloc su who place nmemb size1 t = some (some p, t₁) →
      ∀ (bs : List Block) (bk : Block), Tracks t₁.trackedBlocks bs → bk ∈ bs → bk.payload = p →
        bk.mx → (su.clo.mxEsz = 4 → su.clo.mxEmax ≤ 127) →
      ∀ sts : List StoreOp, (∀ st ∈ sts, st.Inside bk ∧ st.Unhidden bk bs) →
        ∃ t₂, wiredStores su sts t₁ = some ((), t₂) ∧ MxFixed su.clo bk t₂.mem := by
  constructor
  · intro f bk bi m hf
    rcases hf with rfl | ⟨rfl, hemax⟩
    · exact mxEncodeBlock_idem_of_le su.clo FpFmt.fmt64_ieee su.clo.mxEmax_range
    · exact mxEncodeBlock_idem_of_le su.clo FpFmt.fmt32_ieee hemax
  · intro m acts t hrun who place nmemb size1 p t₁ hcalloc bs bk htracks hbk hp hmx hemax sts hsts
    have hinit := Refines.init su m
    have h := hrun.refines hinit
    have howned := hrun.owned hinit .init
    obtain ⟨r₁, h₁, rfl, hwrap, hzero⟩ := calloc_marked h howned hcalloc htracks hbk hp hmx
    exact wiredStores_fixed h₁ hbk hmx hwrap hemax (fixed_of_zero hzero) sts hsts

/-- A marked block of four doubles. -/
def fourDoubles : Block := ⟨0x10000#64, 32#64, [], true⟩

/-- A store of `1.1` into the second element. -/
def secondElement : StoreOp := ⟨0x10008#64, 8#64, 0x3FF199999999999A⟩

/-- Four doubles from `calloc`. -/
def callocDoubles : Call := ⟨⟨[], []⟩, some (0x10000#64, 32#64), .calloc 4 8⟩

/-- The program tracks the second of them as a region of its own. -/
def trackSecond : Call := ⟨⟨[], []⟩, none, .request (.trackBlock 0x10008#64 8)⟩

/-- The memory after a store of `1.1` to the second double. -/
def secondStored : Mem := ByteMem.storeLE (fun _ => 0#8) 0x10008#64 8 0x3FF199999999999A

/-- Four doubles from `calloc`. -/
theorem exists_fourDoubles :
    ∃ t₁, mlCalloc markAll ⟨[], []⟩ (some (0x10000#64, 32#64)) 4 8 (.init fun _ => 0#8) =
        some (some 0x10000#64, t₁) ∧
      Refines markAll t₁ (Registry.init.step (.track fourDoubles)) ∧ ∀ x, t₁.mem x = 0#8 := by
  have hb : allocated [] (some (0x10000#64, 32#64)) (4 * 8) mlMallocAlignment =
      some ⟨0x10000#64, 32#64, 32#64⟩ := by decide
  obtain ⟨t₁, hrun, h₁, -, hmem⟩ := newBlock_refines (Refines.init markAll fun _ => 0#8) ⟨[], []⟩
    (some (0x10000#64, 32#64)) (4 * 8) mlMallocAlignment true
  refine ⟨t₁, ?_, h₁, fun x => ?_⟩
  · rw [mlCalloc, hrun]
    exact congrArg (fun b => some (b.map CliBlock.start, t₁)) hb
  · rw [hmem]
    exact ite_self _

/-- The call of `calloc` as a step of a run. -/
theorem exec_fourDoubles :
    ∃ t, Op.exec markAll ⟨[], []⟩ (some (0x10000#64, 32#64)) (.calloc 4 8) (.init fun _ => 0#8) =
        some ((), t) ∧
      Refines markAll t (Registry.init.step (.track fourDoubles)) ∧ t.mem = fun _ => 0#8 := by
  obtain ⟨t, hcalloc, h, hmem⟩ := exists_fourDoubles
  refine ⟨t, ?_, h, funext hmem⟩
  rw [Op.exec, toolM_bind, hcalloc]
  rfl

/-- A request to track a region as a step of a run. -/
theorem exec_trackBlock {su : Setup} {t : Tool} {r : Registry} (h : Refines su t r) (who : Caller)
    (addr : Addr) {size : SizeT} (hsize : 0 < size) :
    ∃ t', Op.exec su who none (.request (.trackBlock addr size)) t = some ((), t') ∧
      Refines su t' (r.step (.track (clientBlock who addr size))) ∧ t'.mem = t.mem := by
  obtain ⟨t', htrack, h', hsame⟩ := trackBlock_refines h (clientBlock who addr size)
  refine ⟨t', ?_, h', hsame.mem⟩
  rw [Op.exec, mlHandleClientRequest, if_pos hsize, toolM_bind, toolM_bind, htrack]
  rfl

/-- A store into a block of four doubles from `calloc`. -/
theorem mxEncodeBlock_fixed_after_stores_one :
    ∃ t₁ t₂, mlCalloc markAll ⟨[], []⟩ (some (0x10000#64, 32#64)) 4 8 (.init fun _ => 0#8) =
        some (some 0x10000#64, t₁) ∧
      wiredStores markAll [secondElement] t₁ = some ((), t₂) ∧
      MxFixed markAll.clo fourDoubles t₂.mem := by
  obtain ⟨t₁, hcalloc, h₁, -⟩ := exists_fourDoubles
  have htracks : Tracks t₁.trackedBlocks [fourDoubles] := h₁.tracks
  obtain ⟨t₂, hstores, hfixed⟩ := (mxEncodeBlock_fixed_after_stores markAll).2 (fun _ => 0#8) []
    (.init fun _ => 0#8) (.refl _) _ _ _ _ _ t₁ hcalloc _ _ htracks (List.mem_singleton.2 rfl) rfl
      rfl
    (by decide) [secondElement] (by decide)
  exact ⟨t₁, t₂, hcalloc, hstores, hfixed⟩

/-- The program tracks a region of a small block and frees the block without untracking it. -/
def staleRegion : List Call :=
  [⟨⟨[], []⟩, some (0x10000#64, 16#64), .malloc 16⟩,
    ⟨⟨[], []⟩, none, .request (.trackBlock 0x10008#64 8)⟩,
    ⟨⟨[], []⟩, none, .free 0x10000#64⟩]

/-- A stale client region inside a marked block from `calloc` hides a store from the encoder. -/
theorem mxEncodeBlock_not_fixed_after_store :
    ∃ acts t t₁ t₂ bs, Run markAll (.init fun _ => 0#8) acts t ∧
      mlCalloc markAll ⟨[], []⟩ (some (0x10000#64, 32#64)) 4 8 t = some (some 0x10000#64, t₁) ∧
      Tracks t₁.trackedBlocks bs ∧ fourDoubles ∈ bs ∧ secondElement.Inside fourDoubles ∧
      wiredStores markAll [secondElement] t₁ = some ((), t₂) ∧
      ¬MxFixed markAll.clo fourDoubles t₂.mem := by
  obtain ⟨t, hrun, h, hheap⟩ := exists_run (Refines.init markAll fun _ => 0#8) staleRegion
  have hb : allocated t.heap (some (0x10000#64, 32#64)) (4 * 8) mlMallocAlignment =
      some ⟨0x10000#64, 32#64, 32#64⟩ := by
    rw [hheap]
    decide
  obtain ⟨t₁, hnew, h₁, -, hmem⟩ := newBlock_refines h ⟨[], []⟩ (some (0x10000#64, 32#64)) (4 * 8)
    mlMallocAlignment true
  rw [hb] at hnew h₁ hmem
  have hcalloc : mlCalloc markAll ⟨[], []⟩ (some (0x10000#64, 32#64)) 4 8 t =
      some (some 0x10000#64, t₁) := hnew
  have hblocks : ((Registry.init.run (callActions markAll [] staleRegion)).run
      (newBlockActions markAll ⟨[], []⟩ (some ⟨0x10000#64, 32#64, 32#64⟩))).blocks =
        [fourDoubles, ⟨0x10008#64, 8#64, [], false⟩] := by decide
  have htracks : Tracks t₁.trackedBlocks [fourDoubles, ⟨0x10008#64, 8#64, [], false⟩] :=
    hblocks ▸ h₁.tracks
  -- the client region is found first, and it is not marked
  have hfound : lookupBlock secondElement.addr
      ((Registry.init.run (callActions markAll [] staleRegion)).run
      (newBlockActions markAll ⟨[], []⟩ (some ⟨0x10000#64, 32#64, 32#64⟩))).blocks =
        some ⟨0x10008#64, 8#64, [], false⟩ := by
    rw [hblocks]
    decide
  have hstores : wiredStores markAll [secondElement] t₁ =
      some ((), { t₁ with mem := t₁.mem.storeLE 0x10008#64 8 0x3FF199999999999A }) := by
    rw [wiredStores, toolM_bind, wiredStore_unmarked h₁ hfound rfl]
    rfl
  refine ⟨_, t, t₁, _, _, hrun, hcalloc, htracks, List.mem_cons_self, by decide, hstores, ?_⟩
  intro hfixed
  have hbytes : ∀ x, dist 0x10000#64 x < 32 → t₁.mem.storeLE 0x10008#64 8 0x3FF199999999999A x =
      ByteMem.storeLE (fun _ => 0#8) 0x10008#64 8 0x3FF199999999999A x := by
    intro x hx
    have hzero : t₁.mem x = 0#8 := by
      rw [hmem]
      exact if_pos hx
    unfold ByteMem.storeLE
    rw [hzero]
  have hbase : mxGroupBase (mxFormat markAll.clo) fourDoubles 0#64 = 0x10000#64 := by decide
  have hlen : mxGroupLen (mxFormat markAll.clo) fourDoubles 0#64 * (mxFormat markAll.clo).esz =
      32 := by
    decide
  have hgroup : mxEncodeBlock markAll.clo (mxFormat markAll.clo) fourDoubles 0#64
      (ByteMem.storeLE (fun _ => 0#8) 0x10008#64 8 0x3FF199999999999A) =
        ByteMem.storeLE (fun _ => 0#8) 0x10008#64 8 0x3FF199999999999A := by
    refine (mxEncodeBlock_eq_self_congr markAll.clo (mxFormat_ieee _) ?_).1 (hfixed 0 (by decide))
    rw [hbase, hlen]
    exact hbytes
  rw [mxEncodeBlock_eq_self_iff markAll.clo (mxFormat_ieee _)] at hgroup
  revert hgroup
  decide +kernel

end Memlog
