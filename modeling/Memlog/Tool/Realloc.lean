import Memlog.Tool.Heap

/-!
# `ml_realloc`

What `ml_realloc` of a live block copies. The length of the copy is the size of the region that the
lookup at the old address finds, which need not be the old block's: `mlRealloc_copies_iff` gives the
condition under which the contents are kept and only the old block is read.
-/

namespace Memlog

open Lib

/-- The state with other contents of the memory. -/
def Tool.withMem (t : Tool) (m : Mem) : Tool := { t with mem := m }

theorem Run.trans {su : Setup} {t t' t'' : Tool} {acts acts' : List Action} (h : Run su t acts t')
    (h' : Run su t' acts' t'') : Run su t (acts ++ acts') t'' := by
  induction h with
  | refl t => exact h'
  | step who place op hexec hrun ih =>
    rw [List.append_assoc]
    exact .step who place op hexec (ih h')

section Copy

variable {su : Setup} {t : Tool} {r : Registry} {who : Caller} {place : Place} {pOld : Addr}
  {newSzB : SizeT} {b : CliBlock}

/-- The size of the new block. -/
def reallocSize (newSzB : SizeT) : SizeT := if newSzB = 0 then 1 else newSzB

/-- **The memory after `ml_realloc`**, for every content of the memory before it. -/
theorem mlRealloc_mem (h : Refines su t r) (hp : pOld ≠ 0)
    (hn : ¬(newSzB = 0 ∧ su.clo.reallocZeroBytesFrees))
    (hb : allocated t.heap place (reallocSize newSzB) mlMallocAlignment = some b) (m : Mem) :
    ∃ t', mlRealloc su who place pOld newSzB (t.withMem m) = some (some b.start, t') ∧
      t'.mem = m.move b.start pOld (min (reallocOldSize t r pOld) (reallocSize newSzB)).toNat := by
  have hm : Refines su (t.withMem m) r := h.congr rfl rfl rfl
  rw [mlRealloc_copy hm who place hp hn]
  obtain ⟨t₁, hrun₁, h₁, -, hmem₁⟩ :=
    newBlock_refines hm who place (reallocSize newSzB) mlMallocAlignment false
  have hb' : allocated (t.withMem m).heap place (reallocSize newSzB) mlMallocAlignment = some b :=
    hb
  rw [hb'] at hrun₁ hmem₁
  rw [reallocSize] at hrun₁
  rw [hrun₁, Option.bind_some, Option.map_some, reallocMove]
  have hold : reallocOldSize (t.withMem m) r pOld = reallocOldSize t r pOld := rfl
  rw [hold, ← reallocSize]
  generalize (min (reallocOldSize t r pOld) (reallocSize newSzB)).toNat = n
  obtain ⟨t₂, hrun₂, -, -, hmem₂⟩ :=
    dieBlock_refines (t := { t₁ with mem := t₁.mem.move b.start pOld n }) (h₁.congr rfl rfl rfl)
      who pOld
  rw [hrun₂]
  refine ⟨t₂, rfl, ?_⟩
  rw [hmem₂, hmem₁]
  rfl

/-- `ml_realloc` without memory for the new block. -/
theorem mlRealloc_none (h : Refines su t r) (hp : pOld ≠ 0)
    (hn : ¬(newSzB = 0 ∧ su.clo.reallocZeroBytesFrees))
    (hb : allocated t.heap place (reallocSize newSzB) mlMallocAlignment = none) :
    mlRealloc su who place pOld newSzB t = some (none, t) := by
  rw [mlRealloc_copy h who place hp hn]
  rw [reallocSize] at hb
  rw [newBlock_none hb]
  rfl

end Copy

/-! ## What a copy keeps and reads -/

section Move

variable {dst src : Addr} {k len n usable : Nat}

/-- A copy of `len` bytes, seen from the destination. -/
theorem move_apply (m : Mem) (i : Nat) (hi : i < 2 ^ 64) :
    m.move dst src len (dst + BitVec.ofNat 64 i) =
      if i < len then m (src + BitVec.ofNat 64 i) else m (dst + BitVec.ofNat 64 i) := by
  unfold ByteMem.move
  rw [dist_add dst hi, add_sub_cancel_left]

/-- The memory that is zero but for one byte. -/
def oneByte (a : Addr) : Mem := fun x => if x = a then 1 else 0

theorem oneByte_self (a : Addr) : oneByte a a = 1 := if_pos rfl

theorem oneByte_of_ne {a x : Addr} (h : x ≠ a) : oneByte a x = 0 := if_neg h

/-- The first `k` bytes are kept, whatever they are, if and only if they are copied. -/
theorem move_keeps_iff (hne : dst ≠ src) (hk : k ≤ 2 ^ 64) :
    (∀ (m : Mem), ∀ i < k, m.move dst src len (dst + BitVec.ofNat 64 i) =
      m (src + BitVec.ofNat 64 i)) ↔ k ≤ len := by
  constructor
  · intro hkeep
    by_contra hlt
    have hbyte := hkeep (oneByte (src + BitVec.ofNat 64 len)) len (by omega)
    have hother : dst + BitVec.ofNat 64 len ≠ src + BitVec.ofNat 64 len := by simpa using hne
    rw [move_apply _ _ (by omega), if_neg (Nat.lt_irrefl len), oneByte_of_ne hother, oneByte_self]
      at hbyte
    exact absurd hbyte (by decide)
  · intro hle m i hi
    rw [move_apply _ _ (by omega), if_pos (by omega)]

/-- What a destination of `n` bytes holds afterwards is given by what it held and by `usable` bytes
of the source, if and only if no more bytes are copied. -/
theorem move_reads_iff (hne : dst ≠ src) (hlen : len ≤ n) (hn : n ≤ 2 ^ 64) :
    (∀ m m' : Mem, (∀ i < usable, m (src + BitVec.ofNat 64 i) = m' (src + BitVec.ofNat 64 i)) →
        ∀ j < n, m (dst + BitVec.ofNat 64 j) = m' (dst + BitVec.ofNat 64 j) →
          m.move dst src len (dst + BitVec.ofNat 64 j) =
            m'.move dst src len (dst + BitVec.ofNat 64 j)) ↔
      len ≤ usable := by
  constructor
  · intro hreads
    by_contra hlt
    have hother : dst + BitVec.ofNat 64 usable ≠ src + BitVec.ofNat 64 usable := by simpa using hne
    have hagree : ∀ i < usable, oneByte (src + BitVec.ofNat 64 usable) (src + BitVec.ofNat 64 i) =
        (fun _ => 0 : Mem) (src + BitVec.ofNat 64 i) := by
      intro i hi
      refine oneByte_of_ne fun heq => ?_
      have hdist := congrArg (dist src) heq
      rw [dist_add src (by omega), dist_add src (by omega)] at hdist
      omega
    have hbyte := hreads (oneByte (src + BitVec.ofNat 64 usable)) (fun _ => 0) hagree usable
      (by omega) (oneByte_of_ne hother)
    rw [move_apply _ _ (by omega), move_apply _ _ (by omega), if_pos (by omega), if_pos (by omega),
      oneByte_self] at hbyte
    exact absurd hbyte (by decide)
  · intro hle m m' hagree j hj hsame
    rw [move_apply _ _ (by omega), move_apply _ _ (by omega)]
    split
    · exact hagree j (by omega)
    · exact hsame

end Move

/-! ## `ml_realloc` of a live block -/

/-- The first bytes of the new block are those of the old one, for every content of the memory. -/
def KeepsContents (su : Setup) (who : Caller) (place : Place) (t : Tool) (b : CliBlock)
    (newSzB : SizeT) (pNew : Addr) : Prop :=
  ∀ m, ∃ t', mlRealloc su who place b.start newSzB (t.withMem m) = some (some pNew, t') ∧
    ∀ i < min b.size.toNat newSzB.toNat,
      t'.mem (pNew + BitVec.ofNat 64 i) = m (b.start + BitVec.ofNat 64 i)

/-- What the new block holds is given by what its memory held before and by the usable area of the
old block: nothing else is read. -/
def ReadsOldBlock (su : Setup) (who : Caller) (place : Place) (t : Tool) (b : CliBlock)
    (newSzB : SizeT) (pNew : Addr) : Prop :=
  ∀ m m' t₁ t₂, mlRealloc su who place b.start newSzB (t.withMem m) = some (some pNew, t₁) →
    mlRealloc su who place b.start newSzB (t.withMem m') = some (some pNew, t₂) →
    (∀ i < b.usable.toNat, m (b.start + BitVec.ofNat 64 i) = m' (b.start + BitVec.ofNat 64 i)) →
    ∀ j < (reallocSize newSzB).toNat, m (pNew + BitVec.ofNat 64 j) = m' (pNew + BitVec.ofNat 64 j) →
      t₁.mem (pNew + BitVec.ofNat 64 j) = t₂.mem (pNew + BitVec.ofNat 64 j)

/-- If a tracked region is found at the old address, its size is at least that of what is to be
kept, and the part of it that fits into the new block is not longer than the usable area. -/
def CopyFits (bs : List Block) (b : CliBlock) (newSzB : SizeT) : Prop :=
  ∀ bk, lookupBlock b.start bs = some bk →
    min b.size.toNat newSzB.toNat ≤ bk.reqSzB.toNat ∧
      min bk.reqSzB.toNat (reallocSize newSzB).toNat ≤ b.usable.toNat

theorem toNat_min (x y : SizeT) : (min x y).toNat = min x.toNat y.toNat := by
  rcases le_total x y with h | h
  · rw [min_eq_left h, min_eq_left (BitVec.le_def.1 h)]
  · rw [min_eq_right h, min_eq_right (BitVec.le_def.1 h)]

theorem le_reallocSize (newSzB : SizeT) : newSzB.toNat ≤ (reallocSize newSzB).toNat := by
  rw [reallocSize]
  split
  · rename_i hzero
    rw [hzero]
    exact Nat.zero_le _
  · exact le_rfl

/-- The length of the copy lies between what is to be kept and the usable area. -/
theorem copyFits_iff {t : Tool} {r : Registry} {b : CliBlock} (h : Owned t.heap r.blocks)
    (hb : b ∈ t.heap) (newSzB : SizeT) :
    CopyFits r.blocks b newSzB ↔
      min b.size.toNat newSzB.toNat ≤
          min (reallocOldSize t r b.start).toNat (reallocSize newSzB).toNat ∧
        min (reallocOldSize t r b.start).toNat (reallocSize newSzB).toNat ≤ b.usable.toNat := by
  have hle := le_reallocSize newSzB
  have hsize : b.size.toNat ≤ b.usable.toNat := BitVec.le_def.1 (h.ok b hb).1.size_le
  rw [CopyFits, reallocOldSize]
  cases lookupBlock b.start r.blocks with
  | none =>
    have hfind : t.heap.find? (fun c => decide (c.start = b.start)) = some b := by
      cases hfind : t.heap.find? (fun c => decide (c.start = b.start)) with
      | none =>
        have := List.find?_eq_none.1 hfind b hb
        simp at this
      | some c =>
        have hstart : c.start = b.start := by simpa using List.find?_some hfind
        rw [h.eq_of_start (List.mem_of_find?_eq_some hfind) hb hstart]
    simp only [hfind, Option.map_some, Option.getD_some]
    refine ⟨fun _ => ⟨by omega, by omega⟩, fun _ bk hbk => by cases hbk⟩
  | some bk =>
    simp only [Option.some.injEq, forall_eq']
    refine ⟨fun hfits => ⟨by omega, hfits.2⟩, fun hfits => ⟨by omega, hfits.2⟩⟩

section Iff

variable {su : Setup} {t : Tool} {who : Caller} {place : Place} {newSzB : SizeT} {b : CliBlock}
  {pNew : Addr} {len : Nat}

theorem keepsContents_iff (hne : pNew ≠ b.start)
    (hmem : ∀ m, ∃ t', mlRealloc su who place b.start newSzB (t.withMem m) = some (some pNew, t') ∧
      t'.mem = m.move pNew b.start len) :
    KeepsContents su who place t b newSzB pNew ↔ min b.size.toNat newSzB.toNat ≤ len := by
  have hsize := b.size.isLt
  rw [← move_keeps_iff hne (by omega)]
  refine forall_congr' fun m => ?_
  obtain ⟨t', hrun, ht'⟩ := hmem m
  constructor
  · rintro ⟨t₁, hrun₁, hkeep⟩
    cases hrun.symm.trans hrun₁
    rwa [ht'] at hkeep
  · intro hkeep
    refine ⟨t', hrun, ?_⟩
    rwa [ht']

theorem readsOldBlock_iff (hne : pNew ≠ b.start) (hlen : len ≤ (reallocSize newSzB).toNat)
    (hmem : ∀ m, ∃ t', mlRealloc su who place b.start newSzB (t.withMem m) = some (some pNew, t') ∧
      t'.mem = m.move pNew b.start len) :
    ReadsOldBlock su who place t b newSzB pNew ↔ len ≤ b.usable.toNat := by
  rw [← move_reads_iff hne hlen (Nat.le_of_lt (reallocSize newSzB).isLt)]
  refine forall₂_congr fun m m' => ?_
  obtain ⟨t₁, hrun₁, ht₁⟩ := hmem m
  obtain ⟨t₂, hrun₂, ht₂⟩ := hmem m'
  constructor
  · intro hreads hagree j hj hsame
    rw [← ht₁, ← ht₂]
    exact hreads t₁ t₂ hrun₁ hrun₂ hagree j hj hsame
  · intro hreads t₁' t₂' hrun₁' hrun₂' hagree j hj hsame
    cases hrun₁.symm.trans hrun₁'
    cases hrun₂.symm.trans hrun₂'
    rw [ht₁, ht₂]
    exact hreads hagree j hj hsame

end Iff

/-- **`ml_realloc` of a live heap block.** In every reachable state, if there is no memory for the
new block, `NULL` is returned and nothing is changed. If there is, the contents are kept up to the
smaller of the two sizes and only the usable area of the old block is read, if and only if the
region that is found at the old address, if any, has a size that fits. -/
theorem mlRealloc_copies_iff (su : Setup) (m : Mem) (acts : List Action) (t : Tool)
    (hrun : Run su (.init m) acts t) (bs : List Block) (hbs : Tracks t.trackedBlocks bs)
    (b : CliBlock) (hb : b ∈ t.heap) (who : Caller) (place : Place) (newSzB : SizeT)
    (hn : ¬(newSzB = 0 ∧ su.clo.reallocZeroBytesFrees)) :
    (allocated t.heap place (reallocSize newSzB) mlMallocAlignment = none →
        mlRealloc su who place b.start newSzB t = some (none, t)) ∧
      ∀ new, allocated t.heap place (reallocSize newSzB) mlMallocAlignment = some new →
        (KeepsContents su who place t b newSzB new.start ∧
            ReadsOldBlock su who place t b newSzB new.start ↔
          CopyFits bs b newSzB) := by
  have h : Refines su t (Registry.init.run acts) := hrun.refines (.init su m)
  have howned : Owned t.heap (Registry.init.run acts).blocks := hrun.owned (.init su m) .init
  obtain rfl := hbs.unique h.tracks
  have hok := howned.ok b hb
  refine ⟨mlRealloc_none h hok.1.start_ne hn, fun new hnew => ?_⟩
  have hne : new.start ≠ b.start := by
    obtain ⟨-, hnewOk, hapart⟩ := allocated_spec hnew
    exact (hapart b hb).start_ne hnewOk (allocated_pos hnew) hok.1 hok.2
  have hmem : ∀ m, ∃ t', mlRealloc su who place b.start newSzB (t.withMem m) =
      some (some new.start, t') ∧ t'.mem = _ := mlRealloc_mem h hok.1.start_ne hn hnew
  have hkeeps : KeepsContents su who place t b newSzB new.start ↔ _ :=
    keepsContents_iff hne hmem
  have hreads : ReadsOldBlock su who place t b newSzB new.start ↔ _ :=
    readsOldBlock_iff hne (by rw [toNat_min]; exact min_le_right ..) hmem
  rw [hkeeps, hreads, copyFits_iff howned hb, toNat_min]

/-- A block of 64 bytes at `0x10020`, and a region that starts before the block and ends in it. -/
def beforeBlock (size : SizeT) : List Call :=
  [⟨⟨[], []⟩, some (0x10020, 64), .malloc 64⟩,
    ⟨⟨[], []⟩, none, .request (.trackBlock 0x10000 size)⟩]

theorem mlRealloc_copies_iff_apart :
    ∃ acts t, Run plainSetup (.init fun _ => 0) acts t ∧ (⟨0x10020, 64, 64⟩ : CliBlock) ∈ t.heap ∧
      KeepsContents plainSetup ⟨[], []⟩ (some (0x20000, 128)) t ⟨0x10020, 64, 64⟩ 128 0x20000 := by
  obtain ⟨t, hrun, h, hheap⟩ := exists_run (Refines.init plainSetup fun _ => 0) (beforeBlock 0x10)
  have hb : (⟨0x10020, 64, 64⟩ : CliBlock) ∈ t.heap := by
    rw [hheap]
    decide
  have hnew : allocated t.heap (some (0x20000, 128)) (reallocSize 128) mlMallocAlignment =
      some ⟨0x20000, 128, 128⟩ := by
    rw [hheap]
    decide
  refine ⟨_, t, hrun, hb, ?_⟩
  refine (((mlRealloc_copies_iff plainSetup _ _ t hrun _ h.tracks _ hb ⟨[], []⟩
    (some (0x20000, 128)) 128 (by decide)).2 _ hnew).2 fun bk hbk => ?_).1
  have hnone : lookupBlock 0x10020
      (Registry.init.run (callActions plainSetup [] (beforeBlock 0x10))).blocks = none := by decide
  cases hnone.symm.trans hbk

/-- The region that is found at the address of the block covers 8 bytes of it, so that only its 40
bytes are copied and the byte at offset 50 is lost. -/
theorem mlRealloc_not_keeps :
    ∃ acts t t', Run plainSetup (.init fun _ => 0) acts t ∧
      (⟨0x10020, 64, 64⟩ : CliBlock) ∈ t.heap ∧
      mlRealloc plainSetup ⟨[], []⟩ (some (0x20000, 128)) 0x10020 128 t = some (some 0x20000, t') ∧
      t.mem (0x10020 + 50) = 1 ∧ t'.mem (0x20000 + 50) = 0 := by
  obtain ⟨t₀, hrun, h, hheap⟩ := exists_run (Refines.init plainSetup fun _ => 0) (beforeBlock 40)
  let mem := (t₀.mem.storeLE 0x10052 1 1).storeLE 0x20032 1 0
  have hwrites : Run plainSetup t₀ [] (t₀.withMem mem) :=
    .step ⟨[], []⟩ none (.write 0x10052 1 1) rfl
      (.step ⟨[], []⟩ none (.write 0x20032 1 0) rfl (.refl _))
  have hb : (⟨0x10020, 64, 64⟩ : CliBlock) ∈ t₀.heap := by
    rw [hheap]
    decide
  have hnew : allocated t₀.heap (some (0x20000, 128)) (reallocSize 128) mlMallocAlignment =
      some ⟨0x20000, 128, 128⟩ := by
    rw [hheap]
    decide
  have hfound : lookupBlock 0x10020
      (Registry.init.run (callActions plainSetup [] (beforeBlock 40))).blocks =
        some (clientBlock ⟨[], []⟩ 0x10000 40) := by decide
  obtain ⟨t', hrealloc, hmem⟩ : ∃ t',
      mlRealloc plainSetup ⟨[], []⟩ (some (0x20000, 128)) 0x10020 128
      (t₀.withMem mem) = some (some 0x20000, t') ∧ t'.mem = _ :=
    mlRealloc_mem h (by decide) (by decide) hnew mem
  refine ⟨_, t₀.withMem mem, t', hrun.trans hwrites, hb, hrealloc, rfl, ?_⟩
  have hold : reallocOldSize t₀ (Registry.init.run (callActions plainSetup [] (beforeBlock 40)))
      0x10020 = 40 := by
    rw [reallocOldSize, hfound]
    rfl
  have hbyte : mem.move 0x20000 0x10020 40 (0x20000 + BitVec.ofNat 64 50) = _ :=
    move_apply mem 50 (by decide)
  rw [hmem]
  exact (congrArg (fun n => mem.move 0x20000 0x10020 (min n (reallocSize 128)).toNat (0x20000 + 50))
    hold).trans hbyte

end Memlog
