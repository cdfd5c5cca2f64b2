import Memlog.Tool.Heap

/-!
# Regions and lookups

Which regions are tracked follows from the history of a run alone (`regions`). The end of a region
that reaches the end of the address space computes to `0`, so no lookup finds it, it cannot be
removed, and it stays in the tree for good (`endless`). As long as no tracked start is tracked
again, the tree holds these regions and the others that are tracked (`Holds.run`). A store is logged
if the region of the tree with the largest start not above its address contains the address;
`logStore_logs_iff` says when that agrees with logging what overlaps a tracked region.
-/

namespace Memlog

open Lib

/-! ## Regions by history -/

/-- The tracked regions after an action. -/
def Action.regions (l : List Block) : Action → List Block
  | track bk => bk :: l
  | untrack addr _ => l.filter fun bk => bk.payload ≠ addr
  | store _ _ => l

/-- The tracked regions after a run. -/
def regions (acts : List Action) : List Block := acts.foldl Action.regions []

/-- The region ends at the end of the address space. -/
def Block.Endless (bk : Block) : Prop := bk.payload.toNat + bk.reqSzB.toNat = 2 ^ 64

instance (bk : Block) : Decidable bk.Endless := inferInstanceAs (Decidable (_ = _))

/-- The region that an action tracks. -/
def Action.tracked? : Action → Option Block
  | track bk => some bk
  | _ => none

/-- The regions that were tracked in a run and end at the end of the address space, also those that
were untracked since. -/
def endless (acts : List Action) : List Block :=
  (acts.filterMap Action.tracked?).filter fun bk => bk.Endless

/-- Every region that is tracked starts at an address that is not tracked, and does not wrap around.
-/
def Fresh : List Block → List Action → Prop
  | _, [] => True
  | l, act :: acts =>
    (∀ bk, act = .track bk →
      bk.payload ∉ l.map Block.payload ∧ bk.payload.toNat + bk.reqSzB.toNat ≤ 2 ^ 64) ∧
      Fresh (act.regions l) acts

/-- The region contains the address. -/
def Block.Contains (bk : Block) (a : Addr) : Prop :=
  bk.payload ≤ a ∧ a.toNat < bk.payload.toNat + bk.reqSzB.toNat

instance (bk : Block) (a : Addr) : Decidable (bk.Contains a) := inferInstanceAs (Decidable (_ ∧ _))

/-- No block starts between the start of the block and the address. -/
def Block.Unhidden (bk : Block) (a : Addr) (bs : List Block) : Prop :=
  ∀ b ∈ bs, b.payload ≤ a → b.payload ≤ bk.payload

instance (bk : Block) (a : Addr) (bs : List Block) : Decidable (bk.Unhidden a bs) :=
  inferInstanceAs (Decidable (∀ b ∈ bs, _))

section Contains

variable {bk : Block} {x : Addr}

/-- The position of a byte of a block. -/
theorem Block.Contains.dist_eq (h : bk.Contains x) :
    bk.payload.toNat + dist bk.payload x = x.toNat ∧ dist bk.payload x < bk.reqSzB.toNat := by
  obtain ⟨hle, hlt⟩ := h
  rw [BitVec.le_def] at hle
  rw [dist_eq_sub hle]
  omega

theorem contains_of_dist (hwrap : bk.payload.toNat + bk.reqSzB.toNat < 2 ^ 64)
    (h : dist bk.payload x < bk.reqSzB.toNat) : bk.Contains x := by
  have hx := toNat_of_dist (a := bk.payload) (x := x) (by omega)
  refine ⟨?_, by omega⟩
  rw [BitVec.le_def]
  omega

/-- A block that contains the address and that nothing hides is found. -/
theorem lookupBlock_of_contains {bs : List Block} (hsorted : SortedBy Block.payload bs)
    (hbk : bk ∈ bs) (hwrap : bk.payload.toNat + bk.reqSzB.toNat < 2 ^ 64) (hin : bk.Contains x)
    (hfree : bk.Unhidden x bs) : lookupBlock x bs = some bk := by
  refine (lookupBlock_eq_some hsorted).2 ⟨hbk, hin.1, hfree, ?_⟩
  rw [BitVec.lt_def, BitVec.toNat_add, Nat.mod_eq_of_lt hwrap]
  exact hin.2

end Contains

/-- One of the `k` bytes at `a` lies in a region. -/
def Overlaps (a : Addr) (k : Nat) (l : List Block) : Prop :=
  ∃ bk ∈ l, ∃ i < k, bk.Contains (a + BitVec.ofNat 64 i)

instance (a : Addr) (k : Nat) (l : List Block) : Decidable (Overlaps a k l) :=
  inferInstanceAs (Decidable (∃ bk ∈ l, ∃ i < k, bk.Contains (a + BitVec.ofNat 64 i)))

/-- A region contains the address, no other region starts between its start and the address, nor
does one of those in `z` start there or at its start. -/
def Visible (a : Addr) (l z : List Block) : Prop :=
  ∃ bk ∈ l, bk.Contains a ∧ bk.Unhidden a l ∧ ∀ b ∈ z, b.payload ≤ a → b.payload < bk.payload

instance (a : Addr) (l z : List Block) : Decidable (Visible a l z) :=
  inferInstanceAs (Decidable (∃ bk ∈ l, bk.Contains a ∧ bk.Unhidden a l ∧
    ∀ b ∈ z, b.payload ≤ a → b.payload < bk.payload))

theorem Visible.overlaps {a : Addr} {k : Nat} {l z : List Block} (h : Visible a l z) (hk : 1 ≤ k) :
    Overlaps a k l := by
  obtain ⟨bk, hbk, hin, -⟩ := h
  refine ⟨bk, hbk, 0, hk, ?_⟩
  rwa [BitVec.add_zero]

/-! ## The tree holds the regions -/

section Blocks

variable {r : Registry} {l z : List Block} {bk : Block}

/-- Regions that a lookup at their start finds. -/
def Proper (bk : Block) : Prop :=
  0 < bk.reqSzB.toNat ∧ bk.payload.toNat + bk.reqSzB.toNat < 2 ^ 64

theorem Proper.toNat_end (h : Proper bk) :
    (bk.payload + bk.reqSzB).toNat = bk.payload.toNat + bk.reqSzB.toNat := by
  rw [BitVec.toNat_add, Nat.mod_eq_of_lt h.2]

theorem Proper.not_endless (h : Proper bk) : ¬bk.Endless := Nat.ne_of_lt h.2

/-- No address is below the end of a region that ends at the end of the address space. -/
theorem Block.Endless.end_le (h : bk.Endless) (a : Addr) : ¬a < bk.payload + bk.reqSzB := by
  rw [BitVec.lt_def, BitVec.toNat_add, h, Nat.mod_self]
  exact Nat.not_lt_zero _

/-- What the run lemma carries. The tree holds the regions of `l` that end below `2 ^ 64`, unless
one of `z`, which end there, has the same start; those in `z` stay. -/
structure Holds (r : Registry) (l z : List Block) : Prop where
  sorted : SortedBy Block.payload r.blocks
  mem_iff : ∀ bk, Proper bk → (bk ∈ r.blocks ↔ bk ∈ l ∧ bk.payload ∉ z.map Block.payload)
  starts_iff : ∀ a, a ∈ r.blocks.map Block.payload ↔
    a ∈ l.map Block.payload ∨ a ∈ z.map Block.payload
  kinds : ∀ bk ∈ r.blocks, Proper bk ∨ bk.Endless ∧ bk.payload ∈ z.map Block.payload
  regions : ∀ bk ∈ l, Proper bk ∨ bk ∈ z

theorem Holds.init : Holds .init [] [] where
  sorted := .nil
  mem_iff _ _ := by simp [Registry.init]
  starts_iff _ := by simp [Registry.init]
  kinds _ hbk := by cases hbk
  regions _ hbk := by cases hbk

/-- A new start is a start of the tree only if one of `z` has it. -/
theorem Holds.new_start_iff (h : Holds r l z) (hnew : bk.payload ∉ l.map Block.payload) :
    bk.payload ∈ r.blocks.map Block.payload ↔ bk.payload ∈ z.map Block.payload := by
  rw [h.starts_iff]
  exact or_iff_right hnew

theorem starts_addBlock {rs : List Block} (bk : Block) (a : Addr) :
    a ∈ (addBlock bk rs).map Block.payload ↔ a = bk.payload ∨ a ∈ rs.map Block.payload := by
  constructor
  · intro ha
    obtain ⟨b, hb, rfl⟩ := List.mem_map.1 ha
    rcases mem_addBlock.1 hb with hb | ⟨rfl, -⟩
    · exact .inr (List.mem_map_of_mem hb)
    · exact .inl rfl
  · rintro (rfl | ha)
    · by_cases hmem : bk.payload ∈ rs.map Block.payload
      · obtain ⟨b, hb, heq⟩ := List.mem_map.1 hmem
        exact List.mem_map.2 ⟨b, mem_addBlock.2 (.inl hb), heq⟩
      · exact List.mem_map.2 ⟨bk, mem_addBlock.2 (.inr ⟨rfl, hmem⟩), rfl⟩
    · obtain ⟨b, hb, rfl⟩ := List.mem_map.1 ha
      exact List.mem_map.2 ⟨b, mem_addBlock.2 (.inl hb), rfl⟩

theorem Holds.track_proper (h : Holds r l z) (hnew : bk.payload ∉ l.map Block.payload)
    (hbk : Proper bk) : Holds (r.step (.track bk)) (bk :: l) z where
  sorted := Registry.sorted_step h.sorted _
  mem_iff b hb := by
    rw [Registry.step, mem_addBlock, List.mem_cons, h.mem_iff b hb, h.new_start_iff hnew]
    constructor
    · rintro (⟨hl, hz⟩ | ⟨rfl, hz⟩)
      · exact ⟨.inr hl, hz⟩
      · exact ⟨.inl rfl, hz⟩
    · rintro ⟨rfl | hl, hz⟩
      · exact .inr ⟨rfl, hz⟩
      · exact .inl ⟨hl, hz⟩
  starts_iff a := by
    rw [Registry.step, starts_addBlock, h.starts_iff, List.map_cons, List.mem_cons, or_assoc]
  kinds b hb := by
    rcases mem_addBlock.1 hb with hb | ⟨rfl, -⟩
    · exact h.kinds b hb
    · exact .inl hbk
  regions := List.forall_mem_cons.2 ⟨.inl hbk, h.regions⟩

theorem Holds.track_endless (h : Holds r l z) (hnew : bk.payload ∉ l.map Block.payload)
    (hbk : bk.Endless) : Holds (r.step (.track bk)) (bk :: l) (z ++ [bk]) where
  sorted := Registry.sorted_step h.sorted _
  mem_iff b hb := by
    have hne : b ≠ bk := by
      rintro rfl
      exact hb.not_endless hbk
    rw [Registry.step, mem_addBlock, List.mem_cons, List.map_append, List.mem_append,
      h.mem_iff b hb, or_iff_right hne, or_iff_left fun heq => hne heq.1, not_or]
    constructor
    · rintro ⟨hl, hz⟩
      refine ⟨hl, hz, fun heq => hnew ?_⟩
      rw [← List.mem_singleton.1 heq]
      exact List.mem_map_of_mem hl
    · rintro ⟨hl, hz, -⟩
      exact ⟨hl, hz⟩
  starts_iff a := by
    rw [Registry.step, starts_addBlock, h.starts_iff, List.map_cons, List.mem_cons,
      List.map_append, List.mem_append, List.map_singleton, List.mem_singleton]
    tauto
  kinds b hb := by
    rw [List.map_append, List.mem_append]
    rcases mem_addBlock.1 hb with hb | ⟨rfl, -⟩
    · exact (h.kinds b hb).imp_right fun hend => ⟨hend.1, .inl hend.2⟩
    · exact .inr ⟨hbk, .inr List.mem_cons_self⟩
  regions b hb := by
    rw [List.mem_append, List.mem_singleton]
    rcases List.mem_cons.1 hb with rfl | hb
    · exact .inr (.inr rfl)
    · exact (h.regions b hb).imp_right .inl

/-- A region that a lookup finds at its start is removed; anything else leaves the tree. -/
theorem Holds.blocks_untrack (h : Holds r l z) (addr : Addr) (ec : ExeContext) :
    (∃ bk ∈ r.blocks, Proper bk ∧ bk.payload = addr ∧
        (r.step (.untrack addr ec)).blocks = eraseKey Block.payload addr r.blocks) ∨
      (addr ∈ l.map Block.payload → addr ∈ z.map Block.payload) ∧
        (r.step (.untrack addr ec)).blocks = r.blocks := by
  by_cases hstart : ∃ bk ∈ r.blocks, bk.payload = addr
  · obtain ⟨bk, hbk, rfl⟩ := hstart
    rcases h.kinds bk hbk with hproper | ⟨hend, hz⟩
    · left
      have hfound : lookupBlock bk.payload r.blocks = some bk := by
        refine lookupBlock_start h.sorted hbk ?_
        rw [BitVec.lt_def, hproper.toNat_end]
        exact Nat.lt_add_of_pos_right hproper.1
      refine ⟨bk, hbk, hproper, rfl, ?_⟩
      rw [Registry.step, hfound]
      simp only [if_true]
    · right
      refine ⟨fun _ => hz, ?_⟩
      rw [Registry.step]
      split
      · rename_i b hfound
        obtain ⟨hb, -, hmax, hlt⟩ := (lookupBlock_eq_some h.sorted).1 hfound
        rw [if_neg]
        intro heq
        rw [h.sorted.eq_of_key hb hbk heq] at hlt
        exact hend.end_le _ hlt
      · rfl
  · right
    refine ⟨fun hl => absurd ((h.starts_iff addr).2 (.inl hl)) fun hmem => ?_, ?_⟩
    · obtain ⟨bk, hbk, heq⟩ := List.mem_map.1 hmem
      exact hstart ⟨bk, hbk, heq⟩
    · rw [Registry.step]
      split
      · rename_i bk hfound
        have hbk := ((lookupBlock_eq_some h.sorted).1 hfound).1
        rw [if_neg fun heq => hstart ⟨bk, hbk, heq⟩]
      · rfl

theorem mem_starts_of_mem_iff {l' : List Block} {addr a : Addr}
    (h : ∀ b, b ∈ l' ↔ b ∈ l ∧ b.payload ≠ addr) :
    a ∈ l'.map Block.payload ↔ a ∈ l.map Block.payload ∧ a ≠ addr := by
  simp only [List.mem_map, h]
  constructor
  · rintro ⟨b, ⟨hb, hne⟩, rfl⟩
    exact ⟨⟨b, hb, rfl⟩, hne⟩
  · rintro ⟨⟨b, hb, rfl⟩, hne⟩
    exact ⟨b, ⟨hb, hne⟩, rfl⟩

theorem Holds.untrack (h : Holds r l z) (addr : Addr) (ec : ExeContext) :
    Holds (r.step (.untrack addr ec)) (l.filter fun bk => bk.payload ≠ addr) z := by
  have hkeep : ∀ b ∈ l.filter fun bk => bk.payload ≠ addr, Proper b ∨ b ∈ z :=
    fun b hb => h.regions b (List.mem_filter.1 hb).1
  have hstarts : ∀ a, a ∈ (l.filter fun bk => bk.payload ≠ addr).map Block.payload ↔
      a ∈ l.map Block.payload ∧ a ≠ addr := by
    refine fun a => mem_starts_of_mem_iff fun b => ?_
    rw [List.mem_filter, decide_eq_true_eq]
  rcases h.blocks_untrack addr ec with ⟨bk, hbk, hproper, rfl, hblocks⟩ | ⟨hz, hblocks⟩
  · have hz : bk.payload ∉ z.map Block.payload := ((h.mem_iff bk hproper).1 hbk).2
    refine ⟨Registry.sorted_step h.sorted _, fun b hb => ?_, fun a => ?_, fun b hb => ?_, hkeep⟩
    · rw [hblocks, mem_eraseKey, h.mem_iff b hb, List.mem_filter, decide_eq_true_eq,
        and_right_comm]
    · rw [hblocks, mem_starts_of_mem_iff fun b => mem_eraseKey, h.starts_iff, hstarts, or_and_right]
      refine or_congr_right ⟨fun ha => ha.1, fun ha => ⟨ha, ?_⟩⟩
      rintro rfl
      exact hz ha
    · rw [hblocks, mem_eraseKey] at hb
      exact h.kinds b hb.1
  · have hne : ∀ b ∈ l, b.payload ∉ z.map Block.payload → b.payload ≠ addr := by
      rintro b hb hbz rfl
      exact hbz (hz (List.mem_map_of_mem hb))
    refine ⟨Registry.sorted_step h.sorted _, fun b hb => ?_, fun a => ?_, fun b hb => ?_, hkeep⟩
    · rw [hblocks, h.mem_iff b hb, List.mem_filter, decide_eq_true_eq, and_right_comm]
      exact ⟨fun hl => ⟨hl, hne b hl.1 hl.2⟩, fun hl => hl.1⟩
    · rw [hblocks, h.starts_iff, hstarts]
      by_cases ha : a = addr
      · subst ha
        simp only [ne_eq, not_true_eq_false, and_false, false_or]
        exact ⟨fun hl => hl.elim hz id, .inr⟩
      · simp only [ne_eq, ha, not_false_eq_true, and_true]
    · rw [hblocks] at hb
      exact h.kinds b hb

/-- **The tree holds the regions** of every run in which starts are fresh. -/
theorem Holds.run {acts : List Action} (h : Holds r l z) (hfresh : Fresh l acts)
    (hpos : ∀ bk, .track bk ∈ acts → 0 < bk.reqSzB.toNat) :
    Holds (r.run acts) (acts.foldl Action.regions l) (z ++ endless acts) := by
  induction acts generalizing r l z with
  | nil => exact (List.append_nil z).symm ▸ h
  | cons act acts ih =>
    have hpos' : ∀ bk, .track bk ∈ acts → 0 < bk.reqSzB.toNat :=
      fun bk hbk => hpos bk (List.mem_cons_of_mem _ hbk)
    cases act with
    | track bk =>
      obtain ⟨hnew, hend⟩ := hfresh.1 bk rfl
      rcases hend.lt_or_eq with hlt | heq
      · have hproper : Proper bk := ⟨hpos bk List.mem_cons_self, hlt⟩
        have hsame : endless (.track bk :: acts) = endless acts :=
          List.filter_cons_of_neg (by simpa using hproper.not_endless)
        rw [hsame]
        exact ih (h.track_proper hnew hproper) hfresh.2 hpos'
      · have hcons : endless (.track bk :: acts) = bk :: endless acts :=
          List.filter_cons_of_pos (decide_eq_true heq)
        rw [hcons, List.append_cons]
        exact ih (h.track_endless hnew heq) hfresh.2 hpos'
    | untrack addr ec => exact ih (h.untrack addr ec) hfresh.2 hpos'
    | store addr value =>
      have hsame := Registry.blocks_store r addr value
      have hstore : Holds (r.step (.store addr value)) l z := by
        refine ⟨hsame ▸ h.sorted, fun bk hbk => ?_, fun a => ?_, fun bk hbk => ?_, h.regions⟩
        · rw [hsame, h.mem_iff bk hbk]
        · rw [hsame, h.starts_iff a]
        · exact h.kinds bk (hsame ▸ hbk)
      exact ih hstore hfresh.2 hpos'

/-- A lookup succeeds if and only if a region is visible. -/
theorem Holds.lookup_isSome_iff (h : Holds r l z) (a : Addr) :
    (lookupBlock a r.blocks).isSome ↔ Visible a l z := by
  rw [Option.isSome_iff_exists]
  refine exists_congr fun bk => ?_
  rw [lookupBlock_eq_some h.sorted]
  constructor
  · rintro ⟨hbk, hle, hmax, hlt⟩
    have hstart : ∀ b : Block, b.payload ∈ r.blocks.map Block.payload → b.payload ≤ a →
        b.payload ≤ bk.payload := by
      intro b hb hba
      obtain ⟨c, hc, heq⟩ := List.mem_map.1 hb
      exact heq ▸ hmax c hc (heq ▸ hba)
    rcases h.kinds bk hbk with hproper | ⟨hend, -⟩
    · obtain ⟨hbkl, hbkz⟩ := (h.mem_iff bk hproper).1 hbk
      rw [BitVec.lt_def, hproper.toNat_end] at hlt
      refine ⟨hbkl, ⟨hle, hlt⟩, fun b hb hba => ?_, fun b hb hba => ?_⟩
      · exact hstart b ((h.starts_iff _).2 (.inl (List.mem_map_of_mem hb))) hba
      · refine lt_of_le_of_ne ?_ fun heq => hbkz (heq ▸ List.mem_map_of_mem hb)
        exact hstart b ((h.starts_iff _).2 (.inr (List.mem_map_of_mem hb))) hba
    · exact absurd hlt (hend.end_le a)
  · rintro ⟨hbk, ⟨hle, hlt⟩, hmax, hmaxz⟩
    have hproper : Proper bk :=
      (h.regions bk hbk).resolve_right fun hz => lt_irrefl _ (hmaxz bk hz hle)
    have hbkz : bk.payload ∉ z.map Block.payload := by
      intro hz
      obtain ⟨b, hb, heq⟩ := List.mem_map.1 hz
      have hba := hmaxz b hb (heq ▸ hle)
      rw [heq] at hba
      exact lt_irrefl _ hba
    refine ⟨(h.mem_iff bk hproper).2 ⟨hbk, hbkz⟩, hle, fun b hb hba => ?_, ?_⟩
    · rcases (h.starts_iff b.payload).1 (List.mem_map_of_mem hb) with hb | hb
      · obtain ⟨c, hc, heq⟩ := List.mem_map.1 hb
        exact heq ▸ hmax c hc (heq ▸ hba)
      · obtain ⟨c, hc, heq⟩ := List.mem_map.1 hb
        exact heq ▸ (hmaxz c hc (heq ▸ hba)).le
    · rwa [BitVec.lt_def, hproper.toNat_end]

end Blocks

/-! ## Tracked regions are not empty -/

theorem newBlockActions_pos {su : Setup} {who : Caller} {heap : List CliBlock} {place : Place}
    {szB alignB : SizeT} {bk : Block}
    (h : .track bk ∈ newBlockActions su who (allocated heap place szB alignB)) :
    0 < bk.reqSzB.toNat := by
  cases hb : allocated heap place szB alignB with
  | none =>
    rw [hb] at h
    cases h
  | some b =>
    rw [hb, newBlockActions] at h
    split at h
    · cases List.mem_singleton.1 h
      exact allocated_pos hb
    · cases h

theorem dieBlockActions_not_track {who : Caller} {p : Addr} {bk : Block} :
    .track bk ∉ dieBlockActions who p := by
  rw [dieBlockActions]
  split <;> simp

theorem Op.track_pos {su : Setup} {who : Caller} {place : Place} {heap : List CliBlock} {op : Op}
    {bk : Block} (h : .track bk ∈ op.actions su who place heap) : 0 < bk.reqSzB.toNat := by
  cases op with
  | malloc szB => exact newBlockActions_pos h
  | builtinNew szB => exact newBlockActions_pos h
  | builtinNewAligned szB alignB => exact newBlockActions_pos h
  | builtinVecNew szB => exact newBlockActions_pos h
  | builtinVecNewAligned szB alignB => exact newBlockActions_pos h
  | memalign alignB szB => exact newBlockActions_pos h
  | calloc nmemb size1 => exact newBlockActions_pos h
  | free p => exact absurd h dieBlockActions_not_track
  | builtinDelete p => exact absurd h dieBlockActions_not_track
  | builtinDeleteAligned p => exact absurd h dieBlockActions_not_track
  | builtinVecDelete p => exact absurd h dieBlockActions_not_track
  | builtinVecDeleteAligned p => exact absurd h dieBlockActions_not_track
  | realloc pOld newSzB =>
    rw [actions, reallocActions] at h
    split at h
    · exact newBlockActions_pos h
    · split at h
      · exact absurd h dieBlockActions_not_track
      · split at h
        · rename_i b hb
          rcases List.mem_append.1 h with h | h
          · rw [← hb] at h
            exact newBlockActions_pos h
          · exact absurd h dieBlockActions_not_track
        · cases h
  | mallocUsableSize p => cases h
  | request req =>
    cases req with
    | trackBlock addr size =>
      rw [actions] at h
      split at h
      · rename_i hsize
        cases List.mem_singleton.1 h
        exact hsize
      · cases h
    | untrackBlock addr => cases List.mem_singleton.1 h
    | other => cases h
  | logStore addr value => cases List.mem_singleton.1 h
  | mxAfterStore addr size => cases h
  | write addr size value => cases h

theorem Run.track_pos {su : Setup} {t t' : Tool} {acts : List Action} (hrun : Run su t acts t')
    {bk : Block} (h : .track bk ∈ acts) : 0 < bk.reqSzB.toNat := by
  induction hrun with
  | refl t => cases h
  | step who place op hexec hrun ih =>
    rcases List.mem_append.1 h with h | h
    · exact Op.track_pos h
    · exact ih h

/-- In a run with fresh starts, the tree holds the regions of the history. -/
theorem Run.holds {su : Setup} {m : Mem} {acts : List Action} {t : Tool}
    (hrun : Run su (.init m) acts t) (hfresh : Fresh [] acts) :
    Holds (Registry.init.run acts) (regions acts) (endless acts) :=
  Holds.init.run hfresh fun _ hbk => hrun.track_pos hbk

/-! ## Logged stores -/

section Stores

variable {su : Setup} {t : Tool} {r : Registry} {a : Addr}

theorem logStore_of_found (h : Refines su t r) (hfound : (lookupBlock a r.blocks).isSome)
    (v : HWord) :
    logStore su a v t = addToBuffer su (.store a v) t := by
  rw [logStore, toolM_bind, h.isTracked a, Option.bind_some, if_pos hfound]

theorem logStore_of_not_found (h : Refines su t r) (hfound : ¬ (lookupBlock a r.blocks).isSome)
    (v : HWord) : logStore su a v t = some ((), t) := by
  rw [logStore, toolM_bind, h.isTracked a, Option.bind_some, if_neg hfound]
  rfl

/-- Adding an entry changes the log. -/
theorem addToBuffer_ne (h : Refines su t r) (entry : LogEntry) :
    addToBuffer su entry t ≠ some ((), t) := by
  intro heq
  obtain ⟨t', hadd, h', -⟩ := addToBuffer_refines h entry
  obtain rfl : t = t' := by
    rw [heq] at hadd
    cases hadd
    rfl
  have hlog := h.printed.symm.trans h'.printed
  rw [List.flatMap_append] at hlog
  have hnil := List.append_cancel_left ((List.append_nil _).trans hlog)
  cases entry <;> cases hnil

/-- **Which stores are logged.** In every state that a run with fresh starts reaches, a piece of `k
≥ 1` bytes at `a` is logged exactly if it overlaps a tracked region, if and only if overlapping a
region implies that a region contains `a`, no other region starts between the start of that region
and `a`, and no region that ended at `2 ^ 64` starts there or at its start, be it tracked or
untracked again; for `is_tracked`, that is the case of one byte. -/
theorem logStore_logs_iff (su : Setup) (m : Mem) (acts : List Action) (t : Tool)
    (hrun : Run su (.init m) acts t) (hfresh : Fresh [] acts) (a : Addr) (v : HWord) (k : Nat)
    (hk : 1 ≤ k) :
    ((Overlaps a k (regions acts) → logStore su a v t = addToBuffer su (.store a v) t) ∧
          (¬ Overlaps a k (regions acts) → logStore su a v t = some ((), t)) ↔
        (Overlaps a k (regions acts) → Visible a (regions acts) (endless acts))) ∧
      (onTracked (isTracked a) t = some (decide (Overlaps a 1 (regions acts)), t) ↔
        (Overlaps a 1 (regions acts) → Visible a (regions acts) (endless acts))) := by
  have h : Refines su t (Registry.init.run acts) := hrun.refines (.init su m)
  have hvisible := (hrun.holds hfresh).lookup_isSome_iff a
  refine ⟨⟨?_, ?_⟩, ?_⟩
  · rintro ⟨hlogs, -⟩ hover
    by_contra hhidden
    rw [← hvisible] at hhidden
    have hnot := logStore_of_not_found h hhidden v
    rw [hlogs hover] at hnot
    exact addToBuffer_ne h _ hnot
  · intro himp
    refine ⟨fun hover => ?_, fun hnot => ?_⟩
    · exact logStore_of_found h (hvisible.2 (himp hover)) v
    · exact logStore_of_not_found h (fun hfound => hnot ((hvisible.1 hfound).overlaps hk)) v
  · rw [h.isTracked a]
    simp only [Option.some.injEq, Prod.mk.injEq, and_true]
    rw [Bool.eq_iff_iff, hvisible, decide_eq_true_eq]
    exact ⟨fun heq hover => heq.2 hover, fun himp => ⟨fun hv => hv.overlaps le_rfl, himp⟩⟩

end Stores

/-- The traced program tracks a region, and a second one. -/
def trackTwo (addr₁ : Addr) (size₁ : SizeT) (addr₂ : Addr) (size₂ : SizeT) : List Call :=
  [⟨⟨[], []⟩, none, .request (.trackBlock addr₁ size₁)⟩,
    ⟨⟨[], []⟩, none, .request (.trackBlock addr₂ size₂)⟩]

/-- The actions of `trackTwo`. -/
def trackTwoActions (addr₁ : Addr) (size₁ : SizeT) (addr₂ : Addr) (size₂ : SizeT) : List Action :=
  [.track (clientBlock ⟨[], []⟩ addr₁ size₁), .track (clientBlock ⟨[], []⟩ addr₂ size₂)]

theorem fresh_trackTwo {addr₁ addr₂ : Addr} {size₁ size₂ : SizeT} (hne : addr₂ ≠ addr₁)
    (h₁ : addr₁.toNat + size₁.toNat ≤ 2 ^ 64) (h₂ : addr₂.toNat + size₂.toNat ≤ 2 ^ 64) :
    Fresh [] (trackTwoActions addr₁ size₁ addr₂ size₂) := by
  refine ⟨?_, ?_, trivial⟩
  · rintro bk ⟨⟩
    exact ⟨by simp, h₁⟩
  · rintro bk ⟨⟩
    exact ⟨by simpa [Action.regions, clientBlock] using hne, h₂⟩

/-- A region and the last sixteen bytes of the address space; a store into the first is logged. -/
theorem logStore_logs_iff_sideBySide :
    ∃ t, Run plainSetup (.init fun _ => 0) (trackTwoActions 0x1000 64 0xFFFFFFFFFFFFFFF0 16) t ∧
      Fresh [] (trackTwoActions 0x1000 64 0xFFFFFFFFFFFFFFF0 16) ∧
      logStore plainSetup 0x1010 7 t = addToBuffer plainSetup (.store 0x1010 7) t := by
  obtain ⟨t, hrun, -⟩ := exists_run (Refines.init plainSetup fun _ => 0)
    (trackTwo 0x1000 64 0xFFFFFFFFFFFFFFF0 16)
  have hfresh : Fresh [] (trackTwoActions 0x1000 64 0xFFFFFFFFFFFFFFF0 16) :=
    fresh_trackTwo (by decide) (by decide) (by decide)
  refine ⟨t, hrun, hfresh, ?_⟩
  exact ((logStore_logs_iff plainSetup _ _ t hrun hfresh 0x1010 7 8 (by decide)).1.2
    fun _ => by decide).1 (by decide)

/-- A region inside another one hides what follows it from the lookup. -/
theorem logStore_not_logs_nested :
    ∃ t, Run plainSetup (.init fun _ => 0) (trackTwoActions 0x1000 64 0x1008 8) t ∧
      Fresh [] (trackTwoActions 0x1000 64 0x1008 8) ∧
      Overlaps 0x1010 8 (regions (trackTwoActions 0x1000 64 0x1008 8)) ∧
      logStore plainSetup 0x1010 7 t = some ((), t) := by
  obtain ⟨t, hrun, h, -⟩ := exists_run (Refines.init plainSetup fun _ => 0)
    (trackTwo 0x1000 64 0x1008 8)
  refine ⟨t, hrun, fresh_trackTwo (by decide) (by decide) (by decide), by decide, ?_⟩
  exact logStore_of_not_found h (by decide) 7

end Memlog
