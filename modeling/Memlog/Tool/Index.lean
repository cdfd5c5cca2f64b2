import Memlog.Lib.SortedList
import Memlog.RbTree.Refine
import Memlog.Tool.Basic

/-!
# The tracked blocks

`insert_block_rb`, `find_block_containing` and the removal of a block, on the red-black tree, and
what they mean for the list of tracked blocks in address order (`Tracks`). Every lookup is by the
block with the largest start address not above the one that is looked up (`lookupBlock`), whatever
other blocks contain it.
-/

namespace Memlog

open Lib

variable {κ δ : Type}

/-- `VG_(malloc)` of a node: an address that no node has. -/
def RbState.vgMalloc (s : RbState κ δ) : Ptr := s.nodes.keys.foldr max 0 + 1

theorem RbState.mem_vgMalloc (s : RbState κ δ) : s.mem s.vgMalloc = none := by
  have hle : ∀ {l : List Ptr} {p : Ptr}, p ∈ l → p ≤ l.foldr max 0 := by
    intro l p hp
    induction l with
    | nil => cases hp
    | cons q l ih =>
      rw [List.foldr_cons]
      rcases List.mem_cons.1 hp with rfl | hp
      · exact le_max_left ..
      · exact (ih hp).trans (le_max_right ..)
  refine AList.lookup_eq_none.2 fun hmem => ?_
  exact absurd (hle (AList.mem_keys.1 hmem)) (Nat.not_succ_le_self _)

/-! ## Operations of the tool -/

/-- The variable `tracked_blocks`. -/
abbrev Tracked := RbState Addr Block

/-- `insert_block_rb`, with a new node object at hand. -/
def insertBlock (bk : Block) : RbM Addr Block Unit := fun s =>
  insertBlockRb s.vgMalloc bk.payload bk s

def findBlockContaining (addr : Addr) : RbM Addr Block (Option Block) := do
  let n ← rbSearchLeq addr
  if n.isNone then return none
  let bk := (← load n).data
  if addr < bk.payload + bk.reqSzB then return some bk else return none

def isTracked (addr : Addr) : RbM Addr Block Bool := Option.isSome <$> findBlockContaining addr

/-- `rb_delete` of a block's node, which is freed. -/
def removeBlock (bk : Block) : RbM Addr Block Unit := do
  match ← rbDelete bk.payload with
  | some deleted => fun s => some ((), s.free deleted)
  | none => pure ()

/-! ## Tracked blocks in address order -/

/-- The tree holds exactly the blocks `rs`, listed by increasing start address. -/
def Tracks (s : Tracked) (rs : List Block) : Prop :=
  ∃ l : List (Ptr × Addr × Block), Indexed s l ∧ l.map (·.2.2) = rs ∧ ∀ x ∈ l, x.2.1 = x.2.2.payload

/-- What `find_block_containing` returns. -/
def lookupBlock (addr : Addr) (rs : List Block) : Option Block :=
  (pred Block.payload addr rs).filter fun bk => addr < bk.payload + bk.reqSzB

/-- What `insert_block_rb` does: a second block with the same start is dropped. -/
def addBlock (bk : Block) (rs : List Block) : List Block :=
  if bk.payload ∈ rs.map Block.payload then rs else insertKey Block.payload bk rs

section Tracks

variable {s : Tracked} {rs : List Block}

theorem Tracks.empty : Tracks .empty [] := ⟨[], .empty, rfl, by simp⟩

theorem Tracks.sorted (h : Tracks s rs) : SortedBy Block.payload rs := by
  obtain ⟨l, hl, rfl, hkey⟩ := h
  refine List.pairwise_map.2 (hl.ordered.imp_of_mem fun {x y} hx hy hlt => ?_)
  rwa [← hkey x hx, ← hkey y hy]

/-- The in-order sequence of the tree. -/
theorem Tracks.entries (h : Tracks s rs) :
    s.entries = some (rs.map fun bk => (bk.payload, bk)) := by
  obtain ⟨l, hl, rfl, hkey⟩ := h
  rw [hl.entries, List.map_map]
  congr 1
  refine List.map_congr_left fun x hx => ?_
  rw [Function.comp_apply, ← hkey x hx]

theorem Tracks.unique {rs' : List Block} (h : Tracks s rs) (h' : Tracks s rs') : rs = rs' := by
  have heq := h.entries.symm.trans h'.entries
  have := congrArg (List.map Prod.snd) (Option.some.inj heq)
  simpa [List.map_map, Function.comp_def] using this

theorem Tracks.find (h : Tracks s rs) (addr : Addr) :
    findBlockContaining addr s = some (lookupBlock addr rs, s) := by
  obtain ⟨l, hl, rfl, hkey⟩ := h
  have hpred : pred Block.payload addr (l.map (·.2.2)) = (lastLeq addr l).map (·.2.2) := by
    rw [pred_map]
    unfold pred lastLeq
    congr 2
    refine List.filter_congr fun x hx => ?_
    rw [hkey x hx]
  unfold findBlockContaining lookupBlock
  rw [hpred, rbM_bind, hl.searchLeq addr]
  cases hlast : lastLeq addr l with
  | none => rfl
  | some x =>
    obtain ⟨hx, -, -⟩ := lastLeq_eq_some hl.ordered hlast
    obtain ⟨nd, hnd, -, hdata⟩ := hl.mem (p := x.1) (k := x.2.1) (d := x.2.2) hx
    have hload : load (some x.1) s = some (nd, s) := by
      unfold load
      rw [Option.bind_some, hnd]
      rfl
    simp only [Option.map_some, Option.bind_some, Option.isNone_some, Bool.false_eq_true, if_false]
    rw [rbM_bind, hload, Option.bind_some, hdata]
    by_cases hlt : addr < x.2.2.payload + x.2.2.reqSzB
    · rw [if_pos hlt, Option.filter_some_pos (by simpa using hlt)]
      rfl
    · rw [if_neg hlt, Option.filter_some_neg (by simpa using hlt)]
      rfl

theorem Tracks.isTracked (h : Tracks s rs) (addr : Addr) :
    isTracked addr s = some ((lookupBlock addr rs).isSome, s) := by
  unfold Memlog.isTracked
  rw [map_eq_pure_bind, rbM_bind, h.find addr]
  rfl

theorem Tracks.insert (h : Tracks s rs) (bk : Block) :
    ∃ s', insertBlock bk s = some ((), s') ∧ Tracks s' (addBlock bk rs) := by
  obtain ⟨l, hl, rfl, hkey⟩ := h
  obtain ⟨s', l', hrun, hl', hcase⟩ := hl.insert s.mem_vgMalloc bk.payload bk
  refine ⟨s', hrun, l', hl', ?_, ?_⟩
  · unfold addBlock
    rcases hcase with ⟨rfl, x, hx, hpay⟩ | ⟨a, b, rfl, rfl, ha, hb⟩
    · rw [if_pos]
      rw [List.map_map, List.mem_map]
      exact ⟨x, hx, (hkey x hx).symm.trans hpay⟩
    · have ha' : ∀ y ∈ a.map (·.2.2), y.payload < bk.payload := by
        intro y hy
        obtain ⟨x, hx, rfl⟩ := List.mem_map.1 hy
        rw [← hkey x (by simp [hx])]
        exact ha x hx
      have hb' : ∀ y ∈ b.map (·.2.2), bk.payload < y.payload := by
        intro y hy
        obtain ⟨x, hx, rfl⟩ := List.mem_map.1 hy
        rw [← hkey x (by simp [hx])]
        exact hb x hx
      rw [if_neg]
      · rw [List.map_append, List.map_append, List.map_cons, insertKey_append ha' hb']
      rw [List.map_append, List.map_append, List.mem_append, not_or]
      constructor
      · intro hmem
        obtain ⟨y, hy, heq⟩ := List.mem_map.1 hmem
        exact (ha' y hy).ne heq
      · intro hmem
        obtain ⟨y, hy, heq⟩ := List.mem_map.1 hmem
        exact (hb' y hy).ne' heq
  · rcases hcase with ⟨rfl, -⟩ | ⟨a, b, rfl, rfl, -⟩
    · exact hkey
    · intro x hx
      rcases List.mem_append.1 hx with hx | hx
      · exact hkey x (by simp [hx])
      · rcases List.mem_cons.1 hx with rfl | hx
        · rfl
        · exact hkey x (by simp [hx])

theorem Tracks.remove (h : Tracks s rs) (bk : Block) :
    ∃ s', removeBlock bk s = some ((), s') ∧ Tracks s' (eraseKey Block.payload bk.payload rs) := by
  have hsorted := h.sorted
  obtain ⟨l, hl, rfl, hkey⟩ := h
  unfold removeBlock
  rcases hl.delete bk.payload with ⟨hrun, hne⟩ | ⟨s', z, d, a, b, hrun, rfl, hl'⟩
  · refine ⟨s, by rw [rbM_bind, hrun]; rfl, l, hl, ?_, hkey⟩
    refine (eraseKey_of_not_mem fun y hy => ?_).symm
    obtain ⟨x, hx, rfl⟩ := List.mem_map.1 hy
    rw [← hkey x hx]
    exact hne x hx
  · have hd : bk.payload = d.payload := hkey (z, bk.payload, d) (by simp)
    refine ⟨s'.free z, by rw [rbM_bind, hrun]; rfl, a ++ b, hl'.free hl.not_mem_of_delete, ?_, ?_⟩
    · rw [List.map_append, List.map_cons] at hsorted
      rw [List.map_append, List.map_append, List.map_cons, hd, eraseKey_append hsorted]
    · intro x hx
      refine hkey x ?_
      rcases List.mem_append.1 hx with hx | hx
      · simp [hx]
      · simp [hx]

end Tracks

/-! ## Facts about the list -/

section Blocks

variable {rs : List Block} {addr : Addr} {bk : Block}

/-- Below the end of a range that may wrap around is below the end of one that does not. -/
theorem toNat_lt_of_lt_add {addr payload : Addr} {size : SizeT} (h : addr < payload + size) :
    addr.toNat < payload.toNat + size.toNat := by
  refine lt_of_lt_of_le (BitVec.lt_def.1 h) ?_
  rw [BitVec.toNat_add]
  exact Nat.mod_le _ _

/-- A lookup finds the block with the largest start not above the address, if the address is below
its end. -/
theorem lookupBlock_eq_some (h : SortedBy Block.payload rs) :
    lookupBlock addr rs = some bk ↔ bk ∈ rs ∧ bk.payload ≤ addr ∧
      (∀ b ∈ rs, b.payload ≤ addr → b.payload ≤ bk.payload) ∧ addr < bk.payload + bk.reqSzB := by
  unfold lookupBlock
  rw [Option.filter_eq_some_iff, pred_eq_some h, decide_eq_true_eq, and_assoc, and_assoc]

/-- A block is found by its start, unless it wraps around. -/
theorem lookupBlock_start (h : SortedBy Block.payload rs) (hbk : bk ∈ rs)
    (hend : bk.payload < bk.payload + bk.reqSzB) : lookupBlock bk.payload rs = some bk :=
  (lookupBlock_eq_some h).2 ⟨hbk, le_rfl, fun _ _ hle => hle, hend⟩

theorem sortedBy_addBlock (h : SortedBy Block.payload rs) (bk : Block) :
    SortedBy Block.payload (addBlock bk rs) := by
  unfold addBlock
  by_cases hmem : bk.payload ∈ rs.map Block.payload
  · rwa [if_pos hmem]
  · rw [if_neg hmem]
    refine h.insertKey fun y hy heq => hmem ?_
    exact List.mem_map.2 ⟨y, hy, heq⟩

theorem mem_addBlock {b : Block} : b ∈ addBlock bk rs ↔
    b ∈ rs ∨ b = bk ∧ bk.payload ∉ rs.map Block.payload := by
  unfold addBlock
  by_cases hmem : bk.payload ∈ rs.map Block.payload
  · rw [if_pos hmem]
    simp only [hmem, not_true_eq_false, and_false, or_false]
  · rw [if_neg hmem, mem_insertKey, or_comm]
    simp only [hmem, not_false_eq_true, and_true]

end Blocks

end Memlog
