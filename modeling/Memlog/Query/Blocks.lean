import Mathlib.Algebra.Order.Field.Rat
import Mathlib.Tactic.Linarith
import Memlog.Lib.Sql
import Memlog.Parquet.Model

/-!
# The MX queries

`14_mx_feasibility`, `19_mx_block_sweep` and `28_mx_scale_sharing` cut the last-write snapshot of
every buffer into blocks and aggregate the exponents of each block. The block of an element is its
number in the buffer divided by the block size with `/`, which does not round in the query language,
so the elements of a buffer are in blocks of their own: the blocks are the runs of the block size
only if the buffer has at most one element (`mxBlocks_eq_runs_iff`).
-/

namespace Memlog.Query

open Lib ToParquet

/-! ## The snapshot -/

/-- A row of the snapshot. -/
structure Snap where
  allocType : AllocType
  allocAddr : BitVec 64
  generation : BitVec 32
  offset : BitVec 64
  value : BitVec 64
deriving DecidableEq

/-- The view of a table, with the row number of the file. -/
def view (bench : List StoreRow) : List (StoreRow × Nat) := bench.zipIdx

/-- The CTE `snapshot`: the last value written at each offset. -/
def snapshot (bench : List StoreRow) : List Snap :=
  (groupBy (fun r => (r.1.allocType, r.1.allocAddr, r.1.generation, r.1.offset))
    ((view bench).filter fun r => r.1.allocType = .bits32 ∨ r.1.allocType = .bits64)).filterMap
      (argMaxOf (fun r => ⟨r.1.allocType, r.1.allocAddr, r.1.generation, r.1.offset, r.1.value⟩)
        Prod.snd)

/-- The buffer of an element. -/
def Snap.buffer (r : Snap) : BitVec 64 × BitVec 32 := (r.allocAddr, r.generation)

/-- The exponent field of a finite normal value. -/
def expBits (allocType : AllocType) (value : BitVec 64) : Option Nat :=
  if value = 0 then none
  else if allocType = .bits64 ∧
    ((value >>> 52 &&& 2047) = 0 ∨ (value >>> 52 &&& 2047) = 2047) then none
  else if allocType = .bits32 ∧
    ((value >>> 23 &&& 255) = 0 ∨ (value >>> 23 &&& 255) = 255) then none
  else
    match allocType with
    | .bits64 => some (value >>> 52 &&& 2047).toNat
    | .bits32 => some (value >>> 23 &&& 255).toNat
    | .object => none

/-! ## Blocks -/

/-- `/` on integers, which does not round. (The quotient is a `DOUBLE`; the divisors are powers of
two, so it is exact for every row number below `2^53`.) -/
def slash (a b : Nat) : ℚ := a / b

/-- The CTE `indexed`: the number of each element in its buffer. -/
def indexed (bench : List StoreRow) : List (Snap × Nat) :=
  rowNumbered Snap.buffer (fun r => r.offset.toNat) (snapshot bench)

/-- The groups of `GROUP BY alloc_type, alloc_addr, generation, idx / k`. -/
def blockGroups (k : Nat) (bench : List StoreRow) : List (List (Snap × Nat)) :=
  groupBy (fun r => (r.1.allocType, r.1.allocAddr, r.1.generation, slash r.2 k)) (indexed bench)

/-- `MAX(exp_bits)`. -/
def scaleExp (block : List Snap) : Option Nat := maxOf (fun r => expBits r.allocType r.value) block

/-- `MAX(exp_bits) - MIN(exp_bits)`. -/
def spread (block : List Snap) : Option Int := do
  return ((← scaleExp block) : Int) - (← minOf (fun r => expBits r.allocType r.value) block)

/-- `COUNT(exp_bits)`. -/
def validN (block : List Snap) : Nat := countOf (fun r => expBits r.allocType r.value) block

/-- A row for a block, with what the query aggregates over it. -/
structure BlockRow (γ : Type) where
  allocType : AllocType
  allocAddr : BitVec 64
  generation : BitVec 32
  blockId : ℚ
  agg : γ

def BlockRow.buffer {γ : Type} (r : BlockRow γ) : BitVec 64 × BitVec 32 :=
  (r.allocAddr, r.generation)

/-- The row of a group. -/
def blockRow {γ : Type} (k : Nat) (agg : List Snap → γ) (group : List (Snap × Nat)) :
    Option (BlockRow γ) :=
  group.head?.map fun r =>
    ⟨r.1.allocType, r.1.allocAddr, r.1.generation, slash r.2 k, agg (group.map Prod.fst)⟩

/-- One `SELECT ... GROUP BY alloc_type, alloc_addr, generation, idx / k`. -/
def blockRows {γ : Type} (agg : List Snap → γ) (bench : List StoreRow) (k : Nat) :
    List (BlockRow γ) :=
  (blockGroups k bench).filterMap (blockRow k agg)

/-- The CTE `spreads` of `14_mx_feasibility`: spread and count of each block of 32. -/
def spreads14 (bench : List StoreRow) : List (BlockRow (Option Int × Nat)) :=
  blockRows (fun block => (spread block, validN block)) bench 32

/-- A `UNION ALL` over block sizes, with the block size of each row. -/
def unionAll {γ : Type} (sizes : List Nat) (rows : Nat → List γ) : List (Nat × γ) :=
  sizes.flatMap fun k => (rows k).map fun r => (k, r)

def sizes19 : List Nat := [8, 16, 32, 64, 128]

/-- The CTE `spreads` of `19_mx_block_sweep`. -/
def spreads19 (bench : List StoreRow) : List (Nat × BlockRow (Option Int × Nat)) :=
  unionAll sizes19 (blockRows (fun block => (spread block, validN block)) bench)

def sizes28 : List Nat := [16, 32, 64]

/-- The CTE `blk_exp` of `28_mx_scale_sharing`. -/
def blkExp28 (bench : List StoreRow) : List (Nat × BlockRow (Option Nat)) :=
  unionAll sizes28 (blockRows scaleExp bench)

/-! ## What the blocks should be -/

/-- The elements of a buffer in the snapshot, in offset order. -/
def elems (bench : List StoreRow) (buffer : BitVec 64 × BitVec 32) : List Snap :=
  ((snapshot bench).filter fun r => r.buffer = buffer).insertionSort fun r r' =>
    r.offset.toNat ≤ r'.offset.toNat

/-- The groups of a buffer. -/
def groupsOf (k : Nat) (bench : List StoreRow) (buffer : BitVec 64 × BitVec 32) :
    List (List Snap) :=
  ((blockGroups k bench).filter fun group => group.any fun r => r.1.buffer = buffer).map
    (List.map Prod.fst)

/-- The blocks of a buffer are the consecutive runs of `k` of its elements in offset order, and the
rows of the query hold the aggregates over these runs. -/
structure BlocksAreRuns {γ : Type} (k : Nat) (agg : List Snap → γ) (rows : List (BlockRow γ))
    (bench : List StoreRow) (buffer : BitVec 64 × BitVec 32) : Prop where
  groups : (groupsOf k bench buffer).Perm (runs k (elems bench buffer))
  aggs : ((rows.filter fun r => r.buffer = buffer).map BlockRow.agg).Perm
    ((runs k (elems bench buffer)).map agg)

section Blocks

variable {γ : Type} {k : Nat} {bench : List StoreRow} {agg : List Snap → γ}
  {buffer : BitVec 64 × BitVec 32}

theorem slash_injective (hk : 0 < k) : Function.Injective fun i => slash i k := by
  intro i j h
  have hk' : (k : ℚ) ≠ 0 := Nat.cast_ne_zero.2 hk.ne'
  have hij : (i : ℚ) = j := by
    unfold slash at h
    exact (div_left_inj' hk').1 h
  exact_mod_cast hij

/-- **Every element is in a block of its own.** -/
theorem blockGroups_eq (hk : 0 < k) : blockGroups k bench = (indexed bench).map fun r => [r] := by
  apply groupBy_of_nodup
  have hnodup : ((indexed bench).map fun x => (x.1.buffer, x.2)).Nodup := nodup_rowNumbered
  -- the key determines the buffer and the number
  refine List.Nodup.of_map (fun key : AllocType × BitVec 64 × BitVec 32 × ℚ =>
    ((key.2.1, key.2.2.1), key.2.2.2)) ?_
  have hpairs : ((indexed bench).map fun x => (x.1.buffer, slash x.2 k)).Nodup := by
    have hmap := hnodup.map (Function.injective_id.prodMap (slash_injective hk))
    rwa [List.map_map] at hmap
  rw [List.map_map]
  exact hpairs

theorem filter_indexed :
    (indexed bench).filter (fun x => x.1.buffer = buffer) = (elems bench buffer).zipIdx :=
  filter_rowNumbered buffer

theorem groupsOf_eq (hk : 0 < k) :
    groupsOf k bench buffer = (elems bench buffer).map fun r => [r] := by
  have hany : (fun group : List (Snap × Nat) => group.any fun r => r.1.buffer = buffer) ∘
      (fun r => [r]) = fun r => decide (r.1.buffer = buffer) := by
    funext r
    exact Bool.or_false _
  rw [groupsOf, blockGroups_eq hk, List.filter_map, hany, filter_indexed, List.map_map]
  conv_rhs => rw [← List.zipIdx_map_fst 0 (elems bench buffer), List.map_map]
  rfl

theorem aggs_eq (hk : 0 < k) :
    (((blockRows agg bench k).filter fun r => r.buffer = buffer).map BlockRow.agg) =
      (elems bench buffer).map fun r => agg [r] := by
  have hrows : blockRows agg bench k = (indexed bench).map fun r =>
      ⟨r.1.allocType, r.1.allocAddr, r.1.generation, slash r.2 k, agg [r.1]⟩ := by
    rw [blockRows, blockGroups_eq hk, List.filterMap_map]
    exact congrFun List.filterMap_eq_map _
  have hbuffer : (fun r : BlockRow γ => decide (r.buffer = buffer)) ∘ (fun r : Snap × Nat =>
      ⟨r.1.allocType, r.1.allocAddr, r.1.generation, slash r.2 k, agg [r.1]⟩) =
        fun r => decide (r.1.buffer = buffer) := rfl
  rw [hrows, List.filter_map, hbuffer, filter_indexed, List.map_map]
  conv_rhs => rw [← List.zipIdx_map_fst 0 (elems bench buffer), List.map_map]
  rfl

/-- As many runs as elements: there is at most one. -/
theorem length_le_one_of_runs {l : List Snap} (hk : 2 ≤ k) (h : l.length = (runs k l).length) :
    l.length ≤ 1 := by
  rw [length_runs] at h
  by_contra hlong
  have hmul := (Nat.le_div_iff_mul_le (by omega : 0 < k)).1 h.le
  have hprod : 2 * (k - 1) ≤ l.length * (k - 1) := Nat.mul_le_mul_right _ (by omega)
  have hsplit : l.length * k = l.length * (k - 1) + l.length := by
    rw [← Nat.mul_succ, Nat.succ_eq_add_one, Nat.sub_add_cancel (by omega)]
  omega

theorem runs_of_length_le_one {l : List Snap} (hk : 2 ≤ k) (h : l.length ≤ 1) :
    runs k l = l.map fun r => [r] := by
  match l, h with
  | [], _ =>
    rw [runs, List.length_nil, Nat.zero_add, Nat.div_eq_of_lt (by omega)]
    rfl
  | [r], _ =>
    have hone : (1 + k - 1) / k = 1 := by
      rw [Nat.add_sub_cancel_left, Nat.div_self (by omega)]
    rw [runs, List.length_singleton, hone, List.range_one, List.map_singleton, Nat.zero_mul,
      List.drop_zero, List.take_of_length_le (by rw [List.length_singleton]; omega)]
    rfl

/-- **The blocks of a buffer are runs** only if there is at most one element. -/
theorem blocksAreRuns_iff (hk : 2 ≤ k) :
    BlocksAreRuns k agg (blockRows agg bench k) bench buffer ↔ (elems bench buffer).length ≤ 1 := by
  constructor
  · intro h
    refine length_le_one_of_runs hk ?_
    have hlen := h.groups.length_eq
    rwa [groupsOf_eq (by omega), List.length_map] at hlen
  · intro h
    have hruns := runs_of_length_le_one hk h
    constructor
    · rw [groupsOf_eq (by omega), hruns]
    · rw [aggs_eq (by omega), hruns, List.map_map]
      rfl

theorem filter_unionAll {sizes : List Nat} (hsizes : sizes.Nodup) (hk : k ∈ sizes)
    (rows : Nat → List γ) :
    ((unionAll sizes rows).filter fun r => r.1 = k).map Prod.snd = rows k := by
  have hfst : ∀ k, ∀ x ∈ (rows k).map fun r => (k, r), x.1 = k := by
    intro k x hx
    obtain ⟨r, -, rfl⟩ := List.mem_map.1 hx
    rfl
  rw [unionAll, filter_flatMap_of_nodup hsizes hfst, if_pos hk, List.map_map]
  exact List.map_id _

end Blocks

/-! ## Main result -/

/-- **The blocks of the MX queries.** For every table and every buffer, the blocks of each of the
three queries, at each of its block sizes, are the consecutive runs of that many elements of the
buffer's last-write snapshot in offset order, and its rows hold the spread, the count and the
largest exponent of these runs, if and only if the buffer has at most one element. -/
theorem mxBlocks_eq_runs_iff (bench : List StoreRow) (buffer : BitVec 64 × BitVec 32) :
    (BlocksAreRuns 32 (fun block => (spread block, validN block)) (spreads14 bench) bench buffer ↔
        (elems bench buffer).length ≤ 1) ∧
      (∀ k ∈ sizes19, BlocksAreRuns k (fun block => (spread block, validN block))
          (((spreads19 bench).filter fun r => r.1 = k).map Prod.snd) bench buffer ↔
        (elems bench buffer).length ≤ 1) ∧
      ∀ k ∈ sizes28, BlocksAreRuns k scaleExp
          (((blkExp28 bench).filter fun r => r.1 = k).map Prod.snd) bench buffer ↔
        (elems bench buffer).length ≤ 1 := by
  refine ⟨blocksAreRuns_iff (by decide), fun k hk => ?_, fun k hk => ?_⟩
  · have htwo : ∀ k ∈ sizes19, 2 ≤ k := by decide
    rw [spreads19, filter_unionAll (by decide) hk]
    exact blocksAreRuns_iff (htwo k hk)
  · have htwo : ∀ k ∈ sizes28, 2 ≤ k := by decide
    rw [blkExp28, filter_unionAll (by decide) hk]
    exact blocksAreRuns_iff (htwo k hk)

/-- Stores of `1.0` at the first two offsets of a buffer. -/
def twoOffsets : List StoreRow :=
  [⟨0x4A5C040#64, 16#64, .bits64, 1#32, [], 0#64, 0x3FF0000000000000#64⟩,
    ⟨0x4A5C040#64, 16#64, .bits64, 1#32, [], 8#64, 0x3FF0000000000000#64⟩]

/-- Two elements of a buffer are one run of at most 32, and make two blocks. -/
theorem mxBlocks_ne_runs :
    (elems twoOffsets (0x4A5C040#64, 1#32)).length = 2 ∧
      (groupsOf 32 twoOffsets (0x4A5C040#64, 1#32)).length = 2 ∧
      (runs 32 (elems twoOffsets (0x4A5C040#64, 1#32))).length = 1 ∧
      ¬BlocksAreRuns 32 (fun block => (spread block, validN block)) (spreads14 twoOffsets)
        twoOffsets (0x4A5C040#64, 1#32) := by
  have helems : (elems twoOffsets (0x4A5C040#64, 1#32)).length = 2 := by decide
  have hgroups : (groupsOf 32 twoOffsets (0x4A5C040#64, 1#32)).length = 2 := by
    rw [groupsOf_eq (by decide), List.length_map, helems]
  have hruns : (runs 32 (elems twoOffsets (0x4A5C040#64, 1#32))).length = 1 := by
    rw [length_runs, helems]
  refine ⟨helems, hgroups, hruns, fun h => ?_⟩
  have hlen := h.groups.length_eq
  rw [hgroups, hruns] at hlen
  exact absurd hlen (by decide)

end Memlog.Query
