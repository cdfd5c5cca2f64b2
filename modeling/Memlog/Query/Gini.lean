import Mathlib.Algebra.Order.BigOperators.Group.List
import Mathlib.Algebra.Order.Field.Basic
import Mathlib.Algebra.Order.Field.Rat
import Memlog.Lib.Ranks
import Memlog.Parquet.Model

/-!
# Write concentration within a buffer

`17_intra_buffer_gini` ranks the offsets of a buffer by their writes and computes the Gini
coefficient from the ranks. The ranks are those among the offsets of an address and a generation,
while the sums are over the offsets of one type of them. Offsets of another type that stand in
between shift the ranks, and the value is a Gini coefficient only where they do no harm
(`giniBounds_iff`); with one type for each address and generation there are none
(`giniBounds_of_oneType`).
-/

namespace Memlog.Query

open Lib ToParquet

/-! ## The query -/

/-- A row of the CTE `per_offset`. -/
structure OffsetRow where
  allocType : AllocType
  allocAddr : BitVec 64
  generation : BitVec 32
  offset : BitVec 64
  writes : Nat
deriving DecidableEq

/-- The key of the window, `PARTITION BY alloc_addr, generation`. -/
def OffsetRow.buffer (r : OffsetRow) : BitVec 64 × BitVec 32 := (r.allocAddr, r.generation)

/-- The key of the aggregation, `GROUP BY alloc_type, alloc_addr, generation`. -/
def OffsetRow.group (r : OffsetRow) : AllocType × BitVec 64 × BitVec 32 :=
  (r.allocType, r.allocAddr, r.generation)

/-- The CTE `per_offset`. -/
def perOffset (bench : List StoreRow) : List OffsetRow :=
  aggregate (fun r => (r.allocType, r.allocAddr, r.generation, r.offset))
    (fun r rows => ⟨r.allocType, r.allocAddr, r.generation, r.offset, rows.length⟩) bench

/-- The CTE `ranked`, with `i - 1` next to each row: any numbering that the window allows. -/
def Ranked (bench : List StoreRow) (ranked : List (OffsetRow × Nat)) : Prop :=
  Numbered OffsetRow.buffer OffsetRow.writes (perOffset bench) ranked

/-- A row of the CTE `buf_gini`. -/
structure GiniRow where
  allocType : AllocType
  allocAddr : BitVec 64
  generation : BitVec 32
  gini : Option ℚ
  nOffsets : Nat
  totalWrites : Nat

def GiniRow.group (r : GiniRow) : AllocType × BitVec 64 × BitVec 32 :=
  (r.allocType, r.allocAddr, r.generation)

theorem GiniRow.group_mk (k : AllocType × BitVec 64 × BitVec 32) (gini : Option ℚ)
    (nOffsets totalWrites : Nat) :
    GiniRow.group ⟨k.1, k.2.1, k.2.2, gini, nOffsets, totalWrites⟩ = k := rfl

/-- `SUM(writes)`. -/
def totalWrites (rows : List (OffsetRow × Nat)) : Nat := (rows.map fun r => r.1.writes).sum

/-- `gini`. -/
def gini (rows : List (OffsetRow × Nat)) : Option ℚ :=
  let n := rows.length
  let total := totalWrites rows
  let weighted : Nat := (rows.map fun r => (r.2 + 1) * r.1.writes).sum
  -- the divisor is NULLIF(COUNT(*) * SUM(writes), 0)
  if n * total = 0 then none
  else some ((2 * (weighted : ℚ) - ((n : ℚ) + 1) * total) / ((n : ℚ) * total))

/-- The CTE `buf_gini`. -/
def bufGini (ranked : List (OffsetRow × Nat)) : List GiniRow :=
  aggregate (fun r => r.1.group) (fun r rows =>
    ⟨r.1.allocType, r.1.allocAddr, r.1.generation, gini rows, rows.length, totalWrites rows⟩) ranked

/-- The rows that are aggregated, `WHERE n_offsets > 1`. -/
def reported (ranked : List (OffsetRow × Nat)) : List GiniRow :=
  (bufGini ranked).filter fun row => 1 < row.nOffsets

/-! ## What is expected of it -/

/-- The write counts of the offsets of a group. -/
def counts (bench : List StoreRow) (k : AllocType × BitVec 64 × BitVec 32) : List Nat :=
  ((perOffset bench).filter fun r => r.group = k).map OffsetRow.writes

/-- The write counts of the offsets of other types at the same address and generation. -/
def otherCounts (bench : List StoreRow) (k : AllocType × BitVec 64 × BitVec 32) : List Nat :=
  ((perOffset bench).filter fun r => r.buffer = k.2 ∧ r.group ≠ k).map OffsetRow.writes

/-- The values are in `[0, 1)` and zero for equal counts, however ties are broken. -/
structure GiniBounds (bench : List StoreRow) : Prop where
  bounds : ∀ ranked, Ranked bench ranked → ∀ row ∈ reported ranked, ∃ g, row.gini = some g ∧
    0 ≤ g ∧ g < 1 ∧
    ((∀ x ∈ counts bench row.group, ∀ y ∈ counts bench row.group, x = y) → g = 0)
  ties : ∀ ranked ranked', Ranked bench ranked → Ranked bench ranked' → ∀ row ∈ reported ranked,
    ∀ row' ∈ reported ranked', row.group = row'.group → row.gini = row'.gini

/-- **Other offsets do no harm** to a group: none of them has as many writes as one of the group; if
the counts of the group are equal, none has fewer; and those with fewer writes do not push the ranks
up too far. -/
structure Undisturbed (own others : List Nat) : Prop where
  no_tie : ∀ x ∈ own, x ∉ others
  above : (∀ x ∈ own, ∀ y ∈ own, x = y) → ∀ x ∈ own, ∀ y ∈ others, x < y
  weight : gaps own + 2 * (own.map fun x => x * others.countP fun y => y < x).sum <
    own.length * own.sum

/-! ## The value of a group -/

section Value

variable {bench : List StoreRow} {ranked : List (OffsetRow × Nat)} {ord : OffsetRow → Nat}
  {k : AllocType × BitVec 64 × BitVec 32}

theorem buffer_of_group {r : OffsetRow} (h : r.group = k) : r.buffer = k.2 := by
  rw [← h]
  rfl

theorem writes_pos {r : OffsetRow} (hr : r ∈ perOffset bench) : 0 < r.writes := by
  obtain ⟨r', hr', rfl⟩ := mem_aggregate.1 hr
  exact List.length_pos_of_mem (List.mem_of_head? hr')

theorem pos_of_mem_counts {x : Nat} (hx : x ∈ counts bench k) : 0 < x := by
  obtain ⟨r, hr, rfl⟩ := List.mem_map.1 hx
  exact writes_pos (List.mem_filter.1 hr).1

theorem counts_sum_pos (hne : counts bench k ≠ []) : 0 < (counts bench k).sum := by
  exact List.sum_pos _ (fun x hx => pos_of_mem_counts hx) hne

/-- The rows of a group are in one partition. -/
theorem filter_group_eq {rows : List OffsetRow} :
    (rows.filter fun r => r.buffer = k.2).filter (fun r => decide (r.group = k)) =
      rows.filter fun r => r.group = k := by
  rw [List.filter_filter]
  refine List.filter_congr fun r _ => ?_
  by_cases h : r.group = k
  · simp [h, buffer_of_group h]
  · simp [h]

theorem filter_others_eq {rows : List OffsetRow} :
    (rows.filter fun r => r.buffer = k.2).filter (fun r => !decide (r.group = k)) =
      rows.filter fun r => r.buffer = k.2 ∧ r.group ≠ k := by
  rw [List.filter_filter]
  refine List.filter_congr fun r _ => ?_
  by_cases h : r.group = k <;> simp [h]

theorem filter_ranked_eq :
    (ranked.filter fun x => x.1.buffer = k.2).filter (fun x => decide (x.1.group = k)) =
      ranked.filter fun x => x.1.group = k := by
  rw [List.filter_filter]
  refine List.filter_congr fun x _ => ?_
  by_cases h : x.1.group = k
  · simp [h, buffer_of_group h]
  · simp [h]

/-- The group in a numbering, as the list of its partition has it. -/
structure InPartition (bench : List StoreRow) (ord : OffsetRow → Nat)
    (k : AllocType × BitVec 64 × BitVec 32) (ranked : List (OffsetRow × Nat)) (l : List OffsetRow) :
    Prop where
  sorted : l.Pairwise fun r r' => ord r ≤ ord r'
  own : ((l.filter fun r => r.group = k).map OffsetRow.writes).Perm (counts bench k)
  others : ((l.filter fun r => !decide (r.group = k)).map OffsetRow.writes).Perm
    (otherCounts bench k)
  ranked : (ranked.filter fun x => x.1.group = k).Perm (l.zipIdx.filter fun x => x.1.group = k)

theorem exists_inPartition
    (h : Numbered OffsetRow.buffer ord (perOffset bench) ranked)
    (k : AllocType × BitVec 64 × BitVec 32) : ∃ l, InPartition bench ord k ranked l := by
  obtain ⟨l, hperm, hsorted, hranked⟩ := h k.2
  refine ⟨l, hsorted, ?_, ?_, ?_⟩
  · have hown := (hperm.filter fun r => decide (r.group = k)).map OffsetRow.writes
    rw [filter_group_eq] at hown
    exact hown
  · have hothers := (hperm.filter fun r => !decide (r.group = k)).map OffsetRow.writes
    rw [filter_others_eq] at hothers
    exact hothers
  · rw [← filter_ranked_eq]
    exact hranked.filter _

variable {l : List OffsetRow}

theorem InPartition.map_fst (h : InPartition bench ord k ranked l) :
    ((ranked.filter fun x => x.1.group = k).map Prod.fst).Perm (l.filter fun r => r.group = k) := by
  have hfst : (l.zipIdx.filter fun x => x.1.group = k).map Prod.fst =
      l.filter fun r => r.group = k := by
    conv_rhs => rw [← List.zipIdx_map_fst 0 l, List.filter_map]
    rfl
  rw [← hfst]
  exact h.ranked.map Prod.fst

theorem InPartition.length_eq (h : InPartition bench ord k ranked l) :
    (ranked.filter fun x => x.1.group = k).length = (counts bench k).length := by
  have hlength := h.map_fst.length_eq
  rw [List.length_map] at hlength
  rw [hlength, ← h.own.length_eq, List.length_map]

theorem InPartition.totalWrites_eq (h : InPartition bench ord k ranked l) :
    totalWrites (ranked.filter fun x => x.1.group = k) = (counts bench k).sum := by
  rw [← h.own.sum_eq, ← (h.map_fst.map OffsetRow.writes).sum_eq, List.map_map]
  rfl

/-- The sum of the ranks, when the order says which of the others come before an offset of the
group. -/
theorem InPartition.weighted_eq {P : Nat → Nat → Prop} [DecidableRel P]
    (h : InPartition bench ord k ranked l) (hord : ∀ r r', ord r ≤ ord r' → r.writes ≤ r'.writes)
    (hP : ∀ r ∈ l, ∀ r' ∈ l, ord r ≤ ord r' → (r.group ≠ k → r'.group = k → P r.writes r'.writes) ∧
      (r.group = k → r'.group ≠ k → ¬P r'.writes r.writes)) :
    2 * ((ranked.filter fun x => x.1.group = k).map fun r => (r.2 + 1) * r.1.writes).sum =
      ((counts bench k).length + 1) * (counts bench k).sum + (gaps (counts bench k) +
        2 * ((counts bench k).map fun x =>
          x * (otherCounts bench k).countP fun y => P y x).sum) := by
  let own : OffsetRow → Bool := fun r => decide (r.group = k)
  have hsum : ((ranked.filter fun x => x.1.group = k).map fun r => (r.2 + 1) * r.1.writes).sum =
      ownRankSum own OffsetRow.writes l.zipIdx := (h.ranked.map _).sum_eq
  have hsorted : ((l.filter own).map OffsetRow.writes).Pairwise (· ≤ ·) := by
    rw [List.pairwise_map]
    exact (h.sorted.filter own).imp fun {r r'} hle => hord r r' hle
  have hahead : ahead own OffsetRow.writes l = ((counts bench k).map fun x =>
      x * (otherCounts bench k).countP fun y => P y x).sum := by
    have hcount : ∀ x, (l.filter fun r => !own r).countP (fun r => P r.writes x) =
        (otherCounts bench k).countP fun y => P y x := by
      intro x
      rw [← h.others.countP_eq, List.countP_map]
      rfl
    rw [ahead_eq own OffsetRow.writes (P := fun r r' => P r.writes r'.writes)]
    · simp only [hcount]
      rw [← (h.own.map fun x => x * (otherCounts bench k).countP fun y => P y x).sum_eq,
        List.map_map]
      rfl
    · refine h.sorted.imp_of_mem fun {r r'} hr hr' hle => ?_
      obtain ⟨hbefore, hafter⟩ := hP r hr r' hr' hle
      exact ⟨fun h₁ h₂ => hbefore (of_decide_eq_false h₁) (of_decide_eq_true h₂),
        fun h₁ h₂ => hafter (of_decide_eq_true h₁) (of_decide_eq_false h₂)⟩
  rw [hsum, ownRankSum_zipIdx, Nat.zero_mul, Nat.zero_add, Nat.mul_add, two_mul_rankSum hsorted,
    hahead, h.own.length_eq, h.own.sum_eq, gaps_perm h.own, Nat.add_assoc]

/-- **The value of a group**: the differences between its counts, and twice the weight of the ranks
that others take. -/
theorem InPartition.gini_eq {P : Nat → Nat → Prop} [DecidableRel P]
    (h : InPartition bench ord k ranked l) (hne : counts bench k ≠ [])
    (hord : ∀ r r', ord r ≤ ord r' → r.writes ≤ r'.writes)
    (hP : ∀ r ∈ l, ∀ r' ∈ l, ord r ≤ ord r' → (r.group ≠ k → r'.group = k → P r.writes r'.writes) ∧
      (r.group = k → r'.group ≠ k → ¬P r'.writes r.writes)) :
    gini (ranked.filter fun x => x.1.group = k) = some (((gaps (counts bench k) +
      2 * ((counts bench k).map fun x =>
        x * (otherCounts bench k).countP fun y => P y x).sum : ℕ) : ℚ) /
      (((counts bench k).length * (counts bench k).sum : ℕ) : ℚ)) := by
  have hweighted := h.weighted_eq hord hP
  have hpos : (counts bench k).length * (counts bench k).sum ≠ 0 :=
    (Nat.mul_pos (List.length_pos_of_ne_nil hne) (counts_sum_pos hne)).ne'
  unfold gini
  dsimp only
  rw [h.length_eq, h.totalWrites_eq, if_neg hpos]
  have hcast := congrArg (Nat.cast : ℕ → ℚ) hweighted
  push_cast at hcast ⊢
  rw [hcast, add_sub_cancel_left]

end Value

/-! ## The rows of the result -/

section Rows

variable {bench : List StoreRow} {ranked : List (OffsetRow × Nat)} {row : GiniRow}
  {k : AllocType × BitVec 64 × BitVec 32}

theorem mem_reported_iff (h : Ranked bench ranked) : row ∈ reported ranked ↔
    ∃ k, 1 < (counts bench k).length ∧ row = ⟨k.1, k.2.1, k.2.2,
      gini (ranked.filter fun x => x.1.group = k),
      (ranked.filter fun x => x.1.group = k).length,
      totalWrites (ranked.filter fun x => x.1.group = k)⟩ := by
  have hlength : ∀ k, (ranked.filter fun x => x.1.group = k).length = (counts bench k).length := by
    intro k
    obtain ⟨l, hl⟩ := exists_inPartition h k
    exact hl.length_eq
  simp only [reported, bufGini, List.mem_filter, mem_aggregate, decide_eq_true_eq]
  constructor
  · rintro ⟨⟨r, hr, rfl⟩, hn⟩
    exact ⟨r.1.group, (hlength _).symm ▸ hn, rfl⟩
  · rintro ⟨k, hn, rfl⟩
    rw [← hlength k] at hn
    have hne : (ranked.filter fun x => x.1.group = k) ≠ [] :=
      List.ne_nil_of_length_pos (Nat.lt_of_lt_of_le Nat.zero_lt_one hn.le)
    obtain ⟨r, rest, hcons⟩ := List.exists_cons_of_ne_nil hne
    have hr : (ranked.filter fun x => x.1.group = k).head? = some r := by
      rw [hcons]
      rfl
    obtain rfl : r.1.group = k :=
      of_decide_eq_true (List.mem_filter.1 (List.mem_of_head? hr)).2
    exact ⟨⟨r, hr, rfl⟩, hn⟩

end Rows

/-! ## When the values are Gini coefficients -/

section Bounds

variable {bench : List StoreRow}

theorem one_lt_length {k : AllocType × BitVec 64 × BitVec 32} (h : 1 < (counts bench k).length) :
    counts bench k ≠ [] :=
  List.ne_nil_of_length_pos (Nat.lt_of_lt_of_le Nat.zero_lt_one h.le)

theorem cast_total_pos {k : AllocType × BitVec 64 × BitVec 32} (h : counts bench k ≠ []) :
    (0 : ℚ) < (((counts bench k).length * (counts bench k).sum : ℕ) : ℚ) :=
  Nat.cast_pos.2 (Nat.mul_pos (List.length_pos_of_ne_nil h) (counts_sum_pos h))

/-- The value of an undisturbed group, however ties are broken. -/
theorem gini_of_undisturbed {ranked : List (OffsetRow × Nat)} (h : Ranked bench ranked)
    {k : AllocType × BitVec 64 × BitVec 32} (hne : counts bench k ≠ [])
    (hk : ∀ x ∈ counts bench k, x ∉ otherCounts bench k) :
    gini (ranked.filter fun x => x.1.group = k) = some (((gaps (counts bench k) +
      2 * ((counts bench k).map fun x =>
        x * (otherCounts bench k).countP fun y => y < x).sum : ℕ) : ℚ) /
      (((counts bench k).length * (counts bench k).sum : ℕ) : ℚ)) := by
  obtain ⟨l, hl⟩ := exists_inPartition h k
  have hown : ∀ r ∈ l, r.group = k → r.writes ∈ counts bench k := by
    intro r hr hgroup
    refine hl.own.mem_iff.1 (List.mem_map.2 ⟨r, List.mem_filter.2 ⟨hr, ?_⟩, rfl⟩)
    exact decide_eq_true hgroup
  have hothers : ∀ r ∈ l, r.group ≠ k → r.writes ∈ otherCounts bench k := by
    intro r hr hgroup
    refine hl.others.mem_iff.1 (List.mem_map.2 ⟨r, List.mem_filter.2 ⟨hr, ?_⟩, rfl⟩)
    simp [hgroup]
  refine hl.gini_eq (P := (· < ·)) hne (fun _ _ hle => hle) fun r hr r' hr' hle => ⟨?_, ?_⟩
  · intro hother hgroup
    refine lt_of_le_of_ne hle fun heq => hk _ (hown r' hr' hgroup) ?_
    rw [← heq]
    exact hothers r hr hother
  · exact fun _ _ => Nat.not_lt.2 hle

/-- **Undisturbed groups** have Gini coefficients. -/
theorem giniBounds_of_undisturbed
    (h : ∀ k, 1 < (counts bench k).length → Undisturbed (counts bench k) (otherCounts bench k)) :
    GiniBounds bench := by
  constructor
  · intro ranked hranked row hrow
    obtain ⟨k, hn, rfl⟩ := (mem_reported_iff hranked).1 hrow
    have hk := h k hn
    have hpos := cast_total_pos (one_lt_length hn)
    refine ⟨_, gini_of_undisturbed hranked (one_lt_length hn) hk.no_tie, ?_, ?_, ?_⟩
    · exact div_nonneg (Nat.cast_nonneg _) hpos.le
    · rw [div_lt_one hpos]
      exact Nat.cast_lt.2 hk.weight
    · intro heq
      change ∀ x ∈ counts bench k, ∀ y ∈ counts bench k, x = y at heq
      have hnone : ((counts bench k).map fun x =>
          x * (otherCounts bench k).countP fun y => y < x).sum = 0 := by
        refine List.sum_eq_zero fun d hd => ?_
        obtain ⟨x, hx, rfl⟩ := List.mem_map.1 hd
        have hcount : (otherCounts bench k).countP (fun y => y < x) = 0 := by
          rw [List.countP_eq_zero]
          intro y hy
          rw [decide_eq_true_eq, Nat.not_lt]
          exact (hk.above heq x hx y hy).le
        rw [hcount, Nat.mul_zero]
      rw [gaps_eq_zero heq, hnone, Nat.mul_zero, Nat.add_zero, Nat.cast_zero, zero_div]
  · intro ranked ranked' hranked hranked' row hrow row' hrow' hgroup
    obtain ⟨k, hn, rfl⟩ := (mem_reported_iff hranked).1 hrow
    obtain ⟨k', hn', rfl⟩ := (mem_reported_iff hranked').1 hrow'
    obtain rfl : k = k' := hgroup
    exact (gini_of_undisturbed hranked (one_lt_length hn) (h k hn).no_tie).trans
      (gini_of_undisturbed hranked' (one_lt_length hn) (h k hn).no_tie).symm

/-- A numbering in which ties with other types are broken one way or the other. -/
def tieBroken (bench : List StoreRow) (k : AllocType × BitVec 64 × BitVec 32) (ownFirst : Bool) :
    List (OffsetRow × Nat) :=
  rowNumbered OffsetRow.buffer
    (fun r => 2 * r.writes + if decide (r.group = k) = ownFirst then 0 else 1) (perOffset bench)

theorem ranked_tieBroken (k : AllocType × BitVec 64 × BitVec 32) (ownFirst : Bool) :
    Ranked bench (tieBroken bench k ownFirst) := by
  refine numbered_rowNumbered fun r r' hle => ?_
  split at hle <;> split at hle <;> omega

theorem gini_ownFirst {k : AllocType × BitVec 64 × BitVec 32} (hne : counts bench k ≠ []) :
    gini ((tieBroken bench k true).filter fun x => x.1.group = k) = some (((gaps (counts bench k) +
      2 * ((counts bench k).map fun x =>
        x * (otherCounts bench k).countP fun y => y < x).sum : ℕ) : ℚ) /
      (((counts bench k).length * (counts bench k).sum : ℕ) : ℚ)) := by
  obtain ⟨l, hl⟩ := exists_inPartition (numbered_rowNumbered fun _ _ hle => hle) k
  refine hl.gini_eq (P := (· < ·)) hne (fun r r' hle => ?_) fun r _ r' _ hle => ⟨?_, ?_⟩
  · split at hle <;> split at hle <;> omega
  · intro hother hgroup
    simp only [hother, hgroup, decide_true, decide_false, if_true, Bool.false_eq_true,
      if_false] at hle
    omega
  · intro hgroup hother
    simp only [hother, hgroup, decide_true, decide_false, if_true, Bool.false_eq_true,
      if_false] at hle
    omega

theorem gini_ownLast {k : AllocType × BitVec 64 × BitVec 32} (hne : counts bench k ≠ []) :
    gini ((tieBroken bench k false).filter fun x => x.1.group = k) = some (((gaps (counts bench k) +
      2 * ((counts bench k).map fun x =>
        x * (otherCounts bench k).countP fun y => y ≤ x).sum : ℕ) : ℚ) /
      (((counts bench k).length * (counts bench k).sum : ℕ) : ℚ)) := by
  obtain ⟨l, hl⟩ := exists_inPartition (numbered_rowNumbered fun _ _ hle => hle) k
  refine hl.gini_eq (P := (· ≤ ·)) hne (fun r r' hle => ?_) fun r _ r' _ hle => ⟨?_, ?_⟩
  · split at hle <;> split at hle <;> omega
  · intro hother hgroup
    simp only [hother, hgroup, decide_true, decide_false, if_true, Bool.true_eq_false,
      if_false] at hle
    omega
  · intro hgroup hother
    simp only [hother, hgroup, decide_true, decide_false, if_true, Bool.true_eq_false,
      if_false] at hle
    omega

theorem countP_le_eq (x : Nat) (others : List Nat) :
    others.countP (fun y => y ≤ x) = others.countP (fun y => y < x) + others.count x := by
  induction others with
  | nil => rfl
  | cons y others ih =>
    simp only [List.countP_cons, List.count_cons, ih, decide_eq_true_eq, beq_iff_eq]
    split_ifs <;> omega

/-- A tie with another type gives an offset a weight that it has not if the tie is broken otherwise.
-/
theorem not_mem_of_sum_eq {own others : List Nat} (hpos : ∀ x ∈ own, 0 < x)
    (h : (own.map fun x => x * others.countP fun y => y < x).sum =
      (own.map fun x => x * others.countP fun y => y ≤ x).sum) : ∀ x ∈ own, x ∉ others := by
  intro x hx hmem
  have hcount := List.count_pos_iff.2 hmem
  refine absurd h (Nat.ne_of_lt (List.sum_lt_sum _ _ (fun y _ => ?_) ⟨x, hx, ?_⟩))
  · refine Nat.mul_le_mul_left y ?_
    rw [countP_le_eq]
    exact Nat.le_add_right ..
  · refine Nat.mul_lt_mul_of_pos_left ?_ (hpos x hx)
    rw [countP_le_eq]
    exact Nat.lt_add_of_pos_right hcount

/-- **When the values are Gini coefficients**: exactly if no group with more than one offset is
disturbed by offsets of another type at the same address and generation. -/
theorem giniBounds_iff (bench : List StoreRow) : GiniBounds bench ↔
    ∀ k, 1 < (counts bench k).length → Undisturbed (counts bench k) (otherCounts bench k) := by
  refine ⟨fun h k hn => ?_, giniBounds_of_undisturbed⟩
  have hne := one_lt_length hn
  have hpos := cast_total_pos hne
  have hfirst := (mem_reported_iff (ranked_tieBroken k true)).2 ⟨k, hn, rfl⟩
  have hlast := (mem_reported_iff (ranked_tieBroken k false)).2 ⟨k, hn, rfl⟩
  have hvalue := gini_ownFirst hne
  have htie : ∀ x ∈ counts bench k, x ∉ otherCounts bench k := by
    have hsame := h.ties _ _ (ranked_tieBroken k true) (ranked_tieBroken k false) _ hfirst _ hlast
      ((GiniRow.group_mk ..).trans (GiniRow.group_mk ..).symm)
    dsimp only at hsame
    rw [gini_ownFirst hne, gini_ownLast hne, Option.some.injEq, div_left_inj' hpos.ne',
      Nat.cast_inj] at hsame
    exact not_mem_of_sum_eq (fun x hx => pos_of_mem_counts hx) (by omega)
  obtain ⟨g, hg, -, hlt, hzero⟩ := h.bounds _ (ranked_tieBroken k true) _ hfirst
  dsimp only at hg
  rw [hvalue, Option.some.injEq] at hg
  subst hg
  refine ⟨htie, fun heq x hx y hy => ?_, ?_⟩
  · have hnone := hzero heq
    rw [div_eq_zero_iff, or_iff_left hpos.ne', Nat.cast_eq_zero] at hnone
    have hsum : ((counts bench k).map fun x =>
        x * (otherCounts bench k).countP fun y => y < x).sum = 0 := by omega
    have hterm : x * (otherCounts bench k).countP (fun y => y < x) = 0 :=
      List.sum_eq_zero_iff.1 hsum _ (List.mem_map.2 ⟨x, hx, rfl⟩)
    have hcount := (Nat.mul_eq_zero.1 hterm).resolve_left (pos_of_mem_counts hx).ne'
    have hnot := List.countP_eq_zero.1 hcount y hy
    rw [decide_eq_true_eq, Nat.not_lt] at hnot
    refine lt_of_le_of_ne hnot fun hxy => htie x hx ?_
    rw [hxy]
    exact hy
  · rw [div_lt_one hpos] at hlt
    exact Nat.cast_lt.1 hlt

/-- Two processes of one archive: each writes to two offsets at one address, the second twice. -/
def mixedTypes : List StoreRow :=
  let row (t : AllocType) (offset value : BitVec 64) : StoreRow :=
    ⟨0x1000#64, 16#64, t, 1#32, "malloc".toList, offset, value⟩
  [row .bits64 0 1, row .bits64 8 2, row .object 1 3, row .object 2 4, row .object 1 5,
    row .object 2 6]

/-- The offsets of the second process have equal counts, and their value is `2`. -/
theorem gini_mixedTypes : ∃ ranked, Ranked mixedTypes ranked ∧
    counts mixedTypes (.object, 0x1000#64, 1#32) = [2, 2] ∧
    (∃ row ∈ reported ranked, row.group = (.object, 0x1000#64, 1#32) ∧ row.gini = some 2) ∧
    ¬GiniBounds mixedTypes := by
  have hcounts : counts mixedTypes (.object, 0x1000#64, 1#32) = [2, 2] := by decide +kernel
  have hothers : otherCounts mixedTypes (.object, 0x1000#64, 1#32) = [1, 1] := by decide +kernel
  have hranked : Ranked mixedTypes (tieBroken mixedTypes (.object, 0x1000#64, 1#32) true) :=
    ranked_tieBroken _ true
  have hlength : 1 < (counts mixedTypes (.object, 0x1000#64, 1#32)).length := by
    rw [hcounts]
    decide
  have hrow := (mem_reported_iff hranked).2 ⟨_, hlength, rfl⟩
  have hvalue : ((gaps [2, 2] +
      2 * ([2, 2].map fun x => x * [1, 1].countP fun y => y < x).sum : ℕ) : ℚ) /
        (([2, 2].length * [2, 2].sum : ℕ) : ℚ) = 2 := by decide +kernel
  rw [gini_ownFirst (one_lt_length hlength), hcounts, hothers, hvalue] at hrow
  refine ⟨_, hranked, hcounts, ⟨_, hrow, ?_, ?_⟩, fun h => ?_⟩
  · rfl
  · rfl
  · obtain ⟨g, hg, -, hlt, -⟩ := h.bounds _ hranked _ hrow
    cases hg
    exact absurd hlt (by decide)

/-! ## One type for each buffer -/

theorem exists_store {r : OffsetRow} (hr : r ∈ perOffset bench) :
    ∃ s ∈ bench, r.group = (s.allocType, s.allocAddr, s.generation) := by
  obtain ⟨s, hs, rfl⟩ := mem_aggregate.1 hr
  exact ⟨s, (List.mem_filter.1 (List.mem_of_head? hs)).1, rfl⟩

theorem undisturbed_nil {own : List Nat} (hpos : 0 < own.sum) : Undisturbed own [] where
  no_tie _ _ := List.not_mem_nil
  above _ _ _ _ hy := absurd hy List.not_mem_nil
  weight := by
    have hle := gaps_add_sum_le own
    have hnone : (own.map fun x => x * ([] : List Nat).countP fun y => y < x).sum = 0 := by
      refine List.sum_eq_zero fun d hd => ?_
      obtain ⟨x, -, rfl⟩ := List.mem_map.1 hd
      rfl
    rw [hnone]
    omega

/-- **With one type** for each address and generation the values are Gini coefficients. -/
theorem giniBounds_of_oneType (h : ∀ s ∈ bench, ∀ s' ∈ bench, s.allocAddr = s'.allocAddr →
    s.generation = s'.generation → s.allocType = s'.allocType) : GiniBounds bench := by
  refine giniBounds_of_undisturbed fun k hn => ?_
  have hnone : otherCounts bench k = [] := by
    rw [otherCounts, List.map_eq_nil_iff, List.filter_eq_nil_iff]
    intro r hr hother
    obtain ⟨hbuffer, hgroup⟩ := of_decide_eq_true hother
    obtain ⟨x, hx⟩ := List.exists_mem_of_ne_nil _ (one_lt_length hn)
    obtain ⟨r', hr', -⟩ := List.mem_map.1 hx
    obtain ⟨hmem, hk⟩ := List.mem_filter.1 hr'
    obtain ⟨s, hs, hsame⟩ := exists_store hr
    obtain ⟨s', hs', hsame'⟩ := exists_store hmem
    have hkey : k = (s'.allocType, s'.allocAddr, s'.generation) :=
      (of_decide_eq_true hk).symm.trans hsame'
    have hbuffer' : (s.allocAddr, s.generation) = (s'.allocAddr, s'.generation) := by
      rw [hkey] at hbuffer
      exact (buffer_of_group hsame).symm.trans hbuffer
    obtain ⟨haddr, hgen⟩ := Prod.mk.inj hbuffer'
    refine hgroup ?_
    rw [hsame, hkey, h s hs s' hs' haddr hgen, haddr, hgen]
  rw [hnone]
  exact undisturbed_nil (counts_sum_pos (one_lt_length hn))

end Bounds

end Memlog.Query
