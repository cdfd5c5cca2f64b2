import Mathlib.Tactic.Linarith
import Memlog.Lib.Cover
import Memlog.Lib.Sql
import Memlog.Parquet.Model
import Memlog.Tool.Basic

/-!
# Write concentration

`11_write_concentration` numbers the buffers of a benchmark in descending order of their stores,
sums them up along the numbering, and takes the least number whose sum reaches a fraction of all
stores. That is the least number of buffers with which the fraction can be reached at all
(`topFor_leastCover`), whatever order the window gives to buffers with equally many stores.
-/

namespace Memlog.Query.Concentration

open Lib ToParquet

/-! ## The query -/

/-- A row of the view `all_stores`, which has the name of its benchmark. -/
abbrev BenchStore := Line × StoreRow

/-- A row of the CTE `per_buffer`. -/
structure BufferRow where
  bench : Line
  allocAddr : BitVec 64
  generation : BitVec 32
  stores : Nat
deriving DecidableEq

def BufferRow.buffer (b : BufferRow) : BitVec 64 × BitVec 32 := (b.allocAddr, b.generation)

/-- The CTE `per_buffer`. -/
def perBuffer (allStores : List BenchStore) : List BufferRow :=
  aggregate (fun r => (r.1, r.2.key))
    (fun r group => ⟨r.1, r.2.allocAddr, r.2.generation, group.length⟩) allStores

/-- A row of the CTE `ranked`. -/
structure RankedRow where
  bench : Line
  stores : Nat
  rnk : Nat
  cumStores : Nat
  totalStores : Nat
deriving DecidableEq

/-- The window functions on a partition that is in order: the frame of `cum_stores` goes from the
first row to the current one. -/
def windows (l : List BufferRow) : List RankedRow :=
  l.zipIdx.map fun x =>
    { bench := x.1.bench
      stores := x.1.stores
      rnk := x.2 + 1
      cumStores := cum BufferRow.stores l (x.2 + 1)
      totalStores := (l.map BufferRow.stores).sum }

/-- The CTE `ranked`: the buffers of each benchmark in an order that `ORDER BY stores DESC` allows,
which is one for both window functions. -/
def Ranked (allStores : List BenchStore) (ranked : List RankedRow) : Prop :=
  ∀ bench, ∃ l : List BufferRow, l.Perm ((perBuffer allStores).filter fun b => b.bench = bench) ∧
    Descending BufferRow.stores l ∧ (ranked.filter fun r => r.bench = bench).Perm (windows l)

/-- A row of the result. -/
structure ConcentrationRow where
  bench : Line
  totalStores : Option Nat
  totalBuffers : Nat
  topFor50pct : Option Nat
  topFor80pct : Option Nat
  topFor90pct : Option Nat
  topFor95pct : Option Nat
  topFor99pct : Option Nat

/-- `MIN(rnk) FILTER (WHERE cum_stores >= p * total_stores)`. -/
def topFor (p : ℚ) (group : List RankedRow) : Option Nat :=
  minOf (fun r => if p * r.totalStores ≤ r.cumStores then some r.rnk else none) group

def writeConcentration (ranked : List RankedRow) : List ConcentrationRow :=
  aggregate RankedRow.bench (fun r group =>
    { bench := r.bench
      totalStores := maxOf (fun r => some r.totalStores) group
      totalBuffers := group.length
      topFor50pct := topFor (50 / 100) group
      topFor80pct := topFor (80 / 100) group
      topFor90pct := topFor (90 / 100) group
      topFor95pct := topFor (95 / 100) group
      topFor99pct := topFor (99 / 100) group }) ranked

/-- The thresholds with the columns for them. -/
def ConcentrationRow.tops (row : ConcentrationRow) : List (ℚ × Option Nat) :=
  [(50 / 100, row.topFor50pct), (80 / 100, row.topFor80pct), (90 / 100, row.topFor90pct),
    (95 / 100, row.topFor95pct), (99 / 100, row.topFor99pct)]

/-! ## What is expected of it -/

/-- The stores of a benchmark. -/
def storesOf (allStores : List BenchStore) (bench : Line) : List StoreRow :=
  (allStores.filter fun r => r.1 = bench).map Prod.snd

/-- The buffers of a benchmark. -/
def buffersOf (allStores : List BenchStore) (bench : Line) : Finset (BitVec 64 × BitVec 32) :=
  ((storesOf allStores bench).map StoreRow.key).toFinset

/-- The number of stores that a buffer receives. -/
def received (allStores : List BenchStore) (bench : Line) (b : BitVec 64 × BitVec 32) : Nat :=
  (storesOf allStores bench).countP fun r => r.key = b

/-- `x` stores are at least the fraction `p` of those of the benchmark. -/
def Reaches (allStores : List BenchStore) (bench : Line) (p : ℚ) (x : Nat) : Prop :=
  p * (storesOf allStores bench).length ≤ x

/-- `n` is the least number of buffers that together receive the fraction `p` of the stores, and the
buffers with the most stores do, in whatever order equal ones come. -/
structure LeastCover (allStores : List BenchStore) (bench : Line) (p : ℚ) (n : Nat) : Prop where
  least : IsLeast {m | ∃ S ⊆ buffersOf allStores bench, S.card = m ∧
    Reaches allStores bench p (∑ b ∈ S, received allStores bench b)} n
  top : ∀ l : List (BitVec 64 × BitVec 32), l.Nodup → l.toFinset = buffersOf allStores bench →
    Descending (received allStores bench) l →
    Reaches allStores bench p (cum (received allStores bench) l n)

/-! ## The buffers of a benchmark -/

section Buffers

variable {allStores : List BenchStore} {bench : Line}

theorem stores_eq_received {b : BufferRow} (hb : b ∈ perBuffer allStores) :
    b.stores = received allStores b.bench b.buffer := by
  obtain ⟨r, -, rfl⟩ := mem_aggregate.1 hb
  change (allStores.filter fun r' => (r'.1, r'.2.key) = (r.1, r.2.key)).length =
    received allStores r.1 (r.2.key)
  rw [received, storesOf, List.countP_map, List.countP_filter, ← List.countP_eq_length_filter]
  refine List.countP_congr fun r' _ => ?_
  simp [Prod.ext_iff, and_comm]

theorem map_key_perBuffer : (perBuffer allStores).map (fun b => (b.bench, b.buffer)) =
    (allStores.map fun r => (r.1, r.2.key)).dedup :=
  map_key_aggregate fun _ _ => rfl

theorem length_storesOf :
    (((perBuffer allStores).filter fun b => b.bench = bench).map BufferRow.stores).sum =
      (storesOf allStores bench).length := by
  rw [storesOf, List.length_map, length_eq_sum]
  refine sum_filter_aggregate (q := fun k : Line × BitVec 64 × BitVec 32 => k.1 = bench) ?_ ?_
  · exact fun _ _ => Iff.rfl
  · exact fun r _ _ => length_eq_sum _

/-- The rows of `per_buffer` for a benchmark, in any order, are its buffers. -/
structure Lists (allStores : List BenchStore) (bench : Line) (l : List BufferRow) : Prop where
  nodup : (l.map BufferRow.buffer).Nodup
  buffers : (l.map BufferRow.buffer).toFinset = buffersOf allStores bench
  stores : ∀ b ∈ l, b.stores = received allStores bench b.buffer
  total : (l.map BufferRow.stores).sum = (storesOf allStores bench).length

theorem lists_of_perm {l : List BufferRow}
    (hperm : l.Perm ((perBuffer allStores).filter fun b => b.bench = bench)) :
    Lists allStores bench l where
  nodup := by
    have hkeys : (((perBuffer allStores).filter fun b => b.bench = bench).map
        fun b => (b.bench, b.buffer)).Nodup := by
      refine List.Nodup.sublist (List.filter_sublist.map _) ?_
      rw [map_key_perBuffer]
      exact List.nodup_dedup _
    refine ((hperm.map _).nodup_iff).2 (List.Nodup.of_map (fun k => (bench, k)) ?_)
    rw [List.map_map]
    refine (List.map_congr_left fun b hb => ?_) ▸ hkeys
    rw [Function.comp_apply, of_decide_eq_true (List.mem_filter.1 hb).2]
  buffers := by
    ext k
    have hkey : (bench, k) ∈ (perBuffer allStores).map (fun b => (b.bench, b.buffer)) ↔
        (bench, k) ∈ allStores.map fun r => (r.1, r.2.key) := by
      rw [map_key_perBuffer, List.mem_dedup]
    simp only [List.mem_map, Prod.mk.injEq] at hkey
    simp only [buffersOf, storesOf, List.map_map, List.mem_toFinset, List.mem_map, hperm.mem_iff,
      List.mem_filter, decide_eq_true_eq, and_assoc, hkey, Function.comp_apply]
  stores b hb := by
    obtain ⟨hmem, hbench⟩ := List.mem_filter.1 (hperm.mem_iff.1 hb)
    rw [stores_eq_received hmem, of_decide_eq_true hbench]
  total := by
    rw [(hperm.map _).sum_eq]
    exact length_storesOf

namespace Lists

variable {l : List BufferRow} (h : Lists allStores bench l)
include h

theorem cum_eq (n : Nat) :
    cum (received allStores bench) (l.map BufferRow.buffer) n = cum BufferRow.stores l n := by
  rw [cum, cum, ← List.map_take, List.map_map]
  refine congrArg List.sum (List.map_congr_left fun b hb => ?_)
  exact (h.stores b (List.mem_of_mem_take hb)).symm

theorem descending (hl : Descending BufferRow.stores l) :
    Descending (received allStores bench) (l.map BufferRow.buffer) := by
  refine List.pairwise_map.2 (hl.imp_of_mem fun {b b'} hb hb' hle => ?_)
  rw [← h.stores b hb, ← h.stores b' hb']
  exact hle

end Lists

end Buffers

/-! ## The least rank -/

theorem mem_windows {l : List BufferRow} {r : RankedRow} (hr : r ∈ windows l) :
    r.rnk ≤ l.length ∧ 0 < r.rnk ∧ r.cumStores = cum BufferRow.stores l r.rnk ∧
      r.totalStores = (l.map BufferRow.stores).sum := by
  obtain ⟨x, hx, rfl⟩ := List.mem_map.1 hr
  exact ⟨(List.mem_zipIdx' hx).1, Nat.succ_pos _, rfl, rfl⟩

theorem exists_mem_windows {l : List BufferRow} {n : Nat} (hpos : 0 < n) (hn : n ≤ l.length) :
    ∃ r ∈ windows l, r.rnk = n := by
  obtain ⟨i, rfl⟩ : ∃ i, n = i + 1 := Nat.exists_eq_succ_of_ne_zero hpos.ne'
  have hmem : (l[i], i) ∈ l.zipIdx := List.mem_zipIdx_iff_getElem?.2 (List.getElem?_eq_getElem hn)
  exact ⟨_, List.mem_map_of_mem hmem, rfl⟩

/-- **The filtered minimum** is the least number of rows whose running sum reaches the threshold. -/
theorem topFor_isLeast {l : List BufferRow} {group : List RankedRow} {p : ℚ}
    (hperm : group.Perm (windows l)) (hpos : 0 < p) (hle : p ≤ 1)
    (htotal : 0 < (l.map BufferRow.stores).sum) : ∃ n, topFor p group = some n ∧
      IsLeast {m | p * ((l.map BufferRow.stores).sum : ℕ) ≤ cum BufferRow.stores l m} n := by
  classical
  have hq : (0 : ℚ) < ((l.map BufferRow.stores).sum : ℕ) := Nat.cast_pos.2 htotal
  have hall : p * ((l.map BufferRow.stores).sum : ℕ) ≤ cum BufferRow.stores l l.length := by
    rw [cum_of_length_le le_rfl]
    exact mul_le_of_le_one_left hq.le hle
  have hreach : ∃ m, p * ((l.map BufferRow.stores).sum : ℕ) ≤ cum BufferRow.stores l m := ⟨_, hall⟩
  have hmin : ∀ m, p * ((l.map BufferRow.stores).sum : ℕ) ≤ cum BufferRow.stores l m →
      Nat.find hreach ≤ m := fun m hm => Nat.find_min' hreach hm
  have hfind := Nat.find_spec hreach
  generalize Nat.find hreach = n at hmin hfind
  have hn : 0 < n := by
    rcases Nat.eq_zero_or_pos n with rfl | hn
    · rw [cum_zero, Nat.cast_zero] at hfind
      exact absurd hfind (not_le.2 (mul_pos hpos hq))
    · exact hn
  refine ⟨n, ?_, hfind, fun m hm => hmin m hm⟩
  rw [topFor, minOf, List.min?_eq_some_iff]
  constructor
  · obtain ⟨r, hr, rfl⟩ := exists_mem_windows hn (hmin _ hall)
    obtain ⟨-, -, hcum, hsum⟩ := mem_windows hr
    refine List.mem_filterMap.2 ⟨r, hperm.mem_iff.2 hr, if_pos ?_⟩
    rw [hcum, hsum]
    exact hfind
  · intro m hm
    obtain ⟨r, hr, hrank⟩ := List.mem_filterMap.1 hm
    obtain ⟨-, -, hcum, hsum⟩ := mem_windows (hperm.mem_iff.1 hr)
    obtain ⟨hle, hrank⟩ := Option.ite_none_right_eq_some.1 hrank
    rw [hcum, hsum, Option.some.inj hrank] at hle
    exact hmin m hle

/-! ## The result -/

section Result

variable {allStores : List BenchStore} {bench : Line} {p : ℚ}

theorem reaches_mono ⦃x y : Nat⦄ (hxy : x ≤ y) (hx : Reaches allStores bench p x) :
    Reaches allStores bench p y :=
  le_trans hx (Nat.cast_le.2 hxy)

theorem Lists.leastCover {l : List BufferRow} (h : Lists allStores bench l)
    (hl : Descending BufferRow.stores l) {n : Nat}
    (hn : IsLeast {m | p * ((l.map BufferRow.stores).sum : ℕ) ≤ cum BufferRow.stores l m} n) :
    LeastCover allStores bench p n := by
  have hcum : {m | p * ((l.map BufferRow.stores).sum : ℕ) ≤ cum BufferRow.stores l m} =
      {m | Reaches allStores bench p
        (cum (received allStores bench) (l.map BufferRow.buffer) m)} := by
    ext m
    rw [Set.mem_ofPred_eq, Set.mem_ofPred_eq, Reaches, h.cum_eq, h.total]
  have hleast := isLeast_cover reaches_mono (h.descending hl) h.nodup (hcum ▸ hn)
  rw [h.buffers] at hleast
  exact ⟨hleast, fun l' _ hbuffers hl' => le_cum_of_isLeast reaches_mono hleast hl' hbuffers⟩

theorem Lists.eq_nil_iff {l : List BufferRow} (h : Lists allStores bench l) :
    l = [] ↔ storesOf allStores bench = [] := by
  have hempty := congrArg (· = ∅) h.buffers
  simpa only [buffersOf, List.toFinset_eq_empty_iff, List.map_eq_nil_iff, eq_iff_iff] using hempty

theorem Lists.total_pos {l : List BufferRow} (h : Lists allStores bench l) (hne : l ≠ []) :
    0 < (l.map BufferRow.stores).sum := by
  rw [h.total]
  exact List.length_pos_of_ne_nil fun hnil => hne (h.eq_nil_iff.2 hnil)

variable {ranked : List RankedRow} (hranked : Ranked allStores ranked)
include hranked

/-- The benchmarks that are ranked are those that have stores. -/
theorem mem_bench_ranked : bench ∈ ranked.map RankedRow.bench ↔ bench ∈ allStores.map Prod.fst := by
  obtain ⟨l, hperm, -, hwindows⟩ := hranked bench
  have hnil : (ranked.filter fun r => r.bench = bench) = [] ↔ storesOf allStores bench = [] := by
    rw [← (lists_of_perm hperm).eq_nil_iff, ← List.length_eq_zero_iff, hwindows.length_eq, windows,
      List.length_map, List.length_zipIdx, List.length_eq_zero_iff]
  rw [storesOf, List.map_eq_nil_iff, List.filter_eq_nil_iff, List.filter_eq_nil_iff] at hnil
  simp only [decide_eq_true_eq] at hnil
  refine not_iff_not.1 ?_
  simp only [List.mem_map, not_exists, not_and]
  exact hnil

theorem topFor_leastCover_of_mem {row : ConcentrationRow} (hrow : row ∈ writeConcentration ranked) :
    ∀ c ∈ row.tops, ∃ n, c.2 = some n ∧ LeastCover allStores row.bench c.1 n := by
  obtain ⟨r, hr, rfl⟩ := mem_aggregate.1 hrow
  obtain ⟨l, hperm, hl, hwindows⟩ := hranked r.bench
  have hlists := lists_of_perm hperm
  have hne : l ≠ [] := by
    rintro rfl
    exact List.not_mem_nil (hwindows.mem_iff.1 (List.mem_of_head? hr))
  have hcolumn : ∀ p : ℚ, 0 < p → p ≤ 1 → ∃ n,
      topFor p (ranked.filter fun r' => r'.bench = r.bench) = some n ∧
        LeastCover allStores r.bench p n := by
    intro p hpos hle
    obtain ⟨n, htop, hn⟩ := topFor_isLeast hwindows hpos hle (hlists.total_pos hne)
    exact ⟨n, htop, hlists.leastCover hl hn⟩
  intro c hc
  simp only [ConcentrationRow.tops, List.mem_cons, List.not_mem_nil, or_false] at hc
  rcases hc with rfl | rfl | rfl | rfl | rfl
  all_goals exact hcolumn _ (by norm_num) (by norm_num)

end Result

/-- **The least number of buffers.** There is one row for each benchmark that has stores, and its
columns are the least numbers of buffers that receive the fractions of the stores. -/
theorem topFor_leastCover (allStores : List BenchStore) (ranked : List RankedRow)
    (hranked : Ranked allStores ranked) :
    ((writeConcentration ranked).map ConcentrationRow.bench).Nodup ∧
    (∀ bench, bench ∈ (writeConcentration ranked).map ConcentrationRow.bench ↔
      bench ∈ allStores.map Prod.fst) ∧
    ∀ row ∈ writeConcentration ranked, ∀ c ∈ row.tops, ∃ n, c.2 = some n ∧
      LeastCover allStores row.bench c.1 n := by
  have hbenches : (writeConcentration ranked).map ConcentrationRow.bench =
      (ranked.map RankedRow.bench).dedup := map_key_aggregate fun _ _ => rfl
  refine ⟨?_, fun bench => ?_, fun row hrow => topFor_leastCover_of_mem hranked hrow⟩
  · rw [hbenches]
    exact List.nodup_dedup _
  · rw [hbenches, List.mem_dedup]
    exact mem_bench_ranked hranked

/-! ## An order for the window -/

/-- The CTE `ranked` with ties in the order of the buffers. -/
def rankedStable (allStores : List BenchStore) : List RankedRow :=
  (groupBy BufferRow.bench (perBuffer allStores)).flatMap fun rows =>
    windows (rows.insertionSort fun b b' => b'.stores ≤ b.stores)

theorem ranked_rankedStable (allStores : List BenchStore) :
    Ranked allStores (rankedStable allStores) := by
  intro bench
  let l := ((perBuffer allStores).filter fun b => b.bench = bench).insertionSort
    fun b b' => b'.stores ≤ b.stores
  have hpart : ∀ k, ∀ r ∈ windows (((perBuffer allStores).filter fun b => b.bench = k).insertionSort
      fun b b' => b'.stores ≤ b.stores), r.bench = k := by
    intro k r hr
    obtain ⟨x, hx, rfl⟩ := List.mem_map.1 hr
    have hmem := List.fst_mem_of_mem_zipIdx hx
    rw [List.mem_insertionSort, List.mem_filter] at hmem
    exact of_decide_eq_true hmem.2
  refine ⟨l, List.perm_insertionSort _ _, ?_, ?_⟩
  · have : Std.Total fun b b' : BufferRow => b'.stores ≤ b.stores := ⟨fun b b' => Nat.le_total _ _⟩
    have : IsTrans BufferRow fun b b' => b'.stores ≤ b.stores :=
      ⟨fun _ _ _ h h' => Nat.le_trans h' h⟩
    exact List.pairwise_insertionSort _ _
  · exact List.Perm.of_eq (filter_flatMap_groupBy rfl hpart bench)

/-- Three buffers, two of them with equally many stores. -/
def threeBuffers : List BenchStore :=
  let store (a : BitVec 64) : BenchStore := ("b".toList, ⟨a, 8, .bits64, 0, "f".toList, 0, 5⟩)
  [store 4096, store 8192, store 4096, store 12288]

theorem topFor_threeBuffers :
    (writeConcentration (rankedStable threeBuffers)).map (fun row => (row.bench, row.tops)) =
      [("b".toList, [(50 / 100, some 1), (80 / 100, some 3), (90 / 100, some 3), (95 / 100, some 3),
        (99 / 100, some 3)])] ∧
    ∀ row ∈ writeConcentration (rankedStable threeBuffers), ∀ c ∈ row.tops, ∃ n, c.2 = some n ∧
      LeastCover threeBuffers row.bench c.1 n :=
  ⟨by decide +kernel, (topFor_leastCover threeBuffers _ (ranked_rankedStable threeBuffers)).2.2⟩

end Memlog.Query.Concentration
