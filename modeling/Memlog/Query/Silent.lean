import Memlog.Lib.Replay
import Memlog.Query.Blocks
import Memlog.Tool.Model

/-!
# Silent stores

`09_silent_stores`, `35_per_buffer_silent` and `21_per_function_silent` look one store back at each
location with a window. What they count is what a map of the locations finds when the rows are put
into it one after the other (`silentStores_replay`). The other two aggregate to buffers first and
take what they report about a buffer from a lookup; no store is lost or counted twice on the way
(`sum_perBufferSilent`, `sum_perStackSilent`), so the totals are the same.
-/

namespace Memlog.Query.Silent

open Lib ToParquet

/-! ## The CTE `lagged` -/

/-- A row of the view, which has its row number, with `prev_value`. -/
abbrev Lagged := (StoreRow × Nat) × Option (BitVec 64)

/-- The key of the window, `PARTITION BY alloc_addr, generation, offset`. -/
def location (r : StoreRow) : BitVec 64 × BitVec 32 × BitVec 64 :=
  (r.allocAddr, r.generation, r.offset)

/-- The CTE `lagged` of the three queries. -/
def lagged (bench : List StoreRow) : List Lagged :=
  lag (fun r => location r.1) Prod.snd (fun r => r.1.value) (view bench)

/-- `prev_value IS NOT NULL`. -/
def hasPrev (x : Lagged) : Bool := x.2.isSome

/-- `prev_value = value`, which is not true of NULL. -/
def isSilent (x : Lagged) : Bool := x.2 = some x.1.1.value

/-! ## `09_silent_stores` -/

structure SilentRow where
  allocType : AllocType
  storesWithPrev : Nat
  silent : Nat
  silentFrac : Option ℚ

def silentRow (x : Lagged) (group : List Lagged) : SilentRow where
  allocType := x.1.1.allocType
  storesWithPrev := group.countP hasPrev
  silent := group.countP isSilent
  silentFrac := ratio (some (group.countP isSilent)) (group.countP hasPrev)

def silentStores (bench : List StoreRow) : List SilentRow :=
  aggregate (fun x => x.1.1.allocType) silentRow (lagged bench)

/-! ## `35_per_buffer_silent` and `21_per_function_silent` -/

/-- A row of the CTE `per_addr`. -/
structure AddrRow where
  allocAddr : BitVec 64
  generation : BitVec 32
  stores : Nat
  pairs : Nat
  silent : Nat

def AddrRow.buffer (p : AddrRow) : BitVec 64 × BitVec 32 := (p.allocAddr, p.generation)

def addrRow (x : Lagged) (group : List Lagged) : AddrRow where
  allocAddr := x.1.1.allocAddr
  generation := x.1.1.generation
  stores := group.length
  pairs := group.countP hasPrev
  silent := group.countP isSilent

/-- The CTE `per_addr` of both. -/
def perAddr (bench : List StoreRow) : List AddrRow :=
  aggregate (fun x => x.1.1.key) addrRow (lagged bench)

/-- A row of the CTE `addr_meta`. -/
structure MetaRow where
  allocAddr : BitVec 64
  generation : BitVec 32
  allocType : AllocType
  allocSize : BitVec 64

def MetaRow.buffer (p : MetaRow) : BitVec 64 × BitVec 32 := (p.allocAddr, p.generation)

/-- The CTE `addr_meta`. -/
def addrMeta (anyType : List StoreRow → AllocType) (anySize : List StoreRow → BitVec 64)
    (bench : List StoreRow) : List MetaRow :=
  aggregate StoreRow.key (fun r group => ⟨r.allocAddr, r.generation, anyType group, anySize group⟩)
    bench

structure BufferSilentRow where
  addr : Line
  generation : BitVec 32
  allocType : AllocType
  allocSize : BitVec 64
  stores : Nat
  pairs : Nat
  silent : Nat
  silentFrac : Option ℚ

def bufferSilentRow (x : AddrRow × MetaRow) : BufferSilentRow where
  addr := "0x".toList ++ printHex x.1.allocAddr
  generation := x.1.generation
  allocType := x.2.allocType
  allocSize := x.2.allocSize
  stores := x.1.stores
  pairs := x.1.pairs
  silent := x.1.silent
  silentFrac := ratio (some x.1.silent) x.1.pairs

def perBufferSilent (anyType : List StoreRow → AllocType) (anySize : List StoreRow → BitVec 64)
    (bench : List StoreRow) : List BufferSilentRow :=
  ((joinUsing AddrRow.buffer MetaRow.buffer (perAddr bench) (addrMeta anyType anySize bench)).filter
    fun x => 0 < x.1.pairs).map bufferSilentRow

/-- A row of the CTE `addr_stack`. -/
structure AddrStackRow where
  allocAddr : BitVec 64
  generation : BitVec 32
  allocStack : Line

def AddrStackRow.buffer (p : AddrStackRow) : BitVec 64 × BitVec 32 := (p.allocAddr, p.generation)

/-- The CTE `addr_stack`. -/
def addrStack (anyStack : List StoreRow → Line) (bench : List StoreRow) : List AddrStackRow :=
  aggregate StoreRow.key (fun r group => ⟨r.allocAddr, r.generation, anyStack group⟩) bench

/-- A row of the CTE `per_stack`. -/
structure StackSilentRow where
  allocStack : Line
  stores : Nat
  pairs : Nat
  silent : Nat

def stackSilentRow (x : AddrRow × AddrStackRow) (group : List (AddrRow × AddrStackRow)) :
    StackSilentRow where
  allocStack := x.2.allocStack
  stores := (group.map fun x => x.1.stores).sum
  pairs := (group.map fun x => x.1.pairs).sum
  silent := (group.map fun x => x.1.silent).sum

/-- The CTE `per_stack`. -/
def perStackSilent (anyStack : List StoreRow → Line) (bench : List StoreRow) :
    List StackSilentRow :=
  aggregate (fun x => x.2.allocStack) stackSilentRow
    (joinUsing AddrRow.buffer AddrStackRow.buffer (perAddr bench) (addrStack anyStack bench))

/-! ## The replay -/

/-- The rows are put into a map keyed by their locations; each with what it finds there. -/
def replayed (bench : List StoreRow) : List (StoreRow × Option (BitVec 64)) :=
  replay location StoreRow.value (fun _ => none) bench

/-- What a buffer is reported with is the same on all its rows. -/
def ConstantMeta (bench : List StoreRow) : Prop :=
  ∀ r ∈ bench, ∀ r' ∈ bench, r.key = r'.key →
    r.allocType = r'.allocType ∧ r.allocSize = r'.allocSize ∧ r.allocStack = r'.allocStack

/-- `09_silent_stores` counts, for each type, the stores that find something in the map, and those
that find their own value. -/
structure CountsReplay (bench : List StoreRow) : Prop where
  rows : ∀ t, t ∈ (silentStores bench).map SilentRow.allocType ↔ t ∈ bench.map StoreRow.allocType
  nodup : ((silentStores bench).map SilentRow.allocType).Nodup
  storesWithPrev : ∀ row ∈ silentStores bench, row.storesWithPrev =
    (replayed bench).countP fun x => x.1.allocType = row.allocType ∧ x.2 ≠ none
  silent : ∀ row ∈ silentStores bench, row.silent =
    (replayed bench).countP fun x => x.1.allocType = row.allocType ∧ x.2 = some x.1.value

/-- The three queries add up to the same totals: `35_per_buffer_silent` for each type, and
`per_stack` over all types. -/
structure SameTotals (anyType : List StoreRow → AllocType) (anySize : List StoreRow → BitVec 64)
    (anyStack : List StoreRow → Line) (bench : List StoreRow) : Prop where
  bufferPairs : ∀ t,
    (((perBufferSilent anyType anySize bench).filter fun row => row.allocType = t).map
      BufferSilentRow.pairs).sum =
    (((silentStores bench).filter fun row => row.allocType = t).map SilentRow.storesWithPrev).sum
  bufferSilent : ∀ t,
    (((perBufferSilent anyType anySize bench).filter fun row => row.allocType = t).map
      BufferSilentRow.silent).sum =
    (((silentStores bench).filter fun row => row.allocType = t).map SilentRow.silent).sum
  stackPairs : ((perStackSilent anyStack bench).map StackSilentRow.pairs).sum =
    ((silentStores bench).map SilentRow.storesWithPrev).sum
  stackSilent : ((perStackSilent anyStack bench).map StackSilentRow.silent).sum =
    ((silentStores bench).map SilentRow.silent).sum

/-! ## The window and the map -/

section Window

variable {bench : List StoreRow}

theorem sorted_view (bench : List StoreRow) : (view bench).Pairwise fun r r' => r.2 ≤ r'.2 := by
  have hrange : ((view bench).map Prod.snd).Pairwise (· < ·) := by
    rw [view, List.zipIdx_map_snd]
    exact List.pairwise_lt_range'
  exact (List.pairwise_map.1 hrange).imp Nat.le_of_lt

/-- **The window finds what the map holds.** -/
theorem lagged_perm_replayed (bench : List StoreRow) :
    ((lagged bench).map fun x => (x.1.1, x.2)).Perm (replayed bench) := by
  have hreplay : replayed bench =
      (replay (fun r : StoreRow × Nat => location r.1) (fun r => r.1.value)
      (fun _ => none) (view bench)).map fun x => (x.1.1, x.2) := by
    rw [← map_replay, view, List.zipIdx_map_fst]
    rfl
  rw [hreplay]
  exact (lag_perm_replay (sorted_view bench)).map _

theorem mem_of_mem_lagged {x : Lagged} (hx : x ∈ lagged bench) : x.1.1 ∈ bench := by
  have hmem : (x.1.1, x.2) ∈ replayed bench :=
    (lagged_perm_replayed bench).mem_iff.1 (List.mem_map.2 ⟨x, hx, rfl⟩)
  have hfst := List.mem_map_of_mem (f := Prod.fst) hmem
  rw [replayed, map_fst_replay] at hfst
  exact hfst

theorem exists_lagged {r : StoreRow} (hr : r ∈ bench) : ∃ x ∈ lagged bench, x.1.1 = r := by
  have hmem : r ∈ (replayed bench).map Prod.fst := by
    rw [replayed, map_fst_replay]
    exact hr
  obtain ⟨y, hy, rfl⟩ := List.mem_map.1 hmem
  obtain ⟨x, hx, rfl⟩ := List.mem_map.1 ((lagged_perm_replayed bench).mem_iff.2 hy)
  exact ⟨x, hx, rfl⟩

/-- A count over the window is one over the replay. -/
theorem countP_lagged (t : AllocType) (p : StoreRow × Option (BitVec 64) → Prop) [DecidablePred p] :
    ((lagged bench).filter fun x => x.1.1.allocType = t).countP (fun x => p (x.1.1, x.2)) =
      (replayed bench).countP fun x => x.1.allocType = t ∧ p x := by
  rw [← (lagged_perm_replayed bench).countP_eq, List.countP_map, List.countP_filter]
  refine List.countP_congr fun x _ => ?_
  simp [and_comm]

theorem map_allocType_silentStores : (silentStores bench).map SilentRow.allocType =
    ((lagged bench).map fun x => x.1.1.allocType).dedup :=
  map_key_aggregate fun _ _ => rfl

theorem mem_allocType_silentStores (t : AllocType) :
    t ∈ (silentStores bench).map SilentRow.allocType ↔ t ∈ bench.map StoreRow.allocType := by
  rw [map_allocType_silentStores, List.mem_dedup]
  simp only [List.mem_map]
  constructor
  · rintro ⟨x, hx, rfl⟩
    exact ⟨x.1.1, mem_of_mem_lagged hx, rfl⟩
  · rintro ⟨r, hr, rfl⟩
    obtain ⟨x, hx, rfl⟩ := exists_lagged hr
    exact ⟨x, hx, rfl⟩

/-- A row of `09_silent_stores` has what its query aggregates over the stores of its type. -/
theorem exists_silentRow {row : SilentRow} (hrow : row ∈ silentStores bench) :
    ∃ x, row = silentRow x ((lagged bench).filter fun x => x.1.1.allocType = row.allocType) := by
  obtain ⟨x, -, rfl⟩ := mem_aggregate.1 hrow
  exact ⟨x, rfl⟩

theorem countsReplay (bench : List StoreRow) : CountsReplay bench where
  rows := mem_allocType_silentStores
  nodup := by
    rw [map_allocType_silentStores]
    exact List.nodup_dedup _
  storesWithPrev := by
    intro row hrow
    obtain ⟨x, hx⟩ := exists_silentRow hrow
    rw [← countP_lagged]
    conv_lhs => rw [hx]
    refine List.countP_congr fun y _ => ?_
    rw [hasPrev, decide_eq_true_eq, Option.isSome_iff_ne_none]
  silent := by
    intro row hrow
    obtain ⟨x, hx⟩ := exists_silentRow hrow
    rw [← countP_lagged]
    conv_lhs => rw [hx]
    rfl

end Window

/-! ## Totals -/

section Totals

variable {bench : List StoreRow} {c : Lagged → Bool}

/-- **A total over the types** is one over the stores. -/
theorem sum_silentStores {n : SilentRow → Nat}
    (hn : ∀ x group, n (silentRow x group) = group.countP c) :
    ((silentStores bench).map n).sum = (lagged bench).countP c := by
  rw [countP_eq_sum, silentStores]
  refine (sum_map_aggregate fun x _ => ?_).trans (sum_groupBy _)
  rw [hn, countP_eq_sum]

theorem sum_silentStores_type {n : SilentRow → Nat}
    (hn : ∀ x group, n (silentRow x group) = group.countP c) (t : AllocType) :
    (((silentStores bench).filter fun row => row.allocType = t).map n).sum =
      ((lagged bench).filter fun x => x.1.1.allocType = t).countP c := by
  rw [countP_eq_sum, silentStores]
  refine sum_filter_aggregate (q := fun k : AllocType => k = t) ?_ ?_
  · exact fun _ _ => Iff.rfl
  · intro x _ _
    rw [hn, countP_eq_sum]

section Lookup

variable {γ : Type} {row : StoreRow → List StoreRow → γ} {key : γ → BitVec 64 × BitVec 32}
  (hkey : ∀ r group, key (row r group) = r.key)
include hkey

theorem nodup_lookup : ((aggregate StoreRow.key row bench).map key).Nodup := by
  rw [map_key_aggregate hkey]
  exact List.nodup_dedup _

/-- The buffers of the window are those of the table. -/
theorem exists_lookup :
    ∀ p ∈ perAddr bench, ∃ m ∈ aggregate StoreRow.key row bench, key m = p.buffer := by
  intro p hp
  obtain ⟨x, hx, rfl⟩ := mem_aggregate.1 hp
  have hlagged : x ∈ lagged bench := (List.mem_filter.1 (List.mem_of_head? hx)).1
  obtain ⟨r, -, hr, hrow⟩ : ∃ r ∈ bench, r.key = x.1.1.key ∧
      row r (bench.filter fun r' => r'.key = r.key) ∈ aggregate StoreRow.key row bench :=
    exists_mem_aggregate (mem_of_mem_lagged hlagged)
  exact ⟨_, hrow, (hkey _ _).trans hr⟩

end Lookup

variable {n : AddrRow → Nat} (hn : ∀ x group, n (addrRow x group) = group.countP c)
include hn

theorem sum_perAddr : ((perAddr bench).map n).sum = (lagged bench).countP c := by
  rw [countP_eq_sum, perAddr]
  refine (sum_map_aggregate fun x _ => ?_).trans (sum_groupBy _)
  rw [hn, countP_eq_sum]

/-- Counting the stores of the buffers whose type is `t` counts the stores whose type is `t`. -/
theorem sum_perAddr_type (hmeta : ConstantMeta bench) {anyType : List StoreRow → AllocType}
    (hany : AnyValue StoreRow.allocType anyType) (t : AllocType) :
    ((perAddr bench).map fun p =>
      if anyType (bench.filter fun r => r.key = p.buffer) = t then n p else 0).sum =
      ((lagged bench).filter fun x => x.1.1.allocType = t).countP c := by
  rw [List.countP_filter, countP_eq_sum, perAddr]
  refine (sum_map_aggregate fun x hx => ?_).trans (sum_groupBy _)
  have hbuffer : (addrRow x ((lagged bench).filter fun y => y.1.1.key = x.1.1.key)).buffer =
      x.1.1.key := rfl
  have hown : x.1.1 ∈ bench.filter fun r => r.key = x.1.1.key :=
    List.mem_filter.2 ⟨mem_of_mem_lagged hx, decide_eq_true rfl⟩
  obtain ⟨r, hr, htype⟩ := hany _ (List.ne_nil_of_mem hown)
  obtain ⟨hmem, hsame⟩ := List.mem_filter.1 hr
  have hgroup : ∀ y ∈ (lagged bench).filter fun y => y.1.1.key = x.1.1.key,
      y.1.1.allocType = r.allocType := by
    intro y hy
    obtain ⟨hlagged, hy⟩ := List.mem_filter.1 hy
    refine (hmeta _ (mem_of_mem_lagged hlagged) _ hmem ?_).1
    rw [of_decide_eq_true hy, of_decide_eq_true hsame]
  rw [hbuffer, htype, hn, countP_eq_sum]
  split
  · next ht =>
    refine congrArg List.sum (List.map_congr_left fun y hy => ?_)
    simp only [hgroup y hy, ht, decide_true, Bool.and_true]
  · next ht =>
    refine (List.sum_eq_zero fun k hk => ?_).symm
    obtain ⟨y, hy, rfl⟩ := List.mem_map.1 hk
    simp only [hgroup y hy, ht, decide_false, Bool.and_false, Bool.false_eq_true, if_false]

/-- A buffer without a second store at any location has no silent store either, so the filter of
`35_per_buffer_silent` leaves out nothing that counts. -/
theorem eq_zero_of_pairs (hc : ∀ x, c x → hasPrev x) {p : AddrRow} (hp : p ∈ perAddr bench)
    (hpairs : p.pairs = 0) : n p = 0 := by
  obtain ⟨x, -, rfl⟩ := mem_aggregate.1 hp
  have hnone := List.countP_eq_zero.1 (show List.countP hasPrev _ = 0 from hpairs)
  rw [hn, List.countP_eq_zero]
  intro y hy hcy
  exact hnone y hy (hc y hcy)

/-- **The buffers of a type** have the stores of the type. -/
theorem sum_perBufferSilent (hc : ∀ x, c x → hasPrev x) {n' : BufferSilentRow → Nat}
    (hn' : ∀ x, n' (bufferSilentRow x) = n x.1) (hmeta : ConstantMeta bench)
    {anyType : List StoreRow → AllocType} (hany : AnyValue StoreRow.allocType anyType)
    (anySize : List StoreRow → BitVec 64) (t : AllocType) :
    (((perBufferSilent anyType anySize bench).filter fun row => row.allocType = t).map n').sum =
      ((lagged bench).filter fun x => x.1.1.allocType = t).countP c := by
  rw [← sum_perAddr_type hn hmeta hany, perBufferSilent, sum_map_filter, List.map_map,
    sum_map_filter]
  refine sum_joinUsing ?_ ?_ ?_
  · exact nodup_lookup fun _ _ => rfl
  · exact exists_lookup fun _ _ => rfl
  · intro p hp m hm hkey
    obtain ⟨r, -, rfl⟩ := mem_aggregate.1 hm
    have htype : (bufferSilentRow (p, ⟨r.allocAddr, r.generation, anyType (bench.filter fun r' =>
        r'.key = r.key), anySize (bench.filter fun r' => r'.key = r.key)⟩)).allocType =
        anyType (bench.filter fun r' => r'.key = p.buffer) := by
      rw [← hkey]
      rfl
    by_cases hpairs : 0 < p.pairs
    · rw [if_pos hpairs, Function.comp_apply, htype, hn']
    · rw [if_neg hpairs, eq_zero_of_pairs hn hc hp (Nat.eq_zero_of_not_pos hpairs), ite_self]

/-- **The call stacks** have all stores. -/
theorem sum_perStackSilent {n' : StackSilentRow → Nat}
    (hn' : ∀ x group, n' (stackSilentRow x group) = (group.map fun y => n y.1).sum)
    (anyStack : List StoreRow → Line) :
    ((perStackSilent anyStack bench).map n').sum = (lagged bench).countP c := by
  rw [← sum_perAddr hn, perStackSilent]
  refine (sum_map_aggregate fun x _ => hn' _ _).trans ((sum_groupBy _).trans ?_)
  refine sum_joinUsing ?_ ?_ ?_
  · exact nodup_lookup fun _ _ => rfl
  · exact exists_lookup fun _ _ => rfl
  · exact fun _ _ _ _ _ => rfl

end Totals

theorem hasPrev_of_isSilent (x : Lagged) (h : isSilent x) : hasPrev x := by
  rw [hasPrev, of_decide_eq_true h]
  rfl

theorem sameTotals {bench : List StoreRow} (hmeta : ConstantMeta bench)
    {anyType : List StoreRow → AllocType} (hany : AnyValue StoreRow.allocType anyType)
    (anySize : List StoreRow → BitVec 64) (anyStack : List StoreRow → Line) :
    SameTotals anyType anySize anyStack bench where
  bufferPairs t := by
    rw [sum_silentStores_type (c := hasPrev) fun _ _ => rfl]
    exact sum_perBufferSilent (n := AddrRow.pairs) (fun _ _ => rfl) (fun _ h => h) (fun _ => rfl)
      hmeta hany anySize t
  bufferSilent t := by
    rw [sum_silentStores_type (c := isSilent) fun _ _ => rfl]
    exact sum_perBufferSilent (n := AddrRow.silent) (fun _ _ => rfl) hasPrev_of_isSilent
      (fun _ => rfl) hmeta hany anySize t
  stackPairs := by
    rw [sum_silentStores (c := hasPrev) fun _ _ => rfl]
    exact sum_perStackSilent (n := AddrRow.pairs) (fun _ _ => rfl) (fun _ _ => rfl) anyStack
  stackSilent := by
    rw [sum_silentStores (c := isSilent) fun _ _ => rfl]
    exact sum_perStackSilent (n := AddrRow.silent) (fun _ _ => rfl) (fun _ _ => rfl) anyStack

/-- **Silent stores are those that change nothing in the replay**, and the three queries agree on
how many there are, whichever row of a buffer `any_value` takes its type, size and call stack from.
-/
theorem silentStores_replay (bench : List StoreRow) :
    CountsReplay bench ∧ (ConstantMeta bench → ∀ anyType anySize anyStack,
      AnyValue StoreRow.allocType anyType → AnyValue StoreRow.allocSize anySize →
      AnyValue StoreRow.allocStack anyStack → SameTotals anyType anySize anyStack bench) :=
  ⟨countsReplay bench, fun hmeta _ anySize anyStack hany _ _ =>
    sameTotals hmeta hany anySize anyStack⟩

/-- Two buffers; in each of them a location is stored to twice, in one with the same value. -/
def twoBuffers : List StoreRow :=
  [⟨4096, 16, .bits64, 0, "f".toList, 0, 5⟩, ⟨8192, 8, .bits32, 0, "g".toList, 0, 5⟩,
    ⟨4096, 16, .bits64, 0, "f".toList, 0, 5⟩, ⟨8192, 8, .bits32, 0, "g".toList, 0, 6⟩,
    ⟨4096, 16, .bits64, 0, "f".toList, 8, 5⟩]

/-- `any_value` may take the first row. -/
theorem anyValue_head {β : Type} (f : StoreRow → β) (b : β) :
    AnyValue f fun group => (group.head?.map f).getD b := by
  intro group hne
  obtain ⟨r, rest, rfl⟩ := List.exists_cons_of_ne_nil hne
  exact ⟨r, List.mem_cons_self, rfl⟩

theorem silentStores_twoBuffers :
    (silentStores twoBuffers).map (fun row => (row.allocType, row.storesWithPrev, row.silent)) =
        [(.bits32, 1, 0), (.bits64, 1, 1)] ∧
      CountsReplay twoBuffers ∧ ConstantMeta twoBuffers ∧
      SameTotals (fun group => (group.head?.map StoreRow.allocType).getD .object)
        (fun group => (group.head?.map StoreRow.allocSize).getD 0)
        (fun group => (group.head?.map StoreRow.allocStack).getD []) twoBuffers := by
  have hmeta : ConstantMeta twoBuffers := by
    unfold ConstantMeta
    decide
  refine ⟨by decide, (silentStores_replay twoBuffers).1, hmeta, ?_⟩
  exact (silentStores_replay twoBuffers).2 hmeta _ _ _ (anyValue_head _ _) (anyValue_head _ _)
    (anyValue_head _ _)

end Memlog.Query.Silent
