import Memlog.Pipeline.Table
import Memlog.Query.Silent

/-!
# Silent stores of a run

`09_silent_stores` and `35_per_buffer_silent` on the table of a run. What they count at the end of
the pipeline is what happened in the run: a store is silent if the last logged store to its address
in the same block wrote the same value (`silentStores_history`, `perBufferSilent_history`).
-/

namespace Memlog

open Lib ToParquet Query.Silent

/-! ## Records -/

namespace Record

/-- The stores of a record are put into a map of the addresses; each with what it finds there. -/
def replayed (r : Record) : List ((Addr × HWord) × Option HWord) :=
  replay Prod.fst Prod.snd (fun _ => none) r.stores

/-- The number of stores to an address that was stored to before. -/
def rewrites (r : Record) : Nat := r.replayed.countP fun x => x.2 ≠ none

/-- The number of stores of the value that was stored to the address last. -/
def silent (r : Record) : Nat := r.replayed.countP fun x => x.2 = some x.1.2

/-- The row of `per_addr` for a record. -/
def addrRow (r : Record) (n : Nat) : AddrRow :=
  ⟨r.start, BitVec.ofNat 32 n, r.stores.length, r.rewrites, r.silent⟩

/-- The row of `addr_meta` for a record. -/
def metaRow (r : Record) (n : Nat) : MetaRow := ⟨r.start, BitVec.ofNat 32 n, r.type, r.size⟩

/-- The row of `35_per_buffer_silent` for a record. -/
def bufferSilentRow (r : Record) (n : Nat) : BufferSilentRow where
  addr := "0x".toList ++ printHex r.start
  generation := BitVec.ofNat 32 n
  allocType := r.type
  allocSize := r.size
  stores := r.stores.length
  pairs := r.rewrites
  silent := r.silent
  silentFrac := ratio (some r.silent) r.rewrites

/-- The rows of a record find in their map what its stores find in theirs. -/
theorem countP_replayed_rows (r : Record) (n : Nat) (p : HWord × Option HWord → Bool) :
    (Query.Silent.replayed (r.rows n)).countP (fun x => p (x.1.value, x.2)) =
      r.replayed.countP fun x => p (x.1.2, x.2) := by
  have hinj : Function.Injective fun a : Addr => (r.start, BitVec.ofNat 32 n, a - r.start) := by
    intro a b hab
    have hsub := (Prod.mk.inj (Prod.mk.inj hab).2).2
    rw [← BitVec.sub_add_cancel a r.start, ← BitVec.sub_add_cancel b r.start]
    exact congrArg (· + r.start) hsub
  have hreplay := map_replay (fun st : Addr × HWord => StoreRow.mk r.start r.size r.type
    (BitVec.ofNat 32 n) (['\n'].intercalate (r.stackLines.map strip)) (st.1 - r.start) st.2)
    location StoreRow.value (fun _ => none) r.stores
  rw [Query.Silent.replayed, rows, hreplay, List.countP_map, replayed,
    ← replay_rename hinj Prod.fst Prod.snd fun _ => none]
  rfl

end Record

/-! ## Tables -/

section Table

variable {l : Ledger} {rows : List StoreRow}

/-- A buffer is replayed by itself. -/
theorem filter_replayed (rows : List StoreRow) (k : BitVec 64 × BitVec 32) :
    (Query.Silent.replayed rows).filter (fun x => x.1.key = k) =
      Query.Silent.replayed (rows.filter fun r => r.key = k) := by
  let q : BitVec 64 × BitVec 32 × BitVec 64 → BitVec 64 × BitVec 32 := fun loc => (loc.1, loc.2.1)
  change (replay location StoreRow.value (fun _ => none) rows).filter
      (fun x => q (location x.1) = k) =
    replay location StoreRow.value (fun _ => none) (rows.filter fun r => q (location r) = k)
  exact filter_replay_of_key q k _ rows

theorem key_of_mem_replayed {rows : List StoreRow} {x : StoreRow × Option (BitVec 64)}
    (hx : x ∈ Query.Silent.replayed rows) : x.1 ∈ rows := by
  have hfst := List.mem_map_of_mem (f := Prod.fst) hx
  rwa [Query.Silent.replayed, map_fst_replay] at hfst

/-- A count over the rows of a buffer in the window is one over its replay. -/
theorem countP_lagged_buffer (rows : List StoreRow) (k : BitVec 64 × BitVec 32)
    (p : StoreRow × Option (BitVec 64) → Bool) :
    ((lagged rows).filter fun x => x.1.1.key = k).countP (fun x => p (x.1.1, x.2)) =
      (Query.Silent.replayed (rows.filter fun r => r.key = k)).countP p := by
  rw [← filter_replayed, List.countP_filter, List.countP_filter,
    ← (lagged_perm_replayed rows).countP_eq, List.countP_map]
  rfl

variable (h : Tabulates l rows) (hlen : l.records.length < 2 ^ 32)
include h hlen

theorem Tabulates.replayed_perm : (Query.Silent.replayed rows).Perm
    ((List.range l.records.length).flatMap fun i => Query.Silent.replayed (l.rowsOf i)) := by
  have hkey : ∀ i, ∀ x ∈ Query.Silent.replayed (l.rowsOf i), x.1.key = l.keyOf i := fun i x hx =>
    Ledger.key_of_mem_rowsOf (key_of_mem_replayed hx)
  refine perm_of_filter_eq (p := fun x => x.1.key) fun k => ?_
  by_cases hk : ∃ i < l.records.length, l.keyOf i = k
  · obtain ⟨i, hi, rfl⟩ := hk
    rw [filter_replayed, h.buffer i hi,
      filter_flatMap_of_unique List.nodup_range (List.mem_range.2 hi)]
    · exact (List.filter_eq_self.2 fun x hx => decide_eq_true (hkey i x hx)).symm
    · intro j hj hne
      refine List.filter_eq_nil_iff.2 fun x hx heq => hne ?_
      exact Ledger.keyOf_inj hlen (List.mem_range.1 hj) hi
        ((hkey j x hx).symm.trans (of_decide_eq_true heq))
  · rw [List.filter_eq_nil_iff.2, List.filter_eq_nil_iff.2]
    · intro x hx heq
      obtain ⟨i, hi, hx⟩ := List.mem_flatMap.1 hx
      exact hk ⟨i, List.mem_range.1 hi, (hkey i x hx).symm.trans (of_decide_eq_true heq)⟩
    · intro x hx heq
      obtain ⟨i, hi, hri⟩ := h.mem _ (key_of_mem_replayed hx)
      exact hk ⟨i, hi, (Ledger.key_of_mem_rowsOf hri).symm.trans (of_decide_eq_true heq)⟩

/-- **A count over the types** is one over the records of the type. -/
theorem Tabulates.countP_replayed (ty : AllocType) (p : HWord × Option HWord → Prop)
    [DecidablePred p] :
    (Query.Silent.replayed rows).countP (fun x => x.1.allocType = ty ∧ p (x.1.value, x.2)) =
      ((l.records.filter fun r => r.type = ty).map fun r =>
        r.replayed.countP fun x => p (x.1.2, x.2)).sum := by
  have hrow : ∀ i, (Query.Silent.replayed (l.rowsOf i)).countP
      (fun x => x.1.allocType = ty ∧ p (x.1.value, x.2)) =
        if (l.record i).type = ty then (l.record i).replayed.countP fun x => p (x.1.2, x.2)
        else 0 := by
    intro i
    have htype : ∀ x ∈ Query.Silent.replayed (l.rowsOf i), x.1.allocType = (l.record i).type := by
      intro x hx
      obtain ⟨st, -, hst⟩ := List.mem_map.1 (key_of_mem_replayed hx)
      rw [← hst]
    rw [← Record.countP_replayed_rows _ (l.usageNum i) fun x => p x]
    split
    · next hty =>
      refine List.countP_congr fun x hx => ?_
      rw [htype x hx, hty, decide_eq_true_eq, decide_eq_true_eq, eq_self, true_and]
    · next hty =>
      refine List.countP_eq_zero.2 fun x hx hp => hty ?_
      rw [← htype x hx]
      exact (of_decide_eq_true hp).1
  conv_rhs => rw [← l.map_record]
  rw [(h.replayed_perm hlen).countP_eq, List.countP_flatMap, sum_map_filter, List.map_map]
  exact congrArg List.sum (List.map_congr_left fun i _ => hrow i)

end Table

section PerBuffer

variable {l : Ledger} {rows : List StoreRow} (h : Tabulates l rows)
include h

/-- The rows with the buffer of a row of a record. -/
theorem Tabulates.filter_buffer {i : Ref} (hi : i < l.records.length) {r : StoreRow}
    (hr : r ∈ l.rowsOf i) :
    (rows.filter fun r' => r'.key = r.key) = l.rowsOf i := by
  have hkey : r.key = l.keyOf i := Ledger.key_of_mem_rowsOf hr
  rw [hkey]
  exact h.buffer i hi

/-- **The CTE `per_addr`** has the counts of the records. -/
theorem Tabulates.mem_perAddr {a : AddrRow} : a ∈ perAddr rows ↔
    ∃ i < l.records.length, (l.record i).stores ≠ [] ∧ a = (l.record i).addrRow (l.usageNum i) := by
  have hrow : ∀ x : Lagged, ∀ i < l.records.length, x.1.1 ∈ l.rowsOf i →
      Query.Silent.addrRow x ((lagged rows).filter fun y => y.1.1.key = x.1.1.key) =
        (l.record i).addrRow (l.usageNum i) := by
    intro x i hi hxi
    have hcount : ∀ p : HWord × Option HWord → Bool,
        ((lagged rows).filter fun y => y.1.1.key = x.1.1.key).countP
          (fun y => p (y.1.1.value, y.2)) =
        (l.record i).replayed.countP fun y => p (y.1.2, y.2) := by
      intro p
      rw [← Record.countP_replayed_rows _ (l.usageNum i)]
      refine (countP_lagged_buffer rows _ fun y => p (y.1.value, y.2)).trans ?_
      rw [← Ledger.rowsOf, ← h.filter_buffer hi hxi]
    have hstores : ((lagged rows).filter fun y => y.1.1.key = x.1.1.key).length =
        (l.record i).stores.length := by
      have hall := hcount fun _ => true
      rw [List.countP_true, List.countP_true] at hall
      rw [hall, Record.replayed, ← List.length_map Prod.fst, map_fst_replay]
    have hpairs : ((lagged rows).filter fun y => y.1.1.key = x.1.1.key).countP hasPrev =
        (l.record i).rewrites := by
      refine (hcount fun y => y.2.isSome).trans (List.countP_congr fun y _ => ?_)
      rw [decide_eq_true_eq, Option.isSome_iff_ne_none]
    have hsilent : ((lagged rows).filter fun y => y.1.1.key = x.1.1.key).countP isSilent =
        (l.record i).silent :=
      hcount fun y => y.2 = some y.1
    obtain ⟨haddr, hgen⟩ := Prod.mk.inj (Ledger.key_of_mem_rowsOf hxi)
    rw [Query.Silent.addrRow, hstores, hpairs, hsilent, haddr, hgen, Record.addrRow]
  constructor
  · intro ha
    obtain ⟨x, hx, rfl⟩ := mem_aggregate.1 ha
    have hlagged : x ∈ lagged rows := (List.mem_filter.1 (List.mem_of_head? hx)).1
    obtain ⟨i, hi, hxi⟩ := h.mem _ (mem_of_mem_lagged hlagged)
    obtain ⟨st, hst, -⟩ := List.mem_map.1 hxi
    exact ⟨i, hi, List.ne_nil_of_mem hst, hrow x i hi hxi⟩
  · rintro ⟨i, hi, hstores, rfl⟩
    obtain ⟨r, hr, hri⟩ := h.exists_mem hi hstores
    obtain ⟨x, hx, rfl⟩ := exists_lagged hr
    obtain ⟨y, hy, hkey, hmem⟩ : ∃ y ∈ lagged rows,
        y.1.1.key = x.1.1.key ∧
        Query.Silent.addrRow y _ ∈ perAddr rows := exists_mem_aggregate hx
    have hyi : y.1.1 ∈ l.rowsOf i := by
      rw [← h.filter_buffer hi hri]
      exact List.mem_filter.2 ⟨mem_of_mem_lagged hy, decide_eq_true hkey⟩
    rw [hrow y i hi hyi] at hmem
    exact hmem

/-- **The CTE `addr_meta`** has the types and sizes of the records. -/
theorem Tabulates.mem_addrMeta {anyType : List StoreRow → AllocType}
    {anySize : List StoreRow → BitVec 64} (htype : AnyValue StoreRow.allocType anyType)
    (hsize : AnyValue StoreRow.allocSize anySize) {a : MetaRow} :
    a ∈ addrMeta anyType anySize rows ↔
      ∃ i < l.records.length, (l.record i).stores ≠ [] ∧
        a = (l.record i).metaRow (l.usageNum i) := by
  have hrow : ∀ r : StoreRow, ∀ i < l.records.length, r ∈ l.rowsOf i →
      MetaRow.mk r.allocAddr r.generation
        (anyType (rows.filter fun r' => r'.key = r.key))
        (anySize (rows.filter fun r' => r'.key = r.key)) =
        (l.record i).metaRow (l.usageNum i) := by
    intro r i hi hri
    rw [h.filter_buffer hi hri]
    obtain ⟨r₁, hr₁, heq₁⟩ := htype _ (List.ne_nil_of_mem hri)
    obtain ⟨r₂, hr₂, heq₂⟩ := hsize _ (List.ne_nil_of_mem hri)
    rw [heq₁, heq₂]
    obtain ⟨st, -, rfl⟩ := List.mem_map.1 hri
    obtain ⟨st₁, -, rfl⟩ := List.mem_map.1 hr₁
    obtain ⟨st₂, -, rfl⟩ := List.mem_map.1 hr₂
    rfl
  constructor
  · intro ha
    obtain ⟨r, hr, rfl⟩ := mem_aggregate.1 ha
    obtain ⟨i, hi, hri⟩ := h.mem _ (List.mem_filter.1 (List.mem_of_head? hr)).1
    obtain ⟨st, hst, -⟩ := List.mem_map.1 hri
    exact ⟨i, hi, List.ne_nil_of_mem hst, hrow r i hi hri⟩
  · rintro ⟨i, hi, hstores, rfl⟩
    obtain ⟨r, hr, hri⟩ := h.exists_mem hi hstores
    obtain ⟨r', hr', hkey, hmem⟩ : ∃ r' ∈ rows, r'.key = r.key ∧
        MetaRow.mk r'.allocAddr r'.generation _ _ ∈ addrMeta anyType anySize rows :=
      exists_mem_aggregate hr
    have hri' : r' ∈ l.rowsOf i := by
      rw [← h.filter_buffer hi hri]
      exact List.mem_filter.2 ⟨hr', decide_eq_true hkey⟩
    rw [hrow r' i hi hri'] at hmem
    exact hmem

theorem Tabulates.mem_perBufferSilent (hlen : l.records.length < 2 ^ 32)
    {anyType : List StoreRow → AllocType} {anySize : List StoreRow → BitVec 64}
    (htype : AnyValue StoreRow.allocType anyType) (hsize : AnyValue StoreRow.allocSize anySize)
    {row : BufferSilentRow} :
    row ∈ perBufferSilent anyType anySize rows ↔ ∃ i < l.records.length, 0 < (l.record i).rewrites ∧
      row = (l.record i).bufferSilentRow (l.usageNum i) := by
  rw [perBufferSilent, List.mem_map]
  constructor
  · rintro ⟨⟨a, b⟩, hab, rfl⟩
    obtain ⟨hjoin, hpairs⟩ := List.mem_filter.1 hab
    obtain ⟨ha, hb, hkey⟩ := mem_joinUsing.1 hjoin
    obtain ⟨i, hi, -, rfl⟩ := h.mem_perAddr.1 ha
    obtain ⟨j, hj, -, rfl⟩ := (h.mem_addrMeta htype hsize).1 hb
    obtain rfl := Ledger.keyOf_inj hlen hj hi hkey
    exact ⟨j, hj, of_decide_eq_true hpairs, rfl⟩
  · rintro ⟨i, hi, hrewrites, rfl⟩
    have hstores : (l.record i).stores ≠ [] := by
      intro hnil
      rw [Record.rewrites, Record.replayed, hnil] at hrewrites
      exact absurd hrewrites (lt_irrefl 0)
    refine ⟨((l.record i).addrRow (l.usageNum i), (l.record i).metaRow (l.usageNum i)),
      List.mem_filter.2 ⟨mem_joinUsing.2 ⟨?_, ?_, ?_⟩, decide_eq_true hrewrites⟩, rfl⟩
    · exact h.mem_perAddr.2 ⟨i, hi, hstores, rfl⟩
    · exact (h.mem_addrMeta htype hsize).2 ⟨i, hi, hstores, rfl⟩
    · rfl

end PerBuffer

/-! ## Main results -/

section Run

variable {su : Setup} {m : Mem} {acts : List Action} {t t' : Tool} {maxOpenFiles : Nat}
  (hrun : Run su (.init m) acts t) (hfini : mlFini t = some ((), t')) (hnew : NoRetrack .init acts)
  (hplain : ∀ act ∈ acts, ∀ line ∈ act.trace, PlainLine line) (hopen : 1 ≤ maxOpenFiles)
  (hcount : (history acts).records.length ≤ 2 ^ 31)
include hrun hfini hnew hplain hopen hcount

/-- **Silent stores of a run.** At the end of the pipeline `09_silent_stores` has a row for each
type of a block with a store; it counts the stores to an address of such a block that had been
stored to before, and those that wrote the value that the last of them wrote. -/
theorem silentStores_history :
    ∃ files, parseLog maxOpenFiles (joinLines t'.out) (fun _ => none) = .ok files ∧
      ∀ (pa : Pyarrow) batchRows dir archive, Packs dir files archive →
        ∃ p, convertArchive pa batchRows archive = .ok p ∧
          (∀ ty, ty ∈ (silentStores p.rows).map SilentRow.allocType ↔
            ∃ r ∈ (history acts).records, r.stores ≠ [] ∧ r.type = ty) ∧
          ∀ row ∈ silentStores p.rows,
            row.storesWithPrev =
              (((history acts).records.filter fun r => r.type = row.allocType).map
                Record.rewrites).sum ∧
            row.silent = (((history acts).records.filter fun r => r.type = row.allocType).map
              Record.silent).sum := by
  obtain ⟨l, hm, hrecords, hlen, hparse, htable⟩ :=
    exists_tabulated hrun hfini hnew hplain hopen hcount
  refine ⟨l.finished, hparse, fun pa batchRows dir archive hpacks => ?_⟩
  obtain ⟨p, hconvert, htab⟩ := htable pa batchRows dir archive hpacks
  refine ⟨p, hconvert, fun ty => ?_, fun row hrow => ?_⟩
  · rw [mem_allocType_silentStores, ← hrecords]
    constructor
    · intro hty
      obtain ⟨row, hrow, rfl⟩ := List.mem_map.1 hty
      obtain ⟨i, hi, hri⟩ := htab.mem row hrow
      obtain ⟨st, hst, rfl⟩ := List.mem_map.1 hri
      exact ⟨l.record i, List.mem_of_getElem? (Ledger.getElem?_record hi), List.ne_nil_of_mem hst,
        rfl⟩
    · rintro ⟨r, hr, hstores, rfl⟩
      obtain ⟨i, hi⟩ := List.mem_iff_getElem?.1 hr
      obtain rfl := Ledger.record_of_getElem? hi
      obtain ⟨row, hrow, hri⟩ := htab.exists_mem (List.getElem?_eq_some_iff.1 hi).1 hstores
      obtain ⟨st, -, rfl⟩ := List.mem_map.1 hri
      exact List.mem_map_of_mem hrow
  · have hcounts := countsReplay p.rows
    rw [hcounts.storesWithPrev row hrow, hcounts.silent row hrow, ← hrecords]
    exact ⟨(htab.countP_replayed hlen row.allocType fun x => x.2 ≠ none),
      (htab.countP_replayed hlen row.allocType fun x => x.2 = some x.1)⟩

/-- **Silent stores of a block.** At the end of the pipeline `35_per_buffer_silent` has a row for
each block with an address that was stored to twice, and no others; it shows the block's own type
and size, whichever rows `any_value` takes them from, and counts the stores of the run to the block.
-/
theorem perBufferSilent_history :
    ∃ files, parseLog maxOpenFiles (joinLines t'.out) (fun _ => none) = .ok files ∧
      ∀ (pa : Pyarrow) batchRows dir archive, Packs dir files archive →
        ∃ p, convertArchive pa batchRows archive = .ok p ∧
          ∀ anyType anySize, AnyValue StoreRow.allocType anyType →
            AnyValue StoreRow.allocSize anySize →
            ∀ row, row ∈ perBufferSilent anyType anySize p.rows ↔
              ∃ (i : Ref) (rec : Record), (history acts).records[i]? = some rec ∧ 0 < rec.rewrites ∧
                row = rec.bufferSilentRow (number (history acts).records i rec) := by
  obtain ⟨l, hm, hrecords, hlen, hparse, htable⟩ :=
    exists_tabulated hrun hfini hnew hplain hopen hcount
  refine ⟨l.finished, hparse, fun pa batchRows dir archive hpacks => ?_⟩
  obtain ⟨p, hconvert, htab⟩ := htable pa batchRows dir archive hpacks
  refine ⟨p, hconvert, fun anyType anySize htype hsize row => ?_⟩
  rw [htab.mem_perBufferSilent hlen htype hsize]
  constructor
  · rintro ⟨i, hi, hrewrites, rfl⟩
    have hrec : (history acts).records[i]? = some (l.record i) :=
      hrecords ▸ Ledger.getElem?_record hi
    exact ⟨i, l.record i, hrec, hrewrites, by rw [(hm.record hrec).2]⟩
  · rintro ⟨i, rec, hrec, hrewrites, rfl⟩
    obtain ⟨rfl, hnumber⟩ := hm.record hrec
    refine ⟨i, ?_, hrewrites, by rw [hnumber]⟩
    rw [hrecords]
    exact (List.getElem?_eq_some_iff.1 hrec).1

end Run

theorem silentStores_history_storeAgain :
    ∃ t, Run plainSetup (.init fun _ => 0) storeAgainActions t ∧
      ∃ p, convertArchive .checking batchRows (oneFile parsedDir storeAgainRecord) = .ok p ∧
        ∀ row ∈ silentStores p.rows, row.allocType = .bits32 →
          row.storesWithPrev = 2 ∧ row.silent = 1 := by
  obtain ⟨t, hrun⟩ := exists_run_storeAgain
  obtain ⟨files, hparse, htable⟩ := silentStores_history hrun rfl noRetrack_storeAgain
    plain_storeAgain (le_refl 1) (by decide)
  obtain ⟨p, hconvert, -, hcounts⟩ := htable .checking batchRows _ _ (packs_storeAgain hrun hparse)
  refine ⟨t, hrun, p, hconvert, fun row hrow hty => ?_⟩
  obtain ⟨hprev, hsilent⟩ := hcounts row hrow
  rw [hprev, hsilent, hty]
  exact ⟨by decide, by decide⟩

theorem perBufferSilent_history_storeAgain :
    ∃ t, Run plainSetup (.init fun _ => 0) storeAgainActions t ∧
      ∃ p, convertArchive .checking batchRows (oneFile parsedDir storeAgainRecord) = .ok p ∧
        storeAgainRecord.bufferSilentRow 1 ∈
          perBufferSilent (fun group => (group.head?.map StoreRow.allocType).getD .object)
            (fun group => (group.head?.map StoreRow.allocSize).getD 0) p.rows := by
  obtain ⟨t, hrun⟩ := exists_run_storeAgain
  obtain ⟨files, hparse, htable⟩ := perBufferSilent_history hrun rfl noRetrack_storeAgain
    plain_storeAgain (le_refl 1) (by decide)
  obtain ⟨p, hconvert, hrows⟩ := htable .checking batchRows _ _ (packs_storeAgain hrun hparse)
  refine ⟨t, hrun, p, hconvert, (hrows _ _ (anyValue_head _ _) (anyValue_head _ _) _).2 ?_⟩
  exact ⟨0, storeAgainRecord, rfl, by decide, rfl⟩

end Memlog
