import Memlog.Lib.LastRow
import Memlog.Pipeline.Table
import Memlog.Query.Blocks

/-!
# The last-write snapshot of a run

The CTE `snapshot` of `14_mx_feasibility`, `19_mx_block_sweep`, `20_spatial_delta`,
`22_bdi_compression` and `28_mx_scale_sharing` takes the value with the largest row number at each
offset of a buffer. On the table of a run this is the value that was logged last
(`Tabulates.mem_snapshot`).
-/

namespace Memlog

open Lib ToParquet

namespace Query

/-- What the snapshot is grouped by. -/
def cell (r : StoreRow) : AllocType × BitVec 64 × BitVec 32 × BitVec 64 :=
  (r.allocType, r.allocAddr, r.generation, r.offset)

def Snap.cell (s : Snap) : AllocType × BitVec 64 × BitVec 32 × BitVec 64 :=
  (s.allocType, s.allocAddr, s.generation, s.offset)

/-- The rows of the snapshot are the last rows of the cells. -/
theorem mem_snapshot {bench : List StoreRow} {s : Snap} : s ∈ snapshot bench ↔
    (s.allocType = .bits32 ∨ s.allocType = .bits64) ∧
      lastOf cell StoreRow.value bench s.cell = some s.value := by
  let f : StoreRow → Snap := fun r => ⟨r.allocType, r.allocAddr, r.generation, r.offset, r.value⟩
  let p : StoreRow → Bool := fun r => r.allocType = .bits32 ∨ r.allocType = .bits64
  have hgroup : ∀ k, argMaxOf (fun r : StoreRow × Nat => f r.1) Prod.snd
      (((view bench).filter fun r => p r.1).filter fun r => cell r.1 = k) =
        lastOf cell f (bench.filter p) k := argMaxOf_zipIdx f cell bench p
  have hmem : s ∈ snapshot bench ↔ ∃ k, lastOf cell f (bench.filter p) k = some s := by
    rw [snapshot, List.mem_filterMap]
    constructor
    · rintro ⟨group, hgroup', hs⟩
      obtain ⟨k, rfl, -⟩ := mem_groupBy.1 hgroup'
      exact ⟨k, (hgroup k).symm.trans hs⟩
    · rintro ⟨k, hk⟩
      obtain ⟨r, hr, -⟩ := mem_of_lastOf hk
      refine ⟨_, mem_groupBy.2 ⟨k, rfl, fun hnil => ?_⟩, (hgroup k).trans hk⟩
      have hnone : argMaxOf (fun r : StoreRow × Nat => f r.1) Prod.snd
          (((view bench).filter fun r => p r.1).filter fun r => cell r.1 = k) = none :=
        congrArg (argMaxOf _ _) hnil
      rw [hgroup, hk] at hnone
      cases hnone
  -- the condition on the type says nothing about the rows of a cell
  have hfilter : ∀ k : AllocType × BitVec 64 × BitVec 32 × BitVec 64,
      (k.1 = .bits32 ∨ k.1 = .bits64) →
      ((bench.filter p).filter fun r => cell r = k) = bench.filter fun r => cell r = k := by
    intro k hk
    rw [List.filter_filter]
    refine List.filter_congr fun r _ => ?_
    by_cases hr : cell r = k
    · subst hr
      rw [decide_eq_true rfl, Bool.true_and]
      exact decide_eq_true hk
    · rw [decide_eq_false hr, Bool.false_and]
  rw [hmem]
  constructor
  · rintro ⟨k, hk⟩
    obtain ⟨r, hlast, rfl⟩ := lastOf_eq_some_iff.1 hk
    obtain ⟨hr, hcell⟩ := List.mem_filter.1 (List.mem_of_getLast? hlast)
    obtain rfl := of_decide_eq_true hcell
    have htype : r.allocType = .bits32 ∨ r.allocType = .bits64 :=
      of_decide_eq_true (List.mem_filter.1 hr).2
    rw [hfilter (cell r) htype] at hlast
    exact ⟨htype, lastOf_eq_some_iff.2 ⟨r, hlast, rfl⟩⟩
  · rintro ⟨htype, hs⟩
    obtain ⟨r, hlast, hvalue⟩ := lastOf_eq_some_iff.1 hs
    have hcell : cell r = s.cell :=
      of_decide_eq_true (List.mem_filter.1 (List.mem_of_getLast? hlast)).2
    rw [← hfilter s.cell htype] at hlast
    refine ⟨s.cell, lastOf_eq_some_iff.2 ⟨r, hlast, ?_⟩⟩
    obtain ⟨h₁, h₂⟩ := Prod.mk.inj hcell
    obtain ⟨h₂, h₃⟩ := Prod.mk.inj h₂
    obtain ⟨h₃, h₄⟩ := Prod.mk.inj h₃
    change Snap.mk r.allocType r.allocAddr r.generation r.offset r.value = s
    rw [h₁, h₂, h₃, h₄, hvalue]

end Query

/-! ## The snapshot of a run -/

section Run

variable {l : Ledger} {rows : List StoreRow}

/-- The row of the snapshot for an address of a record. -/
def Record.snap (r : Record) (n : Nat) (a : Addr) (v : HWord) : Query.Snap where
  allocType := r.type
  allocAddr := r.start
  generation := BitVec.ofNat 32 n
  offset := a - r.start
  value := v

theorem Record.lastOf_rows (r : Record) (n : Nat) (a : Addr) :
    lastOf StoreRow.offset StoreRow.value (r.rows n) (a - r.start) =
      lastOf Prod.fst Prod.snd r.stores a := by
  have hinj : Function.Injective fun a : Addr => a - r.start := by
    intro a b hab
    rw [← BitVec.sub_add_cancel a r.start, ← BitVec.sub_add_cancel b r.start]
    exact congrArg (· + r.start) hab
  rw [rows, lastOf_map]
  exact lastOf_rename hinj r.stores a

theorem Record.cell_of_mem_rows {r : Record} {n : Nat} {row : StoreRow} (h : row ∈ r.rows n) :
    ∃ st ∈ r.stores, Query.cell row = (r.type, r.start, BitVec.ofNat 32 n, st.1 - r.start) := by
  obtain ⟨st, hst, rfl⟩ := List.mem_map.1 h
  exact ⟨st, hst, rfl⟩

/-- The rows of a cell are those of its record with the offset. -/
theorem Tabulates.lastOf_cell (h : Tabulates l rows) {i : Ref} (hi : i < l.records.length)
    (a : Addr) : lastOf Query.cell StoreRow.value rows
        ((l.record i).type, (l.record i).start, BitVec.ofNat 32 (l.usageNum i),
          a - (l.record i).start) =
      lastOf Prod.fst Prod.snd (l.record i).stores a := by
  rw [← Record.lastOf_rows _ (l.usageNum i), ← Ledger.rowsOf, ← h.buffer i hi, lastOf, lastOf,
    List.filter_filter]
  congr 2
  refine List.filter_congr fun row hrow => ?_
  rw [← Bool.decide_and, decide_eq_decide]
  constructor
  · intro hcell
    obtain ⟨-, htail⟩ := Prod.mk.inj hcell
    obtain ⟨hstart, htail⟩ := Prod.mk.inj htail
    obtain ⟨hgen, hoffset⟩ := Prod.mk.inj htail
    exact ⟨hoffset, Prod.ext hstart hgen⟩
  · rintro ⟨hoffset, hkey⟩
    have hmem : row ∈ l.rowsOf i := by
      rw [← h.buffer i hi]
      exact List.mem_filter.2 ⟨hrow, decide_eq_true hkey⟩
    obtain ⟨st, -, hcell⟩ := Record.cell_of_mem_rows hmem
    rw [hcell]
    have hoffset' : row.offset = st.1 - (l.record i).start := congrArg (fun c => c.2.2.2) hcell
    rw [← hoffset', hoffset]

/-- **The snapshot of a run** has, for each address of a block that was stored to, the value that
was logged last, if the type of the block is one of the two that the queries look at. -/
theorem Tabulates.mem_snapshot (h : Tabulates l rows) {s : Query.Snap} :
    s ∈ Query.snapshot rows ↔
      ∃ i < l.records.length, ((l.record i).type = .bits32 ∨ (l.record i).type = .bits64) ∧
        ∃ a v, lastOf Prod.fst Prod.snd (l.record i).stores a = some v ∧
          s = (l.record i).snap (l.usageNum i) a v := by
  rw [Query.mem_snapshot]
  constructor
  · rintro ⟨htype, hs⟩
    obtain ⟨row, hrow, hcell, -⟩ := mem_of_lastOf hs
    obtain ⟨i, hi, hmem⟩ := h.mem row hrow
    obtain ⟨st, -, hcell'⟩ := Record.cell_of_mem_rows hmem
    have hscell := hcell.symm.trans hcell'
    rw [hscell, h.lastOf_cell hi] at hs
    obtain ⟨h₁, htail⟩ := Prod.mk.inj hscell
    obtain ⟨h₂, htail⟩ := Prod.mk.inj htail
    obtain ⟨h₃, h₄⟩ := Prod.mk.inj htail
    refine ⟨i, hi, h₁ ▸ htype, st.1, s.value, hs, ?_⟩
    rw [Record.snap, ← h₄, ← h₁, ← h₂, ← h₃]
  · rintro ⟨i, hi, htype, a, v, hlast, rfl⟩
    exact ⟨htype, (h.lastOf_cell hi a).trans hlast⟩

end Run

end Memlog
