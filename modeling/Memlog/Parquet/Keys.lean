import Memlog.Parquet.Archive

/-!
# Buffers of several processes

The queries take `(alloc_addr, generation)` for the key of a buffer. The converter takes both from
the base name of a member and drops its directory, and generations are counted per log, so two
members of an archive with several `.parsed` directories can share a key (`oneMemberPerKey_iff`):
their rows are then the rows of one buffer to every query (`two_processes_share_key`).
-/

namespace Memlog.ToParquet

open Lib

/-- The address and the generation in the name of a member that is read. -/
def Member.key? (m : Member) : Option (Nat × Nat) :=
  (m.match?).map fun name => (numeral 16 hexVal name.addrHex, numeral 10 decVal name.genStr)

/-- The rows of the table that come from a member. -/
def Member.rows (m : Member) : List StoreRow := m.rawRows.map RawRow.row

/-- Rows with the same key come from one member. -/
def OneMemberPerKey (archive : List Member) : Prop :=
  ∀ (i j : Nat) (m m' : Member), archive[i]? = some m → archive[j]? = some m' →
    ∀ r ∈ m.rows, ∀ r' ∈ m'.rows, r.key = r'.key → i = j

/-- No two members that are read and have a store line share the address and the generation of their
names. -/
def KeysApart (archive : List Member) : Prop :=
  ∀ (i j : Nat) (m m' : Member), archive[i]? = some m → archive[j]? = some m' → m.rawRows ≠ [] →
    m'.rawRows ≠ [] → m.key? = m'.key? → i = j

/-- Every row of a member carries what its name and its header say. -/
theorem mem_rawRows {m : Member} {r : RawRow} (hr : r ∈ m.rawRows) :
    m.match? = some r.name ∧ r.stackLines = (readStackHeader (splitFeeds m.text)).1 := by
  unfold Member.rawRows at hr
  cases hname : m.match? with
  | none =>
    rw [hname] at hr
    exact absurd hr List.not_mem_nil
  | some name =>
    rw [hname, Option.elim, bodyRows] at hr
    obtain ⟨raw, -, hraw⟩ := List.mem_filterMap.1 hr
    obtain ⟨groups, -, rfl⟩ := Option.map_eq_some_iff.1 hraw
    exact ⟨rfl, rfl⟩

theorem key?_of_mem {m : Member} {r : RawRow} (hr : r ∈ m.rawRows) :
    m.key? = some (r.info.addr, r.info.generation) := by
  rw [Member.key?, (mem_rawRows hr).1]
  rfl

/-- Rows whose integers fit have the same key if and only if their members' names do. -/
theorem key_row_eq_iff {r r' : RawRow} (h : r.InRange) (h' : r'.InRange) :
    r.row.key = r'.row.key ↔
      (r.info.addr, r.info.generation) = (r'.info.addr, r'.info.generation) := by
  have haddr : BitVec.ofNat 64 r.info.addr = BitVec.ofNat 64 r'.info.addr ↔
      r.info.addr = r'.info.addr := by
    rw [← BitVec.toNat_inj, BitVec.toNat_ofNat, BitVec.toNat_ofNat, Nat.mod_eq_of_lt h.addr,
      Nat.mod_eq_of_lt h'.addr]
  have hgen : BitVec.ofNat 32 r.info.generation = BitVec.ofNat 32 r'.info.generation ↔
      r.info.generation = r'.info.generation := by
    rw [← BitVec.toNat_inj, BitVec.toNat_ofNat, BitVec.toNat_ofNat, Nat.mod_eq_of_lt h.generation,
      Nat.mod_eq_of_lt h'.generation]
  rw [StoreRow.key, StoreRow.key, Prod.mk.injEq, Prod.mk.injEq]
  exact and_congr haddr hgen

section Keys

variable {archive : List Member} (hfits : Fits (archive.flatMap Member.rawRows))
include hfits

theorem inRange_of_mem {i : Nat} {m : Member} (hm : archive[i]? = some m) {r : RawRow}
    (hr : r ∈ m.rawRows) : r.InRange :=
  (hfits r (List.mem_flatMap.2 ⟨m, List.mem_of_getElem? hm, hr⟩)).1

theorem oneMemberPerKey_of_keysApart (h : KeysApart archive) : OneMemberPerKey archive := by
  intro i j m m' hi hj r hr r' hr' hkey
  obtain ⟨raw, hraw, rfl⟩ := List.mem_map.1 hr
  obtain ⟨raw', hraw', rfl⟩ := List.mem_map.1 hr'
  refine h i j m m' hi hj (List.ne_nil_of_mem hraw) (List.ne_nil_of_mem hraw') ?_
  rw [key?_of_mem hraw, key?_of_mem hraw']
  exact congrArg some
    ((key_row_eq_iff (inRange_of_mem hfits hi hraw) (inRange_of_mem hfits hj hraw')).1 hkey)

theorem keysApart_of_oneMemberPerKey (h : OneMemberPerKey archive) : KeysApart archive := by
  intro i j m m' hi hj hne hne' hkey
  obtain ⟨raw, hraw⟩ := List.exists_mem_of_ne_nil _ hne
  obtain ⟨raw', hraw'⟩ := List.exists_mem_of_ne_nil _ hne'
  rw [key?_of_mem hraw, key?_of_mem hraw', Option.some.injEq] at hkey
  exact h i j m m' hi hj _ (List.mem_map_of_mem hraw) _ (List.mem_map_of_mem hraw')
    ((key_row_eq_iff (inRange_of_mem hfits hi hraw) (inRange_of_mem hfits hj hraw')).2 hkey)

end Keys

/-- The rows of one member agree on what describes the allocation. -/
theorem same_alloc_of_mem {m : Member} {r r' : StoreRow} (hr : r ∈ m.rows) (hr' : r' ∈ m.rows) :
    r.allocSize = r'.allocSize ∧ r.allocType = r'.allocType ∧ r.allocStack = r'.allocStack := by
  obtain ⟨raw, hraw, rfl⟩ := List.mem_map.1 hr
  obtain ⟨raw', hraw', rfl⟩ := List.mem_map.1 hr'
  obtain ⟨hname, hstack⟩ := mem_rawRows hraw
  obtain ⟨hname', hstack'⟩ := mem_rawRows hraw'
  have hsame : raw.name = raw'.name := Option.some.inj (hname.symm.trans hname')
  have hinfo : raw.info = raw'.info := by
    rw [RawRow.info, RawRow.info, hsame, hstack, hstack']
  simp only [RawRow.row, hinfo, hsame, and_self]

/-- **One member per key.** In the table of every archive that `convert_archive` accepts, the rows
with the same `(alloc_addr, generation)` come from one member if and only if no two members that are
read and have a store line share the address and the generation of their names; and then the size,
the type and the stack are constant per key. -/
theorem oneMemberPerKey_iff (pa : Pyarrow) (batchRows : Nat) (archive : List Member) (p : Parquet)
    (h : convertArchive pa batchRows archive = .ok p) :
    p.rows = archive.flatMap Member.rows ∧ (OneMemberPerKey archive ↔ KeysApart archive) ∧
      (KeysApart archive → ∀ r ∈ p.rows, ∀ r' ∈ p.rows, r.key = r'.key →
        r.allocSize = r'.allocSize ∧ r.allocType = r'.allocType ∧
          r.allocStack = r'.allocStack) := by
  have houtcome := convertArchive_outcome pa batchRows archive
  rw [h] at houtcome
  obtain ⟨hrows, hfits⟩ := houtcome
  rw [List.map_flatMap] at hrows
  refine ⟨hrows, ⟨keysApart_of_oneMemberPerKey hfits, oneMemberPerKey_of_keysApart hfits⟩, ?_⟩
  intro hapart r hr r' hr' hkey
  rw [hrows] at hr hr'
  obtain ⟨m, hm, hr⟩ := List.mem_flatMap.1 hr
  obtain ⟨m', hm', hr'⟩ := List.mem_flatMap.1 hr'
  obtain ⟨i, hi⟩ := List.mem_iff_getElem?.1 hm
  obtain ⟨j, hj⟩ := List.mem_iff_getElem?.1 hm'
  obtain rfl := oneMemberPerKey_of_keysApart hfits hapart i j m m' hi hj r hr r' hr' hkey
  obtain rfl : m = m' := Option.some.inj (hi.symm.trans hj)
  exact same_alloc_of_mem hr hr'

/-- The one member that a process leaves in its directory. -/
def processFile (pid : List Char) (size : BitVec 64) : StoresFile where
  dir := "lbm/memlog.".toList ++ pid ++ ".log.parsed/".toList
  addr := 0x4A5C040#64
  size := size
  type := .bits64
  generation := 1#32
  header := [" malloc".toList]
  stores := [(0#64, 1#64)]
  dir_ends := .inr (by rw [List.getLast?_append]; rfl)
  header_oneLine := by decide

/-- A second member that the process leaves, of a buffer at another address. -/
def secondFile : StoresFile := { processFile ['7'] 16 with addr := 0x5000000#64 }

/-- The archive of a single process that leaves two members. -/
theorem oneMemberPerKey_iff_two :
    ∃ p, convertArchive .checking batchRows [(processFile ['7'] 8).member, secondFile.member] =
        .ok p ∧
      p.rows.length = 2 ∧ OneMemberPerKey [(processFile ['7'] 8).member, secondFile.member] := by
  obtain ⟨p, hrun, hrows⟩ := exists_ok_of_fits
    ((fits_member_iff [processFile ['7'] 8, secondFile]).2 (by decide)) .checking batchRows
  have hkey : (processFile ['7'] 8).member.key? ≠ secondFile.member.key? := by decide
  refine ⟨p, hrun, ?_, (oneMemberPerKey_iff .checking batchRows _ p hrun).2.1.2 ?_⟩
  · rw [hrows, map_row_flatMap_member]
    rfl
  · intro i j m m' hi hj _ _ hsame
    have hi' : i < 2 := (List.getElem?_eq_some_iff.1 hi).1
    have hj' : j < 2 := (List.getElem?_eq_some_iff.1 hj).1
    obtain ⟨rfl, rfl⟩ | ⟨rfl, rfl⟩ | rfl : (i = 0 ∧ j = 1) ∨ (i = 1 ∧ j = 0) ∨ i = j := by omega
    · cases hi
      cases hj
      exact absurd hsame hkey
    · cases hi
      cases hj
      exact absurd hsame.symm hkey
    · rfl

/-- Two processes allocate buffers of different sizes at the same address. -/
theorem two_processes_share_key :
    ∃ p, convertArchive .checking batchRows
        [(processFile ['7'] 8).member, (processFile ['8'] 16).member] = .ok p ∧
      ¬OneMemberPerKey [(processFile ['7'] 8).member, (processFile ['8'] 16).member] ∧
      ∃ r ∈ p.rows, ∃ r' ∈ p.rows, r.key = r'.key ∧ r.allocSize ≠ r'.allocSize := by
  obtain ⟨p, hrun, hrows⟩ := exists_ok_of_fits
    ((fits_member_iff [processFile ['7'] 8, processFile ['8'] 16]).2 (by decide)) .checking
      batchRows
  rw [map_row_flatMap_member] at hrows
  have hfirst : ∀ pid size, (processFile pid size).rows =
      [⟨0x4A5C040#64, size, .bits64, 1#32, "malloc".toList, 0#64, 1#64⟩] := by
    intro pid size
    rfl
  have hmem : ∀ pid size, ⟨0x4A5C040#64, size, .bits64, 1#32, "malloc".toList, 0#64, 1#64⟩ ∈
      (processFile pid size).member.rows := by
    intro pid size
    rw [Member.rows, rows_member, hfirst]
    exact List.mem_singleton.2 rfl
  refine ⟨p, hrun, ?_, ?_⟩
  · intro hone
    exact absurd (hone 0 1 _ _ rfl rfl _ (hmem ['7'] 8) _ (hmem ['8'] 16) rfl) (by decide)
  · rw [hrows, List.flatMap_cons, List.flatMap_singleton, hfirst, hfirst]
    exact ⟨_, List.mem_cons_self, _, List.mem_cons_of_mem _ List.mem_cons_self, rfl, by decide⟩

end Memlog.ToParquet
