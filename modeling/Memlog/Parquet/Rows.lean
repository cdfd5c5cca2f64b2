import Mathlib.Data.List.Nodup
import Memlog.Lib.Fallible
import Memlog.Parquet.Model

/-!
# What the table holds

The rows that the tables of a conversion hold, in file order, are the store lines of the members in
archive order (`convertArchive_outcome`): whatever the batch size, what has been written and what is
in the buffers are together the rows read so far, and an index that a table has written stays right
because the dictionary only grows at its end. A conversion fails exactly if an integer does not fit
its column, or if there are more stack texts than the index type of the dictionary can count.
-/

namespace Memlog.ToParquet

open Lib

/-! ## The rows of a member -/

/-- A store line of a member, with the name and the header of the member. -/
structure RawRow where
  name : NameMatch
  stackLines : List (List Char)
  offset : Nat
  value : Nat

namespace RawRow

def info (r : RawRow) : MemberInfo := memberInfo r.name r.stackLines

/-- The integers fit their columns. -/
structure InRange (r : RawRow) : Prop where
  addr : r.info.addr < 2 ^ 64
  size : r.info.size < 2 ^ 64
  generation : r.info.generation < 2 ^ 32
  offset : r.offset < 2 ^ 64
  value : r.value < 2 ^ 64

def row (r : RawRow) : StoreRow where
  allocAddr := BitVec.ofNat 64 r.info.addr
  allocSize := BitVec.ofNat 64 r.info.size
  allocType := r.name.type
  generation := BitVec.ofNat 32 r.info.generation
  allocStack := r.info.stackStr
  offset := BitVec.ofNat 64 r.offset
  value := BitVec.ofNat 64 r.value

end RawRow

/-- A line of the body as a row, if it is a store line. -/
def lineRow (name : NameMatch) (stackLines : List (List Char)) (raw : List Char) : Option RawRow :=
  (matchStore raw).map fun groups =>
    ⟨name, stackLines, numeral 10 decVal groups.1, numeral 16 hexVal groups.2⟩

/-- The name of a member that the converter reads. -/
def Member.match? (m : Member) : Option NameMatch :=
  if m.isFile && ".stores".toList.isSuffixOf (baseName m.name) then matchName (baseName m.name)
  else none

/-- The rows of a member that is read under a name. -/
def bodyRows (name : NameMatch) (text : List Char) : List RawRow :=
  let (stackLines, firstBody, body) := readStackHeader (splitFeeds text)
  (firstBody.toList ++ body).filterMap (lineRow name stackLines)

def Member.rawRows (m : Member) : List RawRow :=
  (m.match?).elim [] fun name => bodyRows name m.text

/-! ## The dictionary of stack texts -/

/-- The stack texts of the rows, in order of first appearance. -/
def stacksOf (rs : List RawRow) : List (List Char) := (rs.map fun r => r.info.stackStr).eraseDups

theorem mem_stacksOf {rs : List RawRow} {s : List Char} :
    s ∈ stacksOf rs ↔ ∃ r ∈ rs, r.info.stackStr = s := by
  rw [stacksOf, List.mem_eraseDups, List.mem_map]

theorem stacksOf_append_left (rs more : List RawRow) : stacksOf rs <+: stacksOf (rs ++ more) := by
  rw [stacksOf, stacksOf, List.map_append, List.eraseDups_append]
  exact List.prefix_append ..

/-- A row adds its stack text at the end if it is new. -/
theorem stacksOf_snoc (rs : List RawRow) (r : RawRow) :
    stacksOf (rs ++ [r]) = if r.info.stackStr ∈ stacksOf rs then stacksOf rs
      else stacksOf rs ++ [r.info.stackStr] := by
  have hmem : r.info.stackStr ∈ stacksOf rs ↔ r.info.stackStr ∈ rs.map fun r => r.info.stackStr :=
    List.mem_eraseDups
  have hsplit : stacksOf (rs ++ [r]) = stacksOf rs ++
      ([r.info.stackStr].removeAll (rs.map fun r => r.info.stackStr)).eraseDups := by
    rw [stacksOf, List.map_append, List.eraseDups_append]
    rfl
  rw [hsplit]
  by_cases h : r.info.stackStr ∈ stacksOf rs
  · rw [if_pos h, List.removeAll, List.filter_cons_of_neg (by simpa using hmem.1 h)]
    exact List.append_nil _
  · rw [if_neg h, List.removeAll, List.filter_cons_of_pos (by simpa using fun hm => h (hmem.2 hm))]
    rfl

theorem nodup_stacksOf (rs : List RawRow) : (stacksOf rs).Nodup := by
  induction rs using List.reverseRecOn with
  | nil => exact List.nodup_nil
  | append_singleton rs r ih =>
    rw [stacksOf_snoc]
    split
    · exact ih
    · rename_i hmem
      exact List.nodup_append.2 ⟨ih, List.nodup_singleton _, fun s hs s' hs' heq =>
        hmem (List.mem_singleton.1 hs' ▸ heq ▸ hs)⟩

/-- The index of a text in a dictionary does not change when the dictionary grows. -/
theorem idxOf_of_prefix {dict dict' : List (List Char)} {s : List Char} (h : dict <+: dict')
    (hs : s ∈ dict) : dict'.idxOf s = dict.idxOf s := by
  obtain ⟨more, rfl⟩ := h
  exact List.idxOf_append_of_mem hs

/-- Every row fits: its integers are in range, and the index of its stack text is one of 32 bits. -/
def Fits (rs : List RawRow) : Prop :=
  ∀ r ∈ rs, r.InRange ∧ (stacksOf rs).idxOf r.info.stackStr < 2 ^ 31

theorem idxOf_stacksOf_append {rs : List RawRow} (more : List RawRow) {r : RawRow} (hr : r ∈ rs) :
    (stacksOf (rs ++ more)).idxOf r.info.stackStr = (stacksOf rs).idxOf r.info.stackStr :=
  idxOf_of_prefix (stacksOf_append_left rs more) (mem_stacksOf.2 ⟨r, hr, rfl⟩)

theorem Fits.of_append {rs more : List RawRow} (h : Fits (rs ++ more)) : Fits rs := by
  intro r hr
  obtain ⟨hrange, hidx⟩ := h r (List.mem_append_left _ hr)
  rw [idxOf_stacksOf_append more hr] at hidx
  exact ⟨hrange, hidx⟩

/-- The rows fit if and only if their integers do and there are not too many stack texts. -/
theorem fits_iff {rs : List RawRow} :
    Fits rs ↔ (∀ r ∈ rs, r.InRange) ∧ (stacksOf rs).length ≤ 2 ^ 31 := by
  constructor
  · intro h
    refine ⟨fun r hr => (h r hr).1, ?_⟩
    by_contra hlong
    have hlast : 2 ^ 31 < (stacksOf rs).length := not_le.1 hlong
    obtain ⟨r, hr, hstack⟩ := mem_stacksOf.1 (List.getElem_mem hlast)
    have hidx := (h r hr).2
    rw [hstack, (nodup_stacksOf rs).idxOf_getElem] at hidx
    exact lt_irrefl _ hidx
  · rintro ⟨hrange, hlen⟩ r hr
    exact ⟨hrange r hr, (List.idxOf_lt_length_iff.2 (mem_stacksOf.2 ⟨r, hr, rfl⟩)).trans_le hlen⟩

/-! ## Flushing -/

/-- The buffers that hold these rows. -/
def columns (dict : List (List Char)) (rs : List RawRow) : Buffers where
  allocAddr := rs.map fun r => r.info.addr
  allocSize := rs.map fun r => r.info.size
  typeIdx := rs.map fun r => r.info.tIdx
  generation := rs.map fun r => r.info.generation
  stackIdx := rs.map fun r => dict.idxOf r.info.stackStr
  offset := rs.map RawRow.offset
  value := rs.map RawRow.value

section Table

variable {pa : Pyarrow} {dict : List (List Char)} {rs : List RawRow} {w : Nat} {f : RawRow → Nat}

theorem array_map {type : IntType} (h : ∀ r ∈ rs, f r < type.bound) :
    pa.array type (rs.map f) = .ok (rs.map fun r => BitVec.ofNat type.width (f r)) := by
  rw [pa.array_ok (List.forall_mem_map.2 h), List.map_map]
  rfl

theorem lt_of_array_map {type : IntType} {xs : List (BitVec type.width)}
    (h : pa.array type (rs.map f) = .ok xs) : ∀ r ∈ rs, f r < type.bound := by
  intro r hr
  by_contra hlt
  obtain ⟨e, herror⟩ := pa.array_raises (List.mem_map_of_mem hr) (not_lt.1 hlt)
  cases herror.symm.trans h

variable (pa) in
theorem fromArrays_map {α : Type} {vals : List α} (hw : ∀ r ∈ rs, f r < 2 ^ w)
    (h : ∀ r ∈ rs, f r < vals.length) :
    pa.fromArrays (rs.map fun r => BitVec.ofNat w (f r)) vals =
      .ok ⟨rs.map fun r => BitVec.ofNat w (f r), vals⟩ := by
  refine pa.fromArrays_ok (List.forall_mem_map.2 fun r hr => ?_)
  rw [BitVec.toNat_ofNat, Nat.mod_eq_of_lt (hw r hr)]
  exact h r hr

theorem get?_map {α : Type} {vals : List α} (hw : ∀ r ∈ rs, f r < 2 ^ w) (i : Nat) :
    (DictArray.mk (rs.map fun r => BitVec.ofNat w (f r)) vals).get? i =
      rs[i]?.bind fun r => vals[f r]? := by
  rw [DictArray.get?, List.getElem?_map]
  cases hr : rs[i]? with
  | none => rfl
  | some r =>
    have hmod : (BitVec.ofNat w (f r)).toNat = f r := by
      rw [BitVec.toNat_ofNat, Nat.mod_eq_of_lt (hw r (List.mem_of_getElem? hr))]
    simp only [Option.map_some, Option.bind_some, hmod]

theorem tIdx_spec (r : RawRow) : r.info.tIdx < typeDict.length ∧
    typeDict[r.info.tIdx]? = some r.name.type := by
  have hall : ∀ ty : AllocType, typeIdxOf ty < typeDict.length ∧
      typeDict[typeIdxOf ty]? = some ty := by
    intro ty
    cases ty <;> decide
  exact hall r.name.type

/-- Reading a list position by position. -/
theorem filterMap_range_getElem? {α β : Type} (g : α → β) (l : List α) :
    (List.range l.length).filterMap (fun i => l[i]?.map g) = l.map g := by
  induction l with
  | nil => rfl
  | cons a l ih =>
    rw [List.length_cons, List.range_succ_eq_map, List.filterMap_cons, List.filterMap_map,
      List.map_cons]
    exact congrArg _ ih

/-- The table of some rows. -/
def tableOf (dict : List (List Char)) (rs : List RawRow) : Table where
  allocAddr := rs.map fun r => BitVec.ofNat 64 r.info.addr
  allocSize := rs.map fun r => BitVec.ofNat 64 r.info.size
  allocType := ⟨rs.map fun r => BitVec.ofNat 8 r.info.tIdx, typeDict⟩
  generation := rs.map fun r => BitVec.ofNat 32 r.info.generation
  allocStack := ⟨rs.map fun r => BitVec.ofNat 32 (dict.idxOf r.info.stackStr), dict⟩
  offset := rs.map fun r => BitVec.ofNat 64 r.offset
  value := rs.map fun r => BitVec.ofNat 64 r.value

section Flush

variable (hdict : ∀ r ∈ rs, r.info.stackStr ∈ dict)
  (h : ∀ r ∈ rs, r.InRange ∧ dict.idxOf r.info.stackStr < 2 ^ 31)
include hdict h

theorem index_bounds : ∀ r ∈ rs, r.info.tIdx < 2 ^ 7 ∧ r.info.tIdx < 2 ^ 8 ∧
    dict.idxOf r.info.stackStr < 2 ^ 32 ∧ dict.idxOf r.info.stackStr < dict.length := by
  intro r hr
  have htype : r.info.tIdx < 3 := (tIdx_spec r).1
  have hstack := (h r hr).2
  exact ⟨by omega, by omega, by omega, List.idxOf_lt_length_iff.2 (hdict r hr)⟩

/-- A flush of rows that fit makes their table. -/
theorem table_columns : (columns dict rs).table pa dict = .ok (tableOf dict rs) := by
  have hbounds := index_bounds hdict h
  have haddr : pa.uint64Array (rs.map fun r => r.info.addr) = _ :=
    array_map fun r hr => (h r hr).1.addr
  have hsize : pa.uint64Array (rs.map fun r => r.info.size) = _ :=
    array_map fun r hr => (h r hr).1.size
  have htype : pa.int8Array (rs.map fun r => r.info.tIdx) = _ :=
    array_map fun r hr => (hbounds r hr).1
  have hgen : pa.uint32Array (rs.map fun r => r.info.generation) = _ :=
    array_map fun r hr => (h r hr).1.generation
  have hstack : pa.int32Array (rs.map fun r => dict.idxOf r.info.stackStr) = _ :=
    array_map fun r hr => (h r hr).2
  have hoffset : pa.uint64Array (rs.map RawRow.offset) = _ :=
    array_map fun r hr => (h r hr).1.offset
  have hvalue : pa.uint64Array (rs.map RawRow.value) = _ := array_map fun r hr => (h r hr).1.value
  have htypes := fromArrays_map pa (fun r hr => (hbounds r hr).2.1) fun r _ => (tIdx_spec r).1
  have hstacks := fromArrays_map pa (fun r hr => (hbounds r hr).2.2.1)
    fun r hr => (hbounds r hr).2.2.2
  simp only [Buffers.table, columns, haddr, hsize, htype, hgen, hstack, hoffset, hvalue, bind,
    Except.bind, IntType.width, htypes, hstacks]
  rfl

/-- The table decodes to the rows. -/
theorem rows_tableOf : (tableOf dict rs).rows = rs.map RawRow.row := by
  have hbounds := index_bounds hdict h
  have hrow : ∀ i, (tableOf dict rs).row? i = rs[i]?.map RawRow.row := by
    intro i
    simp only [Table.row?, tableOf, get?_map fun r hr => (hbounds r hr).2.1,
      get?_map fun r hr => (hbounds r hr).2.2.1, List.getElem?_map]
    cases hr : rs[i]? with
    | none => rfl
    | some r =>
      have hmem := hdict r (List.mem_of_getElem? hr)
      simp only [Option.map_some, Option.bind_some, (tIdx_spec r).2, List.getElem?_idxOf hmem]
      rfl
  have hlen : (tableOf dict rs).offset.length = rs.length := List.length_map _
  rw [Table.rows, hlen, List.filterMap_congr fun i _ => hrow i, filterMap_range_getElem?]

end Flush

/-- A flush that goes through has found rows that fit. -/
theorem fits_of_table_columns {t : Table} (h : (columns dict rs).table pa dict = .ok t) :
    ∀ r ∈ rs, r.InRange ∧ dict.idxOf r.info.stackStr < 2 ^ 31 := by
  unfold Buffers.table at h
  obtain ⟨_, haddr, h⟩ := bind_eq_ok h
  obtain ⟨_, hsize, h⟩ := bind_eq_ok h
  obtain ⟨_, -, h⟩ := bind_eq_ok h
  obtain ⟨_, -, h⟩ := bind_eq_ok h
  obtain ⟨_, hgen, h⟩ := bind_eq_ok h
  obtain ⟨_, hstack, h⟩ := bind_eq_ok h
  obtain ⟨_, -, h⟩ := bind_eq_ok h
  obtain ⟨_, hoffset, h⟩ := bind_eq_ok h
  obtain ⟨_, hvalue, -⟩ := bind_eq_ok h
  intro r hr
  exact ⟨⟨lt_of_array_map haddr r hr, lt_of_array_map hsize r hr,
    lt_of_array_map hgen r hr, lt_of_array_map hoffset r hr,
    lt_of_array_map hvalue r hr⟩, lt_of_array_map hstack r hr⟩

end Table

/-! ## The run -/

/-- The converter has written the rows `done` and holds the rows `pending` in its buffers. -/
structure Holds (c : Converter) (done pending : List RawRow) : Prop where
  buf : c.buf = columns c.stackDictStrs pending
  dict : c.stackDictStrs = stacksOf (done ++ pending)
  index : ∀ s, c.stackIdxOf s =
    if s ∈ c.stackDictStrs then some (c.stackDictStrs.idxOf s) else none
  written : (c.writer.getD []).flatMap Table.rows = done.map RawRow.row
  fits : Fits done

/-- The converter has read these rows. -/
def Reads (c : Converter) (rs : List RawRow) : Prop :=
  ∃ done pending, rs = done ++ pending ∧ Holds c done pending

section Run

variable {pa : Pyarrow} {c : Converter} {done pending rs : List RawRow}

theorem Holds.init : Holds .init [] [] where
  buf := rfl
  dict := rfl
  index := fun _ => rfl
  written := rfl
  fits := fun _ h => absurd h List.not_mem_nil

theorem Holds.mem_dict (h : Holds c done pending) {r : RawRow} (hr : r ∈ done ++ pending) :
    r.info.stackStr ∈ c.stackDictStrs := by
  rw [h.dict]
  exact mem_stacksOf.2 ⟨r, hr, rfl⟩

/-- **A flush** writes the pending rows, or finds one that does not fit. -/
theorem Holds.flush (h : Holds c done pending) :
    Outcome (c.flush pa) (fun c' => Holds c' (done ++ pending) []) (¬Fits (done ++ pending)) := by
  have hmem : ∀ r ∈ pending, r.info.stackStr ∈ c.stackDictStrs :=
    fun r hr => h.mem_dict (List.mem_append_right _ hr)
  have hoffset : c.buf.offset = pending.map RawRow.offset := by rw [h.buf]; rfl
  unfold Converter.flush
  split
  · rename_i hempty
    rw [hoffset, List.isEmpty_iff, List.map_eq_nil_iff] at hempty
    subst hempty
    rw [List.append_nil]
    exact h
  · cases htable : c.buf.table pa c.stackDictStrs with
    | error e =>
      intro hfits
      rw [h.buf, table_columns hmem] at htable
      · cases htable
      · intro r hr
        rw [h.dict]
        exact hfits r (List.mem_append_right _ hr)
    | ok t =>
      rw [h.buf] at htable
      have hpending := fits_of_table_columns htable
      rw [table_columns hmem hpending] at htable
      cases htable
      refine ⟨rfl, ?_, h.index, ?_, ?_⟩
      · rw [List.append_nil]
        exact h.dict
      · rw [Option.getD_some, List.flatMap_append, h.written, List.flatMap_singleton,
          rows_tableOf hmem hpending, List.map_append]
      · intro r hr
        rcases List.mem_append.1 hr with hr | hr
        · rw [idxOf_stacksOf_append pending hr]
          exact h.fits r hr
        · rw [← h.dict]
          exact hpending r hr

/-- The dictionary after the stack text of a row has been looked up. -/
theorem Holds.stackIndex (h : Holds c done pending) (r : RawRow) :
    ∃ c', c.stackIndex r.info.stackStr = (c'.stackDictStrs.idxOf r.info.stackStr, c') ∧
      c'.stackDictStrs = stacksOf (done ++ pending ++ [r]) ∧
      (∀ s, c'.stackIdxOf s =
        if s ∈ c'.stackDictStrs then some (c'.stackDictStrs.idxOf s) else none) ∧
      c'.buf = c.buf ∧ c'.writer = c.writer := by
  rw [stacksOf_snoc, ← h.dict]
  unfold Converter.stackIndex
  by_cases hmem : r.info.stackStr ∈ c.stackDictStrs
  · rw [h.index, if_pos hmem, if_pos hmem]
    exact ⟨c, rfl, rfl, h.index, rfl, rfl⟩
  · rw [h.index, if_neg hmem, if_neg hmem]
    have hidx : (c.stackDictStrs ++ [r.info.stackStr]).idxOf r.info.stackStr =
        c.stackDictStrs.length := by
      rw [List.idxOf_append_of_notMem hmem, List.idxOf_cons_self, Nat.add_zero]
    refine ⟨_, congrArg₂ Prod.mk hidx.symm rfl, rfl, fun s => ?_, rfl, rfl⟩
    dsimp only
    by_cases hs : s = r.info.stackStr
    · subst hs
      rw [Function.update_self, if_pos (List.mem_append_right _ List.mem_cons_self), hidx]
    · rw [Function.update_of_ne hs, h.index]
      by_cases hold : s ∈ c.stackDictStrs
      · rw [if_pos hold, if_pos (List.mem_append_left _ hold), List.idxOf_append_of_mem hold]
      · rw [if_neg hold, if_neg]
        rw [List.mem_append, List.mem_singleton]
        rintro (hold' | hs')
        · exact hold hold'
        · exact hs hs'

/-- One row more in the buffers. -/
theorem Holds.push (h : Holds c done pending) {r : RawRow} {c₁ : Converter}
    (hdict : c₁.stackDictStrs = stacksOf (done ++ pending ++ [r]))
    (hindex : ∀ s, c₁.stackIdxOf s =
      if s ∈ c₁.stackDictStrs then some (c₁.stackDictStrs.idxOf s) else none)
    (hbuf : c₁.buf = c.buf) (hwriter : c₁.writer = c.writer) :
    Holds (c₁.push r.info (c₁.stackDictStrs.idxOf r.info.stackStr) r.offset r.value) done
      (pending ++ [r]) where
  buf := by
    have hold : columns c₁.stackDictStrs pending = columns c.stackDictStrs pending := by
      unfold columns
      congr 1
      refine List.map_congr_left fun r' hr' => ?_
      rw [hdict, h.dict]
      exact idxOf_stacksOf_append [r] (List.mem_append_right _ hr')
    unfold Converter.push
    dsimp only
    rw [hbuf, h.buf, ← hold]
    simp only [columns, Buffers.push, List.map_append, List.map_singleton]
  dict := by rw [← List.append_assoc]; exact hdict
  index := hindex
  written := (congrArg (fun w => (w.getD []).flatMap Table.rows) hwriter).trans h.written
  fits := h.fits

variable (pa) in
theorem Holds.flushIfFull (h : Holds c done pending) (batchRows : Nat) :
    Outcome (c.flushIfFull pa batchRows) (fun c' => Reads c' (done ++ pending))
      (¬Fits (done ++ pending)) := by
  unfold Converter.flushIfFull
  split
  · exact h.flush.imp (fun c' h' => ⟨_, [], (List.append_nil _).symm, h'⟩) id
  · exact ⟨done, pending, rfl, h⟩

theorem Reads.dict (h : Reads c rs) : c.stackDictStrs = stacksOf rs := by
  obtain ⟨done, pending, rfl, hholds⟩ := h
  exact hholds.dict

/-- The converter has read these rows, and the index of the current member's stack text, once it is
known, is right. -/
structure ReadsMember (info : MemberInfo) (s : Reading) (rs : List RawRow) : Prop where
  reads : Reads s.conv rs
  sidx : ∀ sidx ∈ s.sidxForAlloc, info.stackStr ∈ s.conv.stackDictStrs ∧
    sidx = s.conv.stackDictStrs.idxOf info.stackStr

/-- The index of the stack text of a row of the member: known, or looked up. -/
theorem ReadsMember.stackIndex {s : Reading} {r : RawRow} (h : Holds s.conv done pending)
    (hsidx : ∀ sidx ∈ s.sidxForAlloc, r.info.stackStr ∈ s.conv.stackDictStrs ∧
      sidx = s.conv.stackDictStrs.idxOf r.info.stackStr) :
    ∃ c₁, s.stackIndex r.info.stackStr = (c₁.stackDictStrs.idxOf r.info.stackStr, c₁) ∧
      Holds (c₁.push r.info (c₁.stackDictStrs.idxOf r.info.stackStr) r.offset r.value) done
        (pending ++ [r]) := by
  unfold Reading.stackIndex
  cases hknown : s.sidxForAlloc with
  | none =>
    obtain ⟨c₁, hfound, hdict, hindex, hbuf, hwriter⟩ := h.stackIndex r
    exact ⟨c₁, hfound, h.push hdict hindex hbuf hwriter⟩
  | some sidx =>
    obtain ⟨hmem, rfl⟩ := hsidx sidx hknown
    refine ⟨s.conv, rfl, h.push ?_ h.index rfl rfl⟩
    rw [stacksOf_snoc, ← h.dict, if_pos hmem]

/-- **A line of the body** adds its row, if it is a store line. -/
theorem ReadsMember.consumeLine {name : NameMatch} {stackLines : List (List Char)} {s : Reading}
    (h : ReadsMember (memberInfo name stackLines) s rs) (batchRows : Nat) (raw : List Char) :
    Outcome (consumeLine pa batchRows (memberInfo name stackLines) s raw)
      (fun s' => ReadsMember (memberInfo name stackLines) s'
        (rs ++ (lineRow name stackLines raw).toList))
      (¬Fits (rs ++ (lineRow name stackLines raw).toList)) := by
  obtain ⟨⟨done, pending, rfl, hholds⟩, hsidx⟩ := h
  unfold ToParquet.consumeLine lineRow
  cases hmatch : matchStore raw with
  | none =>
    rw [Option.map_none, Option.toList_none, List.append_nil]
    exact ⟨⟨done, pending, rfl, hholds⟩, hsidx⟩
  | some groups =>
    obtain ⟨offsetStr, valueHex⟩ := groups
    let r : RawRow := ⟨name, stackLines, numeral 10 decVal offsetStr, numeral 16 hexVal valueHex⟩
    obtain ⟨c₁, hfound, hpush⟩ := ReadsMember.stackIndex (r := r) hholds hsidx
    have hflush := hpush.flushIfFull pa batchRows
    rw [← List.append_assoc] at hflush
    dsimp only
    rw [show s.stackIndex (memberInfo name stackLines).stackStr = _ from hfound]
    refine hflush.bind (fun c' hc' => ⟨hc', fun sidx hs => ?_⟩) id
    obtain rfl := Option.some.inj hs
    have hmem : r.info.stackStr ∈ stacksOf (done ++ pending ++ [r]) :=
      mem_stacksOf.2 ⟨r, List.mem_append_right _ List.mem_cons_self, rfl⟩
    have hsame : c₁.stackDictStrs = c'.stackDictStrs := by
      rw [hc'.dict, List.append_assoc]
      exact hpush.dict
    rw [← hc'.dict] at hmem
    exact ⟨hmem, hsame ▸ rfl⟩

theorem Fits.not_append {more : List RawRow} (h : ¬Fits rs) : ¬Fits (rs ++ more) :=
  fun hfits => h hfits.of_append

/-- **The lines of a body** add their rows. -/
theorem ReadsMember.foldlM {name : NameMatch} {stackLines : List (List Char)} {s : Reading}
    (h : ReadsMember (memberInfo name stackLines) s rs) (batchRows : Nat)
      (lines : List (List Char)) :
    Outcome (lines.foldlM (ToParquet.consumeLine pa batchRows (memberInfo name stackLines)) s)
      (fun s' => Reads s'.conv (rs ++ lines.filterMap (lineRow name stackLines)))
      (¬Fits (rs ++ lines.filterMap (lineRow name stackLines))) := by
  have hsnoc : ∀ (before : List (List Char)) (raw : List Char),
      rs ++ (before ++ [raw]).filterMap (lineRow name stackLines) =
        rs ++ before.filterMap (lineRow name stackLines) ++
          (lineRow name stackLines raw).toList := by
    intro before raw
    have hlast : [raw].filterMap (lineRow name stackLines) =
        (lineRow name stackLines raw).toList := by
      cases hrow : lineRow name stackLines raw with
      | none => exact List.filterMap_cons_none hrow
      | some r => exact List.filterMap_cons_some hrow
    rw [List.filterMap_append, ← List.append_assoc, hlast]
  let I : List (List Char) → Reading → Prop := fun before s' =>
    ReadsMember (memberInfo name stackLines) s' (rs ++ before.filterMap (lineRow name stackLines))
  have hstart : I [] s := by
    change ReadsMember _ s (rs ++ [])
    rw [List.append_nil]
    exact h
  refine (outcome_foldlM (I := I)
    (Q := fun before => ¬Fits (rs ++ before.filterMap (lineRow name stackLines)))
    (fun before raw s' hs' => ?_) (fun before more hno => ?_) [] lines hstart).imp
      (fun s' hs' => hs'.reads) id
  · change Outcome _ (fun s' => ReadsMember _ s' (rs ++ (before ++ [raw]).filterMap _)) _
    rw [hsnoc]
    exact hs'.consumeLine batchRows raw
  · rw [List.filterMap_append, ← List.append_assoc]
    exact Fits.not_append hno

theorem consumeBody_eq (batchRows : Nat) (info : MemberInfo) (s : Reading)
    (firstBody : Option (List Char)) (body : List (List Char)) :
    consumeBody pa batchRows info s firstBody body =
      (firstBody.toList ++ body).foldlM (consumeLine pa batchRows info) s := by
  cases firstBody with
  | none => rfl
  | some raw =>
    rw [Option.toList_some, List.singleton_append, List.foldlM_cons]
    rfl

/-- **A member** adds its rows. -/
theorem Reads.convertMember (h : Reads c rs) (batchRows : Nat) (m : Member) :
    Outcome (convertMember pa batchRows c m) (fun c' => Reads c' (rs ++ m.rawRows))
      (¬Fits (rs ++ m.rawRows)) := by
  have hnone : Reads c (rs ++ []) := (List.append_nil rs).symm ▸ h
  unfold ToParquet.convertMember Member.rawRows Member.match?
  cases m.isFile with
  | false => exact hnone
  | true =>
    cases ".stores".toList.isSuffixOf (baseName m.name) with
    | false => exact hnone
    | true =>
      cases matchName (baseName m.name) with
      | none =>
        -- only the count of skipped members changes
        obtain ⟨done, pending, hrs, hholds⟩ := hnone
        exact ⟨done, pending, hrs, hholds.buf, hholds.dict, hholds.index, hholds.written,
          hholds.fits⟩
      | some name =>
        dsimp only [Option.elim, bodyRows]
        obtain ⟨stackLines, firstBody, body⟩ := readStackHeader (splitFeeds m.text)
        dsimp only
        rw [consumeBody_eq]
        have hstart : ReadsMember (memberInfo name stackLines) ⟨c, none, 0⟩ rs :=
          ⟨h, fun sidx hsidx => nomatch hsidx⟩
        refine (hstart.foldlM batchRows (firstBody.toList ++ body)).bind (fun s hs => ?_) id
        split
        · exact hs
        · obtain ⟨done, pending, hrs, hholds⟩ := hs
          exact ⟨done, pending, hrs, hholds.buf, hholds.dict, hholds.index, hholds.written,
            hholds.fits⟩

/-- **The archive.** The file holds the store lines of the members, in archive order, or there is a
row that does not fit. -/
theorem convertArchive_outcome (pa : Pyarrow) (batchRows : Nat) (archive : List Member) :
    Outcome (convertArchive pa batchRows archive)
      (fun p => p.rows = (archive.flatMap Member.rawRows).map RawRow.row ∧
        Fits (archive.flatMap Member.rawRows))
      (¬Fits (archive.flatMap Member.rawRows)) := by
  have hinit : Reads .init [] := ⟨[], [], rfl, Holds.init⟩
  have hmembers := outcome_foldlM (f := ToParquet.convertMember pa batchRows)
    (I := fun before c => Reads c (before.flatMap Member.rawRows))
    (Q := fun before => ¬Fits (before.flatMap Member.rawRows))
    (fun before m c hc => by
      rw [List.flatMap_append, List.flatMap_singleton]
      exact hc.convertMember batchRows m)
    (fun before more hno => by
      rw [List.flatMap_append]
      exact Fits.not_append hno) [] archive hinit
  refine hmembers.bind (fun c hc => ?_) id
  obtain ⟨done, pending, hrs, hholds⟩ := hc
  rw [List.nil_append] at hrs
  rw [hrs]
  refine hholds.flush.bind (fun c' hc' => ⟨hc'.written, hc'.fits⟩) id

/-- A conversion of rows that fit goes through. -/
theorem exists_ok_of_fits {archive : List Member} (h : Fits (archive.flatMap Member.rawRows))
    (pa : Pyarrow) (batchRows : Nat) : ∃ p, convertArchive pa batchRows archive = .ok p ∧
      p.rows = (archive.flatMap Member.rawRows).map RawRow.row := by
  have houtcome := convertArchive_outcome pa batchRows archive
  cases hrun : convertArchive pa batchRows archive with
  | error e =>
    rw [hrun] at houtcome
    exact absurd h houtcome
  | ok p =>
    rw [hrun] at houtcome
    exact ⟨p, rfl, houtcome.1⟩

end Run

end Memlog.ToParquet
