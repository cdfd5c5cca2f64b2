import Memlog.Lib.Replay
import Memlog.Parquet.Keys
import Memlog.Parser.History

/-!
# From a run to its table

The log that the tool prints goes through `parse_log`, `compress.sh` packs the files into an
archive, and `convert_archive` reads them back.

* `Stored`: what the records of the parser's ledger hold after a log.
* `rawRows_record`: the converter reads the file of a record back as the rows of the record.
* `convertArchive_logged`: the table of any run has each logged store once, with the data of the
  ALLOC record that it was filed under.
* `convertArchive_history`: if no start address is tracked again while it is still tracked, that
  record is the one of the block in which the tool found the store.
-/

namespace Memlog

open Lib ToParquet

/-! ## The records of a log -/

namespace LogEntry

/-- The address and value of a STORE record. -/
def stored : LogEntry → Option (Addr × HWord)
  | store addr value => some (addr, value)
  | alloc _ _ _ | free _ _ _ => none

/-- The address, the size and the stack lines of an ALLOC record. -/
def allocated : LogEntry → Option (Addr × SizeT × List (List Char))
  | alloc addr size ec => some (addr, size, Parser.cleanTrace (alloc addr size ec).trace)
  | store _ _ | free _ _ _ => none

end LogEntry

def storesOf (log : List LogEntry) : List (Addr × HWord) := log.filterMap LogEntry.stored

def allocsOf (log : List LogEntry) : List (Addr × SizeT × List (List Char)) :=
  log.filterMap LogEntry.allocated

/-- The data of a record's ALLOC record. -/
def Record.head (r : Record) : Addr × SizeT × List (List Char) := (r.start, r.size, r.stackLines)

/-- What the records of a ledger hold after a log. -/
structure Stored (log : List LogEntry) (l : Ledger) : Prop where
  heads : l.records.map Record.head = allocsOf log
  stores : (l.records.flatMap Record.stores).Perm (storesOf log)
  ordered : ∀ r ∈ l.records, r.stores.Sublist (storesOf log)
  contains : ∀ r ∈ l.records, ∀ st ∈ r.stores, r.Contains st.1.toNat

namespace Stored

variable {log : List LogEntry} {l l' : Ledger}

theorem init (files : Files) : Stored [] (.init files) where
  heads := rfl
  stores := .refl _
  ordered _ hr := absurd hr List.not_mem_nil
  contains _ hr := absurd hr List.not_mem_nil

theorem addStore (h : Stored log l) {i : Ref} (hi : i < l.records.length) {a : Addr} {v : HWord}
    (hcontains : (l.record i).Contains a.toNat) :
    Stored (log ++ [.store a v]) (l.addStore i a v) := by
  have hlog : storesOf (log ++ [.store a v]) = storesOf log ++ [(a, v)] := List.filterMap_append
  have hallocs : allocsOf (log ++ [.store a v]) = allocsOf log := by
    rw [allocsOf, List.filterMap_append]
    exact List.append_nil _
  obtain ⟨before, r, after, hsplit, rfl, hmodify⟩ :=
    List.exists_of_modify (fun r => Record.addStore r a v) hi
  have hrecord : l.record before.length = r := by
    refine Ledger.record_of_getElem? ?_
    rw [hsplit, List.getElem?_append_right le_rfl, Nat.sub_self]
    rfl
  have hrecords : (l.addStore before.length a v).records = before ++ r.addStore a v :: after :=
    hmodify
  have hold : ∀ r' ∈ (l.addStore before.length a v).records,
      r' ∈ l.records ∨ r' = r.addStore a v := by
    intro r' hr'
    rw [hrecords, List.mem_append, List.mem_cons] at hr'
    rw [hsplit, List.mem_append, List.mem_cons]
    tauto
  have hr : r ∈ l.records := by
    rw [hsplit]
    exact List.mem_append_right _ List.mem_cons_self
  rw [hrecord] at hcontains
  refine ⟨?_, ?_, ?_, ?_⟩
  · rw [hallocs, ← h.heads, hrecords, hsplit, List.map_append, List.map_cons, List.map_append,
      List.map_cons]
    rfl
  · rw [hlog, hrecords]
    have hperm := h.stores
    rw [hsplit, List.flatMap_append, List.flatMap_cons] at hperm
    rw [List.flatMap_append, List.flatMap_cons]
    refine .trans ?_ (hperm.append_right [(a, v)])
    simp only [Record.addStore, List.append_assoc]
    have hlast : ∀ rest, ([(a, v)] ++ rest).Perm (rest ++ [(a, v)]) :=
      fun _ => List.perm_append_comm
    exact ((hlast _).append_left r.stores).append_left _
  · intro r' hr'
    rw [hlog]
    rcases hold r' hr' with hr' | rfl
    · exact (h.ordered r' hr').trans (List.sublist_append_left ..)
    · exact (h.ordered r hr).append (List.Sublist.refl _)
  · intro r' hr' st hst
    rcases hold r' hr' with hr' | rfl
    · exact h.contains r' hr' st hst
    · rcases List.mem_append.1 hst with hst | hst
      · exact h.contains r hr st hst
      · rw [List.mem_singleton.1 hst]
        exact hcontains

theorem addRecord (h : Stored log l) (a : Addr) (sz : SizeT) (ec : Option ExeContext) :
    Stored (log ++ [.alloc a sz ec])
      (l.addRecord a sz (Parser.cleanTrace (LogEntry.alloc a sz ec).trace)) := by
  have hlog : storesOf (log ++ [.alloc a sz ec]) = storesOf log := by
    rw [storesOf, List.filterMap_append]
    exact List.append_nil _
  have hallocs : allocsOf (log ++ [.alloc a sz ec]) = allocsOf log ++
      [(a, sz, Parser.cleanTrace (LogEntry.alloc a sz ec).trace)] := List.filterMap_append
  generalize Parser.cleanTrace (LogEntry.alloc a sz ec).trace = stackLines at hallocs ⊢
  have hrecords : (l.addRecord a sz stackLines).records =
      l.records ++ [⟨a, sz, stackLines, []⟩] := by
    rw [Ledger.addRecord_eq]
    rfl
  have hold : ∀ r ∈ (l.addRecord a sz stackLines).records, r ∈ l.records ∨ r.stores = [] := by
    intro r hr
    rw [hrecords, List.mem_append, List.mem_singleton] at hr
    rcases hr with hr | rfl
    · exact .inl hr
    · exact .inr rfl
  refine ⟨?_, ?_, ?_, ?_⟩
  · rw [hallocs, ← h.heads, hrecords, List.map_append]
    rfl
  · rw [hlog, hrecords, List.flatMap_append, List.flatMap_singleton, List.append_nil]
    exact h.stores
  · intro r hr
    rw [hlog]
    rcases hold r hr with hr | hnil
    · exact h.ordered r hr
    · rw [hnil]
      exact List.nil_sublist _
  · intro r hr st hst
    rcases hold r hr with hr | hnil
    · exact h.contains r hr st hst
    · rw [hnil] at hst
      cases hst

theorem step (h : Stored log l) (hok : l.Ok) {entry : LogEntry} (hstep : l.step entry = some l') :
    Stored (log ++ [entry]) l' := by
  cases entry with
  | store a v =>
    obtain ⟨i, hfind, rfl⟩ := Option.map_eq_some_iff.1 hstep
    obtain ⟨hlive, hcontains⟩ := Ledger.find_spec hfind
    exact h.addStore (hok.lt_length i hlive) hcontains
  | alloc a sz ec =>
    cases hstep
    exact h.addRecord a sz ec
  | free a sz ec =>
    have hrecords : l'.records = l.records := by
      rcases Ledger.step_free hstep with ⟨-, rfl⟩ | ⟨i, -, rfl⟩ <;> rfl
    have hlog : storesOf (log ++ [.free a sz ec]) = storesOf log := by
      rw [storesOf, List.filterMap_append]
      exact List.append_nil _
    have hallocs : allocsOf (log ++ [.free a sz ec]) = allocsOf log := by
      rw [allocsOf, List.filterMap_append]
      exact List.append_nil _
    exact ⟨by rw [hallocs, hrecords, h.heads], by rw [hlog, hrecords]; exact h.stores,
      by rw [hlog, hrecords]; exact h.ordered, by rw [hrecords]; exact h.contains⟩

/-- **After any log** that the parser accepts. -/
theorem run (h : Stored log l) (hok : l.Ok) (hstacked : l.Stacked) {entries : List LogEntry}
    (hrun : l.run entries = some l') : Stored (log ++ entries) l' := by
  induction entries generalizing log l with
  | nil =>
    cases hrun
    rw [List.append_nil]
    exact h
  | cons entry entries ih =>
    obtain ⟨l₁, hstep, hrest⟩ := Option.bind_eq_some_iff.1 hrun
    obtain ⟨hok₁, hstacked₁⟩ := hok.step hstacked hstep
    rw [List.append_cons]
    exact ih (h.step hok hstep) hok₁ hstacked₁ hrest

/-- A stack line of a record is one line. -/
theorem oneLine (h : Stored log l) (hplain : ∀ entry ∈ log, entry.Plain) :
    ∀ r ∈ l.records, ∀ line ∈ r.stackLines, '\n' ∉ line := by
  intro r hr line hline
  have hhead : r.head ∈ allocsOf log := h.heads ▸ List.mem_map_of_mem hr
  obtain ⟨entry, hentry, hsome⟩ := List.mem_filterMap.1 hhead
  cases entry with
  | alloc a sz ec =>
    obtain ⟨-, -, hlines⟩ : a = r.start ∧ sz = r.size ∧ _ = r.stackLines := by
      simpa [LogEntry.allocated, Record.head] using hsome
    rw [← hlines] at hline
    obtain ⟨raw, hraw, rfl⟩ := List.mem_map.1 (List.mem_filter.1 hline).1
    have hstrip : rstrip (raw ++ ['\n']) = rstrip raw := List.rdropWhile_concat_pos _ _ _ rfl
    rw [hstrip]
    intro hmem
    exact (hplain _ hentry raw hraw).oneLine.1 ((List.rdropWhile_prefix _ _).subset hmem)
  | store a v => cases hsome
  | free a sz ec => cases hsome

end Stored

/-! ## The file of a record -/

namespace Record

/-- The type in the name of the file. -/
def type (r : Record) : AllocType :=
  if r.stores.all fun st => 8 ∣ r.offset st.1 then .bits64
  else if r.stores.all fun st => 4 ∣ r.offset st.1 then .bits32
  else .object

/-- The rows of a table for the stores of a record; `n` is its number among the records of its start
address. -/
def rows (r : Record) (n : Nat) : List StoreRow :=
  r.stores.map fun st => {
    allocAddr := r.start
    allocSize := r.size
    allocType := r.type
    generation := BitVec.ofNat 32 n
    allocStack := ['\n'].intercalate (r.stackLines.map strip)
    offset := st.1 - r.start
    value := st.2 }

variable {r : Record}

theorem text_type (r : Record) : r.type.text = r.alignment := by
  unfold type alignment
  split
  · rfl
  · split <;> rfl

theorem offset_eq {a : Addr} (h : r.Contains a.toNat) :
    BitVec.ofNat 64 (r.offset a) = a - r.start := by
  have hle : r.start ≤ a := h.1
  refine BitVec.eq_of_toNat_eq ?_
  rw [BitVec.toNat_sub_of_le hle, BitVec.toNat_ofNat, offset]
  exact Nat.mod_eq_of_lt (by omega)

section File

variable (n : Nat) {dir : List Char} (hdir : dir = [] ∨ dir.getLast? = some '/')
  (hlines : ∀ line ∈ r.stackLines, '\n' ∉ line)

/-- The file of a record, as a member of an archive. -/
def storesFile : StoresFile where
  dir := dir
  addr := r.start
  size := r.size
  type := r.type
  generation := BitVec.ofNat 32 n
  header := r.stackLines.map (' ' :: ·)
  stores := r.stores.map fun st => (BitVec.ofNat 64 (r.offset st.1), st.2)
  dir_ends := hdir
  header_oneLine := by
    refine List.forall_mem_map.2 fun line hline => ?_
    rw [List.mem_cons, not_or]
    exact ⟨by decide, hlines line hline⟩

theorem member_storesFile (hn : n < 2 ^ 32) :
    (r.storesFile n hdir hlines).member = ⟨dir ++ r.fileName n, true, r.content⟩ := by
  have hnum : (BitVec.ofNat 32 n).toNat = n := by
    rw [BitVec.toNat_ofNat, Nat.mod_eq_of_lt hn]
  have hbase : (r.storesFile n hdir hlines).base = r.fileName n := by
    delta fileName
    simp only [List.append_assoc]
    change "0x".toList ++ (printHex r.start ++ ("_".toList ++ (printDec r.size ++ ("_".toList ++
      (r.type.text ++ ("_".toList ++ (Nat.toDigits 10 (BitVec.ofNat 32 n).toNat ++
        ".stores".toList))))))) = _
    rw [text_type, hnum]
  have hstore : ∀ st : Addr × HWord,
      StoresFile.storeLine (BitVec.ofNat 64 (r.offset st.1), st.2) ++ ['\n'] =
        LiveAlloc.storeLine (r.offset st.1) (printHex st.2) := by
    intro st
    have hoffset : (BitVec.ofNat 64 (r.offset st.1)).toNat = r.offset st.1 := by
      rw [BitVec.toNat_ofNat, offset]
      exact Nat.mod_eq_of_lt (by omega)
    rw [StoresFile.storeLine, hoffset, LiveAlloc.storeLine, toLower_printHex, List.append_assoc,
      List.append_assoc, List.append_assoc, List.append_assoc]
    rfl
  have htext : (r.storesFile n hdir hlines).member.text = r.content := by
    change ((r.stackLines.map (' ' :: ·)).map ('#' :: ·) ++ (r.stores.map fun st =>
      (BitVec.ofNat 64 (r.offset st.1), st.2)).map StoresFile.storeLine).flatMap (· ++ ['\n']) = _
    rw [List.flatMap_append, List.map_map, List.map_map, List.flatMap_map, List.flatMap_map]
    exact congrArg₂ (· ++ ·) rfl (List.flatMap_congr fun st _ => hstore st)
  rw [← hbase, ← htext]
  rfl

include hdir hlines in
/-- The converter reads the stores of the record back. -/
theorem rawRows_record (hn : n < 2 ^ 32) (hcontains : ∀ st ∈ r.stores, r.Contains st.1.toNat) :
    (Member.rows ⟨dir ++ r.fileName n, true, r.content⟩) = r.rows n ∧
      ∀ raw ∈ Member.rawRows ⟨dir ++ r.fileName n, true, r.content⟩, raw.InRange := by
  rw [← member_storesFile n hdir hlines hn]
  refine ⟨?_, inRange_member _⟩
  have hstrip : ∀ line, strip (' ' :: line) = strip line := by
    intro line
    rw [strip, List.dropWhile_cons_of_pos rfl, strip]
  rw [Member.rows, rows_member, StoresFile.rows, rows]
  simp only [storesFile, List.map_map]
  refine List.map_congr_left fun st hst => ?_
  have hheader : strip ∘ (fun line => ' ' :: line) = strip := funext hstrip
  rw [Function.comp_apply, hheader, offset_eq (hcontains st hst)]

end File

end Record

/-! ## The table of a ledger -/

namespace Ledger

/-- The key of the rows of a record. -/
def keyOf (l : Ledger) (i : Ref) : BitVec 64 × BitVec 32 :=
  ((l.record i).start, BitVec.ofNat 32 (l.usageNum i))

def rowsOf (l : Ledger) (i : Ref) : List StoreRow := (l.record i).rows (l.usageNum i)

variable {l : Ledger} {i j : Ref}

theorem key_of_mem_rowsOf {r : StoreRow} (hr : r ∈ l.rowsOf i) : r.key = l.keyOf i := by
  obtain ⟨st, -, rfl⟩ := List.mem_map.1 hr
  rfl

/-- The numbers of the records of an address are at most as many as there are records. -/
theorem usageNum_le (hi : i < l.records.length) : l.usageNum i ≤ l.records.length := by
  have hcount := List.countP_le_length (l := l.records.take i)
    (p := fun r => decide (r.start = (l.record i).start))
  rw [List.length_take, min_eq_left hi.le] at hcount
  exact Nat.succ_le_of_lt (hcount.trans_lt hi)

theorem keyOf_inj (hlen : l.records.length < 2 ^ 32) (hi : i < l.records.length)
    (hj : j < l.records.length) (h : l.keyOf i = l.keyOf j) : i = j := by
  obtain ⟨hstart, hnum⟩ := Prod.mk.inj h
  refine eq_of_usageNum hi hj hstart ?_
  have hnum' := congrArg BitVec.toNat hnum
  rwa [BitVec.toNat_ofNat, BitVec.toNat_ofNat,
    Nat.mod_eq_of_lt ((usageNum_le hi).trans_lt hlen),
    Nat.mod_eq_of_lt ((usageNum_le hj).trans_lt hlen)] at hnum'

end Ledger

/-- The rows of a table are those of the records, each record's together in their order. -/
structure Tabulates (l : Ledger) (rows : List StoreRow) : Prop where
  buffer : ∀ i < l.records.length, rows.filter (fun r => r.key = l.keyOf i) = l.rowsOf i
  mem : ∀ r ∈ rows, ∃ i < l.records.length, r ∈ l.rowsOf i

/-- An archive of a folder whose only `.stores` files are those of the directory `dir`, each once.
What the converter does not read, such as directories and the log, may be in it too. -/
structure Packs (dir : List Char) (files : Files) (archive : List Member) : Prop where
  dir_ends : dir = [] ∨ dir.getLast? = some '/'
  nodup : (archive.map Member.name).Nodup
  packed : ∀ path text, files path = some text → ⟨dir ++ path, true, text⟩ ∈ archive
  read : ∀ m ∈ archive, m.match?.isSome → ∃ path, m.name = dir ++ path ∧ files path = some m.text

section Packs

variable {l : Ledger} {dir : List Char} {archive : List Member} {log : List LogEntry}

/-- The files that the parser leaves. -/
def Ledger.finished (l : Ledger) : Files := (l.live.foldl Ledger.finalize l).files

theorem Member.isFile_of_match? {m : Member} (h : m.match?.isSome) : m.isFile = true := by
  unfold Member.match? at h
  split at h
  · next hread => exact (Bool.and_eq_true_iff.1 hread).1
  · cases h

/-- The file of a record, as a member. -/
def Ledger.memberOf (l : Ledger) (dir : List Char) (i : Ref) : Member :=
  ⟨dir ++ (l.record i).fileName (l.usageNum i), true, (l.record i).content⟩

section Stored

variable (hstored : Stored log l) (hplain : ∀ entry ∈ log, entry.Plain)
  (hlen : l.records.length < 2 ^ 32)
include hstored hplain hlen

theorem Stored.rows_memberOf (hdir : dir = [] ∨ dir.getLast? = some '/') {i : Ref}
    (hi : i < l.records.length) :
    (l.memberOf dir i).rows = l.rowsOf i ∧ ∀ raw ∈ (l.memberOf dir i).rawRows, raw.InRange := by
  have hrecord : l.record i ∈ l.records := List.mem_of_getElem? (Ledger.getElem?_record hi)
  exact Record.rawRows_record (l.usageNum i) hdir (hstored.oneLine hplain _ hrecord)
    ((Ledger.usageNum_le hi).trans_lt hlen) (hstored.contains _ hrecord)

end Stored

variable (h : Packs dir l.finished archive) (hok : l.Ok) (hfiled : l.Filed)
include h hok hfiled

/-- A member that the converter reads is the file of a record. -/
theorem Packs.eq_memberOf {m : Member} (hm : m ∈ archive) :
    m.rawRows = [] ∨ ∃ i < l.records.length, m = l.memberOf dir i := by
  cases hread : m.match? with
  | none => exact .inl (by rw [Member.rawRows, hread]; rfl)
  | some name =>
    have hsome : m.match?.isSome := hread ▸ rfl
    obtain ⟨path, hname, hfile⟩ := h.read m hm hsome
    obtain ⟨i, hi, -, rfl, htext⟩ := (hfiled.files_finish hok path m.text).1 hfile
    refine .inr ⟨i, hi, ?_⟩
    rw [Ledger.memberOf, ← htext, ← Record.target_eq_fileName, ← Member.isFile_of_match? hsome]
    exact congrArg (Member.mk · _ _) hname

theorem Packs.memberOf_mem {i : Ref} (hi : i < l.records.length)
    (hstores : (l.record i).stores ≠ []) :
    l.memberOf dir i ∈ archive := by
  have hpacked := h.packed _ _ ((hfiled.files_finish hok _ _).2 ⟨i, hi, hstores, rfl, rfl⟩)
  rwa [Ledger.object, Record.target_eq_fileName] at hpacked

variable (hstored : Stored log l) (hplain : ∀ entry ∈ log, entry.Plain)
  (hlen : l.records.length < 2 ^ 32)
include hstored hplain hlen

theorem Packs.inRange : ∀ raw ∈ archive.flatMap Member.rawRows, raw.InRange := by
  intro raw hraw
  obtain ⟨m, hm, hraw⟩ := List.mem_flatMap.1 hraw
  rcases h.eq_memberOf hok hfiled hm with hnil | ⟨i, hi, rfl⟩
  · rw [hnil] at hraw
    cases hraw
  · exact (hstored.rows_memberOf hplain hlen h.dir_ends hi).2 raw hraw

/-- **The rows of the archive** are the rows of the records. -/
theorem Packs.tabulates : Tabulates l (archive.flatMap Member.rows) := by
  have hrows : ∀ i < l.records.length, (l.memberOf dir i).rows = l.rowsOf i := fun i hi =>
    (hstored.rows_memberOf hplain hlen h.dir_ends hi).1
  have hmem : ∀ m ∈ archive, ∀ r ∈ m.rows, ∃ i < l.records.length,
      m = l.memberOf dir i ∧ r ∈ l.rowsOf i := by
    intro m hm r hr
    rcases h.eq_memberOf hok hfiled hm with hnil | ⟨i, hi, rfl⟩
    · rw [Member.rows, hnil] at hr
      cases hr
    · exact ⟨i, hi, rfl, hrows i hi ▸ hr⟩
  refine ⟨fun i hi => ?_, fun r hr => ?_⟩
  · -- a row with the key of a record is in the file of that record
    have hkey : ∀ m ∈ archive, ∀ r ∈ m.rows, r.key = l.keyOf i →
        m = l.memberOf dir i ∧ r ∈ l.rowsOf i := by
      intro m hm r hr hkey
      obtain ⟨j, hj, heq, hr⟩ := hmem m hm r hr
      obtain rfl := Ledger.keyOf_inj hlen hj hi ((Ledger.key_of_mem_rowsOf hr).symm.trans hkey)
      exact ⟨heq, hr⟩
    by_cases hstores : (l.record i).stores = []
    · have hnil : l.rowsOf i = [] := by rw [Ledger.rowsOf, Record.rows, hstores]; rfl
      rw [hnil, List.filter_eq_nil_iff]
      intro r hr heq
      obtain ⟨m, hm, hr⟩ := List.mem_flatMap.1 hr
      have hr' := (hkey m hm r hr (of_decide_eq_true heq)).2
      rw [hnil] at hr'
      cases hr'
    · rw [filter_flatMap_of_unique h.nodup.of_map (h.memberOf_mem hok hfiled hi hstores),
        hrows i hi]
      · refine List.filter_eq_self.2 fun r hr => ?_
        exact decide_eq_true (Ledger.key_of_mem_rowsOf hr)
      · intro m hm hne
        refine List.filter_eq_nil_iff.2 fun r hr heq => hne ?_
        exact (hkey m hm r hr (of_decide_eq_true heq)).1
  · obtain ⟨m, hm, hr⟩ := List.mem_flatMap.1 hr
    obtain ⟨i, hi, -, hr⟩ := hmem m hm r hr
    exact ⟨i, hi, hr⟩

end Packs

/-! ## The table of a log -/

/-- The address and the value that a row stands for. -/
def ToParquet.StoreRow.store (r : StoreRow) : Addr × HWord := (r.allocAddr + r.offset, r.value)

/-- How the offsets of some rows are aligned. -/
def alignmentOf (rows : List StoreRow) : AllocType :=
  if rows.all fun r => 8 ∣ r.offset.toNat then .bits64
  else if rows.all fun r => 4 ∣ r.offset.toNat then .bits32
  else .object

/-- A table has the stores of a log, each once and those of a buffer in their order; every row has
the address, the size and the stack of an ALLOC record, and its number among the ALLOC records of
its address; its offset is inside the buffer, and its type is how the stores of the buffer are
aligned. -/
structure FromLog (log : List LogEntry) (rows : List StoreRow) : Prop where
  stores : (rows.map StoreRow.store).Perm (storesOf log)
  ordered : ∀ k, ((rows.filter fun r => r.key = k).map StoreRow.store).Sublist (storesOf log)
  alloc : ∀ r ∈ rows, ∃ (i : Nat) (stackLines : List (List Char)),
    (allocsOf log)[i]? = some (r.allocAddr, r.allocSize, stackLines) ∧
      r.generation.toNat = ((allocsOf log).take i).countP (fun x => x.1 = r.allocAddr) + 1 ∧
      r.allocStack = ['\n'].intercalate (stackLines.map strip)
  inside : ∀ r ∈ rows, r.offset < r.allocSize
  type : ∀ r ∈ rows, r.allocType = alignmentOf (rows.filter fun r' => r'.key = r.key)

section FromLog

variable {l : Ledger} {log : List LogEntry} {rows : List StoreRow}

theorem Record.map_store_rows (r : Record) (n : Nat) :
    (r.rows n).map StoreRow.store = r.stores := by
  rw [rows, List.map_map]
  refine (List.map_congr_left fun st _ => ?_).trans (List.map_id _)
  rw [Function.comp_apply, StoreRow.store, BitVec.add_comm, BitVec.sub_add_cancel]
  rfl

theorem Record.toNat_offset {r : Record} {a : Addr} (h : r.Contains a.toNat) :
    (a - r.start).toNat = r.offset a :=
  BitVec.toNat_sub_of_le h.1

theorem Record.alignmentOf_rows {r : Record} (h : ∀ st ∈ r.stores, r.Contains st.1.toNat)
    (n : Nat) :
    alignmentOf (r.rows n) = r.type := by
  have hall : ∀ k, ((r.rows n).all fun row => k ∣ row.offset.toNat) =
      r.stores.all fun st => k ∣ r.offset st.1 := by
    intro k
    rw [rows, List.all_map]
    rw [Bool.eq_iff_iff, List.all_eq_true, List.all_eq_true]
    refine forall₂_congr fun st hst => ?_
    rw [Function.comp_apply, toNat_offset (h st hst)]
  rw [alignmentOf, hall, hall, type]

theorem Ledger.filter_rowsOf (l : Ledger) (i : Ref) :
    (l.rowsOf i).filter (fun r => r.key = l.keyOf i) = l.rowsOf i :=
  List.filter_eq_self.2 fun _ hr => decide_eq_true (Ledger.key_of_mem_rowsOf hr)

theorem Ledger.map_record (l : Ledger) :
    (List.range l.records.length).map l.record = l.records := by
  refine List.ext_getElem (by simp) fun i _ hi => ?_
  rw [List.getElem_map, List.getElem_range]
  exact Ledger.record_of_getElem? (List.getElem?_eq_getElem hi)

theorem Ledger.flatMap_stores (l : Ledger) :
    (List.range l.records.length).flatMap (fun i => (l.record i).stores) =
      l.records.flatMap Record.stores := by
  conv_rhs => rw [← l.map_record]
  rw [List.flatMap_map]

/-- The rows with the key of a row are those of its record. -/
theorem Tabulates.exists_rowsOf (h : Tabulates l rows) {r : StoreRow} (hr : r ∈ rows) :
    ∃ i < l.records.length, r ∈ l.rowsOf i ∧
      rows.filter (fun r' => r'.key = r.key) = l.rowsOf i := by
  obtain ⟨i, hi, hri⟩ := h.mem r hr
  refine ⟨i, hi, hri, ?_⟩
  rw [Ledger.key_of_mem_rowsOf hri]
  exact h.buffer i hi

theorem Tabulates.exists_mem (h : Tabulates l rows) {i : Ref} (hi : i < l.records.length)
    (hstores : (l.record i).stores ≠ []) : ∃ r ∈ rows, r ∈ l.rowsOf i := by
  obtain ⟨st, hst⟩ := List.exists_mem_of_ne_nil _ hstores
  have hrow : _ ∈ l.rowsOf i := List.mem_map_of_mem hst
  have hmem := hrow
  rw [← h.buffer i hi] at hmem
  exact ⟨_, (List.mem_filter.1 hmem).1, hrow⟩

variable (h : Tabulates l rows) (hlen : l.records.length < 2 ^ 32)
include h hlen

theorem Tabulates.perm : rows.Perm ((List.range l.records.length).flatMap l.rowsOf) := by
  refine perm_of_filter_eq (p := StoreRow.key) fun k => ?_
  by_cases hk : ∃ i < l.records.length, l.keyOf i = k
  · obtain ⟨i, hi, rfl⟩ := hk
    rw [h.buffer i hi, filter_flatMap_of_unique List.nodup_range (List.mem_range.2 hi)]
    · exact (l.filter_rowsOf i).symm
    · intro j hj hne
      refine List.filter_eq_nil_iff.2 fun r hr heq => hne ?_
      exact Ledger.keyOf_inj hlen (List.mem_range.1 hj) hi
        ((Ledger.key_of_mem_rowsOf hr).symm.trans (of_decide_eq_true heq))
  · have hnone : ∀ i < l.records.length, ∀ r ∈ l.rowsOf i, ¬decide (r.key = k) = true := by
      intro i hi r hr heq
      exact hk ⟨i, hi, (Ledger.key_of_mem_rowsOf hr).symm.trans (of_decide_eq_true heq)⟩
    rw [List.filter_eq_nil_iff.2, List.filter_eq_nil_iff.2]
    · intro r hr
      obtain ⟨i, hi, hr⟩ := List.mem_flatMap.1 hr
      exact hnone i (List.mem_range.1 hi) r hr
    · intro r hr
      obtain ⟨i, hi, hr⟩ := h.mem r hr
      exact hnone i hi r hr

theorem Tabulates.fromLog (hstored : Stored log l) : FromLog log rows where
  stores := by
    have hperm := (h.perm hlen).map StoreRow.store
    simp only [List.map_flatMap, Ledger.rowsOf, Record.map_store_rows, l.flatMap_stores] at hperm
    exact hperm.trans hstored.stores
  ordered k := by
    cases hk : rows.filter fun r => r.key = k with
    | nil => exact List.nil_sublist _
    | cons r rest =>
      have hmem : r ∈ rows.filter fun r => r.key = k := hk ▸ List.mem_cons_self
      obtain ⟨hr, hkey⟩ := List.mem_filter.1 hmem
      obtain ⟨i, hi, -, hrows⟩ := h.exists_rowsOf hr
      rw [of_decide_eq_true hkey, hk] at hrows
      rw [hrows, Ledger.rowsOf, Record.map_store_rows]
      exact hstored.ordered _ (List.mem_of_getElem? (Ledger.getElem?_record hi))
  alloc r hr := by
    obtain ⟨i, hi, hri⟩ := h.mem r hr
    obtain ⟨st, -, rfl⟩ := List.mem_map.1 hri
    refine ⟨i, (l.record i).stackLines, ?_, ?_, rfl⟩
    · rw [← hstored.heads, List.getElem?_map, Ledger.getElem?_record hi]
      rfl
    · rw [BitVec.toNat_ofNat, Nat.mod_eq_of_lt ((Ledger.usageNum_le hi).trans_lt hlen),
        ← hstored.heads, ← List.map_take, List.countP_map]
      rfl
  inside r hr := by
    obtain ⟨i, hi, hri⟩ := h.mem r hr
    obtain ⟨st, hst, rfl⟩ := List.mem_map.1 hri
    have hcontains := hstored.contains _ (List.mem_of_getElem? (Ledger.getElem?_record hi)) st hst
    refine BitVec.lt_def.2 ?_
    rw [Record.toNat_offset hcontains]
    exact Nat.sub_lt_left_of_lt_add hcontains.1 hcontains.2
  type r hr := by
    obtain ⟨i, hi, hri, hrows⟩ := h.exists_rowsOf hr
    have hcontains := hstored.contains _ (List.mem_of_getElem? (Ledger.getElem?_record hi))
    rw [hrows, Ledger.rowsOf, Record.alignmentOf_rows hcontains]
    obtain ⟨st, -, rfl⟩ := List.mem_map.1 hri
    rfl

end FromLog

/-! ## Main results -/

section Convert

variable {l : Ledger} {log : List LogEntry} {dir : List Char} {archive : List Member}
  (h : Packs dir l.finished archive) (hok : l.Ok) (hfiled : l.Filed) (hstored : Stored log l)
  (hplain : ∀ entry ∈ log, entry.Plain)
include h hok hfiled hstored hplain

/-- The dictionary has at most one stack text for each record. -/
theorem Packs.length_stacksOf (hlen : l.records.length < 2 ^ 32) :
    (stacksOf (archive.flatMap Member.rawRows)).length ≤ l.records.length := by
  have hsub : stacksOf (archive.flatMap Member.rawRows) ⊆
      l.records.map fun r => ['\n'].intercalate (r.stackLines.map strip) := by
    intro s hs
    obtain ⟨raw, hraw, rfl⟩ := mem_stacksOf.1 hs
    have hrow : raw.row ∈ archive.flatMap Member.rows := by
      obtain ⟨m, hm, hraw⟩ := List.mem_flatMap.1 hraw
      exact List.mem_flatMap.2 ⟨m, hm, List.mem_map_of_mem hraw⟩
    obtain ⟨i, hi, hri⟩ := (h.tabulates hok hfiled hstored hplain hlen).mem _ hrow
    obtain ⟨st, -, heq⟩ := List.mem_map.1 hri
    refine List.mem_map.2 ⟨l.record i, List.mem_of_getElem? (Ledger.getElem?_record hi), ?_⟩
    exact congrArg StoreRow.allocStack heq
  have hle := (List.subperm_of_subset (nodup_stacksOf _) hsub).length_le
  rwa [List.length_map] at hle

theorem Packs.convertArchive (hlen : l.records.length ≤ 2 ^ 31) (pa : Pyarrow) (batchRows : Nat) :
    ∃ p, convertArchive pa batchRows archive = .ok p ∧ Tabulates l p.rows := by
  have hlen' : l.records.length < 2 ^ 32 := by omega
  have hfits : Fits (archive.flatMap Member.rawRows) :=
    fits_iff.2 ⟨h.inRange hok hfiled hstored hplain hlen',
      (h.length_stacksOf hok hfiled hstored hplain hlen').trans hlen⟩
  obtain ⟨p, hrun, hrows⟩ := exists_ok_of_fits hfits pa batchRows
  refine ⟨p, hrun, ?_⟩
  rw [hrows, List.map_flatMap]
  exact h.tabulates hok hfiled hstored hplain hlen'

end Convert

section Run

variable {su : Setup} {m : Mem} {acts : List Action} {t t' : Tool} {maxOpenFiles : Nat}

/-- What the parser makes of the log of a state that stands for the registry after some actions. -/
theorem Refines.exists_finished (href : Refines su t (Registry.init.run acts))
    (hfini : mlFini t = some ((), t')) (hplain : ∀ act ∈ acts, ∀ line ∈ act.trace, PlainLine line)
    (hopen : 1 ≤ maxOpenFiles) :
    t'.out = (Registry.init.run acts).log.flatMap LogEntry.print ∧
    ∃ l, (Ledger.init fun _ => none).run (Registry.init.run acts).log = some l ∧
      parseLog maxOpenFiles (joinLines t'.out) (fun _ => none) = .ok l.finished ∧
      l.Ok ∧ l.Filed ∧ Stored (Registry.init.run acts).log l ∧
      ∀ entry ∈ (Registry.init.run acts).log, entry.Plain := by
  have hout : t'.out = t.logLines := by
    cases hfini
    rfl
  obtain ⟨-, p, l, hp, hl, hrep, hfollows⟩ := exists_parsed href hplain hopen fun _ => none
  have hlog : ∀ entry ∈ (Registry.init.run acts).log, entry.Plain :=
    Registry.plain_log hplain fun entry hentry => absurd hentry List.not_mem_nil
  refine ⟨hout.trans href.printed, l, hl, ?_, hfollows.ok, ?_, ?_, hlog⟩
  · rw [hout, parseLog, hp]
    exact hrep.finish hfollows.ok
  · exact Ledger.filed_init.run (Ledger.ok_init _) (Ledger.stacked_init _) hl
  · exact (Stored.init _).run (Ledger.ok_init _) (Ledger.stacked_init _) hl

/-- The ledger of a run that tracks no start address again keeps its history. -/
theorem mirrors_history (hnew : NoRetrack .init acts) {l : Ledger}
    (hl : (Ledger.init fun _ => none).run (Registry.init.run acts).log = some l) :
    Mirrors (Registry.init.run acts) (history acts) l := by
  obtain ⟨l', hl', hm⟩ := (Mirrors.init fun _ => none).run rfl hnew
  obtain rfl : l = l' := Option.some.inj (hl.symm.trans hl')
  exact hm

/-- The tables of a run that tracks no start address again. -/
theorem exists_tabulated (hrun : Run su (.init m) acts t) (hfini : mlFini t = some ((), t'))
    (hnew : NoRetrack .init acts) (hplain : ∀ act ∈ acts, ∀ line ∈ act.trace, PlainLine line)
    (hopen : 1 ≤ maxOpenFiles) (hcount : (history acts).records.length ≤ 2 ^ 31) :
    ∃ l, Mirrors (Registry.init.run acts) (history acts) l ∧ l.records = (history acts).records ∧
      l.records.length < 2 ^ 32 ∧
      parseLog maxOpenFiles (joinLines t'.out) (fun _ => none) = .ok l.finished ∧
      ∀ (pa : Pyarrow) batchRows dir archive, Packs dir l.finished archive →
        ∃ p, convertArchive pa batchRows archive = .ok p ∧ Tabulates l p.rows := by
  obtain ⟨-, l, hl, hparse, hok, hfiled, hstored, hlog⟩ :=
    (hrun.refines (.init su m)).exists_finished hfini hplain hopen
  have hm := mirrors_history hnew hl
  rw [← hm.records] at hcount
  refine ⟨l, hm, hm.records, by omega, hparse, fun pa batchRows dir archive hpacks => ?_⟩
  exact hpacks.convertArchive hok hfiled hstored hlog hcount pa batchRows

/-- **The buffers of a run** that tracks no start address again: the rows under the key of an ALLOC
record are the stores that were logged while the lookup returned its block, in the order of the run,
and there are no others. -/
theorem convertArchive_history (hrun : Run su (.init m) acts t) (hfini : mlFini t = some ((), t'))
    (hnew : NoRetrack .init acts) (hplain : ∀ act ∈ acts, ∀ line ∈ act.trace, PlainLine line)
    (hopen : 1 ≤ maxOpenFiles) (hcount : (history acts).records.length ≤ 2 ^ 31) :
    ∃ files, parseLog maxOpenFiles (joinLines t'.out) (fun _ => none) = .ok files ∧
      ∀ (pa : Pyarrow) batchRows dir archive, Packs dir files archive →
        ∃ p, convertArchive pa batchRows archive = .ok p ∧
          (∀ (i : Ref) (rec : Record), (history acts).records[i]? = some rec →
            p.rows.filter (fun r => r.key =
                (rec.start, BitVec.ofNat 32 (number (history acts).records i rec))) =
              rec.rows (number (history acts).records i rec)) ∧
          ∀ r ∈ p.rows, ∃ (i : Ref) (rec : Record), (history acts).records[i]? = some rec ∧
            r ∈ rec.rows (number (history acts).records i rec) := by
  obtain ⟨l, hm, hrecords, -, hparse, htable⟩ :=
    exists_tabulated hrun hfini hnew hplain hopen hcount
  refine ⟨l.finished, hparse, fun pa batchRows dir archive hpacks => ?_⟩
  obtain ⟨p, hconvert, htab⟩ := htable pa batchRows dir archive hpacks
  refine ⟨p, hconvert, fun i rec hrec => ?_, fun r hr => ?_⟩
  · obtain ⟨hrecord, hnumber⟩ := hm.record hrec
    have hi : i < l.records.length := by
      rw [hrecords]
      exact (List.getElem?_eq_some_iff.1 hrec).1
    have hbuffer := htab.buffer i hi
    rwa [Ledger.keyOf, Ledger.rowsOf, hrecord, hnumber] at hbuffer
  · obtain ⟨i, hi, hri⟩ := htab.mem r hr
    have hrec : (history acts).records[i]? = some (l.record i) :=
      hrecords ▸ Ledger.getElem?_record hi
    refine ⟨i, l.record i, hrec, ?_⟩
    rw [← (hm.record hrec).2]
    exact hri

end Run

/-! ## An archive of one file -/

/-- The archive of a folder with one directory, in which there is the file of one record. -/
def oneFile (dir : List Char) (rec : Record) : List Member :=
  [⟨dir, false, []⟩, ⟨dir ++ rec.fileName 1, true, rec.content⟩]

theorem fileName_ne_nil (rec : Record) (n : Nat) : rec.fileName n ≠ [] := by
  rw [← Record.target_eq_fileName, Record.target_toLive]
  exact List.cons_ne_nil _ _

theorem packs_oneFile {r : Registry} {h : History} {l : Ledger} (hm : Mirrors r h l)
    (hfiled : l.Filed) {rec : Record} (hrecords : h.records = [rec]) (hstores : rec.stores ≠ [])
    {dir : List Char} (hdir : dir.getLast? = some '/') :
    Packs dir l.finished (oneFile dir rec) := by
  have hfiles : ∀ path text, l.finished path = some text ↔
      path = rec.fileName 1 ∧ text = rec.content := by
    intro path text
    refine (hm.files_finish hfiled path text).trans ?_
    rw [hrecords]
    constructor
    · rintro ⟨i, rec', hrec, -, rfl, rfl⟩
      obtain rfl : i = 0 := Nat.lt_one_iff.1 (List.getElem?_eq_some_iff.1 hrec).1
      cases hrec
      exact ⟨rfl, rfl⟩
    · rintro ⟨rfl, rfl⟩
      exact ⟨0, rec, rfl, hstores, rfl, rfl⟩
  refine ⟨.inr hdir, ?_, fun path text hfile => ?_, fun m hmem hread => ?_⟩
  · refine List.nodup_cons.2 ⟨fun hmem => ?_, List.nodup_singleton _⟩
    exact fileName_ne_nil rec 1 (List.self_eq_append_right.1 (List.mem_singleton.1 hmem))
  · obtain ⟨rfl, rfl⟩ := (hfiles path text).1 hfile
    exact List.mem_cons_of_mem _ List.mem_cons_self
  · rcases List.mem_cons.1 hmem with rfl | hmem
    · cases hread
    · rw [List.mem_singleton.1 hmem]
      exact ⟨_, rfl, (hfiles _ _).2 ⟨rfl, rfl⟩⟩

/-- The archive of a run with one ALLOC record. -/
theorem packs_of_refines {su : Setup} {acts : List Action} {t t' : Tool}
    (href : Refines su t (Registry.init.run acts)) (hfini : mlFini t = some ((), t'))
    (hnew : NoRetrack .init acts)
    (hplain : ∀ act ∈ acts, ∀ line ∈ act.trace, PlainLine line) {files : Files}
    (hparse : parseLog 1 (joinLines t'.out) (fun _ => none) = .ok files) {rec : Record}
    (hrecords : (history acts).records = [rec]) (hstores : rec.stores ≠ []) {dir : List Char}
    (hdir : dir.getLast? = some '/') : Packs dir files (oneFile dir rec) := by
  obtain ⟨-, l, hl, hparse', -, hfiled, -⟩ := href.exists_finished hfini hplain (le_refl 1)
  rw [hparse'] at hparse
  cases hparse
  exact packs_oneFile (mirrors_history hnew hl) hfiled hrecords hstores hdir

/-- A region in which an address is stored to three times, and another one once. -/
def storeAgain : List Call :=
  [⟨⟨someTrace, []⟩, none, .request (.trackBlock 0x1000 64)⟩,
    ⟨⟨someTrace, []⟩, none, .logStore 0x100c 0x2a⟩,
    ⟨⟨someTrace, []⟩, none, .logStore 0x1008 0x2a⟩,
    ⟨⟨someTrace, []⟩, none, .logStore 0x100c 0x2a⟩,
    ⟨⟨someTrace, []⟩, none, .logStore 0x100c 0x2b⟩]

/-- The actions of `storeAgain`. -/
def storeAgainActions : List Action :=
  [.track (clientBlock ⟨someTrace, []⟩ 0x1000 64), .store 0x100c 0x2a, .store 0x1008 0x2a,
    .store 0x100c 0x2a, .store 0x100c 0x2b]

/-- The record of `storeAgain`. -/
def storeAgainRecord : Record where
  start := 0x1000
  size := 64
  stackLines := Parser.cleanTrace someTrace
  stores := [(0x100c, 0x2a), (0x1008, 0x2a), (0x100c, 0x2a), (0x100c, 0x2b)]

def parsedDir : List Char := "lbm/memlog.7.log.parsed/".toList

theorem exists_run_storeAgain : ∃ t, Run plainSetup (.init fun _ => 0) storeAgainActions t := by
  obtain ⟨t, hrun, -⟩ := exists_run (Refines.init plainSetup fun _ => 0) storeAgain
  exact ⟨t, hrun⟩

theorem noRetrack_storeAgain : NoRetrack .init storeAgainActions := by
  refine ⟨fun bk _ b hb => absurd hb List.not_mem_nil, ?_, ?_, ?_, ?_, trivial⟩ <;>
  rintro bk ⟨⟩

theorem plain_storeAgain : ∀ act ∈ storeAgainActions, ∀ line ∈ act.trace, PlainLine line := by
  have hstore : ∀ a v, ∀ line ∈ (Action.store a v).trace, PlainLine line :=
    fun _ _ line hline => absurd hline List.not_mem_nil
  exact List.forall_mem_cons.2 ⟨plain_someTrace, List.forall_mem_cons.2 ⟨hstore _ _,
    List.forall_mem_cons.2 ⟨hstore _ _, List.forall_mem_cons.2 ⟨hstore _ _,
      List.forall_mem_cons.2 ⟨hstore _ _, List.forall_mem_nil _⟩⟩⟩⟩⟩

theorem packs_storeAgain {t : Tool} (hrun : Run plainSetup (.init fun _ => 0) storeAgainActions t)
    {files : Files} (hparse : parseLog 1 (joinLines t.logLines) (fun _ => none) = .ok files) :
    Packs parsedDir files (oneFile parsedDir storeAgainRecord) :=
  packs_of_refines (hrun.refines (.init _ _)) rfl noRetrack_storeAgain plain_storeAgain hparse rfl
    (by decide) rfl

theorem convertArchive_history_storeAgain :
    ∃ t, Run plainSetup (.init fun _ => 0) storeAgainActions t ∧ NoRetrack .init storeAgainActions ∧
      ∃ p, convertArchive .checking batchRows (oneFile parsedDir storeAgainRecord) = .ok p ∧
        p.rows.filter (fun r => r.key = (0x1000, 1)) = storeAgainRecord.rows 1 := by
  obtain ⟨t, hrun⟩ := exists_run_storeAgain
  obtain ⟨files, hparse, htable⟩ := convertArchive_history hrun rfl noRetrack_storeAgain
    plain_storeAgain (le_refl 1) (by decide)
  obtain ⟨p, hconvert, hbuffer, -⟩ := htable .checking batchRows _ _ (packs_storeAgain hrun hparse)
  exact ⟨t, hrun, noRetrack_storeAgain, p, hconvert, hbuffer 0 _ rfl⟩

end Memlog
