import Memlog.Lib.SortedList
import Memlog.Parser.FileCache
import Memlog.Parser.Lines

/-!
# The parser as a ledger of ALLOC records

An abstract machine over the records of a log: its state is the list of all ALLOC records seen so
far, each with the stores that have been put into its file, which of them are live, and the output
directory as it will be when all handles are closed. Text, file handles and shared objects are gone.
The name of a file belongs to one record (`tmpPath_ne`, `target_ne`), and the steps keep the ledger
well formed (`Ok`, `Stacked`).
-/

namespace Memlog

open Lib

/-- An ALLOC record, with the stores that the parser puts into its file. -/
structure Record where
  start : Addr
  size : SizeT
  stackLines : List (List Char)
  stores : List (Addr × HWord)
deriving Inhabited

namespace Record

def offset (r : Record) (a : Addr) : Nat := a.toNat - r.start.toNat

def Contains (r : Record) (addr : Nat) : Prop :=
  r.start.toNat ≤ addr ∧ addr < r.start.toNat + r.size.toNat

instance (r : Record) (addr : Nat) : Decidable (r.Contains addr) :=
  inferInstanceAs (Decidable (_ ∧ _))

/-- The parser's object for a record; `n` is its number among the records of its start address. -/
def toLive (r : Record) (n : Nat) : LiveAlloc where
  start := r.start.toNat
  size := r.size.toNat
  baseCore := "0x".toList ++ printHex r.start ++ "_".toList ++ printDec r.size
  usageNum := n
  storeCount := r.stores.length
  aligned32 := r.stores.all fun st => r.offset st.1 % 4 == 0
  aligned64 := r.stores.all fun st => r.offset st.1 % 8 == 0
  stackLines := r.stackLines

def addStore (r : Record) (a : Addr) (v : HWord) : Record :=
  { r with stores := r.stores ++ [(a, v)] }

/-! ## File names -/

theorem underscore_not_mem_printHex (a : BitVec 64) : '_' ∉ printHex a := by
  intro h
  exact forall_mem_toDigits (p := fun c => c ≠ '_') (by decide) (by decide) a.toNat _ h rfl

theorem not_mem_toDigits_ten {c : Char} (h : ∀ d < 10, Nat.digitChar d ≠ c) (n : Nat) :
    c ∉ Nat.toDigits 10 n := by
  intro hc
  exact forall_mem_toDigits (p := fun d => d ≠ c) (by decide) h n _ hc rfl

theorem toDigits_ten_injective : Function.Injective (Nat.toDigits 10) :=
  toDigits_injective (by decide) ⟨decVal, decVal_digitChar⟩

theorem printHex_injective : Function.Injective printHex := by
  intro a b h
  exact BitVec.eq_of_toNat_eq (toDigits_injective (by decide) ⟨hexVal, hexVal_digitChar⟩ h)

variable {r r' : Record} {n n' : Nat}

theorem tmpPath_toLive (r : Record) (n : Nat) : (r.toLive n).tmpPath =
    '.' :: '0' :: 'x' :: (printHex r.start ++ '_' :: (printDec r.size ++ '_' ::
      (Nat.toDigits 10 n ++ '.' :: "tmp".toList))) := by
  simp [LiveAlloc.tmpPath, toLive]

theorem target_toLive (r : Record) (n : Nat) : (r.toLive n).target =
    '0' :: 'x' :: (printHex r.start ++ '_' :: (printDec r.size ++ '_' ::
      ((r.toLive n).typeName ++ '_' :: (Nat.toDigits 10 n ++ '.' :: "stores".toList)))) := by
  simp [LiveAlloc.target, toLive]

theorem underscore_not_mem_typeName (a : LiveAlloc) : '_' ∉ a.typeName := by
  unfold LiveAlloc.typeName
  split
  · split <;> decide
  · decide

/-- A temporary file belongs to one start address and one number. -/
theorem tmpPath_inj (h : (r.toLive n).tmpPath = (r'.toLive n').tmpPath) :
    r.start = r'.start ∧ n = n' := by
  rw [tmpPath_toLive, tmpPath_toLive] at h
  simp only [List.cons.injEq, true_and] at h
  obtain ⟨hstart, h⟩ :=
    append_cons_inj (underscore_not_mem_printHex _) (underscore_not_mem_printHex _) h
  obtain ⟨-, h⟩ := append_cons_inj (not_mem_toDigits_ten (by decide) _)
    (not_mem_toDigits_ten (by decide) _) h
  obtain ⟨hn, -⟩ := append_cons_inj (not_mem_toDigits_ten (by decide) _)
    (not_mem_toDigits_ten (by decide) _) h
  exact ⟨printHex_injective hstart, toDigits_ten_injective hn⟩

/-- So does a `.stores` file. -/
theorem target_inj (h : (r.toLive n).target = (r'.toLive n').target) :
    r.start = r'.start ∧ n = n' := by
  rw [target_toLive, target_toLive] at h
  simp only [List.cons.injEq, true_and] at h
  obtain ⟨hstart, h⟩ :=
    append_cons_inj (underscore_not_mem_printHex _) (underscore_not_mem_printHex _) h
  obtain ⟨-, h⟩ := append_cons_inj (not_mem_toDigits_ten (by decide) _)
    (not_mem_toDigits_ten (by decide) _) h
  obtain ⟨-, h⟩ := append_cons_inj (underscore_not_mem_typeName _) (underscore_not_mem_typeName _) h
  obtain ⟨hn, -⟩ := append_cons_inj (not_mem_toDigits_ten (by decide) _)
    (not_mem_toDigits_ten (by decide) _) h
  exact ⟨printHex_injective hstart, toDigits_ten_injective hn⟩

theorem head_tmpPath (r : Record) (n : Nat) : (r.toLive n).tmpPath.head? = some '.' := by
  rw [tmpPath_toLive]
  rfl

theorem head_target (r : Record) (n : Nat) : (r.toLive n).target.head? = some '0' := by
  rw [target_toLive]
  rfl

theorem tmpPath_ne_target : (r.toLive n).tmpPath ≠ (r'.toLive n').target := by
  intro h
  have hhead := congrArg List.head? h
  rw [head_tmpPath, head_target] at hhead
  cases hhead

end Record

/-! ## The abstract machine -/

theorem bisectLeft_le_length (xs : List Nat) (x : Nat) : bisectLeft xs x ≤ xs.length :=
  (List.takeWhile_sublist _).length_le

theorem bisectRight_le_length (xs : List Nat) (x : Nat) : bisectRight xs x ≤ xs.length :=
  (List.takeWhile_sublist _).length_le

/-- All ALLOC records so far; the live ones in the order of `live_list` and, for each start address,
in the order of their records; and the output directory. -/
structure Ledger where
  records : List Record
  live : List Ref
  liveAllocs : Nat → List Ref
  files : Files

/-- The files with a text added to the end of one. -/
def Files.write (files : Files) (path : Path) (text : List Char) : Files :=
  Function.update files path (some ((files path).getD [] ++ text))

namespace Ledger

def init (files : Files) : Ledger := ⟨[], [], fun _ => [], files⟩

def record (l : Ledger) (i : Ref) : Record := l.records.getD i default

def start (l : Ledger) (i : Ref) : Nat := (l.record i).start.toNat

/-- The number of a record among the records of its start address. -/
def usageNum (l : Ledger) (i : Ref) : Nat :=
  (l.records.take i).countP (fun r => r.start = (l.record i).start) + 1

/-- The parser's object for a record. -/
def object (l : Ledger) (i : Ref) : LiveAlloc := (l.record i).toLive (l.usageNum i)

/-- The record whose file gets a store. -/
def find (l : Ledger) (addr : Nat) : Option Ref :=
  let fallback := l.live.find? fun i => (l.record i).Contains addr
  match bisectRight (l.live.map l.start) addr with
  | 0 => fallback
  | pos + 1 =>
    match l.live[pos]? with
    | some i => if (l.record i).Contains addr then some i else fallback
    | none => none

def addStore (l : Ledger) (i : Ref) (a : Addr) (v : HWord) : Ledger :=
  { l with
    records := l.records.modify i fun r => r.addStore a v
    files := l.files.write (l.object i).tmpPath
      (LiveAlloc.storeLine ((l.record i).offset a) (printHex v)) }

/-- The ledger with a new record whose file has not been written to. -/
def push (l : Ledger) (a : Addr) (sz : SizeT) (stackLines : List (List Char)) : Ledger :=
  { l with
    records := l.records ++ [⟨a, sz, stackLines, []⟩]
    live := l.live.insertIdx (bisectLeft (l.live.map l.start) a.toNat) l.records.length
    liveAllocs :=
      Function.update l.liveAllocs a.toNat (l.liveAllocs a.toNat ++ [l.records.length]) }

def addRecord (l : Ledger) (a : Addr) (sz : SizeT) (stackLines : List (List Char)) : Ledger :=
  let l' := l.push a sz stackLines
  if stackLines.isEmpty then l'
  else
    { l' with
      files := l.files.write (l'.object l.records.length).tmpPath (Parser.headerText stackLines) }

def finalize (l : Ledger) (i : Ref) : Ledger :=
  { l with
    live := l.live.erase i
    liveAllocs := Function.update l.liveAllocs (l.start i) (l.liveAllocs (l.start i)).dropLast
    files := (l.object i).finalized l.files }

/-- What a record does; a STORE record can be refused. -/
def step (l : Ledger) : LogEntry → Option Ledger
  | .store a v => (l.find a.toNat).map fun i => l.addStore i a v
  | .alloc a sz ec => some (l.addRecord a sz (Parser.cleanTrace (LogEntry.alloc a sz ec).trace))
  | .free a _ _ =>
    match (l.liveAllocs a.toNat).getLast? with
    | some i => some (l.finalize i)
    | none => some l

/-! ## Records and their numbers -/

variable {l : Ledger} {i j : Ref}

theorem record_of_getElem? {r : Record} (h : l.records[i]? = some r) : l.record i = r := by
  rw [record, List.getD_eq_getElem?_getD, h]
  rfl

theorem getElem?_record (h : i < l.records.length) : l.records[i]? = some (l.record i) := by
  rw [record, List.getD_eq_getElem?_getD, List.getElem?_eq_getElem h]
  rfl

theorem usageNum_lt (hij : i < j) (hj : j < l.records.length)
    (h : (l.record i).start = (l.record j).start) : l.usageNum i < l.usageNum j := by
  have hi : i < l.records.length := hij.trans hj
  have htake : l.records.take (i + 1) = l.records.take i ++ [l.record i] := by
    rw [List.take_add_one, getElem?_record hi]
    rfl
  have hle : (l.records.take (i + 1)).countP (fun r => r.start = (l.record j).start) ≤
      (l.records.take j).countP (fun r => r.start = (l.record j).start) :=
    ((List.take_prefix_take_left hij).sublist).countP_le
  rw [htake, List.countP_append] at hle
  unfold usageNum
  rw [h]
  simp only [List.countP_singleton, h, decide_true, if_true] at hle
  omega

/-- A record is determined by its start address and its number. -/
theorem eq_of_usageNum (hi : i < l.records.length) (hj : j < l.records.length)
    (hstart : (l.record i).start = (l.record j).start) (hnum : l.usageNum i = l.usageNum j) :
    i = j := by
  rcases lt_trichotomy i j with hij | hij | hij
  · exact absurd hnum (usageNum_lt hij hj hstart).ne
  · exact hij
  · exact absurd hnum (usageNum_lt hij hi hstart.symm).ne'

theorem tmpPath_ne (hi : i < l.records.length) (hj : j < l.records.length) (hne : i ≠ j) :
    (l.object i).tmpPath ≠ (l.object j).tmpPath := by
  intro h
  obtain ⟨hstart, hnum⟩ := Record.tmpPath_inj h
  exact hne (eq_of_usageNum hi hj hstart hnum)

theorem target_ne (hi : i < l.records.length) (hj : j < l.records.length) (hne : i ≠ j) :
    (l.object i).target ≠ (l.object j).target := by
  intro h
  obtain ⟨hstart, hnum⟩ := Record.target_inj h
  exact hne (eq_of_usageNum hi hj hstart hnum)

/-! ## What a step changes -/

theorem countP_start (rs : List Record) (a : Addr) :
    rs.countP (fun r => r.start = a) = (rs.map Record.start).count a := by
  rw [List.count_eq_countP, List.countP_map]
  congr 1

theorem usageNum_eq (l : Ledger) (i : Ref) :
    l.usageNum i = ((l.records.map Record.start).take i).count (l.record i).start + 1 := by
  rw [usageNum, countP_start, List.map_take]

section Push

variable (a : Addr) (sz : SizeT) (stackLines : List (List Char))

theorem record_push (hi : i < l.records.length) :
    (l.push a sz stackLines).record i = l.record i := by
  simp [record, push, List.getD_eq_getElem?_getD, List.getElem?_append_left hi]

theorem record_push_self :
    (l.push a sz stackLines).record l.records.length = ⟨a, sz, stackLines, []⟩ := by
  simp [record, push, List.getD_eq_getElem?_getD]

theorem start_push (hi : i < l.records.length) : (l.push a sz stackLines).start i = l.start i := by
  rw [start, record_push a sz stackLines hi, start]

theorem usageNum_push (hi : i < l.records.length) :
    (l.push a sz stackLines).usageNum i = l.usageNum i := by
  rw [usageNum, usageNum, record_push a sz stackLines hi]
  simp [push, List.take_append_of_le_length hi.le]

theorem usageNum_push_self :
    (l.push a sz stackLines).usageNum l.records.length =
      l.records.countP (fun r => r.start = a) + 1 := by
  rw [usageNum, record_push_self]
  simp [push]

theorem object_push (hi : i < l.records.length) :
    (l.push a sz stackLines).object i = l.object i := by
  rw [object, record_push a sz stackLines hi, usageNum_push a sz stackLines hi, object]

/-- Writing the header of the new file leaves all but the directory as it is. -/
theorem addRecord_eq : l.addRecord a sz stackLines =
    { l.push a sz stackLines with files := (l.addRecord a sz stackLines).files } := by
  unfold addRecord
  dsimp only
  split <;> rfl

end Push

section AddStore

variable (a : Addr) (v : HWord)

theorem record_addStore (hi : i < l.records.length) :
    (l.addStore i a v).record i = (l.record i).addStore a v := by
  simp [record, addStore, List.getD_eq_getElem?_getD, List.getElem?_eq_getElem hi]

theorem record_addStore_ne (hne : j ≠ i) : (l.addStore i a v).record j = l.record j := by
  simp [record, addStore, List.getD_eq_getElem?_getD, hne.symm]

theorem record_addStore_or (i j : Ref) : (l.addStore i a v).record j = l.record j ∨
    (l.addStore i a v).record j = (l.record j).addStore a v := by
  by_cases hij : j = i
  · subst hij
    by_cases hj : j < l.records.length
    · exact .inr (record_addStore a v hj)
    · exact .inl (by simp [record, addStore, List.getD_eq_getElem?_getD, not_lt.1 hj])
  · exact .inl (record_addStore_ne a v hij)

theorem start_record_addStore (i j : Ref) :
    ((l.addStore i a v).record j).start = (l.record j).start := by
  rcases record_addStore_or (l := l) a v i j with h | h <;> rw [h]
  rfl

theorem size_record_addStore (i j : Ref) :
    ((l.addStore i a v).record j).size = (l.record j).size := by
  rcases record_addStore_or (l := l) a v i j with h | h <;> rw [h]
  rfl

theorem start_addStore (i : Ref) : (l.addStore i a v).start = l.start := by
  funext j
  rw [start, start_record_addStore, start]

theorem map_start_addStore (i : Ref) :
    (l.addStore i a v).records.map Record.start = l.records.map Record.start := by
  apply List.ext_getElem?
  intro k
  simp only [addStore, List.getElem?_map, List.getElem?_modify]
  cases l.records[k]? with
  | none => rfl
  | some r => by_cases hik : i = k <;> simp [hik, Record.addStore]

theorem usageNum_addStore (i j : Ref) : (l.addStore i a v).usageNum j = l.usageNum j := by
  rw [usageNum_eq, usageNum_eq, map_start_addStore, start_record_addStore]

theorem object_addStore_ne (hne : j ≠ i) : (l.addStore i a v).object j = l.object j := by
  rw [object, record_addStore_ne a v hne, usageNum_addStore, object]

end AddStore

end Ledger

/-! ## Well-formed ledgers -/

namespace Ledger

/-- Live records are records, each once, with as many entries in the stacks; one that has a store
has a temporary file. -/
structure Ok (l : Ledger) : Prop where
  nodup : l.live.Nodup
  lt_length : ∀ i ∈ l.live, i < l.records.length
  length_liveAllocs : ∀ s, (l.liveAllocs s).length = l.live.countP fun i => l.start i = s
  written : ∀ i ∈ l.live, (l.record i).stores ≠ [] →
    ∃ text, l.files (l.object i).tmpPath = some text

/-- The stack of a start address holds the live records of that address. -/
def Stacked (l : Ledger) : Prop :=
  ∀ s, (l.liveAllocs s).Perm (l.live.filter fun i => l.start i = s)

variable {l : Ledger} {i : Ref}

theorem ok_init (files : Files) : (init files).Ok where
  nodup := List.nodup_nil
  lt_length _ hi := absurd hi List.not_mem_nil
  length_liveAllocs _ := rfl
  written _ hi := absurd hi List.not_mem_nil

theorem stacked_init (files : Files) : (init files).Stacked := fun _ => .refl _

theorem find_spec {addr : Nat} (h : l.find addr = some i) :
    i ∈ l.live ∧ (l.record i).Contains addr := by
  have hfallback : (l.live.find? fun i => (l.record i).Contains addr) = some i →
      i ∈ l.live ∧ (l.record i).Contains addr := by
    intro h
    exact ⟨List.mem_of_find?_eq_some h, by simpa using List.find?_some h⟩
  unfold find at h
  dsimp only at h
  split at h
  · exact hfallback h
  · rename_i pos hpos
    split at h
    · rename_i j hj
      split at h
      · rename_i hcontains
        cases h
        exact ⟨List.mem_of_getElem? hj, hcontains⟩
      · exact hfallback h
    · cases h

/-- An address in a live record is found. -/
theorem exists_find {addr : Nat} (hi : i ∈ l.live) (hcontains : (l.record i).Contains addr) :
    ∃ j, l.find addr = some j := by
  have hfallback : ∃ j, (l.live.find? fun i => (l.record i).Contains addr) = some j := by
    refine Option.isSome_iff_exists.1 (List.find?_isSome.2 ⟨i, hi, ?_⟩)
    rw [decide_eq_true_eq]
    exact hcontains
  unfold find
  dsimp only
  cases hpos : bisectRight (l.live.map l.start) addr with
  | zero => exact hfallback
  | succ pos =>
    have hlt : pos < l.live.length := by
      have hle := bisectRight_le_length (l.live.map l.start) addr
      rw [hpos, List.length_map] at hle
      exact hle
    simp only [List.getElem?_eq_getElem hlt]
    split
    · exact ⟨_, rfl⟩
    · exact hfallback

section AddStore

variable (a : Addr) (v : HWord)

theorem tmpPath_addStore (i j : Ref) :
    ((l.addStore i a v).object j).tmpPath = (l.object j).tmpPath := by
  rw [object, usageNum_addStore, object, Record.tmpPath_toLive, Record.tmpPath_toLive,
    start_record_addStore, size_record_addStore]

theorem Ok.addStore (h : l.Ok) (i : Ref) : (l.addStore i a v).Ok where
  nodup := h.nodup
  lt_length j hj := by
    rw [Ledger.addStore, List.length_modify]
    exact h.lt_length j hj
  length_liveAllocs s := by
    rw [start_addStore]
    exact h.length_liveAllocs s
  written j hj hstores := by
    rw [tmpPath_addStore]
    by_cases hij : j = i
    · subst hij
      exact ⟨_, Function.update_self ..⟩
    · rw [record_addStore_ne a v hij] at hstores
      obtain ⟨text, htext⟩ := h.written j hj hstores
      by_cases hi : i < l.records.length
      · exact ⟨text, (Function.update_of_ne (tmpPath_ne (h.lt_length j hj) hi hij) ..).trans htext⟩
      · by_cases hpath : (l.object j).tmpPath = (l.object i).tmpPath
        · rw [hpath]
          exact ⟨_, Function.update_self ..⟩
        · exact ⟨text, (Function.update_of_ne hpath ..).trans htext⟩

theorem Stacked.addStore (h : l.Stacked) (i : Ref) : (l.addStore i a v).Stacked := by
  intro s
  rw [start_addStore]
  exact h s

end AddStore

section AddRecord

variable (a : Addr) (sz : SizeT) (stackLines : List (List Char))

theorem perm_live_push : (l.push a sz stackLines).live.Perm (l.records.length :: l.live) := by
  have hle := bisectLeft_le_length (l.live.map l.start) a.toNat
  rw [List.length_map] at hle
  exact List.perm_insertIdx _ _ hle

theorem start_push_self : (l.push a sz stackLines).start l.records.length = a.toNat := by
  rw [start, record_push_self]

/-- The new record is the only one that a test of start addresses sees in addition. -/
theorem start_push_congr (h : l.Ok) (s : Nat) : ∀ i ∈ l.live,
    (decide ((l.push a sz stackLines).start i = s)) = decide (l.start i = s) := by
  intro i hi
  rw [start_push a sz stackLines (h.lt_length i hi)]

theorem Ok.push (h : l.Ok) : (l.push a sz stackLines).Ok where
  nodup := by
    refine (perm_live_push a sz stackLines).nodup_iff.2 (List.nodup_cons.2 ⟨?_, h.nodup⟩)
    intro hmem
    exact lt_irrefl _ (h.lt_length _ hmem)
  lt_length i hi := by
    have hlen : (l.push a sz stackLines).records.length = l.records.length + 1 := by
      simp [Ledger.push]
    rw [hlen]
    rcases List.mem_cons.1 ((perm_live_push a sz stackLines).mem_iff.1 hi) with rfl | hi
    · exact Nat.lt_succ_self _
    · exact (h.lt_length i hi).trans (Nat.lt_succ_self _)
  length_liveAllocs s := by
    have hcongr : (l.live.countP fun i => decide ((l.push a sz stackLines).start i = s)) =
        l.live.countP fun i => decide (l.start i = s) :=
      List.countP_congr fun i hi => by rw [start_push_congr a sz stackLines h s i hi]
    rw [(perm_live_push a sz stackLines).countP_eq, List.countP_cons, start_push_self, hcongr,
      ← h.length_liveAllocs s, Ledger.push]
    by_cases hs : s = a.toNat
    · subst hs
      simp
    · simp [hs, Ne.symm hs]
  written i hi hstores := by
    rcases List.mem_cons.1 ((perm_live_push a sz stackLines).mem_iff.1 hi) with rfl | hi
    · rw [record_push_self] at hstores
      exact absurd rfl hstores
    · have hlt := h.lt_length i hi
      rw [record_push a sz stackLines hlt] at hstores
      rw [object_push a sz stackLines hlt]
      exact h.written i hi hstores

theorem Stacked.push (hok : l.Ok) (h : l.Stacked) : (l.push a sz stackLines).Stacked := by
  intro s
  refine .trans ?_ ((perm_live_push a sz stackLines).filter _).symm
  rw [List.filter_cons, start_push_self,
    List.filter_congr (start_push_congr a sz stackLines hok s), Ledger.push]
  by_cases hs : s = a.toNat
  · subst hs
    simp only [Function.update_self, decide_true, if_true]
    exact (List.perm_append_singleton ..).trans ((h a.toNat).cons _)
  · simp only [Function.update_of_ne hs, Ne.symm hs, decide_false, Bool.false_eq_true, if_false]
    exact h s

theorem Ok.addRecord (h : l.Ok) : (l.addRecord a sz stackLines).Ok := by
  have hpush := h.push a sz stackLines
  unfold Ledger.addRecord
  dsimp only
  split
  · exact hpush
  · refine ⟨hpush.nodup, hpush.lt_length, hpush.length_liveAllocs, fun i hi hstores => ?_⟩
    obtain ⟨text, htext⟩ := hpush.written i hi hstores
    by_cases hpath : ((l.push a sz stackLines).object i).tmpPath =
        ((l.push a sz stackLines).object l.records.length).tmpPath
    · exact ⟨_, (congrArg _ hpath).trans (Function.update_self ..)⟩
    · exact ⟨text, (Function.update_of_ne hpath ..).trans htext⟩

theorem Stacked.addRecord (hok : l.Ok) (h : l.Stacked) : (l.addRecord a sz stackLines).Stacked := by
  rw [addRecord_eq]
  exact h.push a sz stackLines hok

end AddRecord

theorem Ok.finalize (h : l.Ok) (hi : i ∈ l.live) : (l.finalize i).Ok where
  nodup := h.nodup.erase i
  lt_length j hj := h.lt_length j (List.mem_of_mem_erase hj)
  length_liveAllocs s := by
    have hcount := (List.perm_cons_erase hi).countP_eq fun j => decide (l.start j = s)
    rw [List.countP_cons] at hcount
    change (Function.update l.liveAllocs (l.start i) (l.liveAllocs (l.start i)).dropLast s).length =
      (l.live.erase i).countP fun j => l.start j = s
    have hlen := h.length_liveAllocs s
    by_cases hs : s = l.start i
    · subst hs
      simp only [Function.update_self, List.length_dropLast, decide_true, if_true] at hcount ⊢
      omega
    · rw [Function.update_of_ne hs]
      simp only [Ne.symm hs, decide_false, Bool.false_eq_true, if_false] at hcount
      omega
  written j hj hstores := by
    have hjlive := List.mem_of_mem_erase hj
    have hne : j ≠ i := by
      rintro rfl
      exact h.nodup.not_mem_erase hj
    obtain ⟨text, htext⟩ := h.written j hjlive hstores
    have htmp := tmpPath_ne (h.lt_length j hjlive) (h.lt_length i hi) hne
    have htarget : (l.object j).tmpPath ≠ (l.object i).target := Record.tmpPath_ne_target
    refine ⟨text, ?_⟩
    change (l.object i).finalized l.files (l.object j).tmpPath = some text
    unfold LiveAlloc.finalized
    split
    · rw [Function.update_of_ne htmp, htext]
    · rw [Function.update_of_ne htarget, Function.update_of_ne htmp, htext]

theorem Stacked.finalize (hok : l.Ok) (h : l.Stacked) (hi : i ∈ l.live)
    (hlast : (l.liveAllocs (l.start i)).getLast? = some i) : (l.finalize i).Stacked := by
  intro s
  change (Function.update l.liveAllocs (l.start i) (l.liveAllocs (l.start i)).dropLast s).Perm
    ((l.live.erase i).filter fun j => l.start j = s)
  rw [hok.nodup.erase_eq_filter, List.filter_filter]
  by_cases hs : s = l.start i
  · subst hs
    rw [Function.update_self]
    have hperm := h (l.start i)
    have hsplit : l.liveAllocs (l.start i) = (l.liveAllocs (l.start i)).dropLast ++ [i] :=
      (List.dropLast_append_getLast? i hlast).symm
    have hnodup : (l.liveAllocs (l.start i)).Nodup := hperm.nodup_iff.2 (hok.nodup.filter _)
    rw [hsplit] at hperm hnodup
    have hnot : i ∉ (l.liveAllocs (l.start i)).dropLast := by
      intro hmem
      exact (List.nodup_append.1 hnodup).2.2 i hmem i (List.mem_singleton_self i) rfl
    have herase := hperm.filter fun j => j != i
    rw [List.filter_append, List.filter_filter] at herase
    have hkeep : (l.liveAllocs (l.start i)).dropLast.filter (fun j => j != i) =
        (l.liveAllocs (l.start i)).dropLast := by
      refine List.filter_eq_self.2 fun j hj => ?_
      rw [bne_iff_ne]
      rintro rfl
      exact hnot hj
    rw [hkeep] at herase
    simp only [List.filter_cons, bne_self_eq_false, Bool.false_eq_true, if_false, List.filter_nil,
      List.append_nil] at herase
    refine herase.trans (.of_eq (List.filter_congr fun j _ => ?_))
    rw [Bool.and_comm]
  · rw [Function.update_of_ne hs]
    refine (h s).trans (.of_eq (List.filter_congr fun j _ => ?_))
    by_cases hj : l.start j = s
    · have hne : j ≠ i := by
        rintro rfl
        exact hs hj.symm
      simp [hj, hne]
    · simp [hj]

/-- The record that a FREE record ends is live, and starts at the address of the FREE record. -/
theorem Stacked.getLast (h : l.Stacked) {s : Nat} (hlast : (l.liveAllocs s).getLast? = some i) :
    i ∈ l.live ∧ l.start i = s := by
  have hi := (h s).mem_iff.1 (List.mem_of_getLast? hlast)
  rw [List.mem_filter, decide_eq_true_eq] at hi
  exact hi

/-- A FREE record ends the last live record of its address, if there is one. -/
theorem step_free {a : Addr} {sz : SizeT} {ec : Option ExeContext} {l' : Ledger}
    (h : l.step (.free a sz ec) = some l') :
    ((l.liveAllocs a.toNat).getLast? = none ∧ l' = l) ∨
      ∃ i, (l.liveAllocs a.toNat).getLast? = some i ∧ l' = l.finalize i := by
  simp only [Ledger.step] at h
  cases hlast : (l.liveAllocs a.toNat).getLast? with
  | none =>
    rw [hlast] at h
    cases h
    exact .inl ⟨rfl, rfl⟩
  | some i =>
    rw [hlast] at h
    cases h
    exact .inr ⟨i, rfl, rfl⟩

/-- Every record keeps the ledger well formed. -/
theorem Ok.step (h : l.Ok) (hstacked : l.Stacked) {entry : LogEntry} {l' : Ledger}
    (hstep : l.step entry = some l') : l'.Ok ∧ l'.Stacked := by
  cases entry with
  | store a v =>
    obtain ⟨i, -, rfl⟩ := Option.map_eq_some_iff.1 hstep
    exact ⟨h.addStore a v i, hstacked.addStore a v i⟩
  | alloc a sz ec =>
    cases hstep
    exact ⟨h.addRecord .., hstacked.addRecord _ _ _ h⟩
  | free a sz ec =>
    rcases step_free hstep with ⟨-, rfl⟩ | ⟨i, hlast, rfl⟩
    · exact ⟨h, hstacked⟩
    · obtain ⟨hi, hstart⟩ := hstacked.getLast hlast
      rw [← hstart] at hlast
      exact ⟨h.finalize hi, hstacked.finalize h hi hlast⟩

/-! ## Live records in address order -/

/-- The start addresses of the live records are sorted. -/
def Ordered (l : Ledger) : Prop := (l.live.map l.start).Pairwise (· ≤ ·)

theorem Ordered.push (h : l.Ordered) (hok : l.Ok) (a : Addr) (sz : SizeT)
    (stackLines : List (List Char)) : (l.push a sz stackLines).Ordered := by
  have hstarts : l.live.map (l.push a sz stackLines).start = l.live.map l.start :=
    List.map_congr_left fun j hj => start_push a sz stackLines (hok.lt_length j hj)
  change ((l.live.insertIdx (bisectLeft (l.live.map l.start) a.toNat) l.records.length).map
    (l.push a sz stackLines).start).Pairwise (· ≤ ·)
  rw [List.map_insertIdx, hstarts, start_push_self]
  exact pairwise_insertIdx_takeWhile h a.toNat

theorem Ordered.addRecord (h : l.Ordered) (hok : l.Ok) (a : Addr) (sz : SizeT)
    (stackLines : List (List Char)) : (l.addRecord a sz stackLines).Ordered := by
  rw [addRecord_eq]
  exact h.push hok a sz stackLines

theorem Ordered.addStore (h : l.Ordered) (i : Ref) (a : Addr) (v : HWord) :
    (l.addStore i a v).Ordered := by
  unfold Ordered
  rw [start_addStore]
  exact h

theorem Ordered.finalize (h : l.Ordered) (i : Ref) : (l.finalize i).Ordered :=
  h.sublist (List.erase_sublist.map l.start)

/-- The record with the largest start address not above the address, if it contains the address and
no other live record starts there. -/
theorem Ordered.find (h : l.Ordered) {addr : Nat} (hi : i ∈ l.live)
    (hmax : ∀ j ∈ l.live, l.start j ≤ addr → l.start j ≤ l.start i)
    (huniq : ∀ j ∈ l.live, l.start j = l.start i → j = i) (hcontains : (l.record i).Contains addr) :
    l.find addr = some i := by
  unfold Ledger.find
  dsimp only
  cases hpos : bisectRight (l.live.map l.start) addr with
  | zero =>
    have hlt := takeWhile_le_eq_nil h hpos (l.start i) (List.mem_map_of_mem hi)
    exact absurd hcontains.1 (not_le.2 hlt)
  | succ pos =>
    obtain ⟨s, hs, hle, hgreatest⟩ := getElem?_takeWhile_le h hpos
    rw [List.getElem?_map] at hs
    obtain ⟨j, hj, hjs⟩ := Option.map_eq_some_iff.1 hs
    have hjmem := List.mem_of_getElem? hj
    have hji : l.start j = l.start i :=
      le_antisymm (hmax j hjmem (hjs.le.trans hle))
        ((hgreatest _ (List.mem_map_of_mem hi) hcontains.1).trans hjs.ge)
    have hj' := huniq j hjmem hji
    subst hj'
    simp only [hj, if_pos hcontains]

/-- The ledger after a log, unless a STORE record is refused. -/
def run (l : Ledger) (entries : List LogEntry) : Option Ledger := entries.foldlM step l

theorem run_append {l l₁ : Ledger} {entries : List LogEntry} (h : l.run entries = some l₁)
    (entries' : List LogEntry) : l.run (entries ++ entries') = l₁.run entries' := by
  unfold run at h ⊢
  rw [List.foldlM_append, h]
  rfl

theorem run_singleton (l : Ledger) (entry : LogEntry) : l.run [entry] = l.step entry := by
  unfold run
  simp

end Ledger

end Memlog
