import Mathlib.Data.List.Find
import Memlog.Lib.Fallible
import Memlog.Parser.Ledger

/-!
# The parser refines the ledger

`Represents p l` says that the parser's variables and files are those of the ledger. Every record
keeps the relation (`Represents.step`), as long as a STORE record finds a live allocation, and so
does the loop that ends the parse (`Represents.finish`). Apart from this, the two parallel lists of
the parser stay in order whatever lines it reads (`Aligned.onLines`).
-/

namespace Memlog

open Lib

/-! ## The two lists of live allocations -/

namespace Parser

/-- `starts_sorted` is sorted, and holds at each position the start address of the allocation at
that position of `live_list`. -/
structure Aligned (p : Parser) : Prop where
  sorted : p.startsSorted.Pairwise (· ≤ ·)
  starts : p.startsSorted = p.liveList.map fun ref => (p.objects ref).start
  lt_nextRef : ∀ ref ∈ p.liveList, ref < p.nextRef

/-- `_add` and `_remove` apart, an operation changes neither the lists nor a start address. -/
theorem Aligned.congr {p q : Parser} (h : p.Aligned) (hsorted : q.startsSorted = p.startsSorted)
    (hlive : q.liveList = p.liveList) (hnext : q.nextRef = p.nextRef)
    (hobj : ∀ ref, (q.objects ref).start = (p.objects ref).start) : q.Aligned where
  sorted := hsorted ▸ h.sorted
  starts := by
    rw [hsorted, hlive, h.starts]
    exact List.map_congr_left fun ref _ => (hobj ref).symm
  lt_nextRef := by
    rw [hlive, hnext]
    exact h.lt_nextRef

variable {p q : Parser}

theorem start_writeStore {a a' : LiveAlloc} {addrHex valueHex : List Char} {c c' : FileCache}
    (h : a.writeStore addrHex valueHex c = .ok (a', c')) : a'.start = a.start := by
  unfold LiveAlloc.writeStore at h
  dsimp only at h
  split at h
  · obtain ⟨c₁, -, hc₁⟩ := bind_eq_ok h
    cases hc₁
    rfl
  · cases h

theorem Aligned.onStore (h : p.Aligned) {addrHex valueHex : List Char}
    (hq : p.onStore addrHex valueHex = .ok q) : q.Aligned := by
  unfold Parser.onStore at hq
  obtain ⟨found, -, hfound⟩ := bind_eq_ok hq
  cases found with
  | none => cases hfound
  | some ref =>
    obtain ⟨⟨alloc, c⟩, hwrite, hres⟩ := bind_eq_ok hfound
    cases hres
    refine h.congr rfl rfl rfl fun ref' => ?_
    by_cases href : ref' = ref
    · subst href
      simpa using start_writeStore hwrite
    · simp [href]

theorem Aligned.onAllocHeader (h : p.Aligned) (startHex sizeStr : List Char) :
    (p.onAllocHeader startHex sizeStr).Aligned := by
  have hold : ∀ ref ∈ p.liveList, ref ≠ p.nextRef := fun ref href => (h.lt_nextRef ref href).ne
  have hmem : ∀ {xs : List Ref} {k : Nat} {x : Ref}, x ∈ xs.insertIdx k p.nextRef →
      x = p.nextRef ∨ x ∈ xs := List.eq_or_mem_of_mem_insertIdx
  refine ⟨?_, ?_, ?_⟩
  · simp only [Parser.onAllocHeader, add, Nat.add_sub_cancel, Function.update_self]
    exact pairwise_insertIdx_takeWhile h.sorted _
  · simp only [Parser.onAllocHeader, add, Nat.add_sub_cancel, Function.update_self,
      List.map_insertIdx]
    congr 1
    rw [h.starts]
    refine List.map_congr_left fun ref href => ?_
    rw [Function.update_of_ne (hold ref href)]
  · simp only [Parser.onAllocHeader, add, Nat.add_sub_cancel, Function.update_self]
    intro ref href
    rcases hmem href with rfl | href
    · exact Nat.lt_succ_self _
    · exact (h.lt_nextRef ref href).trans (Nat.lt_succ_self _)

theorem Aligned.onStackLine (h : p.Aligned) (line : List Char) : (p.onStackLine line).Aligned := by
  unfold Parser.onStackLine
  split
  · rename_i ref hcur
    dsimp only
    split
    · exact h
    · refine h.congr rfl rfl rfl fun ref' => ?_
      by_cases href : ref' = ref
      · subst href
        simp
      · simp [href]
  · exact h

theorem Aligned.finalize (h : p.Aligned) {ref : Ref} (hq : p.finalize ref = .ok q) : q.Aligned := by
  obtain ⟨c, -, hremove⟩ := bind_eq_ok hq
  unfold remove at hremove
  dsimp only at hremove
  split at hremove
  · split at hremove
    · cases hremove
      refine ⟨h.sorted.sublist (List.eraseIdx_sublist ..), ?_, fun ref' href => ?_⟩
      · rw [h.starts]
        exact List.eraseIdx_map ..
      · exact h.lt_nextRef ref' (List.mem_of_mem_eraseIdx href)
    · cases hremove
  · cases hremove

theorem Aligned.onAllocEnd (h : p.Aligned) (hq : p.onAllocEnd = .ok q) : q.Aligned := by
  have hdone : ∀ x : Except ParseError FileCache, (do
      let c ← x
      return { p with fileCache := c, insideAlloc := false, currentBuilding := none }) = .ok q →
      q.Aligned := by
    intro x hx
    obtain ⟨c, -, hc⟩ := bind_eq_ok hx
    cases hc
    exact h.congr rfl rfl rfl fun _ => rfl
  unfold Parser.onAllocEnd at hq
  dsimp only at hq
  split at hq
  · split at hq <;> exact hdone _ hq
  · exact hdone _ hq

/-- **One line**, whatever it is, keeps the lists in order. -/
theorem Aligned.onLine (h : p.Aligned) {line : List Char} (hq : p.onLine line = .ok q) :
    q.Aligned := by
  unfold Parser.onLine at hq
  split at hq
  · exact h.onStore hq
  split at hq
  · cases hq
    exact h.congr rfl rfl rfl fun _ => rfl
  split at hq
  · exact h.onAllocEnd hq
  split at hq
  · cases hq
    exact h.congr rfl rfl rfl fun _ => rfl
  split at hq
  · cases hq
    exact h.congr rfl rfl rfl fun _ => rfl
  split at hq
  · split at hq
    · cases hq
      exact h.onAllocHeader ..
    · cases hq
      exact h.onStackLine ..
  split at hq
  · split at hq
    · unfold onFreeHeader at hq
      split at hq
      · exact h.finalize hq
      · cases hq
        exact h
    · cases hq
      exact h
  · cases hq
    exact h

theorem Aligned.onLines (h : p.Aligned) {lines : List (List Char)} (hq : p.onLines lines = .ok q) :
    q.Aligned := by
  induction lines generalizing p with
  | nil =>
    cases hq
    exact h
  | cons line lines ih =>
    obtain ⟨p', hline, hrest⟩ := bind_eq_ok hq
    exact ih (h.onLine hline) hrest

theorem aligned_init (maxOpenFiles : Nat) (files : Files) : (init maxOpenFiles files).Aligned :=
  ⟨List.Pairwise.nil, rfl, fun _ href => absurd href List.not_mem_nil⟩

end Parser

/-! ## Refinement -/

/-- The parser's variables and files are those of the ledger. -/
structure Represents (p : Parser) (l : Ledger) : Prop where
  idle : p.Idle
  objects : ∀ i < l.records.length, p.objects i = l.object i
  nextRef : p.nextRef = l.records.length
  liveAllocs : p.liveAllocs = l.liveAllocs
  startsSorted : p.startsSorted = l.live.map l.start
  liveList : p.liveList = l.live
  usage : ∀ a : Addr, p.addressUsageCount a.toNat = l.records.countP fun r => r.start = a
  cache : p.fileCache.Ok
  hidden : ∀ path ∈ p.fileCache.handles, path.head? = some '.'
  view : p.fileCache.view = l.files

namespace Represents

variable {p : Parser} {l : Ledger} {i : Ref}

theorem init {maxOpenFiles : Nat} (h : 1 ≤ maxOpenFiles) (files : Files) :
    Represents (.init maxOpenFiles files) (.init files) where
  idle := ⟨rfl, rfl, rfl⟩
  objects _ hi := absurd hi (Nat.not_lt_zero _)
  nextRef := rfl
  liveAllocs := rfl
  startsSorted := rfl
  liveList := rfl
  usage _ := rfl
  cache := FileCache.ok_init h files
  hidden path hpath := absurd hpath (AList.notMem_empty path)
  view := FileCache.view_init maxOpenFiles files

theorem findAlloc (h : Represents p l) (hok : l.Ok) (addr : Nat) :
    p.findAlloc addr = .ok (l.find addr) := by
  have hcontains : ∀ i ∈ l.live, (p.objects i).Contains addr = (l.record i).Contains addr := by
    intro i hi
    rw [h.objects i (hok.lt_length i hi)]
    rfl
  have hfallback : (l.live.find? fun ref => (p.objects ref).Contains addr) =
      l.live.find? fun i => (l.record i).Contains addr :=
    List.find?_congr fun i hi => by simp only [hcontains i hi]
  unfold Parser.findAlloc Ledger.find
  simp only [h.liveList, h.startsSorted, hfallback]
  cases hpos : bisectRight (l.live.map l.start) addr with
  | zero => rfl
  | succ pos =>
    have hlt : pos < l.live.length := by
      have hle := bisectRight_le_length (l.live.map l.start) addr
      rw [hpos, List.length_map] at hle
      exact hle
    simp only [List.getElem?_eq_getElem hlt, hcontains _ (List.getElem_mem hlt)]
    by_cases hin : (l.record l.live[pos]).Contains addr
    · rw [if_pos hin, if_pos hin]
      rfl
    · rw [if_neg hin, if_neg hin]
      rfl

/-- A STORE record that finds a live allocation. -/
theorem store (h : Represents p l) (hok : l.Ok) {a : Addr} (v : HWord)
    (hfind : l.find a.toNat = some i) :
    ∃ p', p.onStore (printHex a) (printHex v) = .ok p' ∧ Represents p' (l.addStore i a v) := by
  obtain ⟨hi, hcontains⟩ := Ledger.find_spec hfind
  have hlt := hok.lt_length i hi
  obtain ⟨c, hwrite, hc, hview, hmem⟩ := FileCache.writeLine_spec h.cache (l.object i).tmpPath
    (LiveAlloc.storeLine ((l.record i).offset a) (printHex v))
  have hobj : (p.objects i).writeStore (printHex a) (printHex v) p.fileCache =
      .ok ((l.addStore i a v).object i, c) := by
    have hin : (l.object i).Contains a.toNat := hcontains
    rw [h.objects i hlt, LiveAlloc.writeStore]
    simp only [numeral_printHex]
    rw [if_pos hin]
    have hoffset : a.toNat - (l.object i).start = (l.record i).offset a := rfl
    rw [hoffset, hwrite]
    simp [Ledger.object, Ledger.record_addStore a v hlt, Ledger.usageNum_addStore, Record.toLive,
      Record.addStore, bind, Except.bind, pure, Except.pure, Record.offset]
  refine ⟨{ p with objects := Function.update p.objects i ((l.addStore i a v).object i)
                   fileCache := c }, ?_, ?_⟩
  · simp only [Parser.onStore, numeral_printHex, h.findAlloc hok, hfind, bind, Except.bind, hobj]
    rfl
  · refine ⟨⟨h.idle.insideAlloc, h.idle.insideFree, h.idle.currentBuilding⟩, ?_, ?_, h.liveAllocs,
      ?_, h.liveList, ?_, hc, ?_, ?_⟩
    · intro j hj
      rw [Ledger.addStore, List.length_modify] at hj
      by_cases hij : j = i
      · subst hij
        exact Function.update_self ..
      · rw [Ledger.object_addStore_ne a v hij]
        exact (Function.update_of_ne hij ..).trans (h.objects j hj)
    · rw [Ledger.addStore, List.length_modify]
      exact h.nextRef
    · rw [Ledger.start_addStore]
      exact h.startsSorted
    · intro b
      rw [Ledger.countP_start, Ledger.map_start_addStore, ← Ledger.countP_start]
      exact h.usage b
    · intro path hpath
      rcases hmem path hpath with rfl | hpath
      · exact Record.head_tmpPath _ _
      · exact h.hidden path hpath
    · rw [hview, h.view]
      rfl

/-- An ALLOC record. -/
theorem alloc (h : Represents p l) (hok : l.Ok) (a : Addr) (sz : SizeT) (ec : Option ExeContext)
    (hplain : (LogEntry.alloc a sz ec).Plain) :
    ∃ p', p.onLines (Parser.recordLines (.alloc a sz ec)) = .ok p' ∧
      Represents p' (l.addRecord a sz (Parser.cleanTrace (LogEntry.alloc a sz ec).trace)) := by
  generalize hstack : Parser.cleanTrace (LogEntry.alloc a sz ec).trace = stackLines
  have hnew : p.newAlloc a sz stackLines = (l.push a sz stackLines).object l.records.length := by
    rw [Ledger.object, Ledger.record_push_self, Ledger.usageNum_push_self, ← h.usage a]
    rfl
  -- all but the files
  have hrep : ∀ c : FileCache, c.Ok → (∀ path ∈ c.handles, path.head? = some '.') →
      c.view = (l.addRecord a sz stackLines).files →
      Represents { p.withAlloc a sz stackLines with fileCache := c }
        (l.addRecord a sz stackLines) := by
    intro c hc hhidden hview
    rw [Ledger.addRecord_eq]
    have hlen : (l.push a sz stackLines).records.length = l.records.length + 1 := by
      simp [Ledger.push]
    refine ⟨⟨h.idle.insideAlloc, h.idle.insideFree, h.idle.currentBuilding⟩, ?_, ?_, ?_, ?_, ?_, ?_,
      hc, hhidden, hview⟩
    · intro j hj
      change Function.update p.objects p.nextRef (p.newAlloc a sz stackLines) j =
        (l.push a sz stackLines).object j
      rw [hlen] at hj
      rcases Nat.lt_succ_iff_lt_or_eq.1 hj with hj | rfl
      · rw [Function.update_of_ne (h.nextRef ▸ hj.ne), Ledger.object_push a sz stackLines hj]
        exact h.objects j hj
      · rw [h.nextRef, Function.update_self, hnew]
    · change p.nextRef + 1 = (l.push a sz stackLines).records.length
      rw [hlen, h.nextRef]
    · change Function.update p.liveAllocs a.toNat (p.liveAllocs a.toNat ++ [p.nextRef]) =
        Function.update l.liveAllocs a.toNat (l.liveAllocs a.toNat ++ [l.records.length])
      rw [h.liveAllocs, h.nextRef]
    · change p.startsSorted.insertIdx (bisectLeft p.startsSorted a.toNat) a.toNat =
        (l.live.insertIdx (bisectLeft (l.live.map l.start) a.toNat) l.records.length).map
          (l.push a sz stackLines).start
      have hstarts : l.live.map (l.push a sz stackLines).start = l.live.map l.start :=
        List.map_congr_left fun j hj => Ledger.start_push a sz stackLines (hok.lt_length j hj)
      rw [List.map_insertIdx, hstarts, Ledger.start_push_self, h.startsSorted]
    · change p.liveList.insertIdx (bisectLeft p.startsSorted a.toNat) p.nextRef = _
      rw [h.liveList, h.startsSorted, h.nextRef]
      rfl
    · intro b
      change Function.update p.addressUsageCount a.toNat (p.addressUsageCount a.toNat + 1) b.toNat =
        (l.records ++ [(⟨a, sz, stackLines, []⟩ : Record)]).countP fun r => r.start = b
      rw [List.countP_append, ← h.usage b]
      by_cases hb : b = a
      · subst hb
        simp
      · have hne : b.toNat ≠ a.toNat := fun hn => hb (BitVec.eq_of_toNat_eq hn)
        simp [hne, Ne.symm hb]
  rw [Parser.onLines_alloc h.idle a sz ec rfl hplain, hstack]
  by_cases hempty : stackLines.isEmpty = true
  · refine ⟨_, by rw [if_pos hempty]; rfl, hrep p.fileCache h.cache h.hidden ?_⟩
    rw [h.view, Ledger.addRecord]
    simp only [if_pos hempty]
    rfl
  · obtain ⟨c, hwrite, hc, hview, hmem⟩ := FileCache.writeLine_spec h.cache
      (p.newAlloc a sz stackLines).tmpPath (Parser.headerText stackLines)
    refine ⟨_, by rw [if_neg hempty, hwrite]; rfl, hrep c hc ?_ ?_⟩
    · intro path hpath
      rcases hmem path hpath with rfl | hpath
      · rw [hnew]
        exact Record.head_tmpPath _ _
      · exact h.hidden path hpath
    · rw [hview, h.view, Ledger.addRecord, hnew]
      simp only [if_neg hempty]
      rfl

/-- The end of a live allocation. -/
theorem finalize (h : Represents p l) (hok : l.Ok) (hi : i ∈ l.live) :
    ∃ p', p.finalize i = .ok p' ∧ Represents p' (l.finalize i) := by
  have hlt := hok.lt_length i hi
  have hobj := h.objects i hlt
  have htarget : (p.objects i).target ∉ p.fileCache.handles := by
    intro hmem
    have hhead := h.hidden _ hmem
    rw [hobj, Ledger.object, Record.head_target] at hhead
    cases hhead
  have htmp : (p.objects i).storeCount ≠ 0 →
      ∃ text, p.fileCache.view (p.objects i).tmpPath = some text := by
    intro hcount
    rw [h.view, hobj]
    refine hok.written i hi fun hstores => hcount ?_
    rw [hobj]
    exact List.length_eq_zero_iff.2 hstores
  obtain ⟨c, hclose, hc, hview, hmem⟩ := closeAndFinalize_spec h.cache htarget htmp
  -- the position of the allocation in both lists
  obtain ⟨idx, hidx⟩ : ∃ idx, l.live.idxOf? i = some idx :=
    Option.ne_none_iff_exists'.1 fun hnone => List.idxOf?_eq_none_iff.1 hnone hi
  have hlen : idx < p.startsSorted.length := by
    rw [h.startsSorted, List.length_map]
    exact (List.idxOf?_eq_some_iff.1 hidx).1
  have herase : l.live.erase i = l.live.eraseIdx idx := by
    rw [List.erase_eq_eraseIdx, hidx]
  have hstart : (p.objects i).start = l.start i := by
    rw [hobj]
    rfl
  have hstack : p.liveAllocs (p.objects i).start ≠ [] := by
    intro hnil
    have hcount := hok.length_liveAllocs (l.start i)
    rw [← h.liveAllocs, ← hstart, hnil, hstart] at hcount
    have hpos : 0 < l.live.countP fun j => l.start j = l.start i :=
      List.countP_pos_iff.2 ⟨i, hi, by simp⟩
    exact absurd hcount hpos.ne
  have hfinal : p.finalize i = .ok { p with
      fileCache := c
      startsSorted := p.startsSorted.eraseIdx idx
      liveList := p.liveList.eraseIdx idx
      liveAllocs := Function.update p.liveAllocs (p.objects i).start
        (p.liveAllocs (p.objects i).start).dropLast } := by
    rw [Parser.finalize, hclose]
    simp only [bind, Except.bind, Parser.remove, h.liveList, hidx]
    rw [if_pos ⟨hlen, hstack⟩]
  refine ⟨_, hfinal, ?_⟩
  · refine ⟨⟨h.idle.insideAlloc, h.idle.insideFree, h.idle.currentBuilding⟩, h.objects, h.nextRef,
      ?_, ?_, ?_, h.usage, hc, fun path hpath => h.hidden path (hmem path hpath), ?_⟩
    · rw [hstart, h.liveAllocs]
      rfl
    · change p.startsSorted.eraseIdx idx = (l.live.erase i).map l.start
      rw [h.startsSorted, herase]
      exact List.eraseIdx_map ..
    · change p.liveList.eraseIdx idx = l.live.erase i
      rw [h.liveList, herase]
    · rw [hview, hobj, h.view]
      rfl

/-- **A record of the log** does to the parser what it does to the ledger. -/
theorem step (h : Represents p l) (hok : l.Ok) (hstacked : l.Stacked) {entry : LogEntry}
    (hplain : entry.Plain) {l' : Ledger} (hstep : l.step entry = some l') :
    ∃ p', p.onLines (Parser.recordLines entry) = .ok p' ∧ Represents p' l' := by
  cases entry with
  | store a v =>
    obtain ⟨i, hfind, rfl⟩ := Option.map_eq_some_iff.1 hstep
    rw [Parser.onLines_store]
    exact h.store hok v hfind
  | alloc a sz ec =>
    cases hstep
    exact h.alloc hok a sz ec hplain
  | free a sz ec =>
    rw [Parser.onLines_free h.idle a sz ec hplain, Parser.onFreeHeader, numeral_printHex,
      h.liveAllocs]
    rcases Ledger.step_free hstep with ⟨hlast, rfl⟩ | ⟨i, hlast, rfl⟩
    · rw [hlast]
      exact ⟨p, rfl, h⟩
    · rw [hlast]
      exact h.finalize hok (hstacked.getLast hlast).1

/-- **A log** does to the parser what it does to the ledger. -/
theorem run (h : Represents p l) (hok : l.Ok) (hstacked : l.Stacked) {entries : List LogEntry}
    (hplain : ∀ entry ∈ entries, entry.Plain) {l' : Ledger} (hrun : l.run entries = some l') :
    ∃ p', p.onLines (entries.flatMap Parser.recordLines) = .ok p' ∧ Represents p' l' := by
  induction entries generalizing p l with
  | nil =>
    cases hrun
    exact ⟨p, rfl, h⟩
  | cons entry entries ih =>
    obtain ⟨l₁, hstep, hrest⟩ := Option.bind_eq_some_iff.1 hrun
    obtain ⟨p₁, hp₁, h₁⟩ := h.step hok hstacked (hplain entry List.mem_cons_self) hstep
    obtain ⟨hok₁, hstacked₁⟩ := hok.step hstacked hstep
    obtain ⟨p₂, hp₂, h₂⟩ :=
      ih h₁ hok₁ hstacked₁ (fun e he => hplain e (List.mem_cons_of_mem _ he)) hrest
    refine ⟨p₂, ?_, h₂⟩
    rw [List.flatMap_cons, Parser.onLines_append, hp₁]
    exact hp₂

theorem foldlM_finalize (h : Represents p l) (hok : l.Ok) (refs : List Ref) (hnodup : refs.Nodup)
    (hrefs : ∀ i ∈ refs, i ∈ l.live) :
    ∃ p', refs.foldlM Parser.finalize p = .ok p' ∧
      Represents p' (refs.foldl Ledger.finalize l) := by
  induction refs generalizing p l with
  | nil => exact ⟨p, rfl, h⟩
  | cons i refs ih =>
    obtain ⟨hnot, hnodup⟩ := List.nodup_cons.1 hnodup
    have hi := hrefs i List.mem_cons_self
    obtain ⟨p₁, hp₁, h₁⟩ := h.finalize hok hi
    have hrefs₁ : ∀ j ∈ refs, j ∈ (l.finalize i).live := by
      intro j hj
      have hne : j ≠ i := by
        rintro rfl
        exact hnot hj
      exact (List.mem_erase_of_ne hne).2 (hrefs j (List.mem_cons_of_mem i hj))
    obtain ⟨p₂, hp₂, h₂⟩ := ih h₁ (hok.finalize hi) hnodup hrefs₁
    refine ⟨p₂, ?_, h₂⟩
    rw [List.foldlM_cons, hp₁]
    exact hp₂

/-- **The end of the parse**: the allocations that are still live are ended, and the directory is
that of the ledger. -/
theorem finish (h : Represents p l) (hok : l.Ok) :
    p.finish = .ok (l.live.foldl Ledger.finalize l).files := by
  obtain ⟨p', hp', h'⟩ := h.foldlM_finalize hok l.live hok.nodup fun i hi => hi
  rw [Parser.finish, h.liveList, hp', ← h'.view, ← FileCache.closeAll_files h'.cache]
  rfl

end Represents

end Memlog
