import Memlog.Parser.Model
import Memlog.Tool.Model

/-!
# From printed lines back to log records

The parser sees the text that `flush_log_buffer` prints. A line of a stack trace that matches none
of its patterns (`PlainLine`) cannot be taken for anything else, numbers are read back as they were
printed, and so the lines of one record act on the parser as one step: `onLines_store`,
`onLines_alloc` and `onLines_free`.
-/

namespace Memlog

open Lib

/-! ## The lines of a log -/

/-- The four lines that begin and end records. -/
def delimiters : List (List Char) :=
  ["===ALLOC START===".toList, "===ALLOC END===".toList, "===FREE START===".toList,
    "===FREE END===".toList]

/-- A line that matches none of the parser's patterns. -/
structure PlainLine (line : List Char) : Prop where
  oneLine : OneLine line
  not_store : matchStore (line ++ ['\n']) = none
  not_delimiter : ∀ d ∈ delimiters, d.isPrefixOf (line ++ ['\n']) = false
  not_header : matchAllocHeader (line ++ ['\n']) = none

/-- A line as the core prints it, with `==pid==` in front. -/
structure CoreLine (line : List Char) : Prop where
  oneLine : OneLine line
  marked : ∃ c rest, line = '=' :: '=' :: c :: rest ∧ c ≠ '='

theorem CoreLine.plainLine {line : List Char} (h : CoreLine line) : PlainLine line := by
  obtain ⟨c, rest, rfl, hc⟩ := h.marked
  refine ⟨h.oneLine, rfl, ?_, rfl⟩
  intro d hd
  simp only [delimiters, List.mem_cons, List.not_mem_nil, or_false] at hd
  rcases hd with rfl | rfl | rfl | rfl <;> simp [List.isPrefixOf, hc.symm]

/-- The lines that are printed for the stack trace of a record. -/
def LogEntry.trace : LogEntry → ExeContext
  | store _ _ => []
  | alloc _ _ ec => ec.getD ["(No allocation stack trace available)".toList]
  | free _ _ ec => ec.getD ["(No free stack trace available)".toList]

/-- The stack trace of a record is made of plain lines. -/
def LogEntry.Plain (entry : LogEntry) : Prop := ∀ line ∈ entry.trace, PlainLine line

/-! ## Numbers in lines -/

theorem isHexDigit_printHex (a : BitVec 64) : ∀ c ∈ printHex a, isHexDigit c = true :=
  forall_mem_toDigits (by decide) (by decide) a.toNat

theorem isDecDigit_printDec (n : BitVec 64) : ∀ c ∈ printDec n, isDecDigit c = true :=
  forall_mem_toDigits (by decide) (by decide) n.toNat

theorem toLower_printHex (a : BitVec 64) : (printHex a).map Char.toLower = printHex a := by
  refine List.map_congr_left (f := Char.toLower) (g := id) ?_ |>.trans (List.map_id _)
  exact forall_mem_toDigits (by decide) (by decide) a.toNat

@[simp] theorem numeral_printHex (a : BitVec 64) : numeral 16 hexVal (printHex a) = a.toNat :=
  numeral_toDigits (by decide) hexVal_digitChar a.toNat

@[simp] theorem numeral_printDec (n : BitVec 64) : numeral 10 decVal (printDec n) = n.toNat :=
  numeral_toDigits (by decide) decVal_digitChar n.toNat

theorem oneLine_toDigits {b : Nat} (hb : 1 < b)
    (h : ∀ d < b, Nat.digitChar d ≠ '\n' ∧ Nat.digitChar d ≠ '\r') (n : Nat) :
    OneLine (Nat.toDigits b n) := by
  have hmem := forall_mem_toDigits (p := fun c => c ≠ '\n' ∧ c ≠ '\r') hb h n
  exact ⟨fun hc => (hmem _ hc).1 rfl, fun hc => (hmem _ hc).2 rfl⟩

theorem oneLine_printHex (a : BitVec 64) : OneLine (printHex a) :=
  oneLine_toDigits (by decide) (by decide) a.toNat

theorem oneLine_printDec (n : BitVec 64) : OneLine (printDec n) :=
  oneLine_toDigits (by decide) (by decide) n.toNat

/-- The line of a STORE record is read back. -/
theorem matchStore_print (a v : BitVec 64) :
    matchStore ("0x".toList ++ printHex a ++ " 0x".toList ++ printHex v ++ ['\n']) =
      some (printHex a, printHex v) := by
  have hscan₁ : ∀ s, scan isHexDigit (printHex a ++ ' ' :: s) = some (printHex a, ' ' :: s) :=
    fun s =>
    scan_append Nat.toDigits_ne_nil (isHexDigit_printHex a) (stopsAt_cons (by decide) s)
  have hscan₂ : ∀ s, scan isSpace (' ' :: '0' :: s) = some ([' '], '0' :: s) := fun s =>
    scan_blank (by decide) s
  have hscan₃ : scan isHexDigit (printHex v ++ ['\n']) = some (printHex v, ['\n']) :=
    scan_append Nat.toDigits_ne_nil (isHexDigit_printHex v) (stopsAt_cons (by decide) [])
  have hline : "0x".toList ++ printHex a ++ " 0x".toList ++ printHex v ++ ['\n'] =
      "0x".toList ++ (printHex a ++ ' ' :: ('0' :: 'x' :: (printHex v ++ ['\n']))) := by
    simp
  rw [hline, matchStore, after_append]
  simp only [Option.bind_eq_bind, Option.bind_some, hscan₁]
  have hx : after "0x".toList ('0' :: 'x' :: (printHex v ++ ['\n'])) =
    some (printHex v ++ ['\n']) :=
    after_append "0x".toList _
  simp only [hscan₂, Option.bind_some, hx, hscan₃]
  rfl

/-- The header of an ALLOC or FREE record is read back. -/
theorem matchAllocHeader_print (a : Addr) (sz : SizeT) :
    matchAllocHeader (printHeader a sz ++ ['\n']) = some (printHex a, printDec sz) := by
  have hscan₁ : ∀ s, scan isHexDigit (printHex a ++ ',' :: s) = some (printHex a, ',' :: s) :=
    fun s =>
    scan_append Nat.toDigits_ne_nil (isHexDigit_printHex a) (stopsAt_cons (by decide) s)
  have hscan₂ : scan isDecDigit (printDec sz ++ ['\n']) = some (printDec sz, ['\n']) :=
    scan_append Nat.toDigits_ne_nil (isDecDigit_printDec sz) (stopsAt_cons (by decide) [])
  have hline : printHeader a sz ++ ['\n'] =
      "Start".toList ++ ' ' :: '0' :: 'x' :: (printHex a ++ ',' ::
      ' ' :: 's' :: 'i' :: 'z' :: 'e' :: ' ' :: (printDec sz ++ ['\n'])) := by
    delta printHeader
    simp
  have hx : ∀ s, after "0x".toList ('0' :: 'x' :: s) = some s := fun s => by simp [after]
  have hcomma : ∀ s, after ",".toList (',' :: s) = some s := fun s => by simp [after]
  have hsize : ∀ s, after "size".toList ('s' :: 'i' :: 'z' :: 'e' :: s) = some s := fun s => by
    simp [after]
  -- the last blank stands before a digit
  have hlast : scan isSpace (' ' :: (printDec sz ++ ['\n'])) =
      some ([' '], printDec sz ++ ['\n']) := by
    obtain ⟨c, cs, hcons⟩ := List.exists_cons_of_ne_nil
      (Nat.toDigits_ne_nil (n := sz.toNat) (b := 10))
    have hc : c ∈ printDec sz := by
      rw [printDec, hcons]
      exact List.mem_cons_self
    have hdigit : isSpace c = false :=
      forall_mem_toDigits (p := fun c => isSpace c = false) (by decide) (by decide) sz.toNat c hc
    rw [printDec, hcons, List.cons_append]
    exact scan_blank hdigit _
  rw [hline, matchAllocHeader, after_append]
  simp only [Option.bind_eq_bind, Option.bind_some]
  rw [scan_blank (c := '0') (by decide)]
  simp only [Option.bind_some, hx, hscan₁, hcomma]
  rw [scan_blank (c := 's') (by decide)]
  simp only [Option.bind_some, hsize, hlast, hscan₂]
  rfl

/-! ## One line -/

namespace Parser

/-- The parser is between two records. -/
structure Idle (p : Parser) : Prop where
  insideAlloc : p.insideAlloc = false
  insideFree : p.insideFree = false
  currentBuilding : p.currentBuilding = none

variable {p : Parser}

theorem onLine_plain {line : List Char} (h : PlainLine line) :
    p.onLine (line ++ ['\n']) =
      .ok (if p.insideAlloc then p.onStackLine (line ++ ['\n']) else p) := by
  have hd : ∀ d ∈ delimiters, d.isPrefixOf (line ++ ['\n']) = false := h.not_delimiter
  simp only [delimiters, List.forall_mem_cons] at hd
  obtain ⟨h₁, h₂, h₃, h₄, -⟩ := hd
  rw [onLine, h.not_store]
  simp only [h₁, h₂, h₃, h₄, h.not_header, Bool.false_eq_true, if_false]
  split
  · rfl
  · split <;> rfl

theorem onLine_header (a : Addr) (sz : SizeT) :
    p.onLine (printHeader a sz ++ ['\n']) =
      if p.insideAlloc then .ok (p.onAllocHeader (printHex a) (printDec sz))
      else if p.insideFree then p.onFreeHeader (printHex a) else .ok p := by
  have hstart : ∃ rest, printHeader a sz ++ ['\n'] = 'S' :: rest :=
    ⟨_, rfl⟩
  obtain ⟨rest, hrest⟩ := hstart
  have hmatch := matchAllocHeader_print a sz
  rw [hrest] at hmatch ⊢
  have hstore : matchStore ('S' :: rest) = none := rfl
  have hd : ∀ d ∈ delimiters, d.isPrefixOf ('S' :: rest) = false := by
    intro d hd
    simp only [delimiters, List.mem_cons, List.not_mem_nil, or_false] at hd
    rcases hd with rfl | rfl | rfl | rfl <;> rfl
  simp only [delimiters, List.forall_mem_cons] at hd
  obtain ⟨h₁, h₂, h₃, h₄, -⟩ := hd
  rw [onLine, hstore]
  simp only [h₁, h₂, h₃, h₄, hmatch, Bool.false_eq_true, if_false]

theorem onLines_cons (line : List Char) (lines : List (List Char)) :
    p.onLines (line :: lines) = (p.onLine line).bind fun p' => p'.onLines lines := rfl

theorem onLines_append (lines lines' : List (List Char)) :
    p.onLines (lines ++ lines') = (p.onLines lines).bind fun p' => p'.onLines lines' :=
  List.foldlM_append ..

theorem onLines_singleton (line : List Char) : p.onLines [line] = p.onLine line := by
  rw [onLines_cons]
  cases p.onLine line <;> rfl

/-! ## One record -/

/-- The lines of a record as the parser reads them. -/
def recordLines (entry : LogEntry) : List (List Char) := entry.print.map (· ++ ['\n'])

theorem onLines_store (a : Addr) (v : HWord) :
    p.onLines (recordLines (.store a v)) = p.onStore (printHex a) (printHex v) := by
  have hline : p.onLine ("0x".toList ++ printHex a ++ " 0x".toList ++ printHex v ++ ['\n']) =
      p.onStore (printHex a) (printHex v) := by
    rw [onLine, matchStore_print]
  rw [recordLines, LogEntry.print, List.map_singleton, onLines_singleton, hline]

/-- The lines of a stack trace that go to the header of a file. -/
def cleanTrace (trace : ExeContext) : List (List Char) :=
  (trace.map fun line => rstrip (line ++ ['\n'])).filter fun line => !line.isEmpty

/-- The allocation of an ALLOC record. -/
def newAlloc (p : Parser) (a : Addr) (sz : SizeT) (stackLines : List (List Char)) : LiveAlloc where
  start := a.toNat
  size := sz.toNat
  baseCore := "0x".toList ++ printHex a ++ "_".toList ++ printDec sz
  usageNum := p.addressUsageCount a.toNat + 1
  stackLines := stackLines

/-- The parser with the allocation of an ALLOC record added. -/
def withAlloc (p : Parser) (a : Addr) (sz : SizeT) (stackLines : List (List Char)) : Parser :=
  { p with
    objects := Function.update p.objects p.nextRef (p.newAlloc a sz stackLines)
    nextRef := p.nextRef + 1
    liveAllocs := Function.update p.liveAllocs a.toNat (p.liveAllocs a.toNat ++ [p.nextRef])
    startsSorted := p.startsSorted.insertIdx (bisectLeft p.startsSorted a.toNat) a.toNat
    liveList := p.liveList.insertIdx (bisectLeft p.startsSorted a.toNat) p.nextRef
    addressUsageCount :=
      Function.update p.addressUsageCount a.toNat (p.addressUsageCount a.toNat + 1) }

/-- The parser inside an ALLOC record, with some of its stack lines read. -/
def building (p : Parser) (a : Addr) (sz : SizeT) (stackLines : List (List Char)) : Parser :=
  { p.withAlloc a sz stackLines with insideAlloc := true, currentBuilding := some p.nextRef }

theorem onAllocHeader_eq (a : Addr) (sz : SizeT) :
    onAllocHeader { p with insideAlloc := true, currentBuilding := none } (printHex a)
      (printDec sz) = p.building a sz [] := by
  have hdec : Nat.toDigits 10 sz.toNat = printDec sz := rfl
  simp [onAllocHeader, add, building, withAlloc, newAlloc, toLower_printHex, hdec]

theorem onStackLine_building (a : Addr) (sz : SizeT) (stackLines : List (List Char))
    (line : List Char) :
    (p.building a sz stackLines).onStackLine line =
      p.building a sz (stackLines ++ if (rstrip line).isEmpty then [] else [rstrip line]) := by
  unfold onStackLine
  simp only [building]
  split
  · simp
  · simp [withAlloc, newAlloc]

theorem onLines_trace {trace : ExeContext} (h : ∀ line ∈ trace, PlainLine line) (a : Addr)
    (sz : SizeT) (stackLines : List (List Char)) :
    (p.building a sz stackLines).onLines (trace.map (· ++ ['\n'])) =
      .ok (p.building a sz (stackLines ++ cleanTrace trace)) := by
  induction trace generalizing stackLines with
  | nil => simp [onLines, cleanTrace, pure, Except.pure]
  | cons line trace ih =>
    have hline := onLine_plain (p := p.building a sz stackLines) (h line List.mem_cons_self)
    have hinside : (p.building a sz stackLines).insideAlloc = true := rfl
    rw [hinside, if_pos rfl, onStackLine_building] at hline
    have htrace := ih (fun l hl => h l (List.mem_cons_of_mem _ hl))
    rw [List.map_cons, onLines_cons, hline]
    simp only [Except.bind, htrace]
    congr 2
    unfold cleanTrace
    by_cases hempty : (rstrip (line ++ ['\n'])).isEmpty = true <;> simp [hempty]

/-- **An ALLOC record** adds an allocation and writes the header of its file. -/
theorem onLines_alloc (hp : p.Idle) (a : Addr) (sz : SizeT) (ec : Option ExeContext)
    {trace : ExeContext} (htrace : (LogEntry.alloc a sz ec).trace = trace)
    (h : ∀ line ∈ trace, PlainLine line) :
    p.onLines (recordLines (.alloc a sz ec)) =
      ((if (cleanTrace trace).isEmpty then .ok p.fileCache
        else p.fileCache.writeLine (p.newAlloc a sz (cleanTrace trace)).tmpPath
          (headerText (cleanTrace trace))).map
        fun fileCache => { p.withAlloc a sz (cleanTrace trace) with fileCache := fileCache }) := by
  have hlines : recordLines (.alloc a sz ec) =
      ("===ALLOC START===".toList ++ ['\n']) :: (printHeader a sz ++ ['\n']) ::
        (trace.map (· ++ ['\n']) ++ ["===ALLOC END===".toList ++ ['\n']]) := by
    simp [recordLines, LogEntry.print, ← htrace, LogEntry.trace]
  have hstart : p.onLine ("===ALLOC START===".toList ++ ['\n']) =
      .ok { p with insideAlloc := true, currentBuilding := none } := rfl
  have hend : ∀ q : Parser, q.onLine ("===ALLOC END===".toList ++ ['\n']) = q.onAllocEnd :=
    fun _ => rfl
  have hheader := onLine_header (p := { p with insideAlloc := true, currentBuilding := none }) a sz
  rw [if_pos rfl, onAllocHeader_eq] at hheader
  rw [hlines, onLines_cons, hstart]
  simp only [Except.bind]
  rw [onLines_cons, hheader]
  simp only [Except.bind]
  rw [onLines_append, onLines_trace h a sz []]
  simp only [Except.bind, onLines_singleton, hend, List.nil_append]
  have hobj : (p.building a sz (cleanTrace trace)).objects p.nextRef =
      p.newAlloc a sz (cleanTrace trace) := by
    simp [building, withAlloc]
  have hdone : ∀ fileCache, ({ p.building a sz (cleanTrace trace) with
      fileCache := fileCache, insideAlloc := false, currentBuilding := none } : Parser) =
      { p.withAlloc a sz (cleanTrace trace) with fileCache := fileCache } := by
    intro fileCache
    simp [building, withAlloc, hp.insideAlloc, hp.currentBuilding]
  unfold onAllocEnd
  have hcur : (p.building a sz (cleanTrace trace)).currentBuilding = some p.nextRef := rfl
  have hcache : (p.building a sz (cleanTrace trace)).fileCache = p.fileCache := rfl
  have hstack : (p.newAlloc a sz (cleanTrace trace)).stackLines = cleanTrace trace := rfl
  rw [hcur]
  simp only [hobj, hcache, hstack]
  split
  · simp only [pure_bind]
    exact congrArg Except.ok (hdone _)
  · cases p.fileCache.writeLine (p.newAlloc a sz (cleanTrace trace)).tmpPath
      (headerText (cleanTrace trace)) with
    | error e => rfl
    | ok fileCache => exact congrArg Except.ok (hdone _)

/-- A FREE header is handled in the same way inside and outside of a FREE record. -/
theorem onFreeHeader_insideFree (b : Bool) (startHex : List Char) :
    onFreeHeader { p with insideFree := b } startHex =
      (p.onFreeHeader startHex).map fun q => { q with insideFree := b } := by
  unfold onFreeHeader
  cases (p.liveAllocs (numeral 16 hexVal startHex)).getLast? with
  | none => rfl
  | some ref =>
    simp only [finalize, remove]
    cases (p.objects ref).closeAndFinalize p.fileCache with
    | error e => rfl
    | ok fileCache =>
      simp only [bind, Except.bind]
      split
      · split <;> rfl
      · rfl

/-- The end of an allocation leaves the parser between the same lines. -/
theorem Idle.onFreeHeader (hp : p.Idle) {startHex : List Char} {q : Parser}
    (h : p.onFreeHeader startHex = .ok q) : q.Idle := by
  unfold Parser.onFreeHeader at h
  split at h
  · rename_i ref hlast
    simp only [finalize, remove] at h
    cases hclose : (p.objects ref).closeAndFinalize p.fileCache with
    | error e =>
      rw [hclose] at h
      cases h
    | ok fileCache =>
      rw [hclose] at h
      simp only [bind, Except.bind] at h
      split at h
      · split at h
        · cases h
          exact ⟨hp.insideAlloc, hp.insideFree, hp.currentBuilding⟩
        · cases h
      · cases h
  · cases h
    exact hp

theorem onLines_skip {trace : ExeContext} (h : ∀ line ∈ trace, PlainLine line)
    (hp : p.insideAlloc = false) : p.onLines (trace.map (· ++ ['\n'])) = .ok p := by
  induction trace with
  | nil => rfl
  | cons line trace ih =>
    rw [List.map_cons, onLines_cons, onLine_plain (h line List.mem_cons_self), hp]
    exact ih fun l hl => h l (List.mem_cons_of_mem _ hl)

/-- **A FREE record** ends the newest allocation of its start address. -/
theorem onLines_free (hp : p.Idle) (a : Addr) (sz : SizeT) (ec : Option ExeContext)
    (h : (LogEntry.free a sz ec).Plain) :
    p.onLines (recordLines (.free a sz ec)) = p.onFreeHeader (printHex a) := by
  have hlines : recordLines (.free a sz ec) =
      ("===FREE START===".toList ++ ['\n']) :: (printHeader a sz ++ ['\n']) ::
        ((LogEntry.free a sz ec).trace.map (· ++ ['\n']) ++
          ["===FREE END===".toList ++ ['\n']]) := by
    simp [recordLines, LogEntry.print, LogEntry.trace]
  have hstart : p.onLine ("===FREE START===".toList ++ ['\n']) =
    .ok { p with insideFree := true } :=
    rfl
  have hend : ∀ q : Parser,
      q.onLine ("===FREE END===".toList ++ ['\n']) = .ok { q with insideFree := false } :=
        fun _ => rfl
  have hheader := onLine_header (p := { p with insideFree := true }) a sz
  rw [if_neg (by simp [hp.insideAlloc]), if_pos rfl, onFreeHeader_insideFree] at hheader
  rw [hlines, onLines_cons, hstart]
  simp only [Except.bind]
  rw [onLines_cons, hheader]
  cases hfree : p.onFreeHeader (printHex a) with
  | error e => rfl
  | ok q =>
    have hq : q.Idle := hp.onFreeHeader hfree
    have hskip := onLines_skip (p := { q with insideFree := true }) h hq.insideAlloc
    simp only [Except.map, Except.bind]
    rw [onLines_append, hskip]
    simp only [Except.bind, onLines_singleton, hend]
    rw [← hq.insideFree]

end Parser

end Memlog
