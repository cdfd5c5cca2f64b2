import Memlog.Parser.Refine
import Memlog.Tool.Registry

/-!
# The parser accepts what the tool prints

Between the insertion of a region into the tool's tree and its removal no FREE record of its start
address is logged, so the parser keeps its allocation, whatever else is tracked and logged at the
same address (`Follows.step`, `Follows.run`). A store is logged only inside a region of the tree,
hence inside a live allocation of the parser: `parseLog_accepts` says that no log of the tool is
refused.
-/

namespace Memlog

open Lib

/-! ## The text of a log -/

theorem oneLine_print {entry : LogEntry} (h : entry.Plain) :
    ∀ line ∈ entry.print, OneLine line := by
  have hheader : ∀ (a : Addr) (sz : SizeT), OneLine (printHeader a sz) := by
    intro a sz
    delta printHeader
    exact (((OneLine.append (by decide) (oneLine_printHex a)).append (by decide)).append
      (oneLine_printDec sz))
  have hrecord : ∀ {first last : Line} {trace : List Line} (a : Addr) (sz : SizeT), OneLine first →
      OneLine last → (∀ line ∈ trace, PlainLine line) →
      ∀ line ∈ first :: printHeader a sz :: (trace ++ [last]), OneLine line := by
    intro first last trace a sz hfirst hlast htrace line hline
    simp only [List.mem_cons, List.mem_append, List.not_mem_nil, or_false] at hline
    rcases hline with rfl | rfl | hline | rfl
    · exact hfirst
    · exact hheader a sz
    · exact (htrace line hline).oneLine
    · exact hlast
  intro line hline
  cases entry with
  | store a v =>
    simp only [LogEntry.print, List.mem_singleton] at hline
    subst hline
    exact ((OneLine.append (by decide) (oneLine_printHex a)).append (by decide)).append
      (oneLine_printHex v)
  | alloc a sz ec => exact hrecord a sz (by decide) (by decide) h line hline
  | free a sz ec => exact hrecord a sz (by decide) (by decide) h line hline

/-- The parser reads a printed log line by line as it was printed. -/
theorem splitLines_log {entries : List LogEntry} (h : ∀ entry ∈ entries, entry.Plain) :
    splitLines (joinLines (entries.flatMap LogEntry.print)) =
      entries.flatMap Parser.recordLines := by
  rw [splitLines_joinLines]
  · rw [List.map_flatMap]
    rfl
  · intro line hline
    obtain ⟨entry, hentry, hline⟩ := List.mem_flatMap.1 hline
    exact oneLine_print (h entry hentry) line hline

/-! ## Records of an action -/

/-- The lines of the stack trace that an action logs. -/
def Action.trace : Action → ExeContext
  | track bk => bk.allocEc
  | untrack _ ec => ec
  | store _ _ => []

/-- The records that an action logs. -/
def Registry.logged (r : Registry) : Action → List LogEntry
  | .track bk => [.alloc bk.payload bk.reqSzB (some bk.allocEc)]
  | .untrack addr ec =>
    match lookupBlock addr r.blocks with
    | some bk => if bk.payload = addr then [.free addr bk.reqSzB (some ec)] else []
    | none => []
  | .store addr value =>
    if (lookupBlock addr r.blocks).isSome then [.store addr value] else []

namespace Registry

variable {r : Registry}

theorem log_step (r : Registry) (act : Action) : (r.step act).log = r.log ++ r.logged act := by
  cases act with
  | track bk => rfl
  | untrack addr ec =>
    simp only [step, logged]
    cases lookupBlock addr r.blocks with
    | none => simp
    | some bk => by_cases hstart : bk.payload = addr <;> simp [hstart]
  | store addr value =>
    simp only [step, logged]
    split <;> simp

theorem plain_logged {act : Action} (h : ∀ line ∈ act.trace, PlainLine line) :
    ∀ entry ∈ r.logged act, entry.Plain := by
  intro entry hentry
  cases act with
  | track bk =>
    rw [logged, List.mem_singleton] at hentry
    subst hentry
    exact h
  | untrack addr ec =>
    simp only [logged] at hentry
    split at hentry
    · split at hentry
      · rw [List.mem_singleton] at hentry
        subst hentry
        exact h
      · cases hentry
    · cases hentry
  | store addr value =>
    simp only [logged] at hentry
    split at hentry
    · rw [List.mem_singleton] at hentry
      subst hentry
      exact h
    · cases hentry

theorem plain_log {acts : List Action} (h : ∀ act ∈ acts, ∀ line ∈ act.trace, PlainLine line)
    (hlog : ∀ entry ∈ r.log, entry.Plain) : ∀ entry ∈ (r.run acts).log, entry.Plain := by
  induction acts generalizing r with
  | nil => exact hlog
  | cons act acts ih =>
    refine ih (fun act' hact' => h act' (List.mem_cons_of_mem _ hact')) ?_
    intro entry hentry
    rw [log_step, List.mem_append] at hentry
    rcases hentry with hentry | hentry
    · exact hlog entry hentry
    · exact plain_logged (h act List.mem_cons_self) entry hentry

end Registry

/-! ## The ledger follows the tool -/

/-- Every tracked block has a live record with its start address and size. -/
structure Follows (r : Registry) (l : Ledger) : Prop where
  ok : l.Ok
  stacked : l.Stacked
  covers : ∀ bk ∈ r.blocks, ∃ i ∈ l.live,
    (l.record i).start = bk.payload ∧ (l.record i).size = bk.reqSzB
  sorted : SortedBy Block.payload r.blocks

namespace Follows

variable {r : Registry} {l : Ledger}

theorem init (files : Files) : Follows .init (.init files) where
  ok := Ledger.ok_init files
  stacked := Ledger.stacked_init files
  covers _ hbk := absurd hbk List.not_mem_nil
  sorted := List.Pairwise.nil

/-- A store that the tool logs belongs to a live record. -/
theorem find (h : Follows r l) {addr : Addr} {bk : Block}
    (hfound : lookupBlock addr r.blocks = some bk) : ∃ i, l.find addr.toNat = some i := by
  obtain ⟨hbk, hle, -, hlt⟩ := (lookupBlock_eq_some h.sorted).1 hfound
  obtain ⟨i, hi, hstart, hsize⟩ := h.covers bk hbk
  refine Ledger.exists_find hi ⟨?_, ?_⟩
  · rw [hstart]
    exact hle
  · rw [hstart, hsize]
    exact toNat_lt_of_lt_add hlt

theorem track (h : Follows r l) (bk : Block) :
    ∃ l', l.run (r.logged (.track bk)) = some l' ∧ Follows (r.step (.track bk)) l' := by
  refine ⟨_, Ledger.run_singleton _ _, h.ok.addRecord .., h.stacked.addRecord _ _ _ h.ok, ?_,
    Registry.sorted_step h.sorted _⟩
  generalize Parser.cleanTrace (LogEntry.alloc bk.payload bk.reqSzB (some bk.allocEc)).trace =
    stackLines
  rw [Ledger.addRecord_eq]
  have hmem : ∀ {i : Ref}, i = l.records.length ∨ i ∈ l.live →
      i ∈ (l.push bk.payload bk.reqSzB stackLines).live := by
    intro i hi
    rw [(Ledger.perm_live_push ..).mem_iff, List.mem_cons]
    exact hi
  intro b hb
  rcases mem_addBlock.1 hb with hb | ⟨rfl, -⟩
  · obtain ⟨i, hi, hstart, hsize⟩ := h.covers b hb
    refine ⟨i, hmem (.inr hi), ?_⟩
    change ((l.push bk.payload bk.reqSzB stackLines).record i).start = _ ∧
      ((l.push bk.payload bk.reqSzB stackLines).record i).size = _
    rw [Ledger.record_push _ _ _ (h.ok.lt_length i hi)]
    exact ⟨hstart, hsize⟩
  · refine ⟨l.records.length, hmem (.inl rfl), ?_⟩
    change ((l.push b.payload b.reqSzB stackLines).record l.records.length).start = _ ∧
      ((l.push b.payload b.reqSzB stackLines).record l.records.length).size = _
    rw [Ledger.record_push_self]
    exact ⟨rfl, rfl⟩

theorem untrack (h : Follows r l) (addr : Addr) (ec : ExeContext) :
    ∃ l', l.run (r.logged (.untrack addr ec)) = some l' ∧
      Follows (r.step (.untrack addr ec)) l' := by
  have hsorted := Registry.sorted_step h.sorted (.untrack addr ec)
  simp only [Registry.logged, Registry.step] at hsorted ⊢
  cases hfound : lookupBlock addr r.blocks with
  | none => exact ⟨l, rfl, h⟩
  | some bk =>
    simp only [hfound] at hsorted ⊢
    by_cases hpayload : bk.payload = addr
    · simp only [if_pos hpayload] at hsorted ⊢
      rw [Ledger.run_singleton, Ledger.step]
      cases hlast : (l.liveAllocs addr.toNat).getLast? with
      | none =>
        exact ⟨l, rfl, h.ok, h.stacked, fun b hb => h.covers b (mem_eraseKey.1 hb).1, hsorted⟩
      | some i =>
        obtain ⟨hi, hstart⟩ := h.stacked.getLast hlast
        have hlast' := hlast
        rw [← hstart] at hlast'
        refine ⟨_, rfl, h.ok.finalize hi, h.stacked.finalize h.ok hi hlast', ?_, hsorted⟩
        -- the other blocks start elsewhere, so their records are not the one that ends
        intro b hb
        obtain ⟨hb, hne⟩ := mem_eraseKey.1 hb
        obtain ⟨j, hj, hjstart, hjsize⟩ := h.covers b hb
        have hij : j ≠ i := by
          rintro rfl
          apply hne
          rw [← hjstart]
          exact BitVec.eq_of_toNat_eq hstart
        exact ⟨j, (List.mem_erase_of_ne hij).2 hj, hjstart, hjsize⟩
    · simp only [if_neg hpayload]
      exact ⟨l, rfl, h⟩

theorem store (h : Follows r l) (addr : Addr) (value : HWord) :
    ∃ l', l.run (r.logged (.store addr value)) = some l' ∧
      Follows (r.step (.store addr value)) l' := by
  simp only [Registry.logged, Registry.step]
  cases hfound : lookupBlock addr r.blocks with
  | none => exact ⟨l, rfl, h⟩
  | some bk =>
    obtain ⟨i, hi⟩ := h.find hfound
    simp only [Option.isSome_some, if_true]
    refine ⟨l.addStore i addr value, ?_, h.ok.addStore .., h.stacked.addStore addr value i,
      ?_, h.sorted⟩
    · rw [Ledger.run_singleton, Ledger.step, hi]
      rfl
    · intro b hb
      obtain ⟨j, hj, hstart, hsize⟩ := h.covers b hb
      refine ⟨j, hj, ?_⟩
      rw [Ledger.start_record_addStore, Ledger.size_record_addStore]
      exact ⟨hstart, hsize⟩

/-- **One action** of the tool is followed by the ledger. -/
theorem step (h : Follows r l) (act : Action) :
    ∃ l', l.run (r.logged act) = some l' ∧ Follows (r.step act) l' := by
  cases act with
  | track bk => exact h.track bk
  | untrack addr ec => exact h.untrack addr ec
  | store addr value => exact h.store addr value

/-- **A run** of the tool is followed by the ledger: no record is refused. -/
theorem run {l₀ : Ledger} (h : Follows r l) (hlog : l₀.run r.log = some l) (acts : List Action) :
    ∃ l', l₀.run (r.run acts).log = some l' ∧ Follows (r.run acts) l' := by
  induction acts generalizing r l with
  | nil => exact ⟨l, hlog, h⟩
  | cons act acts ih =>
    obtain ⟨l₁, hl₁, h₁⟩ := h.step act
    refine ih h₁ ?_
    rw [Registry.log_step, Ledger.run_append hlog, hl₁]

end Follows

/-! ## Every log is accepted -/

/-- Every block of the tree has a live allocation with its start address and size. -/
def Parser.Covers (p : Parser) (s : Tracked) : Prop :=
  ∀ blocks, Tracks s blocks → ∀ bk ∈ blocks, ∃ ref ∈ p.liveList,
    (p.objects ref).start = bk.payload.toNat ∧ (p.objects ref).size = bk.reqSzB.toNat

theorem Registry.log_prefix (r : Registry) (acts : List Action) : r.log <+: (r.run acts).log := by
  induction acts generalizing r with
  | nil => exact List.prefix_rfl
  | cons act acts ih =>
    have hstep : r.log <+: (r.step act).log := by
      rw [log_step]
      exact List.prefix_append ..
    exact hstep.trans (ih (r.step act))

namespace Parser

variable {p q : Parser}

theorem onLines_prefix {lines lines' : List (List Char)} (h : lines <+: lines')
    (hq : p.onLines lines' = .ok q) : ∃ p', p.onLines lines = .ok p' := by
  obtain ⟨rest, rfl⟩ := h
  rw [onLines_append] at hq
  obtain ⟨p', hp', -⟩ := bind_eq_ok hq
  exact ⟨p', hp'⟩

theorem Aligned.foldlM_finalize (h : p.Aligned) {refs : List Ref}
    (hq : refs.foldlM Parser.finalize p = .ok q) : q.Aligned := by
  induction refs generalizing p with
  | nil =>
    cases hq
    exact h
  | cons ref refs ih =>
    rw [List.foldlM_cons] at hq
    obtain ⟨p', hp', hrest⟩ := bind_eq_ok hq
    exact ih (h.finalize hp') hrest

end Parser

section Accepts

variable {su : Setup} {t : Tool} {acts : List Action}

/-- The parser after the log of a run so far. -/
theorem exists_parsed (href : Refines su t (Registry.init.run acts))
    (hplain : ∀ act ∈ acts, ∀ line ∈ act.trace, PlainLine line) {maxOpenFiles : Nat}
    (hopen : 1 ≤ maxOpenFiles) (files : Files) :
    splitLines (joinLines t.logLines) = (Registry.init.run acts).log.flatMap Parser.recordLines ∧
    ∃ p l, (Parser.init maxOpenFiles files).onLines (splitLines (joinLines t.logLines)) = .ok p ∧
      (Ledger.init files).run (Registry.init.run acts).log = some l ∧
      Represents p l ∧ Follows (Registry.init.run acts) l := by
  have hlog : ∀ entry ∈ (Registry.init.run acts).log, entry.Plain :=
    Registry.plain_log hplain fun entry hentry => absurd hentry List.not_mem_nil
  have hlines : splitLines (joinLines t.logLines) =
      (Registry.init.run acts).log.flatMap Parser.recordLines := by
    rw [Tool.logLines, href.printed, splitLines_log hlog]
  obtain ⟨l, hl, hfollows⟩ := (Follows.init files).run rfl acts
  obtain ⟨p, hp, hrep⟩ := (Represents.init hopen files).run (Ledger.ok_init files)
    (Ledger.stacked_init files) hlog hl
  exact ⟨hlines, p, l, by rw [hlines, hp], hl, hrep, hfollows⟩

end Accepts

/-- **No log is refused.** At every moment of a run, whatever the tool goes on to do: the parser
reads the whole log without an error; its two lists stay in order after every line and while the
allocations that are still live are ended; and when it has read what was logged up to that moment,
it has a live allocation for every region in the tool's tree. -/
theorem parseLog_accepts {su : Setup} {m : Mem} {acts acts' : List Action} {t t₁ t₂ : Tool}
    (hrun : Run su (.init m) acts t) (hrun' : Run su t acts' t₁) (hfini : mlFini t₁ = some ((), t₂))
    (hplain : ∀ act ∈ acts ++ acts', ∀ line ∈ act.trace, PlainLine line) {maxOpenFiles : Nat}
    (hopen : 1 ≤ maxOpenFiles) (files : Files) :
    (∃ files', parseLog maxOpenFiles (joinLines t₂.out) files = .ok files') ∧
    (∀ lines, lines <+: splitLines (joinLines t₂.out) →
      ∃ p, (Parser.init maxOpenFiles files).onLines lines = .ok p ∧ p.Aligned) ∧
    (∀ p, (Parser.init maxOpenFiles files).onLines (splitLines (joinLines t₂.out)) = .ok p →
      ∀ refs, refs <+: p.liveList → ∃ q, refs.foldlM Parser.finalize p = .ok q ∧ q.Aligned) ∧
    splitLines (joinLines t.logLines) <+: splitLines (joinLines t₂.out) ∧
    ∃ p, (Parser.init maxOpenFiles files).onLines (splitLines (joinLines t.logLines)) = .ok p ∧
      p.Covers t.trackedBlocks := by
  have href := hrun.refines (Refines.init su m)
  have href' := hrun'.refines href
  have hout : t₂.out = t₁.logLines := by
    cases hfini
    rfl
  have hacts : ∀ act ∈ acts, ∀ line ∈ act.trace, PlainLine line := fun act hact =>
    hplain act (List.mem_append_left _ hact)
  rw [← Registry.run_append] at href'
  obtain ⟨hlines, p, l, hp, -, hrep, hfollows⟩ := exists_parsed href hacts hopen files
  obtain ⟨hlines', p', l', hp', -, hrep', hfollows'⟩ := exists_parsed href' hplain hopen files
  have haligned := Parser.aligned_init maxOpenFiles files
  have hparse : parseLog maxOpenFiles (joinLines t₁.logLines) files =
      .ok (l'.live.foldl Ledger.finalize l').files := by
    unfold parseLog
    rw [hp']
    exact hrep'.finish hfollows'.ok
  rw [hout]
  refine ⟨⟨_, hparse⟩, ?_, ?_, ?_, p, hp, ?_⟩
  · intro lines hprefix
    obtain ⟨q, hq⟩ := Parser.onLines_prefix hprefix hp'
    exact ⟨q, hq, haligned.onLines hq⟩
  · intro q hq refs hprefix
    rw [hp'] at hq
    cases hq
    rw [hrep'.liveList] at hprefix
    obtain ⟨q, hq, -⟩ := hrep'.foldlM_finalize hfollows'.ok refs
      (hfollows'.ok.nodup.sublist hprefix.sublist) fun i hi => hprefix.subset hi
    exact ⟨q, hq, (haligned.onLines hp').foldlM_finalize hq⟩
  · rw [hlines, hlines', Registry.run_append]
    exact (Registry.log_prefix _ acts').flatMap _
  · intro blocks hblocks bk hbk
    rw [hblocks.unique href.tracks] at hbk
    obtain ⟨i, hi, hstart, hsize⟩ := hfollows.covers bk hbk
    refine ⟨i, hrep.liveList ▸ hi, ?_⟩
    rw [hrep.objects i (hfollows.ok.lt_length i hi), ← hstart, ← hsize]
    exact ⟨rfl, rfl⟩

/-- A stack trace as the core prints it. -/
def someTrace : ExeContext := ["==7==    at 0x400: main (a.c:1)".toList]

theorem plain_someTrace : ∀ line ∈ someTrace, PlainLine line := by
  intro line hline
  rw [someTrace, List.mem_singleton] at hline
  subst hline
  exact CoreLine.plainLine ⟨by decide, _, _, rfl, by decide⟩

/-- The traced program tracks a start address twice, stores there, and stops tracking it. -/
def retrack : List Call :=
  [⟨⟨someTrace, []⟩, none, .request (.trackBlock 0x1000 8)⟩,
    ⟨⟨someTrace, []⟩, none, .request (.trackBlock 0x1000 64)⟩,
    ⟨⟨someTrace, []⟩, none, .logStore 0x1000 0x2a⟩,
    ⟨⟨someTrace, []⟩, none, .request (.untrackBlock 0x1000)⟩]

/-- The actions of `retrack`. -/
def retrackActions : List Action :=
  [.track (clientBlock ⟨someTrace, []⟩ 0x1000 8), .track (clientBlock ⟨someTrace, []⟩ 0x1000 64),
    .store 0x1000 0x2a, .untrack 0x1000 someTrace]

theorem plain_retrack : ∀ act ∈ retrackActions, ∀ line ∈ act.trace, PlainLine line := by
  intro act hact
  simp only [retrackActions, List.mem_cons, List.not_mem_nil, or_false] at hact
  rcases hact with rfl | rfl | rfl | rfl
  · exact plain_someTrace
  · exact plain_someTrace
  · exact fun line hline => absurd hline List.not_mem_nil
  · exact plain_someTrace

theorem parseLog_accepts_retrack :
    ∃ t, Run plainSetup (.init fun _ => 0) retrackActions t ∧
      ∃ files, parseLog 1 (joinLines t.logLines) (fun _ => none) = .ok files := by
  obtain ⟨t, hrun, -⟩ := exists_run (Refines.init plainSetup fun _ => 0) retrack
  have hrun' : Run plainSetup (.init fun _ => 0) retrackActions t := hrun
  have hplain : ∀ act ∈ retrackActions ++ [], ∀ line ∈ act.trace, PlainLine line := plain_retrack
  exact ⟨t, hrun', (parseLog_accepts hrun' (.refl t) rfl hplain (le_refl 1) fun _ => none).1⟩

end Memlog
