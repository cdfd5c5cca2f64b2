import Memlog.Parser.Accepts
import Memlog.Parser.Files

/-!
# Which file a store goes to

The history of a run lists its ALLOC records, each with the stores that were logged while the lookup
returned its block. As long as no start address is tracked again while it is still tracked, the
parser reconstructs this history from the text of the log: `parseLog_history` says what files it
leaves.
-/

namespace Memlog

open Lib

/-! ## The history of a run -/

/-- The ALLOC records so far, and the latest one of each start address. -/
structure History where
  records : List Record
  latest : Addr → Ref

namespace History

def init : History := ⟨[], fun _ => 0⟩

/-- What an action adds; `blocks` are the blocks that are tracked before it. -/
def step (h : History) (blocks : List Block) : Action → History
  | .track bk =>
    ⟨h.records ++ [⟨bk.payload, bk.reqSzB, Parser.cleanTrace bk.allocEc, []⟩],
      Function.update h.latest bk.payload h.records.length⟩
  | .untrack _ _ => h
  | .store addr value =>
    match lookupBlock addr blocks with
    | some bk =>
      { h with records := h.records.modify (h.latest bk.payload) fun r => r.addStore addr value }
    | none => h

def run (h : History) (r : Registry) : List Action → History
  | [] => h
  | act :: acts => (h.step r.blocks act).run (r.step act) acts

end History

/-- The history of a run from the start. -/
def history (acts : List Action) : History := History.init.run .init acts

/-- No start address is tracked while a block that starts there is tracked. -/
def NoRetrack (r : Registry) : List Action → Prop
  | [] => True
  | act :: acts =>
    (∀ bk, act = .track bk → ∀ b ∈ r.blocks, b.payload ≠ bk.payload) ∧ NoRetrack (r.step act) acts

theorem History.run_append (h : History) (r : Registry) (acts acts' : List Action) :
    h.run r (acts ++ acts') = (h.run r acts).run (r.run acts) acts' := by
  induction acts generalizing h r with
  | nil => rfl
  | cons act acts ih => exact ih (h.step r.blocks act) (r.step act)

theorem NoRetrack.append {r : Registry} {acts acts' : List Action} :
    NoRetrack r (acts ++ acts') ↔ NoRetrack r acts ∧ NoRetrack (r.run acts) acts' := by
  induction acts generalizing r with
  | nil => exact ⟨fun h => ⟨trivial, h⟩, fun h => h.2⟩
  | cons act acts ih =>
    rw [List.cons_append, NoRetrack, NoRetrack, ih, and_assoc]
    rfl

/-! ## The ledger keeps the history -/

/-- The live records are the latest records of the tracked blocks. -/
structure Mirrors (r : Registry) (h : History) (l : Ledger) : Prop where
  ok : l.Ok
  stacked : l.Stacked
  ordered : l.Ordered
  sorted : SortedBy Block.payload r.blocks
  records : l.records = h.records
  mem_live : ∀ i, i ∈ l.live ↔ ∃ bk ∈ r.blocks, h.latest bk.payload = i
  latest : ∀ bk ∈ r.blocks, (l.record (h.latest bk.payload)).start = bk.payload ∧
    (l.record (h.latest bk.payload)).size = bk.reqSzB

namespace Mirrors

variable {r : Registry} {h : History} {l : Ledger}

theorem init (files : Files) : Mirrors .init .init (.init files) where
  ok := Ledger.ok_init files
  stacked := Ledger.stacked_init files
  ordered := List.Pairwise.nil
  sorted := List.Pairwise.nil
  records := rfl
  mem_live _ := by simp [Ledger.init, Registry.init]
  latest _ hbk := absurd hbk List.not_mem_nil

theorem latest_mem (hm : Mirrors r h l) {bk : Block} (hbk : bk ∈ r.blocks) :
    h.latest bk.payload ∈ l.live := (hm.mem_live _).2 ⟨bk, hbk, rfl⟩

/-- A live record is the latest one of its start address. -/
theorem eq_latest (hm : Mirrors r h l) {i : Ref} (hi : i ∈ l.live) :
    i = h.latest (l.record i).start := by
  obtain ⟨bk, hbk, rfl⟩ := (hm.mem_live i).1 hi
  rw [(hm.latest bk hbk).1]

/-- The parser finds the block that the tool finds. -/
theorem find (hm : Mirrors r h l) {addr : Addr} {bk : Block}
    (hfound : lookupBlock addr r.blocks = some bk) :
    l.find addr.toNat = some (h.latest bk.payload) := by
  obtain ⟨hbk, hle, hmax, hlt⟩ := (lookupBlock_eq_some hm.sorted).1 hfound
  obtain ⟨hstart, hsize⟩ := hm.latest bk hbk
  refine hm.ordered.find (hm.latest_mem hbk) ?_ ?_ ⟨?_, ?_⟩
  · intro j hj hjle
    obtain ⟨b, hb, rfl⟩ := (hm.mem_live j).1 hj
    rw [Ledger.start, (hm.latest b hb).1] at hjle ⊢
    rw [Ledger.start, hstart]
    exact hmax b hb hjle
  · intro j hj hjstart
    rw [hm.eq_latest hj, BitVec.eq_of_toNat_eq hjstart, hstart]
  · rw [hstart]
    exact hle
  · rw [hstart, hsize]
    exact toNat_lt_of_lt_add hlt

theorem track (hm : Mirrors r h l) {bk : Block} (hnew : ∀ b ∈ r.blocks, b.payload ≠ bk.payload) :
    ∃ l', l.run (r.logged (.track bk)) = some l' ∧
      Mirrors (r.step (.track bk)) (h.step r.blocks (.track bk)) l' := by
  have hlen : h.records.length = l.records.length := by rw [hm.records]
  have hblocks : ∀ b, b ∈ addBlock bk r.blocks ↔ b ∈ r.blocks ∨ b = bk := by
    intro b
    have hnot : bk.payload ∉ r.blocks.map Block.payload := by
      intro hmem
      obtain ⟨b, hb, heq⟩ := List.mem_map.1 hmem
      exact hnew b hb heq
    rw [mem_addBlock]
    simp only [hnot, not_false_eq_true, and_true]
  -- the other blocks keep their records
  have hold : ∀ b ∈ r.blocks,
      Function.update h.latest bk.payload h.records.length b.payload = h.latest b.payload :=
        fun b hb =>
    Function.update_of_ne (hnew b hb) ..
  refine ⟨_, Ledger.run_singleton _ _, hm.ok.addRecord .., hm.stacked.addRecord _ _ _ hm.ok,
    hm.ordered.addRecord hm.ok .., Registry.sorted_step hm.sorted _, ?_, ?_, ?_⟩ <;>
  rw [Ledger.addRecord_eq]
  · change l.records ++ _ = h.records ++ _
    rw [hm.records]
    rfl
  · intro i
    change i ∈ (l.push bk.payload bk.reqSzB (Parser.cleanTrace bk.allocEc)).live ↔
      ∃ b ∈ addBlock bk r.blocks, Function.update h.latest bk.payload h.records.length b.payload = i
    rw [(Ledger.perm_live_push ..).mem_iff, List.mem_cons, hm.mem_live]
    constructor
    · rintro (rfl | ⟨b, hb, rfl⟩)
      · exact ⟨bk, (hblocks bk).2 (.inr rfl), (Function.update_self ..).trans hlen⟩
      · exact ⟨b, (hblocks b).2 (.inl hb), hold b hb⟩
    · rintro ⟨b, hb, rfl⟩
      rcases (hblocks b).1 hb with hb | rfl
      · exact .inr ⟨b, hb, (hold b hb).symm⟩
      · exact .inl ((Function.update_self ..).trans hlen)
  · intro b hb
    change ((l.push bk.payload bk.reqSzB (Parser.cleanTrace bk.allocEc)).record
        (Function.update h.latest bk.payload h.records.length b.payload)).start = b.payload ∧
      ((l.push bk.payload bk.reqSzB (Parser.cleanTrace bk.allocEc)).record
        (Function.update h.latest bk.payload h.records.length b.payload)).size = b.reqSzB
    rcases (hblocks b).1 hb with hb | rfl
    · rw [hold b hb, Ledger.record_push _ _ _ (hm.ok.lt_length _ (hm.latest_mem hb))]
      exact hm.latest b hb
    · rw [Function.update_self, hlen, Ledger.record_push_self]
      exact ⟨rfl, rfl⟩

theorem untrack (hm : Mirrors r h l) (addr : Addr) (ec : ExeContext) :
    ∃ l', l.run (r.logged (.untrack addr ec)) = some l' ∧
      Mirrors (r.step (.untrack addr ec)) (h.step r.blocks (.untrack addr ec)) l' := by
  have hsorted := Registry.sorted_step hm.sorted (.untrack addr ec)
  simp only [Registry.logged, Registry.step] at hsorted ⊢
  cases hfound : lookupBlock addr r.blocks with
  | none => exact ⟨l, rfl, hm⟩
  | some bk =>
    simp only [hfound] at hsorted ⊢
    by_cases hpayload : bk.payload = addr
    · simp only [if_pos hpayload] at hsorted ⊢
      have hbk := ((lookupBlock_eq_some hm.sorted).1 hfound).1
      subst hpayload
      -- the record on the stack is the latest one of the block
      have hlast : (l.liveAllocs bk.payload.toNat).getLast? = some (h.latest bk.payload) := by
        have hmem : h.latest bk.payload ∈ l.liveAllocs bk.payload.toNat := by
          rw [(hm.stacked bk.payload.toNat).mem_iff, List.mem_filter, decide_eq_true_eq,
            Ledger.start, (hm.latest bk hbk).1]
          exact ⟨hm.latest_mem hbk, rfl⟩
        cases hlast : (l.liveAllocs bk.payload.toNat).getLast? with
        | none =>
          rw [List.getLast?_eq_none_iff.1 hlast] at hmem
          cases hmem
        | some i =>
          obtain ⟨hi, hstart⟩ := hm.stacked.getLast hlast
          rw [hm.eq_latest hi, BitVec.eq_of_toNat_eq hstart]
      have hlive := hm.latest_mem hbk
      have hstart : l.start (h.latest bk.payload) = bk.payload.toNat := by
        rw [Ledger.start, (hm.latest bk hbk).1]
      rw [Ledger.run_singleton, Ledger.step, hlast]
      refine ⟨_, rfl, hm.ok.finalize hlive, hm.stacked.finalize hm.ok hlive (hstart.symm ▸ hlast),
        hm.ordered.finalize _, hsorted, hm.records, fun i => ?_, fun b hb => ?_⟩
      · change i ∈ l.live.erase (h.latest bk.payload) ↔ _
        rw [hm.ok.nodup.mem_erase_iff, hm.mem_live]
        constructor
        · rintro ⟨hne, b, hb, rfl⟩
          refine ⟨b, mem_eraseKey.2 ⟨hb, fun heq => hne ?_⟩, rfl⟩
          rw [heq]
        · rintro ⟨b, hb, rfl⟩
          obtain ⟨hb, hne⟩ := mem_eraseKey.1 hb
          refine ⟨fun heq => hne ?_, b, hb, rfl⟩
          have heq' : h.latest b.payload = h.latest bk.payload := heq
          rw [← (hm.latest b hb).1, heq', (hm.latest bk hbk).1]
      · exact hm.latest b (mem_eraseKey.1 hb).1
    · simp only [if_neg hpayload]
      exact ⟨l, rfl, hm⟩

theorem store (hm : Mirrors r h l) (addr : Addr) (value : HWord) :
    ∃ l', l.run (r.logged (.store addr value)) = some l' ∧
      Mirrors (r.step (.store addr value)) (h.step r.blocks (.store addr value)) l' := by
  simp only [Registry.logged, Registry.step, History.step]
  cases hfound : lookupBlock addr r.blocks with
  | none => exact ⟨l, rfl, hm⟩
  | some bk =>
    simp only [Option.isSome_some, if_true]
    refine ⟨l.addStore (h.latest bk.payload) addr value, ?_, hm.ok.addStore ..,
      hm.stacked.addStore addr value _, hm.ordered.addStore .., hm.sorted, ?_, hm.mem_live, ?_⟩
    · rw [Ledger.run_singleton, Ledger.step, hm.find hfound]
      rfl
    · rw [← hm.records]
      rfl
    · intro b hb
      change ((l.addStore (h.latest bk.payload) addr value).record (h.latest b.payload)).start = _ ∧
        ((l.addStore (h.latest bk.payload) addr value).record (h.latest b.payload)).size = _
      rw [Ledger.start_record_addStore, Ledger.size_record_addStore]
      exact hm.latest b hb

/-- **One action** of the tool, unless it tracks a start address again. -/
theorem step (hm : Mirrors r h l) {act : Action}
    (hnew : ∀ bk, act = .track bk → ∀ b ∈ r.blocks, b.payload ≠ bk.payload) :
    ∃ l', l.run (r.logged act) = some l' ∧ Mirrors (r.step act) (h.step r.blocks act) l' := by
  cases act with
  | track bk => exact hm.track (hnew bk rfl)
  | untrack addr ec => exact hm.untrack addr ec
  | store addr value => exact hm.store addr value

/-- **A run** of the tool that tracks no start address again: the parser's ledger is its history. -/
theorem run {l₀ : Ledger} (hm : Mirrors r h l) (hlog : l₀.run r.log = some l) {acts : List Action}
    (hnew : NoRetrack r acts) :
    ∃ l', l₀.run (r.run acts).log = some l' ∧ Mirrors (r.run acts) (h.run r acts) l' := by
  induction acts generalizing r h l with
  | nil => exact ⟨l, hlog, hm⟩
  | cons act acts ih =>
    obtain ⟨l₁, hl₁, hm₁⟩ := hm.step hnew.1
    refine ih hm₁ ?_ hnew.2
    rw [Registry.log_step, Ledger.run_append hlog, hl₁]

end Mirrors

/-! ## The files of a run -/

namespace Record

/-- How the stores of a record are aligned. -/
def alignment (r : Record) : List Char :=
  if r.stores.all fun st => 8 ∣ r.offset st.1 then "64bits".toList
  else if r.stores.all fun st => 4 ∣ r.offset st.1 then "32bits".toList
  else "object".toList

/-- The name of the file of a record; `n` is its number among the records of its start address. -/
def fileName (r : Record) (n : Nat) : Path :=
  "0x".toList ++ printHex r.start ++ "_".toList ++ printDec r.size ++ "_".toList ++ r.alignment ++
    "_".toList ++ Nat.toDigits 10 n ++ ".stores".toList

theorem typeName_toLive (r : Record) (n : Nat) : (r.toLive n).typeName = r.alignment := by
  have h32 : (r.toLive n).aligned32 = r.stores.all fun st => decide (4 ∣ r.offset st.1) := by
    simp [toLive, Nat.dvd_iff_mod_eq_zero]
    rfl
  have h64 : (r.toLive n).aligned64 = r.stores.all fun st => decide (8 ∣ r.offset st.1) := by
    simp [toLive, Nat.dvd_iff_mod_eq_zero]
    rfl
  unfold LiveAlloc.typeName alignment
  rw [h32, h64]
  by_cases h8 : (r.stores.all fun st => decide (8 ∣ r.offset st.1)) = true
  · have h4 : (r.stores.all fun st => decide (4 ∣ r.offset st.1)) = true := by
      rw [List.all_eq_true] at h8 ⊢
      intro st hst
      have h := h8 st hst
      rw [decide_eq_true_eq] at h ⊢
      exact Nat.dvd_trans ⟨2, rfl⟩ h
    rw [if_pos h4, if_pos h8, if_pos h8]
  · rw [if_neg h8, if_neg h8]

theorem target_eq_fileName (r : Record) (n : Nat) : (r.toLive n).target = r.fileName n := by
  rw [LiveAlloc.target, typeName_toLive]
  rfl

end Record

/-- The number of a record among the records of its start address. -/
def number (records : List Record) (i : Ref) (r : Record) : Nat :=
  (records.take i).countP (fun r' => r'.start = r.start) + 1

/-- The parser's ledger of a run that tracks no start address again. -/
theorem exists_ledger {su : Setup} {t : Tool} {acts : List Action}
    (href : Refines su t (Registry.init.run acts)) (hnew : NoRetrack .init acts)
    (hplain : ∀ act ∈ acts, ∀ line ∈ act.trace, PlainLine line) {maxOpenFiles : Nat}
    (hopen : 1 ≤ maxOpenFiles) (files : Files) :
    ∃ p l, (Parser.init maxOpenFiles files).onLines (splitLines (joinLines t.logLines)) = .ok p ∧
      (Ledger.init files).run (Registry.init.run acts).log = some l ∧ Represents p l ∧
      Mirrors (Registry.init.run acts) (history acts) l := by
  obtain ⟨-, p, l, hp, hl, hrep, -⟩ := exists_parsed href hplain hopen files
  obtain ⟨l', hl', hm⟩ := (Mirrors.init files).run rfl hnew
  rw [hl] at hl'
  cases hl'
  exact ⟨p, l, hp, hl, hrep, hm⟩

section Finish

variable {r : Registry} {h : History} {l : Ledger}

theorem Mirrors.record (hm : Mirrors r h l) {i : Ref} {rec : Record}
    (hrec : h.records[i]? = some rec) :
    l.record i = rec ∧ l.usageNum i = number h.records i rec := by
  have hrecord : l.record i = rec := Ledger.record_of_getElem? (hm.records ▸ hrec)
  refine ⟨hrecord, ?_⟩
  rw [Ledger.usageNum, hrecord, hm.records]
  rfl

/-- Two records have two file names. -/
theorem Mirrors.fileName_inj (hm : Mirrors r h l) {i j : Ref} {rec rec' : Record}
    (hi : h.records[i]? = some rec) (hj : h.records[j]? = some rec')
    (hname : rec.fileName (number h.records i rec) = rec'.fileName (number h.records j rec')) :
    i = j := by
  obtain ⟨hreci, hnumi⟩ := hm.record hi
  obtain ⟨hrecj, hnumj⟩ := hm.record hj
  have hlt : ∀ {k : Ref} {rec : Record}, h.records[k]? = some rec → k < l.records.length := by
    intro k rec hk
    rw [hm.records]
    exact (List.getElem?_eq_some_iff.1 hk).1
  by_contra hne
  refine Ledger.target_ne (hlt hi) (hlt hj) hne ?_
  rw [Ledger.object, Ledger.object, Record.target_eq_fileName, Record.target_eq_fileName, hreci,
    hrecj, hnumi, hnumj, hname]

/-- The directory at the end, in terms of the history. -/
theorem Mirrors.files_finish (hm : Mirrors r h l) (hfiled : l.Filed) (path : Path)
    (text : List Char) :
    (l.live.foldl Ledger.finalize l).files path = some text ↔
      ∃ (i : Ref) (rec : Record), h.records[i]? = some rec ∧ rec.stores ≠ [] ∧
        path = rec.fileName (number h.records i rec) ∧ text = rec.content := by
  rw [hfiled.files_finish hm.ok]
  constructor
  · rintro ⟨i, hi, hstores, rfl, rfl⟩
    have hrec : h.records[i]? = some (l.record i) := hm.records ▸ Ledger.getElem?_record hi
    refine ⟨i, l.record i, hrec, hstores, ?_, rfl⟩
    rw [Ledger.object, Record.target_eq_fileName, (hm.record hrec).2]
  · rintro ⟨i, rec, hrec, hstores, rfl, rfl⟩
    obtain ⟨hrecord, hnumber⟩ := hm.record hrec
    refine ⟨i, ?_, ?_, ?_, ?_⟩
    · rw [hm.records]
      exact (List.getElem?_eq_some_iff.1 hrec).1
    · rw [hrecord]
      exact hstores
    · rw [Ledger.object, Record.target_eq_fileName, hrecord, hnumber]
    · rw [hrecord]

end Finish

/-- **The files of a run** that tracks no start address again: one for each ALLOC record with a
store that was logged while the lookup returned its block, under the record's own name, with the
stack lines as a header and exactly those stores in the order of the run. -/
theorem parseLog_history {su : Setup} {m : Mem} {acts : List Action} {t t' : Tool}
    (hrun : Run su (.init m) acts t) (hfini : mlFini t = some ((), t'))
      (hnew : NoRetrack .init acts)
    (hplain : ∀ act ∈ acts, ∀ line ∈ act.trace, PlainLine line) {maxOpenFiles : Nat}
    (hopen : 1 ≤ maxOpenFiles) :
    ∃ files, parseLog maxOpenFiles (joinLines t'.out) (fun _ => none) = .ok files ∧
      (∀ path text, files path = some text ↔
        ∃ (i : Ref) (rec : Record), (history acts).records[i]? = some rec ∧ rec.stores ≠ [] ∧
          path = rec.fileName (number (history acts).records i rec) ∧ text = rec.content) ∧
      ∀ (i j : Ref) (rec rec' : Record),
        (history acts).records[i]? = some rec → (history acts).records[j]? = some rec' →
        rec.fileName (number (history acts).records i rec) =
          rec'.fileName (number (history acts).records j rec') → i = j := by
  have hout : t'.out = t.logLines := by
    cases hfini
    rfl
  obtain ⟨p, l, hp, hl, hrep, hm⟩ :=
    exists_ledger (hrun.refines (Refines.init su m)) hnew hplain hopen fun _ => none
  have hfiled : l.Filed := Ledger.filed_init.run (Ledger.ok_init _) (Ledger.stacked_init _) hl
  refine ⟨(l.live.foldl Ledger.finalize l).files, ?_, hm.files_finish hfiled, ?_⟩
  · rw [hout, parseLog, hp]
    exact hrep.finish hm.ok
  · intro i j rec rec' hi hj
    exact hm.fileName_inj hi hj

/-- The traced program tracks a region, stores into it, and stops tracking it. -/
def trackStore : List Call :=
  [⟨⟨someTrace, []⟩, none, .request (.trackBlock 0x1000 64)⟩,
    ⟨⟨someTrace, []⟩, none, .logStore 0x100c 0x2a⟩,
    ⟨⟨someTrace, []⟩, none, .request (.untrackBlock 0x1000)⟩]

/-- The actions of `trackStore`. -/
def trackStoreActions : List Action :=
  [.track (clientBlock ⟨someTrace, []⟩ 0x1000 64), .store 0x100c 0x2a, .untrack 0x1000 someTrace]

theorem plain_trackStore : ∀ act ∈ trackStoreActions, ∀ line ∈ act.trace, PlainLine line := by
  intro act hact
  simp only [trackStoreActions, List.mem_cons, List.not_mem_nil, or_false] at hact
  rcases hact with rfl | rfl | rfl
  · exact plain_someTrace
  · exact fun line hline => absurd hline List.not_mem_nil
  · exact plain_someTrace

theorem parseLog_history_trackStore :
    ∃ t, Run plainSetup (.init fun _ => 0) trackStoreActions t ∧ NoRetrack .init trackStoreActions ∧
      ∃ files, parseLog 1 (joinLines t.logLines) (fun _ => none) = .ok files ∧
        files "0x1000_64_32bits_1.stores".toList =
          some "# ==7==    at 0x400: main (a.c:1)\n12:0x2a\n".toList := by
  obtain ⟨t, hrun, -⟩ := exists_run (Refines.init plainSetup fun _ => 0) trackStore
  have hrun' : Run plainSetup (.init fun _ => 0) trackStoreActions t := hrun
  have hnew : NoRetrack .init trackStoreActions := by
    refine ⟨fun bk _ b hb => absurd hb List.not_mem_nil, ?_, ?_, trivial⟩
    · rintro bk ⟨⟩
    · rintro bk ⟨⟩
  obtain ⟨files, hparse, hfiles, -⟩ :=
    parseLog_history hrun' rfl hnew plain_trackStore (le_refl 1)
  refine ⟨t, hrun', hnew, files, hparse, (hfiles _ _).2 ?_⟩
  exact ⟨0, ⟨0x1000, 64, Parser.cleanTrace someTrace, [(0x100c, 0x2a)]⟩, rfl, by decide, by decide,
    by decide⟩

end Memlog
