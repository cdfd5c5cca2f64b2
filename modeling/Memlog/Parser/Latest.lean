import Memlog.Parser.History
import Memlog.Tool.Lookup

/-!
# The latest record of a start address

What happens between the ALLOC record of a block and its removal. As long as no start address is
tracked again while it is tracked, a store into the block that no other region hides is logged and
goes to the file of that record, whatever follows, and after the removal no allocation of the start
address is live (`store_in_latest_record`). When a start address is tracked again, the tool keeps
the old block: `retracked_store_not_logged`.
-/

namespace Memlog

open Lib

/-! ## Records in a run -/

/-- The start address that an action logs an ALLOC record for. -/
def Action.start? : Action → Option Addr
  | track bk => some bk.payload
  | untrack _ _ => none
  | store _ _ => none

namespace History

variable {h : History}

/-- A record with further stores. -/
def Extends (rec rec' : Record) : Prop := ∃ more, rec' = { rec with stores := rec.stores ++ more }

theorem Extends.refl (rec : Record) : Extends rec rec := ⟨[], by simp⟩

theorem Extends.trans {rec₁ rec₂ rec₃ : Record} (h₁ : Extends rec₁ rec₂) (h₂ : Extends rec₂ rec₃) :
    Extends rec₁ rec₃ := by
  obtain ⟨more₁, rfl⟩ := h₁
  obtain ⟨more₂, rfl⟩ := h₂
  exact ⟨more₁ ++ more₂, by simp⟩

theorem Extends.addStore (rec : Record) (a : Addr) (v : HWord) : Extends rec (rec.addStore a v) :=
  ⟨[(a, v)], rfl⟩

/-- An action adds a record or stores, and changes nothing else. -/
theorem step_extends {i : Ref} {rec : Record} (hrec : h.records[i]? = some rec)
    (blocks : List Block) (act : Action) :
    ∃ rec', (h.step blocks act).records[i]? = some rec' ∧ Extends rec rec' := by
  cases act with
  | track bk =>
    refine ⟨rec, ?_, .refl rec⟩
    exact (List.getElem?_append_left (List.getElem?_eq_some_iff.1 hrec).1).trans hrec
  | untrack addr ec => exact ⟨rec, hrec, .refl rec⟩
  | store addr value =>
    simp only [step]
    split
    · rename_i bk hfound
      simp only [List.getElem?_modify, hrec]
      by_cases hlast : h.latest bk.payload = i
      · exact ⟨_, by simp [hlast], .addStore rec addr value⟩
      · exact ⟨rec, by simp [hlast], .refl rec⟩
    · exact ⟨rec, hrec, .refl rec⟩

theorem run_extends {i : Ref} {rec : Record} (hrec : h.records[i]? = some rec) (r : Registry)
    (acts : List Action) : ∃ rec', (h.run r acts).records[i]? = some rec' ∧ Extends rec rec' := by
  induction acts generalizing h r rec with
  | nil => exact ⟨rec, hrec, .refl rec⟩
  | cons act acts ih =>
    obtain ⟨rec₁, hrec₁, hext₁⟩ := step_extends hrec r.blocks act
    obtain ⟨rec₂, hrec₂, hext₂⟩ := ih hrec₁ (r.step act)
    exact ⟨rec₂, hrec₂, hext₁.trans hext₂⟩

theorem map_start_step (h : History) (blocks : List Block) (act : Action) :
    (h.step blocks act).records.map Record.start =
      h.records.map Record.start ++ act.start?.toList := by
  cases act with
  | track bk => simp [step, Action.start?]
  | untrack addr ec => simp [step, Action.start?]
  | store addr value =>
    simp only [step, Action.start?, Option.toList_none, List.append_nil]
    split
    · apply List.ext_getElem?
      intro k
      simp only [List.getElem?_map, List.getElem?_modify]
      cases h.records[k]? with
      | none => rfl
      | some rec =>
        rename_i bk hfound
        by_cases hk : h.latest bk.payload = k <;> simp [hk, Record.addStore]
    · rfl

/-- The start addresses of the records are those of the ALLOC records of the log, in order. -/
theorem map_start_run (h : History) (r : Registry) (acts : List Action) :
    (h.run r acts).records.map Record.start =
      h.records.map Record.start ++ acts.filterMap Action.start? := by
  induction acts generalizing h r with
  | nil => simp [run]
  | cons act acts ih =>
    rw [run, ih, map_start_step, List.append_assoc, List.filterMap_cons]
    cases act.start? <;> rfl

end History

/-- A block stays tracked, with its record the latest of its start address, until it is removed. -/
theorem tracked_until_removed {r : Registry} {h : History} {bk : Block} {acts : List Action}
    (hbk : bk ∈ r.blocks) (hnew : NoRetrack r acts)
    (hkept : ∀ ec, Action.untrack bk.payload ec ∉ acts) :
    bk ∈ (r.run acts).blocks ∧ (h.run r acts).latest bk.payload = h.latest bk.payload := by
  induction acts generalizing r h with
  | nil => exact ⟨hbk, rfl⟩
  | cons act acts ih =>
    have hkept' : ∀ ec, Action.untrack bk.payload ec ∉ acts := fun ec hmem =>
      hkept ec (List.mem_cons_of_mem act hmem)
    have hstep : bk ∈ (r.step act).blocks ∧
        (h.step r.blocks act).latest bk.payload = h.latest bk.payload := by
      cases act with
      | track b =>
        exact ⟨mem_addBlock.2 (.inl hbk), Function.update_of_ne (hnew.1 b rfl bk hbk) ..⟩
      | untrack addr ec =>
        have hne : bk.payload ≠ addr := by
          rintro rfl
          exact hkept ec List.mem_cons_self
        refine ⟨?_, rfl⟩
        simp only [Registry.step]
        split
        · split
          · exact mem_eraseKey.2 ⟨hbk, hne⟩
          · exact hbk
        · exact hbk
      | store addr value =>
        rw [Registry.blocks_store]
        refine ⟨hbk, ?_⟩
        simp only [History.step]
        split <;> rfl
    obtain ⟨hmem, hlatest⟩ := ih (h := h.step r.blocks act) hstep.1 hnew.2 hkept'
    exact ⟨hmem, hlatest.trans hstep.2⟩

/-! ## From the ALLOC record to the removal -/

section Latest

variable {acts₁ acts₂ : List Action} {bk : Block}

/-- The record of a block after it has been tracked for a while. -/
theorem history_of_tracked (hnew : NoRetrack .init (acts₁ ++ .track bk :: acts₂))
    (hkept : ∀ ec, Action.untrack bk.payload ec ∉ acts₂) :
    bk ∈ (Registry.init.run (acts₁ ++ .track bk :: acts₂)).blocks ∧
      (history (acts₁ ++ .track bk :: acts₂)).latest bk.payload = (history acts₁).records.length ∧
      ∃ stores, (history (acts₁ ++ .track bk :: acts₂)).records[(history acts₁).records.length]? =
        some ⟨bk.payload, bk.reqSzB, Parser.cleanTrace bk.allocEc, stores⟩ := by
  obtain ⟨-, hnew₂⟩ := NoRetrack.append.1 hnew
  obtain ⟨hfirst, hnew₂⟩ := hnew₂
  have hbk : bk ∈ ((Registry.init.run acts₁).step (.track bk)).blocks := by
    refine mem_addBlock.2 (.inr ⟨rfl, fun hmem => ?_⟩)
    obtain ⟨b, hb, heq⟩ := List.mem_map.1 hmem
    exact hfirst bk rfl b hb heq
  have hhistory : history (acts₁ ++ .track bk :: acts₂) =
      ((history acts₁).step (Registry.init.run acts₁).blocks (.track bk)).run
        ((Registry.init.run acts₁).step (.track bk)) acts₂ := by
    rw [history, History.run_append]
    rfl
  obtain ⟨hmem, hlatest⟩ := tracked_until_removed
    (h := (history acts₁).step (Registry.init.run acts₁).blocks (.track bk)) hbk hnew₂ hkept
  have hrec : ((history acts₁).step (Registry.init.run acts₁).blocks
      (.track bk)).records[(history acts₁).records.length]? =
        some ⟨bk.payload, bk.reqSzB, Parser.cleanTrace bk.allocEc, []⟩ := by
    simp [History.step]
  obtain ⟨rec', hrec', stores, rfl⟩ :=
    History.run_extends hrec ((Registry.init.run acts₁).step (.track bk)) acts₂
  refine ⟨?_, ?_, stores, ?_⟩
  · rw [Registry.run_append]
    exact hmem
  · rw [hhistory, hlatest]
    exact Function.update_self ..
  · rw [hhistory, hrec']
    rfl

/-- The number of that record counts the ALLOC records of its start address. -/
theorem number_of_tracked (acts₁ : List Action) {records : List Record} {rest : List Addr}
    (hstarts : records.map Record.start = acts₁.filterMap Action.start? ++ rest) (rec : Record) :
    number records (history acts₁).records.length rec =
      (acts₁.filterMap Action.start?).count rec.start + 1 := by
  have hlength : (history acts₁).records.length = (acts₁.filterMap Action.start?).length := by
    have hmap : (history acts₁).records.map Record.start = acts₁.filterMap Action.start? :=
      History.map_start_run .init .init acts₁
    rw [← hmap, List.length_map]
  rw [number, Ledger.countP_start, List.map_take, hstarts, hlength, List.take_left]

end Latest

section Step

variable {acts : List Action} {a : Addr}

theorem registry_cons (acts acts' : List Action) (act : Action) :
    ((Registry.init.run acts).step act).run acts' = Registry.init.run (acts ++ act :: acts') := by
  rw [Registry.run_append]
  rfl

/-- A logged store is added to the record of its block, and stays there. -/
theorem history_store (v : HWord) (acts' : List Action) {bk : Block} {i : Ref} {rec : Record}
    (hfound : lookupBlock a (Registry.init.run acts).blocks = some bk)
    (hlatest : (history acts).latest bk.payload = i)
      (hrec : (history acts).records[i]? = some rec) :
    ∃ after, (history (acts ++ .store a v :: acts')).records[i]? =
      some { rec with stores := rec.stores ++ (a, v) :: after } := by
  have hadd : ((history acts).step (Registry.init.run acts).blocks (.store a v)).records[i]? =
      some (rec.addStore a v) := by
    simp [History.step, hfound, hlatest, hrec]
  obtain ⟨rec', hrec', after, rfl⟩ :=
    History.run_extends hadd ((Registry.init.run acts).step (.store a v)) acts'
  refine ⟨after, ?_⟩
  rw [history, History.run_append]
  refine hrec'.trans ?_
  simp [Record.addStore]

/-- After the removal of a block no allocation that starts at its address is live. -/
theorem not_live_after_untrack {su : Setup} {t t' : Tool} {bk : Block} {who : Caller}
    (href : Refines su t (Registry.init.run acts)) (hnew : NoRetrack .init acts)
    (hplain : ∀ act ∈ acts, ∀ line ∈ act.trace, PlainLine line)
    (htrace : ∀ line ∈ who.ec, PlainLine line)
    (hfound : lookupBlock bk.payload (Registry.init.run acts).blocks = some bk)
    (huntrack : untrackBlock su who bk.payload t = some ((), t')) {maxOpenFiles : Nat}
    (hopen : 1 ≤ maxOpenFiles) (files : Files) :
    ∃ p, (Parser.init maxOpenFiles files).onLines (splitLines (joinLines t'.logLines)) = .ok p ∧
      ∀ ref ∈ p.liveList, (p.objects ref).start ≠ bk.payload.toNat := by
  obtain ⟨t₁, huntrack₁, href₁, -⟩ := untrackBlock_refines href who bk.payload
  rw [huntrack] at huntrack₁
  cases huntrack₁
  have hacts := registry_cons acts [] (.untrack bk.payload who.ec)
  have hnew' : NoRetrack .init (acts ++ [.untrack bk.payload who.ec]) := by
    refine NoRetrack.append.2 ⟨hnew, ?_, trivial⟩
    rintro b ⟨⟩
  have hplain' : ∀ act ∈ acts ++ [.untrack bk.payload who.ec], ∀ line ∈ act.trace,
      PlainLine line := by
    intro act hact
    rcases List.mem_append.1 hact with hact | hact
    · exact hplain act hact
    · rw [List.mem_singleton] at hact
      subst hact
      exact htrace
  rw [← Registry.run_nil (Registry.step _ _), hacts] at href₁
  obtain ⟨p, l, hp, -, hrep, hm⟩ := exists_ledger href₁ hnew' hplain' hopen files
  rw [← hacts] at hm
  refine ⟨p, hp, fun ref hmem hstart => ?_⟩
  rw [hrep.liveList] at hmem
  rw [hrep.objects ref (hm.ok.lt_length ref hmem)] at hstart
  obtain ⟨b, hb, rfl⟩ := (hm.mem_live ref).1 hmem
  -- the block of a live record is tracked, and the removed one is not
  have hb' : b ∈ eraseKey Block.payload bk.payload (Registry.init.run acts).blocks := by
    simpa [Registry.step, hfound] using hb
  refine (mem_eraseKey.1 hb').2 (BitVec.eq_of_toNat_eq ?_)
  rw [← (hm.latest b hb).1]
  exact hstart

end Step

/-- **From the ALLOC record of a block to its removal**, in a run that tracks no start address
again: a store into the block that no region in between hides is logged, and ends up in the file of
that record, which is the latest of its start address; and the removal leaves no allocation of that
start address live in the parser. -/
theorem store_in_latest_record {su : Setup} {m : Mem} {acts₁ acts₂ acts₃ : List Action}
    {t t₁ t₂ t₃ : Tool} {bk : Block} {a : Addr} {v : HWord}
    (hrun : Run su (.init m) (acts₁ ++ .track bk :: acts₂) t)
    (hstore : logStore su a v t = some ((), t₁)) (hrun' : Run su t₁ acts₃ t₂)
    (hfini : mlFini t₂ = some ((), t₃)) (hkept : ∀ ec, Action.untrack bk.payload ec ∉ acts₂)
    (hin : bk.payload.toNat ≤ a.toNat ∧ a.toNat < bk.payload.toNat + bk.reqSzB.toNat)
    (hnew : NoRetrack .init ((acts₁ ++ .track bk :: acts₂) ++ .store a v :: acts₃))
    (hend : bk.payload.toNat + bk.reqSzB.toNat < 2 ^ 64)
    (hvisible : ∀ b ∈ (Registry.init.run (acts₁ ++ .track bk :: acts₂)).blocks,
      b.payload ≤ a → b.payload ≤ bk.payload)
    (hplain : ∀ act ∈ (acts₁ ++ .track bk :: acts₂) ++ .store a v :: acts₃,
      ∀ line ∈ act.trace, PlainLine line)
    {maxOpenFiles : Nat} (hopen : 1 ≤ maxOpenFiles) :
    t₁.logLines = t.logLines ++ (LogEntry.store a v).print ∧
    (∃ files before after, parseLog maxOpenFiles (joinLines t₃.out) (fun _ => none) = .ok files ∧
      files (Record.fileName ⟨bk.payload, bk.reqSzB, Parser.cleanTrace bk.allocEc,
          before ++ (a, v) :: after⟩ ((acts₁.filterMap Action.start?).count bk.payload + 1)) =
        some (Record.content ⟨bk.payload, bk.reqSzB, Parser.cleanTrace bk.allocEc,
          before ++ (a, v) :: after⟩)) ∧
    ∀ who t', (∀ line ∈ who.ec, PlainLine line) → untrackBlock su who bk.payload t = some ((), t') →
      ∃ p, (Parser.init maxOpenFiles fun _ => none).onLines (splitLines (joinLines t'.logLines)) =
          .ok p ∧ ∀ ref ∈ p.liveList, (p.objects ref).start ≠ bk.payload.toNat := by
  have href := hrun.refines (Refines.init su m)
  obtain ⟨hnew₁, -⟩ := NoRetrack.append.1 hnew
  obtain ⟨hbk, hlatest, stores, hrec⟩ := history_of_tracked hnew₁ hkept
  have hsorted := href.tracks.sorted
  have hbelow : ∀ b : Addr, b.toNat < bk.payload.toNat + bk.reqSzB.toNat →
      b < bk.payload + bk.reqSzB := by
    intro b hb
    rw [BitVec.lt_def, BitVec.toNat_add, Nat.mod_eq_of_lt hend]
    exact hb
  have hfound : lookupBlock a (Registry.init.run (acts₁ ++ .track bk :: acts₂)).blocks = some bk :=
    (lookupBlock_eq_some hsorted).2 ⟨hbk, hin.1, hvisible, hbelow a hin.2⟩
  obtain ⟨t₁', hstore', href₁, -⟩ := logStore_refines href a v
  rw [hstore] at hstore'
  cases hstore'
  refine ⟨?_, ?_, ?_⟩
  · rw [Tool.logLines, Tool.logLines, href₁.printed, href.printed, Registry.log_step,
      Registry.logged, hfound]
    simp
  · have href₂ := hrun'.refines href₁
    rw [registry_cons] at href₂
    obtain ⟨p, l, hp, hl, hrep, hm⟩ := exists_ledger href₂ hnew hplain hopen fun _ => none
    have hfiled : l.Filed := Ledger.filed_init.run (Ledger.ok_init _) (Ledger.stacked_init _) hl
    obtain ⟨after, hrec'⟩ := history_store v acts₃ hfound hlatest hrec
    have hstarts : (history ((acts₁ ++ .track bk :: acts₂) ++ .store a v :: acts₃)).records.map
        Record.start = acts₁.filterMap Action.start? ++
          (.track bk :: acts₂ ++ .store a v :: acts₃).filterMap Action.start? := by
      rw [← List.filterMap_append, ← List.append_assoc]
      exact History.map_start_run .init .init _
    refine ⟨_, stores, after, ?_, (hm.files_finish hfiled _ _).2 ⟨_, _, hrec', by simp, ?_, rfl⟩⟩
    · have hout : t₃.out = t₂.logLines := by
        cases hfini
        rfl
      rw [hout, parseLog, hp]
      exact hrep.finish hm.ok
    · rw [number_of_tracked acts₁ hstarts]
  · intro who t' htrace huntrack
    have hself := lookupBlock_start hsorted hbk (hbelow _ (hin.1.trans_lt hin.2))
    exact not_live_after_untrack href hnew₁
      (fun act hact => hplain act (List.mem_append_left _ hact)) htrace hself huntrack hopen _

theorem store_in_latest_record_single :
    ∃ t t₁ files before after, Run plainSetup (.init fun _ => 0)
        [.track (clientBlock ⟨someTrace, []⟩ 0x1000 64)] t ∧
      logStore plainSetup 0x100c 0x2a t = some ((), t₁) ∧
      parseLog 1 (joinLines t₁.logLines) (fun _ => none) = .ok files ∧
      files (Record.fileName ⟨0x1000, 64, Parser.cleanTrace someTrace,
          before ++ (0x100c, 0x2a) :: after⟩ 1) =
        some (Record.content ⟨0x1000, 64, Parser.cleanTrace someTrace,
          before ++ (0x100c, 0x2a) :: after⟩) := by
  obtain ⟨t, hrun, href, -⟩ := exists_run (Refines.init plainSetup fun _ => 0)
    [⟨⟨someTrace, []⟩, none, .request (.trackBlock 0x1000 64)⟩]
  have hrun' : Run plainSetup (.init fun _ => 0)
    ([] ++ .track (clientBlock ⟨someTrace, []⟩ 0x1000 64) :: []) t := hrun
  obtain ⟨t₁, hstore, -⟩ := logStore_refines href 0x100c 0x2a
  have hblocks : ∀ b ∈ (Registry.init.run
      ([] ++ .track (clientBlock ⟨someTrace, []⟩ 0x1000 64) :: [])).blocks, b.payload = 0x1000 := by
    decide
  have hnew : NoRetrack .init (([] ++ .track (clientBlock ⟨someTrace, []⟩ 0x1000 64) :: []) ++
      [.store 0x100c 0x2a]) := by
    refine ⟨fun bk _ b hb => absurd hb List.not_mem_nil, ?_, trivial⟩
    rintro bk ⟨⟩
  have hplain : ∀ act ∈ ([] ++ Action.track (clientBlock ⟨someTrace, []⟩ 0x1000 64) :: []) ++
      [.store 0x100c 0x2a], ∀ line ∈ act.trace, PlainLine line := by
    intro act hact
    simp only [List.nil_append, List.cons_append, List.mem_cons, List.not_mem_nil, or_false] at hact
    rcases hact with rfl | rfl
    · exact plain_someTrace
    · exact fun line hline => absurd hline List.not_mem_nil
  obtain ⟨-, ⟨files, before, after, hparse, hfile⟩, -⟩ :=
    store_in_latest_record hrun' hstore (.refl t₁) rfl (by simp) (by decide) hnew (by decide)
      (fun b hb _ => (hblocks b hb).le) hplain (le_refl 1)
  exact ⟨t, t₁, files, before, after, hrun', hstore, hparse, hfile⟩

/-- **Tracked again**: the tool keeps the old region, so a store into the new one is not logged,
although its ALLOC record has been. -/
theorem retracked_store_not_logged :
    ∃ t, Run plainSetup (.init fun _ => 0) (trackTwoActions 0x1000 8 0x1000 64) t ∧
      (Registry.init.run (trackTwoActions 0x1000 8 0x1000 64)).log =
        [.alloc 0x1000 8 (some []), .alloc 0x1000 64 (some [])] ∧
      logStore plainSetup 0x1010 7 t = some ((), t) := by
  obtain ⟨t, hrun, href, -⟩ :=
    exists_run (Refines.init plainSetup fun _ => 0) (trackTwo 0x1000 8 0x1000 64)
  exact ⟨t, hrun, rfl, logStore_of_not_found href (by decide) 7⟩

end Memlog
