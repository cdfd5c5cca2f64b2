import Memlog.Parser.Latest

/-!
# The current record of a block

While a block is tracked, its record collects the stores that are attributed to it (`Current.step`,
`Current.addStores`), each of them (`Current.mem_of_storedTo`). Once it is removed, the record stays
as it is (`History.run_dead`).
-/

namespace Memlog

open Lib

theorem mem_of_lookupBlock {addr : Addr} {rs : List Block} {bk : Block}
    (h : lookupBlock addr rs = some bk) : bk ∈ rs := by
  have hpred : pred Block.payload addr rs = some bk := (Option.filter_eq_some_iff.1 h).1
  exact (List.mem_filter.1 (List.mem_of_getLast? hpred)).1

/-! ## Records without a block -/

namespace History

variable {h : History} {r : Registry} {i : Ref}

/-- No tracked block has the record. -/
def Dead (h : History) (blocks : List Block) (i : Ref) : Prop :=
  i < h.records.length ∧ ∀ b ∈ blocks, h.latest b.payload ≠ i

theorem Dead.step (hdead : h.Dead r.blocks i) (act : Action) :
    (h.step r.blocks act).Dead (r.step act).blocks i ∧
      (h.step r.blocks act).records[i]? = h.records[i]? := by
  obtain ⟨hi, hne⟩ := hdead
  cases act with
  | track bk =>
    have hlen : h.records.length ≠ i := (Nat.ne_of_lt hi).symm
    refine ⟨⟨?_, fun b hb => ?_⟩, List.getElem?_append_left hi⟩
    · simp only [History.step, List.length_append, List.length_singleton]
      exact Nat.lt_succ_of_lt hi
    · simp only [History.step]
      by_cases hkey : b.payload = bk.payload
      · rwa [hkey, Function.update_self]
      · rw [Function.update_of_ne hkey]
        rcases mem_addBlock.1 hb with hb | ⟨rfl, -⟩
        · exact hne b hb
        · exact absurd rfl hkey
  | untrack addr ec =>
    exact ⟨⟨hi, fun b hb => hne b (Registry.mem_of_mem_untrack hb)⟩, rfl⟩
  | store addr value =>
    rw [Registry.blocks_store]
    simp only [History.step]
    cases hfound : lookupBlock addr r.blocks with
    | none => exact ⟨⟨hi, hne⟩, rfl⟩
    | some b =>
      refine ⟨⟨?_, hne⟩, ?_⟩
      · rwa [List.length_modify]
      · have hb := hne b (mem_of_lookupBlock hfound)
        simp [hb]

/-- **The record of a removed block** stays as it is. -/
theorem run_dead (hdead : h.Dead r.blocks i) (acts : List Action) :
    (h.run r acts).records[i]? = h.records[i]? := by
  induction acts generalizing h r with
  | nil => rfl
  | cons act acts ih =>
    obtain ⟨hdead', heq⟩ := hdead.step act
    exact (ih hdead').trans heq

end History

/-! ## Records of tracked blocks -/

section Tracked

variable {acts : List Action} {act : Action} {bk b : Block} {stores : List (Addr × HWord)}

theorem history_concat (acts : List Action) (act : Action) :
    history (acts ++ [act]) = (history acts).step (Registry.init.run acts).blocks act := by
  rw [history, History.run_append]
  rfl

/-- Two tracked blocks have two records. -/
theorem latest_ne (hnew : NoRetrack .init acts) (hbk : bk ∈ (Registry.init.run acts).blocks)
    (hb : b ∈ (Registry.init.run acts).blocks) (hne : b ≠ bk) :
    (history acts).latest b.payload ≠ (history acts).latest bk.payload := by
  obtain ⟨l, -, hm⟩ := (Mirrors.init fun _ => none).run rfl hnew
  intro heq
  have hstart := (hm.latest b hb).1
  have hstart' := (hm.latest bk hbk).1
  rw [← history] at hstart hstart'
  rw [heq, hstart'] at hstart
  exact hne (hm.sorted.eq_of_key hb hbk hstart.symm)

/-- The stores of an action that are attributed to the block. -/
def attributed (blocks : List Block) (bk : Block) : Action → List (Addr × HWord)
  | .track _ => []
  | .untrack _ _ => []
  | .store a v => if lookupBlock a blocks = some bk then [(a, v)] else []

/-- The latest record of the block, with its stores and its number. -/
structure Current (acts : List Action) (bk : Block) (stores : List (Addr × HWord)) : Prop where
  record : (history acts).records[(history acts).latest bk.payload]? =
    some ⟨bk.payload, bk.reqSzB, Parser.cleanTrace bk.allocEc, stores⟩
  number : ((acts.filterMap Action.start?).take ((history acts).latest bk.payload)).count
    bk.payload + 1 = (acts.filterMap Action.start?).count bk.payload

theorem map_start_history (acts : List Action) :
    (history acts).records.map Record.start = acts.filterMap Action.start? :=
  History.map_start_run .init .init acts

theorem filterMap_start_concat (acts : List Action) (act : Action) :
    (acts ++ [act]).filterMap Action.start? =
      acts.filterMap Action.start? ++ act.start?.toList := by
  rw [List.filterMap_append, List.filterMap_cons]
  cases act.start? <;> rfl

theorem Current.lt_length (h : Current acts bk stores) :
    (history acts).latest bk.payload < (acts.filterMap Action.start?).length := by
  rw [← map_start_history, List.length_map]
  exact (List.getElem?_eq_some_iff.1 h.record).1

/-- The record of a block that has just been tracked. -/
theorem Current.track (acts : List Action) (bk : Block) :
    Current (acts ++ [.track bk]) bk [] := by
  have hlatest : (history (acts ++ [.track bk])).latest bk.payload =
      (history acts).records.length := by
    rw [history_concat]
    exact Function.update_self ..
  have hlen : (history acts).records.length = (acts.filterMap Action.start?).length := by
    rw [← map_start_history, List.length_map]
  constructor
  · rw [hlatest, history_concat]
    exact List.getElem?_concat_length
  · rw [hlatest, hlen, filterMap_start_concat]
    simp [Action.start?]

/-- **An action** adds to the record of a tracked block what is attributed to the block. -/
theorem Current.step (h : Current acts bk stores) (hnew : NoRetrack .init (acts ++ [act]))
    (hbk : bk ∈ (Registry.init.run acts).blocks) :
    Current (acts ++ [act]) bk (stores ++ attributed (Registry.init.run acts).blocks bk act) := by
  obtain ⟨hnew₁, hnew₂, -⟩ := NoRetrack.append.1 hnew
  have hlt := h.lt_length
  cases act with
  | track b =>
    have hne : bk.payload ≠ b.payload := hnew₂ b rfl bk hbk
    have hlatest : (history (acts ++ [.track b])).latest bk.payload =
        (history acts).latest bk.payload := by
      rw [history_concat]
      exact Function.update_of_ne hne ..
    rw [attributed, List.append_nil]
    constructor
    · rw [hlatest, history_concat]
      exact (List.getElem?_append_left (List.getElem?_eq_some_iff.1 h.record).1).trans h.record
    · rw [hlatest, filterMap_start_concat, List.take_append_of_le_length hlt.le,
        List.count_append, h.number]
      simp [Action.start?, hne.symm]
  | untrack addr ec =>
    rw [attributed, List.append_nil]
    constructor
    · rw [history_concat]
      exact h.record
    · rw [history_concat, filterMap_start_concat, Action.start?, Option.toList_none,
        List.append_nil]
      exact h.number
  | store a v =>
    have hlatest : (history (acts ++ [.store a v])).latest = (history acts).latest := by
      rw [history_concat]
      simp only [History.step]
      split <;> rfl
    refine ⟨?_, ?_⟩
    · rw [hlatest, history_concat]
      simp only [History.step, attributed]
      cases hfound : lookupBlock a (Registry.init.run acts).blocks with
      | none => simpa using h.record
      | some b =>
        by_cases hb : b = bk
        · subst hb
          simp [h.record, Record.addStore]
        · have hne := latest_ne hnew₁ hbk (mem_of_lookupBlock hfound) hb
          simpa [hb, hne] using h.record
    · rw [hlatest, filterMap_start_concat, Action.start?, Option.toList_none, List.append_nil]
      exact h.number

/-- **Stores** add to the record of a tracked block those that are attributed to it. -/
theorem Current.addStores (h : Current acts bk stores) (hnew : NoRetrack .init acts)
    (hbk : bk ∈ (Registry.init.run acts).blocks) (chunks : List (Addr × HWord)) :
    Current (acts ++ chunks.map fun p => .store p.1 p.2) bk
      (stores ++ chunks.filter fun p =>
        lookupBlock p.1 (Registry.init.run acts).blocks = some bk) := by
  induction chunks generalizing acts stores with
  | nil => simpa using h
  | cons p chunks ih =>
    have hnew' : NoRetrack .init (acts ++ [.store p.1 p.2]) := by
      refine NoRetrack.append.2 ⟨hnew, ?_, trivial⟩
      rintro b ⟨⟩
    have hblocks : (Registry.init.run (acts ++ [.store p.1 p.2])).blocks =
        (Registry.init.run acts).blocks := by
      rw [Registry.run_append]
      exact Registry.blocks_store ..
    have hsplit : attributed (Registry.init.run acts).blocks bk (.store p.1 p.2) ++
        (chunks.filter fun p => lookupBlock p.1 (Registry.init.run acts).blocks = some bk) =
          (p :: chunks).filter fun p =>
            lookupBlock p.1 (Registry.init.run acts).blocks = some bk := by
      rw [attributed, List.filter_cons]
      by_cases hp : lookupBlock p.1 (Registry.init.run acts).blocks = some bk
      · rw [if_pos hp, if_pos (decide_eq_true hp), List.singleton_append]
      · rw [if_neg hp, if_neg (by simpa using hp), List.nil_append]
    have h' := ih (h.step hnew' hbk) hnew' (hblocks ▸ hbk)
    rwa [hblocks, List.append_assoc, List.append_assoc, hsplit] at h'

theorem Current.unique {stores' : List (Addr × HWord)} (h : Current acts bk stores)
    (h' : Current acts bk stores') : stores = stores' := by
  have heq := h.record.symm.trans h'.record
  simpa using heq

/-- A tracked block has a record. -/
theorem exists_current (hnew : NoRetrack .init acts)
    (hbk : bk ∈ (Registry.init.run acts).blocks) : ∃ stores, Current acts bk stores := by
  induction acts using List.reverseRecOn with
  | nil => cases hbk
  | append_singleton acts act ih =>
    rw [Registry.run_append] at hbk
    have hold : bk ∈ (Registry.init.run acts).blocks → ∃ stores,
        Current (acts ++ [act]) bk stores := by
      intro hbk
      obtain ⟨stores, hcurrent⟩ := ih (NoRetrack.append.1 hnew).1 hbk
      exact ⟨_, hcurrent.step hnew hbk⟩
    cases act with
    | track b =>
      rcases mem_addBlock.1 hbk with hbk | ⟨rfl, -⟩
      · exact hold hbk
      · exact ⟨[], .track acts bk⟩
    | untrack addr ec => exact hold (Registry.mem_of_mem_untrack hbk)
    | store a v => exact hold (Registry.blocks_store .. ▸ hbk)

/-- A store to the address was attributed to the block, which has been tracked since. -/
def StoredTo (acts : List Action) (bk : Block) (a : Addr) : Prop :=
  ∃ pre v post, acts = pre ++ .store a v :: post ∧
    lookupBlock a (Registry.init.run pre).blocks = some bk ∧
    ∀ mid, mid <+: post → bk ∈ (Registry.init.run (pre ++ .store a v :: mid)).blocks

/-- The record of a block keeps its stores as long as the block is tracked. -/
theorem Current.grows (h : Current acts bk stores) {post : List Action}
    (hnew : NoRetrack .init (acts ++ post))
    (hbk : ∀ mid, mid <+: post → bk ∈ (Registry.init.run (acts ++ mid)).blocks) :
    ∃ more, Current (acts ++ post) bk (stores ++ more) := by
  induction post using List.reverseRecOn with
  | nil => exact ⟨[], by rwa [List.append_nil, List.append_nil]⟩
  | append_singleton post act ih =>
    have hassoc : acts ++ (post ++ [act]) = acts ++ post ++ [act] := (List.append_assoc ..).symm
    rw [hassoc] at hnew ⊢
    obtain ⟨more, hmore⟩ := ih (NoRetrack.append.1 hnew).1 fun mid hmid =>
      hbk mid (hmid.trans (List.prefix_append post _))
    refine ⟨more ++ attributed (Registry.init.run (acts ++ post)).blocks bk act, ?_⟩
    rw [← List.append_assoc]
    exact hmore.step hnew (hbk post (List.prefix_append post _))

/-- **Every store that was attributed to the block** is in its record. -/
theorem Current.mem_of_storedTo (h : Current acts bk stores) (hnew : NoRetrack .init acts)
    {a : Addr} (ha : StoredTo acts bk a) : ∃ v, (a, v) ∈ stores := by
  obtain ⟨pre, v, post, rfl, hfound, hbk⟩ := ha
  have hsplit : pre ++ .store a v :: post = pre ++ [.store a v] ++ post := List.append_cons ..
  rw [hsplit] at h hnew
  have hnew₁ := (NoRetrack.append.1 hnew).1
  have hbk₀ := mem_of_lookupBlock hfound
  obtain ⟨stores₀, h₀⟩ := exists_current (NoRetrack.append.1 hnew₁).1 hbk₀
  obtain ⟨more, h'⟩ := (h₀.step hnew₁ hbk₀).grows hnew fun mid hmid => by
    rw [← List.append_cons]
    exact hbk mid hmid
  rw [h.unique h', attributed, if_pos hfound]
  exact ⟨v, by simp⟩

/-- No action that follows, or the removal of the block, with nothing before it but new blocks. -/
def Ends (bk : Block) (later : List Action) : Prop :=
  later = [] ∨ ∃ (new : List Block) (ec : ExeContext) (rest : List Action),
    later = new.map .track ++ .untrack bk.payload ec :: rest

theorem Current.addTracks (h : Current acts bk stores) {new : List Block}
    (hnew : NoRetrack .init (acts ++ new.map .track))
    (hbk : bk ∈ (Registry.init.run acts).blocks) :
    Current (acts ++ new.map .track) bk stores := by
  induction new generalizing acts with
  | nil => rwa [List.map_nil, List.append_nil]
  | cons b new ih =>
    rw [List.map_cons, List.append_cons] at hnew ⊢
    have h' := h.step (NoRetrack.append.1 hnew).1 hbk
    rw [attributed, List.append_nil] at h'
    refine ih h' hnew ?_
    rw [Registry.run_append]
    exact mem_addBlock.2 (.inl hbk)

/-- **The record of a block at the end** is the one that it has when it is removed. -/
theorem Current.ends (h : Current acts bk stores) {later : List Action} (hends : Ends bk later)
    (hnew : NoRetrack .init (acts ++ later)) (hbk : bk ∈ (Registry.init.run acts).blocks)
    (hsize : bk.payload < bk.payload + bk.reqSzB) :
    (history (acts ++ later)).records[(history acts).latest bk.payload]? =
      some ⟨bk.payload, bk.reqSzB, Parser.cleanTrace bk.allocEc, stores⟩ := by
  rcases hends with rfl | ⟨new, ec, rest, rfl⟩
  · rw [List.append_nil]
    exact h.record
  · obtain ⟨hnew₁, hnew₂⟩ := NoRetrack.append.1 hnew
    obtain ⟨hnew₂, -⟩ := NoRetrack.append.1 hnew₂
    have hnew' : NoRetrack .init (acts ++ new.map .track) := NoRetrack.append.2 ⟨hnew₁, hnew₂⟩
    obtain ⟨hbk', hlatest⟩ := tracked_until_removed (h := history acts) hbk hnew₂
      fun ec hmem => by simp at hmem
    rw [← Registry.run_append] at hbk'
    have hrun : history (acts ++ new.map .track) =
        (history acts).run (Registry.init.run acts) (new.map .track) := History.run_append ..
    rw [← hrun] at hlatest
    have h' := h.addTracks hnew' hbk
    generalize hacts : acts ++ new.map .track = acts' at h' hnew' hbk' hlatest hrun
    have hsorted : SortedBy Block.payload (Registry.init.run acts').blocks :=
      Registry.sorted_run (r := .init) List.Pairwise.nil acts'
    have hfound := lookupBlock_start hsorted hbk' hsize
    have hdead : ((history acts').step (Registry.init.run acts').blocks
        (.untrack bk.payload ec)).Dead
          ((Registry.init.run acts').step (.untrack bk.payload ec)).blocks
          ((history acts').latest bk.payload) := by
      refine ⟨(List.getElem?_eq_some_iff.1 h'.record).1, fun b hb => ?_⟩
      simp only [Registry.step, hfound, if_true] at hb
      obtain ⟨hb, hne⟩ := mem_eraseKey.1 hb
      exact latest_ne hnew' hbk' hb fun heq => hne (congrArg _ heq)
    rw [← List.append_assoc, hacts, ← hlatest, history, History.run_append]
    exact (History.run_dead hdead rest).trans h'.record

end Tracked

end Memlog
