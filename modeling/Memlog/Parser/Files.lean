import Memlog.Parser.Refine

/-!
# What is in the output directory

A directory that is empty at first holds, after any log that the parser accepts, one file for each
ALLOC record: under a temporary name while the record is live, and afterwards under its own name if
it has a store (`Filed.run`). At the end only the latter are left (`Filed.files_finish`).
-/

namespace Memlog

open Lib

/-! ## The file of a record -/

namespace Record

/-- The lines of the stores. -/
def storeText (r : Record) : List Char :=
  r.stores.flatMap fun st => LiveAlloc.storeLine (r.offset st.1) (printHex st.2)

/-- The stack lines as a header, then the stores as offsets and values. -/
def content (r : Record) : List Char := Parser.headerText r.stackLines ++ r.storeText

theorem content_addStore (r : Record) (a : Addr) (v : HWord) :
    (r.addStore a v).content = r.content ++ LiveAlloc.storeLine (r.offset a) (printHex v) := by
  change Parser.headerText r.stackLines ++ (r.stores ++ [(a, v)]).flatMap (fun st =>
    LiveAlloc.storeLine (r.offset st.1) (printHex st.2)) = _
  simp [content, storeText]

theorem storeLine_ne_nil (offset : Nat) (valueHex : List Char) :
    LiveAlloc.storeLine offset valueHex ≠ [] := by
  simp [LiveAlloc.storeLine]

theorem content_ne_nil {r : Record} (h : r.stores ≠ []) : r.content ≠ [] := by
  obtain ⟨st, sts, hcons⟩ := List.exists_cons_of_ne_nil h
  intro hnil
  have htext : r.storeText = [] := (List.append_eq_nil_iff.1 hnil).2
  rw [storeText, hcons, List.flatMap_cons] at htext
  exact storeLine_ne_nil _ _ (List.append_eq_nil_iff.1 htext).1

end Record

namespace Ledger

/-- The file of a record, if it has one. -/
def pathOf (l : Ledger) (i : Ref) : Option Path :=
  if i ∈ l.live then if (l.record i).content = [] then none else some (l.object i).tmpPath
  else if (l.record i).stores = [] then none else some (l.object i).target

/-- The directory holds the files of the records and nothing else. -/
def Filed (l : Ledger) : Prop :=
  ∀ path text, l.files path = some text ↔
    ∃ i < l.records.length, l.pathOf i = some path ∧ text = (l.record i).content

variable {l l' : Ledger} {i j : Ref} {path : Path}

theorem pathOf_live (h : i ∈ l.live) (hpath : l.pathOf i = some path) :
    path = (l.object i).tmpPath := by
  unfold pathOf at hpath
  rw [if_pos h] at hpath
  split at hpath
  · cases hpath
  · exact (Option.some.inj hpath).symm

theorem pathOf_not_live (h : i ∉ l.live) (hpath : l.pathOf i = some path) :
    path = (l.object i).target := by
  unfold pathOf at hpath
  rw [if_neg h] at hpath
  split at hpath
  · cases hpath
  · exact (Option.some.inj hpath).symm

/-- No two records share a file. -/
theorem pathOf_inj (hi : i < l.records.length) (hj : j < l.records.length)
    (hpi : l.pathOf i = some path) (hpj : l.pathOf j = some path) : i = j := by
  by_contra hne
  by_cases hil : i ∈ l.live <;> by_cases hjl : j ∈ l.live
  · exact tmpPath_ne hi hj hne ((pathOf_live hil hpi).symm.trans (pathOf_live hjl hpj))
  · exact Record.tmpPath_ne_target ((pathOf_live hil hpi).symm.trans (pathOf_not_live hjl hpj))
  · exact Record.tmpPath_ne_target ((pathOf_live hjl hpj).symm.trans (pathOf_not_live hil hpi))
  · exact target_ne hi hj hne ((pathOf_not_live hil hpi).symm.trans (pathOf_not_live hjl hpj))

/-- No other record has the temporary name of a live one. -/
theorem Filed.tmpPath (h : l.Filed) (hok : l.Ok) (hi : i ∈ l.live) :
    l.files (l.object i).tmpPath =
      if (l.record i).content = [] then none else some (l.record i).content := by
  have hlt := hok.lt_length i hi
  split
  · rename_i hnil
    cases hfile : l.files (l.object i).tmpPath with
    | none => rfl
    | some text =>
      obtain ⟨j, hj, hpath, -⟩ := (h _ _).1 hfile
      have hji : j = i := by
        by_contra hne
        by_cases hjl : j ∈ l.live
        · exact tmpPath_ne hlt hj (Ne.symm hne) (pathOf_live hjl hpath)
        · exact Record.tmpPath_ne_target (pathOf_not_live hjl hpath)
      subst hji
      rw [pathOf, if_pos hi, if_pos hnil] at hpath
      cases hpath
  · rename_i hne
    refine (h _ _).2 ⟨i, hlt, ?_, rfl⟩
    rw [pathOf, if_pos hi, if_neg hne]

/-- A step that changes one record and its file. -/
theorem Filed.change (h : l.Filed) (i : Ref)
    (hlength : ∀ j, j < l'.records.length ↔ j = i ∨ j < l.records.length)
    (hkeep : ∀ j < l.records.length, j ≠ i →
      l'.pathOf j = l.pathOf j ∧ (l'.record j).content = (l.record j).content)
    (hfiles : ∀ path, l'.files path =
      if l'.pathOf i = some path then some (l'.record i).content
      else if i < l.records.length ∧ l.pathOf i = some path then none else l.files path) :
    l'.Filed := by
  intro path text
  have hi' : i < l'.records.length := (hlength i).2 (.inl rfl)
  rw [hfiles path]
  by_cases hnew : l'.pathOf i = some path
  · rw [if_pos hnew]
    constructor
    · rintro ⟨⟩
      exact ⟨i, hi', hnew, rfl⟩
    · rintro ⟨j, hj, hpath, rfl⟩
      rw [pathOf_inj hi' hj hnew hpath]
  rw [if_neg hnew]
  by_cases hold : i < l.records.length ∧ l.pathOf i = some path
  · rw [if_pos hold]
    refine ⟨fun hnone => absurd hnone (by simp), ?_⟩
    rintro ⟨j, hj, hpath, -⟩
    have hne : j ≠ i := by
      rintro rfl
      exact hnew hpath
    have hjl := ((hlength j).1 hj).resolve_left hne
    rw [(hkeep j hjl hne).1] at hpath
    exact absurd (pathOf_inj hjl hold.1 hpath hold.2) hne
  · rw [if_neg hold, h path text]
    constructor
    · rintro ⟨j, hj, hpath, rfl⟩
      have hne : j ≠ i := by
        rintro rfl
        exact hold ⟨hj, hpath⟩
      obtain ⟨hp, hc⟩ := hkeep j hj hne
      exact ⟨j, (hlength j).2 (.inr hj), hp ▸ hpath, hc.symm⟩
    · rintro ⟨j, hj, hpath, rfl⟩
      have hne : j ≠ i := by
        rintro rfl
        exact hnew hpath
      have hjl := ((hlength j).1 hj).resolve_left hne
      obtain ⟨hp, hc⟩ := hkeep j hjl hne
      exact ⟨j, hjl, hp ▸ hpath, hc⟩

/-! ## Steps -/

theorem Filed.addStore (h : l.Filed) (hok : l.Ok) (hi : i ∈ l.live) (a : Addr) (v : HWord) :
    (l.addStore i a v).Filed := by
  have hlt := hok.lt_length i hi
  have hcontent : ((l.addStore i a v).record i).content = (l.record i).content ++
      LiveAlloc.storeLine ((l.record i).offset a) (printHex v) := by
    rw [record_addStore a v hlt, Record.content_addStore]
  have hne : ((l.addStore i a v).record i).content ≠ [] := by
    rw [hcontent]
    exact List.append_ne_nil_of_right_ne_nil _ (Record.storeLine_ne_nil _ _)
  have hpath : (l.addStore i a v).pathOf i = some (l.object i).tmpPath := by
    rw [pathOf, if_pos (show i ∈ (l.addStore i a v).live from hi), if_neg hne, tmpPath_addStore]
  refine h.change i (fun j => ?_) (fun j hj hji => ?_) (fun path => ?_)
  · rw [Ledger.addStore, List.length_modify]
    exact ⟨.inr, fun hj => hj.elim (fun hj => hj ▸ hlt) id⟩
  · have hlive : (l.addStore i a v).live = l.live := rfl
    rw [pathOf, pathOf, object_addStore_ne a v hji, record_addStore_ne a v hji, hlive]
    exact ⟨rfl, rfl⟩
  · rw [hpath, hcontent]
    change Function.update l.files (l.object i).tmpPath _ path = _
    by_cases htmp : path = (l.object i).tmpPath
    · subst htmp
      rw [if_pos rfl, Function.update_self, h.tmpPath hok hi]
      split
      · rename_i hnil
        simp [hnil]
      · rfl
    · rw [if_neg fun heq => htmp (Option.some.inj heq).symm, Function.update_of_ne htmp, if_neg]
      rintro ⟨-, hold⟩
      exact htmp (pathOf_live hi hold)

theorem Filed.addRecord (h : l.Filed) (a : Addr) (sz : SizeT)
    (stackLines : List (List Char)) : (l.addRecord a sz stackLines).Filed := by
  have hnew : l.records.length ∈ (l.push a sz stackLines).live :=
    (perm_live_push a sz stackLines).mem_iff.2 List.mem_cons_self
  have hcontent : ((l.push a sz stackLines).record l.records.length).content =
      Parser.headerText stackLines := by
    rw [record_push_self]
    simp [Record.content, Record.storeText]
  -- the new temporary name is not in use
  have hunused : l.files ((l.push a sz stackLines).object l.records.length).tmpPath = none := by
    cases hfile : l.files ((l.push a sz stackLines).object l.records.length).tmpPath with
    | none => rfl
    | some text =>
      obtain ⟨j, hj, hpath, -⟩ := (h _ _).1 hfile
      have hlast : l.records.length < (l.push a sz stackLines).records.length := by
        simp [Ledger.push]
      have hobj := object_push (l := l) a sz stackLines hj
      by_cases hjl : j ∈ l.live
      · refine absurd (pathOf_live hjl hpath) ?_
        rw [← hobj]
        exact tmpPath_ne hlast (hj.trans hlast) hj.ne'
      · exact absurd (pathOf_not_live hjl hpath) Record.tmpPath_ne_target
  rw [addRecord_eq]
  refine h.change l.records.length (fun j => ?_) (fun j hj hji => ?_) (fun path => ?_)
  · change j < (l.push a sz stackLines).records.length ↔ _
    rw [Ledger.push, List.length_append, List.length_singleton]
    omega
  · have hmem : j ∈ (l.push a sz stackLines).live ↔ j ∈ l.live := by
      rw [(perm_live_push a sz stackLines).mem_iff, List.mem_cons]
      exact ⟨fun hj => hj.resolve_left hji, .inr⟩
    change (l.push a sz stackLines).pathOf j = _ ∧ ((l.push a sz stackLines).record j).content = _
    rw [pathOf, pathOf, record_push a sz stackLines hj, object_push a sz stackLines hj]
    simp only [hmem]
    exact ⟨trivial, trivial⟩
  · have hpath : (l.push a sz stackLines).pathOf l.records.length =
        if Parser.headerText stackLines = [] then none
        else some ((l.push a sz stackLines).object l.records.length).tmpPath := by
      rw [pathOf, if_pos hnew, hcontent]
    change (l.addRecord a sz stackLines).files path =
      if (l.push a sz stackLines).pathOf l.records.length = some path then
        some ((l.push a sz stackLines).record l.records.length).content else _
    rw [hpath, hcontent, if_neg (c := _ ∧ _) fun hlt => lt_irrefl _ hlt.1, Ledger.addRecord]
    by_cases hempty : stackLines = []
    · subst hempty
      simp [Parser.headerText, Ledger.push]
    · have hheader : Parser.headerText stackLines ≠ [] := by
        obtain ⟨sl, sls, rfl⟩ := List.exists_cons_of_ne_nil hempty
        simp [Parser.headerText]
      simp only [List.isEmpty_iff, hempty, if_false, hheader, Files.write, hunused,
        Option.getD_none, List.nil_append]
      by_cases htmp : path = ((l.push a sz stackLines).object l.records.length).tmpPath
      · subst htmp
        simp
      · rw [Function.update_of_ne htmp, if_neg fun heq => htmp (Option.some.inj heq).symm]

theorem Filed.finalize (h : l.Filed) (hok : l.Ok) (hi : i ∈ l.live) : (l.finalize i).Filed := by
  have hlt := hok.lt_length i hi
  have hgone : i ∉ (l.finalize i).live := hok.nodup.not_mem_erase
  have hfile := h.tmpPath hok hi
  refine h.change i (fun j => ?_) (fun j hj hji => ?_) (fun path => ?_)
  · exact ⟨.inr, fun hj => hj.elim (fun hj => hj ▸ hlt) id⟩
  · have hmem : j ∈ (l.finalize i).live ↔ j ∈ l.live := List.mem_erase_of_ne hji
    refine ⟨?_, rfl⟩
    rw [pathOf, pathOf]
    simp only [hmem]
    rfl
  · have hnew : (l.finalize i).pathOf i =
        if (l.record i).stores = [] then none else some (l.object i).target := by
      rw [pathOf, if_neg hgone]
      rfl
    have hcount : (l.object i).storeCount = 0 ↔ (l.record i).stores = [] := List.length_eq_zero_iff
    change (l.object i).finalized l.files path = _
    rw [hnew, LiveAlloc.finalized]
    by_cases hstores : (l.record i).stores = []
    · simp only [hcount, hstores, if_true, reduceCtorEq, if_false, hlt, true_and]
      by_cases htmp : path = (l.object i).tmpPath
      · subst htmp
        rw [Function.update_self, hfile, pathOf, if_pos hi]
        by_cases hnil : (l.record i).content = [] <;> simp [hnil]
      · rw [Function.update_of_ne htmp, if_neg fun hold => htmp (pathOf_live hi hold)]
    · have hne := Record.content_ne_nil hstores
      have hold : l.pathOf i = some (l.object i).tmpPath := by
        rw [pathOf, if_pos hi, if_neg hne]
      rw [if_neg hne] at hfile
      simp only [hcount, hstores, if_false, hold, hlt, true_and, hfile, Option.some.injEq]
      by_cases htarget : path = (l.object i).target
      · subst htarget
        rw [Function.update_self, if_pos rfl]
        rfl
      · rw [Function.update_of_ne htarget, if_neg (Ne.symm htarget)]
        by_cases htmp : path = (l.object i).tmpPath
        · subst htmp
          rw [Function.update_self, if_pos rfl]
        · rw [Function.update_of_ne htmp, if_neg (Ne.symm htmp)]

theorem filed_init : (init fun _ => none).Filed := by
  intro path text
  refine ⟨fun h => absurd h (by simp [init]), ?_⟩
  rintro ⟨i, hi, -⟩
  exact absurd hi (Nat.not_lt_zero i)

theorem Filed.step (h : l.Filed) (hok : l.Ok) (hstacked : l.Stacked) {entry : LogEntry}
    (hstep : l.step entry = some l') : l'.Filed := by
  cases entry with
  | store a v =>
    obtain ⟨i, hfind, rfl⟩ := Option.map_eq_some_iff.1 hstep
    exact h.addStore hok (find_spec hfind).1 a v
  | alloc a sz ec =>
    cases hstep
    exact h.addRecord a sz _
  | free a sz ec =>
    rcases step_free hstep with ⟨-, rfl⟩ | ⟨i, hlast, rfl⟩
    · exact h
    · exact h.finalize hok (hstacked.getLast hlast).1

/-- **After any log** the directory holds the files of the records. -/
theorem Filed.run (h : l.Filed) (hok : l.Ok) (hstacked : l.Stacked) {entries : List LogEntry}
    (hrun : l.run entries = some l') : l'.Filed := by
  induction entries generalizing l with
  | nil =>
    cases hrun
    exact h
  | cons entry entries ih =>
    obtain ⟨l₁, hstep, hrest⟩ := Option.bind_eq_some_iff.1 hrun
    obtain ⟨hok₁, hstacked₁⟩ := hok.step hstacked hstep
    exact ih (h.step hok hstacked hstep) hok₁ hstacked₁ hrest

/-- The end of the parse ends all records and changes no other thing. -/
theorem foldl_finalize (h : l.Filed) (hok : l.Ok) (refs : List Ref) (hnodup : refs.Nodup)
    (hrefs : ∀ i ∈ refs, i ∈ l.live) :
    (refs.foldl Ledger.finalize l).Filed ∧ (refs.foldl Ledger.finalize l).records = l.records ∧
      ∀ i, i ∈ (refs.foldl Ledger.finalize l).live ↔ i ∈ l.live ∧ i ∉ refs := by
  induction refs generalizing l with
  | nil => exact ⟨h, rfl, fun i => by simp⟩
  | cons ref refs ih =>
    obtain ⟨hnot, hnodup⟩ := List.nodup_cons.1 hnodup
    have href := hrefs ref List.mem_cons_self
    have herase : ∀ i, i ∈ (l.finalize ref).live ↔ i ≠ ref ∧ i ∈ l.live := fun i =>
      hok.nodup.mem_erase_iff
    have hrefs₁ : ∀ i ∈ refs, i ∈ (l.finalize ref).live := by
      intro i hi
      refine (herase i).2 ⟨?_, hrefs i (List.mem_cons_of_mem ref hi)⟩
      rintro rfl
      exact hnot hi
    obtain ⟨hfiled, hrecords, hlive⟩ := ih (h.finalize hok href) (hok.finalize href) hnodup hrefs₁
    refine ⟨hfiled, hrecords, fun i => ?_⟩
    rw [List.foldl_cons, hlive, herase, List.mem_cons, not_or]
    tauto

/-- **At the end** the directory holds the `.stores` files of the records with a store. -/
theorem Filed.files_finish (h : l.Filed) (hok : l.Ok) (path : Path) (text : List Char) :
    (l.live.foldl Ledger.finalize l).files path = some text ↔
      ∃ i < l.records.length, (l.record i).stores ≠ [] ∧ path = (l.object i).target ∧
        text = (l.record i).content := by
  obtain ⟨hfiled, hrecords, hlive⟩ := foldl_finalize h hok l.live hok.nodup fun i hi => hi
  have hrecord : ∀ i, (l.live.foldl Ledger.finalize l).record i = l.record i := fun i => by
    rw [record, hrecords, record]
  have hobject : ∀ i, (l.live.foldl Ledger.finalize l).object i = l.object i := fun i => by
    rw [object, hrecord, usageNum, hrecords, hrecord, object, usageNum]
  rw [hfiled path text, hrecords]
  refine exists_congr fun i => and_congr_right fun _ => ?_
  rw [pathOf, if_neg fun hi => ((hlive i).1 hi).2 ((hlive i).1 hi).1, hrecord, hobject]
  by_cases hstores : (l.record i).stores = []
  · simp [hstores]
  · simp [hstores, eq_comm]

end Ledger

end Memlog
