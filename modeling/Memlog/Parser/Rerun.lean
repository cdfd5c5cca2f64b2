import Memlog.Parser.Directory

/-!
# Parsing a log again

A run of the parser that is stopped leaves `.stores` files of allocations that it has finalized, and
temporary files of those that were live (`Leftover`). A later run opens the temporary files to
append to them. It asks the same of the files as a run in an empty directory does, so at each moment
its directory is that of the other run with the old temporary files in front (`Beside`,
`Beside.plays`), and at the end the `.stores` files agree exactly if no allocation of the log that
has stores had something in its temporary file (`parseLog_again_iff`).
-/

namespace Memlog

open Lib

/-! ## Interrupted runs -/

/-- The file caches that a run goes through: between two lines of the log, and between two of the
allocations that are finalized after the last line. -/
inductive During (maxOpenFiles : Nat) (text : List Char) (files : Files) : FileCache → Prop where
  | reading {lines rest : List (List Char)} {p : Parser} (hlines : splitLines text = lines ++ rest)
      (h : (Parser.init maxOpenFiles files).onLines lines = .ok p) :
      During maxOpenFiles text files p.fileCache
  | closing {refs rest : List Ref} {p q : Parser}
      (h : (Parser.init maxOpenFiles files).onLines (splitLines text) = .ok p)
      (hrefs : p.liveList = refs ++ rest) (hq : refs.foldlM Parser.finalize p = .ok q) :
      During maxOpenFiles text files q.fileCache

/-- What may be in the directory when a run stops with this cache: of what was written to an open
handle, some of the front has reached the file. -/
def FileCache.Leaves (c : FileCache) (files : Files) : Prop :=
  ∀ path, ∃ flushed, flushed <+: c.pending path ∧ files path = (c.files path).map (· ++ flushed)

/-- A directory in which nothing has happened but interrupted runs on the log. -/
inductive Leftover (text : List Char) : Files → Prop where
  | empty : Leftover text fun _ => none
  | interrupted {maxOpenFiles : Nat} {files files' : Files} {c : FileCache}
      (h : Leftover text files) (hc : During maxOpenFiles text files c)
        (hleaves : c.Leaves files') :
      Leftover text files'

/-- The objects that have a store. -/
def Parser.stored (p : Parser) : List LiveAlloc :=
  ((List.range p.nextRef).map p.objects).filter fun a => a.storeCount ≠ 0

/-- The allocations of a log that have a store. -/
def storedAllocs (text : List Char) : List LiveAlloc :=
  match (Parser.init 1 fun _ => none).onLines (splitLines text) with
  | .ok p => p.stored
  | .error _ => []

/-! ## Two directories side by side -/

/-- What a file holds when something was in it before. -/
def inFront : Option (List Char) → Option (List Char) → Option (List Char)
  | none, text => text
  | some old, text => some (old ++ text.getD [])

theorem inFront_none_right (old : Option (List Char)) : inFront old none = old := by
  cases old with
  | none => rfl
  | some s => exact congrArg some (List.append_nil s)

theorem inFront_write (old text : Option (List Char)) (line : List Char) :
    some ((inFront old text).getD [] ++ line) = inFront old (some (text.getD [] ++ line)) := by
  cases old with
  | none => rfl
  | some s => exact congrArg some (List.append_assoc ..)

/-- Old text in front of a file is seen, unless it is empty. -/
theorem inFront_eq_right_iff (old : Option (List Char)) (text : List Char) :
    inFront old (some text) = some text ↔ old = none ∨ old = some [] := by
  cases old with
  | none => simp [inFront]
  | some s => simp [inFront]

namespace Parser

/-- **The directory of a run that began with `old`**, beside that of a run that began with no files.
-/
structure Beside (old : Files) (p : Parser) (clean files : Files) : Prop where
  live : ∀ r ∈ p.liveList, files (p.objects r).tmpPath =
    inFront (old (p.objects r).tmpPath) (clean (p.objects r).tmpPath)
  done : ∀ i, p.Done i → files (p.objects i).target =
    inFront (old (p.objects i).tmpPath) (clean (p.objects i).target)
  exists_done : ∀ i, p.Done i → ∃ text, clean (p.objects i).target = some text
  other : ∀ q, (∀ i < p.nextRef, q ≠ (p.objects i).tmpPath) →
    (∀ i, p.Done i → q ≠ (p.objects i).target) → files q = old q ∧ clean q = none

variable {p p' : Parser} {op : FileOp} {old clean files : Files}

/-- The step changes no file but the temporary files of objects, and no more objects are done. -/
theorem Beside.congr (h : Beside old p clean files) (hm : p.Moves op p')
    (hnext : p.nextRef ≤ p'.nextRef) (hdone : ∀ i, p'.Done i → p.Done i)
    (hlive : ∀ r ∈ p'.liveList, op.apply files (p'.objects r).tmpPath =
      inFront (old (p'.objects r).tmpPath) (op.apply clean (p'.objects r).tmpPath))
    (hsame : ∀ F : Files, ∀ q, (∀ i < p.nextRef, q ≠ (p.objects i).tmpPath) →
      op.apply F q = F q) : Beside old p' (op.apply clean) (op.apply files) := by
  have htarget : ∀ i, p'.Done i → ∀ F : Files,
      op.apply F (p'.objects i).target = F (p.objects i).target ∧
        (p'.objects i).tmpPath = (p.objects i).tmpPath := by
    intro i hi F
    obtain ⟨-, heq⟩ := (hdone i hi).moves hm
    rw [heq]
    refine ⟨hsame F _ fun j _ heq' => ?_, hm.tmpPath_eq (hdone i hi).lt_nextRef⟩
    exact LiveAlloc.tmpPath_ne_target _ _ heq'.symm
  refine ⟨hlive, fun i hi => ?_, fun i hi => ?_, fun q htmp hq => ?_⟩
  · rw [(htarget i hi files).1, (htarget i hi clean).1, (htarget i hi files).2]
    exact h.done i (hdone i hi)
  · rw [(htarget i hi clean).1]
    exact h.exists_done i (hdone i hi)
  · have htmp' : ∀ i < p.nextRef, q ≠ (p.objects i).tmpPath := by
      intro i hi
      rw [← hm.tmpPath_eq hi]
      exact htmp i (hi.trans_le hnext)
    rw [hsame files q htmp', hsame clean q htmp']
    refine h.other q htmp' fun i hi => ?_
    obtain ⟨hi', heq⟩ := hi.moves hm
    rw [← heq]
    exact hq i hi'

/-- An object is finalized. -/
theorem Beside.finish (ht : p.Tidy) (hclean : p.Holds clean) (h : Beside old p clean files)
    {r : Ref} (hr : r ∈ p.liveList) (hobj : p'.objects = p.objects) (hnext : p'.nextRef = p.nextRef)
    (hlive : p'.liveList = p.liveList.erase r) :
    Beside old p' ((p.objects r).finalized clean) ((p.objects r).finalized files) := by
  have hmem : ∀ i, i ∈ p'.liveList ↔ i ≠ r ∧ i ∈ p.liveList := by
    intro i
    rw [hlive, ht.nodup.mem_erase_iff]
  have hdone : ∀ i, p'.Done i → i ≠ r → p.Done i := by
    intro i hi hne
    exact ⟨hnext ▸ hi.lt_nextRef, fun h => hi.not_live ((hmem i).2 ⟨hne, h⟩), hobj ▸ hi.stored⟩
  have hr' : r < p.nextRef := ht.lt_nextRef r hr
  -- the `.stores` file of another object is not touched
  have hother : ∀ i, p.Done i → i ≠ r → ∀ F : Files,
      (p.objects r).finalized F (p.objects i).target = F (p.objects i).target := by
    intro i hi hne F
    refine LiveAlloc.finalized_of_ne (LiveAlloc.tmpPath_ne_target _ _).symm fun _ heq => ?_
    exact hne (ht.target_inj hi.lt_nextRef hr' heq)
  refine ⟨fun r' hmem' => ?_, fun i hi => ?_, fun i hi => ?_, fun q htmp hq => ?_⟩
  · obtain ⟨hne, hlive'⟩ := (hmem r').1 hmem'
    have hsame : ∀ F : Files, (p.objects r).finalized F (p.objects r').tmpPath =
        F (p.objects r').tmpPath := fun F =>
      LiveAlloc.finalized_of_ne (ht.tmpPath_ne hr hlive' hne) fun _ =>
        LiveAlloc.tmpPath_ne_target _ _
    rw [hobj, hsame, hsame]
    exact h.live r' hlive'
  · by_cases hir : i = r
    · subst hir
      have hcount : (p.objects i).storeCount ≠ 0 := hobj ▸ hi.stored
      rw [hobj, LiveAlloc.finalized_target hcount, LiveAlloc.finalized_target hcount]
      exact h.live i hr
    · rw [hobj, hother i (hdone i hi hir) hir, hother i (hdone i hi hir) hir]
      exact h.done i (hdone i hi hir)
  · by_cases hir : i = r
    · subst hir
      have hcount : (p.objects i).storeCount ≠ 0 := hobj ▸ hi.stored
      rw [hobj, LiveAlloc.finalized_target hcount]
      exact hclean i hr hcount
    · rw [hobj, hother i (hdone i hi hir) hir]
      exact h.exists_done i (hdone i hi hir)
  · rw [hobj, hnext] at htmp
    rw [hobj] at hq
    have hfinished : (p.objects r).storeCount ≠ 0 → p'.Done r := fun hcount =>
      ⟨hnext ▸ hr', fun h => ((hmem r).1 h).1 rfl, hobj ▸ hcount⟩
    have hsame : ∀ F : Files, (p.objects r).finalized F q = F q := fun F =>
      LiveAlloc.finalized_of_ne (htmp r hr') fun hcount => hq r (hfinished hcount)
    rw [hsame, hsame]
    refine h.other q htmp fun i hi => hq i ⟨hnext ▸ hi.lt_nextRef, fun hl => ?_, hobj ▸ hi.stored⟩
    exact hi.not_live ((hmem i).1 hl).2

/-- **One step** of both runs. -/
theorem Beside.moves (ht : p.Tidy) (hclean : p.Holds clean) (h : Beside old p clean files)
    (hm : p.Moves op p') : Beside old p' (op.apply clean) (op.apply files) := by
  have ht' := ht.moves hm
  have hmoves := hm
  cases hm with
  | quiet hobj hnext hlive husage =>
    refine h.congr hmoves hnext.ge (fun i hi => ?_) (fun r hr => ?_) fun F q _ => rfl
    · obtain ⟨lines, hlines⟩ := hobj i
      refine ⟨hnext ▸ hi.lt_nextRef, hlive ▸ hi.not_live, ?_⟩
      have hstored := hi.stored
      rw [hlines] at hstored
      exact hstored
    · rw [hlive] at hr
      rw [hmoves.tmpPath_eq (ht.lt_nextRef r hr)]
      exact h.live r hr
  | @write _ r a text hr ha hobj hnext hlive husage =>
    refine h.congr hmoves hnext.ge (fun i hi => ?_) (fun r' hr' => ?_) fun F q hq => ?_
    · have hnot : i ∉ p.liveList := hlive ▸ hi.not_live
      have hir : i ≠ r := fun heq => hnot (heq ▸ hr)
      have hstored := hi.stored
      rw [hobj, Function.update_of_ne hir] at hstored
      exact ⟨hnext ▸ hi.lt_nextRef, hnot, hstored⟩
    · rw [hlive] at hr'
      rw [hmoves.tmpPath_eq (ht.lt_nextRef r' hr')]
      by_cases hrr : r' = r
      · subst hrr
        simp only [FileOp.apply]
        rw [Files.write_self, Files.write_self, h.live r' hr']
        exact inFront_write ..
      · simp only [FileOp.apply]
        rw [Files.write_of_ne _ _ (ht.tmpPath_ne hr hr' hrr),
          Files.write_of_ne _ _ (ht.tmpPath_ne hr hr' hrr)]
        exact h.live r' hr'
    · exact Files.write_of_ne _ _ (hq r (ht.lt_nextRef r hr))
  | @create _ startHex sizeStr hstart hobj hnext hlive husage =>
    have hlt : p.nextRef < p'.nextRef := hnext ▸ Nat.lt_succ_self _
    refine h.congr hmoves hlt.le (fun i hi => ?_) (fun r hr => ?_) fun F q _ => rfl
    · have hnot := hi.not_live
      rw [hlive.mem_iff, List.mem_cons, not_or] at hnot
      have hi' := hi.lt_nextRef
      rw [hnext] at hi'
      have hstored := hi.stored
      rw [hobj, Function.update_of_ne hnot.1] at hstored
      exact ⟨(Nat.lt_succ_iff_lt_or_eq.1 hi').resolve_right hnot.1, hnot.2, hstored⟩
    · obtain rfl | hmem := List.mem_cons.1 (hlive.mem_iff.1 hr)
      · -- no file of the new object has been seen before
        have hnew : ∀ i < p.nextRef, (p'.objects p.nextRef).tmpPath ≠ (p.objects i).tmpPath := by
          intro i hi heq
          rw [← hmoves.tmpPath_eq hi] at heq
          exact hi.ne' (ht'.tmpPath_inj hlt (hi.trans hlt) heq)
        obtain ⟨hfiles, hnone⟩ := h.other (p'.objects p.nextRef).tmpPath hnew fun i _ =>
          LiveAlloc.tmpPath_ne_target _ _
        simp only [FileOp.apply]
        rw [hfiles, hnone, inFront_none_right]
      · rw [hmoves.tmpPath_eq (ht.lt_nextRef r hmem)]
        exact h.live r hmem
  | finish hr hobj hnext hlive husage => exact h.finish ht hclean hr hobj hnext hlive

/-! ## Runs -/

theorem Beside.plays {ops : List FileOp} (ht : p.Tidy) (hclean : p.Holds clean)
    (h : Beside old p clean files) (hp : p.Plays ops p') :
    Beside old p' (ops.foldl FileOp.apply clean) (ops.foldl FileOp.apply files) := by
  induction hp generalizing clean files with
  | refl p => exact h
  | step hm hp ih => exact ih (ht.moves hm) (hclean.moves ht hm) (h.moves ht hclean hm)

theorem beside_start (old : Files) : Beside old start (fun _ => none) old where
  live _ hr := nomatch hr
  done _ hi := nomatch hi.lt_nextRef
  exists_done _ hi := nomatch hi.lt_nextRef
  other _ _ _ := ⟨rfl, rfl⟩

end Parser

/-! ## The plan of a log -/

namespace Parser

variable {ops : List FileOp} {p : Parser} {maxOpen : Nat} {files : Files} {c : FileCache}

theorem mem_stored {a : LiveAlloc} :
    a ∈ p.stored ↔ ∃ i < p.nextRef, p.objects i = a ∧ a.storeCount ≠ 0 := by
  simp only [stored, List.mem_filter, List.mem_map, List.mem_range, decide_eq_true_eq]
  exact ⟨fun ⟨⟨i, hi, ha⟩, hcount⟩ => ⟨i, hi, ha, hcount⟩,
    fun ⟨i, hi, ha, hcount⟩ => ⟨⟨i, hi, ha⟩, hcount⟩⟩

theorem Done.mem_stored {i : Ref} (h : p.Done i) : p.objects i ∈ p.stored :=
  Parser.mem_stored.2 ⟨i, h.lt_nextRef, rfl, h.stored⟩

end Parser

section Plan

variable {text : List Char} {maxOpen : Nat} {files : Files}

theorem storedAllocs_of_onLines {p : Parser}
    (h : (Parser.init 1 fun _ => none).onLines (splitLines text) = .ok p) :
    storedAllocs text = p.stored := by
  rw [storedAllocs, h]

/-- The tables that lines lead to in one run are those that they lead to in another. -/
theorem exists_onLines {lines : List (List Char)} {p : Parser}
    (h : (Parser.init maxOpen files).onLines lines = .ok p) :
    ∃ ops p', Parser.start.Plays ops p' ∧ p'.Steady ∧
      (∀ c, (Parser.start.withCache c).onLines lines =
        (FileOp.execAll ops c).map p'.withCache) ∧
      FileOp.execAll ops (.init maxOpen files) = .ok p.fileCache ∧ p = p'.withCache p.fileCache ∧
      ∃ c, (Parser.init 1 fun _ => none).onLines lines = .ok (p'.withCache c) := by
  have hplan := Parser.planned_onLines (Parser.steady_init 0 fun _ => none) lines
  obtain ⟨ops, p', hplays, hsteady, hrun, hexec, hp⟩ := hplan.of_ok (c := .init maxOpen files) h
  obtain ⟨c, hclean, -⟩ :=
    (Parser.fitsCache_start le_rfl fun _ => none).execAll (Parser.tidy_init ..) hplays
  refine ⟨ops, p', hplays, hsteady, hrun, hexec, hp, c, ?_⟩
  have hone := hrun (.init 1 fun _ => none)
  rw [hclean] at hone
  exact hone

/-- **One plan for every run** on a log that a run has completed. -/
theorem exists_plan {left : Files} (h : parseLog maxOpen text files = .ok left) :
    ∃ ops p, Parser.start.Plays ops p ∧ p.liveList = [] ∧ storedAllocs text = p.stored ∧
      (∃ q, (Parser.init 1 fun _ => none).onLines (splitLines text) = .ok q) ∧
      ∀ maxOpen files, parseLog maxOpen text files =
        (FileOp.execAll ops (.init maxOpen files)).map fun c => c.closeAll.files := by
  obtain ⟨p, hlines, hfinish⟩ := bind_eq_ok h
  obtain ⟨q, hq, -⟩ := bind_eq_ok hfinish
  obtain ⟨ops, p', hplays, -, hrun, -, hp, c₁, hone⟩ := exists_onLines hlines
  rw [hp] at hq
  obtain ⟨ops', p'', hplays', hclosed, hrun', -⟩ :=
    (Parser.planned_finalizeAll (List.append_nil p'.liveList).symm).of_ok hq
  refine ⟨ops ++ ops', p'', hplays.trans hplays', hclosed.liveList, ?_, ⟨_, hone⟩, fun m F => ?_⟩
  · rw [storedAllocs_of_onLines hone]
    unfold Parser.stored
    rw [hclosed.objects, hclosed.nextRef]
    rfl
  · change ((Parser.start.withCache (.init m F)).onLines (splitLines text) >>= Parser.finish) = _
    rw [hrun, FileOp.execAll_append]
    cases FileOp.execAll ops (.init m F) with
    | error e => rfl
    | ok c =>
      change (p'.liveList.foldlM Parser.finalize (p'.withCache c) >>= _) =
        (FileOp.execAll ops' c).map _
      rw [hrun']
      cases FileOp.execAll ops' c <;> rfl

/-- What a run that is stopped has finalized belongs to allocations of the log. -/
theorem During.exists_plays {c : FileCache} {q : Parser} (h : During maxOpen text files c)
    (hq : (Parser.init 1 fun _ => none).onLines (splitLines text) = .ok q) :
    ∃ ops p, Parser.start.Plays ops p ∧ FileOp.execAll ops (.init maxOpen files) = .ok c ∧
      ∀ i, p.Done i → ∃ a ∈ storedAllocs text, a.target = (p.objects i).target := by
  cases h with
  | @reading lines rest p hlines h =>
    obtain ⟨ops, p₁, hplays, hsteady, -, hexec, -, c₁, hone⟩ := exists_onLines h
    have hwhole : (Parser.init 1 fun _ => none).onLines (lines ++ rest) = .ok q := hlines ▸ hq
    rw [Parser.onLines, List.foldlM_append] at hwhole
    obtain ⟨p₁', hfront, hrest⟩ := bind_eq_ok hwhole
    cases hone.symm.trans hfront
    obtain ⟨ops₂, p₂, hplays₂, -, -, -, hq₂⟩ := (Parser.planned_onLines hsteady rest).of_ok hrest
    refine ⟨ops, p₁, hplays, hexec, fun i hi => ?_⟩
    obtain ⟨hi₂, htarget⟩ := hi.plays hplays₂
    refine ⟨p₂.objects i, ?_, htarget⟩
    rw [storedAllocs_of_onLines hq, hq₂]
    exact hi₂.mem_stored
  | @closing refs rest p q₁ h hrefs hq₁ =>
    obtain ⟨ops, p₁, hplays, -, -, hexec, hp, c₁, hone⟩ := exists_onLines h
    rw [hp] at hq₁
    have hrefs₁ : p₁.liveList = refs ++ rest := by
      rw [← hrefs, hp]
      rfl
    obtain ⟨ops₂, p₂, hplays₂, hclosed, -, hexec₂, -⟩ :=
      (Parser.planned_finalizeAll hrefs₁).of_ok hq₁
    refine ⟨ops ++ ops₂, p₂, hplays.trans hplays₂, ?_, fun i hi => ⟨p₂.objects i, ?_, rfl⟩⟩
    · rw [FileOp.execAll_append, hexec]
      exact hexec₂
    · have hmem := hi.mem_stored
      unfold Parser.stored at hmem
      rw [hclosed.objects, hclosed.nextRef] at hmem
      rw [storedAllocs_of_onLines hone]
      rw [hclosed.objects]
      exact hmem

/-- **The `.stores` files that interrupted runs leave** are files that a whole run makes. -/
theorem Leftover.exists_target {q : Parser} (h : Leftover text files)
    (hq : (Parser.init 1 fun _ => none).onLines (splitLines text) = .ok q) {path : Path}
    (hpath : IsStores path) (hfile : files path ≠ none) :
    ∃ a ∈ storedAllocs text, a.target = path := by
  induction h with
  | empty => exact absurd rfl hfile
  | @interrupted m files files' c h hc hleaves ih =>
    obtain ⟨ops, p, hplays, hexec, hdone⟩ := hc.exists_plays hq
    have hview : c.view path ≠ none := by
      obtain ⟨flushed, -, heq⟩ := hleaves path
      intro hnone
      rw [FileCache.view, Option.map_eq_none_iff] at hnone
      rw [heq, hnone] at hfile
      exact hfile rfl
    have hbeside := (Parser.beside_start files).plays (Parser.tidy_init ..)
      (fun _ hr => by cases hr) hplays
    by_cases hex : ∃ i, p.Done i ∧ path = (p.objects i).target
    · obtain ⟨i, hi, rfl⟩ := hex
      exact hdone i hi
    · obtain ⟨hsame, -⟩ := hbeside.other path
        (fun i _ heq => LiveAlloc.not_isStores_tmpPath _ (heq ▸ hpath))
        fun i hi heq => hex ⟨i, hi, heq⟩
      rw [(hplays.view_eq hexec).1, hsame] at hview
      exact ih hview

end Plan

/-- **Parsing again**: on what interrupted runs have left, a run that is completed makes the
`.stores` files of a run in an empty directory exactly if no allocation that has a store had
something in its temporary file. -/
theorem parseLog_again_iff {text : List Char} {left files : Files} {maxOpenFiles : Nat}
    (hleft : Leftover text left) (h : parseLog maxOpenFiles text left = .ok files) :
    (∃ clean, parseLog maxOpenFiles text (fun _ => none) = .ok clean) ∧
      ∀ maxOpenFiles' clean, parseLog maxOpenFiles' text (fun _ => none) = .ok clean →
        ((∀ path, IsStores path → files path = clean path) ↔
          ∀ a ∈ storedAllocs text, left a.tmpPath = none ∨ left a.tmpPath = some []) := by
  obtain ⟨ops, p, hplays, hlive, hstored, ⟨q, hq⟩, hrun⟩ := exists_plan h
  have hfiles : ∀ {m : Nat} {F F' : Files}, parseLog m text F = .ok F' →
      F' = ops.foldl FileOp.apply F ∧ ∃ c, FileOp.execAll ops (.init m F) = .ok c := by
    intro m F F' hF
    rw [hrun] at hF
    cases hexec : FileOp.execAll ops (.init m F) with
    | error e =>
      rw [hexec] at hF
      cases hF
    | ok c =>
      rw [hexec] at hF
      cases hF
      obtain ⟨hview, hclose⟩ := hplays.view_eq hexec
      exact ⟨hclose.trans hview, c, rfl⟩
  obtain ⟨rfl, c, hexec⟩ := hfiles h
  refine ⟨?_, fun m clean hclean => ?_⟩
  · obtain ⟨c', hc'⟩ := hplays.exists_execAll hexec fun _ => none
    exact ⟨_, (hrun ..).trans (congrArg _ hc')⟩
  obtain ⟨rfl, -⟩ := hfiles hclean
  have hbeside := (Parser.beside_start left).plays (Parser.tidy_init ..)
    (fun _ hr => nomatch hr) hplays
  have hdone : ∀ a ∈ storedAllocs text, ∃ i, p.Done i ∧ p.objects i = a := by
    intro a ha
    rw [hstored, Parser.mem_stored] at ha
    obtain ⟨i, hi, rfl, hcount⟩ := ha
    exact ⟨i, ⟨hi, hlive ▸ List.not_mem_nil, hcount⟩, rfl⟩
  -- a finished allocation shows what was in its temporary file
  have hfile : ∀ i, p.Done i → (ops.foldl FileOp.apply left (p.objects i).target =
      ops.foldl FileOp.apply (fun _ => none) (p.objects i).target ↔
        left (p.objects i).tmpPath = none ∨ left (p.objects i).tmpPath = some []) := by
    intro i hi
    obtain ⟨text', htext'⟩ := hbeside.exists_done i hi
    rw [hbeside.done i hi, htext']
    exact inFront_eq_right_iff ..
  constructor
  · intro hsame a ha
    obtain ⟨i, hi, rfl⟩ := hdone a ha
    exact (hfile i hi).1 (hsame _ (LiveAlloc.isStores_target _))
  · intro hempty path hpath
    by_cases hex : ∃ i, p.Done i ∧ path = (p.objects i).target
    · obtain ⟨i, hi, rfl⟩ := hex
      exact (hfile i hi).2 (hempty _ (hstored ▸ hi.mem_stored))
    · obtain ⟨hsame, hnone⟩ := hbeside.other path
        (fun i _ heq => LiveAlloc.not_isStores_tmpPath _ (heq ▸ hpath))
        fun i hi heq => hex ⟨i, hi, heq⟩
      rw [hsame, hnone]
      by_contra hfile'
      obtain ⟨a, ha, rfl⟩ := hleft.exists_target hq hpath hfile'
      obtain ⟨i, hi, rfl⟩ := hdone a ha
      exact hex ⟨i, hi, rfl⟩

/-! ## Two logs -/

/-- The directory of a run that is stopped after some lines, when its handles have been closed. -/
def stoppedAfter (n : Nat) (text : List Char) : Files :=
  match (Parser.init 512 fun _ => none).onLines ((splitLines text).take n) with
  | .ok p => p.fileCache.view
  | .error _ => fun _ => none

theorem leftover_stoppedAfter (n : Nat) (text : List Char) :
    Leftover text (stoppedAfter n text) := by
  unfold stoppedAfter
  split
  · next p hp =>
    refine .interrupted .empty (.reading (List.take_append_drop n (splitLines text)).symm hp) ?_
    exact fun path => ⟨p.fileCache.pending path, List.prefix_rfl, rfl⟩
  · exact .empty

/-- An allocation that is stored to twice. -/
def twoStores : List Char :=
  ("===ALLOC START===\nStart 0x1000, size 16\n===ALLOC END===\n" ++
    "0x1000 0x1\n0x1008 0x2\n").toList

/-- The same allocation freed, and one after it that is never stored to. -/
def freedAfterStores : List Char :=
  twoStores ++ ("===FREE START===\nStart 0x1000, size 16\n===FREE END===\n" ++
    "===ALLOC START===\nStart 0x2000, size 8\n==1== at main\n===ALLOC END===\n").toList

/-- A run stopped after the last line leaves a `.stores` file and a temporary file with a header,
and neither does harm. -/
theorem parseLog_again_freed :
    stoppedAfter 12 freedAfterStores "0x1000_16_64bits_1.stores".toList =
        some "0:0x1\n8:0x2\n".toList ∧
      stoppedAfter 12 freedAfterStores ".0x2000_8_1.tmp".toList = some "# ==1== at main\n".toList ∧
      ∃ files, parseLog 512 freedAfterStores (stoppedAfter 12 freedAfterStores) = .ok files ∧
        ∃ clean, parseLog 512 freedAfterStores (fun _ => none) = .ok clean ∧
          ∀ path, IsStores path → files path = clean path := by
  refine ⟨by decide +kernel, by decide +kernel, ?_⟩
  have hdone : (parseLog 512 freedAfterStores (stoppedAfter 12 freedAfterStores)).toBool =
      true := by
    decide +kernel
  cases hfiles : parseLog 512 freedAfterStores (stoppedAfter 12 freedAfterStores) with
  | error e =>
    rw [hfiles] at hdone
    cases hdone
  | ok files =>
    obtain ⟨⟨clean, hclean⟩, hsame⟩ :=
      parseLog_again_iff (leftover_stoppedAfter 12 freedAfterStores) hfiles
    exact ⟨files, rfl, clean, hclean, (hsame 512 clean hclean).2 (by decide +kernel)⟩

/-- A run stopped between the two stores: the next one writes the first of them a second time. -/
theorem parseLog_again_twice :
    Leftover twoStores (stoppedAfter 4 twoStores) ∧
      ∃ files clean, parseLog 512 twoStores (stoppedAfter 4 twoStores) = .ok files ∧
        parseLog 512 twoStores (fun _ => none) = .ok clean ∧
        IsStores "0x1000_16_64bits_1.stores".toList ∧
        files "0x1000_16_64bits_1.stores".toList = some "0:0x1\n0:0x1\n8:0x2\n".toList ∧
        clean "0x1000_16_64bits_1.stores".toList = some "0:0x1\n8:0x2\n".toList := by
  have hread : ∀ (left : Files) (text : List Char),
      (parseLog 512 twoStores left).map (fun files => files "0x1000_16_64bits_1.stores".toList) =
        .ok (some text) → ∃ files, parseLog 512 twoStores left = .ok files ∧
          files "0x1000_16_64bits_1.stores".toList = some text := by
    intro left text h
    cases hleft : parseLog 512 twoStores left with
    | error e =>
      rw [hleft] at h
      cases h
    | ok files =>
      rw [hleft] at h
      exact ⟨files, rfl, Except.ok.inj h⟩
  obtain ⟨files, hfiles, htwice⟩ := hread (stoppedAfter 4 twoStores)
    "0:0x1\n0:0x1\n8:0x2\n".toList (by decide +kernel)
  obtain ⟨clean, hclean, honce⟩ := hread (fun _ => none) "0:0x1\n8:0x2\n".toList
    (by decide +kernel)
  exact ⟨leftover_stoppedAfter 4 twoStores, files, clean, hfiles, hclean,
    ⟨"0x1000_16_64bits_1".toList, rfl⟩, htwice, honce⟩

end Memlog
