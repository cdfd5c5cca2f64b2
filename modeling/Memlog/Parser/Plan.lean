import Memlog.Parser.FileCache

/-!
# The parser decides without looking at its files

What a line does to the parser's tables, and what it asks of the file cache (`FileOp`), depends on
the log alone. `Planned` says so of one step: either the step fails whatever the cache is, or one
operation on files and one change of the tables (`Moves`) describe it for every cache. The steps
compose to a plan for the whole log (`planned_onLines`, `planned_finalizeAll`), so that two runs of
the parser on one log differ only in the files that they found.
-/

namespace Memlog

open Lib

/-! ## Operations on files -/

/-- What one step of the parser asks of the file cache. -/
inductive FileOp where
  | skip
  | write (path : Path) (text : List Char)
  | finalize (a : LiveAlloc)

namespace FileOp

def exec (c : FileCache) : FileOp → Except ParseError FileCache
  | skip => .ok c
  | write path text => c.writeLine path text
  | finalize a => a.closeAndFinalize c

def execAll (ops : List FileOp) (c : FileCache) : Except ParseError FileCache := ops.foldlM exec c

theorem execAll_append (ops ops' : List FileOp) (c : FileCache) :
    execAll (ops ++ ops') c = execAll ops c >>= execAll ops' :=
  List.foldlM_append

theorem execAll_singleton (op : FileOp) (c : FileCache) : execAll [op] c = op.exec c := by
  rw [execAll, List.foldlM_cons]
  cases op.exec c <;> rfl

end FileOp

namespace LiveAlloc

/-- Two states of one object: what its files are called by has not changed. -/
structure SameName (a b : LiveAlloc) : Prop where
  start : a.start = b.start
  baseCore : a.baseCore = b.baseCore
  usageNum : a.usageNum = b.usageNum

theorem SameName.refl (a : LiveAlloc) : a.SameName a := ⟨rfl, rfl, rfl⟩

theorem SameName.tmpPath {a b : LiveAlloc} (h : a.SameName b) : a.tmpPath = b.tmpPath := by
  rw [LiveAlloc.tmpPath, LiveAlloc.tmpPath, h.baseCore, h.usageNum]

end LiveAlloc

namespace Parser

/-- The same variables with another file cache. -/
def withCache (p : Parser) (c : FileCache) : Parser := { p with fileCache := c }

/-- The object that a header in an ALLOC record makes. -/
def headerAlloc (p : Parser) (startHex sizeStr : List Char) : LiveAlloc :=
  let start := numeral 16 hexVal startHex
  let size := numeral 10 decVal sizeStr
  ⟨start, size, "0x".toList ++ startHex.map Char.toLower ++ "_".toList ++ Nat.toDigits 10 size,
    p.addressUsageCount start + 1, 0, true, true, []⟩

/-- **What one step can do** to the tables, with what it asks of the file cache. -/
inductive Moves (p : Parser) : FileOp → Parser → Prop where
  /-- At most a stack line is added to an object. -/
  | quiet {p' : Parser} (hobj : ∀ i, ∃ lines,
      p'.objects i = { p.objects i with stackLines := lines })
      (hnext : p'.nextRef = p.nextRef) (hlive : p'.liveList = p.liveList)
      (husage : p'.addressUsageCount = p.addressUsageCount) : Moves p .skip p'
  /-- A live object writes to its temporary file. -/
  | write {p' : Parser} {r : Ref} {a : LiveAlloc} (text : List Char) (hr : r ∈ p.liveList)
      (ha : a.SameName (p.objects r)) (hobj : p'.objects = Function.update p.objects r a)
      (hnext : p'.nextRef = p.nextRef) (hlive : p'.liveList = p.liveList)
      (husage : p'.addressUsageCount = p.addressUsageCount) :
      Moves p (.write (p.objects r).tmpPath text) p'
  /-- A new object is live. -/
  | create {p' : Parser} {startHex sizeStr : List Char} (hstart : ∀ d ∈ startHex, isHexDigit d)
      (hobj : p'.objects = Function.update p.objects p.nextRef (p.headerAlloc startHex sizeStr))
      (hnext : p'.nextRef = p.nextRef + 1) (hlive : p'.liveList.Perm (p.nextRef :: p.liveList))
      (husage : p'.addressUsageCount = Function.update p.addressUsageCount
        (p.headerAlloc startHex sizeStr).start (p.headerAlloc startHex sizeStr).usageNum) :
      Moves p .skip p'
  /-- An object is finalized and no longer live. -/
  | finish {p' : Parser} {r : Ref} (hr : r ∈ p.liveList) (hobj : p'.objects = p.objects)
      (hnext : p'.nextRef = p.nextRef) (hlive : p'.liveList = p.liveList.erase r)
      (husage : p'.addressUsageCount = p.addressUsageCount) :
      Moves p (.finalize (p.objects r)) p'

/-- A sequence of steps. -/
inductive Plays : Parser → List FileOp → Parser → Prop where
  | refl (p : Parser) : Plays p [] p
  | step {p p₁ p₂ : Parser} {op : FileOp} {ops : List FileOp} (hm : p.Moves op p₁)
      (h : Plays p₁ ops p₂) : Plays p (op :: ops) p₂

theorem Plays.trans {p p₁ p₂ : Parser} {ops ops' : List FileOp} (h : p.Plays ops p₁)
    (h' : p₁.Plays ops' p₂) : p.Plays (ops ++ ops') p₂ := by
  induction h with
  | refl p => exact h'
  | step hm h ih => exact .step hm (ih h')

/-- **A computation that does not look at the files**: it fails whatever the cache is, or the same
steps describe it for every cache, and they end in tables of which `P` holds. -/
def Planned (P : Parser → Prop) (p : Parser) (f : Parser → Except ParseError Parser) : Prop :=
  (∀ c, ∃ e, f (p.withCache c) = .error e) ∨
    ∃ ops p', p.Plays ops p' ∧ P p' ∧
      ∀ c, f (p.withCache c) = (FileOp.execAll ops c).map p'.withCache

section Rules

variable {P Q : Parser → Prop} {p : Parser} {f g : Parser → Except ParseError Parser}

theorem Planned.of_moves {p' : Parser} {op : FileOp} (hm : p.Moves op p') (hP : P p')
    (h : ∀ c, f (p.withCache c) = (op.exec c).map p'.withCache) : Planned P p f := by
  refine .inr ⟨[op], p', .step hm (.refl p'), hP, fun c => ?_⟩
  rw [h, FileOp.execAll_singleton]

theorem Planned.congr (h : Planned P p f) (hfg : ∀ c, g (p.withCache c) = f (p.withCache c)) :
    Planned P p g := by
  obtain herr | ⟨ops, p', hplays, hP, hrun⟩ := h
  · exact .inl fun c => (herr c).imp fun e he => (hfg c).trans he
  · exact .inr ⟨ops, p', hplays, hP, fun c => (hfg c).trans (hrun c)⟩

theorem Planned.imp (h : Planned P p f) (hPQ : ∀ p', P p' → Q p') : Planned Q p f := by
  obtain herr | ⟨ops, p', hplays, hP, hrun⟩ := h
  · exact .inl herr
  · exact .inr ⟨ops, p', hplays, hPQ p' hP, hrun⟩

/-- One computation after another. -/
theorem Planned.bind (h : Planned P p f) (hg : ∀ p', P p' → Planned Q p' g) :
    Planned Q p fun q => f q >>= g := by
  obtain herr | ⟨ops, p', hplays, hP, hrun⟩ := h
  · refine .inl fun c => ?_
    obtain ⟨e, he⟩ := herr c
    exact ⟨e, congrArg (· >>= g) he⟩
  · have hthen : ∀ c, (f (p.withCache c) >>= g) =
        FileOp.execAll ops c >>= fun c' => g (p'.withCache c') := by
      intro c
      rw [hrun]
      cases FileOp.execAll ops c <;> rfl
    obtain herr | ⟨ops', p'', hplays', hQ, hrun'⟩ := hg p' hP
    · refine .inl fun c => ?_
      beta_reduce
      rw [hthen]
      cases FileOp.execAll ops c with
      | error e => exact ⟨e, rfl⟩
      | ok c' => exact herr c'
    · refine .inr ⟨ops ++ ops', p'', hplays.trans hplays', hQ, fun c => ?_⟩
      beta_reduce
      rw [hthen, FileOp.execAll_append]
      cases FileOp.execAll ops c with
      | error e => rfl
      | ok c' => exact hrun' c'

/-- A run that ends shows which alternative it is. -/
theorem Planned.of_ok (h : Planned P p f) {c : FileCache} {q : Parser}
    (hq : f (p.withCache c) = .ok q) : ∃ ops p', p.Plays ops p' ∧ P p' ∧
      (∀ c, f (p.withCache c) = (FileOp.execAll ops c).map p'.withCache) ∧
      FileOp.execAll ops c = .ok q.fileCache ∧ q = p'.withCache q.fileCache := by
  obtain herr | ⟨ops, p', hplays, hP, hrun⟩ := h
  · obtain ⟨e, he⟩ := herr c
    rw [he] at hq
    cases hq
  · have hmap := (hrun c).symm.trans hq
    cases hexec : FileOp.execAll ops c with
    | error e =>
      rw [hexec] at hmap
      cases hmap
    | ok c' =>
      rw [hexec] at hmap
      cases hmap
      exact ⟨ops, p', hplays, hP, hrun, hexec, rfl⟩

end Rules

/-! ## One line -/

/-- What the steps need of the tables: the two lists have one length, and the object that an ALLOC
record builds is live. -/
structure Steady (p : Parser) : Prop where
  lengths : p.startsSorted.length = p.liveList.length
  building : ∀ r, p.currentBuilding = some r → p.insideAlloc = true ∧ r ∈ p.liveList

theorem steady_init (maxOpen : Nat) (files : Files) : (init maxOpen files).Steady :=
  ⟨rfl, fun _ h => nomatch h⟩

theorem Steady.currentBuilding_eq_none {p : Parser} (h : p.Steady) (hin : p.insideAlloc = false) :
    p.currentBuilding = none := by
  cases hb : p.currentBuilding with
  | none => rfl
  | some r =>
    have htrue := (h.building r hb).1
    rw [hin] at htrue
    cases htrue

variable {p : Parser}

theorem moves_quiet {p' : Parser} (hobj : p'.objects = p.objects) (hnext : p'.nextRef = p.nextRef)
    (hlive : p'.liveList = p.liveList) (husage : p'.addressUsageCount = p.addressUsageCount) :
    p.Moves .skip p' :=
  .quiet (fun i => ⟨(p.objects i).stackLines, by rw [hobj]⟩) hnext hlive husage

theorem mem_of_findAlloc {addr : Nat} {ref : Ref} (h : p.findAlloc addr = .ok (some ref)) :
    ref ∈ p.liveList := by
  have hfallback : ∀ {o : Option Ref}, o = p.liveList.find? (fun r => (p.objects r).Contains addr) →
      (pure o : Except ParseError (Option Ref)) = .ok (some ref) → ref ∈ p.liveList := by
    intro o ho hok
    cases hok
    exact List.mem_of_find?_eq_some ho.symm
  unfold findAlloc at h
  dsimp only at h
  split at h
  · exact hfallback rfl h
  · split at h
    · next hget =>
      split at h
      · cases h
        exact List.mem_of_getElem? hget
      · exact hfallback rfl h
    · cases h

theorem planned_onStore (hp : p.Steady) (addrHex valueHex : List Char) :
    Planned Steady p fun q => q.onStore addrHex valueHex := by
  have hfind : ∀ c, (p.withCache c).findAlloc (numeral 16 hexVal addrHex) =
      p.findAlloc (numeral 16 hexVal addrHex) := fun _ => rfl
  cases hf : p.findAlloc (numeral 16 hexVal addrHex) with
  | error e =>
    refine .inl fun c => ⟨e, ?_⟩
    show (p.withCache c).onStore addrHex valueHex = _
    rw [onStore, hfind c, hf]
    rfl
  | ok found =>
    cases found with
    | none =>
      refine .inl fun c => ⟨.valueError (notLiveMsg addrHex p.liveList.length), ?_⟩
      show (p.withCache c).onStore addrHex valueHex = _
      rw [onStore, hfind c, hf]
      rfl
    | some ref =>
      by_cases hin : (p.objects ref).Contains (numeral 16 hexVal addrHex)
      · let offset := numeral 16 hexVal addrHex - (p.objects ref).start
        let a : LiveAlloc := { p.objects ref with
          storeCount := (p.objects ref).storeCount + 1
          aligned32 := (p.objects ref).aligned32 && offset % 4 == 0
          aligned64 := (p.objects ref).aligned64 && offset % 8 == 0 }
        have hmoves : p.Moves (.write (p.objects ref).tmpPath (LiveAlloc.storeLine offset valueHex))
            { p with objects := Function.update p.objects ref a } :=
          .write (a := a) _ (mem_of_findAlloc hf) ⟨rfl, rfl, rfl⟩ rfl rfl rfl rfl
        refine .of_moves hmoves ⟨hp.lengths, hp.building⟩ fun c => ?_
        show (p.withCache c).onStore addrHex valueHex = _
        rw [onStore, hfind c, hf]
        change ((p.objects ref).writeStore addrHex valueHex c >>= _) = _
        rw [LiveAlloc.writeStore, if_pos hin, FileOp.exec]
        change ((c.writeLine (p.objects ref).tmpPath (LiveAlloc.storeLine offset valueHex) >>=
          fun cache => pure (a, cache)) >>= _) = _
        cases c.writeLine (p.objects ref).tmpPath (LiveAlloc.storeLine offset valueHex) <;> rfl
      · refine .inl fun c => ⟨.valueError (LiveAlloc.outOfBoundsMsg addrHex), ?_⟩
        show (p.withCache c).onStore addrHex valueHex = _
        rw [onStore, hfind c, hf]
        change ((p.objects ref).writeStore addrHex valueHex c >>= _) = _
        rw [LiveAlloc.writeStore, if_neg hin]
        rfl

theorem planned_onAllocEnd (hp : p.Steady) : Planned Steady p onAllocEnd := by
  let p' : Parser := { p with insideAlloc := false, currentBuilding := none }
  have hsteady : p'.Steady := ⟨hp.lengths, fun _ h => nomatch h⟩
  have hquiet : p.Moves .skip p' := moves_quiet rfl rfl rfl rfl
  cases hb : p.currentBuilding with
  | none =>
    refine .of_moves hquiet hsteady fun c => ?_
    simp only [onAllocEnd, withCache, hb]
    rfl
  | some r =>
    by_cases hlines : (p.objects r).stackLines.isEmpty = true
    · refine .of_moves hquiet hsteady fun c => ?_
      simp only [onAllocEnd, withCache, hb, if_pos hlines]
      rfl
    · have hwrite : p.Moves (.write (p.objects r).tmpPath (headerText (p.objects r).stackLines))
        p' :=
        .write _ (hp.building r hb).2 (.refl (p.objects r))
          (Function.update_eq_self r p.objects).symm rfl rfl rfl
      refine .of_moves hwrite hsteady fun c => ?_
      simp only [onAllocEnd, withCache, hb, if_neg hlines, FileOp.exec]
      cases c.writeLine (p.objects r).tmpPath (headerText (p.objects r).stackLines) <;> rfl

theorem planned_onAllocHeader (hp : p.Steady) (hin : p.insideAlloc = true)
    {startHex : List Char} (hstart : ∀ d ∈ startHex, isHexDigit d) (sizeStr : List Char) :
    Planned Steady p fun q => .ok (q.onAllocHeader startHex sizeStr) := by
  let idx := bisectLeft p.startsSorted (p.headerAlloc startHex sizeStr).start
  let p' := p.onAllocHeader startHex sizeStr
  have hidx : idx ≤ p.startsSorted.length := (List.takeWhile_sublist _).length_le
  have hidx' : idx ≤ p.liveList.length := hp.lengths ▸ hidx
  have hself : (Function.update p.objects p.nextRef (p.headerAlloc startHex sizeStr)) p.nextRef =
      p.headerAlloc startHex sizeStr := Function.update_self ..
  have hlive : p'.liveList = p.liveList.insertIdx idx p.nextRef := by
    change p.liveList.insertIdx (bisectLeft p.startsSorted
      ((Function.update p.objects p.nextRef (p.headerAlloc startHex sizeStr)) p.nextRef).start)
      _ = _
    rw [hself]
    rfl
  have hsorted : p'.startsSorted.length = p.startsSorted.length + 1 := by
    change (p.startsSorted.insertIdx (bisectLeft p.startsSorted
      ((Function.update p.objects p.nextRef (p.headerAlloc startHex sizeStr)) p.nextRef).start)
      _).length = _
    rw [hself]
    exact List.length_insertIdx_of_le_length hidx _
  have hmem : p.nextRef ∈ p'.liveList := by
    rw [hlive, List.mem_insertIdx hidx']
    exact .inl rfl
  have hmoves : p.Moves .skip p' := by
    refine .create hstart rfl rfl ?_ rfl
    rw [hlive]
    exact List.perm_insertIdx p.nextRef p.liveList hidx'
  refine .of_moves hmoves ⟨?_, ?_⟩ fun c => rfl
  · rw [hsorted, hlive, List.length_insertIdx_of_le_length hidx', hp.lengths]
  · intro r hr
    cases hr
    exact ⟨hin, hmem⟩

theorem planned_onStackLine (hp : p.Steady) (line : List Char) :
    Planned Steady p fun q => .ok (q.onStackLine line) := by
  have hquiet : (∀ c, (p.withCache c).onStackLine line = p.withCache c) →
      Planned Steady p fun q => .ok (q.onStackLine line) := by
    intro hsame
    exact .of_moves (moves_quiet rfl rfl rfl rfl) hp fun c => congrArg Except.ok (hsame c)
  cases hb : p.currentBuilding with
  | none =>
    refine hquiet fun c => ?_
    have hbc : (p.withCache c).currentBuilding = none := hb
    rw [onStackLine, hbc]
  | some r =>
    have hbc : ∀ c, (p.withCache c).currentBuilding = some r := fun _ => hb
    by_cases hempty : (rstrip line).isEmpty = true
    · refine hquiet fun c => ?_
      rw [onStackLine, hbc]
      exact if_pos hempty
    · let a : LiveAlloc :=
        { p.objects r with stackLines := (p.objects r).stackLines ++ [rstrip line] }
      have hmoves : p.Moves .skip { p with objects := Function.update p.objects r a } := by
        refine .quiet (fun i => ?_) rfl rfl rfl
        by_cases hi : i = r
        · subst hi
          exact ⟨_, Function.update_self ..⟩
        · exact ⟨_, Function.update_of_ne hi ..⟩
      refine .of_moves hmoves ⟨hp.lengths, hp.building⟩ fun c => ?_
      simp only [onStackLine, withCache, hb, if_neg hempty]
      rfl

/-! ## The end of an allocation -/

/-- What `remove` leaves of the tables. -/
structure Removed (p : Parser) (r : Ref) (q : Parser) : Prop where
  mem : r ∈ p.liveList
  liveList : q.liveList = p.liveList.erase r
  lengths : p.startsSorted.length = p.liveList.length →
    q.startsSorted.length = q.liveList.length
  objects : q.objects = p.objects
  nextRef : q.nextRef = p.nextRef
  addressUsageCount : q.addressUsageCount = p.addressUsageCount
  currentBuilding : q.currentBuilding = p.currentBuilding

theorem removed_of_remove {r : Ref} {q : Parser} (h : p.remove r = .ok q) : p.Removed r q := by
  unfold remove at h
  dsimp only at h
  split at h
  · next idx hidx =>
    split at h
    · next hlt =>
      cases h
      obtain ⟨hlt', hget, -⟩ := List.idxOf?_eq_some_iff.1 hidx
      refine ⟨hget ▸ List.getElem_mem hlt', ?_, fun hlen => ?_, rfl, rfl, rfl, rfl⟩
      · rw [List.erase_eq_eraseIdx, hidx]
      · simp only [List.length_eraseIdx_of_lt hlt.1, List.length_eraseIdx_of_lt hlt', hlen]
    · cases h
  · cases h

theorem remove_withCache (r : Ref) (c : FileCache) :
    (p.withCache c).remove r = (p.remove r).map fun q => q.withCache c := by
  cases hidx : p.liveList.idxOf? r with
  | none =>
    have hidx' : (p.withCache c).liveList.idxOf? r = none := hidx
    simp only [remove, hidx, hidx']
    rfl
  | some idx =>
    have hidx' : (p.withCache c).liveList.idxOf? r = some idx := hidx
    simp only [remove, hidx, hidx']
    by_cases hlt : idx < p.startsSorted.length ∧ p.liveAllocs (p.objects r).start ≠ []
    · rw [if_pos hlt]
      exact if_pos hlt
    · rw [if_neg hlt]
      exact if_neg hlt

theorem planned_finalize (r : Ref) :
    Planned (fun q => p.Removed r q) p fun q => q.finalize r := by
  have hfinalize : ∀ c, (p.withCache c).finalize r =
      FileOp.exec c (.finalize (p.objects r)) >>= fun c' => (p.withCache c').remove r :=
        fun _ => rfl
  cases hrem : p.remove r with
  | error e =>
    refine .inl fun c => ?_
    beta_reduce
    rw [hfinalize]
    cases FileOp.exec c (.finalize (p.objects r)) with
    | error e' => exact ⟨e', rfl⟩
    | ok c' =>
      refine ⟨e, ?_⟩
      change (p.withCache c').remove r = _
      rw [remove_withCache, hrem]
      rfl
  | ok q =>
    have hq := removed_of_remove hrem
    refine .of_moves (.finish hq.mem hq.objects hq.nextRef hq.liveList hq.addressUsageCount) hq
      fun c => (hfinalize c).trans ?_
    cases FileOp.exec c (.finalize (p.objects r)) with
    | error e' => rfl
    | ok c' =>
      change (p.withCache c').remove r = _
      rw [remove_withCache, hrem]
      rfl

theorem planned_onFreeHeader (hp : p.Steady) (hin : p.insideAlloc = false) (startHex : List Char) :
    Planned Steady p fun q => q.onFreeHeader startHex := by
  have hnone := hp.currentBuilding_eq_none hin
  cases hlast : (p.liveAllocs (numeral 16 hexVal startHex)).getLast? with
  | none =>
    refine .of_moves (moves_quiet rfl rfl rfl rfl) hp fun c => ?_
    simp only [onFreeHeader, withCache, hlast]
    rfl
  | some r =>
    have hfinalize : Planned Steady p fun q => q.finalize r := by
      refine (planned_finalize r).imp fun q hq => ⟨hq.lengths hp.lengths, fun r' hr' => ?_⟩
      rw [hq.currentBuilding, hnone] at hr'
      cases hr'
    refine hfinalize.congr fun c => ?_
    simp only [onFreeHeader, withCache, hlast]

/-! ## The whole log -/

theorem isHexDigit_of_matchAllocHeader {line startHex sizeStr : List Char}
    (h : matchAllocHeader line = some (startHex, sizeStr)) : ∀ d ∈ startHex, isHexDigit d := by
  unfold matchAllocHeader at h
  simp only [Option.bind_eq_bind, Option.bind_eq_some_iff, Option.pure_def, Option.some.injEq,
    Prod.exists, Prod.mk.injEq] at h
  obtain ⟨_, -, _, _, -, _, -, _, _, hscan, _, -, _, _, -, _, -, _, _, -, _, _, -, rfl, -⟩ := h
  exact forall_mem_of_scan hscan

/-- **One line** of the log. -/
theorem planned_onLine (hp : p.Steady) (line : List Char) :
    Planned Steady p fun q => q.onLine line := by
  cases hstore : matchStore line with
  | some s =>
    refine (planned_onStore hp s.1 s.2).congr fun c => ?_
    simp only [onLine, hstore]
  | none =>
    have hflags : ∀ {g : Parser → Parser}, p.Moves .skip (g p) → (g p).Steady →
        (∀ c, (p.withCache c).onLine line = .ok ((g p).withCache c)) →
        Planned Steady p fun q => q.onLine line :=
      fun hm hsteady hline => .of_moves hm hsteady hline
    by_cases h₁ : "===ALLOC START===".toList.isPrefixOf line = true
    · refine hflags (g := fun q => { q with insideAlloc := true, currentBuilding := none })
        (moves_quiet rfl rfl rfl rfl) ⟨hp.lengths, fun _ h => by cases h⟩ fun c => ?_
      simp only [onLine, hstore, if_pos h₁]
      rfl
    by_cases h₂ : "===ALLOC END===".toList.isPrefixOf line = true
    · refine (planned_onAllocEnd hp).congr fun c => ?_
      simp only [onLine, hstore, if_neg h₁, if_pos h₂]
    by_cases h₃ : "===FREE START===".toList.isPrefixOf line = true
    · refine hflags (g := fun q => { q with insideFree := true })
        (moves_quiet rfl rfl rfl rfl) ⟨hp.lengths, hp.building⟩ fun c => ?_
      simp only [onLine, hstore, if_neg h₁, if_neg h₂, if_pos h₃]
      rfl
    by_cases h₄ : "===FREE END===".toList.isPrefixOf line = true
    · refine hflags (g := fun q => { q with insideFree := false })
        (moves_quiet rfl rfl rfl rfl) ⟨hp.lengths, hp.building⟩ fun c => ?_
      simp only [onLine, hstore, if_neg h₁, if_neg h₂, if_neg h₃, if_pos h₄]
      rfl
    by_cases hin : p.insideAlloc = true
    · cases hheader : matchAllocHeader line with
      | some s =>
        refine (planned_onAllocHeader hp hin (isHexDigit_of_matchAllocHeader hheader) s.2).congr
          fun c => ?_
        simp only [onLine, hstore, if_neg h₁, if_neg h₂, if_neg h₃, if_neg h₄, hheader]
        exact if_pos hin
      | none =>
        refine (planned_onStackLine hp line).congr fun c => ?_
        simp only [onLine, hstore, if_neg h₁, if_neg h₂, if_neg h₃, if_neg h₄, hheader]
        exact if_pos hin
    · by_cases hfree : p.insideFree = true
      · cases hheader : matchAllocHeader line with
        | some s =>
          refine (planned_onFreeHeader hp (by simpa using hin) s.1).congr fun c => ?_
          simp only [onLine, hstore, if_neg h₁, if_neg h₂, if_neg h₃, if_neg h₄, hheader]
          exact (if_neg hin).trans (if_pos hfree)
        | none =>
          refine hflags (g := id) (moves_quiet rfl rfl rfl rfl) hp fun c => ?_
          simp only [onLine, hstore, if_neg h₁, if_neg h₂, if_neg h₃, if_neg h₄, hheader]
          exact (if_neg hin).trans (if_pos hfree)
      · refine hflags (g := id) (moves_quiet rfl rfl rfl rfl) hp fun c => ?_
        simp only [onLine, hstore, if_neg h₁, if_neg h₂, if_neg h₃, if_neg h₄]
        exact (if_neg hin).trans (if_neg hfree)

theorem planned_pure {P : Parser → Prop} (hP : P p) : Planned P p .ok :=
  .inr ⟨[], p, .refl p, hP, fun _ => rfl⟩

/-- **The loop over the lines.** -/
theorem planned_onLines (hp : p.Steady) (lines : List (List Char)) :
    Planned Steady p fun q => q.onLines lines := by
  induction lines generalizing p with
  | nil => exact planned_pure hp
  | cons line lines ih => exact (planned_onLine hp line).bind fun p' hp' => ih hp'

/-- The tables when some of the live allocations have been finalized. -/
structure Closed (p : Parser) (rest : List Ref) (q : Parser) : Prop where
  liveList : q.liveList = rest
  objects : q.objects = p.objects
  nextRef : q.nextRef = p.nextRef

/-- **What follows the loop**, or a part of it. -/
theorem planned_finalizeAll {refs rest : List Ref} (hlive : p.liveList = refs ++ rest) :
    Planned (p.Closed rest) p fun q => refs.foldlM finalize q := by
  induction refs generalizing p with
  | nil => exact planned_pure ⟨hlive, rfl, rfl⟩
  | cons r refs ih =>
    refine (planned_finalize r).bind fun p' hp' => ?_
    have hlive' : p'.liveList = refs ++ rest := by
      rw [hp'.liveList, hlive]
      exact List.erase_cons_head r (refs ++ rest)
    refine (ih hlive').imp fun q hq => ⟨hq.liveList, ?_, ?_⟩
    · rw [hq.objects, hp'.objects]
    · rw [hq.nextRef, hp'.nextRef]

end Parser

end Memlog
