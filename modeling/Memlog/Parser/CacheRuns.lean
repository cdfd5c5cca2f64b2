import Memlog.Parser.FileCache

/-!
# Runs of the file handle cache

Any sequence of calls of the cache succeeds and leaves the lines where they belong, with no more
handles open at any time than it may have (`cache_run`). What a call can do to the handles is said
once, by the ticks they have (`ticks_close`, `Written`); a handle with a lower tick is one whose
last line was written earlier (`Recency`), so the handle that is evicted is the least recently
written one.
-/

namespace Memlog

open Lib

/-! ## Calls -/

/-- A call of the cache. -/
inductive CacheOp where
  | writeLine (path : Path) (line : List Char)
  | closePath (path : Path)
  | closeAll

namespace CacheOp

def exec : CacheOp → FileCache → Except ParseError FileCache
  | writeLine path line, c => c.writeLine path line
  | closePath path, c => .ok (c.closePath path)
  | closeAll, c => .ok c.closeAll

def execAll (ops : List CacheOp) (c : FileCache) : Except ParseError FileCache :=
  ops.foldlM (fun c op => op.exec c) c

/-- The line that a call writes to a path. -/
def lineTo (path : Path) : CacheOp → Option (List Char)
  | writeLine path' line => if path' = path then some line else none
  | closePath _ => none
  | closeAll => none

/-- The lines that are written to a path, in the order of the calls. -/
def linesTo (path : Path) (ops : List CacheOp) : List (List Char) := ops.filterMap (lineTo path)

/-- The directory after some calls: what a file had in it, and the lines that are written to it. -/
def contents (files : Files) (ops : List CacheOp) : Files := fun path =>
  if linesTo path ops = [] then files path
  else some ((files path).getD [] ++ (linesTo path ops).flatten)

/-- A line has been written to `path'` after the last one that has been written to `path`. -/
def WrittenAfter (ops : List CacheOp) (path path' : Path) : Prop :=
  ∃ before line after, ops = before ++ writeLine path' line :: after ∧ linesTo path after = []

end CacheOp

/-! ## Ticks -/

namespace FileCache

variable {c c' : FileCache} {path q : Path}

/-- The tick of the handle of a path. -/
def ticks (c : FileCache) (path : Path) : Option Nat := (c.handles.lookup path).map Handle.tick

theorem exists_tick (h : path ∈ c.handles) : ∃ t, c.ticks path = some t := by
  obtain ⟨handle, hlookup⟩ := Option.isSome_iff_exists.1 (AList.lookup_isSome.2 h)
  exact ⟨handle.tick, by rw [ticks, hlookup]; rfl⟩

theorem close_of_mem {h : Handle} (hlookup : c.handles.lookup path = some h) :
    c.close path = { c with
    handles := c.handles.erase path
    files := Function.update c.files path (some ((c.files path).getD [] ++ h.pending)) } := by
  unfold close
  rw [hlookup]

theorem close_of_not_mem (hlookup : c.handles.lookup path = none) : c.close path = c := by
  unfold close
  rw [hlookup]

theorem ticks_close (path q : Path) :
    (c.close path).ticks q = if q = path then none else c.ticks q := by
  cases hlookup : c.handles.lookup path with
  | none =>
    rw [close_of_not_mem hlookup]
    split
    · next hq =>
      rw [hq, ticks, hlookup]
      rfl
    · rfl
  | some h =>
    rw [close_of_mem hlookup, ticks]
    split
    · next hq =>
      rw [hq, AList.lookup_erase]
      rfl
    · next hq => rw [AList.lookup_erase_ne hq, ticks]

theorem tick_close (path : Path) : (c.close path).tick = c.tick := by
  unfold close
  split <;> rfl

/-- The number of open handles, `len(self._handles)`. -/
def numOpen (c : FileCache) : Nat := c.handles.entries.length

theorem length_erase_lt {s : AList fun _ : Path => Handle} (h : path ∈ s) :
    (s.erase path).entries.length < s.entries.length := by
  have hsub : (s.erase path).entries.Sublist s.entries := List.kerase_sublist path s.entries
  refine lt_of_le_of_ne hsub.length_le fun hlen => ?_
  have hmem : path ∈ s.erase path := by
    change path ∈ (s.erase path).entries.keys
    rw [hsub.eq_of_length hlen]
    exact h
  exact (AList.mem_erase.1 hmem).1 rfl

theorem numOpen_close_lt (h : path ∈ c.handles) : (c.close path).numOpen < c.numOpen := by
  obtain ⟨handle, hlookup⟩ := Option.isSome_iff_exists.1 (AList.lookup_isSome.2 h)
  rw [close_of_mem hlookup]
  exact length_erase_lt h

theorem numOpen_close_le (path : Path) : (c.close path).numOpen ≤ c.numOpen := by
  by_cases h : path ∈ c.handles
  · exact (numOpen_close_lt h).le
  · rw [close_of_not_mem (AList.lookup_eq_none.2 h)]

/-- **The handle that is evicted** has the least tick. -/
structure Evicts (c : FileCache) (q : Path) : Prop where
  evicts : c.evictIfNeeded = .ok (c.close q)
  mem : q ∈ c.handles
  least : ∀ q' t t', c.ticks q = some t → c.ticks q' = some t' → t ≤ t'

theorem exists_evicts (hfull : c.maxOpen ≤ c.numOpen) (hpos : 1 ≤ c.maxOpen) : ∃ q, c.Evicts q := by
  cases hmin : c.handles.entries.argmin fun e => e.2.tick with
  | none =>
    rw [numOpen, List.argmin_eq_none.1 hmin, List.length_nil] at hfull
    omega
  | some e =>
    have hlookup : c.handles.lookup e.1 = some e.2 := AList.mem_lookup_iff.2 (List.argmin_mem hmin)
    refine ⟨e.1, ?_, mem_handles_of_lookup hlookup, ?_⟩
    · unfold numOpen at hfull
      rw [evictIfNeeded, if_neg (Nat.not_lt.2 hfull), hmin]
    · intro q' t t' ht ht'
      rw [ticks, hlookup] at ht
      cases ht
      obtain ⟨h', hlookup', rfl⟩ := Option.map_eq_some_iff.1 ht'
      have hmem : (⟨q', h'⟩ : Sigma fun _ : Path => Handle) ∈ c.handles.entries :=
        AList.mem_lookup_iff.1 hlookup'
      exact List.le_of_mem_argmin (f := fun e : Sigma fun _ : Path => Handle => e.2.tick) hmem hmin

theorem evictIfNeeded_of_lt (h : c.numOpen < c.maxOpen) : c.evictIfNeeded = .ok c := by
  unfold numOpen at h
  rw [evictIfNeeded, if_pos h]

/-- What writing a line does to the handles: the one of the path has the tick of the call, and the
others keep theirs or are closed. -/
structure Written (c c' : FileCache) (path : Path) : Prop where
  maxOpen : c'.maxOpen = c.maxOpen
  tick : c'.tick = c.tick + 1
  own : c'.ticks path = some (c.tick + 1)
  others : ∀ q, q ≠ path → c'.ticks q = c.ticks q ∨ c'.ticks q = none
  numOpen : c.numOpen ≤ c.maxOpen → c'.numOpen ≤ c.maxOpen

variable (c) in
theorem written_append (line : List Char) (h : path ∈ c.handles) :
    (c.append path line).maxOpen = c.maxOpen ∧ (c.append path line).tick = c.tick ∧
      (c.append path line).ticks path = some c.tick ∧
      (∀ q, q ≠ path → (c.append path line).ticks q = c.ticks q) ∧
      (c.append path line).numOpen ≤ c.numOpen := by
  obtain ⟨handle, hlookup⟩ := Option.isSome_iff_exists.1 (AList.lookup_isSome.2 h)
  have happend : c.append path line =
      { c with handles := c.handles.insert path ⟨handle.pending ++ line, c.tick⟩ } := by
    rw [append, hlookup]
  rw [happend]
  refine ⟨rfl, rfl, ?_, fun q hq => ?_, length_erase_lt h⟩
  · rw [ticks, AList.lookup_insert]
    rfl
  · rw [ticks, AList.lookup_insert_ne hq, ticks]

theorem written_openAppend (h : path ∉ c.handles) :
    (∀ q, q ≠ path → (c.openAppend path).ticks q = c.ticks q) ∧
      (c.openAppend path).numOpen = c.numOpen + 1 := by
  refine ⟨fun q hq => ?_, ?_⟩
  · rw [ticks, openAppend, AList.lookup_insert_ne hq, ticks]
  · have hkerase : List.kerase path c.handles.entries = c.handles.entries :=
      List.kerase_of_notMem_keys h
    change (List.kerase path c.handles.entries).length + 1 = _
    rw [hkerase]
    rfl

/-- **The cache when a file is about to be opened** has a handle to spare. -/
theorem exists_evicted (hc : c.Ok) (hpath : path ∉ c.handles) :
    ∃ c₂, c.next.evictIfNeeded = .ok c₂ ∧
    c₂.maxOpen = c.maxOpen ∧ c₂.tick = c.tick + 1 ∧
    (∀ q, c₂.ticks q = c.ticks q ∨ c₂.ticks q = none) ∧ path ∉ c₂.handles ∧
    (c.numOpen ≤ c.maxOpen → c₂.numOpen < c.maxOpen) := by
  rcases Nat.lt_or_ge c.numOpen c.maxOpen with hlt | hfull
  · exact ⟨c.next, evictIfNeeded_of_lt hlt, rfl, rfl, fun q => .inl rfl, hpath, fun _ => hlt⟩
  · have hfull' : c.next.maxOpen ≤ c.next.numOpen := hfull
    obtain ⟨q, hq⟩ := exists_evicts hfull' hc.maxOpen_pos
    refine ⟨c.next.close q, hq.evicts, maxOpen_close q, tick_close q, fun q' => ?_, ?_, ?_⟩
    · rw [ticks_close]
      split
      · exact .inr rfl
      · exact .inl rfl
    · exact fun h => hpath (mem_close.1 h).2
    · exact fun hle => (numOpen_close_lt hq.mem).trans_le hle

/-- **Writing a line**; a handle is evicted only for a new one. -/
theorem exists_written (hc : c.Ok) (path : Path) (line : List Char) :
    ∃ c', c.writeLine path line = .ok c' ∧ Written c c' path := by
  let c₁ := c.next
  by_cases hpath : path ∈ c.handles
  · obtain ⟨hmax, htick, hown, hothers, hnum⟩ := c₁.written_append line hpath
    exact ⟨c₁.append path line, writeLine_of_mem hpath line, hmax, htick, hown,
      fun q hq => .inl (hothers q hq), hnum.trans⟩
  · obtain ⟨c₂, hevict, hmax, htick, hticks, hmem, hnum⟩ := exists_evicted hc hpath
    obtain ⟨hopen, hcount⟩ := written_openAppend hmem
    have hpath₂ : path ∈ (c₂.openAppend path).handles := (AList.mem_insert _).2 (.inl rfl)
    obtain ⟨hmax', htick', hown, hothers, hnum'⟩ := written_append _ line hpath₂
    refine ⟨(c₂.openAppend path).append path line, writeLine_of_notMem hpath hevict line,
      hmax'.trans hmax, htick'.trans htick, ?_, fun q hq => ?_, ?_⟩
    · rw [hown]
      exact congrArg some htick
    · rw [hothers q hq, hopen q hq]
      exact hticks q
    · intro hle
      have := hnum hle
      omega

/-- What closing does to the handles: they keep their ticks or are closed. -/
structure Closed (c c' : FileCache) : Prop where
  maxOpen : c'.maxOpen = c.maxOpen
  tick : c'.tick = c.tick
  ticks : ∀ q, c'.ticks q = c.ticks q ∨ c'.ticks q = none
  numOpen : c'.numOpen ≤ c.numOpen

theorem closed_close (path : Path) : Closed c (c.close path) where
  maxOpen := maxOpen_close path
  tick := tick_close path
  ticks q := by
    rw [ticks_close]
    split
    · exact .inr rfl
    · exact .inl rfl
  numOpen := numOpen_close_le path

theorem Closed.trans {c'' : FileCache} (h : Closed c c') (h' : Closed c' c'') : Closed c c'' where
  maxOpen := h'.maxOpen.trans h.maxOpen
  tick := h'.tick.trans h.tick
  ticks q := by
    rcases h'.ticks q with heq | hnone
    · rw [heq]
      exact h.ticks q
    · exact .inr hnone
  numOpen := h'.numOpen.trans h.numOpen

theorem closed_foldl (paths : List Path) (c : FileCache) : Closed c (paths.foldl close c) := by
  induction paths generalizing c with
  | nil => exact ⟨rfl, rfl, fun _ => .inl rfl, le_rfl⟩
  | cons path paths ih => exact (closed_close path).trans (ih (c.close path))

end FileCache

/-! ## What a call adds to the contents -/

namespace CacheOp

variable {ops : List CacheOp} {op : CacheOp} {path path' : Path}

theorem linesTo_concat (path : Path) (ops : List CacheOp) (op : CacheOp) :
    linesTo path (ops ++ [op]) = linesTo path ops ++ (lineTo path op).toList := by
  rw [linesTo, List.filterMap_append, linesTo]
  cases h : lineTo path op with
  | none => rw [List.filterMap_cons_none h, List.filterMap_nil]; rfl
  | some line => rw [List.filterMap_cons_some h, List.filterMap_nil]; rfl

theorem contents_writeLine (files : Files) (ops : List CacheOp) (path : Path) (line : List Char) :
    contents files (ops ++ [writeLine path line]) = Function.update (contents files ops) path
      (some ((contents files ops path).getD [] ++ line)) := by
  funext q
  rw [contents, linesTo_concat]
  by_cases hq : q = path
  · subst hq
    have hline : lineTo q (writeLine q line) = some line := if_pos rfl
    rw [Function.update_self, hline, Option.toList_some, if_neg (by simp), List.flatten_append,
      contents]
    split
    · next hnil => rw [hnil]; simp
    · simp
  · have hline : lineTo q (writeLine path line) = none := if_neg (Ne.symm hq)
    rw [Function.update_of_ne hq, hline, Option.toList_none, List.append_nil, contents]

theorem contents_of_not_write (files : Files) (ops : List CacheOp)
    (h : ∀ path, lineTo path op = none) :
    contents files (ops ++ [op]) = contents files ops := by
  funext q
  rw [contents, linesTo_concat, h, Option.toList_none, List.append_nil, contents]

theorem WrittenAfter.concat (h : WrittenAfter ops path path') (hop : lineTo path op = none) :
    WrittenAfter (ops ++ [op]) path path' := by
  obtain ⟨before, line, after, rfl, hafter⟩ := h
  refine ⟨before, line, after ++ [op], by simp, ?_⟩
  rw [linesTo_concat, hafter, hop]
  rfl

theorem writtenAfter_writeLine (ops : List CacheOp) (path path' : Path) (line : List Char) :
    WrittenAfter (ops ++ [writeLine path' line]) path path' :=
  ⟨ops, line, [], rfl, rfl⟩

end CacheOp

/-! ## Whole runs -/

section Runs

open CacheOp FileCache

variable {ops : List CacheOp} {op : CacheOp} {c c' : FileCache} {maxOpen : Nat} {files : Files}

/-- **The ticks are in the order of the calls.** -/
structure Recency (ops : List CacheOp) (c : FileCache) : Prop where
  tick_le : ∀ q t, c.ticks q = some t → t ≤ c.tick
  order : ∀ q q' t t', c.ticks q = some t → c.ticks q' = some t' → q ≠ q' →
    t < t' ∧ WrittenAfter ops q q' ∨ t' < t ∧ WrittenAfter ops q' q

theorem Recency.closed (h : Recency ops c) (hclosed : Closed c c')
    (hop : ∀ path, lineTo path op = none) :
    Recency (ops ++ [op]) c' := by
  have hticks : ∀ q t, c'.ticks q = some t → c.ticks q = some t := by
    intro q t ht
    rcases hclosed.ticks q with heq | hnone
    · rw [← heq, ht]
    · rw [hnone] at ht
      cases ht
  refine ⟨fun q t ht => hclosed.tick ▸ h.tick_le q t (hticks q t ht), ?_⟩
  intro q q' t t' ht ht' hne
  rcases h.order q q' t t' (hticks q t ht) (hticks q' t' ht') hne with ⟨hlt, hafter⟩ | ⟨hlt, hafter⟩
  · exact .inl ⟨hlt, hafter.concat (hop q)⟩
  · exact .inr ⟨hlt, hafter.concat (hop q')⟩

theorem Recency.written {path : Path} (h : Recency ops c) (hwritten : Written c c' path)
    (line : List Char) : Recency (ops ++ [.writeLine path line]) c' := by
  have hticks : ∀ q t, q ≠ path → c'.ticks q = some t → c.ticks q = some t := by
    intro q t hq ht
    rcases hwritten.others q hq with heq | hnone
    · rw [← heq, ht]
    · rw [hnone] at ht
      cases ht
  have hold : ∀ q t, q ≠ path → c'.ticks q = some t → t < c.tick + 1 := fun q t hq ht =>
    Nat.lt_succ_of_le (h.tick_le q t (hticks q t hq ht))
  have hnew : ∀ t, c'.ticks path = some t → t = c.tick + 1 := fun t ht =>
    Option.some.inj (ht.symm.trans hwritten.own)
  constructor
  · intro q t ht
    rw [hwritten.tick]
    by_cases hq : q = path
    · subst hq
      exact (hnew t ht).le
    · exact (hold q t hq ht).le
  · intro q q' t t' ht ht' hne
    by_cases hq : q = path
    · subst hq
      rw [hnew t ht]
      exact .inr ⟨hold q' t' (Ne.symm hne) ht', writtenAfter_writeLine ..⟩
    · by_cases hq' : q' = path
      · subst hq'
        rw [hnew t' ht']
        exact .inl ⟨hold q t hq ht, writtenAfter_writeLine ..⟩
      · have hother : ∀ {p : Path}, p ≠ path → lineTo p (.writeLine path line) = none := fun hp =>
          if_neg (Ne.symm hp)
        rcases h.order q q' t t' (hticks q t hq ht) (hticks q' t' hq' ht') hne with
          ⟨hlt, hafter⟩ | ⟨hlt, hafter⟩
        · exact .inl ⟨hlt, hafter.concat (hother hq)⟩
        · exact .inr ⟨hlt, hafter.concat (hother hq')⟩

/-- The state of the cache after some calls. -/
structure Running (maxOpen : Nat) (files : Files) (ops : List CacheOp) (c : FileCache) : Prop where
  ok : c.Ok
  maxOpen_eq : c.maxOpen = maxOpen
  view : c.view = contents files ops
  numOpen : c.numOpen ≤ maxOpen
  recency : Recency ops c

theorem running_init (h : 1 ≤ maxOpen) (files : Files) :
    Running maxOpen files [] (init maxOpen files) where
  ok := ok_init h files
  maxOpen_eq := rfl
  view := view_init maxOpen files
  numOpen := Nat.zero_le _
  recency := ⟨nofun, nofun⟩

theorem Running.closed (h : Running maxOpen files ops c) (hclosed : Closed c c') (hok : c'.Ok)
    (hview : c'.view = c.view) (hop : ∀ path, lineTo path op = none) :
    Running maxOpen files (ops ++ [op]) c' where
  ok := hok
  maxOpen_eq := hclosed.maxOpen.trans h.maxOpen_eq
  view := by rw [hview, h.view, contents_of_not_write files ops hop]
  numOpen := hclosed.numOpen.trans h.numOpen
  recency := h.recency.closed hclosed hop

/-- **One call.** -/
theorem Running.exec (h : Running maxOpen files ops c) (op : CacheOp) :
    ∃ c', op.exec c = .ok c' ∧ Running maxOpen files (ops ++ [op]) c' := by
  cases op with
  | writeLine path line =>
    obtain ⟨c', hexec, hwritten⟩ := exists_written h.ok path line
    obtain ⟨c'', hexec', hok, hview, -⟩ := writeLine_spec h.ok path line
    cases hexec.symm.trans hexec'
    refine ⟨c', hexec, hok, hwritten.maxOpen.trans h.maxOpen_eq, ?_, ?_,
      h.recency.written hwritten line⟩
    · rw [hview, h.view, contents_writeLine]
    · rw [← h.maxOpen_eq]
      exact hwritten.numOpen (h.maxOpen_eq ▸ h.numOpen)
  | closePath path =>
    exact ⟨_, rfl,
      h.closed (closed_close path) (h.ok.close path) (view_close path h.ok) fun _ => rfl⟩
  | closeAll =>
    obtain ⟨hok, hview, -⟩ := foldl_close h.ok c.handles.keys
    exact ⟨_, rfl, h.closed (closed_foldl _ c) hok hview fun _ => rfl⟩

/-- **Any number of calls.** -/
theorem Running.execAll (h : Running maxOpen files ops c) (more : List CacheOp) :
    ∃ c', CacheOp.execAll more c = .ok c' ∧ Running maxOpen files (ops ++ more) c' := by
  induction more generalizing ops c with
  | nil => exact ⟨c, rfl, by rw [List.append_nil]; exact h⟩
  | cons op more ih =>
    obtain ⟨c₁, hexec, h₁⟩ := h.exec op
    obtain ⟨c', hexecAll, h'⟩ := ih h₁
    refine ⟨c', ?_, ?_⟩
    · rw [CacheOp.execAll, List.foldlM_cons, hexec]
      exact hexecAll
    · rw [List.append_assoc, List.singleton_append] at h'
      exact h'

/-- **The least recently written handle** is the one with the least tick. -/
theorem Recency.writtenAfter_of_evicts (h : Recency ops c) {q : Path} (hq : c.next.Evicts q) :
    ∀ q' ∈ c.handles, q' ≠ q → WrittenAfter ops q q' := by
  intro q' hq' hne
  have hmem : q ∈ c.handles := hq.mem
  obtain ⟨t, ht⟩ := exists_tick hmem
  obtain ⟨t', ht'⟩ := exists_tick hq'
  have hle : t ≤ t' := hq.least q' t t' ht ht'
  rcases h.order q q' t t' ht ht' (Ne.symm hne) with ⟨-, hafter⟩ | ⟨hlt, -⟩
  · exact hafter
  · exact absurd hle (Nat.not_le.2 hlt)

/-- What happens when a line is written to a file that is not open: with the file there are no more
handles open than there may be, and if one is closed for it, all others have been written to since a
line was last written to that one. -/
def OpensFor (maxOpen : Nat) (ops : List CacheOp) (c : FileCache) (path : Path) : Prop :=
  ∃ c₂, c.next.evictIfNeeded = .ok c₂ ∧ (c₂.openAppend path).numOpen ≤ maxOpen ∧
    (c₂ = c.next ∨ ∃ q ∈ c.handles, c₂ = c.next.close q ∧
      ∀ q' ∈ c.handles, q' ≠ q → WrittenAfter ops q q')

theorem Running.opensFor (h : Running maxOpen files ops c) {path : Path}
    (hpath : path ∉ c.handles) :
    OpensFor maxOpen ops c path := by
  have hle : c.numOpen ≤ c.maxOpen := h.maxOpen_eq ▸ h.numOpen
  obtain ⟨c₂, hevict, -, -, -, hnot, hlt⟩ := exists_evicted h.ok hpath
  refine ⟨c₂, hevict, ?_, ?_⟩
  · rw [(written_openAppend hnot).2, ← h.maxOpen_eq]
    exact hlt hle
  · rcases Nat.lt_or_ge c.next.numOpen c.next.maxOpen with hfree | hfull
    · rw [evictIfNeeded_of_lt hfree] at hevict
      cases hevict
      exact .inl rfl
    · obtain ⟨q, hq⟩ := exists_evicts hfull h.ok.maxOpen_pos
      rw [hq.evicts] at hevict
      cases hevict
      exact .inr ⟨q, hq.mem, rfl, h.recency.writtenAfter_of_evicts hq⟩

end Runs

/-- **The cache is transparent.** Any sequence of calls succeeds; closing all handles then leaves in
each file what it had in it and the lines that have been written to it, in order, whatever the
number of handles is that may be open. There are never more of them, and the one that is closed for
another is the least recently written one. -/
theorem cache_run (maxOpen : Nat) (hpos : 1 ≤ maxOpen) (files : Files) (ops : List CacheOp) :
    ∃ c, CacheOp.execAll ops (.init maxOpen files) = .ok c ∧
      c.closeAll.files = CacheOp.contents files ops ∧ c.numOpen ≤ maxOpen ∧
      ∀ path, path ∉ c.handles → OpensFor maxOpen ops c path := by
  obtain ⟨c, hexec, h⟩ := (running_init hpos files).execAll ops
  refine ⟨c, hexec, ?_, h.numOpen, fun path hpath => h.opensFor hpath⟩
  rw [FileCache.closeAll_files h.ok]
  exact h.view

/-- Two files that take turns with one handle. -/
theorem cache_run_one : ∃ c, CacheOp.execAll
      [.writeLine "a".toList "1".toList, .writeLine "b".toList "2".toList,
        .writeLine "a".toList "3".toList] (.init 1 fun _ => none) = .ok c ∧
    c.numOpen ≤ 1 ∧ c.closeAll.files "a".toList = some "13".toList := by
  obtain ⟨c, hexec, hfiles, hnum, -⟩ := cache_run 1 (Nat.le_refl 1) (fun _ => none)
    [.writeLine "a".toList "1".toList, .writeLine "b".toList "2".toList,
      .writeLine "a".toList "3".toList]
  refine ⟨c, hexec, hnum, ?_⟩
  rw [hfiles]
  decide

end Memlog
