import Memlog.Parser.Model

/-!
# The file handle cache writes what it is told to

Closing, evicting and reopening handles is invisible in the contents that the files will have when
every handle is closed (`FileCache.view`): `writeLine_spec` says that a line goes to the end of its
file and nothing else changes, `closeAll_files` that at the end the directory is that view, and
`closeAndFinalize_spec` what the renaming of a temporary file does to it.
-/

namespace Memlog

open Lib

namespace FileCache

/-- What has been written to the handle of a file and is not in the file yet. -/
def pending (c : FileCache) (path : Path) : List Char :=
  ((c.handles.lookup path).map Handle.pending).getD []

/-- The directory as it will be when the handles are closed. -/
def view (c : FileCache) : Files := fun path => (c.files path).map (· ++ c.pending path)

/-- Handles are open on files that exist, and one may be open. -/
structure Ok (c : FileCache) : Prop where
  exists_file : ∀ path ∈ c.handles, ∃ text, c.files path = some text
  maxOpen_pos : 1 ≤ c.maxOpen

variable {c : FileCache}

theorem ok_init {maxOpen : Nat} (h : 1 ≤ maxOpen) (files : Files) : (init maxOpen files).Ok where
  exists_file path hpath := absurd hpath (AList.notMem_empty path)
  maxOpen_pos := h

theorem view_init (maxOpen : Nat) (files : Files) : (init maxOpen files).view = files := by
  funext path
  simp [view, pending, init]

theorem pending_of_not_mem {path : Path} (h : path ∉ c.handles) : c.pending path = [] := by
  rw [pending, AList.lookup_eq_none.2 h]
  rfl

theorem view_of_not_mem {path : Path} (h : path ∉ c.handles) : c.view path = c.files path := by
  rw [view, pending_of_not_mem h]
  simp

theorem mem_handles_of_lookup {path : Path} {h : Handle} (hl : c.handles.lookup path = some h) :
    path ∈ c.handles := by
  rw [← AList.lookup_isSome, hl]
  rfl

/-! ## Closing -/

theorem mem_close {path q : Path} : q ∈ (c.close path).handles ↔ q ≠ path ∧ q ∈ c.handles := by
  unfold close
  cases hl : c.handles.lookup path with
  | none =>
    have hpath := AList.lookup_eq_none.1 hl
    refine ⟨fun hq => ⟨?_, hq⟩, fun hq => hq.2⟩
    rintro rfl
    exact hpath hq
  | some h => exact AList.mem_erase

theorem maxOpen_close (path : Path) : (c.close path).maxOpen = c.maxOpen := by
  unfold close
  split <;> rfl

theorem view_close (path : Path) (hc : c.Ok) : (c.close path).view = c.view := by
  unfold close
  cases hl : c.handles.lookup path with
  | none => rfl
  | some h =>
    obtain ⟨text, htext⟩ := hc.exists_file path (mem_handles_of_lookup hl)
    funext q
    by_cases hq : q = path
    · subst hq
      simp [view, pending, hl, htext]
    · simp [view, pending, hq, AList.lookup_erase_ne hq]

theorem Ok.close (hc : c.Ok) (path : Path) : (c.close path).Ok where
  exists_file q hq := by
    obtain ⟨hne, hmem⟩ := mem_close.1 hq
    obtain ⟨text, htext⟩ := hc.exists_file q hmem
    refine ⟨text, ?_⟩
    unfold FileCache.close
    split
    · exact (Function.update_of_ne hne ..).trans htext
    · exact htext
  maxOpen_pos := by
    rw [maxOpen_close]
    exact hc.maxOpen_pos

/-- Closing a list of handles. -/
theorem foldl_close (hc : c.Ok) (paths : List Path) :
    (paths.foldl FileCache.close c).Ok ∧ (paths.foldl FileCache.close c).view = c.view ∧
      ∀ q ∈ (paths.foldl FileCache.close c).handles, q ∈ c.handles ∧ q ∉ paths := by
  induction paths generalizing c with
  | nil => exact ⟨hc, rfl, fun q hq => ⟨hq, by simp⟩⟩
  | cons path paths ih =>
    obtain ⟨hok, hview, hmem⟩ := ih (hc.close path)
    refine ⟨hok, hview.trans (view_close path hc), fun q hq => ?_⟩
    obtain ⟨hq₁, hq₂⟩ := hmem q hq
    obtain ⟨hne, hq₃⟩ := mem_close.1 hq₁
    exact ⟨hq₃, by simp [hne, hq₂]⟩

/-- **At the end** the directory holds all that has been written. -/
theorem closeAll_files (hc : c.Ok) : c.closeAll.files = c.view := by
  obtain ⟨-, hview, hmem⟩ := foldl_close hc c.handles.keys
  funext q
  have hq : q ∉ c.closeAll.handles := by
    intro hq
    obtain ⟨hq₁, hq₂⟩ := hmem q hq
    exact hq₂ (AList.mem_keys.1 hq₁)
  rw [← view_of_not_mem hq, closeAll, hview]

/-! ## Writing -/

theorem evictIfNeeded_spec (hc : c.Ok) :
    ∃ c', c.evictIfNeeded = .ok c' ∧ c'.Ok ∧ c'.view = c.view ∧ c'.tick = c.tick ∧
      ∀ q ∈ c'.handles, q ∈ c.handles := by
  unfold evictIfNeeded
  by_cases hlen : c.handles.entries.length < c.maxOpen
  · rw [if_pos hlen]
    exact ⟨c, rfl, hc, rfl, rfl, fun q hq => hq⟩
  · rw [if_neg hlen]
    cases hmin : c.handles.entries.argmin fun e => e.2.tick with
    | none =>
      have hempty := List.argmin_eq_none.1 hmin
      rw [hempty] at hlen
      exact absurd hc.maxOpen_pos hlen
    | some e =>
      refine ⟨c.close e.1, rfl, hc.close e.1, view_close e.1 hc, ?_, fun q hq => (mem_close.1 hq).2⟩
      unfold FileCache.close
      split <;> rfl

theorem ok_openAppend (hc : c.Ok) (path : Path) : (c.openAppend path).Ok where
  exists_file q hq := by
    by_cases hq' : q = path
    · subst hq'
      exact ⟨_, Function.update_self ..⟩
    · obtain ⟨text, htext⟩ :=
        hc.exists_file q (((AList.mem_insert _).1 hq).resolve_left hq')
      exact ⟨text, (Function.update_of_ne hq' ..).trans htext⟩
  maxOpen_pos := hc.maxOpen_pos

theorem view_openAppend {path : Path} (hpath : path ∉ c.handles) :
    (c.openAppend path).view = Function.update c.view path (some ((c.view path).getD [])) := by
  funext q
  by_cases hq : q = path
  · subst hq
    rw [Function.update_self, view_of_not_mem hpath]
    simp [view, pending, openAppend]
  · rw [Function.update_of_ne hq]
    simp [view, pending, openAppend, hq, AList.lookup_insert_ne hq]

theorem append_spec (hc : c.Ok) {path : Path} (hpath : path ∈ c.handles) (line : List Char) :
    (c.append path line).Ok ∧
      (c.append path line).view =
        Function.update c.view path (some ((c.view path).getD [] ++ line)) ∧
      ∀ q ∈ (c.append path line).handles, q ∈ c.handles := by
  obtain ⟨h, hl⟩ := Option.isSome_iff_exists.1 (AList.lookup_isSome.2 hpath)
  obtain ⟨text, htext⟩ := hc.exists_file path hpath
  have happend : c.append path line =
      { c with handles := c.handles.insert path ⟨h.pending ++ line, c.tick⟩ } := by
    rw [append, hl]
  have hmem : ∀ q ∈ (c.append path line).handles, q ∈ c.handles := by
    intro q hq
    rw [happend] at hq
    rcases (AList.mem_insert _).1 hq with rfl | hq
    · exact hpath
    · exact hq
  refine ⟨⟨fun q hq => ?_, ?_⟩, ?_, hmem⟩
  · rw [happend]
    exact hc.exists_file q (hmem q hq)
  · rw [happend]
    exact hc.maxOpen_pos
  · rw [happend]
    funext q
    by_cases hq : q = path
    · subst hq
      simp [view, pending, hl, htext]
    · simp [view, pending, hq, AList.lookup_insert_ne hq]

/-- The cache when a line is about to be written. -/
def next (c : FileCache) : FileCache := { c with tick := c.tick + 1 }

theorem writeLine_of_mem {path : Path} (hpath : path ∈ c.handles) (line : List Char) :
    c.writeLine path line = .ok (c.next.append path line) := by
  simp only [writeLine, if_pos hpath]
  rfl

theorem writeLine_of_notMem {path : Path} {c₂ : FileCache} (hpath : path ∉ c.handles)
    (hevict : c.next.evictIfNeeded = .ok c₂) (line : List Char) :
    c.writeLine path line = .ok ((c₂.openAppend path).append path line) := by
  unfold next at hevict
  simp only [writeLine, if_neg hpath, hevict]
  rfl

/-- **Writing** puts the line at the end of its file, whatever is evicted for it. -/
theorem writeLine_spec (hc : c.Ok) (path : Path) (line : List Char) :
    ∃ c', c.writeLine path line = .ok c' ∧ c'.Ok ∧
      c'.view = Function.update c.view path (some ((c.view path).getD [] ++ line)) ∧
      ∀ q ∈ c'.handles, q = path ∨ q ∈ c.handles := by
  have hc₁ : c.next.Ok := ⟨hc.exists_file, hc.maxOpen_pos⟩
  have hview₁ : c.next.view = c.view := rfl
  by_cases hpath : path ∈ c.handles
  · obtain ⟨hok, hview, hmem⟩ := append_spec hc₁ hpath line
    exact ⟨_, writeLine_of_mem hpath line, hok, hview, fun q hq => .inr (hmem q hq)⟩
  · obtain ⟨c₂, hevict, hc₂, hview₂, -, hmem₂⟩ := evictIfNeeded_spec hc₁
    have hpath₂ : path ∉ c₂.handles := fun h => hpath (hmem₂ path h)
    have hopen : path ∈ (c₂.openAppend path).handles := (AList.mem_insert _).2 (.inl rfl)
    obtain ⟨hok, hview, hmem⟩ := append_spec (ok_openAppend hc₂ path) hopen line
    refine ⟨_, writeLine_of_notMem hpath hevict line, hok, ?_, fun q hq => ?_⟩
    · rw [hview, view_openAppend hpath₂, hview₂, hview₁]
      simp
    · rcases (AList.mem_insert _).1 (hmem q hq) with rfl | hq'
      · exact .inl rfl
      · exact .inr (hmem₂ q hq')

/-- A change of a file without a handle is seen in the view as it is made. -/
theorem setFile_spec (hc : c.Ok) {path : Path} (hpath : path ∉ c.handles)
    (text : Option (List Char)) :
    Ok { c with files := Function.update c.files path text } ∧
      view { c with files := Function.update c.files path text } =
        Function.update c.view path text := by
  refine ⟨⟨fun q hq => ?_, hc.maxOpen_pos⟩, ?_⟩
  · have hne : q ≠ path := fun h => hpath (h ▸ hq)
    obtain ⟨text', htext'⟩ := hc.exists_file q hq
    exact ⟨text', (Function.update_of_ne hne ..).trans htext'⟩
  · funext q
    by_cases hq : q = path
    · subst hq
      have hnot : q ∉ FileCache.handles { c with files := Function.update c.files q text } := hpath
      rw [view_of_not_mem hnot]
      simp
    · simp [view, pending, hq]

end FileCache

/-! ## The end of an allocation -/

/-- What `close_and_finalize` does to the directory. -/
def LiveAlloc.finalized (a : LiveAlloc) (files : Files) : Files :=
  if a.storeCount = 0 then Function.update files a.tmpPath none
  else Function.update (Function.update files a.tmpPath none) a.target (files a.tmpPath)

theorem closeAndFinalize_spec {c : FileCache} {a : LiveAlloc} (hc : c.Ok)
    (htarget : a.target ∉ c.handles)
      (htmp : a.storeCount ≠ 0 → ∃ text, c.view a.tmpPath = some text) :
    ∃ c', a.closeAndFinalize c = .ok c' ∧ c'.Ok ∧ c'.view = a.finalized c.view ∧
      ∀ q ∈ c'.handles, q ∈ c.handles := by
  have hclosed := hc.close a.tmpPath
  have hview := FileCache.view_close a.tmpPath hc
  have htmp' : a.tmpPath ∉ (c.close a.tmpPath).handles := fun h => (FileCache.mem_close.1 h).1 rfl
  have htarget' : a.target ∉ (c.close a.tmpPath).handles := fun h =>
    htarget (FileCache.mem_close.1 h).2
  have hfiles : ∀ q, q ∉ (c.close a.tmpPath).handles →
      (c.close a.tmpPath).files q = c.view q := by
    intro q hq
    rw [← FileCache.view_of_not_mem hq, hview]
  have hmem : ∀ q ∈ (c.close a.tmpPath).handles, q ∈ c.handles := fun q hq =>
    (FileCache.mem_close.1 hq).2
  obtain ⟨hok₁, hview₁⟩ := FileCache.setFile_spec hclosed htmp' none
  unfold LiveAlloc.closeAndFinalize LiveAlloc.finalized FileCache.closePath
  by_cases hcount : a.storeCount = 0
  · simp only [if_pos hcount]
    refine ⟨_, rfl, hok₁, ?_, hmem⟩
    rw [hview₁, hview]
  · obtain ⟨text, htext⟩ := htmp hcount
    obtain ⟨hok₂, hview₂⟩ := FileCache.setFile_spec hok₁ htarget' (some text)
    simp only [if_neg hcount]
    rw [hfiles _ htmp', htext]
    refine ⟨_, rfl, hok₂, ?_, hmem⟩
    rw [hview₂, hview₁, hview]

end Memlog
