import Memlog.Lib.Text
import Memlog.Tool.Site

/-!
# Allocation sites

`13_per_function_feasibility` and `16_alloc_site_profile` take the site of a buffer from the text of
its stack trace, as the core prints it: the first line that a skip-list does not match, cut out
between `: ` and ` (`. A line shows the name of its frame up to ` (` (`between_printIpDesc`), and
the skip-list sees the name and the file (`skipped_printIpDesc`).
-/

namespace Memlog.Query

open Lib

/-! ## Printed traces -/

/-- What is known of the place of a frame: a source line, an object file, or nothing. -/
inductive Location where
  | source (file : Line) (lineno : Nat)
  | object (name : Line)
  | unknown
  deriving DecidableEq

/-- The name of the file. -/
def Location.file : Location → Line
  | .source file _ => file
  | .object name => name
  | .unknown => []

/-- `Vg_FnNameKind`. -/
inductive FnNameKind where
  | normal
  | main
  | belowMain
  deriving DecidableEq

/-- `VG_(get_fnname_kind)`, on Linux. -/
def getFnnameKind (name : Line) : FnNameKind :=
  if name = "main".toList then .main
  else if name = "__libc_start_main".toList ∨ name = "__libc_start_call_main".toList ∨
      "__libc_start_main.".toList <+: name ∨ name = "generic_start_main".toList ∨
      "generic_start_main.".toList <+: name ∨ name = "_start".toList then .belowMain
  else .normal

/-- A text symbol: its name in the symbol table and its name for the reader. The special names are
not mangled, and a name stands on one line. -/
structure Symbol where
  raw : Line
  demangled : Line
  special : getFnnameKind raw ≠ .normal → demangled = raw := by decide
  line : '\n' ∉ demangled := by decide

/-- `VG_(get_fnname)`, with the renaming of what is below `main`. -/
def Symbol.fn (sym : Symbol) : Line :=
  if getFnnameKind sym.demangled = .belowMain then "(below main)".toList else sym.demangled

/-- A function whose name is not mangled. -/
def Symbol.plain (name : Line) (line : '\n' ∉ name) : Symbol where
  raw := name
  demangled := name
  special _ := rfl
  line := line

/-- A frame of a stack trace with its place, which are printed on one line. -/
structure TraceFrame where
  ip : Addr
  sym : Option Symbol
  loc : Location
  loc_line : '\n' ∉ loc.file := by decide

/-- The name of the function, if it is known. -/
def TraceFrame.fn (fr : TraceFrame) : Option Line := fr.sym.map Symbol.fn

/-- `VG_(get_fnname_kind_from_IP)`. -/
def TraceFrame.kind (fr : TraceFrame) : FnNameKind :=
  match fr.sym with
  | some sym => getFnnameKind sym.raw
  | none => .normal

/-- The frame as the tool sees it. -/
def TraceFrame.frame (fr : TraceFrame) : Frame := ⟨fr.ip, fr.fn⟩

/-- The text of the place, which stands in parentheses. -/
def TraceFrame.place (fr : TraceFrame) : Option Line :=
  match fr.loc with
  | .source file lineno => some (file ++ ":".toList ++ Nat.toDigits 10 lineno)
  | .object name => some ("in ".toList ++ name)
  | .unknown => if fr.fn.isSome then some "in ???".toList else none

/-- The name that is printed. -/
def TraceFrame.shown (fr : TraceFrame) : Line := fr.fn.getD "???".toList

/-- The place in its parentheses. -/
def TraceFrame.placeText (fr : TraceFrame) : Line :=
  match fr.place with
  | some place => " (".toList ++ place ++ ")".toList
  | none => []

/-- `VG_(describe_IP)`. -/
def describeIp (fr : TraceFrame) : Line :=
  "0x".toList ++ printHexUpper fr.ip ++ ": ".toList ++ fr.shown ++ fr.placeText

/-- The line that `printIpDesc` prints for the `n`-th frame. -/
def printIpDesc (pid n : Nat) (fr : TraceFrame) : Line :=
  "==".toList ++ Nat.toDigits 10 pid ++ "==    ".toList ++
    (if n = 0 then "at ".toList else "by ".toList) ++ describeIp fr

/-- The loop of `VG_(apply_StackTrace)` from the outermost frame inwards: `i` frames are left to
look at, and `nIps` frames are to be shown. -/
def belowMainLoop (frames : List TraceFrame) : Nat → Nat → Nat
  | 0, nIps => nIps
  | i + 1, nIps =>
    let kind := (frames[i]?.map TraceFrame.kind).getD .normal
    let nIps := if kind = .main ∨ kind = .belowMain then i + 1 else nIps
    if kind = .main then nIps else belowMainLoop frames i nIps

/-- The frames that `VG_(apply_StackTrace)` acts on without `--show-below-main`: those up to `main`,
or up to the innermost frame below it. -/
def shownFrames (frames : List TraceFrame) : List TraceFrame :=
  frames.take (belowMainLoop frames frames.length frames.length)

/-- `VG_(apply_StackTrace)`. -/
def applyStackTrace (action : Nat → TraceFrame → Line) (frames : List TraceFrame) : List Line :=
  (shownFrames frames).zipIdx.map fun x => action x.2 x.1

/-- `VG_(pp_StackTrace)`. -/
def ppStackTrace (pid : Nat) (frames : List TraceFrame) : List Line :=
  applyStackTrace (printIpDesc pid) frames

/-- The column `alloc_stack`. -/
def allocStack (pid : Nat) (frames : List TraceFrame) : Line :=
  ['\n'].intercalate (ppStackTrace pid frames)

/-! ## The CTE `sited` -/

/-- The alternatives of the regular expression. -/
def skipList : List Line :=
  ["malloc", "calloc", "realloc", "free", "operator new", "operator delete", "libgfortran",
    "libstdc++", "ld-2.", "dl-init", "???"].map String.toList

section Sited

variable (lower : Char → Char)

/-- `regexp_matches(lower(line), ...)`, for any case mapping. -/
def skipped (line : Line) : Bool := skipList.any fun word => decide (word <:+: line.map lower)

/-- The argument of `regexp_extract`. -/
def siteLine (allocStack : Line) : Line :=
  let lines := allocStack.splitOn '\n'
  (((lines.filter fun line => !skipped lower line)[0]?.or lines[1]?).or lines[0]?).getD []

/-- `site`; without a match `regexp_extract` returns the empty text. -/
def site (allocStack : Line) : Line :=
  (between ": ".toList " (".toList (siteLine lower allocStack)).getD []

end Sited

/-! ## The name on a line -/

/-- The text in front of the name. -/
def lineFront (pid n : Nat) (ip : Addr) : Line :=
  "==".toList ++ Nat.toDigits 10 pid ++ "==    ".toList ++
    (if n = 0 then "at ".toList else "by ".toList) ++ "0x".toList ++ printHexUpper ip

theorem printIpDesc_eq (pid n : Nat) (fr : TraceFrame) : printIpDesc pid n fr =
    lineFront pid n fr.ip ++ ':' :: ' ' :: (fr.shown ++ fr.placeText) := by
  unfold printIpDesc describeIp lineFront
  simp only [List.append_assoc]
  rfl

/-- The characters in front of a name. -/
def frontChars : List Char := "= atbyx0123456789ABCDEF".toList

theorem lineFront_subset {pid n : Nat} {ip : Addr} : lineFront pid n ip ⊆ frontChars := by
  have hdec : Nat.toDigits 10 pid ⊆ frontChars := fun c hc =>
    forall_mem_toDigits (p := fun c => c ∈ frontChars) (by decide) (by decide) pid c hc
  have hhex : printHexUpper ip ⊆ frontChars := by
    intro c hc
    obtain ⟨d, hd, rfl⟩ := List.mem_map.1 hc
    exact forall_mem_toDigits (p := fun c => c.toUpper ∈ frontChars) (by decide) (by decide) _ d hd
  have hat : (if n = 0 then "at ".toList else "by ".toList) ⊆ frontChars := by
    split <;> decide
  unfold lineFront
  simp only [List.append_subset]
  exact ⟨⟨⟨⟨⟨by decide, hdec⟩, by decide⟩, hat⟩, by decide⟩, hhex⟩

/-- What the extraction makes of a frame. -/
def TraceFrame.siteName (fr : TraceFrame) : Line :=
  if fr.place.isSome then cut " (".toList fr.shown else []

/-- A frame without a place has no name, and its place is not known. -/
theorem TraceFrame.place_eq_none {fr : TraceFrame} (h : fr.place = none) :
    fr.fn = none ∧ fr.loc = .unknown := by
  rw [TraceFrame.place] at h
  cases hloc : fr.loc with
  | source file lineno =>
    rw [hloc] at h
    cases h
  | object name =>
    rw [hloc] at h
    cases h
  | unknown =>
    rw [hloc] at h
    cases hfn : fr.fn with
    | none => exact ⟨rfl, rfl⟩
    | some fn =>
      rw [hfn] at h
      cases h

theorem between_printIpDesc (pid n : Nat) (fr : TraceFrame) :
    (between ": ".toList " (".toList (printIpDesc pid n fr)).getD [] = fr.siteName := by
  have hfront : ':' ∉ lineFront pid n fr.ip :=
    fun h => absurd (lineFront_subset h) (by decide)
  have hstart : ": ".toList = [':', ' '] := rfl
  rw [printIpDesc_eq, hstart, between_append hfront, TraceFrame.siteName, TraceFrame.placeText]
  cases hplace : fr.place with
  | some place =>
    have hup : upTo " (".toList (fr.shown ++ (" (".toList ++ place ++ ")".toList)) =
        some (cut " (".toList fr.shown) :=
      upTo_append (by decide) fr.shown (place ++ ")".toList)
    exact congrArg (Option.getD · []) (between_of_upTo hup)
  | none =>
    rw [TraceFrame.shown, (TraceFrame.place_eq_none hplace).1]
    decide

theorem newline_notMem_fn (sym : Symbol) : '\n' ∉ sym.fn := by
  unfold Symbol.fn
  split
  · decide
  · exact sym.line

theorem newline_notMem_place {fr : TraceFrame} {place : Line} (h : place ∈ fr.place) :
    '\n' ∉ place := by
  have hdec : ∀ k, '\n' ∉ Nat.toDigits 10 k :=
    fun k h => forall_mem_toDigits (p := fun c => c ≠ '\n') (by decide) (by decide) k _ h rfl
  have hloc := fr.loc_line
  unfold TraceFrame.place at h
  cases hcase : fr.loc with
  | source file lineno =>
    rw [hcase] at hloc h
    cases h
    simp only [List.mem_append, hdec, not_or, not_false_eq_true, and_true]
    exact ⟨hloc, by decide⟩
  | object name =>
    rw [hcase] at hloc h
    cases h
    rw [List.mem_append, not_or]
    exact ⟨by decide, hloc⟩
  | unknown =>
    rw [hcase] at h
    dsimp only at h
    split at h
    · cases h
      decide
    · cases h

theorem newline_notMem_printIpDesc (pid n : Nat) (fr : TraceFrame) :
    '\n' ∉ printIpDesc pid n fr := by
  have hfront : '\n' ∉ lineFront pid n fr.ip :=
    fun h => absurd (lineFront_subset h) (by decide)
  have hshown : '\n' ∉ fr.shown := by
    unfold TraceFrame.shown TraceFrame.fn
    cases fr.sym with
    | none => decide
    | some sym => exact newline_notMem_fn sym
  have hplace : '\n' ∉ fr.placeText := by
    unfold TraceFrame.placeText
    cases hcase : fr.place with
    | none => exact List.not_mem_nil
    | some place =>
      simp only [List.mem_append, newline_notMem_place hcase, not_or, not_false_eq_true, and_true]
      decide
  rw [printIpDesc_eq]
  simp only [List.mem_append, List.mem_cons, hfront, hshown, hplace, not_or, not_false_eq_true,
    and_true]
  decide

/-! ## What the skip-list sees of a frame -/

/-- The skip-list matches the name or the file of the frame, in lower case, or the place is not
known. A name that is not known is shown as `???`, which is on the list. -/
def TraceFrame.Listed (lower : Char → Char) (fr : TraceFrame) : Prop :=
  fr.loc = .unknown ∨ ∃ word ∈ skipList,
    word <:+: fr.shown.map lower ∨ word <:+: fr.loc.file.map lower

/-- The case mapping is the usual one on ASCII. -/
def LowersAscii (lower : Char → Char) : Prop := ∀ c, c.toNat < 128 → lower c = c.toLower

section Listed

variable {lower : Char → Char} (hlower : LowersAscii lower) {word : Line} (hword : word ∈ skipList)

include hlower in
theorem map_lower {t : Line} (h : (t.all fun c => c.toNat < 128) = true) :
    t.map lower = t.map Char.toLower :=
  List.map_congr_left fun c hc => hlower c (of_decide_eq_true (List.all_eq_true.1 h c hc))

include hlower hword in
/-- Each word has a character that does not occur in front of a name. -/
theorem not_infix_of_frontChars {t : Line} (h : t ⊆ frontChars) : ¬word <:+: t.map lower := by
  have hascii : (frontChars.all fun c => c.toNat < 128) = true := by decide
  have hother : ∀ w ∈ skipList, (w.any fun c => c ∉ frontChars.map Char.toLower) = true := by decide
  rw [map_lower hlower (List.all_eq_true.2 fun c hc => List.all_eq_true.1 hascii c (h hc))]
  obtain ⟨c, hc, hnot⟩ := List.any_eq_true.1 (hother word hword)
  exact fun hin => of_decide_eq_true hnot (List.map_subset _ h (hin.subset hc))

/-- No word holds a character that separates the parts of a line, or begins or ends where one of its
other parts could. -/
theorem skipList_separated : ∀ w ∈ skipList, ':' ∉ w ∧ '(' ∉ w ∧ ')' ∉ w ∧ w.head? ≠ some 'i' ∧
    w.head? ≠ some 'n' ∧ w.head? ≠ some ' ' ∧ w.getLast? ≠ some ' ' := by
  decide

include hlower hword in
/-- Of the place, a word can only match the file. -/
theorem infix_place_iff {fr : TraceFrame} {place : Line} (hplace : place ∈ fr.place)
    (hloc : fr.loc ≠ .unknown) :
    word <:+: place.map lower ↔ word <:+: fr.loc.file.map lower := by
  obtain ⟨hcolon, -, -, hi, hn, hblank, -⟩ := skipList_separated word hword
  unfold TraceFrame.place at hplace
  cases hcase : fr.loc with
  | source file lineno =>
    rw [hcase] at hplace
    cases hplace
    have hdigits : ¬word <:+: (Nat.toDigits 10 lineno).map lower :=
      not_infix_of_frontChars hlower hword fun c hc =>
        forall_mem_toDigits (p := fun c => c ∈ frontChars) (by decide) (by decide) lineno c hc
    have hsep : (file ++ ":".toList ++ Nat.toDigits 10 lineno).map lower =
        file.map lower ++ ':' :: (Nat.toDigits 10 lineno).map lower := by
      rw [List.map_append, List.map_append, List.append_assoc,
        map_lower hlower (t := ":".toList) (by decide)]
      rfl
    rw [hsep, infix_append_cons_iff hcolon, or_iff_left hdigits]
    rfl
  | object name =>
    rw [hcase] at hplace
    cases hplace
    have hin : ("in ".toList ++ name).map lower = 'i' :: 'n' :: ' ' :: name.map lower := by
      rw [List.map_append, map_lower hlower (by decide)]
      rfl
    rw [hin, infix_cons_of_head hi, infix_cons_of_head hn, infix_cons_of_head hblank]
    rfl
  | unknown => exact absurd hcase hloc

include hlower hword in
/-- A word matches in the name or in the place. -/
theorem infix_printIpDesc_iff {pid n : Nat} {fr : TraceFrame} :
    word <:+: (printIpDesc pid n fr).map lower ↔
      word <:+: fr.shown.map lower ∨ ∃ place ∈ fr.place, word <:+: place.map lower := by
  obtain ⟨hcolon, hopen, hclose, -, -, hblank, hlast⟩ := skipList_separated word hword
  have hline : (printIpDesc pid n fr).map lower = (lineFront pid n fr.ip).map lower ++
      ':' :: ' ' :: (fr.shown.map lower ++ fr.placeText.map lower) := by
    have hkept : lower ':' = ':' ∧ lower ' ' = ' ' :=
      ⟨hlower ':' (by decide), hlower ' ' (by decide)⟩
    rw [printIpDesc_eq, List.map_append, List.map_cons, List.map_cons, List.map_append, hkept.1,
      hkept.2]
  rw [hline, infix_append_cons_iff hcolon,
    or_iff_right (not_infix_of_frontChars hlower hword lineFront_subset), infix_cons_of_head hblank]
  cases hplace : fr.place with
  | none => simp [TraceFrame.placeText, hplace]
  | some place =>
    have htext : fr.shown.map lower ++ fr.placeText.map lower =
        fr.shown.map lower ++ [' '] ++ '(' :: (place.map lower ++ ')' :: []) := by
      rw [TraceFrame.placeText, hplace, List.map_append, List.map_append,
        map_lower hlower (t := " (".toList) (by decide),
        map_lower hlower (t := ")".toList) (by decide)]
      simp only [List.append_assoc]
      rfl
    have hnil : ¬word <:+: [] := by
      have hne : [] ∉ skipList := by decide
      rw [List.infix_nil]
      rintro rfl
      exact hne hword
    rw [htext, infix_append_cons_iff hopen, infix_concat_of_getLast hlast,
      infix_append_cons_iff hclose, or_iff_left hnil]
    simp

include hlower in
/-- **The skip-list sees the name and the file.** -/
theorem skipped_printIpDesc (pid n : Nat) (fr : TraceFrame) :
    skipped lower (printIpDesc pid n fr) = true ↔ fr.Listed lower := by
  have hmark : "???".toList ∈ skipList ∧ "???".toList.map lower = "???".toList :=
    ⟨by decide, map_lower hlower (by decide)⟩
  rw [skipped, List.any_eq_true, TraceFrame.Listed]
  simp only [decide_eq_true_eq]
  constructor
  · rintro ⟨word, hword, hin⟩
    by_cases hloc : fr.loc = .unknown
    · exact .inl hloc
    · refine .inr ⟨word, hword, ?_⟩
      rcases (infix_printIpDesc_iff hlower hword).1 hin with hin | ⟨place, hplace, hin⟩
      · exact .inl hin
      · exact .inr ((infix_place_iff hlower hword hplace hloc).1 hin)
  · rintro (hloc | ⟨word, hword, hin⟩)
    · refine ⟨"???".toList, hmark.1, (infix_printIpDesc_iff hlower hmark.1).2 ?_⟩
      cases hfn : fr.fn with
      | none =>
        left
        rw [TraceFrame.shown, hfn, Option.getD_none, hmark.2]
      | some fn =>
        right
        refine ⟨"in ???".toList, by rw [TraceFrame.place, hloc, hfn]; rfl, ?_⟩
        rw [map_lower hlower (by decide)]
        decide
    · refine ⟨word, hword, (infix_printIpDesc_iff hlower hword).2 ?_⟩
      rcases hin with hin | hin
      · exact .inl hin
      · right
        have hne : word ≠ [] := by
          rintro rfl
          revert hword
          decide
        cases hplace : fr.place with
        | none =>
          rw [(TraceFrame.place_eq_none hplace).2] at hin
          exact absurd (List.infix_nil.1 hin) hne
        | some place =>
          by_cases hloc : fr.loc = .unknown
          · rw [hloc] at hin
            exact absurd (List.infix_nil.1 hin) hne
          · exact ⟨place, rfl, (infix_place_iff hlower hword hplace hloc).2 hin⟩

end Listed

end Memlog.Query
