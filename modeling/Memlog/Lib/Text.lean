import Mathlib.Data.List.DropRight
import Mathlib.Data.List.TakeWhile

/-!
# Text as lists of characters

Character classes, scanning from the left, numerals and lines, as a scripting language's regular
expressions and string methods see them. A scanner takes what it matches off the front of the text
and returns the rest. `numeral_toDigits` and `scan_append` say that printed numbers are read back
whole, `splitLines_joinLines` that written lines are.
-/

namespace Memlog.Lib

/-! ## Character classes -/

/-- White space, as `str.isspace` and `\s` have it. -/
def isSpace (c : Char) : Bool :=
  let n := c.toNat
  (9 ≤ n && n ≤ 13) || (28 ≤ n && n ≤ 32) || n == 0x85 || n == 0xA0 || n == 0x1680 ||
    (0x2000 ≤ n && n ≤ 0x200A) || n == 0x2028 || n == 0x2029 || n == 0x202F || n == 0x205F ||
    n == 0x3000

/-- The value of a hexadecimal digit, `[0-9a-fA-F]`. -/
def hexVal (c : Char) : Option Nat :=
  let n := c.toNat
  if 48 ≤ n ∧ n ≤ 57 then some (n - 48)
  else if 97 ≤ n ∧ n ≤ 102 then some (n - 87)
  else if 65 ≤ n ∧ n ≤ 70 then some (n - 55)
  else none

/-- The code points of the zeros of the decimal digits (category Nd). -/
def decimalZeros : List Nat :=
  [0x30, 0x660, 0x6F0, 0x7C0, 0x966, 0x9E6, 0xA66, 0xAE6, 0xB66, 0xBE6, 0xC66, 0xCE6, 0xD66, 0xDE6,
    0xE50, 0xED0, 0xF20, 0x1040, 0x1090, 0x17E0, 0x1810, 0x1946, 0x19D0, 0x1A80, 0x1A90, 0x1B50,
    0x1BB0, 0x1C40, 0x1C50, 0xA620, 0xA8D0, 0xA900, 0xA9D0, 0xA9F0, 0xAA50, 0xABF0, 0xFF10, 0x104A0,
    0x10D30, 0x11066, 0x110F0, 0x11136, 0x111D0, 0x112F0, 0x11450, 0x114D0, 0x11650, 0x116C0,
    0x11730, 0x118E0, 0x11950, 0x11C50, 0x11D50, 0x11DA0, 0x11F50, 0x16A60, 0x16AC0, 0x16B50,
    0x1D7CE, 0x1D7D8, 0x1D7E2, 0x1D7EC, 0x1D7F6, 0x1E140, 0x1E2F0, 0x1E4F0, 0x1E950, 0x1FBF0]

/-- The value of a decimal digit, as `\d` and `int` have it. -/
def decVal (c : Char) : Option Nat :=
  (decimalZeros.find? fun z => z ≤ c.toNat && c.toNat < z + 10).map (c.toNat - ·)

def isHexDigit (c : Char) : Bool := (hexVal c).isSome

def isDecDigit (c : Char) : Bool := (decVal c).isSome

theorem toNat_lt_of_isHexDigit {c : Char} (h : isHexDigit c = true) : c.toNat < 103 := by
  unfold isHexDigit hexVal at h
  dsimp only at h
  split_ifs at h <;> first | omega | simp at h

/-- A digit has one value in both cases. -/
theorem hexVal_toLower {c : Char} (h : isHexDigit c = true) :
    hexVal c.toLower = hexVal c ∧ c.toLower ≠ '_' := by
  have hall : ∀ n < 103, isHexDigit (Char.ofNat n) = true →
      hexVal (Char.ofNat n).toLower = hexVal (Char.ofNat n) ∧ (Char.ofNat n).toLower ≠ '_' := by
    decide
  have hc := hall c.toNat (toNat_lt_of_isHexDigit h)
  rw [Char.ofNat_toNat] at hc
  exact hc h

/-! ## Scanning -/

/-- The longest part at the front whose characters are all in the class, at least one of them. -/
def scan (p : Char → Bool) (s : List Char) : Option (List Char × List Char) :=
  if (s.takeWhile p).isEmpty then none else some (s.takeWhile p, s.dropWhile p)

/-- What follows a literal text. -/
def after (lit s : List Char) : Option (List Char) :=
  if lit.isPrefixOf s then some (s.drop lit.length) else none

/-- The text does not go on with a character of the class. -/
def StopsAt (p : Char → Bool) (s : List Char) : Prop := ∀ c ∈ s.head?, p c = false

instance (p : Char → Bool) (s : List Char) : Decidable (StopsAt p s) :=
  decidable_of_iff ((s.head?.all fun c => !p c) = true) (by simp [StopsAt, Option.all_eq_true])

theorem stopsAt_cons {p : Char → Bool} {c : Char} (h : p c = false) (s : List Char) :
    StopsAt p (c :: s) := by
  intro d hd
  cases hd
  exact h

theorem scan_append {p : Char → Bool} {s t : List Char} (hne : s ≠ []) (hs : ∀ c ∈ s, p c = true)
    (ht : StopsAt p t) : scan p (s ++ t) = some (s, t) := by
  have htake : t.takeWhile p = [] := by
    cases t with
    | nil => rfl
    | cons c t => exact List.takeWhile_cons_of_neg (by simp [ht c rfl])
  have hdrop : t.dropWhile p = t := by
    cases t with
    | nil => rfl
    | cons c t => exact List.dropWhile_cons_of_neg (by simp [ht c rfl])
  rw [scan, List.takeWhile_append_of_pos hs, List.dropWhile_append_of_pos hs, htake, hdrop,
    List.append_nil, if_neg (by simpa using hne)]

theorem forall_mem_of_scan {p : Char → Bool} {s t u : List Char} (h : scan p s = some (t, u)) :
    ∀ c ∈ t, p c = true := by
  unfold scan at h
  split at h
  · cases h
  · cases h
    exact fun c hc => List.mem_takeWhile_imp hc

/-- A single blank. -/
theorem scan_blank {c : Char} (h : isSpace c = false) (s : List Char) :
    scan isSpace (' ' :: c :: s) = some ([' '], c :: s) := by
  refine scan_append (s := [' ']) (by simp) ?_ (stopsAt_cons h s)
  intro d hd
  rw [List.mem_singleton] at hd
  subst hd
  rfl

@[simp] theorem after_append (lit s : List Char) : after lit (lit ++ s) = some s := by
  rw [after, if_pos (by simp), List.drop_left]

/-! ## Searching -/

/-- The text before the first occurrence of `stop`. -/
def upTo (stop : List Char) : List Char → Option (List Char)
  | [] => if stop.isPrefixOf [] then some [] else none
  | c :: s => if stop.isPrefixOf (c :: s) then some [] else (upTo stop s).map (c :: ·)

/-- A text up to the first occurrence of `stop`, or the whole of it. -/
def cut (stop s : List Char) : List Char := (upTo stop s).getD s

/-- The shortest text between an occurrence of `start`, the first possible, and one of `stop`. -/
def between (start stop : List Char) : List Char → Option (List Char)
  | [] => (after start []).bind (upTo stop)
  | c :: s => ((after start (c :: s)).bind (upTo stop)).or (between start stop s)

/-- A separator of two different characters does not overlap a copy of itself. -/
theorem upTo_append {a b : Char} (hab : a ≠ b) (s t : List Char) :
    upTo [a, b] (s ++ a :: b :: t) = some (cut [a, b] s) := by
  induction s with
  | nil => simp [upTo, cut]
  | cons c s ih =>
    have hsame : [a, b].isPrefixOf (c :: s ++ a :: b :: t) = [a, b].isPrefixOf (c :: s) := by
      cases s with
      | nil => simp [List.isPrefixOf, hab.symm]
      | cons d s => simp [List.isPrefixOf]
    unfold cut at ih ⊢
    rw [List.cons_append] at hsame ⊢
    rw [upTo, upTo, hsame]
    split
    · rfl
    · rw [ih]
      cases upTo [a, b] s <;> rfl

theorem upTo_isSome_iff {stop : List Char} (s : List Char) :
    (upTo stop s).isSome ↔ stop <:+: s := by
  induction s with
  | nil =>
    rw [upTo, List.infix_nil]
    cases stop <;> simp
  | cons c s ih =>
    rw [upTo, List.infix_cons_iff, ← List.isPrefixOf_iff_prefix, ← ih]
    split
    · rename_i h
      simp [h]
    · rename_i h
      simp [h]

theorem length_upTo {stop s t : List Char} (hne : stop ≠ []) (h : upTo stop s = some t) :
    t.length < s.length := by
  induction s generalizing t with
  | nil =>
    rw [upTo, if_neg (by simpa using hne)] at h
    cases h
  | cons c s ih =>
    rw [upTo] at h
    split at h
    · cases h
      exact Nat.zero_lt_succ _
    · obtain ⟨u, hu, rfl⟩ := Option.map_eq_some_iff.1 h
      exact Nat.succ_lt_succ (ih hu)

/-- Nothing is cut off a text without the separator only. -/
theorem cut_eq_self_iff {stop : List Char} (hne : stop ≠ []) (s : List Char) :
    cut stop s = s ↔ ¬stop <:+: s := by
  rw [← upTo_isSome_iff, cut]
  cases h : upTo stop s with
  | none => simp
  | some t =>
    have hlen := length_upTo hne h
    have hts : t ≠ s := by
      rintro rfl
      exact absurd hlen (lt_irrefl _)
    simp [hts]

/-- Nothing is left of a text that begins with the separator, or of none. -/
theorem cut_eq_nil_iff {stop s : List Char} : cut stop s = [] ↔ s = [] ∨ stop <+: s := by
  cases s with
  | nil =>
    rw [cut, upTo]
    split <;> simp
  | cons d s =>
    rw [cut, upTo, ← List.isPrefixOf_iff_prefix]
    split
    · rename_i h
      simp [h]
    · rename_i h
      cases upTo stop s <;> simp [h]

/-- What stands before the first character of `start` is passed over. -/
theorem between_append {c : Char} {start stop s : List Char} (hs : c ∉ s) (t : List Char) :
    between (c :: start) stop (s ++ t) = between (c :: start) stop t := by
  induction s with
  | nil => rfl
  | cons d s ih =>
    have hd : c ≠ d := fun h => hs (h ▸ List.mem_cons_self)
    have hafter : after (c :: start) (d :: (s ++ t)) = none := by
      rw [after, if_neg (by simp [hd])]
    rw [List.cons_append, between, hafter, ih (List.not_mem_of_not_mem_cons hs)]
    rfl

/-- The text from `start` to the next `stop`. -/
theorem between_of_upTo {start stop s t : List Char} (h : upTo stop s = some t) :
    between start stop (start ++ s) = some t := by
  cases hcase : start ++ s with
  | nil =>
    rw [between, ← hcase, after_append, Option.bind_some, h]
  | cons c r =>
    rw [between, ← hcase, after_append, Option.bind_some, h]
    rfl

/-! ## Words in a text -/

section Infix

variable {α : Type} {c : α} {w x y : List α}

theorem prefix_append_cons_iff (hc : c ∉ w) : w <+: x ++ c :: y ↔ w <+: x := by
  refine ⟨fun h => ?_, fun h => h.trans (List.prefix_append x _)⟩
  rcases Nat.lt_or_ge x.length w.length with hlt | hle
  · have hin : x ++ [c] <+: w := by
      refine List.prefix_of_prefix_length_le ⟨y, by simp⟩ h ?_
      rw [List.length_append]
      exact hlt
    exact absurd (hin.subset (by simp)) hc
  · exact List.prefix_of_prefix_length_le h (List.prefix_append x _) hle

/-- What does not contain a separator stands on one side of it. -/
theorem infix_append_cons_iff (hc : c ∉ w) : w <:+: x ++ c :: y ↔ w <:+: x ∨ w <:+: y := by
  induction x with
  | nil =>
    have hfront := prefix_append_cons_iff (x := []) (y := y) hc
    rw [List.nil_append] at hfront ⊢
    rw [List.infix_cons_iff, hfront, List.prefix_nil, List.infix_nil]
  | cons d x ih =>
    have hfront := prefix_append_cons_iff (x := d :: x) (y := y) hc
    rw [List.cons_append] at hfront ⊢
    rw [List.infix_cons_iff, hfront, List.infix_cons_iff, or_assoc]
    exact or_congr_right ih

theorem infix_cons_of_head (h : w.head? ≠ some c) : w <:+: c :: y ↔ w <:+: y := by
  rw [List.infix_cons_iff, List.prefix_cons_iff]
  constructor
  · rintro ((rfl | ⟨t, rfl, -⟩) | hin)
    · exact List.nil_infix
    · exact absurd rfl h
    · exact hin
  · exact .inr

theorem infix_concat_of_getLast (h : w.getLast? ≠ some c) : w <:+: x ++ [c] ↔ w <:+: x := by
  rw [List.infix_concat_iff, List.suffix_concat_iff]
  constructor
  · rintro ((rfl | ⟨t, rfl, -⟩) | hin)
    · exact List.nil_infix
    · exact absurd (by simp) h
    · exact hin
  · exact .inr

end Infix

/-! ## Numerals -/

/-- The number that a text stands for in a base; `val` gives the values of its characters. -/
def numeral (base : Nat) (val : Char → Option Nat) (s : List Char) : Nat :=
  s.foldl (fun n c => base * n + (val c).getD 0) 0

theorem numeral_map {base : Nat} {val : Char → Option Nat} {f : Char → Char} {s : List Char}
    (h : ∀ c ∈ s, val (f c) = val c) : numeral base val (s.map f) = numeral base val s := by
  unfold numeral
  rw [List.foldl_map]
  refine List.foldl_ext _ _ 0 fun n c hc => ?_
  rw [h c hc]

theorem numeral_toDigits {b : Nat} {val : Char → Option Nat} (hb : 1 < b)
    (hval : ∀ d < b, val (Nat.digitChar d) = some d) (n : Nat) :
    numeral b val (Nat.toDigits b n) = n := by
  induction n using Nat.base_induction b hb with
  | single m hm =>
    simp [numeral, Nat.toDigits_of_lt_base hm, hval m hm]
  | digit m k hk hm ih =>
    unfold numeral at ih ⊢
    rw [← Nat.toDigits_append_toDigits hb hm hk, List.foldl_append, ih,
      Nat.toDigits_of_lt_base hk]
    simp [hval k hk]

theorem mem_toDigits {b n : Nat} {c : Char} (hb : 1 < b) (hc : c ∈ Nat.toDigits b n) :
    ∃ d < b, c = Nat.digitChar d := by
  induction n using Nat.base_induction b hb with
  | single m hm =>
    rw [Nat.toDigits_of_lt_base hm, List.mem_singleton] at hc
    exact ⟨m, hm, hc⟩
  | digit m k hk hm ih =>
    rw [← Nat.toDigits_append_toDigits hb hm hk, List.mem_append,
      Nat.toDigits_of_lt_base hk, List.mem_singleton] at hc
    rcases hc with hc | hc
    · exact ih hc
    · exact ⟨k, hk, hc⟩

theorem toDigits_injective {b : Nat} (hb : 1 < b) (hval : ∃ val : Char → Option Nat,
    ∀ d < b, val (Nat.digitChar d) = some d) : Function.Injective (Nat.toDigits b) := by
  obtain ⟨val, hval⟩ := hval
  exact Function.LeftInverse.injective (numeral_toDigits hb hval)

theorem hexVal_digitChar : ∀ d < 16, hexVal (Nat.digitChar d) = some d := by decide

theorem decVal_digitChar : ∀ d < 10, decVal (Nat.digitChar d) = some d := by decide

/-- What holds of the sixteen lower-case digits holds of a printed hexadecimal number. -/
theorem forall_mem_toDigits {b : Nat} {p : Char → Prop} (hb : 1 < b)
    (h : ∀ d < b, p (Nat.digitChar d)) (n : Nat) : ∀ c ∈ Nat.toDigits b n, p c := by
  intro c hc
  obtain ⟨d, hd, rfl⟩ := mem_toDigits hb hc
  exact h d hd

/-! ## Fields -/

/-- A text up to its first separator and what follows it are determined by the whole. -/
theorem append_cons_inj {c : Char} {s s' t t' : List Char} (hs : c ∉ s) (hs' : c ∉ s')
    (h : s ++ c :: t = s' ++ c :: t') : s = s' ∧ t = t' := by
  induction s generalizing s' with
  | nil =>
    cases s' with
    | nil => exact ⟨rfl, (List.cons.inj h).2⟩
    | cons d s' => exact absurd (List.mem_cons.2 (.inl (List.cons.inj h).1)) hs'
  | cons d s ih =>
    cases s' with
    | nil => exact absurd (List.mem_cons.2 (.inl (List.cons.inj h).1.symm)) hs
    | cons d' s' =>
      obtain ⟨hd, htail⟩ := List.cons.inj h
      obtain ⟨hs₁, ht₁⟩ := ih (List.not_mem_of_not_mem_cons hs) (List.not_mem_of_not_mem_cons hs')
        htail
      exact ⟨by rw [hd, hs₁], ht₁⟩

section Words

variable {p : Char → Bool} {s : List Char}

/-- The parts of a text between separators that are not empty. -/
def words (p : Char → Bool) (s : List Char) : List (List Char) := (s.splitOnP p).filter (· ≠ [])

theorem words_cons_of_sep {c : Char} (hc : p c = true) : words p (c :: s) = words p s := by
  rw [words, List.splitOnP_cons_eq_if_modifyHead, if_pos hc, List.filter_cons_of_neg (by simp),
    words]

/-- Separators at the front do not matter. -/
theorem words_dropWhile (p : Char → Bool) (s : List Char) :
    words p (s.dropWhile p) = words p s := by
  induction s with
  | nil => rfl
  | cons c s ih =>
    by_cases hc : p c = true
    · rw [List.dropWhile_cons_of_pos hc, ih, words_cons_of_sep hc]
    · rw [List.dropWhile_cons_of_neg hc]

/-- The first word and the others. -/
theorem words_of_not_sep (hne : s ≠ []) (hs : StopsAt p s) :
    words p s = (s.takeWhile fun c => !p c) ::
      words p ((s.dropWhile fun c => !p c).drop 1) := by
  have hfront : ∀ c ∈ s.takeWhile fun c => !p c, p c = false := by
    intro c hc
    simpa using List.mem_takeWhile_imp hc
  have hword : s.takeWhile (fun c => !p c) ≠ [] := by
    obtain ⟨c, s', rfl⟩ := List.exists_cons_of_ne_nil hne
    rw [List.takeWhile_cons_of_pos (by simp [hs c rfl])]
    exact List.cons_ne_nil _ _
  have happend := List.takeWhile_append_dropWhile (p := fun c => !p c) (l := s)
  cases hrest : s.dropWhile fun c => !p c with
  | nil =>
    rw [hrest, List.append_nil] at happend
    rw [happend] at hfront hword ⊢
    rw [words, List.splitOnP_eq_singleton hfront, List.filter_cons_of_pos (by simpa using hword)]
    rfl
  | cons c rest =>
    have hc : p c = true := by
      have hstop := List.head?_dropWhile_not (fun c => !p c) s
      rw [hrest] at hstop
      simpa using hstop
    rw [hrest] at happend
    nth_rewrite 1 [← happend]
    rw [words, List.splitOnP_append_cons_of_forall_mem hfront c hc,
      List.filter_cons_of_pos (by simpa using hword)]
    rfl

end Words

/-! ## Lines -/

/-- A text without white space at its right end. -/
def rstrip (s : List Char) : List Char := s.rdropWhile isSpace

/-- A text without white space at either end. -/
def strip (s : List Char) : List Char := rstrip (s.dropWhile isSpace)

/-- Lines, each with its line feed. -/
def joinLines (ls : List (List Char)) : List Char := ls.flatMap (· ++ ['\n'])

/-- The lines of a text in universal newlines mode, each with its line feed if it has one; `line` is
the part of the current line that has been read. -/
def splitLinesFrom (line : List Char) : List Char → List (List Char)
  | [] => if line.isEmpty then [] else [line]
  | '\r' :: '\n' :: s => (line ++ ['\n']) :: splitLinesFrom [] s
  | c :: s =>
    if c = '\n' ∨ c = '\r' then (line ++ ['\n']) :: splitLinesFrom [] s
    else splitLinesFrom (line ++ [c]) s

def splitLines (s : List Char) : List (List Char) := splitLinesFrom [] s

/-- The lines of a binary stream, which end at line feeds only; `line` is the part of the current
line that has been read. -/
def splitFeedsFrom (line : List Char) : List Char → List (List Char)
  | [] => if line.isEmpty then [] else [line]
  | c :: s =>
    if c = '\n' then (line ++ ['\n']) :: splitFeedsFrom [] s else splitFeedsFrom (line ++ [c]) s

def splitFeeds (s : List Char) : List (List Char) := splitFeedsFrom [] s

/-- A text that stays on one line. -/
def OneLine (s : List Char) : Prop := '\n' ∉ s ∧ '\r' ∉ s

instance (s : List Char) : Decidable (OneLine s) := inferInstanceAs (Decidable (_ ∧ _))

theorem OneLine.append {s t : List Char} (hs : OneLine s) (ht : OneLine t) : OneLine (s ++ t) :=
  ⟨by simp [hs.1, ht.1], by simp [hs.2, ht.2]⟩

theorem splitLinesFrom_append {line s : List Char} (hs : OneLine s) (t : List Char) :
    splitLinesFrom line (s ++ '\n' :: t) = (line ++ s ++ ['\n']) :: splitLines t := by
  induction s generalizing line with
  | nil => simp [splitLinesFrom, splitLines]
  | cons c s ih =>
    have hc : ¬(c = '\n' ∨ c = '\r') := by
      rintro (rfl | rfl)
      · exact hs.1 List.mem_cons_self
      · exact hs.2 List.mem_cons_self
    have hs' : OneLine s :=
      ⟨List.not_mem_of_not_mem_cons hs.1, List.not_mem_of_not_mem_cons hs.2⟩
    rw [List.cons_append, splitLinesFrom, if_neg hc, ih hs']
    · simp
    · rintro s' rfl
      exact absurd (.inr rfl) hc

/-- **Lines are read back as they were written.** -/
theorem splitLines_joinLines {ls : List (List Char)} (h : ∀ l ∈ ls, OneLine l) :
    splitLines (joinLines ls) = ls.map (· ++ ['\n']) := by
  induction ls with
  | nil => rfl
  | cons l ls ih =>
    have hjoin : joinLines (l :: ls) = l ++ '\n' :: joinLines ls := by
      simp [joinLines]
    rw [hjoin, splitLines, splitLinesFrom_append (h l List.mem_cons_self),
      ih fun l' hl' => h l' (List.mem_cons_of_mem _ hl')]
    rfl

theorem splitFeedsFrom_append {line s : List Char} (hs : '\n' ∉ s) (t : List Char) :
    splitFeedsFrom line (s ++ '\n' :: t) = (line ++ s ++ ['\n']) :: splitFeeds t := by
  induction s generalizing line with
  | nil => simp [splitFeedsFrom, splitFeeds]
  | cons c s ih =>
    have hc : c ≠ '\n' := fun h => hs (h ▸ List.mem_cons_self)
    rw [List.cons_append, splitFeedsFrom, if_neg hc, ih (List.not_mem_of_not_mem_cons hs)]
    simp

/-- Written lines are read back from a binary stream. -/
theorem splitFeeds_joinLines {ls : List (List Char)} (h : ∀ l ∈ ls, '\n' ∉ l) :
    splitFeeds (joinLines ls) = ls.map (· ++ ['\n']) := by
  induction ls with
  | nil => rfl
  | cons l ls ih =>
    have hjoin : joinLines (l :: ls) = l ++ '\n' :: joinLines ls := by
      simp [joinLines]
    rw [hjoin, splitFeeds, splitFeedsFrom_append (h l List.mem_cons_self),
      ih fun l' hl' => h l' (List.mem_cons_of_mem _ hl')]
    rfl

end Memlog.Lib
