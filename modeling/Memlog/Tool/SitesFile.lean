import Memlog.Lib.Text
import Memlog.Tool.Site

/-!
# The file of sites

`mx_load_sites` reads the file of `--mx-sites-file` into a buffer that grows by doubling, cuts the
text at line ends with `VG_(strtok_r)` and keeps the lines that are not comments in a table of 4096
entries. However the kernel cuts the file into reads, the buffer holds the file up to `2^31` bytes
(`mxReadSites_eq`): there the space left no longer fits the `Int` that `VG_(read)` takes. The table
holds the first lines of the text before a NUL (`mlPostCloInit_eq`). So a block is marked if its
allocating statement is listed (`marked_iff_listed`), for a file that has a site, no NUL, and not
too many bytes; a table without entries stands for all blocks (`marked_not_listed`).
-/

namespace Memlog

open Lib

/-! ## Reading the file -/

/-- `VG_(read)`, with the number of bytes that it returns: a negative count is an error, and the
kernel may return fewer bytes than there are, as it `wish`es, but not none. -/
def vgRead (rest : List Char) (count : Int) (wish : Nat) : Int :=
  if count < 0 then -1 else (min (max 1 wish) (min count.toNat rest.length) : Nat)

/-- The loop of `mx_load_sites` that reads the file; `buf` is the part of the buffer that is filled,
and `rest` what is left of the file. A turn takes at least one byte of it. -/
def mxReadSites (wish : Nat → Nat) : Nat → Nat → List Char → List Char → List Char
  | 0, _, buf, _ => buf
  | fuel + 1, cap, buf, rest =>
    let n := vgRead rest (BitVec.ofNat 32 (cap - buf.length)).toInt (wish fuel)
    if 0 < n then
      let buf := buf ++ rest.take n.toNat
      mxReadSites wish fuel (if buf.length = cap then cap * 2 else cap) buf (rest.drop n.toNat)
    else buf

/-- `VG_(strtok_r)`: the next token and what it leaves for the next call. -/
def vgStrtokR (delim s : List Char) : Option (List Char × List Char) :=
  let s := s.dropWhile delim.contains
  if s.isEmpty then none
  else
    some (s.takeWhile fun c => !delim.contains c, (s.dropWhile fun c => !delim.contains c).drop 1)

/-- `MX_MAX_SITES`. -/
def mxMaxSites : Nat := 4096

/-- The loop of `mx_load_sites` over the tokens. -/
def mxStoreSites : Nat → List Char → List Line → List Line
  | 0, _, mxSites => mxSites
  | fuel + 1, s, mxSites =>
    match vgStrtokR ['\r', '\n'] s with
    | none => mxSites
    | some (tok, save) =>
      if mxSites.length < mxMaxSites then
        mxStoreSites fuel save
          (if tok.head? ≠ some '#' ∧ tok.head? ≠ none then mxSites ++ [tok] else mxSites)
      else mxSites

/-- `mx_load_sites`; `none` is the exit if the file cannot be opened. -/
def mxLoadSites (clo : Clo) (file : String → Option (List Char)) (wish : Nat → Nat) :
    Option (List Line) :=
  match clo.mxSitesFile with
  | none => some []
  | some path =>
    (file path).map fun content =>
      let buf := mxReadSites wish (content.length + 1) (2 ^ 16) [] content
      let text := buf.takeWhile fun c => c ≠ '\x00'
      mxStoreSites (text.length + 1) text []

def mlPostCloInit (clo : Clo) (file : String → Option (List Char)) (wish : Nat → Nat) :
    Option (List Line) :=
  if clo.mxRound then mxLoadSites clo file wish else some []

/-! ## The lines of the file -/

def isLineEnd (c : Char) : Bool := c == '\r' || c == '\n'

/-- The lines of a file that are neither empty nor comments. -/
def siteLines (content : List Char) : List Line :=
  (content.splitOnP isLineEnd).filter fun line => line ≠ [] ∧ line.head? ≠ some '#'

/-- The allocating statement of a thread is one of the lines, by its name or its address. -/
def Listed (lines : List Line) (who : Caller) : Prop :=
  ∃ ip fn, mxSiteFrame (who.frames.take 16) = some (ip, fn) ∧
    ∃ line ∈ lines, line = fn ∨ line = "0x".toList ++ printHexUpper ip

/-! ## The buffer -/

section Read

variable {wish : Nat → Nat} {cap : Nat} {buf rest : List Char}

/-- A buffer on the way: its capacity is a power of two, and it is at least half full once it has
grown. -/
structure Growing (cap len : Nat) : Prop where
  pow : ∃ k ≤ 16, cap = 2 ^ (16 + k)
  lt : len < cap
  half : cap = 2 ^ 16 ∨ cap ≤ 2 * len
  le : len ≤ 2 ^ 31

theorem Growing.cases (h : Growing cap buf.length) :
    cap ≤ 2 ^ 31 ∧ 0 < cap - buf.length ∧ cap - buf.length < 2 ^ 31 ∨
      cap - buf.length = 2 ^ 31 ∧ buf.length = 2 ^ 31 := by
  obtain ⟨⟨k, hk, rfl⟩, hlt, hhalf, hle⟩ := h
  rcases Nat.lt_or_ge k 16 with hk' | hk'
  · have hpow : 2 ^ (16 + k) ≤ 2 ^ 31 := Nat.pow_le_pow_right (by omega) (by omega)
    omega
  · obtain rfl : k = 16 := by omega
    omega

/-- A turn of the loop. -/
theorem Growing.step (h : Growing cap buf.length) (hcap : cap ≤ 2 ^ 31) {n : Nat} (hn : 0 < n)
    (hle : n ≤ cap - buf.length) :
    Growing (if buf.length + n = cap then cap * 2 else cap) (buf.length + n) := by
  obtain ⟨⟨k, hk, rfl⟩, hlt, hhalf, -⟩ := h
  split
  · rename_i hfull
    have hk' : k < 16 := by
      by_contra hge
      obtain rfl : k = 16 := by omega
      omega
    refine ⟨⟨k + 1, hk', ?_⟩, ?_, .inr ?_, by omega⟩
    · rw [← Nat.add_assoc, pow_succ]
    · omega
    · omega
  · exact ⟨⟨k, hk, rfl⟩, by omega, by omega, by omega⟩

/-- **The buffer holds the file** up to `2^31` bytes, however the reads cut it. -/
theorem mxReadSites_eq {fuel : Nat} (hfuel : rest.length < fuel) (h : Growing cap buf.length) :
    mxReadSites wish fuel cap buf rest = (buf ++ rest).take (2 ^ 31) := by
  induction fuel generalizing cap buf rest with
  | zero => omega
  | succ fuel ih =>
    have hstop : buf.length = 2 ^ 31 ∨ rest = [] → (buf ++ rest).take (2 ^ 31) = buf := by
      rintro (heq | rfl)
      · rw [← heq, List.take_left]
      · rw [List.append_nil, List.take_of_length_le h.le]
    rw [mxReadSites]
    rcases h.cases with ⟨hcap, hpos, hlt⟩ | ⟨hcount, hfull⟩
    · have hcount : (BitVec.ofNat 32 (cap - buf.length)).toInt = (cap - buf.length : Nat) := by
        rw [BitVec.toInt_eq_toNat_cond, BitVec.toNat_ofNat, Nat.mod_eq_of_lt (by omega),
          if_pos (by omega)]
      have hread : vgRead rest (BitVec.ofNat 32 (cap - buf.length)).toInt (wish fuel) =
          (min (max 1 (wish fuel)) (min (cap - buf.length) rest.length) : Nat) := by
        rw [vgRead, hcount, if_neg (by omega), Int.toNat_natCast]
      dsimp only
      rw [hread]
      generalize hn : min (max 1 (wish fuel)) (min (cap - buf.length) rest.length) = n
      split
      · rename_i hpos'
        have hlen : (buf ++ rest.take n).length = buf.length + n := by
          rw [List.length_append, List.length_take]
          omega
        have hgrow : Growing (if (buf ++ rest.take n).length = cap then cap * 2 else cap)
            (buf ++ rest.take n).length := by
          rw [hlen]
          exact h.step hcap (by omega) (by omega)
        rw [Int.toNat_natCast, ih (by rw [List.length_drop]; omega) hgrow, List.append_assoc,
          List.take_append_drop]
      · rename_i hzero
        refine (hstop (.inr (List.eq_nil_of_length_eq_zero ?_))).symm
        omega
    · -- the count is no `Int`, and the read fails
      have hneg : vgRead rest (BitVec.ofNat 32 (cap - buf.length)).toInt (wish fuel) = -1 := by
        rw [hcount]
        exact if_pos (by decide)
      dsimp only
      rw [hneg, if_neg (by omega)]
      exact (hstop (.inl hfull)).symm

end Read

/-! ## The table -/

section Tokens

variable {s : List Char}

/-- A line that is stored. -/
def isSite (line : Line) : Bool := line.head? ≠ some '#'

theorem siteLines_eq (s : List Char) : siteLines s = (words isLineEnd s).filter isSite := by
  rw [siteLines, words, List.filter_filter]
  refine List.filter_congr fun line _ => ?_
  simp only [isSite, Bool.and_comm, Bool.decide_and]

theorem contains_lineEnds : (['\r', '\n'].contains : Char → Bool) = isLineEnd := by
  funext c
  simp only [List.contains_cons, List.contains_nil, Bool.or_false, isLineEnd]

/-- `VG_(strtok_r)` finds the words between line ends one by one. -/
theorem vgStrtokR_spec (s : List Char) :
    vgStrtokR ['\r', '\n'] s = none ∧ words isLineEnd s = [] ∨
      ∃ tok save, vgStrtokR ['\r', '\n'] s = some (tok, save) ∧ tok ≠ [] ∧
        words isLineEnd s = tok :: words isLineEnd save ∧ save.length < s.length := by
  rw [vgStrtokR, contains_lineEnds, ← words_dropWhile]
  have hle : (s.dropWhile isLineEnd).length ≤ s.length := (List.dropWhile_suffix _).length_le
  have hstop : StopsAt isLineEnd (s.dropWhile isLineEnd) := by
    intro c hc
    have hhead := List.head?_dropWhile_not isLineEnd s
    rw [hc] at hhead
    simpa using hhead
  generalize s.dropWhile isLineEnd = s' at hle hstop
  cases s' with
  | nil => exact .inl ⟨rfl, rfl⟩
  | cons c s' =>
    have hwords := words_of_not_sep (List.cons_ne_nil c s') hstop
    refine .inr ⟨_, _, rfl, ?_, hwords, ?_⟩
    · rw [List.takeWhile_cons_of_pos (by simp [hstop c rfl])]
      exact List.cons_ne_nil _ _
    · have hdrop : (((c :: s').dropWhile fun c => !isLineEnd c)).length ≤ (c :: s').length :=
        (List.dropWhile_suffix _).length_le
      rw [List.length_drop]
      rw [List.length_cons] at hdrop hle
      omega

/-- **The table holds the first lines** that are no comments. -/
theorem mxStoreSites_eq {fuel : Nat} (hfuel : s.length < fuel) {mxSites : List Line}
    (hsites : mxSites.length ≤ mxMaxSites) :
    mxStoreSites fuel s mxSites = (mxSites ++ siteLines s).take mxMaxSites := by
  induction fuel generalizing s mxSites with
  | zero => omega
  | succ fuel ih =>
    rw [siteLines_eq]
    rcases vgStrtokR_spec s with ⟨hnone, hwords⟩ | ⟨tok, save, hsome, hne, hwords, hlt⟩
    · rw [mxStoreSites, hnone, hwords, List.filter_nil, List.append_nil,
        List.take_of_length_le hsites]
    · rw [mxStoreSites, hsome, hwords]
      dsimp only
      by_cases hroom : mxSites.length < mxMaxSites
      · have htok : (tok.head? ≠ some '#' ∧ tok.head? ≠ none) ↔ isSite tok = true := by
          rw [isSite, decide_eq_true_eq, and_iff_left (by rwa [ne_eq, List.head?_eq_none_iff])]
        rw [if_pos hroom]
        by_cases hsite : isSite tok = true
        · rw [if_pos (htok.2 hsite), ih (by omega) (by rw [List.length_append]; exact hroom),
            List.filter_cons_of_pos hsite, siteLines_eq, List.append_assoc]
          rfl
        · rw [if_neg (mt htok.1 hsite), ih (by omega) hsites, List.filter_cons_of_neg hsite,
            siteLines_eq]
      · -- the table is full
        have hfull : mxSites.length = mxMaxSites := by omega
        rw [if_neg hroom, ← hfull, List.take_left]

end Tokens

section Load

variable {clo : Clo} {path : String} {file : String → Option (List Char)} {wish : Nat → Nat}
  {content : List Char}

/-- What `mx_load_sites` takes from a file. -/
theorem mlPostCloInit_eq (hround : clo.mxRound) (hpath : clo.mxSitesFile = some path)
    (hfile : file path = some content) : mlPostCloInit clo file wish = some
      ((siteLines ((content.take (2 ^ 31)).takeWhile fun c => c ≠ '\x00')).take mxMaxSites) := by
  have hread : mxReadSites wish (content.length + 1) (2 ^ 16) [] content = content.take (2 ^ 31) :=
    mxReadSites_eq (Nat.lt_succ_self _) ⟨⟨0, by omega, rfl⟩, by decide, .inl rfl, by decide⟩
  rw [mlPostCloInit, if_pos hround, mxLoadSites, hpath]
  dsimp only
  rw [hfile, Option.map_some, hread, mxStoreSites_eq (Nat.lt_succ_self _) (by decide),
    List.nil_append]

/-- A file without NUL and not too long is read as it is. -/
theorem mlPostCloInit_text (hround : clo.mxRound) (hpath : clo.mxSitesFile = some path)
    (hfile : file path = some content) (hlen : content.length ≤ 2 ^ 31) (hnul : '\x00' ∉ content) :
    mlPostCloInit clo file wish = some ((siteLines content).take mxMaxSites) := by
  have htext : (content.takeWhile fun c => c ≠ '\x00') = content := by
    rw [List.takeWhile_eq_self_iff]
    intro c hc
    exact decide_eq_true fun heq => hnul (heq ▸ hc)
  rw [mlPostCloInit_eq hround hpath hfile, List.take_of_length_le hlen, htext]

end Load

/-! ## Marked blocks -/

section Marked

variable {su : Setup} {who : Caller}

theorem any_siteMatches_iff (lines : List Line) :
    ((mxSiteFrame (who.frames.take 16)).any fun st => siteMatches lines st) = true ↔
      Listed lines who := by
  rw [Option.any_eq_true, Listed]
  constructor
  · rintro ⟨⟨ip, fn⟩, hst, hmatch⟩
    obtain ⟨line, hline, heq⟩ := List.any_eq_true.1 hmatch
    rw [Bool.or_eq_true, beq_iff_eq, beq_iff_eq] at heq
    exact ⟨ip, fn, hst, line, hline, heq.imp Eq.symm Eq.symm⟩
  · rintro ⟨ip, fn, hst, line, hline, heq⟩
    refine ⟨(ip, fn), hst, List.any_eq_true.2 ⟨line, hline, ?_⟩⟩
    rw [Bool.or_eq_true, beq_iff_eq, beq_iff_eq]
    exact heq.imp Eq.symm Eq.symm

/-- With entries in the table, the statement has to be one of them. -/
theorem mx_heapBlock_iff (hround : su.clo.mxRound) (hsites : su.mxSites ≠ []) (p : Addr)
    (szB : SizeT) : (heapBlock su who p szB).mx = true ↔ Listed su.mxSites who := by
  have hempty : su.mxSites.isEmpty = false := by rwa [List.isEmpty_eq_false_iff]
  rw [heapBlock, mxSiteSelected, hround, hempty, mxSiteSearch_eq, hempty]
  simp only [Bool.true_and, Bool.false_and, Bool.false_or]
  exact any_siteMatches_iff su.mxSites

/-- **A table without entries stands for all blocks**; with `--mx-list-sites` the stack must have an
allocating statement. -/
theorem mx_heapBlock_of_empty (hround : su.clo.mxRound) (hsites : su.mxSites = []) (p : Addr)
    (szB : SizeT) : (heapBlock su who p szB).mx =
      (!su.clo.mxListSites || (mxSiteFrame (who.frames.take 16)).isSome) := by
  rw [heapBlock, mxSiteSelected, hround, hsites, mxSiteSearch_eq]
  cases mxSiteFrame (who.frames.take 16) <;> simp

end Marked

/-- **Marked means listed.** For every file with a site, without NUL and of at most `2^31` bytes,
every way in which the kernel cuts it into reads and every stack: a heap block is marked if and only
if its allocating statement is one of the first 4096 lines that are neither empty nor comments. -/
theorem marked_iff_listed (su : Setup) (hround : su.clo.mxRound) {path : String}
    (hpath : su.clo.mxSitesFile = some path) {file : String → Option (List Char)}
      {content : List Char}
    (hfile : file path = some content) (hlen : content.length ≤ 2 ^ 31) (hnul : '\x00' ∉ content)
    (hsome : siteLines content ≠ []) (wish : Nat → Nat)
    (hload : mlPostCloInit su.clo file wish = some su.mxSites) (who : Caller) (p : Addr)
      (szB : SizeT) :
    (heapBlock su who p szB).mx = true ↔ Listed ((siteLines content).take mxMaxSites) who := by
  rw [mlPostCloInit_text hround hpath hfile hlen hnul, Option.some.injEq] at hload
  rw [hload]
  refine mx_heapBlock_iff hround ?_ p szB
  rw [← hload, ne_eq, List.take_eq_nil_iff]
  rintro (hzero | hnil)
  · exact absurd hzero (by decide)
  · exact hsome hnil

/-- A thread that allocates in a function. -/
def inFunction (fn : String) : Caller := ⟨[], [⟨0x1000#64, some fn.toList⟩]⟩

/-- A file with a comment, a name and an address, and a block that is allocated at the address. -/
theorem marked_iff_listed_address :
    (heapBlock (sitesSetup ["f".toList, "0x1000".toList]) (inFunction "g") 0x2000#64 8#64).mx =
      true ∧
      Listed ((siteLines "# sites\r\nf\n\n0x1000".toList).take mxMaxSites) (inFunction "g") := by
  have hlines : siteLines "# sites\r\nf\n\n0x1000".toList =
    ["f".toList, "0x1000".toList] := by decide
  have hload : mlPostCloInit (sitesSetup ["f".toList, "0x1000".toList]).clo
      (fun _ => some "# sites\r\nf\n\n0x1000".toList) (fun _ => 3) =
        some (sitesSetup ["f".toList, "0x1000".toList]).mxSites := by
    rw [mlPostCloInit_text rfl rfl rfl (by decide) (by decide), hlines]
    rfl
  have hmarked : (heapBlock (sitesSetup ["f".toList, "0x1000".toList]) (inFunction "g") 0x2000#64
      8#64).mx = true := by decide
  exact ⟨hmarked, (marked_iff_listed _ rfl rfl rfl (by decide) (by decide) (by rw [hlines]; decide)
    _ hload _ _ _).1 hmarked⟩

/-! ## Files that are not taken as they are -/

section Files

variable {s rest : List Char}

theorem siteLines_cons (hs : ∀ c ∈ s, isLineEnd c = false) (rest : List Char) :
    siteLines (s ++ '\n' :: rest) = siteLines s ++ siteLines rest := by
  unfold siteLines
  rw [List.splitOnP_append_cons_of_forall_mem hs '\n' rfl, List.splitOnP_eq_singleton hs,
    ← List.filter_append, List.singleton_append]

/-- Lines `a`, and then a line `f`. -/
def manyLines (n : Nat) : List Char := (List.replicate n "a\n".toList).flatten ++ "f".toList

theorem manyLines_succ (n : Nat) : manyLines (n + 1) = "a".toList ++ '\n' :: manyLines n := by
  rw [manyLines, List.replicate_succ]
  rfl

theorem siteLines_manyLines (n : Nat) :
    siteLines (manyLines n) = List.replicate n "a".toList ++ ["f".toList] := by
  induction n with
  | zero => decide
  | succ n ih =>
    have ha : ∀ c ∈ "a".toList, isLineEnd c = false := List.forall_mem_singleton.2 rfl
    rw [manyLines_succ, siteLines_cons ha, ih, List.replicate_succ]
    rfl

theorem length_manyLines (n : Nat) : (manyLines n).length = 2 * n + 1 := by
  induction n with
  | zero => rfl
  | succ n ih =>
    rw [manyLines_succ, List.length_append, List.length_cons, ih]
    exact Nat.add_comm ..

theorem nul_not_mem_manyLines (n : Nat) : '\x00' ∉ manyLines n := by
  unfold manyLines
  rw [List.mem_append, List.mem_flatten]
  rintro (⟨l, hl, hmem⟩ | hmem)
  · rw [List.eq_of_mem_replicate hl] at hmem
    exact absurd hmem (by decide)
  · exact absurd hmem (by decide)

/-- A line that is longer than what is read. -/
def longComment : List Char := List.replicate (2 ^ 31) '#'

theorem lineEnd_longComment : ∀ c ∈ longComment, isLineEnd c = false := by
  intro c hc
  rw [List.eq_of_mem_replicate hc]
  rfl

theorem siteLines_longComment : siteLines longComment = [] := by
  have hhead : longComment.head? = some '#' := List.head?_replicate ..
  unfold siteLines
  rw [List.splitOnP_eq_singleton lineEnd_longComment, List.filter_cons_of_neg (by simp [hhead]),
    List.filter_nil]

end Files

/-- The tool reads the file, and whether the block of a thread is marked is not what the lines of
the file say. -/
def Deviates (content : List Char) (who : Caller) : Prop :=
  ∀ wish, ∃ mxSites,
    mlPostCloInit (sitesSetup mxSites).clo (fun _ => some content) wish = some mxSites ∧
      ¬ ((heapBlock (sitesSetup mxSites) who 0x2000#64 8#64).mx = true ↔
        Listed (siteLines content) who)

theorem mxSiteFrame_inFunction {fn : String} (hfn : isAllocatorFrame fn.toList = false) :
    mxSiteFrame ((inFunction fn).frames.take 16) = some (0x1000#64, fn.toList) := by
  have hstatement : Frame.statement ⟨0x1000#64, some fn.toList⟩ = some (0x1000#64, fn.toList) := by
    rw [statement_some, hfn]
    rfl
  change mxSiteFrame [⟨0x1000#64, some fn.toList⟩] = _
  rw [mxSiteFrame, List.findSome?_cons, hstatement]

theorem listed_inFunction {lines : List Line} {fn : String}
    (hfn : isAllocatorFrame fn.toList = false) :
    Listed lines (inFunction fn) ↔ ∃ line ∈ lines, line = fn.toList ∨ line = "0x1000".toList := by
  have hip : "0x".toList ++ printHexUpper 0x1000#64 = "0x1000".toList := by decide
  rw [Listed, mxSiteFrame_inFunction hfn]
  constructor
  · rintro ⟨ip, fn', heq, line⟩
    cases heq
    rwa [hip] at line
  · intro line
    exact ⟨_, _, rfl, by rwa [hip]⟩

/-- Without a site in the table every block is marked, also one that is not listed. -/
theorem deviates_of_empty {content : List Char} {fn : String}
    (hread : siteLines ((content.take (2 ^ 31)).takeWhile fun c => c ≠ '\x00') = [])
    (hfn : isAllocatorFrame fn.toList = false)
    (hnot : ¬ ∃ line ∈ siteLines content, line = fn.toList ∨ line = "0x1000".toList) :
    Deviates content (inFunction fn) := by
  intro wish
  refine ⟨[], ?_, ?_⟩
  · rw [mlPostCloInit_eq rfl rfl rfl, hread]
    rfl
  · rw [mx_heapBlock_of_empty rfl rfl, listed_inFunction hfn]
    exact fun h => hnot (h.1 rfl)

/-- A site past the end of the table is not used. -/
theorem deviates_manyLines {n : Nat} (hn : n = mxMaxSites) :
    Deviates (manyLines n) (inFunction "f") := by
  have hf : isAllocatorFrame "f".toList = false := by decide
  have hpos : n ≠ 0 := hn ▸ by decide
  have hlen : (manyLines n).length ≤ 2 ^ 31 := by
    rw [length_manyLines, hn]
    decide
  intro wish
  refine ⟨List.replicate n "a".toList, ?_, ?_⟩
  · rw [mlPostCloInit_text rfl rfl rfl hlen (nul_not_mem_manyLines n), siteLines_manyLines, ← hn,
      List.take_left' (List.length_replicate ..)]
  · have hne : (sitesSetup (List.replicate n "a".toList)).mxSites ≠ [] := by
      rwa [sitesSetup, ne_eq, List.replicate_eq_nil_iff]
    rw [mx_heapBlock_iff rfl hne, listed_inFunction hf, listed_inFunction hf, siteLines_manyLines]
    intro h
    obtain ⟨line, hline, heq⟩ := h.2 ⟨_, List.mem_append_right _ List.mem_cons_self, .inl rfl⟩
    rw [List.eq_of_mem_replicate hline] at heq
    exact absurd heq (by decide)

/-- **Four files on which marked does not mean listed**: one without a site, which stands for all
blocks; one with more than 4096 sites; one with a NUL; and one of more than `2^31` bytes. -/
theorem marked_not_listed :
    Deviates "# none\n".toList (inFunction "f") ∧ Deviates (manyLines 4096) (inFunction "f") ∧
      Deviates "f\x00g".toList (inFunction "f") ∧
      Deviates (longComment ++ "\nf".toList) (inFunction "g") := by
  have hf : isAllocatorFrame "f".toList = false := by decide
  refine ⟨deviates_of_empty ?_ hf ?_, deviates_manyLines rfl,
    fun wish => ⟨["f".toList], ?_, ?_⟩, deviates_of_empty ?_ (by decide) ?_⟩
  · rw [List.take_of_length_le (by decide)]
    decide
  · decide
  · rw [mlPostCloInit_eq rfl rfl rfl, List.take_of_length_le (by decide)]
    decide
  · rw [mx_heapBlock_iff rfl (by simp [sitesSetup]), listed_inFunction hf, listed_inFunction hf]
    decide
  · have hread : (longComment ++ "\nf".toList).take (2 ^ 31) = longComment :=
      List.take_left' (List.length_replicate ..)
    have htext : (longComment.takeWhile fun c => c ≠ '\x00') = longComment := by
      rw [List.takeWhile_eq_self_iff]
      intro c hc
      rw [List.eq_of_mem_replicate hc]
      rfl
    rw [hread, htext, siteLines_longComment]
  · have hlines : siteLines (longComment ++ "\nf".toList) = ["f".toList] := by
      refine (siteLines_cons lineEnd_longComment "f".toList).trans ?_
      rw [siteLines_longComment]
      decide
    rw [hlines]
    decide

end Memlog
