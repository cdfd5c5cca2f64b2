import Mathlib.Data.List.Perm.Subperm
import Memlog.Parquet.Rows

/-!
# Archives of well-formed members

A well-formed `.stores` member is given by its fields; `StoresFile.member` writes its name and text
as `parser.py` does. The converter reads the fields back, so that the table of an archive has the
rows of its members, in order (`convertArchive_stores`), as long as the stack texts can be counted
by the 32-bit index of the dictionary column (`convertArchive_tooManyStacks`).
-/

namespace Memlog.ToParquet

open Lib

/-! ## Members -/

/-- A well-formed `.stores` member, in some directory of the archive. -/
structure StoresFile where
  dir : List Char
  addr : BitVec 64
  size : BitVec 64
  type : AllocType
  generation : BitVec 32
  header : List (List Char)
  stores : List (BitVec 64 × BitVec 64)
  dir_ends : dir = [] ∨ dir.getLast? = some '/'
  header_oneLine : ∀ l ∈ header, '\n' ∉ l

namespace StoresFile

def base (f : StoresFile) : List Char :=
  "0x".toList ++ (Nat.toDigits 16 f.addr.toNat ++ ("_".toList ++ (Nat.toDigits 10 f.size.toNat ++
    ("_".toList ++ (f.type.text ++ ("_".toList ++ (Nat.toDigits 10 f.generation.toNat ++
      ".stores".toList)))))))

def storeLine (s : BitVec 64 × BitVec 64) : List Char :=
  Nat.toDigits 10 s.1.toNat ++ (":0x".toList ++ Nat.toDigits 16 s.2.toNat)

/-- The member: `#` in front of each header line, then the store lines. -/
def member (f : StoresFile) : Member where
  name := f.dir ++ f.base
  isFile := true
  text := joinLines (f.header.map ('#' :: ·) ++ f.stores.map storeLine)

/-- The rows of the member: its store lines, with its address, size, type and generation, and its
header lines stripped and joined. -/
def rows (f : StoresFile) : List StoreRow :=
  f.stores.map fun s =>
    ⟨f.addr, f.size, f.type, f.generation, ['\n'].intercalate (f.header.map strip), s.1, s.2⟩

def nameMatch (f : StoresFile) : NameMatch :=
  ⟨Nat.toDigits 16 f.addr.toNat, Nat.toDigits 10 f.size.toNat, f.type,
    Nat.toDigits 10 f.generation.toNat⟩

end StoresFile

/-! ## Names -/

section Names

variable (f : StoresFile)

theorem scan_hex {s : List Char} (n : Nat) (h : StopsAt isHexDigit s) :
    scan isHexDigit (Nat.toDigits 16 n ++ s) = some (Nat.toDigits 16 n, s) :=
  scan_append Nat.toDigits_ne_nil (forall_mem_toDigits (by decide) (by decide) n) h

theorem scan_dec {s : List Char} (n : Nat) (h : StopsAt isDecDigit s) :
    scan isDecDigit (Nat.toDigits 10 n ++ s) = some (Nat.toDigits 10 n, s) :=
  scan_append Nat.toDigits_ne_nil (forall_mem_toDigits (by decide) (by decide) n) h

theorem scanType_append (ty : AllocType) (s : List Char) :
    scanType (ty.text ++ s) = some (ty, s) := by
  cases ty <;> rfl

theorem matchName_base : matchName f.base = some f.nameMatch := by
  have hunder : ∀ {p : Char → Bool} (s : List Char), p '_' = false →
      StopsAt p ("_".toList ++ s) := fun s h => stopsAt_cons h s
  have hdot : StopsAt isDecDigit ".stores".toList := by decide
  have hend : after ".stores".toList ".stores".toList = some [] := rfl
  simp only [matchName, StoresFile.base, after_append, Option.bind_eq_bind, Option.bind_some,
    scan_hex _ (hunder _ (by decide)), scan_dec _ (hunder _ (by decide)), scan_dec _ hdot,
    scanType_append, hend, true_or, if_true]
  rfl

/-- The digits of a number are none of the other characters. -/
theorem notMem_toDigits {b : Nat} {c : Char} (hb : 1 < b) (hle : b ≤ 16)
    (hc : ∀ d < 16, c ≠ Nat.digitChar d) (n : Nat) : c ∉ Nat.toDigits b n := by
  intro hmem
  obtain ⟨d, hd, heq⟩ := mem_toDigits hb hmem
  exact hc d (by omega) heq

theorem slash_notMem_base : '/' ∉ f.base := by
  have hdigits : ∀ b n, 1 < b → b ≤ 16 → '/' ∉ Nat.toDigits b n :=
    fun b n hb hle => notMem_toDigits hb hle (by decide) n
  have htype : '/' ∉ f.type.text := by cases f.type <;> decide
  simp only [StoresFile.base, List.mem_append, hdigits 16 _ (by decide) le_rfl,
    hdigits 10 _ (by decide) (by decide), htype, not_or, not_false_eq_true, true_and]
  decide

/-- The directory is dropped. -/
theorem baseName_append (dir : List Char) {base : List Char}
    (hdir : dir = [] ∨ dir.getLast? = some '/') (hslash : '/' ∉ base) (hne : base ≠ [])
    (hdot : base ≠ ['.']) : baseName (dir ++ base) = base := by
  have hlast : ([base].filter fun part => part ≠ [] ∧ part ≠ ['.']) = [base] :=
    List.filter_cons_of_pos (by simpa using ⟨hne, hdot⟩)
  rcases hdir with rfl | hdir
  · rw [baseName, List.nil_append, List.splitOn_eq_singleton hslash, hlast]
    rfl
  · obtain ⟨parent, rfl⟩ := List.getLast?_eq_some_iff.1 hdir
    rw [baseName, List.append_assoc, List.singleton_append, List.splitOn_append_cons_self,
      List.splitOn_eq_singleton hslash, List.filter_append, hlast, List.getLast?_append]
    rfl

theorem match?_member : f.member.match? = some f.nameMatch := by
  have hbase : baseName f.member.name = f.base := by
    refine baseName_append f.dir f.dir_ends (slash_notMem_base f) ?_ ?_
    · exact List.cons_ne_nil _ _
    · intro h
      cases h
  have hsuffix : ".stores".toList.isSuffixOf f.base = true := by
    rw [List.isSuffixOf_iff_suffix]
    simp only [StoresFile.base, ← List.append_assoc]
    exact List.suffix_append ..
  rw [Member.match?, hbase, hsuffix, matchName_base]
  rfl

end Names

/-! ## Texts -/

section Texts

/-- A line feed at the end is white space. -/
theorem strip_append_feed (l : List Char) : strip (l ++ ['\n']) = strip l := by
  have hfeed : ['\n'].dropWhile isSpace = [] := rfl
  rw [strip, strip, List.dropWhile_append]
  split
  · rename_i hempty
    rw [List.isEmpty_iff.1 hempty, hfeed]
  · exact List.rdropWhile_concat_pos _ _ _ rfl

theorem matchStore_storeLine (s : BitVec 64 × BitVec 64) :
    matchStore (StoresFile.storeLine s ++ ['\n']) =
      some (Nat.toDigits 10 s.1.toNat, Nat.toDigits 16 s.2.toNat) := by
  have hcolon : ∀ t, StopsAt isDecDigit (":0x".toList ++ t) := fun t => stopsAt_cons (by decide) _
  have hfeed : StopsAt isHexDigit ['\n'] := stopsAt_cons (by decide) []
  simp only [matchStore, StoresFile.storeLine, List.append_assoc, scan_dec _ (hcolon _),
    after_append, Option.bind_eq_bind, Option.bind_some, scan_hex _ hfeed]
  rfl

theorem feed_notMem_storeLine (s : BitVec 64 × BitVec 64) : '\n' ∉ StoresFile.storeLine s := by
  simp only [StoresFile.storeLine, List.mem_append, not_or,
    notMem_toDigits (b := 10) (by decide) (by decide)
      (by decide : ∀ d < 16, '\n' ≠ Nat.digitChar d),
    notMem_toDigits (b := 16) (by decide) le_rfl (by decide : ∀ d < 16, '\n' ≠ Nat.digitChar d)]
  decide

theorem head?_storeLine (s : BitVec 64 × BitVec 64) :
    (StoresFile.storeLine s ++ ['\n']).head? ≠ some '#' := by
  intro h
  have hmem : '#' ∈ Nat.toDigits 10 s.1.toNat := by
    refine List.mem_of_mem_head? (Option.mem_def.2 ?_)
    rwa [StoresFile.storeLine, List.append_assoc, List.head?_append_of_ne_nil _ Nat.toDigits_ne_nil]
      at h
  exact notMem_toDigits (by decide) (by decide) (by decide) _ hmem

theorem readStackHeader_member (header : List (List Char)) (stores : List (BitVec 64 × BitVec 64)) :
    ∃ firstBody body,
      readStackHeader ((header.map ('#' :: ·) ++ stores.map StoresFile.storeLine).map
        (· ++ ['\n'])) = (header.map strip, firstBody, body) ∧
      firstBody.toList ++ body = stores.map fun s => StoresFile.storeLine s ++ ['\n'] := by
  induction header with
  | nil =>
    cases stores with
    | nil => exact ⟨none, [], rfl, rfl⟩
    | cons s stores =>
      refine ⟨some (StoresFile.storeLine s ++ ['\n']),
        (stores.map StoresFile.storeLine).map (· ++ ['\n']), ?_, ?_⟩
      · exact if_neg (head?_storeLine s)
      · rw [List.map_map]
        rfl
  | cons l header ih =>
    obtain ⟨firstBody, body, hread, hbody⟩ := ih
    refine ⟨firstBody, body, ?_, hbody⟩
    have hline : ('#' :: l ++ ['\n']).head? = some '#' := rfl
    rw [List.map_cons, List.cons_append, List.map_cons, readStackHeader, hread, if_pos hline,
      List.cons_append, List.tail_cons, strip_append_feed]
    rfl

variable (f : StoresFile)

/-- The converter reads the fields of a well-formed member back. -/
theorem rawRows_member : f.member.rawRows = f.stores.map fun s =>
    ⟨f.nameMatch, f.header.map strip, s.1.toNat, s.2.toNat⟩ := by
  have hlines : ∀ l ∈ f.header.map ('#' :: ·) ++ f.stores.map StoresFile.storeLine, '\n' ∉ l := by
    refine List.forall_mem_append.2 ⟨List.forall_mem_map.2 fun l hl => ?_,
      List.forall_mem_map.2 fun s _ => feed_notMem_storeLine s⟩
    rw [List.mem_cons, not_or]
    exact ⟨by decide, f.header_oneLine l hl⟩
  obtain ⟨firstBody, body, hread, hbody⟩ := readStackHeader_member f.header f.stores
  have hrow : ∀ s, lineRow f.nameMatch (f.header.map strip) (StoresFile.storeLine s ++ ['\n']) =
      some ⟨f.nameMatch, f.header.map strip, s.1.toNat, s.2.toNat⟩ := by
    intro s
    rw [lineRow, matchStore_storeLine, Option.map_some,
      numeral_toDigits (by decide) decVal_digitChar, numeral_toDigits (by decide) hexVal_digitChar]
  rw [Member.rawRows, match?_member, Option.elim, bodyRows, StoresFile.member,
    splitFeeds_joinLines hlines, hread]
  dsimp only
  rw [hbody, List.filterMap_map]
  refine (List.filterMap_congr fun s _ => hrow s).trans ?_
  exact congrFun List.filterMap_eq_map _

theorem rows_member : f.member.rawRows.map RawRow.row = f.rows := by
  have hinfo : ∀ s : BitVec 64 × BitVec 64, RawRow.row
      ⟨f.nameMatch, f.header.map strip, s.1.toNat, s.2.toNat⟩ =
        ⟨f.addr, f.size, f.type, f.generation, ['\n'].intercalate (f.header.map strip), s.1,
          s.2⟩ := by
    intro s
    simp only [RawRow.row, RawRow.info, memberInfo, StoresFile.nameMatch,
      numeral_toDigits (by decide) decVal_digitChar, numeral_toDigits (by decide) hexVal_digitChar,
      BitVec.ofNat_toNat, BitVec.setWidth_eq]
  rw [rawRows_member, List.map_map, StoresFile.rows]
  exact List.map_congr_left fun s _ => hinfo s

theorem inRange_member : ∀ r ∈ f.member.rawRows, r.InRange := by
  rw [rawRows_member]
  refine List.forall_mem_map.2 fun s _ => ?_
  have hinfo : (RawRow.info ⟨f.nameMatch, f.header.map strip, s.1.toNat, s.2.toNat⟩).addr =
      f.addr.toNat ∧
      (RawRow.info ⟨f.nameMatch, f.header.map strip, s.1.toNat, s.2.toNat⟩).size = f.size.toNat ∧
      (RawRow.info ⟨f.nameMatch, f.header.map strip, s.1.toNat, s.2.toNat⟩).generation =
        f.generation.toNat := by
    simp only [RawRow.info, memberInfo, StoresFile.nameMatch,
      numeral_toDigits (by decide) decVal_digitChar, numeral_toDigits (by decide) hexVal_digitChar,
      and_self]
  exact ⟨hinfo.1 ▸ f.addr.isLt, hinfo.2.1 ▸ f.size.isLt, hinfo.2.2 ▸ f.generation.isLt, s.1.isLt,
    s.2.isLt⟩

end Texts

/-! ## Main result -/

theorem flatMap_member (files : List StoresFile) :
    (files.map StoresFile.member).flatMap Member.rawRows =
      files.flatMap fun f => f.member.rawRows := List.flatMap_map ..

theorem map_row_flatMap_member (files : List StoresFile) :
    ((files.map StoresFile.member).flatMap Member.rawRows).map RawRow.row =
      files.flatMap StoresFile.rows := by
  rw [flatMap_member, List.map_flatMap]
  exact List.flatMap_congr fun f _ => rows_member f

/-- The number of different stack texts of the rows of an archive. -/
def stackCount (files : List StoresFile) : Nat :=
  ((files.flatMap StoresFile.rows).map StoreRow.allocStack).eraseDups.length

theorem length_stacksOf (files : List StoresFile) :
    (stacksOf ((files.map StoresFile.member).flatMap Member.rawRows)).length =
      stackCount files := by
  rw [stackCount, ← map_row_flatMap_member, List.map_map]
  rfl

theorem fits_member_iff (files : List StoresFile) :
    Fits ((files.map StoresFile.member).flatMap Member.rawRows) ↔ stackCount files ≤ 2 ^ 31 := by
  rw [fits_iff, length_stacksOf, and_iff_right]
  intro r hr
  rw [flatMap_member] at hr
  obtain ⟨f, -, hr⟩ := List.mem_flatMap.1 hr
  exact inRange_member f r hr

/-- **The table of an archive.** For every archive of well-formed `.stores` members, in any order
and with any numbers of header and store lines, and every batch size, the rows of the tables that
`convert_archive` writes, decoded with the dictionary of their own batch, are in file order exactly
the store lines of the members in archive order, each with the address, size, type and generation of
its member and with the member's header lines stripped and joined; the archive may have up to `2^31`
different stack texts. -/
theorem convertArchive_stores (pa : Pyarrow) (batchRows : Nat) (files : List StoresFile)
    (hstacks : stackCount files ≤ 2 ^ 31) :
    ∃ p, convertArchive pa batchRows (files.map StoresFile.member) = .ok p ∧
      p.rows = files.flatMap StoresFile.rows := by
  obtain ⟨p, hrun, hrows⟩ := exists_ok_of_fits ((fits_member_iff files).2 hstacks) pa batchRows
  exact ⟨p, hrun, hrows.trans (map_row_flatMap_member files)⟩

/-- A member of two store lines, under two header lines. -/
def twoStores (generation : BitVec 32) : StoresFile where
  dir := "lbm/memlog.7.log.parsed/".toList
  addr := 0x4A5C040#64
  size := 16#64
  type := .bits64
  generation := generation
  header := [" ==7==    at 0x4848899: malloc (vg_replace_malloc.c:446)".toList,
    " ==7==    by 0x109160: main (lbm.c:12)".toList]
  stores := [(0#64, 0x3FF199999999999A#64), (8#64, 0#64)]
  dir_ends := .inr rfl
  header_oneLine := by decide

/-- Two members in batches of three rows. -/
theorem convertArchive_stores_two : ∃ p,
    convertArchive .checking 3 ([twoStores 1, twoStores 2].map StoresFile.member) = .ok p ∧
      p.rows = (twoStores 1).rows ++ (twoStores 2).rows := by
  obtain ⟨p, hrun, hrows⟩ := convertArchive_stores .checking 3 [twoStores 1, twoStores 2]
    (by decide)
  refine ⟨p, hrun, hrows.trans ?_⟩
  rw [List.flatMap_cons, List.flatMap_singleton]

/-! ## Too many stack texts -/

/-- A member whose header is a number. -/
def numbered (i : Nat) : StoresFile where
  dir := []
  addr := BitVec.ofNat 64 (8 * i)
  size := 8#64
  type := .bits64
  generation := 1#32
  header := [Nat.toDigits 10 i]
  stores := [(0#64, 0#64)]
  dir_ends := .inl rfl
  header_oneLine := by
    intro l hl
    rw [List.mem_singleton.1 hl]
    exact notMem_toDigits (by decide) (by decide) (by decide) i

theorem strip_toDigits (i : Nat) : strip (Nat.toDigits 10 i) = Nat.toDigits 10 i := by
  have hspace : ∀ c ∈ Nat.toDigits 10 i, isSpace c = false :=
    forall_mem_toDigits (by decide) (by decide) i
  have hdrop : (Nat.toDigits 10 i).dropWhile isSpace = Nat.toDigits 10 i := by
    rw [List.dropWhile_eq_self_iff]
    intro hpos
    rw [hspace _ (List.getElem_mem hpos)]
    exact Bool.false_ne_true
  rw [strip, hdrop, rstrip, List.rdropWhile_eq_self_iff]
  intro hne
  rw [hspace _ (List.getLast_mem hne)]
  exact Bool.false_ne_true

theorem le_stackCount_numbered (n : Nat) : n ≤ stackCount ((List.range n).map numbered) := by
  have hstacks : (((List.range n).map numbered).flatMap StoresFile.rows).map StoreRow.allocStack =
      (List.range n).map (Nat.toDigits 10) := by
    rw [List.flatMap_map, List.map_flatMap, List.map_eq_flatMap]
    refine List.flatMap_congr fun i _ => ?_
    change [['\n'].intercalate [strip (Nat.toDigits 10 i)]] = [Nat.toDigits 10 i]
    rw [List.intercalate_singleton, strip_toDigits]
  have hnodup : ((List.range n).map (Nat.toDigits 10)).Nodup :=
    List.nodup_range.map (toDigits_injective (by decide) ⟨decVal, decVal_digitChar⟩)
  have hle := (List.subperm_of_subset hnodup fun s hs => List.mem_eraseDups.2 hs).length_le
  rw [List.length_map, List.length_range, ← hstacks] at hle
  exact hle

theorem not_convertArchive_numbered (pa : Pyarrow) {n : Nat} (hn : 2 ^ 31 < n) :
    ¬∃ p, convertArchive pa batchRows (((List.range n).map numbered).map StoresFile.member) =
      .ok p := by
  rintro ⟨p, hrun⟩
  have houtcome := convertArchive_outcome pa batchRows
    (((List.range n).map numbered).map StoresFile.member)
  rw [hrun] at houtcome
  have hcount := (fits_member_iff _).1 houtcome.2
  exact absurd ((le_stackCount_numbered n).trans hcount) (not_le.2 hn)

/-- The dictionary column has 32-bit signed indices: an archive with one stack text more than these
can count is not converted. -/
theorem convertArchive_tooManyStacks :
    ¬∃ p, convertArchive .checking batchRows
      (((List.range (2 ^ 31 + 1)).map numbered).map StoresFile.member) = .ok p :=
  not_convertArchive_numbered _ (Nat.lt_succ_self _)

end Memlog.ToParquet
