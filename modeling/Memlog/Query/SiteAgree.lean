import Memlog.Query.Site

/-!
# Sites on and off line

`mx_site_selected` takes the first frame of the whole trace that is not one of the allocator, and
the queries take a line of the printed trace. What is cut off the printed trace does not matter,
since the last frame that is left is then `main` or below it (`mxSiteFrame_shownFrames`). The two
name the same function if the frames in front of it are on the skip-list and it is not, by their
names and files, and if its name has no ` (` in it (`sites_agree_of_sameFrame`).
-/

namespace Memlog.Query

open Lib

/-! ## Conditions on frames -/

/-- The frame has a name that is not one of the allocator. -/
def TraceFrame.Selected (fr : TraceFrame) : Prop := ∃ name ∈ fr.fn, isAllocatorFrame name = false

/-- Nothing is cut off the name. -/
def TraceFrame.Plain (fr : TraceFrame) : Prop := ¬" (".toList <:+: fr.shown

/-- **One frame for both.** -/
inductive SameFrame (lower : Char → Char) (shown : List TraceFrame) : Prop
  /-- The frames in front of a selected one are of the allocator or without a name, and on the
  skip-list, and it is not on the list. -/
  | first (i : Nat) (fr : TraceFrame) (mem : fr ∈ shown[i]?) (selected : fr.Selected)
      (notListed : ¬fr.Listed lower) (plain : fr.Plain)
      (before : ∀ j < i, ∀ g ∈ shown[j]?, ¬g.Selected ∧ g.Listed lower)
  /-- Every frame is on the skip-list, and the first selected one is on the second line, or the only
  one. -/
  | fallback (listed : ∀ g ∈ shown, g.Listed lower) (i : Nat) (fr : TraceFrame)
      (mem : fr ∈ shown[i]?) (place : i + 1 = min 2 shown.length) (selected : fr.Selected)
      (plain : fr.Plain) (before : ∀ j < i, ∀ g ∈ shown[j]?, ¬g.Selected)
  /-- No frame is selected, every frame is on the skip-list, and nothing is known of the frame on
  the second line, or the only one. -/
  | nameless (listed : ∀ g ∈ shown, ¬g.Selected ∧ g.Listed lower)
      (unknown : ∀ g ∈ shown[1]?.or shown[0]?, g.fn = none ∧ g.loc = .unknown)

/-- One frame has the name that another one shows. -/
def NameTwice (shown : List TraceFrame) : Prop :=
  ∃ i j : Nat, i ≠ j ∧ ∃ fr ∈ shown[i]?, ∃ g ∈ shown[j]?, fr.fn = some g.siteName

/-! ## The frames that are shown -/

/-- `main` and what is below it have the names that they are known by. -/
theorem TraceFrame.selected_of_kind {fr : TraceFrame} (h : fr.kind ≠ .normal) : fr.Selected := by
  unfold TraceFrame.kind at h
  cases hsym : fr.sym with
  | none =>
    rw [hsym] at h
    exact absurd rfl h
  | some sym =>
    rw [hsym] at h
    refine ⟨sym.fn, by rw [TraceFrame.fn, hsym]; rfl, ?_⟩
    rw [Symbol.fn, sym.special h]
    split
    · decide
    · rename_i hbelow
      have hmain : sym.raw = "main".toList := by
        by_contra hne
        dsimp only at h
        unfold getFnnameKind at h hbelow
        rw [if_neg hne] at h hbelow
        split at h
        · rename_i hnames
          exact hbelow (if_pos hnames)
        · exact h rfl
      rw [hmain]
      decide

/-- If frames are cut off, the last one that is left is `main` or below it. -/
theorem belowMainLoop_cases (frames : List TraceFrame) (i nIps : Nat) :
    belowMainLoop frames i nIps = nIps ∨
      ∃ j, belowMainLoop frames i nIps = j + 1 ∧ ∃ fr ∈ frames[j]?, fr.kind ≠ .normal := by
  induction i generalizing nIps with
  | zero => exact .inl rfl
  | succ i ih =>
    rw [belowMainLoop]
    have hspecial : (frames[i]?.map TraceFrame.kind).getD .normal ≠ .normal →
        ∃ fr ∈ frames[i]?, fr.kind ≠ .normal := by
      cases hfr : frames[i]? with
      | none => exact fun h => absurd rfl h
      | some fr => exact fun h => ⟨fr, rfl, h⟩
    cases hkind : (frames[i]?.map TraceFrame.kind).getD .normal with
    | normal => simpa using ih nIps
    | main => exact .inr ⟨i, by simp, hspecial (by simp [hkind])⟩
    | belowMain =>
      rcases ih (i + 1) with hn | hj
      · exact .inr ⟨i, by simpa using hn, hspecial (by simp [hkind])⟩
      · exact .inr (by simpa using hj)

theorem statement_of_name {fr : TraceFrame} {name : Line} (hname : name ∈ fr.fn)
    (halloc : isAllocatorFrame name = false) : fr.frame.statement = some (fr.ip, name) := by
  have hfn : fr.fn = some name := hname
  rw [TraceFrame.frame, hfn, statement_some, if_neg (by simp [halloc])]

theorem statement_of_not_selected {fr : TraceFrame} (h : ¬fr.Selected) :
    fr.frame.statement = none := by
  cases hfn : fr.fn with
  | none =>
    rw [TraceFrame.frame, hfn]
    rfl
  | some name =>
    rw [TraceFrame.frame, hfn, statement_some, if_pos]
    by_contra halloc
    exact h ⟨name, hfn, by simpa using halloc⟩

/-- The search for the statement ends among the frames that are shown. -/
theorem mxSiteFrame_shownFrames (frames : List TraceFrame) :
    mxSiteFrame ((shownFrames frames).map TraceFrame.frame) =
      mxSiteFrame (frames.map TraceFrame.frame) := by
  rcases belowMainLoop_cases frames frames.length frames.length with hall | ⟨j, hj, fr, hfr, hkind⟩
  · rw [shownFrames, hall, List.take_length]
  · obtain ⟨name, hname, halloc⟩ := TraceFrame.selected_of_kind hkind
    have hmem : fr ∈ frames.take (j + 1) :=
      List.mem_of_getElem? ((List.getElem?_take_of_lt (Nat.lt_succ_self j)).trans hfr)
    have hsome : ((frames.take (j + 1)).findSome?
        (Frame.statement ∘ TraceFrame.frame)).isSome = true := by
      rw [List.findSome?_isSome_iff]
      refine ⟨fr, hmem, ?_⟩
      rw [Function.comp_apply, statement_of_name hname halloc]
      rfl
    rw [shownFrames, hj, mxSiteFrame, mxSiteFrame, List.findSome?_map, List.findSome?_map]
    nth_rewrite 2 [← List.take_append_drop (j + 1) frames]
    rw [List.findSome?_append, Option.or_of_isSome hsome]

/-! ## Where the searches end -/

/-- The first index with a property. -/
def First (p : Nat → Prop) (i : Nat) : Prop := p i ∧ ∀ j < i, ¬p j

/-- The tool's search stops at the `i`-th frame. -/
def StopsOnline (shown : List TraceFrame) (i : Nat) : Prop := ∃ fr ∈ shown[i]?, fr.Selected

/-- The extraction stops at the line of the `i`-th frame. -/
def StopsOffline (lower : Char → Char) (shown : List TraceFrame) (i : Nat) : Prop :=
  ∃ fr ∈ shown[i]?, ¬fr.Listed lower

/-- The extraction takes the line of the `i`-th frame: the first that the skip-list does not match,
or, if it matches all of them, the second line or the only one. -/
def FallsOn (lower : Char → Char) (shown : List TraceFrame) (i : Nat) : Prop :=
  First (StopsOffline lower shown) i ∨
    (∀ j, ¬StopsOffline lower shown j) ∧ i + 1 = min 2 shown.length

section Searches

variable {α β : Type} {f : α → Option β} {l : List α}

/-- A search ends at the first index where it succeeds. -/
theorem findSome?_of_first {i : Nat} {b : β} (hi : ∃ a ∈ l[i]?, f a = some b)
    (hbefore : ∀ j < i, ∀ a ∈ l[j]?, f a = none) : l.findSome? f = some b := by
  induction l generalizing i with
  | nil =>
    obtain ⟨a, ha, -⟩ := hi
    cases ha
  | cons a l ih =>
    cases i with
    | zero =>
      obtain ⟨a', ha', hb⟩ := hi
      cases ha'
      rw [List.findSome?_cons, hb]
    | succ i =>
      rw [List.findSome?_cons, hbefore 0 (Nat.zero_lt_succ i) a rfl]
      exact ih hi fun j hj => hbefore (j + 1) (Nat.succ_lt_succ hj)

/-- A property holds first somewhere, or nowhere. -/
theorem first_or_none (p : Nat → Prop) : (∃ i, First p i) ∨ ∀ i, ¬p i := by
  classical
  by_cases h : ∃ i, p i
  · exact .inl ⟨Nat.find h, Nat.find_spec h, fun j hj => Nat.find_min h hj⟩
  · exact .inr (not_exists.1 h)

end Searches

section Ends

variable {lower : Char → Char} {pid : Nat} {shown : List TraceFrame} {i : Nat}

theorem mxSiteFrame_of_first (h : First (StopsOnline shown) i) :
    ∃ fr ∈ shown[i]?, ∃ name ∈ fr.fn,
      mxSiteFrame (shown.map TraceFrame.frame) = some (fr.ip, name) := by
  obtain ⟨⟨fr, hfr, name, hname, halloc⟩, hbefore⟩ := h
  refine ⟨fr, hfr, name, hname, ?_⟩
  rw [mxSiteFrame, List.findSome?_map]
  refine findSome?_of_first (i := i) ⟨fr, hfr, statement_of_name hname halloc⟩ ?_
  exact fun j hj g hg => statement_of_not_selected fun hsel => hbefore j hj ⟨g, hg, hsel⟩

theorem mxSiteFrame_of_none (h : ∀ fr ∈ shown, ¬fr.Selected) :
    mxSiteFrame (shown.map TraceFrame.frame) = none := by
  rw [mxSiteFrame, List.findSome?_map, List.findSome?_eq_none_iff]
  exact fun fr hfr => statement_of_not_selected (h fr hfr)

theorem listed_of_not_stopsOffline (h : ¬StopsOffline lower shown i) {fr : TraceFrame}
    (hfr : fr ∈ shown[i]?) : fr.Listed lower := by
  by_contra hlisted
  exact h ⟨fr, hfr, hlisted⟩

theorem forall_listed (h : ∀ j, ¬StopsOffline lower shown j) : ∀ fr ∈ shown, fr.Listed lower := by
  intro fr hfr
  obtain ⟨j, hj⟩ := List.mem_iff_getElem?.1 hfr
  exact listed_of_not_stopsOffline (h j) hj

theorem not_stopsOffline (h : ∀ fr ∈ shown, fr.Listed lower) (j : Nat) :
    ¬StopsOffline lower shown j := by
  rintro ⟨fr, hfr, hnot⟩
  exact hnot (h fr (List.mem_of_getElem? hfr))

/-- The lines of the frames that are shown. -/
def shownLines (pid : Nat) (shown : List TraceFrame) : List Line :=
  shown.zipIdx.map fun x => printIpDesc pid x.2 x.1

theorem getElem?_shownLines (pid : Nat) (shown : List TraceFrame) (j : Nat) :
    (shownLines pid shown)[j]? = (shown[j]?).map (printIpDesc pid j) := by
  rw [shownLines, List.getElem?_map, List.getElem?_zipIdx, Option.map_map, Nat.zero_add]
  rfl

theorem splitOn_shownLines (hne : shown ≠ []) :
    (['\n'].intercalate (shownLines pid shown)).splitOn '\n' = shownLines pid shown := by
  apply List.splitOn_intercalate
  · intro line hline
    obtain ⟨x, -, rfl⟩ := List.mem_map.1 hline
    exact newline_notMem_printIpDesc pid x.2 x.1
  · intro hnil
    rw [shownLines, List.map_eq_nil_iff, List.zipIdx_eq_nil_iff] at hnil
    exact hne hnil

variable (hlower : LowersAscii lower)

include hlower in
/-- The line that the extraction takes. -/
theorem siteLine_of_fallsOn (h : FallsOn lower shown i) :
    ∃ fr ∈ shown[i]?, siteLine lower (['\n'].intercalate (shownLines pid shown)) =
      printIpDesc pid i fr := by
  have hne : shown ≠ [] := by
    rintro rfl
    rcases h with ⟨⟨fr, hfr, -⟩, -⟩ | ⟨-, hlen⟩
    · cases hfr
    · cases hlen
  have hhead : ((shownLines pid shown).filter fun line => !skipped lower line)[0]? =
      (shownLines pid shown).findSome? (Option.guard fun line => !skipped lower line) := by
    rw [← List.head?_eq_getElem?, List.head?_filter, List.find?_eq_findSome?_guard]
  -- a line in front of the one that is taken is skipped
  have hskip : ∀ j, ¬StopsOffline lower shown j → ∀ line ∈ (shownLines pid shown)[j]?,
      Option.guard (fun line => !skipped lower line) line = none := by
    intro j hj line hline
    rw [getElem?_shownLines] at hline
    obtain ⟨g, hg, rfl⟩ := Option.map_eq_some_iff.1 hline
    simp [(skipped_printIpDesc hlower pid j g).2 (listed_of_not_stopsOffline hj hg)]
  rw [siteLine, splitOn_shownLines hne, hhead]
  rcases h with ⟨⟨fr, hfr, hstop⟩, hbefore⟩ | ⟨hnone, hlen⟩
  · refine ⟨fr, hfr, ?_⟩
    have hfind : (shownLines pid shown).findSome?
        (Option.guard fun line => !skipped lower line) = some (printIpDesc pid i fr) := by
      refine findSome?_of_first (i := i) ⟨printIpDesc pid i fr, ?_, ?_⟩ ?_
      · rw [getElem?_shownLines, show shown[i]? = some fr from hfr]
        rfl
      · simpa [← skipped_printIpDesc hlower pid i fr] using hstop
      · exact fun j hj => hskip j (hbefore j hj)
    rw [hfind]
    rfl
  · have hfind : (shownLines pid shown).findSome?
        (Option.guard fun line => !skipped lower line) = none := by
      rw [List.findSome?_eq_none_iff]
      intro line hline
      obtain ⟨j, hj⟩ := List.mem_iff_getElem?.1 hline
      exact hskip j (hnone j) line hj
    have hi : i < shown.length := by omega
    refine ⟨shown[i], List.getElem?_eq_getElem hi, ?_⟩
    rw [hfind, getElem?_shownLines, getElem?_shownLines]
    rcases Nat.lt_or_ge 1 shown.length with htwo | hone
    · obtain rfl : i = 1 := by omega
      rw [List.getElem?_eq_getElem htwo]
      rfl
    · obtain rfl : i = 0 := by omega
      rw [List.getElem?_eq_none hone, List.getElem?_eq_getElem hi]
      rfl

include hlower in
theorem site_of_fallsOn (pid : Nat) (h : FallsOn lower shown i) :
    ∃ fr ∈ shown[i]?, site lower (['\n'].intercalate (shownLines pid shown)) = fr.siteName := by
  obtain ⟨fr, hfr, hline⟩ := siteLine_of_fallsOn hlower h
  exact ⟨fr, hfr, by rw [site, hline, between_printIpDesc]⟩

theorem exists_fallsOn (lower : Char → Char) (hne : shown ≠ []) : ∃ i, FallsOn lower shown i := by
  rcases first_or_none (StopsOffline lower shown) with ⟨i, hi⟩ | hnone
  · exact ⟨i, .inl hi⟩
  · have hpos := List.length_pos_of_ne_nil hne
    exact ⟨min 2 shown.length - 1, .inr ⟨hnone, by omega⟩⟩

/-- The second line, or the only one. -/
theorem getElem?_or_of_place (hlen : i + 1 = min 2 shown.length) :
    shown[1]?.or shown[0]? = shown[i]? := by
  rcases Nat.lt_or_ge 1 shown.length with htwo | hone
  · obtain rfl : i = 1 := by omega
    rw [List.getElem?_eq_getElem htwo]
    rfl
  · obtain rfl : i = 0 := by omega
    rw [List.getElem?_eq_none hone, Option.none_or]

/-- A frame with a name shows it up to ` (`. -/
theorem siteName_of_name {fr : TraceFrame} {name : Line} (hname : name ∈ fr.fn) :
    fr.siteName = cut " (".toList name ∧ fr.shown = name := by
  have hfn : fr.fn = some name := hname
  have hplace : fr.place.isSome = true := by
    unfold TraceFrame.place
    rw [hfn]
    cases fr.loc <;> rfl
  have hshown : fr.shown = name := by
    rw [TraceFrame.shown, hfn, Option.getD_some]
  rw [TraceFrame.siteName, if_pos hplace, hshown]
  exact ⟨rfl, rfl⟩

theorem siteName_eq_iff_plain {fr : TraceFrame} {name : Line} (hname : name ∈ fr.fn) :
    fr.siteName = name ↔ fr.Plain := by
  obtain ⟨hsite, hshown⟩ := siteName_of_name hname
  rw [hsite, TraceFrame.Plain, hshown, cut_eq_self_iff (by decide)]

/-- A frame that shows no name has none, or one that begins with the separator. -/
theorem of_siteName_eq_nil {fr : TraceFrame} (hsel : ¬fr.Selected) (h : fr.siteName = []) :
    fr.fn = none ∧ fr.loc = .unknown ∨ " (".toList <+: fr.shown := by
  cases hplace : fr.place with
  | none => exact .inl (TraceFrame.place_eq_none hplace)
  | some place =>
    rw [TraceFrame.siteName, hplace, if_pos Option.isSome_some, cut_eq_nil_iff] at h
    refine .inr (h.resolve_left fun hnil => ?_)
    cases hfn : fr.fn with
    | none =>
      rw [TraceFrame.shown, hfn] at hnil
      cases hnil
    | some name =>
      rw [(siteName_of_name hfn).2] at hnil
      exact hsel ⟨name, hfn, by rw [hnil]; decide⟩

end Ends

/-! ## Main result -/

/-- The name of the frame that `mx_site_selected` uses. -/
def onlineSite (frames : List TraceFrame) : Option Line :=
  (mxSiteFrame ((frames.map TraceFrame.frame).take 16)).map Prod.snd

section Agree

variable {lower : Char → Char} {pid : Nat} {shown : List TraceFrame}

/-- The name that the tool finds among the frames is the site of their lines. -/
def Agrees (lower : Char → Char) (pid : Nat) (shown : List TraceFrame) : Prop :=
  ((mxSiteFrame (shown.map TraceFrame.frame)).map Prod.snd).getD [] =
    site lower (['\n'].intercalate (shownLines pid shown))

theorem agrees_of_ends (hlower : LowersAscii lower) {i : Nat} (hi : First (StopsOnline shown) i)
    (hfalls : FallsOn lower shown i) (hplain : ∀ fr ∈ shown[i]?, fr.Plain) :
    Agrees lower pid shown := by
  obtain ⟨fr, hfr, name, hname, honline⟩ := mxSiteFrame_of_first hi
  obtain ⟨g, hg, hsite⟩ := site_of_fallsOn hlower pid hfalls
  obtain rfl := Option.mem_unique hfr hg
  rw [Agrees, honline, hsite, (siteName_eq_iff_plain hname).2 (hplain fr hfr)]
  rfl

theorem SameFrame.agrees (hlower : LowersAscii lower) (h : SameFrame lower shown) :
    Agrees lower pid shown := by
  have hplain : ∀ {i : Nat} {fr : TraceFrame}, fr ∈ shown[i]? → fr.Plain →
      ∀ g ∈ shown[i]?, g.Plain := by
    intro i fr hfr hplain g hg
    rwa [Option.mem_unique hg hfr]
  cases h with
  | first i fr mem selected notListed plain before =>
    refine agrees_of_ends hlower ⟨⟨fr, mem, selected⟩, ?_⟩ (.inl ⟨⟨fr, mem, notListed⟩, ?_⟩)
      (hplain mem plain)
    · rintro j hj ⟨g, hg, hsel⟩
      exact (before j hj g hg).1 hsel
    · rintro j hj ⟨g, hg, hnot⟩
      exact hnot (before j hj g hg).2
  | fallback listed i fr mem place selected plain before =>
    refine agrees_of_ends hlower ⟨⟨fr, mem, selected⟩, ?_⟩
      (.inr ⟨not_stopsOffline listed, place⟩) (hplain mem plain)
    rintro j hj ⟨g, hg, hsel⟩
    exact before j hj g hg hsel
  | nameless listed unknown =>
    rw [Agrees, mxSiteFrame_of_none fun fr hfr => (listed fr hfr).1]
    rcases eq_or_ne shown [] with rfl | hne
    · rfl
    · have hpos := List.length_pos_of_ne_nil hne
      have hplace : min 2 shown.length - 1 + 1 = min 2 shown.length := by omega
      obtain ⟨g, hg, hsite⟩ := site_of_fallsOn hlower pid
        (.inr ⟨not_stopsOffline fun fr hfr => (listed fr hfr).2, hplace⟩)
      rw [← getElem?_or_of_place hplace] at hg
      obtain ⟨hfn, hloc⟩ := unknown g hg
      rw [hsite, TraceFrame.siteName, TraceFrame.place, hfn, hloc]
      rfl

theorem sameFrame_of_agrees (hlower : LowersAscii lower) (h : Agrees lower pid shown) :
    SameFrame lower shown ∨ NameTwice shown ∨ ∃ fr ∈ shown, " (".toList <+: fr.shown := by
  rcases eq_or_ne shown [] with rfl | hne
  · refine .inl (.nameless (fun g hg => absurd hg List.not_mem_nil) fun g hg => ?_)
    cases hg
  obtain ⟨j, hfalls⟩ := exists_fallsOn lower hne
  obtain ⟨g, hg, hsite⟩ := site_of_fallsOn hlower pid hfalls
  rw [Agrees, hsite] at h
  rcases first_or_none (StopsOnline shown) with ⟨i, hi⟩ | hnone
  · obtain ⟨fr, hfr, name, hname, honline⟩ := mxSiteFrame_of_first hi
    rw [honline] at h
    by_cases hij : i = j
    · subst hij
      obtain rfl := Option.mem_unique hfr hg
      have hplain : fr.Plain := (siteName_eq_iff_plain hname).1 h.symm
      obtain ⟨fr', hfr', hsel⟩ := hi.1
      obtain rfl := Option.mem_unique hfr hfr'
      left
      rcases hfalls with ⟨⟨g', hg', hnot⟩, hbefore⟩ | ⟨hall, hplace⟩
      · obtain rfl := Option.mem_unique hfr hg'
        refine .first i fr hfr hsel hnot hplain fun k hk f hf => ⟨fun hs => ?_, ?_⟩
        · exact hi.2 k hk ⟨f, hf, hs⟩
        · exact listed_of_not_stopsOffline (hbefore k hk) hf
      · exact .fallback (forall_listed hall) i fr hfr hplace hsel hplain
          fun k hk f hf hs => hi.2 k hk ⟨f, hf, hs⟩
    · refine .inr (.inl ⟨i, j, hij, fr, hfr, g, hg, ?_⟩)
      rw [← h]
      exact hname
  · have hsel : ∀ fr ∈ shown, ¬fr.Selected := by
      intro fr hfr hs
      obtain ⟨k, hk⟩ := List.mem_iff_getElem?.1 hfr
      exact hnone k ⟨fr, hk, hs⟩
    have hmem := List.mem_of_getElem? hg
    rw [mxSiteFrame_of_none hsel] at h
    rcases of_siteName_eq_nil (hsel g hmem) h.symm with hunknown | hpre
    · rcases hfalls with ⟨⟨g', hg', hnot⟩, -⟩ | ⟨hall, hplace⟩
      · obtain rfl := Option.mem_unique hg hg'
        exact absurd (.inl hunknown.2) hnot
      · refine .inl (.nameless (fun f hf => ⟨hsel f hf, forall_listed hall f hf⟩) ?_)
        rw [getElem?_or_of_place hplace]
        intro f hf
        rwa [Option.mem_unique hf hg]
    · exact .inr (.inr ⟨g, hmem, hpre⟩)

end Agree

/-- **Sites on and off line.** For every stack trace of at most twelve frames, the name of the frame
that `mx_site_selected` uses is the site that the queries extract from the printed trace (none, if
that is empty) if one frame serves for both. In no other trace is it so, unless one frame has the
name that another one shows, or a name begins with ` (`. -/
theorem sites_agree_of_sameFrame (lower : Char → Char) (hlower : LowersAscii lower) (pid : Nat)
    (frames : List TraceFrame) (hlen : frames.length ≤ 12) :
    (SameFrame lower (shownFrames frames) →
      (onlineSite frames).getD [] = site lower (allocStack pid frames)) ∧
    ((onlineSite frames).getD [] = site lower (allocStack pid frames) →
      SameFrame lower (shownFrames frames) ∨ NameTwice (shownFrames frames) ∨
        ∃ fr ∈ shownFrames frames, " (".toList <+: fr.shown) := by
  have htake : (frames.map TraceFrame.frame).take 16 = frames.map TraceFrame.frame := by
    apply List.take_of_length_le
    rw [List.length_map]
    omega
  rw [onlineSite, htake, ← mxSiteFrame_shownFrames]
  exact ⟨SameFrame.agrees hlower, sameFrame_of_agrees hlower⟩

/-- A trace through `malloc`, a function of `pool.c`, `main` and what called it. -/
def poolTrace (fn : Line) (hfn : '\n' ∉ fn) : List TraceFrame :=
  [{ ip := 0x4846828#64, sym := some (.plain "malloc".toList (by decide)),
     loc := .source "vg_replace_malloc.c".toList 381 },
    { ip := 0x401156#64, sym := some (.plain fn hfn), loc := .source "pool.c".toList 12 },
    { ip := 0x4011A0#64, sym := some (.plain "main".toList (by decide)),
      loc := .source "pool.c".toList 40 },
    { ip := 0x4A2C24A#64, sym := some (.plain "__libc_start_call_main".toList (by decide)),
      loc := .object "/usr/lib64/libc.so.6".toList }]

-- every frame that is shown is on the list, for its file, and the second line is taken
example : site Char.toLower (allocStack 7
    [{ ip := 0x4846828#64, sym := some (.plain "malloc".toList (by decide)),
       loc := .source "vg_replace_malloc.c".toList 381 },
      { ip := 0x4011A0#64, sym := some (.plain "main".toList (by decide)),
        loc := .source "freelist.c".toList 5 },
      { ip := 0x4A2C24A#64, sym := some (.plain "__libc_start_call_main".toList (by decide)),
        loc := .object "/usr/lib64/libc.so.6".toList }]) = "main".toList := by
  decide +kernel

/-- The site of `solve`. -/
theorem sites_agree_of_sameFrame_solve :
    (poolTrace "solve".toList (by decide)).length ≤ 12 ∧
      onlineSite (poolTrace "solve".toList (by decide)) = some "solve".toList ∧
      site Char.toLower (allocStack 7 (poolTrace "solve".toList (by decide))) = "solve".toList := by
  have hlen : (poolTrace "solve".toList (by decide)).length ≤ 12 := by decide
  have honline : onlineSite (poolTrace "solve".toList (by decide)) = some "solve".toList := by
    decide +kernel
  have hsame : SameFrame Char.toLower (shownFrames (poolTrace "solve".toList (by decide))) := by
    refine .first 1 _ rfl ⟨_, rfl, by decide +kernel⟩ ?_ ?_ fun j hj g hg => ⟨?_, ?_⟩
    · unfold TraceFrame.Listed
      decide +kernel
    · unfold TraceFrame.Plain
      decide +kernel
    · obtain rfl : j = 0 := by omega
      cases hg
      rintro ⟨name, hname, halloc⟩
      cases hname
      revert halloc
      decide +kernel
    · obtain rfl : j = 0 := by omega
      cases hg
      unfold TraceFrame.Listed
      decide +kernel
  refine ⟨hlen, honline, ?_⟩
  have hagree := (sites_agree_of_sameFrame Char.toLower (fun _ _ => rfl) 7 _ hlen).1 hsame
  rw [honline] at hagree
  exact hagree.symm

/-- `free` in the name of a function: the tool takes the frame, and the queries take the next. -/
theorem sites_differ_freelist :
    onlineSite (poolTrace "init_freelist".toList (by decide)) = some "init_freelist".toList ∧
      site Char.toLower (allocStack 7 (poolTrace "init_freelist".toList (by decide))) =
        "main".toList := by
  decide +kernel

end Memlog.Query
