import Memlog.RbTree.Insert

/-!
# Deletion

`rb_delete` unlinks a node and, when a black node went missing, runs the fixup loop. The loop starts
with `Deficit q t`: either the subtree in focus is red and blackening it repairs the tree, or it is
black and one black node short of what the path expects. A red sibling is rotated away first, after
which the parent is red, so that the next iteration is the last one; otherwise every iteration ends
the loop or moves one level up. `DeleteAt` is the loop's invariant, `deleteIter_spec` what an
iteration does to it.
-/

namespace Memlog

open Lib

variable {κ δ : Type}

/-! ## One step of the fixup -/

/-- The subtree in focus is one black node short. -/
def Deficit (q : Spine Ptr κ δ) (t : CTree Ptr κ δ) : Prop :=
  (t.color = .red ∧ ∃ m, (t.setColor .black).Bal m ∧ q.Ok m) ∨
    (t.color = .black ∧ ∃ n, t.Bal n ∧ q.Ok (n + 1))

theorem Deficit.of_bal {q : Spine Ptr κ δ} {t : CTree Ptr κ δ} {n : Nat} (ht : t.Bal n)
    (hq : q.Ok (n + 1)) : Deficit q t := by
  cases hc : t.color with
  | red => exact .inl ⟨hc, n + 1, ht.setBlack_of_red hc, hq⟩
  | black => exact .inr ⟨hc, n, ht, hq⟩

theorem Focus.isBlack {s : RbState κ δ} {q : Spine Ptr κ δ} {t : CTree Ptr κ δ} (h : Focus s q t) :
    Memlog.isBlack t.ptr s = some (decide (t.color = .black), s) := by
  cases t with
  | nil => rfl
  | node l p c e r =>
    show (colorOf (some p) >>= fun c => pure (decide (c = .black))) s = _
    rw [rbM_bind, colorOf_apply, h.tree.1]
    rfl

section Step

variable {s : RbState κ δ} {q : Spine Ptr κ δ} {d : Side} {p wp : Ptr} {c : Color}
  {e we : κ × δ} {t w wl wr : CTree Ptr κ δ} {n : Nat}

/-- A red sibling is rotated away; the parent is red then. -/
theorem deleteRedSibling_spec (h : Focus s (.step d p c e w q) t)
    (hok : (Spine.step d p c e w q).Ok (n + 1)) :
    ∃ s' c' w' q', rbDeleteRedSibling d (some p) w.ptr s = some (w'.ptr, s') ∧
      Focus s' (.step d p c' e w' q') t ∧ w'.color = .black ∧
      (Spine.step d p c' e w' q').Ok (n + 1) ∧
      ((Spine.step d p c' e w' q').plug t).cells = ((Spine.step d p c e w q).plug t).cells ∧
      (c' = .red ∨ q' = q) := by
  by_cases cw : w.color = .red
  · obtain ⟨wl, wp, we, wr, rfl⟩ := CTree.exists_join_of_red d cw
    cases c with
    | red => cases cw.symm.trans hok.2.1
    | black =>
      obtain ⟨hw, hq⟩ := hok
      obtain ⟨hwl, hwr, cwl, cwr⟩ := hw.inv_red
      have hw' : s.mem wp = some (joinNode d (some p) wl.ptr wr.ptr .red we) :=
        (focus_sibling.1 h).mem_join
      obtain ⟨s₁, hrun₁, h₁⟩ := (focus_sibling.1 h).setColor .black
      obtain ⟨s₂, hrun₂, h₂⟩ := (focus_up.1 (focus_sibling.2 h₁)).setColor .red
      obtain ⟨s₃, hrun₃, h₃⟩ := h₂.rotate
      have h₃' : Focus s₃ (.step d p .red e wl (.step d wp .black we wr q)) t :=
        focus_up.2 (focus_up.2 h₃)
      refine ⟨s₃, .red, wl, _, ?_, h₃', cwl, ⟨hwl, cwl, rfl, hwr, hq⟩, ?_, .inl rfl⟩
      · simp only [rbDeleteRedSibling, CTree.ptr_join, rbM_bind, colorOf_apply, hw',
          Option.map_some, Option.bind_some, joinNode_color, if_true, hrun₁, hrun₂, hrun₃,
          childOf_apply, h₃'.mem_step, joinNode_child_other]
      · exact q.cells_plug_congr (CTree.cells_rotate ..).symm
  · have cw' : w.color = .black := by
      cases hc : w.color with
      | red => exact absurd hc cw
      | black => rfl
    obtain ⟨wl, wp, wc, we, wr, rfl⟩ := hok.bal_sibling.exists_join d
    rw [CTree.color_join] at cw cw'
    have hw' := (focus_sibling.1 h).mem_join
    refine ⟨s, c, _, q, ?_, h, CTree.color_join .. ▸ cw', hok, rfl, .inr rfl⟩
    simp only [rbDeleteRedSibling, CTree.ptr_join, rbM_bind, colorOf_apply, hw', Option.map_some,
      Option.bind_some, joinNode_color, if_neg cw]
    rfl

/-- Blackening a subtree that may be missing. -/
theorem Focus.blacken {s : RbState κ δ} {q : Spine Ptr κ δ} {t : CTree Ptr κ δ} (h : Focus s q t) :
    ∃ s', Memlog.blacken t.ptr s = some ((), s') ∧ Focus s' q (t.setColor .black) := by
  cases t with
  | nil => exact ⟨s, rfl, h⟩
  | node l p c e r => exact Focus.setColor (d := .left) h .black

/-- The last rotation: the sibling's far child is red. -/
theorem deleteFar_spec
    (h : Focus s (.step d p c e (.join d wl wp .black we wr) q) t) (ht : t.Bal n)
    (hl : wl.Bal n) (hr : wr.Bal n) (cr : wr.color = .red) :
    ∃ s' T, rbDeleteFar d (some p) (some wp) s = some ((), s') ∧ Focus s' q T ∧
      T.cells = (CTree.join d t p c e (.join d wl wp .black we wr)).cells ∧
      T.color = c ∧ T.Bal (if c = .red then n + 1 else n + 2) := by
  have hp := h.mem_step
  obtain ⟨s₁, hrun₁, h₁⟩ := (focus_sibling.1 h).setColor c
  obtain ⟨s₂, hrun₂, h₂⟩ := (focus_up.1 (focus_sibling.2 h₁)).setColor .black
  have h₂' : Focus s₂ (.step d.other wp c we wl (.step d.other p .black e t q)) wr := by
    refine focus_sibling.1 (focus_up.2 ?_)
    exact focus_sibling.1 (focus_up.2 h₂)
  have hw₂ : s₂.mem wp = some (joinNode d (some p) wl.ptr wr.ptr c we) := by
    simpa [joinNode_other] using h₂'.mem_step
  obtain ⟨s₃, hrun₃, h₃⟩ := h₂'.blacken
  have h₃' : Focus s₃ q (.join d t p .black e (.join d wl wp c we (wr.setColor .black))) :=
    focus_up.1 (focus_sibling.2 (focus_up.1 (focus_sibling.2 h₃)))
  obtain ⟨s₄, hrun₄, h₄⟩ := h₃'.rotate
  refine ⟨s₄, _, ?_, h₄, ?_, CTree.color_join .., ?_⟩
  · simp only [rbDeleteFar, rbM_bind, colorOf_apply, hp, Option.map_some, joinNode_color,
      Option.bind_some, hrun₁, hrun₂, childOf_apply, hw₂, joinNode_child_other, hrun₃, hrun₄]
  · rw [← CTree.cells_rotate d t wl (wr.setColor .black) p wp c .black .black c e we]
    exact CTree.cells_join_congr d p _ _ e rfl
      (CTree.cells_join_congr d wp _ _ we rfl (CTree.cells_setColor ..))
  · have hl' : (CTree.join d t p .black e wl).Bal (n + 1) := .black_join ht hl
    have hr' := hr.setBlack_of_red cr
    cases c with
    | red => exact .red_join hl' hr' (CTree.color_join ..) hr.setBlack.1
    | black => exact .black_join hl' hr'

/-- A red near child of the sibling is rotated into its place, so that the far child is red. -/
theorem deleteNear_spec
    (h : Focus s (.step d p c e (.join d wl wp .black we wr) q) t) (hl : wl.Bal n) (hr : wr.Bal n)
    (hred : wl.color = .red ∨ wr.color = .red) :
    ∃ s' wl' wp' we' wr', rbDeleteNear d (some p) (some wp) s = some (some wp', s') ∧
      Focus s' (.step d p c e (.join d wl' wp' .black we' wr') q) t ∧
      (CTree.join d wl' wp' .black we' wr').cells = (CTree.join d wl wp .black we wr).cells ∧
      wl'.Bal n ∧ wr'.Bal n ∧ wr'.color = .red := by
  have h₀ := focus_sibling.1 h
  have hw := h₀.mem_join
  have hfar : Focus s (.step d.other wp .black we wl (.step d.other p c e t q)) wr :=
    focus_sibling.1 (focus_up.2 h₀)
  have hblack := hfar.isBlack
  by_cases cr : wr.color = .red
  · refine ⟨s, wl, wp, we, wr, ?_, h, rfl, hl, hr, cr⟩
    simp only [rbDeleteNear, rbM_bind, childOf_apply, hw, Option.map_some, joinNode_child_other,
      Option.bind_some, hblack, cr, decide_false, reduceCtorEq, Bool.false_eq_true, if_false]
    rfl
  · have cr' : wr.color = .black := by
      cases hc : wr.color with
      | red => exact absurd hc cr
      | black => rfl
    obtain ⟨a, lp, le, b, rfl⟩ := CTree.exists_join_of_red d (hred.resolve_right cr)
    obtain ⟨ha, hb, ca, cb⟩ := hl.inv_red
    obtain ⟨s₁, hrun₁, h₁⟩ := (focus_up.2 h₀).blacken
    rw [CTree.ptr_join] at hrun₁
    rw [CTree.setColor_join] at h₁
    obtain ⟨s₂, hrun₂, h₂⟩ := (focus_up.1 h₁).setColor .red
    rw [← CTree.join_other d, ← CTree.join_other d] at h₂
    obtain ⟨s₃, hrun₃, h₃⟩ := h₂.rotate
    rw [CTree.join_other, CTree.join_other] at h₃
    refine ⟨s₃, a, lp, le, _, ?_, focus_sibling.2 h₃, ?_, ha, .red_join hb hr cb cr',
      CTree.color_join ..⟩
    · simp only [rbDeleteNear, rbM_bind, childOf_apply, hw, Option.map_some, joinNode_child_other,
        Option.bind_some, hblack, cr', decide_true, if_true, joinNode_child, hrun₁, hrun₂, hrun₃,
        (focus_sibling.2 h₃).mem_step, CTree.ptr_join]
    · exact CTree.cells_rotate ..

/-- **One iteration** of the fixup loop resolves the deficit at the root, or passes it on to a red
subtree or to the next level. -/
theorem deleteStep_spec (h : Focus s (.step d p c e w q) t) (ht : t.Bal n)
    (hok : (Spine.step d p c e w q).Ok (n + 1)) :
    ∃ s' q' t', rbDeleteStep d (some p) s = some (some (t'.ptr, q'.ptr), s') ∧ Focus s' q' t' ∧
      (q'.plug t').cells = ((Spine.step d p c e w q).plug t).cells ∧
      ((q' = .top ∧ ∃ k, t'.Bal k) ∨
        (Deficit q' t' ∧ (t'.color = .red ∨ q'.depth = q.depth))) := by
  have hp := h.mem_step
  have hw : w.ptr.isNone = false := by
    obtain ⟨a, wp, wc, we, b, rfl⟩ := hok.bal_sibling.exists_join d
    rw [CTree.ptr_join]
    rfl
  obtain ⟨s₁, c', w', q', hrun₁, h₁, cw', hok', hcells₁, hq'⟩ := deleteRedSibling_spec h hok
  obtain ⟨wl, wp, we, wr, rfl⟩ : ∃ a p e b, w' = .join d a p .black e b := by
    obtain ⟨a, wp, wc, we, b, rfl⟩ := hok'.bal_sibling.exists_join d
    rw [CTree.color_join] at cw'
    exact ⟨a, wp, we, b, by rw [cw']⟩
  obtain ⟨hwl, hwr⟩ := hok'.bal_sibling.inv_black
  have h₁' := focus_sibling.1 h₁
  have hw₁ := h₁'.mem_join
  have hbl := (focus_up.2 h₁').isBlack
  have hbr := (focus_sibling.1 (focus_up.2 h₁')).isBlack
  have hstart : rbDeleteStep d (some p) s =
      (if decide (wl.color = Color.black) && decide (wr.color = Color.black) then do
        setColor (some wp) .red
        return some (some p, ← parentOf (some p))
      else do
        let w ← rbDeleteNear d (some p) (some wp)
        rbDeleteFar d (some p) w
        return some (← getRoot, none)) s₁ := by
    rw [CTree.ptr_join] at hrun₁
    simp only [rbDeleteStep, rbM_bind, childOf_apply, hp, Option.map_some, joinNode_child_other,
      Option.bind_some, hw, Bool.false_eq_true, if_false, hrun₁, hw₁, joinNode_child, hbl, hbr]
  rw [hstart]
  by_cases hcol : wl.color = .black ∧ wr.color = .black
  · -- both children of the sibling are black: it is reddened and the deficit moves up
    obtain ⟨s₂, hrun₂, h₂⟩ := h₁'.setColor .red
    have h₂' := focus_up.1 (focus_sibling.2 h₂)
    have hw' : (CTree.join d wl wp .red we wr).Bal n := .red_join hwl hwr hcol.1 hcol.2
    refine ⟨s₂, q', _, ?_, h₂', ?_, .inr ⟨?_, ?_⟩⟩
    · simp only [hcol.1, hcol.2, decide_true, Bool.and_self, if_true, rbM_bind, hrun₂,
        Option.bind_some, parentOf_apply, h₂'.mem_join, Option.map_some, joinNode_parent,
        CTree.ptr_join]
      rfl
    · rw [← hcells₁]
      exact q'.cells_plug_congr (CTree.cells_join_congr d p _ _ e rfl
        (CTree.cells_join_congr d wp _ _ we rfl rfl))
    · cases c' with
      | red =>
        refine .inl ⟨CTree.color_join .., n + 1, ?_, hok'.2.2.2⟩
        rw [CTree.setColor_join]
        exact .black_join ht hw'
      | black => exact .inr ⟨CTree.color_join .., n + 1, .black_join ht hw', hok'.2⟩
    · rcases hq' with rfl | rfl
      · exact .inl (CTree.color_join ..)
      · exact .inr rfl
  · have hred : wl.color = .red ∨ wr.color = .red := by
      cases hl : wl.color with
      | red => exact .inl rfl
      | black =>
        cases hr : wr.color with
        | red => exact .inr rfl
        | black => exact absurd ⟨hl, hr⟩ hcol
    obtain ⟨s₂, wl', wp', we', wr', hrun₂, h₂, hcells₂, hwl', hwr', cr'⟩ :=
      deleteNear_spec h₁ hwl hwr hred
    obtain ⟨s₃, T, hrun₃, h₃, hcells₃, cT, hT⟩ := deleteFar_spec h₂ ht hwl' hwr' cr'
    have hroot := focus_plug.1 h₃
    refine ⟨s₃, .top, q'.plug T, ?_, hroot, ?_, .inl ⟨rfl, ?_⟩⟩
    · have hcond : (decide (wl.color = Color.black) && decide (wr.color = Color.black)) =
          false := by
        simpa using fun hl hr => hcol ⟨hl, hr⟩
      have hr : s₃.root = (q'.plug T).ptr := hroot.path
      simp only [hcond, Bool.false_eq_true, if_false, rbM_bind, hrun₂, Option.bind_some, hrun₃,
        getRoot_apply, hr]
      rfl
    · rw [← hcells₁]
      refine q'.cells_plug_congr (hcells₃.trans ?_)
      exact CTree.cells_join_congr d p _ _ e rfl hcells₂
    · cases c' with
      | red => exact Spine.Ok.plug hok'.2.2.2 hT fun hr => by cases hr.unique hok'.2.2.1
      | black => exact Spine.Ok.plug hok'.2 hT fun _ => cT

/-- The source finds out on which side of its parent a short subtree hangs: a missing subtree has a
sibling. -/
theorem deleteSide (h : Focus s (.step d p c e w q) t) (hok : (Spine.step d p c e w q).Ok (n + 1)) :
    (if t.ptr = (joinNode d q.ptr t.ptr w.ptr c e).child .left then Side.left else Side.right) =
      d := by
  cases d with
  | left => exact if_pos rfl
  | right =>
    obtain ⟨a, wp, wc, we, b, rfl⟩ := hok.bal_sibling.exists_join .left
    refine if_neg ?_
    exact (focus_sibling.1 h).ptr_ne_sibling (CTree.ptr_join ..)

end Step

/-! ## The loop -/

/-- One iteration of the `while` loop of `rb_delete_fixup`: the next `x` and `parent`, or nothing
when the loop ends. -/
def rbDeleteIter (x parent : Option Ptr) : RbM κ δ (Option (Option Ptr × Option Ptr)) := do
  if x = (← getRoot) then return none
  if !(← isBlack x) then return none
  if parent.isNone then return none
  let d := if x = (← childOf .left parent) then Side.left else Side.right
  rbDeleteStep d parent

/-- The loop is made of its iterations. -/
theorem rbDeleteFixupLoop_succ (fuel : Nat) (x parent : Option Ptr) :
    (rbDeleteFixupLoop (fuel + 1) x parent : RbM κ δ (Option Ptr)) = (do
      match ← rbDeleteIter x parent with
      | none => return x
      | some (x, parent) => rbDeleteFixupLoop fuel x parent) := by
  simp only [rbDeleteFixupLoop, rbDeleteIter, bind_assoc]
  refine bind_congr fun root => ?_
  by_cases hroot : x = root
  · simp only [if_pos hroot, pure_bind]
  simp only [if_neg hroot, bind_assoc]
  refine bind_congr fun black => ?_
  cases black with
  | false => simp only [Bool.not_false, if_true, pure_bind]
  | true =>
    simp only [Bool.not_true, Bool.false_eq_true, if_false]
    cases parent with
    | none => simp only [Option.isNone_none, if_true, pure_bind]
    | some p =>
      simp only [Option.isNone_some, Bool.false_eq_true, if_false]
      refine Eq.trans (bind_congr fun l => ?_) (bind_assoc ..).symm
      rfl

/-- The invariant of the deletion fixup: the subtree in focus is one black node short, or it is the
whole tree. -/
structure DeleteAt (s : RbState κ δ) (q : Spine Ptr κ δ) (t : CTree Ptr κ δ) : Prop where
  focus : Focus s q t
  short : (q = .top ∧ ∃ k, t.Bal k) ∨ Deficit q t

section Iter

variable {s : RbState κ δ} {q : Spine Ptr κ δ} {t : CTree Ptr κ δ}

/-- At the root, and at a red subtree, blackening is all that is left to do. -/
theorem DeleteAt.blacken_valid (h : DeleteAt s q t) (hend : q = .top ∨ t.color = .red) :
    (q.plug (t.setColor .black)).Valid := by
  rcases h.short with ⟨rfl, k, hk⟩ | ⟨cr, m, hm, hq⟩ | ⟨cb, m, hm, hq⟩
  · exact hk.setBlack
  · refine hq.plug_valid hm ?_
    cases t with
    | nil => cases cr
    | node => rfl
  · rcases hend with rfl | cr
    · exact hm.setBlack
    · cases cb.symm.trans cr

/-- The loop ends at the root and at a red subtree. -/
theorem deleteIter_end (h : Focus s q t) (hend : q = .top ∨ t.color = .red) :
    rbDeleteIter t.ptr q.ptr s = some (none, s) := by
  by_cases hroot : t.ptr = s.root
  · rw [rbDeleteIter, rbM_bind, getRoot_apply, Option.bind_some, if_pos hroot]
    rfl
  · have cr : t.color = .red := by
      refine hend.resolve_left ?_
      rintro rfl
      exact hroot h.path.symm
    simp only [rbDeleteIter, rbM_bind, getRoot_apply, Option.bind_some, if_neg hroot, h.isBlack, cr,
      reduceCtorEq, decide_false, Bool.not_false, if_true]
    rfl

/-- **One iteration** of the deletion fixup ends the loop where blackening suffices, or keeps the
invariant and the content and moves to a red subtree or closer to the root. -/
theorem deleteIter_spec (h : DeleteAt s q t) :
    (rbDeleteIter t.ptr q.ptr s = some (none, s) ∧ (q = .top ∨ t.color = .red)) ∨
      ∃ s' q' t', rbDeleteIter t.ptr q.ptr s = some (some (t'.ptr, q'.ptr), s') ∧
        DeleteAt s' q' t' ∧ (q'.plug t').cells = (q.plug t).cells ∧
        (t'.color = .red ∨ q'.depth < q.depth) := by
  by_cases hend : q = .top ∨ t.color = .red
  · exact .inl ⟨deleteIter_end h.focus hend, hend⟩
  · obtain ⟨hq, hc⟩ := not_or.1 hend
    obtain ⟨cb, n, ht, hok⟩ := (h.short.resolve_left fun htop => hq htop.1).resolve_left
      fun hred => hc hred.1
    match q, h, hok, hq with
    | .top, _, _, hq => exact absurd rfl hq
    | .step d p c e w q, h, hok, _ =>
      have hf := h.focus
      obtain ⟨s₁, q₁, t₁, hrun₁, h₁, hcells₁, hcase⟩ := deleteStep_spec hf ht hok
      refine .inr ⟨s₁, q₁, t₁, ?_, ⟨h₁, ?_⟩, hcells₁, ?_⟩
      · rw [Spine.ptr_step]
        simp only [rbDeleteIter, rbM_bind, getRoot_apply, Option.bind_some, if_neg hf.ptr_ne_root,
          hf.isBlack, cb, decide_true, Bool.not_true, Bool.false_eq_true, if_false,
          Option.isNone_some, childOf_apply, hf.mem_step, Option.map_some, deleteSide hf hok,
          hrun₁]
      · exact hcase.imp id And.left
      · simp only [Spine.depth]
        rcases hcase with ⟨rfl, -⟩ | ⟨-, hred | hd⟩
        · exact .inr (Nat.succ_pos _)
        · exact .inl hred
        · exact .inr (by omega)

end Iter

/-- **The deletion fixup loop** ends at a subtree whose blackening gives a valid tree. -/
theorem deleteLoop_spec (fuel : Nat) {s : RbState κ δ} {q : Spine Ptr κ δ} {t : CTree Ptr κ δ}
    (h : DeleteAt s q t) (hfuel : q.depth < fuel ∨ (t.color = .red ∧ 0 < fuel)) :
    ∃ s' q' t', rbDeleteFixupLoop fuel t.ptr q.ptr s = some (t'.ptr, s') ∧ Focus s' q' t' ∧
      (q'.plug t').cells = (q.plug t).cells ∧ (q'.plug (t'.setColor .black)).Valid := by
  induction fuel generalizing s q t with
  | zero => omega
  | succ fuel ih =>
    rw [rbDeleteFixupLoop_succ, rbM_bind]
    by_cases hend : q = .top ∨ t.color = .red
    · refine ⟨s, q, t, ?_, h.focus, rfl, h.blacken_valid hend⟩
      rw [deleteIter_end h.focus hend]
      rfl
    · obtain ⟨s₁, q₁, t₁, hrun₁, h₁, hcells₁, hnext⟩ :=
        (deleteIter_spec h).resolve_left fun hleft => hend hleft.2
      have hdepth : q.depth < fuel + 1 := hfuel.resolve_right fun hred => hend (.inr hred.1)
      have hpos : 0 < q.depth := by
        cases q with
        | top => exact absurd (.inl rfl) hend
        | step => exact Nat.succ_pos _
      have hfuel₁ : q₁.depth < fuel ∨ (t₁.color = .red ∧ 0 < fuel) := by
        rcases hnext with hred | hd
        · exact .inr ⟨hred, by omega⟩
        · exact .inl (by omega)
      obtain ⟨s', q', t', hrun, h', hcells, hvalid⟩ := ih h₁ hfuel₁
      refine ⟨s', q', t', ?_, h', hcells.trans hcells₁, hvalid⟩
      rw [hrun₁]
      exact hrun

/-- `rb_delete_fixup`. -/
theorem rbDeleteFixup_spec {s : RbState κ δ} {q : Spine Ptr κ δ} {t : CTree Ptr κ δ}
    (h : Focus s q t) (hdef : Deficit q t) :
    ∃ s' T, rbDeleteFixup t.ptr q.ptr s = some ((), s') ∧ Focus s' .top T ∧
      T.cells = (q.plug t).cells ∧ T.Valid := by
  have hdepth : q.depth < s.size + 2 := by
    have := h.depth_le_size
    omega
  obtain ⟨s₁, q₁, t₁, hrun₁, h₁, hcells₁, hvalid⟩ :=
    deleteLoop_spec (s.size + 2) ⟨h, .inr hdef⟩ (.inl hdepth)
  obtain ⟨s₂, hrun₂, h₂⟩ := h₁.blacken
  refine ⟨s₂, _, ?_, focus_plug.1 h₂, ?_, hvalid⟩
  · rw [rbDeleteFixup, rbM_bind, rbM_get, Option.bind_some, rbM_bind, hrun₁]
    exact hrun₂
  · rw [← hcells₁]
    exact q₁.cells_plug_congr (CTree.cells_setColor ..)

end Memlog
