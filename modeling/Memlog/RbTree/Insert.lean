import Memlog.RbTree.Steps

/-!
# Insertion

The fixup loop of `rb_insert_color` is run on a focus whose subtree has a red root: everything but
the colour of the node above is already in order. Case 1 moves the focus two levels up, the
rotations put a black node above it, and a black node above ends the loop. `InsertAt` is the loop's
invariant: one iteration (`insertIter_spec`) keeps it and brings the focus closer to the root, so
that the loop (`insertLoop_spec`) ends by induction on the depth of the focus.
-/

namespace Memlog

open Lib

variable {κ δ : Type}

/-! ## Reading around the focus -/

theorem RepPath.root_mem {m : Ptr → Option (RbNode κ δ)} {root hole : Option Ptr} {d : Side}
    {p : Ptr} {c : Color} {e : κ × δ} {u : CTree Ptr κ δ} {q : Spine Ptr κ δ}
    (h : RepPath m root (.step d p c e u q) hole) :
    ∃ r ∈ (Spine.step d p c e u q).ids, root = some r := by
  induction q generalizing d p c e u hole with
  | top => exact ⟨p, Spine.mem_ids_step.2 (.inl rfl), h.2.2⟩
  | step d' p' c' e' u' q ih =>
    obtain ⟨r, hr, hroot⟩ := ih h.2.2
    exact ⟨r, Spine.mem_ids_step.2 (.inr (.inr hr)), hroot⟩

/-- Below a node, a focus is not at the root of the tree. -/
theorem Focus.ptr_ne_root {s : RbState κ δ} {q : Spine Ptr κ δ} {t u : CTree Ptr κ δ} {d : Side}
    {p : Ptr} {c : Color} {e : κ × δ} (h : Focus s (.step d p c e u q) t) : t.ptr ≠ s.root := by
  obtain ⟨r, hr, hroot⟩ := h.path.root_mem
  obtain ⟨-, -, hd⟩ := Spine.nodup_plug.1 h.nodup
  intro ht
  rw [hroot] at ht
  exact hd r (CTree.ptr_mem_ids ht) hr

/-- The two children of a node are different objects, or both are missing. -/
theorem Focus.ptr_ne_sibling {s : RbState κ δ} {q : Spine Ptr κ δ} {t u : CTree Ptr κ δ} {d : Side}
    {p n : Ptr} {c : Color} {e : κ × δ} (h : Focus s (.step d p c e u q) t)
    (hn : t.ptr = some n) : u.ptr ≠ some n := by
  obtain ⟨-, -, hd⟩ := Spine.nodup_plug.1 h.nodup
  intro hu
  exact hd n (CTree.ptr_mem_ids hn)
    (Spine.mem_ids_step.2 (.inr (.inl (CTree.ptr_mem_ids hu))))

theorem Focus.isRed {s : RbState κ δ} {q : Spine Ptr κ δ} {t : CTree Ptr κ δ} (h : Focus s q t) :
    Memlog.isRed t.ptr s = some (decide (t.color = .red), s) := by
  cases t with
  | nil => rfl
  | node l p c e r =>
    show (colorOf (some p) >>= fun c => pure (decide (c = .red))) s = _
    rw [rbM_bind, colorOf_apply, h.tree.1]
    rfl

section Loop

variable {s : RbState κ δ} {q : Spine Ptr κ δ} {d d' : Side} {n p g : Ptr} {c : Color}
  {e e' e'' : κ × δ} {a b u y : CTree Ptr κ δ}

theorem rbGrandparent_focus
    (h : Focus s (.step d p c e' u (.step d' g .black e'' y q)) (.join d' a n .red e b)) :
    rbGrandparent (some n) s = some (some g, s) := by
  have hn := h.mem_join
  have hp := h.mem_step
  simp only [rbGrandparent, rbM_bind, parentOf_apply, hn, Option.map_some, joinNode_parent,
    Spine.ptr_step, Option.bind_some, Option.isSome_some, if_true, hp]

theorem rbUncle_focus
    (h : Focus s (.step d p c e' u (.step d' g .black e'' y q)) (.join d' a n .red e b)) :
    rbUncle (some n) s = some (y.ptr, s) := by
  have hn := h.mem_join
  have hg : s.mem g = some (joinNode d' q.ptr (some p) y.ptr .black e'') := by
    simpa using (focus_up.1 h).mem_step
  simp only [rbUncle, rbM_bind, rbGrandparent_focus h, Option.bind_some, Option.isNone_some,
    Bool.false_eq_true, if_false, parentOf_apply, hn, Option.map_some, joinNode_parent,
    Spine.ptr_step, childOf_apply, hg]
  cases d' with
  | left =>
    have hp : some p = (joinNode .left q.ptr (some p) y.ptr .black e'').child .left := rfl
    rw [if_pos hp, childOf_apply, hg]
    rfl
  | right =>
    have hp : some p ≠ (joinNode .right q.ptr (some p) y.ptr .black e'').child .left :=
      ((focus_up.1 h).ptr_ne_sibling (CTree.ptr_join ..)).symm
    rw [if_neg hp, childOf_apply, hg]
    rfl

/-- **Case 3**: the parent becomes black, the grandparent red, and the parent is rotated into the
place of the grandparent. -/
theorem insertCase3
    (h : Focus s (.step d p .red e' u (.step d g .black e'' y q)) (.join d a n .red e b)) :
    ∃ s', rbInsertCase3 d (some n) (some g) s = some ((), s') ∧
      Focus s' (.step d p .black e' (.join d u g .red e'' y) q) (.join d a n .red e b) := by
  have hn := h.mem_join
  obtain ⟨s₁, hrun₁, h₁⟩ := (focus_up.1 h).setColor .black
  obtain ⟨s₂, hrun₂, h₂⟩ := (focus_up.1 h₁).setColor .red
  rw [← CTree.join_other d, ← CTree.join_other d] at h₂
  obtain ⟨s₃, hrun₃, h₃⟩ := h₂.rotate
  refine ⟨s₃, ?_, ?_⟩
  · simp only [rbInsertCase3, rbM_bind, parentOf_apply, hn, Option.map_some, joinNode_parent,
      Spine.ptr_step, Option.bind_some, hrun₁, hrun₂, hrun₃]
  · rw [CTree.join_other, CTree.join_other] at h₃
    exact focus_up.2 h₃

/-- The rotations put a black node above the node in focus and keep the content. -/
theorem insertRotate_spec {m : Nat}
    (h : Focus s (.step d' p .red e' u (.step d g .black e'' y q)) (.join d a n .red e b))
    (ht : (CTree.join d a n .red e b).Bal m) (hu : u.Bal m) (hy : y.Bal m)
    (cu : u.color = .black) (cy : y.color = .black) :
    ∃ s' n' p' e₁ e₂ a' b' w, rbInsertRotate d (some n) (some g) s = some (some n', s') ∧
      Focus s' (.step d p' .black e₂ w q) (.join d a' n' .red e₁ b') ∧
      (CTree.join d (.join d a' n' .red e₁ b') p' .black e₂ w).cells =
        (CTree.join d (.join d' (.join d a n .red e b) p .red e' u) g .black e'' y).cells ∧
      (CTree.join d (.join d a' n' .red e₁ b') p' .black e₂ w).Bal (m + 1) := by
  have hn := h.mem_join
  have hp := h.mem_step
  obtain ⟨ha, hb, ca, cb⟩ := ht.inv_red
  unfold rbInsertRotate
  simp only [rbM_bind, parentOf_apply, hn, hp, Option.map_some, joinNode_parent, Spine.ptr_step,
    Option.bind_some, childOf_apply]
  obtain rfl | rfl := d.eq_or_eq_other d'
  · have hne : some n ≠
        (joinNode d (some g) (CTree.join d a n .red e b).ptr u.ptr .red e').child d.other := by
      rw [joinNode_child_other]
      exact (h.ptr_ne_sibling (CTree.ptr_join ..)).symm
    obtain ⟨s', hrun, h'⟩ := insertCase3 h
    refine ⟨s', n, p, e, e', a, b, _, ?_, h', ?_, ?_⟩
    · rw [if_neg hne, rbM_bind, hrun]
      rfl
    · exact CTree.cells_rotate ..
    · exact .black_join ht (.red_join hu hy cu cy)
  · -- case 2: the parent is rotated down first and takes the role of the node
    have heq : some n =
        (joinNode d.other (some g) (CTree.join d a n .red e b).ptr u.ptr .red e').child
          d.other := by
      rw [joinNode_child, CTree.ptr_join]
    have h₀ := focus_up.1 h
    rw [CTree.join_other] at h₀
    obtain ⟨s₁, hrun₁, h₁⟩ := h₀.rotate
    obtain ⟨s', hrun, h'⟩ := insertCase3 (focus_up.2 h₁)
    refine ⟨s', p, n, e', e, u, a, _, ?_, h', ?_, ?_⟩
    · rw [if_pos heq, rbM_bind, parentOf_apply, hn]
      simp only [Option.map_some, joinNode_parent, Spine.ptr_step, Option.bind_some]
      rw [rbM_bind, hrun₁, Option.bind_some, rbM_bind, hrun]
      rfl
    · cases d <;> simp [CTree.join, Side.other]
    · exact .black_join (.red_join hu ha cu ca) (.red_join hb hy cb cy)

end Loop

/-- One iteration of the `while` loop of `rb_insert_color`: the next `n`, or nothing when the loop
ends. -/
def rbInsertIter (n : Option Ptr) : RbM κ δ (Option (Option Ptr)) := do
  if n = (← getRoot) then return none
  if (← colorOf (← parentOf n)) ≠ .red then return none
  let u ← rbUncle n
  let g ← rbGrandparent n
  if ← isRed u then
    -- case 1
    setColor (← parentOf n) .black
    setColor u .black
    setColor g .red
    return some g
  else if (← parentOf n) = (← childOf .left g) then
    return some (← rbInsertRotate .left n g)
  else
    return some (← rbInsertRotate .right n g)

/-- The loop is made of its iterations. -/
theorem rbInsertLoop_succ (fuel : Nat) (n : Option Ptr) :
    (rbInsertLoop (fuel + 1) n : RbM κ δ Unit) = (do
      match ← rbInsertIter n with
      | none => return ()
      | some n => rbInsertLoop fuel n) := by
  simp only [rbInsertLoop, rbInsertIter, bind_assoc]
  refine bind_congr fun root => ?_
  by_cases hroot : n = root
  · simp only [if_pos hroot, pure_bind]
  simp only [if_neg hroot, bind_assoc]
  refine bind_congr fun p => bind_congr fun c => ?_
  by_cases hc : c ≠ .red
  · simp only [if_pos hc, pure_bind]
  simp only [if_neg hc, bind_assoc]
  refine bind_congr fun u => bind_congr fun g => bind_congr fun red => ?_
  cases red with
  | true => simp only [if_true, bind_assoc, pure_bind]
  | false =>
    simp only [Bool.false_eq_true, if_false, bind_assoc]
    refine bind_congr fun p => bind_congr fun l => ?_
    by_cases hl : p = l
    · simp only [if_pos hl, bind_assoc, pure_bind]
    · simp only [if_neg hl, bind_assoc, pure_bind]

/-- The invariant of the insertion fixup: the node `n` in focus is red, and everything but the
colour of the node above it is in order. -/
structure InsertAt (s : RbState κ δ) (n : Ptr) (q : Spine Ptr κ δ) (t : CTree Ptr κ δ) : Prop where
  focus : Focus s q t
  ptr : t.ptr = some n
  red : t.color = .red
  bal : ∃ m, q.Ok m ∧ t.Bal m

namespace InsertAt

variable {s : RbState κ δ} {n : Ptr} {q : Spine Ptr κ δ} {t : CTree Ptr κ δ}

theorem exists_join (h : InsertAt s n q t) (d : Side) : ∃ a e b, t = .join d a n .red e b := by
  obtain ⟨a, n', e, b, rfl⟩ := CTree.exists_join_of_red d h.red
  have hn := h.ptr
  rw [CTree.ptr_join, Option.some.injEq] at hn
  exact ⟨a, e, b, by rw [hn]⟩

theorem of_join {d : Side} {a b : CTree Ptr κ δ} {e : κ × δ} {m : Nat}
    (h : Focus s q (.join d a n .red e b)) (hq : q.Ok m) (ht : (CTree.join d a n .red e b).Bal m) :
    InsertAt s n q (.join d a n .red e b) :=
  ⟨h, CTree.ptr_join .., CTree.color_join .., m, hq, ht⟩

/-- With no red node above it, the node has no fault. -/
theorem plug_bal (h : InsertAt s n q t) (hq : ¬q.HasColor .red) : ∃ k, (q.plug t).Bal k := by
  obtain ⟨m, hok, ht⟩ := h.bal
  exact hok.plug ht fun hred => absurd hred hq

end InsertAt

/-- The loop ends at the root and under a black node. -/
theorem insertIter_end {s : RbState κ δ} {n : Ptr} {q : Spine Ptr κ δ} {t : CTree Ptr κ δ}
    (h : InsertAt s n q t) (hq : ¬q.HasColor .red) : rbInsertIter (some n) s = some (none, s) := by
  obtain ⟨a, e, b, rfl⟩ := h.exists_join .left
  match q, h.focus, hq with
  | .top, hf, _ =>
    have hroot : some n = s.root := hf.path.symm
    simp only [rbInsertIter, rbM_bind, getRoot_apply, Option.bind_some, if_pos hroot]
    rfl
  | .step d p .red e' u q, _, hq => exact absurd rfl hq
  | .step d p .black e' u q, hf, _ =>
    have hroot : some n ≠ s.root := by simpa using hf.ptr_ne_root
    simp only [rbInsertIter, rbM_bind, getRoot_apply, Option.bind_some, if_neg hroot,
      parentOf_apply, hf.mem_join, Option.map_some, joinNode_parent, Spine.ptr_step,
      colorOf_apply, hf.mem_step, joinNode_color, ne_eq, reduceCtorEq, not_false_eq_true, if_true]
    rfl

/-- **One iteration** of the insertion fixup ends the loop without a fault, or keeps the invariant
and the content and brings the focus closer to the root. -/
theorem insertIter_spec {s : RbState κ δ} {n : Ptr} {q : Spine Ptr κ δ} {t : CTree Ptr κ δ}
    (h : InsertAt s n q t) :
    (rbInsertIter (some n) s = some (none, s) ∧ ¬q.HasColor .red) ∨
      ∃ s' n' q' t', rbInsertIter (some n) s = some (some (some n'), s') ∧ InsertAt s' n' q' t' ∧
        (q'.plug t').cells = (q.plug t).cells ∧ q'.depth < q.depth := by
  by_cases hred : q.HasColor .red
  · refine .inr ?_
    obtain ⟨m, hok, ht⟩ := h.bal
    match q, h, hok, hred with
    | .step d' p .red e' u (.step d g .black e'' y q), h, hok, _ =>
      obtain ⟨hu, cu, -, hy, hq⟩ := hok
      obtain ⟨a, e, b, rfl⟩ := h.exists_join d
      replace h := h.focus
      have hroot : some n ≠ s.root := by simpa using h.ptr_ne_root
      have hn := h.mem_join
      have hp := h.mem_step
      have hg : s.mem g = some (joinNode d q.ptr (some p) y.ptr .black e'') := by
        simpa using (focus_up.1 h).mem_step
      have hy' := (focus_sibling.1 (focus_up.1 h)).isRed
      simp only [rbInsertIter, rbM_bind, getRoot_apply, Option.bind_some, if_neg hroot,
        parentOf_apply, hn, Option.map_some, joinNode_parent, Spine.ptr_step, colorOf_apply, hp,
        joinNode_color, rbUncle_focus h, rbGrandparent_focus h, hy', ne_eq, not_true_eq_false,
        if_false]
      by_cases cy : y.color = .red
      · -- case 1: the fault moves up to the grandparent
        obtain ⟨y₁, yp, ye, y₂, rfl⟩ := CTree.exists_join_of_red d cy
        obtain ⟨hy₁, hy₂, -, -⟩ := hy.inv_red
        obtain ⟨s₁, hrun₁, h₁⟩ := (focus_up.1 h).setColor .black
        obtain ⟨s₂, hrun₂, h₂⟩ := (focus_sibling.1 h₁).setColor .black
        obtain ⟨s₃, hrun₃, h₃⟩ := (focus_up.1 h₂).setColor .red
        have hbal := CTree.Bal.red_join (d := d.other) (p := g) (e := e'')
          (CTree.Bal.black_join (d := d) (p := yp) (e := ye) hy₁ hy₂)
          (CTree.Bal.black_join (d := d') (p := p) (e := e') ht hu)
          (CTree.color_join ..) (CTree.color_join ..)
        refine ⟨s₃, g, q, _, ?_, .of_join h₃ hq hbal, ?_, ?_⟩
        · simp only [CTree.ptr_join, cy, decide_true, if_true, rbM_bind, parentOf_apply, hn,
            Option.map_some, joinNode_parent, Spine.ptr_step, Option.bind_some, hrun₁, hrun₂,
            hrun₃]
          rfl
        · refine q.cells_plug_congr ?_
          cases d <;> cases d' <;> simp [CTree.join, Side.other]
        · simp only [Spine.depth]
          omega
      · -- cases 2 and 3
        have cy' : y.color = .black := by
          cases hc : y.color with
          | red => exact absurd hc cy
          | black => rfl
        obtain ⟨s₁, n', p', e₁, e₂, a₁, b₁, w, hrun₁, h₁, hcells, hbal⟩ :=
          insertRotate_spec h ht hu hy cu cy'
        obtain ⟨hbal₁, hw⟩ := hbal.inv_black
        refine ⟨s₁, n', _, _, ?_, .of_join h₁ ⟨hw, hq⟩ hbal₁, q.cells_plug_congr hcells, ?_⟩
        · simp only [cy, decide_false, Bool.false_eq_true, if_false, rbM_bind, parentOf_apply, hn,
            Option.map_some, joinNode_parent, Spine.ptr_step, Option.bind_some, childOf_apply, hg]
          cases d with
          | left =>
            have hl : some p = (joinNode .left q.ptr (some p) y.ptr .black e'').child .left := rfl
            rw [if_pos hl, rbM_bind, hrun₁]
            rfl
          | right =>
            have hr : some p ≠ (joinNode .right q.ptr (some p) y.ptr .black e'').child .left :=
              ((focus_up.1 h).ptr_ne_sibling (CTree.ptr_join ..)).symm
            rw [if_neg hr, rbM_bind, hrun₁]
            rfl
        · simp only [Spine.depth]
          omega
  · exact .inl ⟨insertIter_end h hred, hred⟩

/-- **The insertion fixup**: started at a node whose only possible fault is a red parent, the loop
ends with a balanced tree of the same content. -/
theorem insertLoop_spec (fuel : Nat) {s : RbState κ δ} {n : Ptr} {q : Spine Ptr κ δ}
    {t : CTree Ptr κ δ} (h : InsertAt s n q t) (hfuel : q.depth < fuel) :
    ∃ s' T, rbInsertLoop fuel (some n) s = some ((), s') ∧ Focus s' .top T ∧
      T.cells = (q.plug t).cells ∧ ∃ k, T.Bal k := by
  induction fuel generalizing s n q t with
  | zero => omega
  | succ fuel ih =>
    rw [rbInsertLoop_succ, rbM_bind]
    rcases insertIter_spec h with ⟨hrun, hq⟩ | ⟨s₁, n₁, q₁, t₁, hrun, h₁, hcells, hdepth⟩
    · refine ⟨s, _, ?_, focus_plug.1 h.focus, rfl, h.plug_bal hq⟩
      rw [hrun]
      rfl
    · obtain ⟨s', T, hrun', hT, hcells', hbal⟩ := ih h₁ (by omega)
      refine ⟨s', T, ?_, hT, hcells'.trans hcells, hbal⟩
      rw [hrun]
      exact hrun'

/-- A focus at the root with the root blackened. -/
theorem Focus.blackenRoot {s : RbState κ δ} {T : CTree Ptr κ δ} (h : Focus s .top T) {k : Nat}
    (hT : T.Bal k) (hne : T ≠ .nil) :
    ∃ s' T', (do Memlog.setColor (← getRoot) .black : RbM κ δ Unit) s = some ((), s') ∧
      Focus s' .top T' ∧ T'.cells = T.cells ∧ T'.Valid := by
  cases T with
  | nil => exact absurd rfl hne
  | node l p c e r =>
    have hroot : s.root = some p := h.path
    obtain ⟨s', hrun, h'⟩ := Focus.setColor (d := .left) h .black
    refine ⟨s', _, ?_, h', rfl, hT.setBlack⟩
    rw [rbM_bind, getRoot_apply, hroot]
    exact hrun

/-- `rb_insert_color` after a red leaf has been linked into a red-black tree. -/
theorem rbInsertColor_spec {s : RbState κ δ} {q : Spine Ptr κ δ} {n : Ptr} {e : κ × δ}
    (h : Focus s q (.node .nil n .red e .nil)) (hq : q.Ok 0) :
    ∃ s' T, rbInsertColor (some n) s = some ((), s') ∧ Focus s' .top T ∧
      T.cells = (q.plug (.node .nil n .red e .nil)).cells ∧ T.Valid := by
  have hfuel : q.depth < s.size + 1 := Nat.lt_succ_of_le h.depth_le_size
  obtain ⟨s₁, T₁, hrun₁, h₁, hcells₁, k, hT₁⟩ :=
    insertLoop_spec (s.size + 1)
      (InsertAt.of_join (d := .left) h hq (.red .nil .nil rfl rfl)) hfuel
  have hne : T₁ ≠ .nil := by
    intro hnil
    rw [hnil, Spine.cells_plug] at hcells₁
    simp [CTree.join] at hcells₁
  obtain ⟨s₂, T₂, hrun₂, h₂, hcells₂, hT₂⟩ := h₁.blackenRoot hT₁ hne
  refine ⟨s₂, T₂, ?_, h₂, hcells₂.trans hcells₁, hT₂⟩
  rw [rbInsertColor, rbM_bind, rbM_get, Option.bind_some, rbM_bind, hrun₁, Option.bind_some]
  exact hrun₂

/-! ## The descent -/

/-- Keys increase strictly along a list of cells. -/
def Ordered [LinearOrder κ] (l : List (Ptr × κ × δ)) : Prop := l.Pairwise fun x y => x.2.1 < y.2.1

section Descent

variable [LinearOrder κ]

/-- The descent ends at the hole where the key belongs, or finds the key. -/
theorem insertDescend_spec {s : RbState κ δ} (key : κ) {t : CTree Ptr κ δ} {q : Spine Ptr κ δ}
    {fuel : Nat} (h : Focus s q t) (ho : Ordered t.cells) (hb : ∀ x ∈ q.before, x.2.1 < key)
    (ha : ∀ x ∈ q.after, key < x.2.1) (hfuel : t.cells.length < fuel) :
    (insertDescend key fuel (pathLink q) q.ptr s = some (none, s) ∧ ∃ x ∈ t.cells, x.2.1 = key) ∨
      ∃ q', insertDescend key fuel (pathLink q) q.ptr s = some (some (pathLink q', q'.ptr), s) ∧
        q'.plug .nil = q.plug t ∧ (∀ x ∈ q'.before, x.2.1 < key) ∧
        ∀ x ∈ q'.after, key < x.2.1 := by
  induction t generalizing q fuel with
  | nil =>
    obtain ⟨fuel, rfl⟩ : ∃ k, fuel = k + 1 := ⟨fuel - 1, by omega⟩
    refine .inr ⟨q, ?_, rfl, hb, ha⟩
    rw [insertDescend, rbM_bind, h.path.read]
    rfl
  | node l p c e r ihl ihr =>
    obtain ⟨fuel, rfl⟩ : ∃ k, fuel = k + 1 := ⟨fuel - 1, by omega⟩
    rw [CTree.cells_node, List.length_append, List.length_cons] at hfuel
    obtain ⟨hol, hor, hlr⟩ := List.pairwise_append.1 ho
    obtain ⟨hpr, hor⟩ := List.pairwise_cons.1 hor
    have hp := h.tree.1
    rw [insertDescend, rbM_bind, h.path.read]
    simp only [Option.bind_some, CTree.ptr_node, rbM_bind, load_apply, hp, Option.map_some]
    rcases lt_trichotomy key e.1 with hlt | heq | hgt
    · rw [if_pos hlt]
      have h' : Focus s (.step .left p c e r q) l := focus_up.2 h
      have ha' : ∀ x ∈ (Spine.step .left p c e r q).after, key < x.2.1 := by
        intro x hx
        simp only [Spine.after, List.cons_append, List.mem_cons, List.mem_append] at hx
        rcases hx with rfl | hx | hx
        · exact hlt
        · exact hlt.trans (hpr x hx)
        · exact ha x hx
      have hl : l.cells.length < fuel := by omega
      rcases ihl h' hol hb ha' hl with ⟨hrun, x, hx, hk⟩ | ⟨q', hrun, hplug, hq'⟩
      · exact .inl ⟨hrun, x, by simp [hx], hk⟩
      · exact .inr ⟨q', hrun, hplug, hq'⟩
    · rw [if_neg heq.not_lt, if_neg heq.not_gt]
      exact .inl ⟨rfl, (p, e), by simp, heq.symm⟩
    · rw [if_neg hgt.not_gt, if_pos hgt]
      have h' : Focus s (.step .right p c e l q) r := focus_up.2 h
      have hb' : ∀ x ∈ (Spine.step .right p c e l q).before, x.2.1 < key := by
        intro x hx
        simp only [Spine.before, List.mem_append, List.mem_singleton] at hx
        rcases hx with hx | hx | rfl
        · exact hb x hx
        · exact (hlr x hx (p, e) (by simp)).trans hgt
        · exact hgt
      have hr : r.cells.length < fuel := by omega
      rcases ihr h' hor hb' ha hr with ⟨hrun, x, hx, hk⟩ | ⟨q', hrun, hplug, hq'⟩
      · exact .inl ⟨hrun, x, by simp [hx], hk⟩
      · exact .inr ⟨q', hrun, hplug, hq'⟩

omit [LinearOrder κ] in
/-- Linking a red node from outside the tree into the hole of a path. -/
theorem Focus.link {s : RbState κ δ} {q : Spine Ptr κ δ} {n : Ptr} {nd : RbNode κ δ}
    (h : Focus s q .nil) (hn : s.mem n = some nd) (hred : nd.color = .red) (hnq : n ∉ q.ids) :
    ∃ s', rbLinkNode (some n) q.ptr (pathLink q) s = some ((), s') ∧
      Focus s' q (.node .nil n .red (nd.key, nd.data) .nil) := by
  have hqn : q.ids.Nodup := (Spine.nodup_plug.1 h.nodup).1
  let nd₁ := nd.withParent q.ptr
  let nd₂ := nd₁.withChild .right none
  let s₁ := ((s.set n nd₁).set n nd₂).set n (nd₂.withChild .left none)
  have h₁ : RepPath s₁.mem s₁.root q none := by
    refine h.path.frame fun x hx => ?_
    have hxn : x ≠ n := fun hxn => hnq (hxn ▸ hx)
    simp [s₁, hxn]
  obtain ⟨s', hrun, hpath, hfr⟩ := h₁.write hqn (some n)
  refine ⟨s', ?_, hpath, ⟨?_, trivial, trivial⟩, ?_⟩
  · simp only [rbLinkNode, rbM_bind, setParent_apply, setChild_apply, RbState.mem_set, hn, if_true,
      Option.map_some, Option.bind_some]
    exact hrun
  · rw [hfr n hnq, ← hred]
    simp [s₁, nd₁, nd₂, RbNode.withParent, RbNode.withChild]
  · refine Spine.nodup_plug.2 ⟨hqn, by simp, fun x hx => ?_⟩
    rw [show x = n by simpa using hx]
    exact hnq

omit [LinearOrder κ] in
/-- Linking a node that has just been allocated. -/
theorem Focus.link_fresh {s : RbState κ δ} {q : Spine Ptr κ δ} {n : Ptr} (h : Focus s q .nil)
    (hn : s.mem n = none) (key : κ) (data : δ) :
    ∃ s', rbLinkNode (some n) q.ptr (pathLink q) (s.set n (.fresh key data)) = some ((), s') ∧
      Focus s' q (.node .nil n .red (key, data) .nil) := by
  have hnq : n ∉ q.ids := by
    intro hnq
    have hmem : n ∈ (q.plug .nil).ids := by
      rw [Spine.ids_plug, CTree.ids_nil, List.append_nil]
      exact hnq
    obtain ⟨nd, hnd⟩ := (focus_plug.1 h).tree.mem n hmem
    rw [hn] at hnd
    cases hnd
  have h₁ : Focus (s.set n (.fresh key data)) q .nil := by
    refine ⟨h.path.frame fun x hx => ?_, trivial, h.nodup⟩
    have hxn : x ≠ n := fun hxn => hnq (hxn ▸ hx)
    rw [RbState.mem_set, if_neg hxn]
  exact h₁.link (by rw [RbState.mem_set, if_pos rfl]) rfl hnq

/-- **`insert_block_rb`** adds the entry at its place unless the key is present. -/
theorem insertBlockRb_spec {s : RbState κ δ} {T : CTree Ptr κ δ} {n : Ptr} (h : Focus s .top T)
    (hT : T.Valid) (ho : Ordered T.cells) (hn : s.mem n = none) (key : κ) (data : δ) :
    ∃ s' T', insertBlockRb n key data s = some ((), s') ∧ Focus s' .top T' ∧ T'.Valid ∧
      ((T'.cells = T.cells ∧ ∃ x ∈ T.cells, x.2.1 = key) ∨
        ∃ l r, T.cells = l ++ r ∧ T'.cells = l ++ (n, key, data) :: r ∧
          (∀ x ∈ l, x.2.1 < key) ∧ ∀ x ∈ r, key < x.2.1) := by
  have hfuel : T.cells.length < s.size + 1 := by
    have hlen := h.length_le_size
    rw [CTree.ids, List.length_map] at hlen
    exact Nat.lt_succ_of_le hlen
  have hdesc := insertDescend_spec key h ho (fun x hx => by cases hx)
    (fun x hx => by cases hx) hfuel
  rw [insertBlockRb, rbM_bind, rbM_get, Option.bind_some, rbM_bind]
  rcases hdesc with ⟨hrun, hx⟩ | ⟨q', hrun, hplug, hb, ha⟩
  · refine ⟨s, T, ?_, h, hT, .inl ⟨rfl, hx⟩⟩
    rw [show insertDescend key (s.size + 1) .root none s = some (none, s) from hrun]
    rfl
  · obtain ⟨hc, k, hbal⟩ := hT
    have hcells : T.cells = q'.before ++ q'.after := by
      rw [show T = q'.plug .nil from hplug.symm, Spine.cells_plug]
      simp
    rw [show T = q'.plug .nil from hplug.symm] at h hbal hc
    obtain ⟨m, hq, hnil, -, -⟩ := Spine.Ok.of_plug hbal hc
    cases hnil
    obtain ⟨s₁, hrun₁, h₁⟩ := (focus_plug.2 h).link_fresh hn key data
    obtain ⟨s₂, T₂, hrun₂, h₂, hcells₂, hT₂⟩ := rbInsertColor_spec h₁ hq
    refine ⟨s₂, T₂, ?_, h₂, hT₂, .inr ⟨_, _, hcells, ?_, hb, ha⟩⟩
    · rw [show insertDescend key (s.size + 1) .root none s = some (some (pathLink q', q'.ptr), s)
        from hrun]
      show (rbLinkNode (some n) q'.ptr (pathLink q') (s.set n (.fresh key data))).bind _ = _
      rw [hrun₁]
      exact hrun₂
    · rw [hcells₂, Spine.cells_plug]
      simp

end Descent

end Memlog
