import Memlog.RbTree.Delete

/-!
# Searching and unlinking

The searches walk down a represented tree without changing it. `rb_delete` finds the node, takes it
out of the tree (putting its successor in its place when it has two children), and hands the fixup
the subtree that moved up together with its new parent.
-/

namespace Memlog

open Lib

variable {κ δ : Type}

/-! ## Searching -/

section Search

variable [LinearOrder κ]

/-- The cell with the largest key not above the given one. -/
def lastLeq (key : κ) (l : List (Ptr × κ × δ)) : Option (Ptr × κ × δ) :=
  (l.filter fun x => x.2.1 ≤ key).getLast?

theorem lastLeq_of_le {key : κ} {l r : List (Ptr × κ × δ)} {x : Ptr × κ × δ}
    (hl : ∀ y ∈ l, y.2.1 < x.2.1) (hx : x.2.1 ≤ key) :
    lastLeq key (l ++ x :: r) = (lastLeq key r).or (some x) := by
  have hfl : l.filter (fun y => y.2.1 ≤ key) = l :=
    List.filter_eq_self.2 fun y hy => by simpa using (hl y hy).le.trans hx
  unfold lastLeq
  rw [List.filter_append, hfl, List.filter_cons_of_pos (by simpa using hx),
    List.getLast?_append_cons, List.getLast?_cons]
  cases (List.filter (fun y => decide (y.2.1 ≤ key)) r).getLast? <;> rfl

theorem lastLeq_of_lt {key : κ} {l r : List (Ptr × κ × δ)} {x : Ptr × κ × δ}
    (hr : ∀ y ∈ r, x.2.1 < y.2.1) (hx : key < x.2.1) :
    lastLeq key (l ++ x :: r) = lastLeq key l := by
  have hfr : (x :: r).filter (fun y => y.2.1 ≤ key) = [] := by
    refine List.filter_eq_nil_iff.2 fun y hy => ?_
    rcases List.mem_cons.1 hy with rfl | hy
    · simpa using hx
    · simpa using hx.trans (hr y hy)
  unfold lastLeq
  rw [List.filter_append, hfr, List.append_nil]

theorem lastLeq_eq_none {key : κ} {l : List (Ptr × κ × δ)} :
    lastLeq key l = none ↔ ∀ x ∈ l, key < x.2.1 := by
  unfold lastLeq
  rw [List.getLast?_eq_none_iff, List.filter_eq_nil_iff]
  simp

theorem lastLeq_eq_some {key : κ} {l : List (Ptr × κ × δ)} (ho : Ordered l) {x : Ptr × κ × δ}
    (h : lastLeq key l = some x) :
    x ∈ l ∧ x.2.1 ≤ key ∧ ∀ y ∈ l, y.2.1 ≤ key → y.2.1 ≤ x.2.1 := by
  unfold lastLeq at h
  obtain ⟨l', hl'⟩ := List.getLast?_eq_some_iff.1 h
  have hx : x ∈ l.filter fun y => y.2.1 ≤ key := by simp [hl']
  obtain ⟨hxl, hxk⟩ := List.mem_filter.1 hx
  refine ⟨hxl, by simpa using hxk, fun y hy hyk => ?_⟩
  have hy' : y ∈ l' ++ [x] := by
    rw [← hl']
    exact List.mem_filter.2 ⟨hy, by simpa using hyk⟩
  have ho' : Ordered (l' ++ [x]) := by
    rw [← hl']
    exact ho.sublist List.filter_sublist
  rcases List.mem_append.1 hy' with hy' | hy'
  · exact ((List.pairwise_append.1 ho').2.2 y hy' x (by simp)).le
  · rw [List.mem_singleton.1 hy']

theorem searchLeqLoop_spec {s : RbState κ δ} (key : κ) {t : CTree Ptr κ δ} {par : Option Ptr}
    (h : Rep s.mem par t) (ho : Ordered t.cells) {fuel : Nat} (hfuel : t.height ≤ fuel)
    (best : Option Ptr) :
    rbSearchLeqLoop key fuel t.ptr best s =
      some (((lastLeq key t.cells).map (·.1)).or best, s) := by
  induction t generalizing par fuel best with
  | nil => cases fuel <;> rfl
  | node l p c e r ihl ihr =>
    obtain ⟨hp, hl, hr⟩ := h
    rw [CTree.height] at hfuel
    obtain ⟨fuel, rfl⟩ : ∃ k, fuel = k + 1 := ⟨fuel - 1, by omega⟩
    obtain ⟨hol, hor, hlr⟩ := List.pairwise_append.1 ho
    obtain ⟨hpr, hor⟩ := List.pairwise_cons.1 hor
    have hlp : ∀ y ∈ l.cells, y.2.1 < e.1 := fun y hy => hlr y hy (p, e) (by simp)
    rw [CTree.ptr_node, rbSearchLeqLoop, rbM_bind, load_apply, hp, Option.map_some,
      Option.bind_some, CTree.cells_node]
    by_cases hle : e.1 ≤ key
    · rw [if_pos hle, ihr hr hor (by omega), lastLeq_of_le hlp hle]
      cases lastLeq key r.cells <;> rfl
    · rw [if_neg hle, ihl hl hol (by omega), lastLeq_of_lt hpr (not_le.1 hle)]

/-- **`rb_search_leq`** finds the cell with the largest key not above the given one. -/
theorem rbSearchLeq_spec {s : RbState κ δ} {T : CTree Ptr κ δ} (h : Focus s .top T)
    (ho : Ordered T.cells) (key : κ) :
    rbSearchLeq key s = some ((lastLeq key T.cells).map (·.1), s) := by
  have hroot : s.root = T.ptr := h.path
  have hfuel : T.cells.length ≤ s.size := by
    have hlen := h.length_le_size
    rwa [CTree.ids, List.length_map] at hlen
  rw [rbSearchLeq, rbM_bind, rbM_get, Option.bind_some, rbM_bind, getRoot_apply, Option.bind_some,
    hroot, searchLeqLoop_spec key h.tree ho (le_trans T.height_le_length hfuel), Option.or_none]

/-- The exact search ends in any tree, and a node it finds has the key. When the keys are in order
it finds the key if it occurs. -/
theorem searchLoop_spec {s : RbState κ δ} (key : κ) {t : CTree Ptr κ δ} {q : Spine Ptr κ δ}
    (h : Focus s q t) {fuel : Nat} (hfuel : t.cells.length ≤ fuel) :
    (rbSearchLoop key fuel t.ptr s = some (none, s) ∧
        (Ordered t.cells → ∀ x ∈ t.cells, x.2.1 ≠ key)) ∨
      ∃ (q' : Spine Ptr κ δ) (l : CTree Ptr κ δ) (z : Ptr) (c : Color) (e : κ × δ)
          (r : CTree Ptr κ δ),
        rbSearchLoop key fuel t.ptr s = some (some z, s) ∧ e.1 = key ∧
        q.plug t = q'.plug (.node l z c e r) := by
  induction t generalizing q fuel with
  | nil => cases fuel <;> exact .inl ⟨rfl, fun _ x hx => by cases hx⟩
  | node l p c e r ihl ihr =>
    have hp := h.tree.1
    rw [CTree.cells_node, List.length_append, List.length_cons] at hfuel
    obtain ⟨fuel, rfl⟩ : ∃ k, fuel = k + 1 := ⟨fuel - 1, by omega⟩
    rw [CTree.ptr_node, rbSearchLoop, rbM_bind, load_apply, hp, Option.map_some, Option.bind_some]
    rcases lt_trichotomy key e.1 with hlt | heq | hgt
    · rw [if_neg hlt.ne', if_pos hlt]
      have h' : Focus s (.step .left p c e r q) l := focus_up.2 h
      have hl : l.cells.length ≤ fuel := by omega
      rcases ihl h' hl with ⟨hrun, hne⟩ | ⟨q', l', z, c', e', r', hrun, hk, hplug⟩
      · refine .inl ⟨hrun, fun ho x hx => ?_⟩
        obtain ⟨hol, hor, -⟩ := List.pairwise_append.1 ho
        obtain ⟨hpr, -⟩ := List.pairwise_cons.1 hor
        simp only [CTree.cells_node, List.mem_append, List.mem_cons] at hx
        rcases hx with hx | rfl | hx
        · exact hne hol x hx
        · exact hlt.ne'
        · exact (hlt.trans (hpr x hx)).ne'
      · exact .inr ⟨q', l', z, c', e', r', hrun, hk, hplug⟩
    · rw [if_pos heq.symm]
      exact .inr ⟨q, l, p, c, e, r, rfl, heq.symm, rfl⟩
    · rw [if_neg hgt.ne, if_neg hgt.not_gt]
      have h' : Focus s (.step .right p c e l q) r := focus_up.2 h
      have hr : r.cells.length ≤ fuel := by omega
      rcases ihr h' hr with ⟨hrun, hne⟩ | ⟨q', l', z, c', e', r', hrun, hk, hplug⟩
      · refine .inl ⟨hrun, fun ho x hx => ?_⟩
        obtain ⟨-, hor, hlr⟩ := List.pairwise_append.1 ho
        obtain ⟨-, hor⟩ := List.pairwise_cons.1 hor
        simp only [CTree.cells_node, List.mem_append, List.mem_cons] at hx
        rcases hx with hx | rfl | hx
        · exact ((hlr x hx (p, e) (by simp)).trans hgt).ne
        · exact hgt.ne
        · exact hne hor x hx
      · exact .inr ⟨q', l', z, c', e', r', hrun, hk, hplug⟩

/-- **`rb_search`** ends in any tree; a node it finds has the key. -/
theorem rbSearch_spec {s : RbState κ δ} {T : CTree Ptr κ δ} (h : Focus s .top T) (key : κ) :
    (rbSearch key s = some (none, s) ∧ (Ordered T.cells → ∀ x ∈ T.cells, x.2.1 ≠ key)) ∨
      ∃ (q : Spine Ptr κ δ) (l : CTree Ptr κ δ) (z : Ptr) (c : Color) (e : κ × δ)
          (r : CTree Ptr κ δ),
        rbSearch key s = some (some z, s) ∧ e.1 = key ∧ T = q.plug (.node l z c e r) := by
  have hroot : s.root = T.ptr := h.path
  have hfuel : T.cells.length ≤ s.size := by
    have hlen := h.length_le_size
    rwa [CTree.ids, List.length_map] at hlen
  have hsearch : rbSearch key s = rbSearchLoop key s.size T.ptr s := by
    rw [rbSearch, rbM_bind, rbM_get, Option.bind_some, rbM_bind, getRoot_apply, hroot]
    rfl
  rw [hsearch]
  exact searchLoop_spec key h hfuel

end Search

/-! ## Unlinking -/

/-- `rb_transplant`: the tree `v` moves to where `u` hangs. -/
theorem transplant_spec {s : RbState κ δ} {q : Spine Ptr κ δ} {u : Ptr} {un : RbNode κ δ}
    {v : CTree Ptr κ δ} {par : Option Ptr} (hq : RepPath s.mem s.root q (some u))
    (hu : s.mem u = some un) (hpar : un.parent = q.ptr) (hv : Rep s.mem par v)
    (hnd : (q.plug v).ids.Nodup) (huq : u ∉ q.ids) :
    ∃ s', rbTransplant (some u) v.ptr s = some ((), s') ∧ RepPath s'.mem s'.root q v.ptr ∧
      Rep s'.mem q.ptr v ∧ ∀ p, p ∉ q.ids → p ∉ v.ids → s'.mem p = s.mem p := by
  obtain ⟨hqn, hvn, hd⟩ := Spine.nodup_plug.1 hnd
  obtain ⟨s₁, hrun₁, hq₁, hfr₁⟩ := hq.replaceChild huq hqn v.ptr
  have hv₁ : Rep s₁.mem par v := hv.frame fun x hx => hfr₁ x (hd x hx)
  obtain ⟨s₂, hrun₂, hv₂, hroot₂, hfr₂⟩ := hv₁.adopt hvn q.ptr
  refine ⟨s₂, ?_, ?_, hv₂, fun p hpq hpv => ?_⟩
  · rw [rbTransplant, rbM_bind, parentOf_apply, hu, Option.map_some, Option.bind_some, hpar,
      rbM_bind, hrun₁, Option.bind_some, rbM_bind, parentOf_apply, hfr₁ u huq, hu, Option.map_some,
      Option.bind_some, hpar]
    exact hrun₂
  · rw [hroot₂]
    refine hq₁.frame fun x hx => hfr₂ x fun hxv => hd x hxv hx
  · rw [hfr₂ p hpv, hfr₁ p hpq]

/-- A node with a missing child is replaced by its other child. -/
theorem Focus.transplant {s : RbState κ δ} {q : Spine Ptr κ δ} {d : Side} {z : Ptr} {c : Color}
    {e : κ × δ} {v : CTree Ptr κ δ} (h : Focus s q (.join d .nil z c e v)) :
    ∃ s', rbTransplant (some z) v.ptr s = some ((), s') ∧ Focus s' q v ∧ s'.mem z = s.mem z := by
  have hz := h.mem_join
  obtain ⟨-, -, hv⟩ := rep_join.1 h.tree
  obtain ⟨hqn, hjn, hd⟩ := Spine.nodup_plug.1 h.nodup
  obtain ⟨-, hvn, -, hzv, -⟩ := CTree.nodup_join.1 hjn
  have hzq : z ∉ q.ids := hd z (CTree.mem_ids_join.2 (.inr (.inl rfl)))
  have hnd : (q.plug v).ids.Nodup :=
    Spine.nodup_plug.2 ⟨hqn, hvn, fun x hx => hd x (CTree.mem_ids_join.2 (.inr (.inr hx)))⟩
  have hpath : RepPath s.mem s.root q (some z) := by simpa using h.path
  obtain ⟨s', hrun, hq', hv', hfr⟩ := transplant_spec hpath hz (joinNode_parent ..) hv hnd hzq
  exact ⟨s', hrun, ⟨hq', hv', hnd⟩, hfr z hzq hzv⟩

/-- `rb_min` finds the leftmost node of a subtree. -/
theorem minLoop_spec {s : RbState κ δ} {l r : CTree Ptr κ δ} {p : Ptr} {c : Color} {e : κ × δ}
    {par : Option Ptr} (h : Rep s.mem par (.node l p c e r)) {fuel : Nat}
    (hfuel : l.cells.length < fuel) :
    ∃ (q : Spine Ptr κ δ) (y : Ptr) (cy : Color) (ey : κ × δ) (yr : CTree Ptr κ δ),
      rbMinLoop fuel (some p) s = some (some y, s) ∧
      CTree.node l p c e r = q.plug (.node .nil y cy ey yr) ∧ q.before = [] := by
  induction l generalizing p c e r par fuel with
  | nil =>
    obtain ⟨fuel, rfl⟩ : ∃ k, fuel = k + 1 := ⟨fuel - 1, by omega⟩
    refine ⟨.top, p, c, e, r, ?_, rfl, rfl⟩
    rw [rbMinLoop, rbM_bind, childOf_apply, h.1]
    rfl
  | node l' p' c' e' r' ihl _ =>
    rw [CTree.cells_node, List.length_append, List.length_cons] at hfuel
    obtain ⟨fuel, rfl⟩ : ∃ k, fuel = k + 1 := ⟨fuel - 1, by omega⟩
    have hl : l'.cells.length < fuel := by omega
    obtain ⟨q, y, cy, ey, yr, hrun, hplug, hb⟩ := ihl h.2.1 hl
    refine ⟨q.append (.step .left p c e r .top), y, cy, ey, yr, ?_, ?_, ?_⟩
    · rw [rbMinLoop, rbM_bind, childOf_apply, h.1]
      exact hrun
    · rw [Spine.plug_append, ← hplug]
      rfl
    · rw [Spine.before_append, hb]
      rfl

/-- A detached node `y` with no left child takes the place of `z`. -/
theorem takePlace_spec {s : RbState κ δ} {q : Spine Ptr κ δ} {z y : Ptr} {c cy : Color}
    {e ey : κ × δ} {l r : CTree Ptr κ δ} {zr ypar : Option Ptr}
    (hq : RepPath s.mem s.root q (some z)) (hz : s.mem z = some ⟨q.ptr, l.ptr, zr, c, e.1, e.2⟩)
    (hl : Rep s.mem (some z) l) (hlne : l ≠ .nil)
    (hy : Rep s.mem ypar (.node .nil y cy ey r)) (hnd : (q.plug (.node l y c ey r)).ids.Nodup)
    (hzq : z ∉ q.ids) (hzt : z ∉ (CTree.node l y c ey r).ids) :
    ∃ s', rbTakePlace (some z) (some y) s = some ((), s') ∧ Focus s' q (.node l y c ey r) := by
  obtain ⟨hqn, htn, hd⟩ := Spine.nodup_plug.1 hnd
  obtain ⟨hln, hrn, hyl, hyr, hlr⟩ := CTree.nodup_join (d := .left).1 htn
  simp only [CTree.ids_node, List.mem_append, List.mem_cons, not_or] at hzt hd
  have hyq : y ∉ q.ids := hd y (.inr (.inl rfl))
  -- `y` is hung in the place of `z`
  have hnd₁ : (q.plug (.node .nil y cy ey r)).ids.Nodup := by
    refine Spine.nodup_plug.2 ⟨hqn, by simpa using ⟨hyr, hrn⟩, fun x hx => hd x ?_⟩
    simp only [CTree.ids_node, CTree.ids_nil, List.nil_append, List.mem_cons] at hx
    exact .inr hx
  obtain ⟨s₁, hrun₁, hq₁, hy₁, hfr₁⟩ := transplant_spec hq hz rfl hy hnd₁ hzq
  simp only [CTree.ids_node, CTree.ids_nil, List.nil_append, List.mem_cons, not_or] at hfr₁
  have hz₁ : s₁.mem z = some ⟨q.ptr, l.ptr, zr, c, e.1, e.2⟩ := by
    rw [hfr₁ z hzq hzt.2, hz]
  -- it gets the left subtree
  let s₂ := s₁.set y ⟨q.ptr, l.ptr, r.ptr, cy, ey.1, ey.2⟩
  have hl₂ : Rep s₂.mem (some z) l := hl.frame fun x hx => by
    have hxy : x ≠ y := fun hxy => hyl (hxy ▸ hx)
    simp only [s₂, RbState.mem_set, if_neg hxy]
    exact hfr₁ x (hd x (.inl hx)) ⟨hxy, hlr x hx⟩
  obtain ⟨s₃, hrun₃, hl₃, hroot₃, hfr₃⟩ := hl₂.adopt hln (some y)
  have hset₃ : setParent l.ptr (some y) s₂ = some ((), s₃) := by
    cases l with
    | nil => exact absurd rfl hlne
    | node => exact hrun₃
  have hy₃ : s₃.mem y = some ⟨q.ptr, l.ptr, r.ptr, cy, ey.1, ey.2⟩ := by
    rw [hfr₃ y hyl]
    simp [s₂]
  have hz₃ : s₃.mem z = some ⟨q.ptr, l.ptr, zr, c, e.1, e.2⟩ := by
    rw [hfr₃ z hzt.1]
    simpa [s₂, hzt.2.1] using hz₁
  -- and the colour
  let s₄ := s₃.set y ⟨q.ptr, l.ptr, r.ptr, c, ey.1, ey.2⟩
  have hfr₄ : ∀ x, x ≠ y → x ∉ l.ids → s₄.mem x = s₁.mem x := by
    intro x hxy hxl
    simp [s₄, hxy, hfr₃ x hxl, s₂]
  refine ⟨s₄, ?_, ?_, ⟨by simp [s₄], ?_, ?_⟩, hnd⟩
  · have hset₂ : setChild .left (some y) l.ptr s₁ = some ((), s₂) := by
      rw [setChild_apply, hy₁.1]
      rfl
    have hset₄ : setColor (some y) c s₃ = some ((), s₄) := by
      rw [setColor_apply, hy₃]
      rfl
    have hchild : childOf .left (some y) s₂ = some (l.ptr, s₂) := by
      rw [childOf_apply]
      simp [s₂, RbNode.child]
    rw [CTree.ptr_node] at hrun₁
    simp only [rbTakePlace, rbM_bind, hrun₁, Option.bind_some, childOf_apply .left z, hz₁,
      Option.map_some, RbNode.child, hset₂, hchild, hset₃, colorOf_apply, hz₃, hset₄]
  · have hroot : s₄.root = s₁.root := hroot₃
    rw [hroot]
    refine hq₁.frame fun x hx => hfr₄ x ?_ fun hxl => hd x (.inl hxl) hx
    exact fun hxy => hyq (hxy ▸ hx)
  · refine hl₃.frame fun x hx => ?_
    have hxy : x ≠ y := fun hxy => hyl (hxy ▸ hx)
    simp [s₄, hxy]
  · refine hy₁.2.2.frame fun x hx => hfr₄ x ?_ fun hxl => hlr x hxl hx
    exact fun hxy => hyr (hxy ▸ hx)

section Two

variable {s : RbState κ δ} {q q' : Spine Ptr κ δ} {z y : Ptr} {c cy : Color} {e ey : κ × δ}
  {l yr : CTree Ptr κ δ}

/-- With the successor in the place of `z`, the identities are still distinct, and `z` is gone. -/
theorem nodup_successor
    (h : (q.plug (.node l z c e (q'.plug (.node .nil y cy ey yr)))).ids.Nodup) :
    (q.plug (.node l y c ey (q'.plug yr))).ids.Nodup ∧ z ∉ q.ids ∧
      z ∉ (CTree.node l y c ey (q'.plug yr)).ids := by
  obtain ⟨hqn, htn, hd⟩ := Spine.nodup_plug.1 h
  obtain ⟨hln, hrn, hzl, hzr, hlr⟩ := CTree.nodup_join (d := .left).1 htn
  obtain ⟨hqn', hyn, hd'⟩ := Spine.nodup_plug.1 hrn
  simp only [CTree.ids_node, CTree.ids_nil, List.nil_append, List.nodup_cons, List.mem_append,
    List.mem_cons, Spine.mem_ids_plug, not_or] at hyn hd hd' hzr hlr
  refine ⟨Spine.nodup_plug.2 ⟨hqn, CTree.nodup_join (d := .left).2 ⟨hln, ?_, ?_, ?_, ?_⟩, ?_⟩,
    hd z (.inr (.inl rfl)), ?_⟩
  · exact Spine.nodup_plug.2 ⟨hqn', hyn.2, fun x hx => hd' x (.inr hx)⟩
  · exact fun hyl => (hlr y hyl).2.1 rfl
  · rw [Spine.mem_ids_plug, not_or]
    exact ⟨hd' y (.inl rfl), hyn.1⟩
  · intro x hx
    rw [Spine.mem_ids_plug, not_or]
    exact ⟨(hlr x hx).1, (hlr x hx).2.2⟩
  · intro x hx
    simp only [CTree.ids_node, List.mem_append, List.mem_cons, Spine.mem_ids_plug] at hx
    rcases hx with hx | hx | hx | hx
    · exact hd x (.inl hx)
    · exact hd x (.inr (.inr (.inr (.inl hx))))
    · exact hd x (.inr (.inr (.inl hx)))
    · exact hd x (.inr (.inr (.inr (.inr hx))))
  · simp only [CTree.ids_node, List.mem_append, List.mem_cons, Spine.mem_ids_plug, not_or]
    exact ⟨hzl, hzr.2.1, hzr.1, hzr.2.2⟩

/-- A successor that is not the right child of `z` is first detached from its parent and given the
right subtree of `z`. -/
theorem deepSuccessor_spec
    (h : Focus s (q'.append (.step .right z c e l q)) (.node .nil y cy ey yr)) (hq' : q' ≠ .top)
    (hl : l ≠ .nil) :
    ∃ s₁ s', rbDetachSuccessor (some z) (some y) s = some ((), s₁) ∧
      rbTakePlace (some z) (some y) s₁ = some ((), s') ∧
      Focus s' q (.node l y c ey (q'.plug yr)) := by
  have hnd₀ := h.nodup
  rw [Spine.plug_append] at hnd₀
  obtain ⟨hnd, hzq, hzt⟩ := nodup_successor hnd₀
  obtain ⟨hqn, htn, hd⟩ := Spine.nodup_plug.1 hnd
  obtain ⟨hln, hrn, hyl, hyr, hlr⟩ := CTree.nodup_join (d := .left).1 htn
  simp only [CTree.ids_node, List.mem_append, List.mem_cons, not_or] at hd hzt
  have hy := h.tree.1
  obtain ⟨s₁, hrun₁, h₁, hy₁⟩ := Focus.transplant (d := .left) h
  rw [hy] at hy₁
  have h₁' : Focus s₁ q (.node l z c e (q'.plug yr)) := by
    have hplug := focus_plug.1 h₁
    rw [Spine.plug_append] at hplug
    exact focus_plug.2 hplug
  obtain ⟨hz₁, hl₁, hr₁⟩ := h₁'.tree
  let s₂ := s₁.set y ⟨(q'.append (.step .right z c e l q)).ptr, none, (q'.plug yr).ptr, cy, ey.1,
    ey.2⟩
  have hr₂ : Rep s₂.mem (some z) (q'.plug yr) := hr₁.frame fun x hx => by
    have hxy : x ≠ y := fun hxy => hyr (hxy ▸ hx)
    simp [s₂, hxy]
  obtain ⟨s₃, hrun₃, hr₃, hroot₃, hfr₃⟩ := hr₂.adopt hrn (some y)
  have hset₃ : setParent (q'.plug yr).ptr (some y) s₂ = some ((), s₃) := by
    obtain ⟨x, hx⟩ : ∃ x, (q'.plug yr).ptr = some x := Spine.ptr_plug hq' yr
    rw [hx] at hrun₃ ⊢
    exact hrun₃
  have hfr : ∀ x, x ≠ y → x ∉ (q'.plug yr).ids → s₃.mem x = s₁.mem x := by
    intro x hxy hxr
    rw [hfr₃ x hxr]
    simp [s₂, hxy]
  have hq₃ : RepPath s₃.mem s₃.root q (some z) := by
    rw [hroot₃]
    refine h₁'.path.frame fun x hx => hfr x ?_ ?_
    · exact fun hxy => hd y (.inr (.inl rfl)) (hxy ▸ hx)
    · exact fun hxr => hd x (.inr (.inr hxr)) hx
  have hl₃ : Rep s₃.mem (some z) l := hl₁.frame fun x hx => hfr x (fun hxy => hyl (hxy ▸ hx))
    (hlr x hx)
  have hz₃ : s₃.mem z = some ⟨q.ptr, l.ptr, (q'.plug yr).ptr, c, e.1, e.2⟩ := by
    rw [hfr z hzt.2.1 hzt.2.2, hz₁]
  have hy₃ : Rep s₃.mem (q'.append (.step .right z c e l q)).ptr
      (.node .nil y cy ey (q'.plug yr)) := by
    refine ⟨?_, trivial, hr₃⟩
    rw [hfr₃ y hyr]
    simp [s₂]
  obtain ⟨s₄, hrun₄, h₄⟩ := takePlace_spec hq₃ hz₃ hl₃ hl hy₃ hnd hzq (by simpa using hzt)
  refine ⟨s₃, s₄, ?_, hrun₄, h₄⟩
  have hset₂ : setChild .right (some y) (q'.plug yr).ptr s₁ = some ((), s₂) := by
    rw [setChild_apply, hy₁]
    rfl
  have hchild₂ : childOf .right (some y) s₂ = some ((q'.plug yr).ptr, s₂) := by
    rw [childOf_apply]
    simp [s₂, RbNode.child]
  simp only [rbDetachSuccessor, rbM_bind, childOf_apply .right y s, hy, Option.map_some,
    Option.bind_some, RbNode.child, hrun₁, childOf_apply .right z, hz₁, hset₂, hchild₂, hset₃]

end Two

/-- **Two children**: the successor `y` of `z` takes its place, and the focus is left where `y` was.
-/
theorem rbDeleteTwo_spec {s : RbState κ δ} {q : Spine Ptr κ δ} {z : Ptr} {c : Color} {e : κ × δ}
    {l r : CTree Ptr κ δ} (h : Focus s q (.node l z c e r)) (hl : l ≠ .nil) (hr : r ≠ .nil) :
    ∃ (s' : RbState κ δ) (q' : Spine Ptr κ δ) (y : Ptr) (cy : Color) (ey : κ × δ)
      (yr : CTree Ptr κ δ),
      r = q'.plug (.node .nil y cy ey yr) ∧ q'.before = [] ∧
      rbDeleteTwo (some z) s =
        some ((cy, yr.ptr, (q'.append (.step .right y c ey l q)).ptr), s') ∧
      Focus s' (q'.append (.step .right y c ey l q)) yr := by
  obtain ⟨hz, hlrep, hrrep⟩ := h.tree
  have hmin : ∃ (q' : Spine Ptr κ δ) (y : Ptr) (cy : Color) (ey : κ × δ) (yr : CTree Ptr κ δ),
      rbMin r.ptr s = some (some y, s) ∧ r = q'.plug (.node .nil y cy ey yr) ∧ q'.before = [] := by
    cases r with
    | nil => exact absurd rfl hr
    | node rl rp rc re rr =>
      have hfuel : rl.cells.length < s.size := by
        have hlen := h.length_le_size
        rw [Spine.ids_plug, CTree.ids_node, CTree.ids_node] at hlen
        simp only [CTree.ids, List.length_append, List.length_map, List.length_cons] at hlen
        omega
      exact minLoop_spec hrrep hfuel
  obtain ⟨q', y, cy, ey, yr, hmin, rfl, hbefore⟩ := hmin
  obtain ⟨hnd, hzq, hzt⟩ := nodup_successor h.nodup
  have hy : Focus s (q'.append (.step .right z c e l q)) (.node .nil y cy ey yr) := by
    rw [focus_plug, Spine.plug_append]
    exact focus_plug.1 (focus_up.2 h)
  have hymem := hy.tree.1
  have hstart : rbDeleteTwo (some z) s =
      (if (q'.append (.step .right z c e l q)).ptr ≠ some z then do
        let xParent ← parentOf (some y)
        rbDetachSuccessor (some z) (some y)
        rbTakePlace (some z) (some y)
        return (cy, yr.ptr, xParent)
      else do
        rbTakePlace (some z) (some y)
        return (cy, yr.ptr, some y)) s := by
    unfold rbDeleteTwo
    simp only [rbM_bind, childOf_apply, hz, Option.map_some, Option.bind_some, RbNode.child, hmin,
      colorOf_apply, hymem, parentOf_apply, CTree.ptr_nil]
  rw [hstart]
  cases q' with
  | top =>
    obtain ⟨s', hrun, h'⟩ := takePlace_spec (by simpa using h.path) hz hlrep hl hrrep hnd hzq hzt
    refine ⟨s', .top, y, cy, ey, yr, rfl, rfl, ?_, focus_up.2 h'⟩
    have hptr : ¬((Spine.top.append (.step .right z c e l q)).ptr ≠ some z) := fun hne => hne rfl
    rw [if_neg hptr, rbM_bind, hrun]
    rfl
  | step d₁ p₁ c₁ e₁ t₁ q₁ =>
    obtain ⟨s₁, s', hrun₁, hrun, h'⟩ := deepSuccessor_spec hy (by simp) hl
    refine ⟨s', _, y, cy, ey, yr, rfl, hbefore, ?_, ?_⟩
    · have hptr : ((Spine.step d₁ p₁ c₁ e₁ t₁ q₁).append (.step .right z c e l q)).ptr ≠
          some z := by
        intro hp
        have hp₁ : p₁ = z := Option.some.inj hp
        refine hzt ?_
        rw [CTree.ids_node, List.mem_append, List.mem_cons, Spine.mem_ids_plug, Spine.mem_ids_step]
        exact .inr (.inr (.inl (.inl hp₁.symm)))
      rw [if_pos hptr, rbM_bind, parentOf_apply, hymem, Option.map_some, Option.bind_some,
        rbM_bind, hrun₁, Option.bind_some, rbM_bind, hrun]
      rfl
    · rw [focus_plug, Spine.plug_append]
      exact focus_plug.1 (focus_up.2 h')

/-- Taking out a node with a missing child: a red one is not missed, a black one is. -/
theorem removed_spec {q : Spine Ptr κ δ} {d : Side} {z : Ptr} {c : Color} {e : κ × δ}
    {v : CTree Ptr κ δ} {n : Nat} (hq : q.Ok n) (ht : (CTree.join d .nil z c e v).Bal n) :
    (c = .red → (q.plug v).Valid) ∧ (c = .black → Deficit q v) := by
  constructor
  · rintro rfl
    obtain ⟨-, hv, -, cv⟩ := ht.inv_red
    exact hq.plug_valid hv cv
  · rintro rfl
    obtain ⟨m, rfl⟩ : ∃ m, n = m + 1 := by
      cases d <;> cases ht <;> exact ⟨_, rfl⟩
    exact .of_bal ht.inv_black.2 hq

/-- **Unlinking** takes exactly the cell of `z` out; when a black node went missing, the place it
went missing at is returned. -/
theorem rbUnlink_spec {s : RbState κ δ} {q : Spine Ptr κ δ} {z : Ptr} {c : Color} {e : κ × δ}
    {l r : CTree Ptr κ δ} (h : Focus s q (.node l z c e r))
    (hT : (q.plug (.node l z c e r)).Valid) :
    ∃ s' q' t' col, rbUnlink (some z) s = some ((col, t'.ptr, q'.ptr), s') ∧ Focus s' q' t' ∧
      (q'.plug t').cells = q.before ++ (l.cells ++ r.cells) ++ q.after ∧
      (col = .red → (q'.plug t').Valid) ∧ (col = .black → Deficit q' t') := by
  have hz := h.tree.1
  obtain ⟨hc, k, hk⟩ := hT
  rw [rbUnlink, rbM_bind, load_apply, hz, Option.map_some, Option.bind_some]
  obtain ⟨n, hq, ht, -, -⟩ := Spine.Ok.of_plug hk hc
  cases l with
  | nil =>
    obtain ⟨s', hrun, h', -⟩ := Focus.transplant (d := .left) h
    refine ⟨s', q, r, c, ?_, h', Spine.cells_plug .., removed_spec (d := .left) hq ht⟩
    show (rbTransplant (some z) r.ptr s).bind _ = _
    rw [hrun]
    rfl
  | node ll lp lc le lr =>
    cases r with
    | nil =>
      obtain ⟨s', hrun, h', -⟩ := Focus.transplant (d := .right) h
      refine ⟨s', q, _, c, ?_, h', ?_, removed_spec (d := .right) hq ht⟩
      · show (rbTransplant (some z) (some lp) s).bind _ = _
        rw [CTree.ptr_node] at hrun
        rw [hrun]
        rfl
      · rw [Spine.cells_plug, CTree.cells_nil, List.append_nil]
    | node rl rp rc re rr =>
      obtain ⟨s', q', y, cy, ey, yr, hplug, hbefore, hrun, h'⟩ :=
        rbDeleteTwo_spec h (by simp) (by simp)
      have happ : q.plug (.node (.node ll lp lc le lr) z c e (.node rl rp rc re rr)) =
          (q'.append (.step .right z c e (.node ll lp lc le lr) q)).plug
            (.node .nil y cy ey yr) := by
        rw [Spine.plug_append, ← hplug]
        rfl
      rw [happ] at hk hc
      obtain ⟨m, hq', ht', -, -⟩ := Spine.Ok.of_plug hk hc
      refine ⟨s', _, yr, cy, hrun, h', ?_,
        removed_spec (d := .left) (Spine.ok_append_congr hq') ht'⟩
      -- the successor is the first cell right of `z`
      rw [Spine.plug_append, Spine.plug, Spine.cells_plug, CTree.join, CTree.cells_node, hplug,
        Spine.cells_plug, Spine.cells_plug, hbefore]
      simp

section Delete

variable [LinearOrder κ]

/-- **`rb_delete`** takes out exactly the cell with the key and returns its node, or does nothing
and returns `NULL`; when the keys are in order, there is no such cell then. -/
theorem rbDelete_spec {s : RbState κ δ} {T : CTree Ptr κ δ} (h : Focus s .top T) (hT : T.Valid)
    (key : κ) :
    (rbDelete key s = some (none, s) ∧ (Ordered T.cells → ∀ x ∈ T.cells, x.2.1 ≠ key)) ∨
      ∃ s' T' z d l r, rbDelete key s = some (some z, s') ∧ Focus s' .top T' ∧ T'.Valid ∧
        T.cells = l ++ (z, key, d) :: r ∧ T'.cells = l ++ r := by
  rcases rbSearch_spec h key with ⟨hrun, hne⟩ | ⟨q, l, z, c, e, r, hrun, rfl, rfl⟩
  · refine .inl ⟨?_, hne⟩
    rw [rbDelete, rbM_bind, hrun]
    rfl
  · obtain ⟨s₁, q₁, t₁, col, hrun₁, h₁, hcells₁, hred, hblack⟩ :=
      rbUnlink_spec (focus_plug.2 h) hT
    have hcells : (q.plug (.node l z c e r)).cells =
        (q.before ++ l.cells) ++ (z, e.1, e.2) :: (r.cells ++ q.after) := by
      rw [Spine.cells_plug, CTree.cells_node]
      simp
    have hcells' : (q₁.plug t₁).cells = (q.before ++ l.cells) ++ (r.cells ++ q.after) := by
      rw [hcells₁]
      simp
    have hstart : rbDelete e.1 s = (do
        if col = .black then rbDeleteFixup t₁.ptr q₁.ptr
        return some z : RbM κ δ (Option Ptr)) s₁ := by
      rw [rbDelete, rbM_bind, hrun]
      show (rbUnlink (some z) s).bind _ = _
      rw [hrun₁]
      rfl
    cases col with
    | red =>
      refine .inr ⟨s₁, _, z, e.2, _, _, ?_, focus_plug.1 h₁, hred rfl, hcells, hcells'⟩
      rw [hstart]
      rfl
    | black =>
      obtain ⟨s₂, T₂, hrun₂, h₂, hcells₂, hT₂⟩ := rbDeleteFixup_spec h₁ (hblack rfl)
      refine .inr ⟨s₂, T₂, z, e.2, _, _, ?_, h₂, hT₂, hcells, hcells₂.trans hcells'⟩
      rw [hstart]
      show (rbDeleteFixup t₁.ptr q₁.ptr s₁).bind _ = _
      rw [hrun₂]
      rfl

end Delete

end Memlog
