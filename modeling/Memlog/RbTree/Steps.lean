import Memlog.RbTree.Rep

/-!
# What the pointer operations do to a focus

One lemma for each operation of the source that writes links or colours: recolouring, replacing the
child of a node, a rotation, and the two ways in which `rb_delete` takes a node out. Each says that
the operation runs without touching `NULL` and which focus it leaves behind.
-/

namespace Memlog

open Lib

variable {κ δ : Type}

section Read

variable {s : RbState κ δ} {q : Spine Ptr κ δ} {d : Side} {p : Ptr} {c : Color} {e : κ × δ}
  {a b t : CTree Ptr κ δ}

theorem Focus.mem_join (h : Focus s q (.join d a p c e b)) :
    s.mem p = some (joinNode d q.ptr a.ptr b.ptr c e) :=
  (rep_join.1 h.tree).1

theorem Focus.mem_step (h : Focus s (.step d p c e b q) t) :
    s.mem p = some (joinNode d q.ptr t.ptr b.ptr c e) :=
  h.path.1

/-- The focus moves to the sibling. -/
theorem focus_sibling :
    Focus s (.step d p c e b q) t ↔ Focus s (.step d.other p c e t q) b := by
  rw [focus_up, focus_up, CTree.join_other]

end Read

/-- Setting the colour of the node in focus. -/
theorem Focus.setColor {s : RbState κ δ} {q : Spine Ptr κ δ} {d : Side} {p : Ptr} {c : Color}
    {e : κ × δ} {a b : CTree Ptr κ δ} (h : Focus s q (.join d a p c e b)) (c' : Color) :
    ∃ s', Memlog.setColor (some p) c' s = some ((), s') ∧ Focus s' q (.join d a p c' e b) := by
  have hp := h.mem_join
  obtain ⟨-, ha, hb⟩ := rep_join.1 h.tree
  obtain ⟨-, hn, hd⟩ := Spine.nodup_plug.1 h.nodup
  obtain ⟨-, -, hpa, hpb, -⟩ := CTree.nodup_join.1 hn
  refine ⟨s.set p (joinNode d q.ptr a.ptr b.ptr c' e), ?_, ?_, ?_, ?_⟩
  · simp only [setColor_apply, hp, Option.map_some, joinNode_withColor]
  · rw [CTree.ptr_join, ← CTree.ptr_join d a p c e b]
    refine h.path.frame fun x hx => ?_
    have hxp : x ≠ p := fun hxp => hd p (CTree.mem_ids_join.2 (.inr (.inl rfl))) (hxp ▸ hx)
    simp [hxp]
  · refine rep_join.2 ⟨by simp, ha.frame fun x hx => ?_, hb.frame fun x hx => ?_⟩
    · have hxp : x ≠ p := fun hxp => hpa (hxp ▸ hx)
      simp [hxp]
    · have hxp : x ≠ p := fun hxp => hpb (hxp ▸ hx)
      simp [hxp]
  · have hn := h.nodup
    rw [CTree.ids, q.cells_plug_congr (CTree.cells_join_congr d p c c' e rfl rfl)] at hn
    exact hn

/-- The place in memory of a path's hole. -/
def pathLink : Spine Ptr κ δ → Link
  | .top => .root
  | .step d p _ _ _ _ => .child d p

theorem RepPath.read {s : RbState κ δ} {q : Spine Ptr κ δ} {hole : Option Ptr}
    (h : RepPath s.mem s.root q hole) : (pathLink q).read s = some (hole, s) := by
  cases q with
  | top => rw [pathLink, Link.read, getRoot_apply, show s.root = hole from h]
  | step d p c e t q => rw [pathLink, Link.read, childOf_apply, h.1, Option.map_some,
      joinNode_child]

/-- Writing into the hole of a path changes no node outside the path. -/
theorem RepPath.write {s : RbState κ δ} {q : Spine Ptr κ δ} {hole : Option Ptr}
    (h : RepPath s.mem s.root q hole) (hq : q.ids.Nodup) (v : Option Ptr) :
    ∃ s', (pathLink q).write v s = some ((), s') ∧ RepPath s'.mem s'.root q v ∧
      ∀ p, p ∉ q.ids → s'.mem p = s.mem p := by
  cases q with
  | top => exact ⟨{ s with root := v }, rfl, rfl, fun _ _ => rfl⟩
  | step d p c e t q =>
    obtain ⟨hp, ht, hq'⟩ := h
    obtain ⟨-, -, hpt, hpq, -⟩ := Spine.nodup_step.1 hq
    refine ⟨s.set p (joinNode d q.ptr v t.ptr c e), ?_, ⟨by simp, ?_, ?_⟩, ?_⟩
    · rw [pathLink, Link.write, setChild_apply, hp, Option.map_some, joinNode_withChild]
    · refine ht.frame fun x hx => ?_
      have hxp : x ≠ p := fun hxp => hpt (hxp ▸ hx)
      simp [hxp]
    · refine hq'.frame fun x hx => ?_
      have hxp : x ≠ p := fun hxp => hpq (hxp ▸ hx)
      simp [hxp]
    · intro x hx
      have hxp : x ≠ p := fun hxp => hx (Spine.mem_ids_step.2 (.inl hxp))
      simp [hxp]

/-- The source finds the hole of a path again from the parent and the node that hangs there. -/
theorem RepPath.replaceChild_eq {s : RbState κ δ} {q : Spine Ptr κ δ} {n : Ptr}
    (h : RepPath s.mem s.root q (some n)) (hn : n ∉ q.ids) (v : Option Ptr) :
    Memlog.replaceChild q.ptr (some n) v s = (pathLink q).write v s := by
  cases q with
  | top => rfl
  | step d p c e t q =>
    obtain ⟨hp, ht, hq'⟩ := h
    rw [Memlog.replaceChild, Spine.ptr_step]
    simp only [Option.isNone_some, Bool.false_eq_true, if_false, rbM_bind, childOf_apply, hp,
      Option.map_some, Option.bind_some, pathLink, Link.write]
    cases d with
    | left => rw [if_pos (joinNode_child ..)]
    | right =>
      have htn : (joinNode .right q.ptr (some n) t.ptr c e).child .left ≠ some n := fun htn =>
        hn (Spine.mem_ids_step.2 (.inr (.inl (CTree.ptr_mem_ids htn))))
      rw [if_neg htn]

/-- Replacing what hangs in the hole of a path: only nodes of the path change. -/
theorem RepPath.replaceChild {s : RbState κ δ} {q : Spine Ptr κ δ} {n : Ptr}
    (h : RepPath s.mem s.root q (some n)) (hn : n ∉ q.ids) (hq : q.ids.Nodup) (v : Option Ptr) :
    ∃ s', Memlog.replaceChild q.ptr (some n) v s = some ((), s') ∧
      RepPath s'.mem s'.root q v ∧ ∀ p, p ∉ q.ids → s'.mem p = s.mem p := by
  rw [h.replaceChild_eq hn v]
  exact h.write hq v

/-- Giving a subtree a new parent changes no other node. -/
theorem Rep.adopt {s : RbState κ δ} {par : Option Ptr} {t : CTree Ptr κ δ} (h : Rep s.mem par t)
    (hn : t.ids.Nodup) (par' : Option Ptr) :
    ∃ s', Memlog.adopt t.ptr par' s = some ((), s') ∧ Rep s'.mem par' t ∧ s'.root = s.root ∧
      ∀ p, p ∉ t.ids → s'.mem p = s.mem p := by
  cases t with
  | nil => exact ⟨s, rfl, trivial, rfl, fun _ _ => rfl⟩
  | node l p c e r =>
    refine ⟨_, ?_, h.setParent hn par', rfl, fun x hx => ?_⟩
    · simp [Memlog.adopt, setParent_apply, h.1, RbNode.withParent]
    · have hxp : x ≠ p := fun hxp => hx (by simp [hxp])
      simp [hxp]

/-- **A rotation** at the node in focus, away from the side of the child that moves up. -/
theorem Focus.rotate {s : RbState κ δ} {q : Spine Ptr κ δ} {d : Side} {n r : Ptr} {c c' : Color}
    {e e' : κ × δ} {a b t : CTree Ptr κ δ}
    (h : Focus s q (.join d a n c e (.join d b r c' e' t))) :
    ∃ s', rbRotate d (some n) s = some ((), s') ∧
      Focus s' q (.join d (.join d a n c e b) r c' e' t) := by
  have hn := h.mem_join
  obtain ⟨-, ha, hrt⟩ := rep_join.1 h.tree
  obtain ⟨hr, hb, ht⟩ := rep_join.1 hrt
  obtain ⟨hqn, htn, hdq⟩ := Spine.nodup_plug.1 h.nodup
  obtain ⟨han, hrn, hna, hnr, hda⟩ := CTree.nodup_join.1 htn
  obtain ⟨hbn, htn', hrb, hrt', hdb⟩ := CTree.nodup_join.1 hrn
  simp only [CTree.mem_ids_join, not_or] at hnr hda hdq
  have hnr' : r ≠ n := fun hrn' => hnr.2.1 hrn'.symm
  -- the links of `n`, `b` and `r` are set first; the path still leads to `n`
  let s₁ := s.set n (joinNode d q.ptr a.ptr b.ptr c e)
  have hb₁ : Rep s₁.mem (some r) b := hb.frame fun x hx => by
    have hxn : x ≠ n := fun hxn => hnr.1 (hxn ▸ hx)
    simp [s₁, hxn]
  obtain ⟨s₂, hrun₂, hb₂, hroot₂, hfr₂⟩ := hb₁.adopt hbn (some n)
  have hn₂ : s₂.mem n = some (joinNode d q.ptr a.ptr b.ptr c e) := by
    rw [hfr₂ n hnr.1]
    simp [s₁]
  have hr₂ : s₂.mem r = some (joinNode d (some n) b.ptr t.ptr c' e') := by
    rw [hfr₂ r hrb]
    simpa [s₁, hnr'] using hr
  let s₃ := s₂.set r (joinNode d (some n) (some n) t.ptr c' e')
  let s₄ := s₃.set n (joinNode d (some r) a.ptr b.ptr c e)
  let s₅ := s₄.set r (joinNode d q.ptr (some n) t.ptr c' e')
  have hfr₅ : ∀ x, x ≠ n → x ≠ r → x ∉ b.ids → s₅.mem x = s.mem x := by
    intro x hxn hxr hxb
    simp [s₅, s₄, s₃, hxn, hxr, hfr₂ x hxb, s₁]
  have hq₅ : RepPath s₅.mem s₅.root q (some n) := by
    have hroot : s₅.root = s.root := hroot₂
    rw [hroot, ← CTree.ptr_join d a n c e (.join d b r c' e' t)]
    refine h.path.frame fun x hx => hfr₅ x ?_ ?_ ?_
    · exact fun hxn => hdq n (.inr (.inl rfl)) (hxn ▸ hx)
    · exact fun hxr => hdq r (.inr (.inr (.inr (.inl rfl)))) (hxr ▸ hx)
    · exact fun hxb => hdq x (.inr (.inr (.inl hxb))) hx
  obtain ⟨s₆, hrun₆, hq₆, hfr₆⟩ :=
    hq₅.replaceChild (hdq n (.inr (.inl rfl))) hqn (some r)
  refine ⟨s₆, ?_, ?_, ?_, ?_⟩
  · have hset₁ : setChild d.other (some n) b.ptr s = some ((), s₁) := by
      simp [setChild_apply, hn, s₁]
    have hset₃ : setChild d (some r) (some n) s₂ = some ((), s₃) := by
      simp [setChild_apply, hr₂, s₃]
    have hset₄ : setParent (some n) (some r) s₃ = some ((), s₄) := by
      simp [setParent_apply, s₃, hnr'.symm, hn₂, s₄]
    have hset₅ : setParent (some r) q.ptr s₄ = some ((), s₅) := by
      simp [setParent_apply, s₄, s₃, hnr', s₅]
    simp only [rbRotate, rbM_bind, childOf_apply, parentOf_apply, hn, hr, Option.map_some,
      Option.bind_some, joinNode_child_other, joinNode_child, joinNode_parent, CTree.ptr_join,
      hset₁, hrun₂, hset₃, hset₄, hset₅, hrun₆]
  · rwa [CTree.ptr_join]
  · have hfr : ∀ x, x ∉ q.ids → x ≠ n → x ≠ r → x ∉ b.ids → s₆.mem x = s.mem x := by
      intro x hxq hxn hxr hxb
      rw [hfr₆ x hxq, hfr₅ x hxn hxr hxb]
    refine rep_join.2 ⟨?_, rep_join.2 ⟨?_, ?_, ?_⟩, ?_⟩
    · rw [hfr₆ r (hdq r (.inr (.inr (.inr (.inl rfl)))))]
      simp [s₅]
    · rw [hfr₆ n (hdq n (.inr (.inl rfl)))]
      simp [s₅, s₄, hnr'.symm]
    · refine ha.frame fun x hx => hfr x (hdq x (.inl hx)) ?_ (hda x hx).2.1 (hda x hx).1
      exact fun hxn => hna (hxn ▸ hx)
    · refine hb₂.frame fun x hx => ?_
      have hxn : x ≠ n := fun hxn => hnr.1 (hxn ▸ hx)
      have hxr : x ≠ r := fun hxr => hrb (hxr ▸ hx)
      rw [hfr₆ x (hdq x (.inr (.inr (.inl hx))))]
      simp [s₅, s₄, s₃, hxn, hxr]
    · refine ht.frame fun x hx => hfr x (hdq x (.inr (.inr (.inr (.inr hx))))) ?_ ?_ ?_
      · exact fun hxn => hnr.2.2 (hxn ▸ hx)
      · exact fun hxr => hrt' (hxr ▸ hx)
      · exact fun hxb => hdb x hxb hx
  · have hnd := h.nodup
    rw [CTree.ids, q.cells_plug_congr (CTree.cells_rotate d a b t n r c c' c c' e e')] at hnd
    exact hnd

end Memlog
