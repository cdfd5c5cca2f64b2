import Memlog.RbTree.Model

/-!
# Linked trees in memory

`Rep m par t`: the node objects of the memory `m` are linked as the tree `t` says, parent pointers
included, with `par` as the parent of its root. `RepPath` says the same of a path, and `Focus s q t`
that the state holds the tree `q.plug t`, seen from the position of `t`. Moving a focus up or down
is free (`focus_up`); every pointer operation of the source is described by how it moves or changes
a focus.
-/

namespace Memlog

open Lib

variable {κ δ : Type}

/-! ## Memory -/

namespace RbState

@[simp] theorem mem_set (s : RbState κ δ) (p q : Ptr) (nd : RbNode κ δ) :
    (s.set p nd).mem q = if q = p then some nd else s.mem q := by
  by_cases h : q = p
  · subst h
    simp [mem, set]
  · simp [mem, set, h, AList.lookup_insert_ne h]

@[simp] theorem root_set (s : RbState κ δ) (p : Ptr) (nd : RbNode κ δ) :
    (s.set p nd).root = s.root := rfl

@[simp] theorem mem_free (s : RbState κ δ) (p q : Ptr) :
    (s.free p).mem q = if q = p then none else s.mem q := by
  by_cases h : q = p
  · subst h
    simp [mem, free]
  · simp [mem, free, h, AList.lookup_erase_ne h]

@[simp] theorem root_free (s : RbState κ δ) (p : Ptr) : (s.free p).root = s.root := rfl

/-- Distinct allocated addresses are no more than there are node objects. -/
theorem length_le_size {s : RbState κ δ} {l : List Ptr} (hn : l.Nodup)
    (hl : ∀ p ∈ l, ∃ nd, s.mem p = some nd) : l.length ≤ s.size := by
  have hsub : l ⊆ s.nodes.keys := by
    intro p hp
    obtain ⟨nd, h⟩ := hl p hp
    rw [← AList.mem_keys, ← AList.lookup_isSome]
    exact Option.isSome_of_mem h
  exact (List.subperm_of_subset hn hsub).length_le

end RbState

/-! ## Running the accessors -/

section Apply

variable {α β : Type}

theorem rbM_bind (x : RbM κ δ α) (f : α → RbM κ δ β) (s : RbState κ δ) :
    (x >>= f) s = (x s).bind fun r => f r.1 r.2 := rfl

theorem rbM_get (s : RbState κ δ) : (get : RbM κ δ (RbState κ δ)) s = some (s, s) := rfl

theorem load_apply (p : Ptr) (s : RbState κ δ) :
    load (some p) s = (s.mem p).map (·, s) := rfl

theorem parentOf_apply (p : Ptr) (s : RbState κ δ) :
    parentOf (some p) s = (s.mem p).map (·.parent, s) := by
  show ((s.mem p).map _).bind _ = _
  cases s.mem p <;> rfl

theorem childOf_apply (d : Side) (p : Ptr) (s : RbState κ δ) :
    childOf d (some p) s = (s.mem p).map (·.child d, s) := by
  show ((s.mem p).map _).bind _ = _
  cases s.mem p <;> rfl

theorem colorOf_apply (p : Ptr) (s : RbState κ δ) :
    colorOf (some p) s = (s.mem p).map (·.color, s) := by
  show ((s.mem p).map _).bind _ = _
  cases s.mem p <;> rfl

theorem setParent_apply (p : Ptr) (q : Option Ptr) (s : RbState κ δ) :
    setParent (some p) q s = (s.mem p).map fun nd => ((), s.set p (nd.withParent q)) := rfl

theorem setChild_apply (d : Side) (p : Ptr) (q : Option Ptr) (s : RbState κ δ) :
    setChild d (some p) q s = (s.mem p).map fun nd => ((), s.set p (nd.withChild d q)) := rfl

theorem setColor_apply (p : Ptr) (c : Color) (s : RbState κ δ) :
    setColor (some p) c s = (s.mem p).map fun nd => ((), s.set p (nd.withColor c)) := rfl

theorem getRoot_apply (s : RbState κ δ) : getRoot s = some (s.root, s) := rfl

end Apply

/-! ## Representation -/

/-- The node object with child `a` on side `d` and child `b` on the other side. -/
def joinNode (d : Side) (par a b : Option Ptr) (c : Color) (e : κ × δ) : RbNode κ δ :=
  match d with
  | .left => ⟨par, a, b, c, e.1, e.2⟩
  | .right => ⟨par, b, a, c, e.1, e.2⟩

section JoinNode

variable (d : Side) (par a b x : Option Ptr) (c : Color) (e : κ × δ)

@[simp] theorem joinNode_parent : (joinNode d par a b c e).parent = par := by
  cases d <;> rfl

@[simp] theorem joinNode_color : (joinNode d par a b c e).color = c := by
  cases d <;> rfl

@[simp] theorem joinNode_key : (joinNode d par a b c e).key = e.1 := by
  cases d <;> rfl

@[simp] theorem joinNode_data : (joinNode d par a b c e).data = e.2 := by
  cases d <;> rfl

@[simp] theorem joinNode_child : (joinNode d par a b c e).child d = a := by
  cases d <;> rfl

@[simp] theorem joinNode_child_other : (joinNode d par a b c e).child d.other = b := by
  cases d <;> rfl

@[simp] theorem joinNode_withChild :
    (joinNode d par a b c e).withChild d x = joinNode d par x b c e := by
  cases d <;> rfl

@[simp] theorem joinNode_withChild_other :
    (joinNode d par a b c e).withChild d.other x = joinNode d par a x c e := by
  cases d <;> rfl

@[simp] theorem joinNode_withParent :
    (joinNode d par a b c e).withParent x = joinNode d x a b c e := by
  cases d <;> rfl

@[simp] theorem joinNode_withColor (c' : Color) :
    (joinNode d par a b c e).withColor c' = joinNode d par a b c' e := by
  cases d <;> rfl

theorem joinNode_other : joinNode d.other par a b c e = joinNode d par b a c e := by
  cases d <;> rfl

end JoinNode

/-- The objects of `m` are linked as the tree says, below the parent `par`. -/
def Rep (m : Ptr → Option (RbNode κ δ)) : Option Ptr → CTree Ptr κ δ → Prop
  | _, .nil => True
  | par, .node l p c e r =>
    m p = some ⟨par, l.ptr, r.ptr, c, e.1, e.2⟩ ∧ Rep m (some p) l ∧ Rep m (some p) r

/-- The objects of `m` are linked as the path says, with `hole` in its hole. -/
def RepPath (m : Ptr → Option (RbNode κ δ)) (root : Option Ptr) :
    Spine Ptr κ δ → Option Ptr → Prop
  | .top, hole => root = hole
  | .step d p c e t q, hole =>
    m p = some (joinNode d q.ptr hole t.ptr c e) ∧ Rep m (some p) t ∧ RepPath m root q (some p)

/-- The state holds the tree `q.plug t`. -/
structure Focus (s : RbState κ δ) (q : Spine Ptr κ δ) (t : CTree Ptr κ δ) : Prop where
  path : RepPath s.mem s.root q t.ptr
  tree : Rep s.mem q.ptr t
  nodup : (q.plug t).ids.Nodup

theorem rep_join {m : Ptr → Option (RbNode κ δ)} {par : Option Ptr} {d : Side} {p : Ptr}
    {c : Color} {e : κ × δ} {a b : CTree Ptr κ δ} :
    Rep m par (.join d a p c e b) ↔
      m p = some (joinNode d par a.ptr b.ptr c e) ∧ Rep m (some p) a ∧ Rep m (some p) b := by
  cases d with
  | left => rfl
  | right => exact and_congr_right fun _ => and_comm

theorem focus_up {s : RbState κ δ} {d : Side} {p : Ptr} {c : Color} {e : κ × δ}
    {t u : CTree Ptr κ δ} {q : Spine Ptr κ δ} :
    Focus s (.step d p c e u q) t ↔ Focus s q (.join d t p c e u) := by
  constructor
  · rintro ⟨⟨hp, hu, hq⟩, ht, hn⟩
    exact ⟨by simpa using hq, rep_join.2 ⟨hp, ht, hu⟩, hn⟩
  · rintro ⟨hq, ht, hn⟩
    obtain ⟨hp, ht, hu⟩ := rep_join.1 ht
    exact ⟨⟨hp, hu, by simpa using hq⟩, ht, hn⟩

/-- A focus can be moved to the root. -/
theorem focus_plug {s : RbState κ δ} {t : CTree Ptr κ δ} {q : Spine Ptr κ δ} :
    Focus s q t ↔ Focus s .top (q.plug t) := by
  induction q generalizing t with
  | top => rfl
  | step d p c e u q ih => exact focus_up.trans ih

/-! ## Frames -/

theorem Rep.frame {m m' : Ptr → Option (RbNode κ δ)} {par : Option Ptr} {t : CTree Ptr κ δ}
    (h : Rep m par t) (hm : ∀ p ∈ t.ids, m' p = m p) : Rep m' par t := by
  induction t generalizing par with
  | nil => trivial
  | node l p c e r ihl ihr =>
    obtain ⟨hp, hl, hr⟩ := h
    refine ⟨?_, ihl hl fun x hx => hm x (by simp [hx]), ihr hr fun x hx => hm x (by simp [hx])⟩
    rw [hm p (by simp), hp]

theorem RepPath.frame {m m' : Ptr → Option (RbNode κ δ)} {root hole : Option Ptr}
    {q : Spine Ptr κ δ} (h : RepPath m root q hole) (hm : ∀ p ∈ q.ids, m' p = m p) :
    RepPath m' root q hole := by
  induction q generalizing hole with
  | top => exact h
  | step d p c e t q ih =>
    obtain ⟨hp, ht, hq⟩ := h
    refine ⟨?_, ht.frame fun x hx => hm x ?_, ih hq fun x hx => hm x ?_⟩
    · rw [hm p (Spine.mem_ids_step.2 (.inl rfl)), hp]
    · exact Spine.mem_ids_step.2 (.inr (.inl hx))
    · exact Spine.mem_ids_step.2 (.inr (.inr hx))

/-- The nodes of a represented tree are allocated. -/
theorem Rep.mem {m : Ptr → Option (RbNode κ δ)} {par : Option Ptr} {t : CTree Ptr κ δ}
    (h : Rep m par t) : ∀ p ∈ t.ids, ∃ nd, m p = some nd := by
  induction t generalizing par with
  | nil => intro p hp; cases hp
  | node l x c e r ihl ihr =>
    intro p hp
    obtain ⟨hx, hl, hr⟩ := h
    simp only [CTree.ids_node, List.mem_append, List.mem_cons] at hp
    rcases hp with hp | rfl | hp
    · exact ihl hl p hp
    · exact ⟨_, hx⟩
    · exact ihr hr p hp

/-- A tree in memory has no more nodes than there are node objects. -/
theorem Focus.length_le_size {s : RbState κ δ} {q : Spine Ptr κ δ} {t : CTree Ptr κ δ}
    (h : Focus s q t) : (q.plug t).ids.length ≤ s.size :=
  RbState.length_le_size h.nodup (focus_plug.1 h).tree.mem

theorem Focus.depth_le_size {s : RbState κ δ} {q : Spine Ptr κ δ} {t : CTree Ptr κ δ}
    (h : Focus s q t) : q.depth ≤ s.size :=
  (q.depth_le_ids t).trans h.length_le_size

/-- The parent pointer of a subtree's root is redirected. -/
theorem Rep.setParent {s : RbState κ δ} {par : Option Ptr} {l r : CTree Ptr κ δ} {p : Ptr}
    {c : Color} {e : κ × δ} (h : Rep s.mem par (.node l p c e r))
    (hn : (CTree.node l p c e r).ids.Nodup) (par' : Option Ptr) :
    Rep (s.set p ⟨par', l.ptr, r.ptr, c, e.1, e.2⟩).mem par' (.node l p c e r) := by
  obtain ⟨-, hl, hr⟩ := h
  rw [CTree.ids_node, List.nodup_append, List.nodup_cons] at hn
  refine ⟨by simp, hl.frame fun x hx => ?_, hr.frame fun x hx => ?_⟩
  · have : x ≠ p := hn.2.2 x hx p (by simp)
    simp [this]
  · have : x ≠ p := fun h => hn.2.1.1 (h ▸ hx)
    simp [this]

end Memlog
