import Memlog.Lib.Stateful
import Memlog.RbTree.Refine

/-!
# The tree allocates and frees nothing by itself

The functions of `rbtree.c` change node objects, they never make one or release one: each of them
keeps the set of addresses at which there is an object (`RbState.live`). The only allocation is the
one in `insert_block_rb`, and it is made only when the key is not present (`Indexed.insert_live`);
`rb_delete` leaves the object of the unlinked node for its caller to free (`rbDelete_keeps`). With
every node object in the tree, there is then no object that could be lost.
-/

namespace Memlog

open Lib

variable {κ δ : Type}

/-- There is a node object at the address. -/
def RbState.live (s : RbState κ δ) (p : Ptr) : Bool := (s.mem p).isSome

theorem RbState.live_set (s : RbState κ δ) (n : Ptr) (nd : RbNode κ δ) :
    (s.set n nd).live = Function.update s.live n true := by
  funext p
  by_cases hp : p = n
  · subst hp
    simp [live]
  · simp [live, hp]

theorem RbState.live_free (s : RbState κ δ) (n : Ptr) :
    (s.free n).live = Function.update s.live n false := by
  funext p
  by_cases hp : p = n
  · subst hp
    simp [live]
  · simp [live, hp]

/-! ## Access -/

section Access

variable (p q : Option Ptr) (d : Side)

theorem load_keeps : Keeps RbState.live (load p : RbM κ δ _) := by
  intro s a s' h
  obtain ⟨nd, -, heq⟩ := Option.map_eq_some_iff.1 h
  cases heq
  rfl

theorem modify_keeps (f : RbNode κ δ → RbNode κ δ) : Keeps RbState.live (modify p f) := by
  intro s a s' h
  obtain ⟨x, -, hx⟩ := Option.bind_eq_some_iff.1 h
  obtain ⟨nd, hnd, heq⟩ := Option.map_eq_some_iff.1 hx
  cases heq
  funext y
  rw [RbState.live, RbState.live, RbState.mem_set]
  by_cases hy : y = x
  · rw [if_pos hy, hy, hnd]
    rfl
  · rw [if_neg hy]

theorem getRoot_keeps : Keeps RbState.live (getRoot : RbM κ δ _) := by
  intro s a s' h
  cases h
  rfl

theorem setRoot_keeps : Keeps RbState.live (setRoot p : RbM κ δ _) := by
  intro s a s' h
  cases h
  rfl

theorem parentOf_keeps : Keeps RbState.live (parentOf p : RbM κ δ _) := (load_keeps p).map _

theorem childOf_keeps : Keeps RbState.live (childOf d p : RbM κ δ _) := (load_keeps p).map _

theorem colorOf_keeps : Keeps RbState.live (colorOf p : RbM κ δ _) := (load_keeps p).map _

theorem setParent_keeps : Keeps RbState.live (setParent p q : RbM κ δ _) := modify_keeps p _

theorem setChild_keeps : Keeps RbState.live (setChild d p q : RbM κ δ _) := modify_keeps p _

theorem setColor_keeps (c : Color) : Keeps RbState.live (setColor p c : RbM κ δ _) :=
  modify_keeps p _

end Access

/-! ## Insertion -/

section Insert

variable (p n g r u v w x parent : Option Ptr) (d : Side)

theorem rbGrandparent_keeps : Keeps RbState.live (rbGrandparent n : RbM κ δ _) :=
  (parentOf_keeps n).bind fun p => (parentOf_keeps p).ite (.pure _)

theorem rbUncle_keeps : Keeps RbState.live (rbUncle n : RbM κ δ _) := by
  refine (rbGrandparent_keeps n).bind fun g => .ite (.pure _) ?_
  refine (parentOf_keeps n).bind fun p => (childOf_keeps g .left).bind fun l => ?_
  exact (childOf_keeps g .right).ite (childOf_keeps g .left)

theorem replaceChild_keeps : Keeps RbState.live (replaceChild p n r : RbM κ δ _) := by
  refine (setRoot_keeps r).ite ((childOf_keeps p .left).bind fun l => ?_)
  exact (setChild_keeps p r .left).ite (setChild_keeps p r .right)

theorem adopt_keeps : Keeps RbState.live (adopt v p : RbM κ δ _) :=
  (setParent_keeps v p).ite (.pure _)

theorem rbRotate_keeps : Keeps RbState.live (rbRotate d n : RbM κ δ _) := by
  refine (childOf_keeps n d.other).bind fun r => (parentOf_keeps n).bind fun p => ?_
  refine (childOf_keeps r d).bind fun b => (setChild_keeps n b d.other).bind fun _ => ?_
  refine (adopt_keeps n b).bind fun _ => (setChild_keeps r n d).bind fun _ => ?_
  refine (setParent_keeps n r).bind fun _ => (setParent_keeps r p).bind fun _ => ?_
  exact replaceChild_keeps p n r

theorem Link.write_keeps (link : Link) : Keeps RbState.live (link.write p : RbM κ δ _) := by
  cases link with
  | root => exact setRoot_keeps p
  | child d q => exact setChild_keeps (some q) p d

theorem rbLinkNode_keeps (link : Link) : Keeps RbState.live (rbLinkNode n p link : RbM κ δ _) := by
  refine (setParent_keeps n p).bind fun _ => (setChild_keeps n none .right).bind fun _ => ?_
  exact (setChild_keeps n none .left).bind fun _ => link.write_keeps n

theorem isRed_keeps : Keeps RbState.live (isRed p : RbM κ δ _) :=
  .ite (.pure _) ((colorOf_keeps p).bind fun _ => .pure _)

theorem rbInsertRotate_keeps : Keeps RbState.live (rbInsertRotate d n g : RbM κ δ _) := by
  have hlast : ∀ n : Option Ptr, Keeps RbState.live (do
      rbInsertCase3 d n g
      return n : RbM κ δ (Option Ptr)) := by
    intro n
    refine .bind ((parentOf_keeps n).bind fun p => ?_) fun _ => .pure _
    refine (setColor_keeps p .black).bind fun _ => (setColor_keeps g .red).bind fun _ => ?_
    exact rbRotate_keeps g d.other
  refine (parentOf_keeps n).bind fun p => (childOf_keeps p d.other).bind fun c => .ite ?_ (hlast n)
  exact (parentOf_keeps n).bind fun p => (rbRotate_keeps p d).bind fun _ => hlast p

theorem rbInsertLoop_keeps (fuel : Nat) :
    Keeps RbState.live (rbInsertLoop fuel n : RbM κ δ _) := by
  induction fuel generalizing n with
  | zero => exact .failure
  | succ fuel ih =>
    refine getRoot_keeps.bind fun root => .ite (.pure _) ?_
    refine (parentOf_keeps n).bind fun p => (colorOf_keeps p).bind fun c => .ite (.pure _) ?_
    refine (rbUncle_keeps n).bind fun u => (rbGrandparent_keeps n).bind fun g => ?_
    refine (isRed_keeps u).bind fun red => .ite ?_ ?_
    · refine (parentOf_keeps n).bind fun p => (setColor_keeps p .black).bind fun _ => ?_
      exact (setColor_keeps u .black).bind fun _ => (setColor_keeps g .red).bind fun _ => ih g
    · refine (parentOf_keeps n).bind fun p => (childOf_keeps g .left).bind fun l => .ite ?_ ?_
      · exact (rbInsertRotate_keeps n g .left).bind fun n => ih n
      · exact (rbInsertRotate_keeps n g .right).bind fun n => ih n

theorem rbInsertColor_keeps : Keeps RbState.live (rbInsertColor n : RbM κ δ _) := by
  refine Keeps.get.bind fun s => (rbInsertLoop_keeps n (s.size + 1)).bind fun _ => ?_
  exact getRoot_keeps.bind fun root => setColor_keeps root .black

/-! ## Deletion -/

theorem rbMinLoop_keeps (fuel : Nat) : Keeps RbState.live (rbMinLoop fuel n : RbM κ δ _) := by
  induction fuel generalizing n with
  | zero => exact .failure
  | succ fuel ih => exact (childOf_keeps n .left).bind fun l => (ih l).ite (.pure _)

theorem rbMin_keeps : Keeps RbState.live (rbMin n : RbM κ δ _) :=
  .ite (.pure _) (Keeps.get.bind fun s => rbMinLoop_keeps n s.size)

theorem rbTransplant_keeps : Keeps RbState.live (rbTransplant u v : RbM κ δ _) := by
  refine (parentOf_keeps u).bind fun p => (replaceChild_keeps p u v).bind fun _ => ?_
  exact (parentOf_keeps u).bind fun p => adopt_keeps p v

theorem isBlack_keeps : Keeps RbState.live (isBlack p : RbM κ δ _) :=
  .ite (.pure _) ((colorOf_keeps p).bind fun _ => .pure _)

theorem blacken_keeps : Keeps RbState.live (blacken p : RbM κ δ _) :=
  (setColor_keeps p .black).ite (.pure _)

theorem rbDeleteRedSibling_keeps :
    Keeps RbState.live (rbDeleteRedSibling d parent w : RbM κ δ _) := by
  refine (colorOf_keeps w).bind fun c => .ite ?_ (.pure _)
  refine (setColor_keeps w .black).bind fun _ => (setColor_keeps parent .red).bind fun _ => ?_
  exact (rbRotate_keeps parent d).bind fun _ => childOf_keeps parent d.other

theorem rbDeleteNear_keeps : Keeps RbState.live (rbDeleteNear d parent w : RbM κ δ _) := by
  refine (childOf_keeps w d.other).bind fun far => (isBlack_keeps far).bind fun b => ?_
  refine .ite ?_ (.pure _)
  refine (childOf_keeps w d).bind fun near => (blacken_keeps near).bind fun _ => ?_
  refine (setColor_keeps w .red).bind fun _ => (rbRotate_keeps w d.other).bind fun _ => ?_
  exact childOf_keeps parent d.other

theorem rbDeleteFar_keeps : Keeps RbState.live (rbDeleteFar d parent w : RbM κ δ _) := by
  refine (colorOf_keeps parent).bind fun c => (setColor_keeps w c).bind fun _ => ?_
  refine (setColor_keeps parent .black).bind fun _ => (childOf_keeps w d.other).bind fun far => ?_
  exact (blacken_keeps far).bind fun _ => rbRotate_keeps parent d

theorem rbDeleteStep_keeps : Keeps RbState.live (rbDeleteStep d parent : RbM κ δ _) := by
  refine (childOf_keeps parent d.other).bind fun w => .ite (.pure _) ?_
  refine (rbDeleteRedSibling_keeps w parent d).bind fun w => ?_
  refine (childOf_keeps w d).bind fun near => (isBlack_keeps near).bind fun b₁ => ?_
  refine (childOf_keeps w d.other).bind fun far => (isBlack_keeps far).bind fun b₂ => .ite ?_ ?_
  · exact (setColor_keeps w .red).bind fun _ => (parentOf_keeps parent).bind fun _ => .pure _
  · refine (rbDeleteNear_keeps w parent d).bind fun w => ?_
    exact (rbDeleteFar_keeps w parent d).bind fun _ => getRoot_keeps.bind fun _ => .pure _

theorem rbDeleteFixupLoop_keeps (fuel : Nat) :
    Keeps RbState.live (rbDeleteFixupLoop fuel x parent : RbM κ δ _) := by
  induction fuel generalizing x parent with
  | zero => exact .failure
  | succ fuel ih =>
    refine getRoot_keeps.bind fun root => .ite (.pure _) ?_
    refine (isBlack_keeps x).bind fun b => .ite (.pure _) (.ite (.pure _) ?_)
    refine (childOf_keeps parent .left).bind fun l => (rbDeleteStep_keeps parent _).bind fun r => ?_
    cases r with
    | none => exact .pure _
    | some r => exact ih r.1 r.2

theorem rbDeleteFixup_keeps : Keeps RbState.live (rbDeleteFixup x parent : RbM κ δ _) := by
  refine Keeps.get.bind fun s => (rbDeleteFixupLoop_keeps x parent (s.size + 2)).bind fun x => ?_
  exact blacken_keeps x

theorem rbDeleteTwo_keeps (z : Option Ptr) : Keeps RbState.live (rbDeleteTwo z : RbM κ δ _) := by
  have hlast : ∀ (y : Option Ptr) (c : Color) (x xParent : Option Ptr), Keeps RbState.live (do
      rbTakePlace z y
      return (c, x, xParent) : RbM κ δ (Color × Option Ptr × Option Ptr)) := by
    intro y c x xParent
    refine .bind ((rbTransplant_keeps z y).bind fun _ => ?_) fun _ => .pure _
    refine (childOf_keeps z .left).bind fun l => (setChild_keeps y l .left).bind fun _ => ?_
    refine (childOf_keeps y .left).bind fun l => (setParent_keeps l y).bind fun _ => ?_
    exact (colorOf_keeps z).bind fun c => setColor_keeps y c
  refine (childOf_keeps z .right).bind fun r => (rbMin_keeps r).bind fun y => ?_
  refine (colorOf_keeps y).bind fun c => (childOf_keeps y .right).bind fun x => ?_
  refine (parentOf_keeps y).bind fun p => .ite ?_ (hlast y c x y)
  refine (parentOf_keeps y).bind fun p => .bind ?_ fun _ => hlast y c x p
  refine (childOf_keeps y .right).bind fun r => (rbTransplant_keeps y r).bind fun _ => ?_
  refine (childOf_keeps z .right).bind fun r => (setChild_keeps y r .right).bind fun _ => ?_
  exact (childOf_keeps y .right).bind fun r => setParent_keeps r y

theorem rbUnlink_keeps (z : Option Ptr) : Keeps RbState.live (rbUnlink z : RbM κ δ _) := by
  refine (load_keeps z).bind fun zn => .ite ?_ (.ite ?_ (rbDeleteTwo_keeps z))
  · exact (rbTransplant_keeps z zn.right).bind fun _ => .pure _
  · exact (rbTransplant_keeps z zn.left).bind fun _ => .pure _

variable [LinearOrder κ]

theorem rbSearchLoop_keeps (key : κ) (fuel : Nat) :
    Keeps RbState.live (rbSearchLoop key fuel p : RbM κ δ _) := by
  induction fuel generalizing p with
  | zero => cases p with
    | none => exact .pure _
    | some p => exact .failure
  | succ fuel ih => cases p with
    | none => exact .pure _
    | some p =>
      refine (load_keeps (some p)).bind fun nd => .ite (.pure _) ?_
      exact (ih nd.left).ite (ih nd.right)

/-- `rb_delete` keeps the node objects, the unlinked one included. -/
theorem rbDelete_keeps (key : κ) : Keeps RbState.live (rbDelete key : RbM κ δ _) := by
  refine .bind (Keeps.get.bind fun s => getRoot_keeps.bind fun root => ?_) fun z => ?_
  · exact rbSearchLoop_keeps root key s.size
  refine .ite (.pure _) ((rbUnlink_keeps z).bind fun out => .ite ?_ (.pure _))
  exact (rbDeleteFixup_keeps out.2.1 out.2.2).bind fun _ => .pure _

end Insert

/-! ## Objects of an index -/

section Indexed

variable [LinearOrder κ] {s : RbState κ δ} {l : List (Ptr × κ × δ)} {n : Ptr}

/-- **An insertion** does nothing if the key is present, and else makes one object, for the new
cell. -/
theorem Indexed.insert_live (h : Indexed s l) (hn : s.mem n = none) (key : κ) (data : δ) :
    (insertBlockRb n key data s = some ((), s) ∧ ∃ x ∈ l, x.2.1 = key) ∨
      ∃ s' a b, insertBlockRb n key data s = some ((), s') ∧ l = a ++ b ∧
        Indexed s' (a ++ (n, key, data) :: b) ∧ (∀ x ∈ a, x.2.1 < key) ∧ (∀ x ∈ b, key < x.2.1) ∧
        s'.live = Function.update s.live n true := by
  obtain ⟨T, hf, hT, rfl⟩ := h.tree
  have hfuel : T.cells.length < s.size + 1 := by
    have hlen := hf.length_le_size
    rw [CTree.ids, List.length_map] at hlen
    exact Nat.lt_succ_of_le hlen
  have hdesc := insertDescend_spec key hf h.ordered (fun x hx => by cases hx)
    (fun x hx => by cases hx) hfuel
  rcases hdesc with ⟨hrun, hx⟩ | ⟨q, hrun, hplug, hb, ha⟩
  · refine .inl ⟨?_, hx⟩
    rw [insertBlockRb, rbM_bind, rbM_get, Option.bind_some, rbM_bind,
      show insertDescend key (s.size + 1) .root none s = some (none, s) from hrun]
    rfl
  · obtain ⟨s', l', hrun', h', hcase⟩ := h.insert hn key data
    rcases hcase with ⟨-, x, hx, hkey⟩ | ⟨a, b, hl, rfl, ha', hb'⟩
    · -- the descent would have found the key
      have hcells : T.cells = q.before ++ q.after := by
        rw [show T = q.plug .nil from hplug.symm, Spine.cells_plug]
        simp
      rw [hcells, List.mem_append] at hx
      rcases hx with hx | hx
      · exact absurd hkey (hb x hx).ne
      · exact absurd hkey (ha x hx).ne'
    · refine .inr ⟨s', a, b, hrun', hl, h', ha', hb', ?_⟩
      rw [insertBlockRb, rbM_bind, rbM_get, Option.bind_some, rbM_bind,
        show insertDescend key (s.size + 1) .root none s = some (some (pathLink q, q.ptr), s)
          from hrun] at hrun'
      have hkeeps : Keeps RbState.live (do
          rbLinkNode (some n) q.ptr (pathLink q)
          rbInsertColor (some n) : RbM κ δ Unit) :=
        (rbLinkNode_keeps q.ptr (some n) (pathLink q)).bind fun _ => rbInsertColor_keeps (some n)
      rw [← RbState.live_set s n (.fresh key data)]
      exact hkeeps _ _ _ hrun'

end Indexed

end Memlog
