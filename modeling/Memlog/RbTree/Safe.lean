import Mathlib.Logic.Relation
import Memlog.RbTree.Refine

/-!
# The fixups never follow `NULL`

The loops of `rb_insert_color` and `rb_delete_fixup` read through the grandparent of a node and
through the sibling of a subtree without a test, or with a test that leaves the loop early. On a
tree with the red-black and the parent-link invariants those pointers are never `NULL`. This is a
statement about every turn of the loops, so the turns are made explicit (`InsertTurn`,
`DeleteTurn`): `InsertAt` and `DeleteAt` hold at every turn, and each of them names the nodes the
turn needs.

No order of the keys is assumed: `rb_delete` may be called with any key on any red-black tree
(`rbTree_never_follows_null`).
-/

namespace Memlog

open Lib

variable {κ δ : Type}

/-- The nodes form a tree with the red-black properties, and every node points back to the node
above it. -/
def RbState.RedBlack (s : RbState κ δ) : Prop := ∃ T, Focus s .top T ∧ T.Valid

/-- A link of the tree that is `NULL`, and the node it belongs to. -/
inductive RbState.LeafPlace (s : RbState κ δ) : Link → Option Ptr → Prop where
  | root (h : s.root = none) : LeafPlace s .root none
  | child {d : Side} {p : Ptr} {nd : RbNode κ δ} (hp : s.Reach p) (hnd : s.mem p = some nd)
      (h : nd.child d = none) : LeafPlace s (.child d p) (some p)

/-- A leaf place is the hole of a path. -/
theorem Focus.at_leaf {s : RbState κ δ} {T : CTree Ptr κ δ} (h : Focus s .top T) {link : Link}
    {parent : Option Ptr} (hleaf : s.LeafPlace link parent) :
    ∃ q, T = q.plug .nil ∧ pathLink q = link ∧ q.ptr = parent := by
  cases hleaf with
  | root hroot =>
    have hptr : T.ptr = none := (show s.root = T.ptr from h.path).symm.trans hroot
    cases T with
    | nil => exact ⟨.top, rfl, rfl, rfl⟩
    | node => cases hptr
  | @child d p nd hp hnd hnone =>
    obtain ⟨q, l, c, e, r, hf, rfl⟩ := h.at_id (h.reach_iff.1 hp)
    obtain ⟨a, b, hjoin⟩ := CTree.exists_join d l p c e r
    rw [hjoin] at hf ⊢
    rw [hf.mem_join, Option.some.injEq] at hnd
    rw [← hnd, joinNode_child] at hnone
    cases a with
    | nil => exact ⟨.step d p c e b q, rfl, rfl, rfl⟩
    | node => cases hnone

/-! ## Insertion -/

/-- A turn of the loop of `rb_insert_color`, from one state and `n` to the next. -/
def InsertTurn (a b : RbState κ δ × Option Ptr) : Prop :=
  rbInsertIter a.2 a.1 = some (some b.2, b.1)

/-- At every turn of the loop of `rb_insert_color` started at `n` that is not at the root, the
parent exists, and if it is red the grandparent exists. -/
def InsertSafe (s : RbState κ δ) (n : Option Ptr) : Prop :=
  ∀ s' n', Relation.ReflTransGen InsertTurn (s, n) (s', n') → n' ≠ s'.root →
    ∃ p c, parentOf n' s' = some (some p, s') ∧ colorOf (some p) s' = some (c, s') ∧
      (c = .red → ∃ g, rbGrandparent n' s' = some (some g, s'))

section Insert

variable {s : RbState κ δ} {n : Ptr} {q : Spine Ptr κ δ} {t : CTree Ptr κ δ}

/-- The invariant survives every turn. -/
theorem InsertAt.turns (h : InsertAt s n q t) {b : RbState κ δ × Option Ptr}
    (hrun : Relation.ReflTransGen InsertTurn (s, some n) b) :
    ∃ n' q' t', b.2 = some n' ∧ InsertAt b.1 n' q' t' := by
  induction hrun with
  | refl => exact ⟨n, q, t, rfl, h⟩
  | @tail b c _ hturn ih =>
    obtain ⟨n₁, q₁, t₁, hn₁, h₁⟩ := ih
    rw [InsertTurn, hn₁] at hturn
    rcases insertIter_spec h₁ with ⟨hend, -⟩ | ⟨s₂, n₂, q₂, t₂, hnext, h₂, -, -⟩
    · cases hend.symm.trans hturn
    · rw [hnext, Option.some.injEq, Prod.mk.injEq, Option.some.injEq] at hturn
      obtain ⟨hn₂, rfl⟩ := hturn
      exact ⟨n₂, q₂, t₂, hn₂.symm, h₂⟩

/-- Away from the root the parent exists; a red one is not the root, so that the grandparent exists
as well. -/
theorem InsertAt.grandparent (h : InsertAt s n q t) (hroot : some n ≠ s.root) :
    ∃ p c, parentOf (some n) s = some (some p, s) ∧ colorOf (some p) s = some (c, s) ∧
      (c = .red → ∃ g, rbGrandparent (some n) s = some (some g, s)) := by
  obtain ⟨m, hok, -⟩ := h.bal
  match q, h, hok with
  | .top, h, _ => exact absurd (h.ptr.symm.trans h.focus.path.symm) hroot
  | .step d p c e u q, h, hok =>
    obtain ⟨a, e', b, rfl⟩ := h.exists_join d
    refine ⟨p, c, ?_, ?_, ?_⟩
    · rw [parentOf_apply, h.focus.mem_join, Option.map_some, joinNode_parent, Spine.ptr_step]
    · rw [colorOf_apply, h.focus.mem_step, Option.map_some, joinNode_color]
    · rintro rfl
      -- a red node on the path has a black node above it
      obtain ⟨-, -, hblack, -⟩ := hok
      match q, h, hblack with
      | .step d' g .black e'' y q, h, _ =>
        obtain ⟨a, e', b, hjoin⟩ := h.exists_join d'
        have hf := h.focus
        rw [hjoin] at hf
        exact ⟨g, rbGrandparent_focus hf⟩

theorem InsertAt.safe (h : InsertAt s n q t) : InsertSafe s (some n) := by
  intro s' n' hrun hroot
  obtain ⟨n₁, q₁, t₁, rfl, h₁⟩ := h.turns hrun
  exact h₁.grandparent hroot

/-- Linking a red leaf into a red-black tree and recolouring. -/
theorem RbState.RedBlack.insert {s : RbState κ δ} (hs : s.RedBlack) {link : Link}
    {parent : Option Ptr} {n : Ptr} {nd : RbNode κ δ} (hleaf : s.LeafPlace link parent)
    (hn : s.mem n = some nd) (hred : nd.color = .red) (hout : ¬s.Reach n) :
    ∃ s₁ s₂, rbLinkNode (some n) parent link s = some ((), s₁) ∧
      rbInsertColor (some n) s₁ = some ((), s₂) ∧ InsertSafe s₁ (some n) := by
  obtain ⟨T, hT, hc, k, hbal⟩ := hs
  obtain ⟨q, rfl, rfl, rfl⟩ := hT.at_leaf hleaf
  obtain ⟨m, hq, hnil, -, -⟩ := Spine.Ok.of_plug hbal hc
  cases hnil
  have hnq : n ∉ q.ids := fun hnq => hout (hT.reach_iff.2 (Spine.mem_ids_plug.2 (.inl hnq)))
  obtain ⟨s₁, hrun₁, h₁⟩ := (focus_plug.2 hT).link hn hred hnq
  obtain ⟨s₂, T₂, hrun₂, -⟩ := rbInsertColor_spec h₁ hq
  have hat : InsertAt s₁ n q _ := .of_join (d := .left) h₁ hq (.red .nil .nil rfl rfl)
  exact ⟨s₁, s₂, hrun₁, hrun₂, hat.safe⟩

end Insert

/-! ## Deletion -/

/-- A turn of the loop of `rb_delete_fixup`, from one state, `x` and `parent` to the next. -/
def DeleteTurn (a b : RbState κ δ × Option Ptr × Option Ptr) : Prop :=
  rbDeleteIter a.2.1 a.2.2 a.1 = some (some b.2, b.1)

/-- The side on which `rb_delete_fixup` takes `x` to hang below `parent`. -/
def rbDeleteSide (x parent : Option Ptr) : RbM κ δ Side := do
  return if x = (← childOf .left parent) then .left else .right

/-- What a turn of `rb_delete_fixup` needs: the parent, on the right side of which `x` hangs, its
sibling, and the sibling after a red one has been rotated away. With them the turn is not left by a
`break`. -/
def SiblingsExist (s : RbState κ δ) (x parent : Option Ptr) : Prop :=
  ∃ p d w w' s₁, parent = some p ∧ rbDeleteSide x parent s = some (d, s) ∧
    childOf d parent s = some (x, s) ∧ childOf d.other parent s = some (some w, s) ∧
    rbDeleteRedSibling d parent (some w) s = some (some w', s₁) ∧
    ∃ next s₂, rbDeleteIter x parent s = some (some next, s₂)

/-- At every turn of the loop of `rb_delete_fixup` started at `x` and `parent` whose guard holds, so
that the deficit is still there, the turn finds what it needs. -/
def DeleteSafe (s : RbState κ δ) (x parent : Option Ptr) : Prop :=
  ∀ s' x' parent', Relation.ReflTransGen DeleteTurn (s, x, parent) (s', x', parent') →
    x' ≠ s'.root → isBlack x' s' = some (true, s') → SiblingsExist s' x' parent'

section Delete

variable {s : RbState κ δ} {q : Spine Ptr κ δ} {t : CTree Ptr κ δ}

/-- The invariant survives every turn. -/
theorem DeleteAt.turns (h : DeleteAt s q t) {b : RbState κ δ × Option Ptr × Option Ptr}
    (hrun : Relation.ReflTransGen DeleteTurn (s, t.ptr, q.ptr) b) :
    ∃ q' t', b.2 = (t'.ptr, q'.ptr) ∧ DeleteAt b.1 q' t' := by
  induction hrun with
  | refl => exact ⟨q, t, rfl, h⟩
  | @tail b c _ hturn ih =>
    obtain ⟨q₁, t₁, hx₁, h₁⟩ := ih
    rw [DeleteTurn, hx₁] at hturn
    rcases deleteIter_spec h₁ with ⟨hend, -⟩ | ⟨s₂, q₂, t₂, hnext, h₂, -, -⟩
    · cases hend.symm.trans hturn
    · rw [hnext, Option.some.injEq, Prod.mk.injEq, Option.some.injEq] at hturn
      obtain ⟨hx₂, rfl⟩ := hturn
      exact ⟨q₂, t₂, hx₂.symm, h₂⟩

/-- A black subtree below the root that is short has a sibling, and so it has after the rotation. -/
theorem DeleteAt.siblings (h : DeleteAt s q t) (hroot : t.ptr ≠ s.root)
    (hblack : isBlack t.ptr s = some (true, s)) : SiblingsExist s t.ptr q.ptr := by
  have hq : q ≠ .top := by
    rintro rfl
    exact hroot h.focus.path.symm
  have cb : t.color = .black := by
    rw [h.focus.isBlack] at hblack
    simpa using hblack
  have hc : t.color ≠ .red := by
    rw [cb]
    exact nofun
  obtain ⟨-, n, ht, hok⟩ := (h.short.resolve_left fun htop => hq htop.1).resolve_left
    fun hred => hc hred.1
  have hiter := (deleteIter_spec h).resolve_left fun hend => (not_or.2 ⟨hq, hc⟩) hend.2
  obtain ⟨s₂, q₂, t₂, hnext, -⟩ := hiter
  match q, h.focus, hok, hnext with
  | .top, _, _, _ => exact absurd rfl hq
  | .step d p c e w q, hf, hok, hnext =>
    have hp := hf.mem_step
    have hside := deleteSide hf hok
    obtain ⟨s₁, c', w', q', hrun₁, -, -, hok', -⟩ := deleteRedSibling_spec hf hok
    obtain ⟨a, wp, wc, we, b, rfl⟩ := hok.bal_sibling.exists_join d
    obtain ⟨a', wp', wc', we', b', rfl⟩ := hok'.bal_sibling.exists_join d
    rw [CTree.ptr_join, CTree.ptr_join] at hrun₁
    refine ⟨p, d, wp, wp', s₁, rfl, ?_, ?_, ?_, hrun₁, _, s₂, hnext⟩
    · rw [Spine.ptr_step, rbDeleteSide, rbM_bind, childOf_apply, hp, Option.map_some,
        Option.bind_some]
      exact congrArg (fun d => some (d, s)) hside
    · rw [Spine.ptr_step, childOf_apply, hp, Option.map_some, joinNode_child]
    · rw [Spine.ptr_step, childOf_apply, hp, Option.map_some, joinNode_child_other,
        CTree.ptr_join]

theorem DeleteAt.safe (h : DeleteAt s q t) : DeleteSafe s t.ptr q.ptr := by
  intro s' x' parent' hrun hroot hblack
  obtain ⟨q₁, t₁, hx, h₁⟩ := h.turns hrun
  obtain ⟨rfl, rfl⟩ := Prod.mk.inj hx
  exact h₁.siblings hroot hblack

/-- Wherever `rb_delete` starts the fixup, the fixup finds what it needs. -/
theorem RbState.RedBlack.unlink [LinearOrder κ] {s s₁ s₂ : RbState κ δ} (hs : s.RedBlack) {key : κ}
    {z : Ptr} {x xParent : Option Ptr} (hsearch : rbSearch key s = some (some z, s₁))
    (hunlink : rbUnlink (some z) s₁ = some ((.black, x, xParent), s₂)) :
    DeleteSafe s₂ x xParent := by
  obtain ⟨T, hT, hvalid⟩ := hs
  rcases rbSearch_spec hT key with ⟨hnone, -⟩ | ⟨q, l, z', c, e, r, hfound, -, rfl⟩
  · cases hnone.symm.trans hsearch
  · rw [hfound, Option.some.injEq, Prod.mk.injEq, Option.some.injEq] at hsearch
    obtain ⟨rfl, rfl⟩ := hsearch
    obtain ⟨s', q', t', col, hrun, h', -, -, hdef⟩ := rbUnlink_spec (focus_plug.2 hT) hvalid
    rw [hrun, Option.some.injEq, Prod.mk.injEq, Prod.mk.injEq, Prod.mk.injEq] at hunlink
    obtain ⟨⟨rfl, rfl, rfl⟩, rfl⟩ := hunlink
    exact DeleteAt.safe ⟨h', .inr (hdef rfl)⟩

theorem RbState.RedBlack.delete [LinearOrder κ] {s : RbState κ δ} (hs : s.RedBlack) (key : κ) :
    ∃ r s', rbDelete key s = some (r, s') := by
  obtain ⟨T, hT, hvalid⟩ := hs
  rcases rbDelete_spec hT hvalid key with ⟨hrun, -⟩ | ⟨s', T', z, d, l, r, hrun, -⟩
  · exact ⟨none, s, hrun⟩
  · exact ⟨some z, s', hrun⟩

end Delete

variable [LinearOrder κ]

/-- **The fixups terminate and never follow `NULL`.** In a red-black tree, hang a red node on any
`NULL` link: `rb_insert_color` ends, and at each of its turns the grandparent exists whenever the
parent is red. Delete any key: `rb_delete` ends, and at each turn of its fixup that still has a
deficit to resolve, the parent, the sibling and the sibling that replaces a red one exist, so that
no turn is left by a `break`. -/
theorem rbTree_never_follows_null {s : RbState κ δ} (hs : s.RedBlack) :
    (∀ link parent n nd, s.LeafPlace link parent → s.mem n = some nd → nd.color = .red →
      ¬s.Reach n →
        ∃ s₁ s₂, rbLinkNode (some n) parent link s = some ((), s₁) ∧
          rbInsertColor (some n) s₁ = some ((), s₂) ∧ InsertSafe s₁ (some n)) ∧
    ∀ key, (∃ r s', rbDelete key s = some (r, s')) ∧
      ∀ z x xParent s₁ s₂, rbSearch key s = some (some z, s₁) →
        rbUnlink (some z) s₁ = some ((.black, x, xParent), s₂) → DeleteSafe s₂ x xParent := by
  refine ⟨?_, fun key => ⟨hs.delete key, ?_⟩⟩
  · intro link parent n nd hleaf hn hred hout
    exact hs.insert hleaf hn hred hout
  · intro z x xParent s₁ s₂ hsearch hunlink
    exact hs.unlink hsearch hunlink

/-- Six insertions in increasing order of the keys: the sibling of the least node is red then. -/
def sixInserts : List (RbOp Nat Char) :=
  [.insert 0 1 'a', .insert 1 2 'b', .insert 2 3 'c', .insert 3 4 'd', .insert 4 5 'e',
    .insert 5 6 'f']

/-- Deleting the least node of six starts the fixup at a missing node. -/
theorem rbTree_never_follows_null_six :
    ∃ s s₁ s₂, RbOp.execAll sixInserts .empty = some s ∧ s.RedBlack ∧
      rbSearch 1 s = some (some 0, s₁) ∧ rbUnlink (some 0) s₁ = some ((.black, none, some 1), s₂) ∧
      DeleteSafe s₂ none (some 1) := by
  have hempty : Lists ([] : List (Ptr × Nat × Char)) fun _ => none := by
    intro k d
    simp
  obtain ⟨s, l, hrun, h, -⟩ := Indexed.empty.execAll hempty sixInserts (by decide)
  obtain ⟨T, hf, hT, -⟩ := h.tree
  have hs : s.RedBlack := ⟨T, hf, hT⟩
  have hfound : (RbOp.execAll sixInserts .empty).bind (fun s => (rbSearch 1 s).map Prod.fst) =
      some (some 0) := by decide
  have hout : (RbOp.execAll sixInserts .empty).bind (fun s => (rbSearch 1 s).bind fun r =>
      (rbUnlink r.1 r.2).map Prod.fst) = some (.black, none, some 1) := by decide
  rw [hrun, Option.bind_some] at hfound hout
  obtain ⟨⟨_, s₁⟩, hsearch, rfl⟩ := Option.map_eq_some_iff.1 hfound
  rw [hsearch, Option.bind_some] at hout
  obtain ⟨⟨_, s₂⟩, hunlink, rfl⟩ := Option.map_eq_some_iff.1 hout
  refine ⟨s, s₁, s₂, hrun, hs, hsearch, hunlink, ?_⟩
  exact ((rbTree_never_follows_null hs).2 1).2 0 none (some 1) s₁ s₂ hsearch hunlink

end Memlog
