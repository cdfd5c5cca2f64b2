import Memlog.RbTree.Unlink

/-!
# The tree refines a finite map

`Indexed s l`: the state is a well-formed red-black tree whose cells, in order, are `l`. Every
operation of the source runs on such a state and leaves such a state (`Indexed.insert`,
`Indexed.delete`, `Indexed.searchLeq`), and an index can be read off the memory alone: by walking
the links (`entries`), by following them (`Reach`), and by comparing them with the parent pointers
(`ParentLinks`). A whole run of operations is then compared with the finite map that the operations
are meant to compute.
-/

namespace Memlog

open Lib

variable {κ δ : Type}

/-! ## Reading the memory -/

namespace RbState

/-- The entries of the subtree at a pointer, in order. -/
def inorder (s : RbState κ δ) : Nat → Option Ptr → Option (List (κ × δ))
  | _, none => some []
  | 0, some _ => none
  | fuel + 1, some p => do
    let nd ← s.mem p
    let l ← s.inorder fuel nd.left
    let r ← s.inorder fuel nd.right
    return l ++ (nd.key, nd.data) :: r

/-- The in-order sequence of the tree. -/
def entries (s : RbState κ δ) : Option (List (κ × δ)) := s.inorder s.size s.root

/-- The nodes that can be reached from the root along child links. -/
inductive Reach (s : RbState κ δ) : Ptr → Prop where
  | root {p : Ptr} (h : s.root = some p) : Reach s p
  | child {p q : Ptr} {nd : RbNode κ δ} {d : Side} (hp : Reach s p) (hnd : s.mem p = some nd)
      (hq : nd.child d = some q) : Reach s q

/-- The parent pointers are the inverse of the child links. -/
structure ParentLinks (s : RbState κ δ) : Prop where
  alloc : ∀ {p}, s.Reach p → ∃ nd, s.mem p = some nd
  child : ∀ {p q nd nq d}, s.Reach p → s.mem p = some nd → nd.child d = some q →
    s.mem q = some nq → nq.parent = some p
  parent : ∀ {p q nq}, s.Reach q → s.mem q = some nq → nq.parent = some p →
    ∃ nd d, s.Reach p ∧ s.mem p = some nd ∧ nd.child d = some q
  root : ∀ {q nq}, s.Reach q → s.mem q = some nq → (nq.parent = none ↔ s.root = some q)

end RbState

/-! ## Indexed states -/

/-- A well-formed red-black tree with the cells `l`. -/
structure Indexed [LinearOrder κ] (s : RbState κ δ) (l : List (Ptr × κ × δ)) : Prop where
  tree : ∃ T, Focus s .top T ∧ T.Valid ∧ T.cells = l
  ordered : Ordered l

section Walk

variable {s : RbState κ δ} {T : CTree Ptr κ δ}

theorem inorder_spec {t : CTree Ptr κ δ} {par : Option Ptr} (h : Rep s.mem par t) {fuel : Nat}
    (hfuel : t.cells.length ≤ fuel) : s.inorder fuel t.ptr = some (t.cells.map (·.2)) := by
  induction t generalizing par fuel with
  | nil => cases fuel <;> rfl
  | node l p c e r ihl ihr =>
    obtain ⟨hp, hl, hr⟩ := h
    rw [CTree.cells_node, List.length_append, List.length_cons] at hfuel
    obtain ⟨fuel, rfl⟩ : ∃ k, fuel = k + 1 := ⟨fuel - 1, by omega⟩
    have hlf : l.cells.length ≤ fuel := by omega
    have hrf : r.cells.length ≤ fuel := by omega
    simp [RbState.inorder, hp, ihl hl hlf, ihr hr hrf]

/-- The focus can be put on any cell of the tree. -/
theorem Focus.at_cell (h : Focus s .top T) {x : Ptr × κ × δ} (hx : x ∈ T.cells) :
    ∃ (q : Spine Ptr κ δ) (l : CTree Ptr κ δ) (c : Color) (r : CTree Ptr κ δ),
      Focus s q (.node l x.1 c x.2 r) ∧ T = q.plug (.node l x.1 c x.2 r) := by
  obtain ⟨q, l, c, r, hplug⟩ := Spine.exists_plug hx .top
  have hT : T = q.plug (.node l x.1 c x.2 r) := hplug
  rw [hT] at h
  exact ⟨q, l, c, r, focus_plug.2 h, hT⟩

theorem Focus.at_id (h : Focus s .top T) {p : Ptr} (hp : p ∈ T.ids) :
    ∃ (q : Spine Ptr κ δ) (l : CTree Ptr κ δ) (c : Color) (e : κ × δ) (r : CTree Ptr κ δ),
      Focus s q (.node l p c e r) ∧ T = q.plug (.node l p c e r) := by
  obtain ⟨x, hx, rfl⟩ := List.mem_map.1 hp
  obtain ⟨q, l, c, r, hfocus⟩ := h.at_cell hx
  exact ⟨q, l, c, x.2, r, hfocus⟩

theorem Focus.reach {q : Spine Ptr κ δ} {d : Side} {a b : CTree Ptr κ δ} {p : Ptr} {c : Color}
    {e : κ × δ} (h : Focus s q (.join d a p c e b)) : s.Reach p := by
  induction q generalizing d a b p c e with
  | top =>
    have hroot : s.root = (CTree.join d a p c e b).ptr := h.path
    rw [CTree.ptr_join] at hroot
    exact .root hroot
  | step d' p' c' e' u q ih =>
    refine .child (d := d') (ih (focus_up.1 h)) h.mem_step ?_
    rw [joinNode_child, CTree.ptr_join]

/-- The reachable nodes are those of the tree. -/
theorem Focus.reach_iff (h : Focus s .top T) {p : Ptr} : s.Reach p ↔ p ∈ T.ids := by
  constructor
  · intro hp
    induction hp with
    | root hroot => exact CTree.ptr_mem_ids ((show s.root = T.ptr from h.path).symm.trans hroot)
    | @child p x nd d _ hnd hx ih =>
      obtain ⟨q, l, c, e, r, hf, rfl⟩ := h.at_id ih
      rw [hf.tree.1, Option.some.injEq] at hnd
      subst hnd
      rw [Spine.mem_ids_plug, CTree.ids_node, List.mem_append, List.mem_cons]
      cases d with
      | left => exact .inr (.inl (CTree.ptr_mem_ids hx))
      | right => exact .inr (.inr (.inr (CTree.ptr_mem_ids hx)))
  · intro hp
    obtain ⟨q, l, c, e, r, hf, -⟩ := h.at_id hp
    exact Focus.reach (d := .left) hf

/-- A subtree's root points back to the node above it. -/
theorem Rep.parent_eq {m : Ptr → Option (RbNode κ δ)} {par : Option Ptr} {t : CTree Ptr κ δ}
    (h : Rep m par t) {x : Ptr} {nd : RbNode κ δ} (hx : t.ptr = some x) (hnd : m x = some nd) :
    nd.parent = par := by
  cases t with
  | nil => cases hx
  | node l p c e r =>
    cases hx
    rw [h.1, Option.some.injEq] at hnd
    rw [← hnd]

theorem Focus.parentLinks (h : Focus s .top T) : s.ParentLinks where
  alloc hp := h.tree.mem _ (h.reach_iff.1 hp)
  child {p x nd nx d} hp hnd hx hnx := by
    obtain ⟨q, l, c, e, r, hf, -⟩ := h.at_id (h.reach_iff.1 hp)
    rw [hf.tree.1, Option.some.injEq] at hnd
    subst hnd
    cases d with
    | left => exact hf.tree.2.1.parent_eq hx hnx
    | right => exact hf.tree.2.2.parent_eq hx hnx
  parent {p x nx} hx hnx hpar := by
    obtain ⟨q, l, c, e, r, hf, -⟩ := h.at_id (h.reach_iff.1 hx)
    rw [hf.tree.1, Option.some.injEq] at hnx
    subst hnx
    cases q with
    | top => cases hpar
    | step d p' c' e' u q =>
      cases hpar
      refine ⟨_, d, (focus_up.1 hf).reach, hf.mem_step, ?_⟩
      rw [joinNode_child, CTree.ptr_node]
  root {x nx} hx hnx := by
    obtain ⟨q, l, c, e, r, hf, -⟩ := h.at_id (h.reach_iff.1 hx)
    rw [hf.tree.1, Option.some.injEq] at hnx
    subst hnx
    cases q with
    | top => exact ⟨fun _ => hf.path, fun _ => rfl⟩
    | step d p' c' e' u q =>
      refine ⟨(fun hn => by cases hn), fun hroot => ?_⟩
      exact absurd hroot.symm hf.ptr_ne_root

end Walk

/-! ## The operations on indexed states -/

section Indexed

variable [LinearOrder κ] {s : RbState κ δ} {l : List (Ptr × κ × δ)}

theorem Indexed.empty : Indexed (.empty : RbState κ δ) [] where
  tree := ⟨.nil, ⟨rfl, trivial, by simp [Spine.plug]⟩, ⟨rfl, 0, .nil⟩, rfl⟩
  ordered := List.Pairwise.nil

theorem Indexed.entries (h : Indexed s l) : s.entries = some (l.map (·.2)) := by
  obtain ⟨T, hf, -, rfl⟩ := h.tree
  have hroot : s.root = T.ptr := hf.path
  have hlen := hf.length_le_size
  rw [Spine.plug, CTree.ids, List.length_map] at hlen
  rw [RbState.entries, hroot, inorder_spec hf.tree hlen]

theorem Indexed.parentLinks (h : Indexed s l) : s.ParentLinks := by
  obtain ⟨T, hf, -, -⟩ := h.tree
  exact hf.parentLinks

theorem Indexed.reach_iff (h : Indexed s l) {p : Ptr} : s.Reach p ↔ p ∈ l.map (·.1) := by
  obtain ⟨T, hf, -, rfl⟩ := h.tree
  exact hf.reach_iff

/-- The object of a cell holds its entry. -/
theorem Indexed.mem (h : Indexed s l) {p : Ptr} {k : κ} {d : δ} (hx : (p, k, d) ∈ l) :
    ∃ nd, s.mem p = some nd ∧ nd.key = k ∧ nd.data = d := by
  obtain ⟨T, hf, -, rfl⟩ := h.tree
  obtain ⟨q, tl, c, tr, hfocus, -⟩ := hf.at_cell hx
  exact ⟨_, hfocus.tree.1, rfl, rfl⟩

theorem Indexed.nodup (h : Indexed s l) : (l.map (·.1)).Nodup := by
  obtain ⟨T, hf, -, rfl⟩ := h.tree
  exact hf.nodup

theorem Indexed.searchLeq (h : Indexed s l) (key : κ) :
    rbSearchLeq key s = some ((lastLeq key l).map (·.1), s) := by
  obtain ⟨T, hf, -, rfl⟩ := h.tree
  exact rbSearchLeq_spec hf h.ordered key

/-- An insertion leaves an index as it is if the key is present, and else adds the new cell. -/
theorem Indexed.insert (h : Indexed s l) {n : Ptr} (hn : s.mem n = none) (key : κ) (data : δ) :
    ∃ s' l', insertBlockRb n key data s = some ((), s') ∧ Indexed s' l' ∧
      ((l' = l ∧ ∃ x ∈ l, x.2.1 = key) ∨
        ∃ a b, l = a ++ b ∧ l' = a ++ (n, key, data) :: b ∧ (∀ x ∈ a, x.2.1 < key) ∧
          ∀ x ∈ b, key < x.2.1) := by
  obtain ⟨T, hf, hT, rfl⟩ := h.tree
  obtain ⟨s', T', hrun, hf', hT', hcase⟩ := insertBlockRb_spec hf hT h.ordered hn key data
  refine ⟨s', T'.cells, hrun, ⟨⟨T', hf', hT', rfl⟩, ?_⟩, hcase⟩
  have ho := h.ordered
  rcases hcase with ⟨hcells, -⟩ | ⟨a, b, hl, hl', ha, hb⟩
  · rwa [hcells]
  · rw [hl] at ho
    obtain ⟨hoa, hob, hab⟩ := List.pairwise_append.1 ho
    rw [hl']
    refine List.pairwise_append.2 ⟨hoa, List.pairwise_cons.2 ⟨hb, hob⟩, fun x hx y hy => ?_⟩
    rcases List.mem_cons.1 hy with rfl | hy
    · exact ha x hx
    · exact hab x hx y hy

/-- A deletion takes out the cell with the key, if there is one, and returns its node. -/
theorem Indexed.delete (h : Indexed s l) (key : κ) :
    (rbDelete key s = some (none, s) ∧ ∀ x ∈ l, x.2.1 ≠ key) ∨
      ∃ s' z d a b, rbDelete key s = some (some z, s') ∧ l = a ++ (z, key, d) :: b ∧
        Indexed s' (a ++ b) := by
  obtain ⟨T, hf, hT, rfl⟩ := h.tree
  rcases rbDelete_spec hf hT key with
    ⟨hrun, hne⟩ | ⟨s', T', z, d, a, b, hrun, hf', hT', hl, hl'⟩
  · exact .inl ⟨hrun, hne h.ordered⟩
  · refine .inr ⟨s', z, d, a, b, hrun, hl, ⟨T', hf', hT', hl'⟩, ?_⟩
    have ho := h.ordered
    rw [hl] at ho
    exact ho.sublist (List.Sublist.append_left (List.sublist_cons_self ..) a)

/-- Freeing an object outside the tree. -/
theorem Indexed.free (h : Indexed s l) {p : Ptr} (hp : p ∉ l.map (·.1)) : Indexed (s.free p) l := by
  obtain ⟨T, hf, hT, rfl⟩ := h.tree
  refine ⟨⟨T, ⟨hf.path, ?_, hf.nodup⟩, hT, rfl⟩, h.ordered⟩
  refine hf.tree.frame fun x hx => ?_
  have hxp : x ≠ p := fun hxp => hp (hxp ▸ hx)
  simp [hxp]

end Indexed

/-! ## Runs -/

/-- A call on the tree. `insert n key data` is `insert_block_rb` of a block with payload `key`,
where `VG_(malloc)` returns `n` for a new node; `delete key release` is `rb_delete`, after which the
caller frees the node it got (`release`) or keeps it. -/
inductive RbOp (κ δ : Type) where
  | insert (n : Ptr) (key : κ) (data : δ)
  | delete (key : κ) (release : Bool)

section Runs

variable [LinearOrder κ]

namespace RbOp

def exec : RbOp κ δ → RbState κ δ → Option (RbState κ δ)
  | insert n key data, s => (insertBlockRb n key data s).map (·.2)
  | delete key release, s => (rbDelete key s).map fun r =>
    match r.1, release with
    | some z, true => r.2.free z
    | _, _ => r.2

def execAll : List (RbOp κ δ) → RbState κ δ → Option (RbState κ δ)
  | [], s => some s
  | op :: ops, s => (op.exec s).bind (execAll ops)

/-- `VG_(malloc)` returns no address that is in use. -/
def fresh : RbOp κ δ → RbState κ δ → Bool
  | insert n _ _, s => (s.mem n).isNone
  | delete _ _, _ => true

/-- Every allocation of a run returns a fresh address. -/
def freshAll : List (RbOp κ δ) → RbState κ δ → Bool
  | [], _ => true
  | op :: ops, s => op.fresh s && (op.exec s).all (freshAll ops)

/-- What a call means for the finite map: add unless the key is present, remove the key. -/
def update (m : κ → Option δ) : RbOp κ δ → κ → Option δ
  | insert _ key data => if (m key).isSome then m else Function.update m key (some data)
  | delete key _ => Function.update m key none

/-- The finite map after a run from the empty one. -/
def meaning (ops : List (RbOp κ δ)) : κ → Option δ := ops.foldl update fun _ => none

end RbOp

/-- The cells list exactly the entries of the map. -/
def Lists (l : List (Ptr × κ × δ)) (m : κ → Option δ) : Prop :=
  ∀ k d, (∃ p, (p, k, d) ∈ l) ↔ m k = some d

variable {s : RbState κ δ} {l : List (Ptr × κ × δ)} {m : κ → Option δ}

omit [LinearOrder κ] in
theorem Lists.isSome (h : Lists l m) {key : κ} : (m key).isSome ↔ ∃ x ∈ l, x.2.1 = key := by
  rw [Option.isSome_iff_exists]
  constructor
  · rintro ⟨d, hd⟩
    obtain ⟨p, hp⟩ := (h key d).2 hd
    exact ⟨_, hp, rfl⟩
  · rintro ⟨⟨p, k, d⟩, hx, rfl⟩
    exact ⟨d, (h k d).1 ⟨p, hx⟩⟩

omit [LinearOrder κ] in
theorem Lists.eq_none (h : Lists l m) {key : κ} : m key = none ↔ ∀ x ∈ l, x.2.1 ≠ key := by
  rw [← Option.not_isSome_iff_eq_none, h.isSome]
  push Not
  rfl

theorem Lists.insert {a b : List (Ptr × κ × δ)} (h : Lists (a ++ b) m) {key : κ} {n : Ptr}
    {data : δ} (hne : ∀ x ∈ a ++ b, x.2.1 ≠ key) :
    Lists (a ++ (n, key, data) :: b) (Function.update m key (some data)) := by
  intro k d
  have hmem : ∀ p, (p, k, d) ∈ a ++ (n, key, data) :: b ↔
      (p, k, d) = (n, key, data) ∨ (p, k, d) ∈ a ++ b := by
    intro p
    simp only [List.mem_append, List.mem_cons]
    tauto
  by_cases hk : k = key
  · subst hk
    rw [Function.update_self, Option.some.injEq]
    constructor
    · rintro ⟨p, hp⟩
      rcases (hmem p).1 hp with heq | hp
      · exact (congrArg (·.2.2) heq).symm
      · exact absurd rfl (hne _ hp)
    · rintro rfl
      exact ⟨n, (hmem n).2 (.inl rfl)⟩
  · rw [Function.update_of_ne hk, ← h k d]
    refine exists_congr fun p => (hmem p).trans (or_iff_right fun heq => hk ?_)
    exact congrArg (·.2.1) heq

theorem Lists.delete {a b : List (Ptr × κ × δ)} {z : Ptr} {key : κ} {data : δ}
    (h : Lists (a ++ (z, key, data) :: b) m) (hne : ∀ x ∈ a ++ b, x.2.1 ≠ key) :
    Lists (a ++ b) (Function.update m key none) := by
  intro k d
  by_cases hk : k = key
  · subst hk
    rw [Function.update_self]
    constructor
    · rintro ⟨p, hp⟩
      exact absurd rfl (hne _ hp)
    · intro hd
      cases hd
  · rw [Function.update_of_ne hk, ← h k d]
    refine exists_congr fun p => ?_
    simp only [List.mem_append, List.mem_cons, Prod.mk.injEq, hk, false_and, and_false, false_or]

/-- The key of a cell occurs once. -/
theorem Ordered.key_ne {a b : List (Ptr × κ × δ)} {x : Ptr × κ × δ} (h : Ordered (a ++ x :: b)) :
    ∀ y ∈ a ++ b, y.2.1 ≠ x.2.1 := by
  obtain ⟨-, hxb, hax⟩ := List.pairwise_append.1 h
  intro y hy
  rcases List.mem_append.1 hy with hy | hy
  · exact (hax y hy x (by simp)).ne
  · exact ((List.pairwise_cons.1 hxb).1 y hy).ne'

/-- The node of a cell occurs once. -/
theorem Indexed.not_mem_of_delete {a b : List (Ptr × κ × δ)} {x : Ptr × κ × δ}
    (h : Indexed s (a ++ x :: b)) : x.1 ∉ (a ++ b).map (·.1) := by
  have hn := h.nodup
  rw [List.map_append, List.map_cons, List.nodup_append, List.nodup_cons] at hn
  rw [List.map_append, List.mem_append, not_or]
  exact ⟨fun hx => hn.2.2 _ hx _ (by simp) rfl, hn.2.1.1⟩

/-- **One call** keeps the index and follows the meaning of the call. -/
theorem Indexed.exec (h : Indexed s l) (hm : Lists l m) (op : RbOp κ δ) (hop : op.fresh s) :
    ∃ s' l', op.exec s = some s' ∧ Indexed s' l' ∧ Lists l' (op.update m) := by
  cases op with
  | insert n key data =>
    obtain ⟨s', l', hrun, h', hcase⟩ := h.insert (Option.isNone_iff_eq_none.1 hop) key data
    refine ⟨s', l', by rw [RbOp.exec, hrun]; rfl, h', ?_⟩
    rcases hcase with ⟨rfl, hkey⟩ | ⟨a, b, rfl, rfl, ha, hb⟩
    · rwa [RbOp.update, if_pos (hm.isSome.2 hkey)]
    · have hne : ∀ x ∈ a ++ b, x.2.1 ≠ key := by
        intro x hx
        rcases List.mem_append.1 hx with hx | hx
        · exact (ha x hx).ne
        · exact (hb x hx).ne'
      have habs : ¬(m key).isSome := by
        rw [hm.isSome]
        rintro ⟨x, hx, hkey⟩
        exact hne x hx hkey
      rw [RbOp.update, if_neg habs]
      exact hm.insert hne
  | delete key release =>
    rcases h.delete key with ⟨hrun, hne⟩ | ⟨s', z, d, a, b, hrun, rfl, h'⟩
    · refine ⟨s, l, by rw [RbOp.exec, hrun]; cases release <;> rfl, h, ?_⟩
      have hnone : m key = none := hm.eq_none.2 hne
      rwa [RbOp.update, Function.update_eq_self_iff.2 hnone.symm]
    · have hz : z ∉ (a ++ b).map (·.1) := h.not_mem_of_delete
      have hlists := hm.delete h.ordered.key_ne
      cases release with
      | true => exact ⟨s'.free z, _, by rw [RbOp.exec, hrun]; rfl, h'.free hz, hlists⟩
      | false => exact ⟨s', _, by rw [RbOp.exec, hrun]; rfl, h', hlists⟩

theorem Indexed.execAll (h : Indexed s l) (hm : Lists l m) (ops : List (RbOp κ δ))
    (hops : RbOp.freshAll ops s) :
    ∃ s' l', RbOp.execAll ops s = some s' ∧ Indexed s' l' ∧ Lists l' (ops.foldl RbOp.update m) := by
  induction ops generalizing s l m with
  | nil => exact ⟨s, l, rfl, h, hm⟩
  | cons op ops ih =>
    rw [RbOp.freshAll, Bool.and_eq_true] at hops
    obtain ⟨s₁, l₁, hrun₁, h₁, hm₁⟩ := h.exec hm op hops.1
    rw [hrun₁, Option.all_some] at hops
    obtain ⟨s₂, l₂, hrun₂, h₂, hm₂⟩ := ih h₁ hm₁ hops.2
    refine ⟨s₂, l₂, ?_, h₂, hm₂⟩
    rw [RbOp.execAll, hrun₁]
    exact hrun₂

/-- **The tree refines the finite map.** From the empty tree, every run of insertions and deletions
whose allocations are fresh goes through. The in-order sequence is the map in strictly increasing
key order, parent pointers invert child links, a further `rb_delete` returns exactly the node that
holds the key and unlinks it, and `rb_search_leq` returns the node with the largest key not above
its argument. -/
theorem rbTree_refines_map (ops : List (RbOp κ δ)) (hops : RbOp.freshAll ops .empty) :
    ∃ s, RbOp.execAll ops .empty = some s ∧
      (∃ l, s.entries = some l ∧ l.Pairwise (fun x y => x.1 < y.1) ∧
        ∀ k d, (k, d) ∈ l ↔ RbOp.meaning ops k = some d) ∧
      s.ParentLinks ∧
      (∀ k, ∃ r s', rbDelete k s = some (r, s') ∧ (r = none ↔ RbOp.meaning ops k = none) ∧
        ∀ z, r = some z →
          (∃ nd, s.Reach z ∧ s.mem z = some nd ∧ nd.key = k ∧
            RbOp.meaning ops k = some nd.data) ∧ ¬s'.Reach z) ∧
      ∀ a, ∃ r, rbSearchLeq a s = some (r, s) ∧
        (r = none ↔ ∀ k, RbOp.meaning ops k ≠ none → a < k) ∧
        ∀ p, r = some p → ∃ nd, s.Reach p ∧ s.mem p = some nd ∧ nd.key ≤ a ∧
          RbOp.meaning ops nd.key = some nd.data ∧
          ∀ k, RbOp.meaning ops k ≠ none → k ≤ a → k ≤ nd.key := by
  have hempty : Lists ([] : List (Ptr × κ × δ)) fun _ => none := by
    intro k d
    simp
  obtain ⟨s, l, hrun, h, hm⟩ := Indexed.empty.execAll hempty ops hops
  have hm : Lists l (RbOp.meaning ops) := hm
  refine ⟨s, hrun, ⟨_, h.entries, ?_, ?_⟩, h.parentLinks, fun k => ?_, fun a => ?_⟩
  · exact List.pairwise_map.2 h.ordered
  · intro k d
    rw [← hm k d, List.mem_map]
    constructor
    · rintro ⟨⟨p, k', d'⟩, hx, heq⟩
      cases heq
      exact ⟨p, hx⟩
    · rintro ⟨p, hp⟩
      exact ⟨_, hp, rfl⟩
  · rcases h.delete k with ⟨hdel, hne⟩ | ⟨s', z, d, a, b, hdel, rfl, h'⟩
    · exact ⟨none, s, hdel, ⟨fun _ => hm.eq_none.2 hne, fun _ => rfl⟩, fun z hz => by cases hz⟩
    · have hmem : (z, k, d) ∈ a ++ (z, k, d) :: b := by simp
      have hkd : RbOp.meaning ops k = some d := (hm k d).1 ⟨z, hmem⟩
      refine ⟨some z, s', hdel, ?_, ?_⟩
      · rw [hkd]
        simp
      · intro z' hz'
        cases hz'
        obtain ⟨nd, hnd, hkey, hdata⟩ := h.mem hmem
        refine ⟨⟨nd, h.reach_iff.2 (List.mem_map.2 ⟨_, hmem, rfl⟩), hnd, hkey, ?_⟩, ?_⟩
        · rw [hkd, hdata]
        · rw [h'.reach_iff]
          exact h.not_mem_of_delete
  · refine ⟨_, h.searchLeq a, ?_, fun p hp => ?_⟩
    · rw [Option.map_eq_none_iff, lastLeq_eq_none]
      constructor
      · intro hl k hk
        obtain ⟨x, hx, rfl⟩ := hm.isSome.1 (Option.isSome_iff_ne_none.2 hk)
        exact hl x hx
      · intro hl x hx
        exact hl x.2.1 (Option.isSome_iff_ne_none.1 (hm.isSome.2 ⟨x, hx, rfl⟩))
    · obtain ⟨⟨p', k, d⟩, hx, rfl⟩ := Option.map_eq_some_iff.1 hp
      obtain ⟨hmem, hle, hmax⟩ := lastLeq_eq_some h.ordered hx
      obtain ⟨nd, hnd, rfl, rfl⟩ := h.mem hmem
      refine ⟨nd, h.reach_iff.2 (List.mem_map.2 ⟨_, hmem, rfl⟩), hnd, hle,
        (hm _ _).1 ⟨p', hmem⟩, fun k hk hka => ?_⟩
      obtain ⟨y, hy, rfl⟩ := hm.isSome.1 (Option.isSome_iff_ne_none.2 hk)
      exact hmax y hy hka

end Runs

/-- A run with a repeated key, a deletion of a node with two children and a reused address. -/
theorem rbTree_refines_map_mixed :
    RbOp.freshAll [.insert 0 5 'a', .insert 1 3 'b', .insert 2 8 'c', .insert 3 3 'd',
      .delete 5 true, .insert 0 4 'e'] (.empty : RbState Nat Char) ∧
    ∃ s, RbOp.execAll [.insert 0 5 'a', .insert 1 3 'b', .insert 2 8 'c', .insert 3 3 'd',
        .delete 5 true, .insert 0 4 'e'] (.empty : RbState Nat Char) = some s ∧
      s.ParentLinks := by
  refine ⟨by decide, ?_⟩
  obtain ⟨s, hrun, -, hlinks, -⟩ := rbTree_refines_map
    [.insert 0 5 'a', .insert 1 3 'b', .insert 2 8 'c', .insert 3 3 'd', .delete 5 true,
      .insert 0 4 'e'] (by decide : RbOp.freshAll _ (.empty : RbState Nat Char))
  exact ⟨s, hrun, hlinks⟩

end Memlog
