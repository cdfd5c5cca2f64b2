import Mathlib.Analysis.SpecialFunctions.Log.Base
import Memlog.RbTree.Refine

/-!
# The tree stays balanced

The red-black invariant that `Indexed` carries, read off the memory: along the child links of the
nodes (`RbState.Path`) the root is black, no red node has a red child and every way down to `NULL`
meets the same number of black nodes. A way down is then at most twice as long as the logarithm of
the number of nodes (`rbTree_balanced`), and so is a search.
-/

namespace Memlog

open Lib

variable {κ δ : Type}

namespace RbState

/-- The nodes on a way from a pointer down to `NULL`. -/
inductive Path (s : RbState κ δ) : Option Ptr → List (RbNode κ δ) → Prop where
  | done : Path s none []
  | step {p : Ptr} {nd : RbNode κ δ} {d : Side} {nds : List (RbNode κ δ)} (hnd : s.mem p = some nd)
      (hrest : Path s (nd.child d) nds) : Path s (some p) (nd :: nds)

/-- The number of black nodes. -/
def blackCount (nds : List (RbNode κ δ)) : Nat := nds.countP fun nd => nd.color = .black

/-- The red-black properties of the nodes in memory. -/
structure Balanced (s : RbState κ δ) : Prop where
  root : ∀ {p nd}, s.root = some p → s.mem p = some nd → nd.color = .black
  red : ∀ {p nd q nq d}, s.Reach p → s.mem p = some nd → nd.color = .red → nd.child d = some q →
    s.mem q = some nq → nq.color = .black
  black : ∀ {nds nds'}, s.Path s.root nds → s.Path s.root nds' → blackCount nds = blackCount nds'

end RbState

section Path

variable {s : RbState κ δ} {t : CTree Ptr κ δ} {par : Option Ptr} {nds : List (RbNode κ δ)}
  {n : Nat}

/-- A way down a linked tree, one step at a time. -/
theorem Rep.path_cases {l r : CTree Ptr κ δ} {p : Ptr} {c : Color} {e : κ × δ}
    (h : Rep s.mem par (.node l p c e r)) (hpath : s.Path (some p) nds) :
    ∃ nd rest, nds = nd :: rest ∧ nd.color = c ∧ (s.Path l.ptr rest ∨ s.Path r.ptr rest) := by
  cases hpath with
  | @step _ nd d rest hnd hrest =>
    rw [h.1, Option.some.injEq] at hnd
    subst hnd
    refine ⟨_, rest, rfl, rfl, ?_⟩
    cases d with
    | left => exact .inl hrest
    | right => exact .inr hrest

theorem Rep.length_path (h : Rep s.mem par t) (hpath : s.Path t.ptr nds) :
    nds.length ≤ t.height := by
  induction t generalizing par nds with
  | nil =>
    cases hpath
    exact Nat.le_refl 0
  | node l p c e r ihl ihr =>
    obtain ⟨nd, rest, rfl, -, hrest⟩ := h.path_cases hpath
    rw [List.length_cons, CTree.height]
    rcases hrest with hrest | hrest
    · have := ihl h.2.1 hrest
      omega
    · have := ihr h.2.2 hrest
      omega

/-- Every way down meets as many black nodes as the black height says. -/
theorem Rep.blackCount_path (h : Rep s.mem par t) (hbal : t.Bal n) (hpath : s.Path t.ptr nds) :
    RbState.blackCount nds = n := by
  induction hbal generalizing par nds with
  | nil =>
    cases hpath
    rfl
  | red _ _ _ _ ihl ihr =>
    obtain ⟨nd, rest, rfl, hc, hrest⟩ := h.path_cases hpath
    rw [RbState.blackCount, List.countP_cons_of_neg (by simp [hc])]
    rcases hrest with hrest | hrest
    · exact ihl h.2.1 hrest
    · exact ihr h.2.2 hrest
  | black _ _ ihl ihr =>
    obtain ⟨nd, rest, rfl, hc, hrest⟩ := h.path_cases hpath
    rw [RbState.blackCount, List.countP_cons_of_pos (by simp [hc])]
    rcases hrest with hrest | hrest
    · exact congrArg (· + 1) (ihl h.2.1 hrest)
    · exact congrArg (· + 1) (ihr h.2.2 hrest)

/-- The root of a linked tree has the colour of the tree. -/
theorem Rep.color_root (h : Rep s.mem par t) {p : Ptr} {nd : RbNode κ δ} (hp : t.ptr = some p)
    (hnd : s.mem p = some nd) : nd.color = t.color := by
  cases t with
  | nil => cases hp
  | node l p' c e r =>
    cases hp
    rw [h.1, Option.some.injEq] at hnd
    subst hnd
    rfl

end Path

section Indexed

variable [LinearOrder κ] {s : RbState κ δ} {l : List (Ptr × κ × δ)}

/-- **An index is balanced.** -/
theorem Indexed.balanced (h : Indexed s l) : s.Balanced := by
  obtain ⟨T, hf, ⟨hcolor, n, hbal⟩, -⟩ := h.tree
  have hroot : s.root = T.ptr := hf.path
  constructor
  · intro p nd hp hnd
    rw [hf.tree.color_root (hroot ▸ hp) hnd, hcolor]
  · intro p nd q nq d hreach hnd hred hq hnq
    obtain ⟨sp, a, c, e, b, hfocus, rfl⟩ := hf.at_id (hf.reach_iff.1 hreach)
    rw [hfocus.tree.1, Option.some.injEq] at hnd
    subst hnd
    obtain ⟨k, -, hk, -⟩ := Spine.Ok.of_plug hbal hcolor
    obtain rfl : c = .red := hred
    cases hk with
    | red ha hb ca cb =>
      cases d with
      | left => rw [hfocus.tree.2.1.color_root hq hnq, ca]
      | right => rw [hfocus.tree.2.2.color_root hq hnq, cb]
  · intro nds nds' hnds hnds'
    rw [hroot] at hnds hnds'
    rw [hf.tree.blackCount_path hbal hnds, hf.tree.blackCount_path hbal hnds']

/-- The height of a balanced tree, without logarithms. -/
theorem Indexed.two_pow_height_le (h : Indexed s l) :
    ∃ T, Focus s .top T ∧ T.cells = l ∧ 2 ^ T.height ≤ (l.length + 1) ^ 2 := by
  obtain ⟨T, hf, ⟨hcolor, n, hbal⟩, rfl⟩ := h.tree
  refine ⟨T, hf, rfl, ?_⟩
  calc 2 ^ T.height ≤ 2 ^ (n * 2) :=
        Nat.pow_le_pow_right (by omega) (by have := hbal.height_le.2 hcolor; omega)
    _ = (2 ^ n) ^ 2 := pow_mul 2 n 2
    _ ≤ (T.cells.length + 1) ^ 2 := Nat.pow_le_pow_left hbal.two_pow_le 2

/-- **The height of an index is logarithmic** in the number of its nodes. -/
theorem Indexed.height_le (h : Indexed s l) :
    ∃ T, Focus s .top T ∧ T.cells = l ∧ (T.height : ℝ) ≤ 2 * Real.logb 2 (l.length + 1) := by
  obtain ⟨T, hf, hl, hpow⟩ := h.two_pow_height_le
  refine ⟨T, hf, hl, ?_⟩
  have hcast : (2 : ℝ) ^ T.height ≤ ((l.length : ℝ) + 1) ^ 2 := by exact_mod_cast hpow
  have hpos : (0 : ℝ) < (l.length : ℝ) + 1 := by positivity
  have hlog := Real.logb_le_logb_of_le (b := 2) (by norm_num) (by positivity) hcast
  rw [Real.logb_pow, Real.logb_pow, Real.logb_self_eq_one (by norm_num), mul_one] at hlog
  exact_mod_cast hlog

/-- A search needs as many turns as the tree is high. -/
theorem Indexed.searchLeq_turns (h : Indexed s l) (key : κ) {fuel : Nat}
    (hfuel : 2 * Real.logb 2 (l.length + 1) ≤ fuel) :
    rbSearchLeqLoop key fuel s.root none s = rbSearchLeq key s := by
  obtain ⟨T, hf, rfl, hheight⟩ := h.height_le
  have hroot : s.root = T.ptr := hf.path
  have hle : T.height ≤ fuel := by exact_mod_cast le_trans hheight hfuel
  rw [rbSearchLeq_spec hf h.ordered, hroot, searchLeqLoop_spec key hf.tree h.ordered hle,
    Option.or_none]

/-- **The tree stays balanced.** After every run of insertions and deletions from the empty tree,
the root is black, no red node has a red child, and all ways from the root to `NULL` meet equally
many black nodes. With `n` nodes no way down has more than `2 log₂ (n + 1)` of them, and
`rb_search_leq` ends after at most so many turns of its loop. -/
theorem rbTree_balanced (ops : List (RbOp κ δ)) (hops : RbOp.freshAll ops .empty) :
    ∃ s nodes, RbOp.execAll ops .empty = some s ∧ s.entries = some nodes ∧ s.Balanced ∧
      (∀ nds, s.Path s.root nds → (nds.length : ℝ) ≤ 2 * Real.logb 2 (nodes.length + 1)) ∧
      ∀ key, ∃ r, rbSearchLeq key s = some (r, s) ∧ ∀ fuel : Nat,
        2 * Real.logb 2 (nodes.length + 1) ≤ fuel →
          rbSearchLeqLoop key fuel s.root none s = some (r, s) := by
  have hempty : Lists ([] : List (Ptr × κ × δ)) fun _ => none := by
    intro k d
    simp
  obtain ⟨s, l, hrun, h, -⟩ := Indexed.empty.execAll hempty ops hops
  refine ⟨s, l.map (·.2), hrun, h.entries, h.balanced, ?_, ?_⟩
  · intro nds hnds
    obtain ⟨T, hf, rfl, hheight⟩ := h.height_le
    have hroot : s.root = T.ptr := hf.path
    rw [hroot] at hnds
    rw [List.length_map]
    exact le_trans (by exact_mod_cast hf.tree.length_path hnds) hheight
  · intro key
    refine ⟨_, h.searchLeq key, fun fuel hfuel => ?_⟩
    rw [List.length_map] at hfuel
    rw [h.searchLeq_turns key hfuel, h.searchLeq key]

end Indexed

/-- Keys in increasing order, the input that makes an unbalanced tree a list, and a deletion. -/
theorem rbTree_balanced_increasing :
    RbOp.freshAll [.insert 0 1 'a', .insert 1 2 'b', .insert 2 3 'c', .insert 3 4 'd',
      .insert 4 5 'e', .delete 1 true] (.empty : RbState Nat Char) ∧
    ∃ s, RbOp.execAll [.insert 0 1 'a', .insert 1 2 'b', .insert 2 3 'c', .insert 3 4 'd',
        .insert 4 5 'e', .delete 1 true] (.empty : RbState Nat Char) = some s ∧ s.Balanced := by
  have hfresh : RbOp.freshAll [.insert 0 1 'a', .insert 1 2 'b', .insert 2 3 'c', .insert 3 4 'd',
      .insert 4 5 'e', .delete 1 true] (.empty : RbState Nat Char) := by decide
  obtain ⟨s, nodes, hrun, -, hbal, -⟩ := rbTree_balanced _ hfresh
  exact ⟨hfresh, s, hrun, hbal⟩

end Memlog
