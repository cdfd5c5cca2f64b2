import Mathlib.Algebra.Group.Nat.Defs
import Mathlib.Data.List.Basic
import Mathlib.Order.Lattice
import Mathlib.Tactic.Tauto

/-!
# Coloured binary trees and their one-hole contexts

A tree whose nodes carry an identity `ι`, a colour and an entry `κ × δ`, and the path from a
position of such a tree up to its root. The in-order list of cells is the tree's content; a rotation
or a recolouring is correct when it leaves that list unchanged.

Balance is stated twice: `CTree.Bal t n` for a tree of black height `n`, and `Spine.Ok q n` for a
context whose hole expects black height `n`. An update below a path is then judged at the hole only
(`Spine.Ok.plug`).
-/

namespace Memlog.Lib

inductive Color where
  | red
  | black
deriving DecidableEq, Repr

/-- A binary tree; every node has an identity, a colour and an entry. -/
inductive CTree (ι κ δ : Type) where
  | nil
  | node (l : CTree ι κ δ) (p : ι) (c : Color) (e : κ × δ) (r : CTree ι κ δ)

inductive Side where
  | left
  | right
deriving DecidableEq, Repr

def Side.other : Side → Side
  | left => right
  | right => left

/-- The way from a hole up to the root: `step d p c e t q` is a hole that is the `d` child of `p`,
whose other child is `t` and whose own place is the hole of `q`. -/
inductive Spine (ι κ δ : Type) where
  | top
  | step (d : Side) (p : ι) (c : Color) (e : κ × δ) (t : CTree ι κ δ) (q : Spine ι κ δ)

@[simp] theorem Side.other_other (d : Side) : d.other.other = d := by
  cases d <;> rfl

theorem Side.eq_or_eq_other (d d' : Side) : d = d' ∨ d' = d.other := by
  cases d <;> cases d' <;> decide

variable {ι κ δ : Type}

namespace CTree

/-- The node with `a` as its `d` child and `b` as the other one. -/
def join : Side → CTree ι κ δ → ι → Color → κ × δ → CTree ι κ δ → CTree ι κ δ
  | .left, a, p, c, e, b => node a p c e b
  | .right, a, p, c, e, b => node b p c e a

/-- The cells of a tree, in order. -/
def cells : CTree ι κ δ → List (ι × κ × δ)
  | nil => []
  | node l p _ e r => l.cells ++ (p, e) :: r.cells

/-- The identities of a tree's nodes, in order. -/
def ids (t : CTree ι κ δ) : List ι := t.cells.map (·.1)

/-- The identity at the root. -/
def ptr : CTree ι κ δ → Option ι
  | nil => none
  | node _ p _ _ _ => some p

/-- The number of nodes on the longest way down. -/
def height : CTree ι κ δ → Nat
  | nil => 0
  | node l _ _ _ r => max l.height r.height + 1

/-- A missing child counts as black. -/
def color : CTree ι κ δ → Color
  | nil => .black
  | node _ _ c _ _ => c

def setColor (c : Color) : CTree ι κ δ → CTree ι κ δ
  | nil => nil
  | node l p _ e r => node l p c e r

/-- `Bal t n`: no red node of `t` has a red child, and every way from the root of `t` down to a
missing child meets `n` black nodes. -/
inductive Bal : CTree ι κ δ → Nat → Prop where
  | nil : Bal nil 0
  | red {l r : CTree ι κ δ} {p : ι} {e : κ × δ} {n : Nat} (hl : Bal l n) (hr : Bal r n)
      (cl : l.color = .black) (cr : r.color = .black) : Bal (node l p .red e r) n
  | black {l r : CTree ι κ δ} {p : ι} {e : κ × δ} {n : Nat} (hl : Bal l n) (hr : Bal r n) :
      Bal (node l p .black e r) (n + 1)

/-- The red-black invariant of a whole tree. -/
def Valid (t : CTree ι κ δ) : Prop := t.color = .black ∧ ∃ n, Bal t n

@[simp] theorem cells_nil : (nil : CTree ι κ δ).cells = [] := rfl

@[simp] theorem cells_node (l : CTree ι κ δ) (p : ι) (c : Color) (e : κ × δ) (r : CTree ι κ δ) :
    (node l p c e r).cells = l.cells ++ (p, e) :: r.cells := rfl

@[simp] theorem ids_nil : (nil : CTree ι κ δ).ids = [] := rfl

@[simp] theorem ids_node (l : CTree ι κ δ) (p : ι) (c : Color) (e : κ × δ) (r : CTree ι κ δ) :
    (node l p c e r).ids = l.ids ++ p :: r.ids := by
  simp [ids]

@[simp] theorem ptr_nil : (nil : CTree ι κ δ).ptr = none := rfl

@[simp] theorem ptr_node (l : CTree ι κ δ) (p : ι) (c : Color) (e : κ × δ) (r : CTree ι κ δ) :
    (node l p c e r).ptr = some p := rfl

@[simp] theorem color_nil : (nil : CTree ι κ δ).color = .black := rfl

@[simp] theorem color_node (l : CTree ι κ δ) (p : ι) (c : Color) (e : κ × δ) (r : CTree ι κ δ) :
    (node l p c e r).color = c := rfl

@[simp] theorem cells_setColor (c : Color) (t : CTree ι κ δ) : (t.setColor c).cells = t.cells := by
  cases t <;> rfl

@[simp] theorem ids_setColor (c : Color) (t : CTree ι κ δ) : (t.setColor c).ids = t.ids := by
  simp [ids]

@[simp] theorem ptr_setColor (c : Color) (t : CTree ι κ δ) : (t.setColor c).ptr = t.ptr := by
  cases t <;> rfl

@[simp] theorem ptr_join (d : Side) (a : CTree ι κ δ) (p : ι) (c : Color) (e : κ × δ)
    (b : CTree ι κ δ) : (join d a p c e b).ptr = some p := by
  cases d <;> rfl

@[simp] theorem color_join (d : Side) (a : CTree ι κ δ) (p : ι) (c : Color) (e : κ × δ)
    (b : CTree ι κ δ) : (join d a p c e b).color = c := by
  cases d <;> rfl

@[simp] theorem setColor_join (d : Side) (a : CTree ι κ δ) (p : ι) (c c' : Color) (e : κ × δ)
    (b : CTree ι κ δ) : (join d a p c e b).setColor c' = join d a p c' e b := by
  cases d <;> rfl

theorem join_other (d : Side) (a : CTree ι κ δ) (p : ι) (c : Color) (e : κ × δ)
    (b : CTree ι κ δ) : join d.other a p c e b = join d b p c e a := by
  cases d <;> rfl

/-- Every node is a join on either side. -/
theorem exists_join (d : Side) (l : CTree ι κ δ) (p : ι) (c : Color) (e : κ × δ) (r : CTree ι κ δ) :
    ∃ a b, node l p c e r = join d a p c e b := by
  cases d with
  | left => exact ⟨l, r, rfl⟩
  | right => exact ⟨r, l, rfl⟩

/-- **A rotation keeps the content**: `a p (b r c)` and `(a p b) r c` have the same cells. -/
theorem cells_rotate (d : Side) (a b t : CTree ι κ δ) (p r : ι) (c₁ c₂ c₃ c₄ : Color)
    (e₁ e₂ : κ × δ) :
    (join d a p c₁ e₁ (join d b r c₂ e₂ t)).cells =
      (join d (join d a p c₃ e₁ b) r c₄ e₂ t).cells := by
  cases d <;> simp [join]

theorem mem_ids_join {d : Side} {a b : CTree ι κ δ} {p x : ι} {c : Color} {e : κ × δ} :
    x ∈ (join d a p c e b).ids ↔ x ∈ a.ids ∨ x = p ∨ x ∈ b.ids := by
  cases d with
  | left => simp [join]
  | right =>
    simp only [join, ids_node, List.mem_append, List.mem_cons]
    tauto

theorem nodup_join {d : Side} {a b : CTree ι κ δ} {p : ι} {c : Color} {e : κ × δ} :
    (join d a p c e b).ids.Nodup ↔
      a.ids.Nodup ∧ b.ids.Nodup ∧ p ∉ a.ids ∧ p ∉ b.ids ∧ ∀ x ∈ a.ids, x ∉ b.ids := by
  cases d <;> simp only [join, ids_node, List.nodup_append, List.nodup_cons, List.mem_cons] <;>
    constructor <;> intro h <;> grind

theorem cells_join_congr (d : Side) {a a' b b' : CTree ι κ δ} (p : ι) (c c' : Color) (e : κ × δ)
    (ha : a.cells = a'.cells) (hb : b.cells = b'.cells) :
    (join d a p c e b).cells = (join d a' p c' e b').cells := by
  cases d <;> simp [join, ha, hb]

theorem ptr_mem_ids {t : CTree ι κ δ} {p : ι} (h : t.ptr = some p) : p ∈ t.ids := by
  cases t with
  | nil => cases h
  | node l q c e r =>
    cases h
    simp

theorem Bal.red_join {d : Side} {a b : CTree ι κ δ} {p : ι} {e : κ × δ} {n : Nat} (ha : Bal a n)
    (hb : Bal b n) (ca : a.color = .black) (cb : b.color = .black) :
    Bal (join d a p .red e b) n := by
  cases d with
  | left => exact .red ha hb ca cb
  | right => exact .red hb ha cb ca

theorem Bal.black_join {d : Side} {a b : CTree ι κ δ} {p : ι} {e : κ × δ} {n : Nat} (ha : Bal a n)
    (hb : Bal b n) : Bal (join d a p .black e b) (n + 1) := by
  cases d with
  | left => exact .black ha hb
  | right => exact .black hb ha

theorem Bal.inv_red {d : Side} {a b : CTree ι κ δ} {p : ι} {e : κ × δ} {n : Nat}
    (h : Bal (join d a p .red e b) n) :
    Bal a n ∧ Bal b n ∧ a.color = .black ∧ b.color = .black := by
  cases d with
  | left =>
    cases h with
    | red hl hr cl cr => exact ⟨hl, hr, cl, cr⟩
  | right =>
    cases h with
    | red hl hr cl cr => exact ⟨hr, hl, cr, cl⟩

theorem Bal.inv_black {d : Side} {a b : CTree ι κ δ} {p : ι} {e : κ × δ} {n : Nat}
    (h : Bal (join d a p .black e b) (n + 1)) : Bal a n ∧ Bal b n := by
  cases d with
  | left =>
    cases h with
    | black hl hr => exact ⟨hl, hr⟩
  | right =>
    cases h with
    | black hl hr => exact ⟨hr, hl⟩

/-- A tree of positive black height has a root. -/
theorem Bal.exists_join {t : CTree ι κ δ} {n : Nat} (d : Side) (h : Bal t (n + 1)) :
    ∃ a p c e b, t = join d a p c e b := by
  cases t with
  | nil => cases h
  | node l p c e r =>
    obtain ⟨a, b, h⟩ := CTree.exists_join d l p c e r
    exact ⟨a, p, c, e, b, h⟩

theorem height_le_length (t : CTree ι κ δ) : t.height ≤ t.cells.length := by
  induction t with
  | nil => exact Nat.le_refl 0
  | node l p c e r ihl ihr =>
    rw [height, cells_node, List.length_append, List.length_cons]
    omega

/-- A tree of black height `n` has at least `2 ^ n - 1` nodes. -/
theorem Bal.two_pow_le {t : CTree ι κ δ} {n : Nat} (h : Bal t n) : 2 ^ n ≤ t.cells.length + 1 := by
  induction h with
  | nil => exact Nat.le_refl 1
  | red _ _ _ _ ihl ihr =>
    rw [cells_node, List.length_append, List.length_cons]
    omega
  | black _ _ ihl ihr =>
    rw [cells_node, List.length_append, List.length_cons, Nat.pow_succ]
    omega

/-- At least every second node on a way down is black. -/
theorem Bal.height_le {t : CTree ι κ δ} {n : Nat} (h : Bal t n) :
    t.height ≤ 2 * n + 1 ∧ (t.color = .black → t.height ≤ 2 * n) := by
  induction h with
  | nil => exact ⟨Nat.zero_le _, fun _ => Nat.zero_le _⟩
  | red _ _ cl cr ihl ihr =>
    have hl := ihl.2 cl
    have hr := ihr.2 cr
    refine ⟨?_, fun h => nomatch h⟩
    rw [height]
    omega
  | black _ _ ihl ihr =>
    have hl := ihl.1
    have hr := ihr.1
    rw [height]
    exact ⟨by omega, fun _ => by omega⟩

/-- Blackening the root of a balanced tree leaves it balanced. -/
theorem Bal.setBlack {t : CTree ι κ δ} {n : Nat} (h : Bal t n) : (t.setColor .black).Valid := by
  cases h with
  | nil => exact ⟨rfl, 0, .nil⟩
  | red hl hr _ _ => exact ⟨rfl, _, .black hl hr⟩
  | black hl hr => exact ⟨rfl, _, .black hl hr⟩

/-- Blackening a red root raises the black height by one. -/
theorem Bal.setBlack_of_red {t : CTree ι κ δ} {n : Nat} (h : Bal t n) (hc : t.color = .red) :
    Bal (t.setColor .black) (n + 1) := by
  cases h with
  | nil => cases hc
  | red hl hr _ _ => exact .black hl hr
  | black => cases hc

theorem exists_join_of_red {t : CTree ι κ δ} (d : Side) (h : t.color = .red) :
    ∃ a p e b, t = join d a p .red e b := by
  cases t with
  | nil => cases h
  | node l p c e r =>
    cases h
    obtain ⟨a, b, h⟩ := exists_join d l p .red e r
    exact ⟨a, p, e, b, h⟩

end CTree

namespace Spine

/-- The identity just above the hole. -/
def ptr : Spine ι κ δ → Option ι
  | top => none
  | step _ p _ _ _ _ => some p

/-- The node just above the hole exists and has the colour `c`. -/
def HasColor (c : Color) : Spine ι κ δ → Prop
  | top => False
  | step _ _ c' _ _ _ => c' = c

/-- Fill the hole. -/
def plug : Spine ι κ δ → CTree ι κ δ → CTree ι κ δ
  | top, t => t
  | step d p c e t' q, t => q.plug (.join d t p c e t')

/-- The cells left of the hole. -/
def before : Spine ι κ δ → List (ι × κ × δ)
  | top => []
  | step .left _ _ _ _ q => q.before
  | step .right p _ e t q => q.before ++ (t.cells ++ [(p, e)])

/-- The cells right of the hole. -/
def after : Spine ι κ δ → List (ι × κ × δ)
  | top => []
  | step .left p _ e t q => (p, e) :: t.cells ++ q.after
  | step .right _ _ _ _ q => q.after

/-- The number of nodes above the hole. -/
def depth : Spine ι κ δ → Nat
  | top => 0
  | step _ _ _ _ _ q => q.depth + 1

/-- Put the path `q` under the hole of `q'`. -/
def append : Spine ι κ δ → Spine ι κ δ → Spine ι κ δ
  | top, q' => q'
  | step d p c e t q, q' => step d p c e t (q.append q')

/-- `Ok q n`: filling the hole with a tree of black height `n` (and of a colour the node above
allows) gives a balanced tree. A red node is never the root and has a black parent. -/
def Ok : Spine ι κ δ → Nat → Prop
  | top, _ => True
  | step _ _ .red _ t q, n => t.Bal n ∧ t.color = .black ∧ q.HasColor .black ∧ q.Ok n
  | step _ _ .black _ t q, n => t.Bal n ∧ q.Ok (n + 1)

@[simp] theorem ptr_top : (top : Spine ι κ δ).ptr = none := rfl

@[simp] theorem ptr_step (d : Side) (p : ι) (c : Color) (e : κ × δ) (t : CTree ι κ δ)
    (q : Spine ι κ δ) : (step d p c e t q).ptr = some p := rfl

theorem cells_plug (q : Spine ι κ δ) (t : CTree ι κ δ) :
    (q.plug t).cells = q.before ++ t.cells ++ q.after := by
  induction q generalizing t with
  | top => simp [plug, before, after]
  | step d p c e t' q ih => cases d <;> simp [plug, before, after, ih, CTree.join]

theorem ids_plug (q : Spine ι κ δ) (t : CTree ι κ δ) :
    (q.plug t).ids = q.before.map (·.1) ++ t.ids ++ q.after.map (·.1) := by
  simp [CTree.ids, cells_plug]

/-- The identities around the hole. -/
def ids (q : Spine ι κ δ) : List ι := q.before.map (·.1) ++ q.after.map (·.1)

theorem mem_ids_step {d : Side} {p x : ι} {c : Color} {e : κ × δ} {t : CTree ι κ δ}
    {q : Spine ι κ δ} : x ∈ (step d p c e t q).ids ↔ x = p ∨ x ∈ t.ids ∨ x ∈ q.ids := by
  cases d <;> simp only [ids, before, after, CTree.ids, List.map_append, List.map_cons,
    List.map_nil, List.mem_append, List.mem_cons, List.cons_append, List.not_mem_nil] <;> tauto

theorem mem_ids_plug {q : Spine ι κ δ} {t : CTree ι κ δ} {x : ι} :
    x ∈ (q.plug t).ids ↔ x ∈ q.ids ∨ x ∈ t.ids := by
  rw [ids_plug, ids]
  simp only [List.mem_append]
  tauto

theorem ids_step_left (p : ι) (c : Color) (e : κ × δ) (t : CTree ι κ δ) (q : Spine ι κ δ) :
    (step .left p c e t q).ids = q.before.map (·.1) ++ (p :: t.ids ++ q.after.map (·.1)) := by
  simp [ids, before, after, CTree.ids]

theorem ids_step_right (p : ι) (c : Color) (e : κ × δ) (t : CTree ι κ δ) (q : Spine ι κ δ) :
    (step .right p c e t q).ids = q.before.map (·.1) ++ (t.ids ++ [p]) ++ q.after.map (·.1) := by
  simp [ids, before, after, CTree.ids]

theorem nodup_step {d : Side} {p : ι} {c : Color} {e : κ × δ} {t : CTree ι κ δ}
    {q : Spine ι κ δ} : (step d p c e t q).ids.Nodup ↔
      t.ids.Nodup ∧ q.ids.Nodup ∧ p ∉ t.ids ∧ p ∉ q.ids ∧ ∀ x ∈ t.ids, x ∉ q.ids := by
  cases d with
  | left =>
    rw [ids_step_left, ids]
    simp only [List.nodup_append, List.nodup_cons, List.cons_append, List.mem_append,
      List.mem_cons]
    constructor <;> intro h <;> grind
  | right =>
    rw [ids_step_right, ids]
    simp only [List.nodup_append, List.nodup_cons, List.mem_append, List.mem_cons]
    constructor <;> intro h <;> grind

theorem nodup_plug {q : Spine ι κ δ} {t : CTree ι κ δ} :
    (q.plug t).ids.Nodup ↔ q.ids.Nodup ∧ t.ids.Nodup ∧ ∀ x ∈ t.ids, x ∉ q.ids := by
  rw [ids_plug, ids]
  simp only [List.nodup_append, List.mem_append]
  constructor <;> intro h <;> grind

/-- Every node of a tree is the root of the subtree at some hole. -/
theorem exists_plug {t : CTree ι κ δ} {x : ι × κ × δ} (h : x ∈ t.cells) (q : Spine ι κ δ) :
    ∃ (q' : Spine ι κ δ) (l : CTree ι κ δ) (c : Color) (r : CTree ι κ δ),
      q.plug t = q'.plug (.node l x.1 c x.2 r) := by
  induction t generalizing q with
  | nil => cases h
  | node l p c e r ihl ihr =>
    rw [CTree.cells_node, List.mem_append, List.mem_cons] at h
    rcases h with h | rfl | h
    · exact ihl h (.step .left p c e r q)
    · exact ⟨q, l, c, r, rfl⟩
    · exact ihr h (.step .right p c e l q)

/-- Trees of the same content give the same content below any path. -/
theorem cells_plug_congr (q : Spine ι κ δ) {t t' : CTree ι κ δ} (h : t.cells = t'.cells) :
    (q.plug t).cells = (q.plug t').cells := by
  rw [cells_plug, cells_plug, h]

theorem plug_append (q q' : Spine ι κ δ) (t : CTree ι κ δ) :
    (q.append q').plug t = q'.plug (q.plug t) := by
  induction q generalizing t with
  | top => rfl
  | step d p c e t' q ih => exact ih _

theorem before_append (q q' : Spine ι κ δ) : (q.append q').before = q'.before ++ q.before := by
  induction q with
  | top => simp [append, before]
  | step d p c e t q ih => cases d <;> simp [append, before, ih]

theorem ptr_plug {q : Spine ι κ δ} (hq : q ≠ top) (t : CTree ι κ δ) :
    ∃ x, (q.plug t).ptr = some x := by
  induction q generalizing t with
  | top => exact absurd rfl hq
  | step d p c e u q ih =>
    cases q with
    | top => exact ⟨p, CTree.ptr_join ..⟩
    | step => exact ih (by simp) _

/-- Whether a path is sound does not depend on the identities and entries along it. -/
theorem ok_append_congr {d : Side} {p p' : ι} {c : Color} {e e' : κ × δ} {t : CTree ι κ δ}
    {q q' : Spine ι κ δ} {n : Nat} (h : (q.append (step d p c e t q')).Ok n) :
    (q.append (step d p' c e' t q')).Ok n := by
  induction q generalizing n with
  | top => cases c <;> exact h
  | step d₁ p₁ c₁ e₁ t₁ q ih =>
    cases c₁ with
    | red =>
      refine ⟨h.1, h.2.1, ?_, ih h.2.2.2⟩
      cases q with
      | top => exact h.2.2.1
      | step => exact h.2.2.1
    | black => exact ⟨h.1, ih h.2⟩

theorem depth_le_length (q : Spine ι κ δ) : q.depth ≤ q.before.length + q.after.length := by
  induction q with
  | top => exact Nat.zero_le _
  | step d p c e t q ih =>
    cases d <;> simp only [depth, before, after, List.cons_append, List.length_cons,
      List.length_append] <;> omega

/-- The hole's depth is bounded by the size of the tree around it. -/
theorem depth_le_ids (q : Spine ι κ δ) (t : CTree ι κ δ) : q.depth ≤ (q.plug t).ids.length := by
  have h := q.depth_le_length
  rw [ids_plug]
  simp only [List.length_append, List.length_map]
  omega

theorem HasColor.unique {q : Spine ι κ δ} {c c' : Color} (h : q.HasColor c) (h' : q.HasColor c') :
    c = c' := by
  cases q with
  | top => exact h.elim
  | step => exact h.symm.trans h'

/-- The subtree beside a sound hole is balanced. -/
theorem Ok.bal_sibling {d : Side} {p : ι} {c : Color} {e : κ × δ} {u : CTree ι κ δ}
    {q : Spine ι κ δ} {n : Nat} (h : (step d p c e u q).Ok n) : u.Bal n := by
  cases c with
  | red => exact h.1
  | black => exact h.1

/-- **Filling a sound hole** with a balanced tree whose colour the node above allows gives a
balanced tree. -/
theorem Ok.plug {q : Spine ι κ δ} {t : CTree ι κ δ} {n : Nat} (hq : q.Ok n) (ht : t.Bal n)
    (hc : q.HasColor .red → t.color = .black) : ∃ m, (q.plug t).Bal m := by
  induction q generalizing t n with
  | top => exact ⟨n, ht⟩
  | step d p c e t' q ih =>
    cases c with
    | red =>
      obtain ⟨ht', ct', hb, hq⟩ := hq
      refine ih hq (.red_join ht ht' (hc rfl) ct') fun h => ?_
      cases h.unique hb
    | black => exact ih hq.2 (.black_join ht hq.1) fun _ => CTree.color_join ..

/-- Above a sound hole the root is black. -/
theorem Ok.color_plug {q : Spine ι κ δ} {n : Nat} (h : q.Ok n) (hq : q ≠ top) (t : CTree ι κ δ) :
    (q.plug t).color = .black := by
  induction q generalizing t n with
  | top => exact absurd rfl hq
  | step d p c e u q ih =>
    cases q with
    | top =>
      cases c with
      | red => exact h.2.2.1.elim
      | black => exact CTree.color_join ..
    | step =>
      cases c with
      | red => exact ih h.2.2.2 (by simp) _
      | black => exact ih h.2 (by simp) _

theorem Ok.plug_valid {q : Spine ι κ δ} {t : CTree ι κ δ} {n : Nat} (hq : q.Ok n) (ht : t.Bal n)
    (hc : t.color = .black) : (q.plug t).Valid := by
  refine ⟨?_, hq.plug ht fun _ => hc⟩
  cases q with
  | top => exact hc
  | step => exact hq.color_plug (by simp) t

/-- A hole of a balanced tree with a black root is sound. -/
theorem Ok.of_plug {q : Spine ι κ δ} {t : CTree ι κ δ} {m : Nat} (hb : (q.plug t).Bal m)
    (hc : (q.plug t).color = .black) :
    ∃ n, q.Ok n ∧ t.Bal n ∧ (q.HasColor .red → t.color = .black) ∧
      (q = top → t.color = .black) := by
  induction q generalizing t with
  | top => exact ⟨m, trivial, hb, False.elim, fun _ => hc⟩
  | step d p c e u q ih =>
    obtain ⟨n, hq, ht, hred, htop⟩ := ih hb hc
    rw [CTree.color_join] at hred htop
    cases c with
    | red =>
      obtain ⟨ht, hu, ct, cu⟩ := ht.inv_red
      refine ⟨n, ⟨hu, cu, ?_, hq⟩, ht, fun _ => ct, fun _ => ct⟩
      cases q with
      | top => cases htop rfl
      | step d' p' c' e' u' q =>
        cases c' with
        | red => cases hred rfl
        | black => rfl
    | black =>
      obtain ⟨k, rfl⟩ : ∃ k, n = k + 1 := by
        cases d <;> cases ht <;> exact ⟨_, rfl⟩
      obtain ⟨ht, hu⟩ := ht.inv_black
      refine ⟨k, ⟨hu, hq⟩, ht, fun h => ?_, fun h => ?_⟩
      · cases h
      · cases h

end Spine

end Memlog.Lib
