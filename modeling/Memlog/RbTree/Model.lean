import Mathlib.Data.List.AList
import Memlog.Lib.RedBlack

/-!
# The index of tracked blocks: `rbtree.c` and `insert_block_rb`

The tree is a set of node objects linked by pointers. `RbState` is the root pointer together with
the node objects that have been allocated; a pointer is `none` for `NULL`, and every access through
`NULL` or through a pointer to no object is a failure of the computation (`RbM` is the state monad
over `Option`).

The mirrored halves of the source are written once, with the side as a parameter: `rbRotate .left`
is `rb_rotate_left`. Loops take a fuel argument; the number of allocated nodes is passed for it, and
`RbTree/Refine.lean` proves that it suffices.
-/

namespace Memlog

open Lib (Color Side)

/-- The address of a node object. -/
abbrev Ptr := Nat

/-- `rb_node_t`. -/
structure RbNode (κ δ : Type) where
  parent : Option Ptr
  left : Option Ptr
  right : Option Ptr
  color : Color
  key : κ
  data : δ
deriving DecidableEq

/-- `rb_root_t`, with the node objects in memory. -/
structure RbState (κ δ : Type) where
  root : Option Ptr
  nodes : AList fun _ : Ptr => RbNode κ δ

namespace RbNode

variable {κ δ : Type}

/-- The node `insert_block_rb` initialises. -/
def fresh (key : κ) (data : δ) : RbNode κ δ where
  parent := none
  left := none
  right := none
  color := .red
  key := key
  data := data

def child (nd : RbNode κ δ) : Side → Option Ptr
  | .left => nd.left
  | .right => nd.right

def withParent (nd : RbNode κ δ) (q : Option Ptr) : RbNode κ δ := { nd with parent := q }

def withColor (nd : RbNode κ δ) (c : Color) : RbNode κ δ := { nd with color := c }

def withChild (nd : RbNode κ δ) (d : Side) (q : Option Ptr) : RbNode κ δ :=
  match d with
  | .left => { nd with left := q }
  | .right => { nd with right := q }

end RbNode

namespace RbState

variable {κ δ : Type}

/-- `RB_ROOT`. -/
def empty : RbState κ δ := ⟨none, ∅⟩

/-- The node object at an address. -/
def mem (s : RbState κ δ) (p : Ptr) : Option (RbNode κ δ) := s.nodes.lookup p

def set (s : RbState κ δ) (p : Ptr) (nd : RbNode κ δ) : RbState κ δ :=
  { s with nodes := s.nodes.insert p nd }

/-- `VG_(free)` of a node. -/
def free (s : RbState κ δ) (p : Ptr) : RbState κ δ :=
  { s with nodes := s.nodes.erase p }

/-- The number of node objects. -/
def size (s : RbState κ δ) : Nat := s.nodes.keys.length

end RbState

/-- A computation on the tree; `none` is an access through `NULL` or a dangling pointer, or a loop
that ran out of fuel. -/
abbrev RbM (κ δ : Type) := StateT (RbState κ δ) Option

section Access

variable {κ δ : Type}

/-- `*p`. -/
def load (p : Option Ptr) : RbM κ δ (RbNode κ δ) := fun s =>
  (p.bind s.mem).map (·, s)

/-- Write to fields of `*p`. -/
def modify (p : Option Ptr) (f : RbNode κ δ → RbNode κ δ) : RbM κ δ Unit := fun s =>
  p.bind fun q => (s.mem q).map fun nd => ((), s.set q (f nd))

def getRoot : RbM κ δ (Option Ptr) := fun s => some (s.root, s)

def setRoot (p : Option Ptr) : RbM κ δ Unit := fun s => some ((), { s with root := p })

def parentOf (p : Option Ptr) : RbM κ δ (Option Ptr) := RbNode.parent <$> load p

def childOf (d : Side) (p : Option Ptr) : RbM κ δ (Option Ptr) := (RbNode.child · d) <$> load p

def colorOf (p : Option Ptr) : RbM κ δ Color := RbNode.color <$> load p

def setParent (p q : Option Ptr) : RbM κ δ Unit := modify p (·.withParent q)

def setChild (d : Side) (p q : Option Ptr) : RbM κ δ Unit := modify p (·.withChild d q)

def setColor (p : Option Ptr) (c : Color) : RbM κ δ Unit := modify p (·.withColor c)

end Access

section RbTree

variable {κ δ : Type}

def rbGrandparent (n : Option Ptr) : RbM κ δ (Option Ptr) := do
  let p ← parentOf n
  if p.isSome then parentOf p else pure none

def rbUncle (n : Option Ptr) : RbM κ δ (Option Ptr) := do
  let g ← rbGrandparent n
  if g.isNone then pure none
  else
    if (← parentOf n) = (← childOf .left g) then childOf .right g else childOf .left g

/-- The child link of `p` that leads to `n` (the root if `p` is `NULL`) is set to `r`. -/
def replaceChild (p n r : Option Ptr) : RbM κ δ Unit := do
  if p.isNone then setRoot r
  else if (← childOf .left p) = n then setChild .left p r
  else setChild .right p r

/-- `if (v) v->parent = p`. -/
def adopt (v p : Option Ptr) : RbM κ δ Unit :=
  if v.isSome then setParent v p else pure ()

/-- `rb_rotate_left` (`d = .left`) and `rb_rotate_right` (`d = .right`): the child `r` of `n` on the
side other than `d` takes the place of `n`, and `n` becomes its `d` child. -/
def rbRotate (d : Side) (n : Option Ptr) : RbM κ δ Unit := do
  let r ← childOf d.other n
  let p ← parentOf n
  let b ← childOf d r
  setChild d.other n b
  adopt b n
  setChild d r n
  setParent n r
  -- fix parent link
  setParent r p
  replaceChild p n r

def rbRotateLeft (n : Option Ptr) : RbM κ δ Unit := rbRotate .left n

def rbRotateRight (n : Option Ptr) : RbM κ δ Unit := rbRotate .right n

/-- The place a child pointer is stored in: `rb_node_t **`. -/
inductive Link where
  | root
  | child (d : Side) (p : Ptr)
deriving DecidableEq

/-- `*link`. -/
def Link.read : Link → RbM κ δ (Option Ptr)
  | root => getRoot
  | child d p => childOf d (some p)

def Link.write (q : Option Ptr) : Link → RbM κ δ Unit
  | root => setRoot q
  | child d p => setChild d (some p) q

def rbLinkNode (node parent : Option Ptr) (linkp : Link) : RbM κ δ Unit := do
  setParent node parent
  setChild .right node none
  setChild .left node none
  linkp.write node

/-- `p && p->color == RED`. -/
def isRed (p : Option Ptr) : RbM κ δ Bool := do
  if p.isNone then return false
  return decide ((← colorOf p) = .red)

/-- Case 3 of the insertion fixup, where the parent of `n` is the `d` child of the grandparent
`g`. -/
def rbInsertCase3 (d : Side) (n g : Option Ptr) : RbM κ δ Unit := do
  setColor (← parentOf n) .black
  setColor g .red
  rbRotate d.other g

/-- Cases 2 and 3 of the insertion fixup. Returns the new `n`. -/
def rbInsertRotate (d : Side) (n g : Option Ptr) : RbM κ δ (Option Ptr) := do
  let mut n := n
  if n = (← childOf d.other (← parentOf n)) then
    -- case 2
    n ← parentOf n
    rbRotate d n
  rbInsertCase3 d n g
  return n

/-- The `while` loop of `rb_insert_color`. -/
def rbInsertLoop : Nat → Option Ptr → RbM κ δ Unit
  | 0, _ => failure
  | fuel + 1, n => do
    if n = (← getRoot) then return ()
    if (← colorOf (← parentOf n)) ≠ .red then return ()
    let u ← rbUncle n
    let g ← rbGrandparent n
    if ← isRed u then
      -- case 1
      setColor (← parentOf n) .black
      setColor u .black
      setColor g .red
      rbInsertLoop fuel g
    else if (← parentOf n) = (← childOf .left g) then
      rbInsertLoop fuel (← rbInsertRotate .left n g)
    else
      rbInsertLoop fuel (← rbInsertRotate .right n g)

def rbInsertColor (n : Option Ptr) : RbM κ δ Unit := do
  rbInsertLoop ((← get).size + 1) n
  setColor (← getRoot) .black

section Search

variable [LinearOrder κ]

/-- The `while` loop of `rb_search_leq`. -/
def rbSearchLeqLoop (key : κ) : Nat → Option Ptr → Option Ptr → RbM κ δ (Option Ptr)
  | _, none, best => pure best
  | 0, some _, _ => failure
  | fuel + 1, some p, best => do
    let nd ← load (some p)
    if nd.key ≤ key then rbSearchLeqLoop key fuel nd.right (some p)
    else rbSearchLeqLoop key fuel nd.left best

/-- The node with the largest key not above the given one. -/
def rbSearchLeq (key : κ) : RbM κ δ (Option Ptr) := do
  rbSearchLeqLoop key (← get).size (← getRoot) none

/-- The `while` loop of `rb_search`. -/
def rbSearchLoop (key : κ) : Nat → Option Ptr → RbM κ δ (Option Ptr)
  | _, none => pure none
  | 0, some _ => failure
  | fuel + 1, some p => do
    let nd ← load (some p)
    if nd.key = key then return some p
    else if key < nd.key then rbSearchLoop key fuel nd.left
    else rbSearchLoop key fuel nd.right

def rbSearch (key : κ) : RbM κ δ (Option Ptr) := do
  rbSearchLoop key (← get).size (← getRoot)

end Search

/-- The `while` loop of `rb_min`. -/
def rbMinLoop : Nat → Option Ptr → RbM κ δ (Option Ptr)
  | 0, _ => failure
  | fuel + 1, node => do
    let l ← childOf .left node
    if l.isSome then rbMinLoop fuel l else return node

def rbMin (node : Option Ptr) : RbM κ δ (Option Ptr) := do
  if node.isNone then return none
  rbMinLoop (← get).size node

def rbTransplant (u v : Option Ptr) : RbM κ δ Unit := do
  replaceChild (← parentOf u) u v
  adopt v (← parentOf u)

/-- `!p || p->color == BLACK`. -/
def isBlack (p : Option Ptr) : RbM κ δ Bool := do
  if p.isNone then return true
  return decide ((← colorOf p) = .black)

/-- The first step of an iteration of `rb_delete_fixup`: a red sibling `w` of the `d` child of
`parent` is rotated away. Returns the new sibling. -/
def rbDeleteRedSibling (d : Side) (parent w : Option Ptr) : RbM κ δ (Option Ptr) := do
  if (← colorOf w) = .red then
    setColor w .black
    setColor parent .red
    rbRotate d parent
    childOf d.other parent
  else return w

/-- `if (p) p->color = BLACK`. -/
def blacken (p : Option Ptr) : RbM κ δ Unit :=
  if p.isSome then setColor p .black else pure ()

/-- The sibling `w` of the `d` child of `parent` has a black child away from it: the other child,
which is red, is rotated into the place of `w`. Returns the new sibling. -/
def rbDeleteNear (d : Side) (parent w : Option Ptr) : RbM κ δ (Option Ptr) := do
  if ← isBlack (← childOf d.other w) then
    blacken (← childOf d w)
    setColor w .red
    rbRotate d.other w
    childOf d.other parent
  else return w

/-- The rotation that ends the loop of `rb_delete_fixup`. -/
def rbDeleteFar (d : Side) (parent w : Option Ptr) : RbM κ δ Unit := do
  setColor w (← colorOf parent)
  setColor parent .black
  blacken (← childOf d.other w)
  rbRotate d parent

/-- One iteration of `rb_delete_fixup` for an `x` that is the `d` child of `parent`. Returns the new
`x` and `parent`, or nothing when the iteration leaves the loop by `break`. -/
def rbDeleteStep (d : Side) (parent : Option Ptr) :
    RbM κ δ (Option (Option Ptr × Option Ptr)) := do
  let w ← childOf d.other parent
  if w.isNone then return none
  let w ← rbDeleteRedSibling d parent w
  if (← isBlack (← childOf d w)) && (← isBlack (← childOf d.other w)) then
    setColor w .red
    return some (parent, ← parentOf parent)
  else
    let w ← rbDeleteNear d parent w
    rbDeleteFar d parent w
    return some (← getRoot, none)

/-- The `while` loop of `rb_delete_fixup`. Returns the final `x`. -/
def rbDeleteFixupLoop : Nat → Option Ptr → Option Ptr → RbM κ δ (Option Ptr)
  | 0, _, _ => failure
  | fuel + 1, x, parent => do
    if x = (← getRoot) then return x
    if !(← isBlack x) then return x
    if parent.isNone then return x
    let d := if x = (← childOf .left parent) then Side.left else Side.right
    match ← rbDeleteStep d parent with
    | none => return x
    | some (x, parent) => rbDeleteFixupLoop fuel x parent

def rbDeleteFixup (x parent : Option Ptr) : RbM κ δ Unit := do
  let x ← rbDeleteFixupLoop ((← get).size + 2) x parent
  blacken x

/-- A successor `y` of `z` that is not its child leaves its place to its right subtree and takes
over the right subtree of `z`. -/
def rbDetachSuccessor (z y : Option Ptr) : RbM κ δ Unit := do
  rbTransplant y (← childOf .right y)
  setChild .right y (← childOf .right z)
  setParent (← childOf .right y) y

/-- The end of the two-children case of `rb_delete`: `y` takes the place, the left child and the
colour of `z`. -/
def rbTakePlace (z y : Option Ptr) : RbM κ δ Unit := do
  rbTransplant z y
  setChild .left y (← childOf .left z)
  setParent (← childOf .left y) y
  setColor y (← colorOf z)

/-- The two-children case of `rb_delete`: the successor `y` of `z` takes its place. Returns the
colour `y` had, the child `x` that moved up into its old place, and the parent of that place. -/
def rbDeleteTwo (z : Option Ptr) : RbM κ δ (Color × Option Ptr × Option Ptr) := do
  let y ← rbMin (← childOf .right z)
  let yOriginalColor ← colorOf y
  let x ← childOf .right y
  let mut xParent := y
  if (← parentOf y) ≠ z then
    xParent ← parentOf y
    rbDetachSuccessor z y
  rbTakePlace z y
  return (yOriginalColor, x, xParent)

/-- The unlinking part of `rb_delete`. -/
def rbUnlink (z : Option Ptr) : RbM κ δ (Color × Option Ptr × Option Ptr) := do
  let zn ← load z
  if zn.left.isNone then
    rbTransplant z zn.right
    return (zn.color, zn.right, zn.parent)
  else if zn.right.isNone then
    rbTransplant z zn.left
    return (zn.color, zn.left, zn.parent)
  else rbDeleteTwo z

/-- Delete the node with the given key; returns it, or `NULL` if there is none. -/
def rbDelete [LinearOrder κ] (key : κ) : RbM κ δ (Option Ptr) := do
  let z ← rbSearch key
  if z.isNone then return none
  let (yOriginalColor, x, xParent) ← rbUnlink z
  if yOriginalColor = .black then rbDeleteFixup x xParent
  return z

section Insert

variable [LinearOrder κ]

/-- The descent of `insert_block_rb`: the link to hang a node with this key on and the node that
owns it, or nothing when the key is already present. -/
def insertDescend (key : κ) : Nat → Link → Option Ptr → RbM κ δ (Option (Link × Option Ptr))
  | 0, _, _ => failure
  | fuel + 1, link, parent => do
    match ← link.read with
    | none => return some (link, parent)
    | some p =>
      let nd ← load (some p)
      if key < nd.key then insertDescend key fuel (.child .left p) (some p)
      else if key > nd.key then insertDescend key fuel (.child .right p) (some p)
      -- same start address already present: nothing to do
      else return none

/-- `insert_block_rb`, where `n` is the address that `VG_(malloc)` returns for the new node. -/
def insertBlockRb (n : Ptr) (payload : κ) (bk : δ) : RbM κ δ Unit := do
  match ← insertDescend payload ((← get).size + 1) .root none with
  | none => return ()
  | some (link, parent) =>
    MonadState.modifyGet fun s => ((), s.set n (.fresh payload bk))
    rbLinkNode (some n) parent link
    rbInsertColor (some n)

end Insert

end RbTree

end Memlog
