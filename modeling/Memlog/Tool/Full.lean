import Memlog.Lib.Stateful
import Memlog.Mx.Stats
import Memlog.RbTree.Objects
import Memlog.Tool.Registry

/-!
# The whole state of `ml_main.c`

The callbacks of `Tool/Model.lean` keep a tracked block as a value in the tree. Here it is an object
of its own, as in the source: a node of the tree holds a pointer to a `Block` that `VG_(malloc)`
returned and that somebody has to free, and every access goes through the pointer. A use of a
released or unknown object and a second release of one are failures. The counters of the MX
emulation and the messages of the tool are part of the state as well, and `ml_fini` is complete.

`VG_(malloc)` returns any address that is not in use: a callback is given the two addresses that it
gets if it asks for a block and for a node (`New`), and a run may take any fresh ones (`Run`).
-/

namespace Memlog.Full

open Lib

/-! ## State -/

structure Tool where
  trackedBlocks : RbState Addr (Option Ptr)
  /-- The `Block` objects. -/
  blocks : AList fun _ : Ptr => Block
  logBuffer : List LogEntry
  out : List Line
  /-- What `VG_(umsg)` has printed. -/
  messages : List Line
  stats : MxStats
  heap : List CliBlock
  mem : Mem

/-- The state in which the traced program starts. -/
def Tool.init (mem : Mem) : Tool where
  trackedBlocks := .empty
  blocks := ∅
  logBuffer := []
  out := []
  messages := []
  stats := {}
  heap := []
  mem := mem

abbrev FullM := StateT Tool Option

@[simp] theorem fullM_bind {α β : Type} (x : FullM α) (f : α → FullM β) (t : Tool) :
    (x >>= f) t = (x t).bind fun r => f r.1 r.2 := rfl

@[simp] theorem fullM_pure {α : Type} (a : α) (t : Tool) : (pure a : FullM α) t = some (a, t) := rfl

/-- The addresses that `VG_(malloc)` returns for a block and for a node. -/
structure New where
  block : Ptr
  node : Ptr

/-- `VG_(malloc)` returns no address that is in use. -/
structure New.Fresh (new : New) (t : Tool) : Prop where
  block : t.blocks.lookup new.block = none
  node : t.trackedBlocks.mem new.node = none

/-! ## Objects -/

/-- Run a computation on `tracked_blocks`. -/
def onTree {α : Type} (x : RbM Addr (Option Ptr) α) : FullM α := fun t =>
  (x t.trackedBlocks).map fun r => (r.1, { t with trackedBlocks := r.2 })

/-- `VG_(malloc)` of a block, and the assignments to its fields. -/
def mallocBlock (p : Ptr) (bk : Block) : FullM (Option Ptr) := fun t =>
  some (some p, { t with blocks := t.blocks.insert p bk })

/-- `*bk`. -/
def loadBlock (bk : Option Ptr) : FullM Block := fun t =>
  (bk.bind t.blocks.lookup).map (·, t)

/-- `VG_(free)` of a block. -/
def freeBlock (bk : Option Ptr) : FullM Unit := fun t =>
  bk.bind fun p => (t.blocks.lookup p).map fun _ => ((), { t with blocks := t.blocks.erase p })

/-- `VG_(free)` of a node. -/
def freeNode (n : Ptr) : FullM Unit := fun t =>
  (t.trackedBlocks.mem n).map fun _ =>
    ((), { t with trackedBlocks := t.trackedBlocks.free n })

/-! ## Log buffer, messages and the traced program -/

/-- The part of the state that the callbacks have without objects; it has no tree. -/
def Tool.base (t : Tool) : Memlog.Tool := ⟨.empty, t.logBuffer, t.out, t.heap, t.mem⟩

/-- Run a computation that does not use the tree. -/
def lift {α : Type} (x : ToolM α) : FullM α := fun t =>
  (x t.base).map fun r =>
    (r.1, { t with logBuffer := r.2.logBuffer, out := r.2.out, heap := r.2.heap, mem := r.2.mem })

/-- `VG_(umsg)`. -/
def umsg (line : Line) : FullM Unit := fun t =>
  some ((), { t with messages := t.messages ++ [line] })

/-- Change the counters. -/
def count (f : MxStats → MxStats) : FullM Unit := fun t => some ((), { t with stats := f t.stats })

/-! ## Block tracking -/

def insertBlockRb (new : New) (bk : Option Ptr) : FullM Unit := do
  let payload := (← loadBlock bk).payload
  onTree (Memlog.insertBlockRb new.node payload bk)

/-- A new block is entered into the tree, and an ALLOC record is logged. -/
def enterBlock (su : Setup) (new : New) (bk : Option Ptr) (addr : Addr) (size : SizeT) :
    FullM Unit := do
  insertBlockRb new bk
  lift (addToBuffer su (.alloc addr size (some (← loadBlock bk).allocEc)))

def findBlockContaining (addr : Addr) : FullM (Option Ptr) := do
  let n ← onTree (rbSearchLeq addr)
  if n.isNone then return none
  let bk := (← onTree (load n)).data
  let b ← loadBlock bk
  if addr < b.payload + b.reqSzB then return bk else return none

def isTracked (addr : Addr) : FullM Bool := Option.isSome <$> findBlockContaining addr

def logStore (su : Setup) (addr : Addr) (value : HWord) : FullM Unit := do
  if ← isTracked addr then lift (addToBuffer su (.store addr value))

/-- The end of the release of a tracked block: its node is unlinked and freed, then the block. -/
def unlinkBlock (bk : Option Ptr) : FullM Unit := do
  let deleted ← onTree (rbDelete (← loadBlock bk).payload)
  match deleted with
  | some z => freeNode z
  | none => pure ()
  freeBlock bk

/-- The release of the tracked block that starts at the address, in `die_block` and in the handler
of client requests. -/
def releaseBlock (su : Setup) (who : Caller) (addr : Addr) : FullM Unit := do
  let bk ← findBlockContaining addr
  if bk.isSome then
    let b ← loadBlock bk
    if b.payload = addr then
      lift (addToBuffer su (.free addr b.reqSzB (some who.ec)))
      unlinkBlock bk

/-! ## MX emulation -/

/-- The loop of `mx_site_selected` over the frames. -/
def mxSiteSearch (su : Setup) (szB : SizeT) : List Frame → FullM Bool
  | [] => return false
  | ⟨ip, fn⟩ :: frames =>
    match fn with
    | none => mxSiteSearch su szB frames
    | some fn =>
      if isAllocatorFrame fn then mxSiteSearch su szB frames
      else do
        let addr := "0x".toList ++ printHexUpper ip
        if su.clo.mxListSites then
          umsg ("MXSITE ".toList ++ addr ++ " ".toList ++ fn ++ " ".toList ++ printDec szB)
        return su.mxSites.isEmpty || su.mxSites.any fun site => fn == site || addr == site

def mxSiteSelected (su : Setup) (who : Caller) (szB : SizeT) : FullM Bool := do
  if su.mxSites.isEmpty && !su.clo.mxListSites then return true
  mxSiteSearch su szB (who.frames.take 16)

def mxAfterStore (su : Setup) (addr : Addr) (size : HWord) : FullM Unit := do
  let bk ← findBlockContaining addr
  if bk.isSome then
    let b ← loadBlock bk
    if b.mx then
      fun t =>
        let (mem, stats) := mxReencode su.clo b addr size t.mem t.stats
        some ((), { t with mem := mem, stats := stats })

/-! ## `malloc` and the rest -/

/-- The counters of a marked block. -/
def countMarked (szB : SizeT) (st : MxStats) : MxStats :=
  { st with blocksMarked := st.blocksMarked + 1, bytesMarked := st.bytesMarked + szB }

/-- The part of `new_block` for a block that is large enough. -/
def trackNewBlock (su : Setup) (who : Caller) (new : New) (p : Addr) (szB : SizeT) :
    FullM Unit := do
  let mx ← if su.clo.mxRound then mxSiteSelected su who szB else pure false
  let bk ← mallocBlock new.block { payload := p, reqSzB := szB, allocEc := who.ec, mx := mx }
  if (← loadBlock bk).mx then count (countMarked szB)
  enterBlock su new bk p szB

def newBlock (su : Setup) (who : Caller) (place : Place) (new : New) (szB alignB : SizeT)
    (isZeroed : Bool) : FullM (Option Addr) := do
  if szB.toInt < 0 then return none
  else
    let szB := if szB = 0 then 1 else szB
    match ← lift (cliMalloc place alignB szB) with
    | none => return none
    | some p =>
      if isZeroed then lift (vgMemset p 0 szB)
      if su.clo.minBlockSize ≤ szB.toNat then trackNewBlock su who new p szB
      return some p

def dieBlock (su : Setup) (who : Caller) (p : Addr) : FullM Unit := do
  if p = 0 then return ()
  else
    releaseBlock su who p
    lift (cliFree p)

/-- The part of `ml_realloc` after the lookup of the old block. -/
def reallocCopy (su : Setup) (who : Caller) (place : Place) (new : New) (pOld : Addr)
    (oldSzB newSzB : SizeT) : FullM (Option Addr) := do
  match ← newBlock su who place new newSzB mlMallocAlignment false with
  | none => return none
  | some pNew =>
    lift (vgMemmove pNew pOld (min oldSzB newSzB))
    dieBlock su who pOld
    return some pNew

def mlRealloc (su : Setup) (who : Caller) (place : Place) (new : New) (pOld : Addr)
    (newSzB : SizeT) : FullM (Option Addr) := do
  if pOld = 0 then newBlock su who place new newSzB mlMallocAlignment false
  else if newSzB = 0 ∧ su.clo.reallocZeroBytesFrees then
    dieBlock su who pOld
    return none
  else
    let newSzB := if newSzB = 0 then 1 else newSzB
    let oldBk ← findBlockContaining pOld
    let oldSzB ← if oldBk.isSome then Block.reqSzB <$> loadBlock oldBk
      else lift (cliMallocUsableSize pOld)
    reallocCopy su who place new pOld oldSzB newSzB

def mlMallocUsableSize (p : Addr) : FullM SizeT := do
  let bk ← findBlockContaining p
  if bk.isSome then
    let b ← loadBlock bk
    if b.payload = p then return b.reqSzB
  lift (cliMallocUsableSize p)

def mlHandleClientRequest (su : Setup) (who : Caller) (new : New) : ClientRequest → FullM Bool
  | .trackBlock addr size => do
    if 0 < size then
      let bk ← mallocBlock new.block
        { payload := addr, reqSzB := size, allocEc := who.ec, mx := false }
      enterBlock su new bk addr size
    return true
  | .untrackBlock addr => do
    releaseBlock su who addr
    return true
  | .other => return false

/-! ## The end of the run -/

/-- `VG_(umsg)` with `%lld`. -/
def printInt (n : Int) : Line :=
  if n < 0 then '-' :: Nat.toDigits 10 n.natAbs else Nat.toDigits 10 n.natAbs

/-- The lines of `ml_fini` about the MX emulation. -/
def mxReport (su : Setup) (st : MxStats) : List Line :=
  ["MX: esz=".toList ++ printInt su.clo.mxEsz ++ " mbits=".toList ++ printInt su.clo.mxMbits ++
      " emax=".toList ++ printInt su.clo.mxEmax ++ " emin=".toList ++ printInt su.clo.mxEmin ++
      " scale_bits=".toList ++ printInt su.clo.mxScaleBits ++ " sites=".toList ++
      printInt su.mxSites.length,
    "MX: blocks_marked=".toList ++ printDec st.blocksMarked ++ " bytes_marked=".toList ++
      printDec st.bytesMarked ++ " stores=".toList ++ printDec st.stores,
    "MX: values_changed=".toList ++ printDec st.valuesChanged ++ " values_flushed=".toList ++
      printDec st.valuesFlushed ++ " values_saturated=".toList ++ printDec st.valuesSaturated,
    "MX: blocks_nan=".toList ++ printDec st.blocksNan ++ " scales_clamped=".toList ++
      printDec st.scalesClamped]

/-- `free_rb_tree_recursive`; the fuel is the depth of the recursion. -/
def freeRbTreeRecursive : Nat → Option Ptr → FullM Unit
  | _, none => pure ()
  | 0, some _ => failure
  | fuel + 1, some node => do
    freeRbTreeRecursive fuel (← onTree (load (some node))).left
    freeRbTreeRecursive fuel (← onTree (load (some node))).right
    let data := (← onTree (load (some node))).data
    if data.isSome then freeBlock data
    freeNode node

def freeRbTree (depth : Nat) : FullM Unit := do
  freeRbTreeRecursive depth (← onTree getRoot)
  onTree (setRoot none)

/-- `ml_fini`, with a stack for calls of the given depth. -/
def mlFini (su : Setup) (depth : Nat) : FullM Unit := do
  lift flushLogBuffer
  if su.clo.mxRound then
    fun t => some ((), { t with messages := t.messages ++ mxReport su t.stats })
  freeRbTree depth

/-! ## Runs -/

/-- A step of a run. -/
def exec (su : Setup) (who : Caller) (place : Place) (new : New) : Op → FullM Unit
  | .malloc szB | .builtinNew szB | .builtinVecNew szB => do
    let _ ← newBlock su who place new szB mlMallocAlignment false
  | .builtinNewAligned szB alignB | .builtinVecNewAligned szB alignB | .memalign alignB szB => do
    let _ ← newBlock su who place new szB alignB false
  | .calloc nmemb size1 => do
    let _ ← newBlock su who place new (nmemb * size1) mlMallocAlignment true
  | .free p | .builtinDelete p | .builtinDeleteAligned p | .builtinVecDelete p
  | .builtinVecDeleteAligned p => dieBlock su who p
  | .realloc pOld newSzB => do let _ ← mlRealloc su who place new pOld newSzB
  | .mallocUsableSize p => do let _ ← mlMallocUsableSize p
  | .request req => do let _ ← mlHandleClientRequest su who new req
  | .logStore addr value => logStore su addr value
  | .mxAfterStore addr size => mxAfterStore su addr size
  | .write addr size value => lift (write addr size value)

/-- The runs of the tool: every call takes objects that are not in use. -/
inductive Run (su : Setup) : Tool → List Call → Tool → Prop where
  | refl (t : Tool) : Run su t [] t
  | step {t t₁ t₂ : Tool} {cs : List Call} (c : Call) (new : New) (hnew : new.Fresh t)
      (hexec : exec su c.who c.place new c.op t = some ((), t₁)) (hrun : Run su t₁ cs t₂) :
      Run su t (c :: cs) t₂

end Memlog.Full
