import Mathlib.Data.List.Infix
import Memlog.Mx.Model
import Memlog.Tool.Index

/-!
# The callbacks of `ml_main.c`

The state of a traced run: the tree of tracked blocks, the log buffer, the lines printed so far, and
on the side of the traced program its heap and its memory. The core's allocator is asked for a place
and takes any that is free (`cliMalloc`), so every choice that it can make is a run of the model;
its answer does not change the contents of the memory.
-/

namespace Memlog

open Lib

/-! ## Log buffer -/

/-- `VG_(printf)` with `%lx`. -/
def printHex (a : BitVec 64) : Line := Nat.toDigits 16 a.toNat

/-- `VG_(printf)` with `%lX`. -/
def printHexUpper (a : BitVec 64) : Line := (printHex a).map Char.toUpper

/-- `VG_(printf)` with `%lu`. -/
def printDec (n : BitVec 64) : Line := Nat.toDigits 10 n.toNat

/-- `LogEntry`; the fields that an event type does not use are left out. -/
inductive LogEntry where
  | store (addr : Addr) (value : HWord)
  | alloc (addr : Addr) (size : SizeT) (ec : Option ExeContext)
  | free (addr : Addr) (size : SizeT) (ec : Option ExeContext)
deriving DecidableEq

/-- The line `Start 0x%lx, size %lu`. -/
def printHeader (addr : Addr) (size : SizeT) : Line :=
  "Start 0x".toList ++ printHex addr ++ ", size ".toList ++ printDec size

/-- The lines that `flush_log_buffer` prints for an entry. -/
def LogEntry.print : LogEntry → List Line
  | store addr value => ["0x".toList ++ printHex addr ++ " 0x".toList ++ printHex value]
  | alloc addr size ec =>
    "===ALLOC START===".toList :: printHeader addr size ::
      (ec.getD ["(No allocation stack trace available)".toList] ++ ["===ALLOC END===".toList])
  | free addr size ec =>
    "===FREE START===".toList :: printHeader addr size ::
      (ec.getD ["(No free stack trace available)".toList] ++ ["===FREE END===".toList])

/-! ## State -/

/-- A live block of the traced program's heap: its address, the size that was asked for and the size
of its usable area. -/
structure CliBlock where
  start : Addr
  size : SizeT
  usable : SizeT
deriving DecidableEq

/-- What is fixed before the traced program starts; `maxLogEntries` is `MAX_LOG_ENTRIES`. -/
structure Setup where
  clo : Clo
  maxLogEntries : Nat
  mxSites : List Line
  maxLogEntries_pos : 1 ≤ maxLogEntries

/-- Settings as without options on the command line. -/
def plainSetup : Setup where
  clo := {}
  maxLogEntries := 3000000
  mxSites := []
  maxLogEntries_pos := by decide

/-- Settings under which every block of 32 bytes or more is marked. -/
def markAll : Setup where
  clo := { mxRound := true, minBlockSize := 32 }
  maxLogEntries := 3000000
  mxSites := []
  maxLogEntries_pos := by decide

/-- The settings of a run with a file of sites. -/
def sitesSetup (mxSites : List Line) : Setup where
  clo := { mxRound := true, mxSitesFile := some "sites.txt" }
  maxLogEntries := 3000000
  mxSites := mxSites
  maxLogEntries_pos := by decide

structure Tool where
  trackedBlocks : Tracked
  logBuffer : List LogEntry
  out : List Line
  heap : List CliBlock
  mem : Mem

/-- The state in which the traced program starts. -/
def Tool.init (mem : Mem) : Tool where
  trackedBlocks := .empty
  logBuffer := []
  out := []
  heap := []
  mem := mem

abbrev ToolM := StateT Tool Option

/-- Run a computation on `tracked_blocks`. -/
def onTracked {α : Type} (x : RbM Addr Block α) : ToolM α := fun t =>
  (x t.trackedBlocks).map fun r => (r.1, { t with trackedBlocks := r.2 })

def flushLogBuffer : ToolM Unit := fun t =>
  some ((), { t with out := t.out ++ t.logBuffer.flatMap LogEntry.print, logBuffer := [] })

def addToBuffer (su : Setup) (entry : LogEntry) : ToolM Unit := fun t =>
  let t := { t with logBuffer := t.logBuffer ++ [entry] }
  if su.maxLogEntries ≤ t.logBuffer.length then flushLogBuffer t else some ((), t)

/-! ## Stores -/

def logStore (su : Setup) (addr : Addr) (value : HWord) : ToolM Unit := do
  if ← onTracked (isTracked addr) then addToBuffer su (.store addr value)

def mxAfterStore (su : Setup) (addr : Addr) (size : HWord) : ToolM Unit := do
  match ← onTracked (findBlockContaining addr) with
  | some bk =>
    if bk.mx then
      fun t => some ((), { t with mem := mxReencode su.clo bk addr size t.mem })
  | none => pure ()

/-- A store of the traced program. -/
def write (addr : Addr) (size value : Nat) : ToolM Unit := fun t =>
  some ((), { t with mem := t.mem.storeLE addr size value })

/-! ## Allocating statements -/

/-- A frame of a thread's stack: the instruction address and the function name, if it is known. -/
structure Frame where
  ip : Addr
  fn : Option Line

/-- A calling thread: the stack trace that `VG_(record_ExeContext)` records, and the frames that
`VG_(get_StackTrace)` returns. -/
structure Caller where
  ec : ExeContext
  frames : List Frame

def isAllocatorFrame (fn : Line) : Bool :=
  decide ("malloc".toList <:+: fn) || decide ("calloc".toList <:+: fn) ||
    decide ("realloc".toList <:+: fn) || decide ("memalign".toList <:+: fn) ||
    decide ("operator new".toList <:+: fn) || decide ("_gfortran".toList <:+: fn)

/-- The loop of `mx_site_selected` over the frames. -/
def mxSiteSearch (mxSites : List Line) : List Frame → Bool
  | [] => false
  | ⟨ip, fn⟩ :: frames =>
    match fn with
    | none => mxSiteSearch mxSites frames
    | some fn =>
      if isAllocatorFrame fn then mxSiteSearch mxSites frames
      else mxSites.isEmpty ||
        mxSites.any fun site => fn == site || "0x".toList ++ printHexUpper ip == site

def mxSiteSelected (su : Setup) (who : Caller) : Bool :=
  (su.mxSites.isEmpty && !su.clo.mxListSites) || mxSiteSearch su.mxSites (who.frames.take 16)

/-! ## `malloc` and the rest -/

/-- The place that the core's allocator would take: an address and a usable size. -/
abbrev Place := Option (Addr × SizeT)

/-- The usable areas of two blocks do not meet. -/
def CliBlock.Apart (b c : CliBlock) : Prop :=
  b.start.toNat + b.usable.toNat ≤ c.start.toNat ∨ c.start.toNat + c.usable.toNat ≤ b.start.toNat

instance (b c : CliBlock) : Decidable (b.Apart c) := inferInstanceAs (Decidable (_ ∨ _))

/-- What every block of the core's allocator meets. -/
structure CliBlock.Ok (b : CliBlock) : Prop where
  start_ne : b.start ≠ 0
  size_le : b.size ≤ b.usable
  no_wrap : b.start.toNat + b.usable.toNat < 2 ^ 64

instance (b : CliBlock) : Decidable b.Ok :=
  decidable_of_iff (b.start ≠ 0 ∧ b.size ≤ b.usable ∧ b.start.toNat + b.usable.toNat < 2 ^ 64)
    ⟨fun ⟨h₁, h₂, h₃⟩ => ⟨h₁, h₂, h₃⟩, fun h => ⟨h.start_ne, h.size_le, h.no_wrap⟩⟩

/-- The block that `VG_(cli_malloc)` returns: the given place, if it is aligned and free. -/
def cliBlock (heap : List CliBlock) (place : Place) (alignB szB : SizeT) : Option CliBlock :=
  place.bind fun (p, usable) =>
    let b : CliBlock := ⟨p, szB, usable⟩
    if b.Ok ∧ alignB.toNat ∣ p.toNat ∧ ∀ c ∈ heap, b.Apart c then some b else none

def cliMalloc (place : Place) (alignB szB : SizeT) : ToolM (Option Addr) := fun t =>
  match cliBlock t.heap place alignB szB with
  | some b => some (some b.start, { t with heap := b :: t.heap })
  | none => some (none, t)

def cliFree (p : Addr) : ToolM Unit := fun t =>
  some ((), { t with heap := t.heap.filter fun b => b.start ≠ p })

def cliMallocUsableSize (p : Addr) : ToolM SizeT := fun t =>
  some (((t.heap.find? fun b => b.start = p).map CliBlock.usable).getD 0, t)

def vgMemset (p : Addr) (b : BitVec 8) (n : SizeT) : ToolM Unit := fun t =>
  some ((), { t with mem := t.mem.fill p b n.toNat })

def vgMemmove (dst src : Addr) (n : SizeT) : ToolM Unit := fun t =>
  some ((), { t with mem := t.mem.move dst src n.toNat })

/-- `ML_MALLOC_ALIGNMENT`. -/
def mlMallocAlignment : SizeT := 32

/-- The block is entered into the tree and an ALLOC record is logged. -/
def trackBlock (su : Setup) (bk : Block) : ToolM Unit := do
  onTracked (insertBlock bk)
  addToBuffer su (.alloc bk.payload bk.reqSzB (some bk.allocEc))

/-- The block that starts at an address is taken out of the tree and a FREE record is logged. -/
def untrackBlock (su : Setup) (who : Caller) (addr : Addr) : ToolM Unit := do
  match ← onTracked (findBlockContaining addr) with
  | some bk =>
    if bk.payload = addr then do
      addToBuffer su (.free addr bk.reqSzB (some who.ec))
      onTracked (removeBlock bk)
  | none => pure ()

/-- The block that `new_block` tracks. -/
def heapBlock (su : Setup) (who : Caller) (p : Addr) (szB : SizeT) : Block where
  payload := p
  reqSzB := szB
  allocEc := who.ec
  mx := su.clo.mxRound && mxSiteSelected su who

def newBlock (su : Setup) (who : Caller) (place : Place) (szB alignB : SizeT) (isZeroed : Bool) :
    ToolM (Option Addr) := do
  if szB.toInt < 0 then return none
  else
    let szB := if szB = 0 then 1 else szB
    match ← cliMalloc place alignB szB with
    | none => return none
    | some p =>
      if isZeroed then vgMemset p 0 szB
      if su.clo.minBlockSize ≤ szB.toNat then trackBlock su (heapBlock su who p szB)
      return some p

def dieBlock (su : Setup) (who : Caller) (p : Addr) : ToolM Unit := do
  if p = 0 then return ()
  else
    untrackBlock su who p
    cliFree p

section HeapCalls

variable (su : Setup) (who : Caller) (place : Place)

def mlMalloc (szB : SizeT) : ToolM (Option Addr) :=
  newBlock su who place szB mlMallocAlignment false

def mlBuiltinNew (szB : SizeT) : ToolM (Option Addr) :=
  newBlock su who place szB mlMallocAlignment false

def mlBuiltinNewAligned (szB alignB : SizeT) : ToolM (Option Addr) :=
  newBlock su who place szB alignB false

def mlBuiltinVecNew (szB : SizeT) : ToolM (Option Addr) :=
  newBlock su who place szB mlMallocAlignment false

def mlBuiltinVecNewAligned (szB alignB : SizeT) : ToolM (Option Addr) :=
  newBlock su who place szB alignB false

def mlMemalign (alignB szB : SizeT) : ToolM (Option Addr) :=
  newBlock su who place szB alignB false

def mlCalloc (nmemb size1 : SizeT) : ToolM (Option Addr) :=
  newBlock su who place (nmemb * size1) mlMallocAlignment true

def mlFree (p : Addr) : ToolM Unit := dieBlock su who p

def mlBuiltinDelete (p : Addr) : ToolM Unit := dieBlock su who p

def mlBuiltinDeleteAligned (p : Addr) : ToolM Unit := dieBlock su who p

def mlBuiltinVecDelete (p : Addr) : ToolM Unit := dieBlock su who p

def mlBuiltinVecDeleteAligned (p : Addr) : ToolM Unit := dieBlock su who p

def mlRealloc (pOld : Addr) (newSzB : SizeT) : ToolM (Option Addr) := do
  if pOld = 0 then mlMalloc su who place newSzB
  else if newSzB = 0 ∧ su.clo.reallocZeroBytesFrees then
    mlFree su who pOld
    return none
  else
    let newSzB := if newSzB = 0 then 1 else newSzB
    let oldSzB ← match ← onTracked (findBlockContaining pOld) with
      | some oldBk => pure oldBk.reqSzB
      | none => cliMallocUsableSize pOld
    match ← mlMalloc su who place newSzB with
    | none => return none
    | some pNew =>
      vgMemmove pNew pOld (min oldSzB newSzB)
      mlFree su who pOld
      return some pNew

def mlMallocUsableSize (p : Addr) : ToolM SizeT := do
  match ← onTracked (findBlockContaining p) with
  | some bk => if bk.payload = p then return bk.reqSzB else cliMallocUsableSize p
  | none => cliMallocUsableSize p

end HeapCalls

/-! ## Client requests -/

/-- The requests of `memlog.h`; a request for another tool is `other`. -/
inductive ClientRequest where
  | trackBlock (addr : Addr) (size : SizeT)
  | untrackBlock (addr : Addr)
  | other

def clientBlock (who : Caller) (addr : Addr) (size : SizeT) : Block where
  payload := addr
  reqSzB := size
  allocEc := who.ec
  mx := false

/-- Returns whether the request was for this tool. -/
def mlHandleClientRequest (su : Setup) (who : Caller) : ClientRequest → ToolM Bool
  | .trackBlock addr size => do
    if 0 < size then Memlog.trackBlock su (clientBlock who addr size)
    return true
  | .untrackBlock addr => do
    Memlog.untrackBlock su who addr
    return true
  | .other => return false

/-- The log part of `ml_fini`. -/
def mlFini : ToolM Unit := flushLogBuffer

/-! ## Runs -/

/-- A call that the core makes into the tool, or a store of the traced program. -/
inductive Op where
  | malloc (szB : SizeT)
  | builtinNew (szB : SizeT)
  | builtinNewAligned (szB alignB : SizeT)
  | builtinVecNew (szB : SizeT)
  | builtinVecNewAligned (szB alignB : SizeT)
  | memalign (alignB szB : SizeT)
  | calloc (nmemb size1 : SizeT)
  | free (p : Addr)
  | builtinDelete (p : Addr)
  | builtinDeleteAligned (p : Addr)
  | builtinVecDelete (p : Addr)
  | builtinVecDeleteAligned (p : Addr)
  | realloc (pOld : Addr) (newSzB : SizeT)
  | mallocUsableSize (p : Addr)
  | request (req : ClientRequest)
  | logStore (addr : Addr) (value : HWord)
  | mxAfterStore (addr : Addr) (size : HWord)
  | write (addr : Addr) (size value : Nat)

/-- A step of a run, with the thread that makes the call and the place that the core's allocator
takes if it is asked for one. The result of the call goes to the traced program. -/
def Op.exec (su : Setup) (who : Caller) (place : Place) : Op → ToolM Unit
  | malloc szB => do let _ ← mlMalloc su who place szB
  | builtinNew szB => do let _ ← mlBuiltinNew su who place szB
  | builtinNewAligned szB alignB => do let _ ← mlBuiltinNewAligned su who place szB alignB
  | builtinVecNew szB => do let _ ← mlBuiltinVecNew su who place szB
  | builtinVecNewAligned szB alignB => do let _ ← mlBuiltinVecNewAligned su who place szB alignB
  | memalign alignB szB => do let _ ← mlMemalign su who place alignB szB
  | calloc nmemb size1 => do let _ ← mlCalloc su who place nmemb size1
  | free p => mlFree su who p
  | builtinDelete p => mlBuiltinDelete su who p
  | builtinDeleteAligned p => mlBuiltinDeleteAligned su who p
  | builtinVecDelete p => mlBuiltinVecDelete su who p
  | builtinVecDeleteAligned p => mlBuiltinVecDeleteAligned su who p
  | realloc pOld newSzB => do let _ ← mlRealloc su who place pOld newSzB
  | mallocUsableSize p => do let _ ← mlMallocUsableSize p
  | request req => do let _ ← mlHandleClientRequest su who req
  | logStore addr value => Memlog.logStore su addr value
  | mxAfterStore addr size => Memlog.mxAfterStore su addr size
  | write addr size value => Memlog.write addr size value

end Memlog
