import Mathlib.Data.List.AList
import Mathlib.Data.List.MinMax
import Memlog.Lib.Text
import Memlog.Tool.Basic

/-!
# `parser.py`

`parse_log` reads the printed log line by line and writes one `.stores` file for each allocation
that has stores. Python objects of class `LiveAlloc` are mutable and shared between `live_list` and
the stacks of `live_allocs`, so the parser's state holds them in a table and everything else refers
to them by their place in it. An exception ends the parse and is the `error` of the result.
-/

namespace Memlog

open Lib

/-! ## File handle cache -/

/-- The name of a file in the output directory. -/
abbrev Path := List Char

/-- The files of the output directory with their contents. -/
abbrev Files := Path → Option (List Char)

/-- An open file: what has been written to the handle and is not in the file yet, and the handle's
tick in the cache. -/
structure Handle where
  pending : List Char
  tick : Nat

/-- What `parse_log` can raise: a `ValueError` of its own, or one of the errors of `min`, of a list
index, of `list.index` and of `os.replace`. -/
inductive ParseError where
  | valueError (msg : List Char)
  | emptySequence
  | indexError
  | notInList
  | fileNotFound
deriving DecidableEq

/-- A `FileCache`, with the directory that its handles write to. -/
structure FileCache where
  maxOpen : Nat
  handles : AList fun _ : Path => Handle
  tick : Nat
  files : Files

namespace FileCache

def init (maxOpen : Nat) (files : Files) : FileCache := ⟨maxOpen, ∅, 0, files⟩

/-- Closing a handle brings what has been written to it to the end of the file. -/
def close (c : FileCache) (path : Path) : FileCache :=
  match c.handles.lookup path with
  | some h =>
    { c with
      handles := c.handles.erase path
      files := Function.update c.files path (some ((c.files path).getD [] ++ h.pending)) }
  | none => c

def evictIfNeeded (c : FileCache) : Except ParseError FileCache :=
  if c.handles.entries.length < c.maxOpen then .ok c
  else
    match c.handles.entries.argmin fun e => e.2.tick with
    | some e => .ok (c.close e.1)
    | none => .error .emptySequence

/-- `open(path, "a")`, which makes the file if there is none. -/
def openAppend (c : FileCache) (path : Path) : FileCache :=
  { c with
    handles := c.handles.insert path ⟨[], c.tick⟩
    files := Function.update c.files path (some ((c.files path).getD [])) }

/-- `write` on the handle of the path, whose tick is brought up to date. -/
def append (c : FileCache) (path : Path) (line : List Char) : FileCache :=
  match c.handles.lookup path with
  | some h => { c with handles := c.handles.insert path ⟨h.pending ++ line, c.tick⟩ }
  | none => c

def writeLine (c : FileCache) (path : Path) (line : List Char) : Except ParseError FileCache := do
  let c := { c with tick := c.tick + 1 }
  let c ← if path ∈ c.handles then .ok c else (·.openAppend path) <$> c.evictIfNeeded
  return c.append path line

def closePath (c : FileCache) (path : Path) : FileCache := c.close path

def closeAll (c : FileCache) : FileCache := c.handles.keys.foldl close c

end FileCache

/-! ## Live allocations -/

/-- `bisect.bisect_left` on a sorted list. -/
def bisectLeft (xs : List Nat) (x : Nat) : Nat := (xs.takeWhile (· < x)).length

/-- `bisect.bisect_right` on a sorted list. -/
def bisectRight (xs : List Nat) (x : Nat) : Nat := (xs.takeWhile (· ≤ x)).length

/-- A `LiveAlloc`; `end` and `tmp_path` are computed from the other fields, as its constructor does
once and for all. -/
structure LiveAlloc where
  start : Nat
  size : Nat
  baseCore : List Char
  usageNum : Nat
  storeCount : Nat := 0
  aligned32 : Bool := true
  aligned64 : Bool := true
  stackLines : List (List Char) := []
deriving Inhabited

namespace LiveAlloc

def tmpPath (a : LiveAlloc) : Path :=
  ".".toList ++ a.baseCore ++ "_".toList ++ Nat.toDigits 10 a.usageNum ++ ".tmp".toList

/-- `start <= addr < end`. -/
def Contains (a : LiveAlloc) (addr : Nat) : Prop := a.start ≤ addr ∧ addr < a.start + a.size

instance (a : LiveAlloc) (addr : Nat) : Decidable (a.Contains addr) :=
  inferInstanceAs (Decidable (_ ∧ _))

def outOfBoundsMsg (addrHex : List Char) : List Char :=
  "Store address 0x".toList ++ addrHex ++ " out of bounds for alloc".toList

/-- The line of a `.stores` file for a store. -/
def storeLine (offset : Nat) (valueHex : List Char) : List Char :=
  Nat.toDigits 10 offset ++ ":0x".toList ++ valueHex.map Char.toLower ++ "\n".toList

def writeStore (a : LiveAlloc) (addrHex valueHex : List Char) (cache : FileCache) :
    Except ParseError (LiveAlloc × FileCache) := do
  let addr := numeral 16 hexVal addrHex
  if a.Contains addr then
    let offset := addr - a.start
    let cache ← cache.writeLine a.tmpPath (storeLine offset valueHex)
    return ({ a with
      storeCount := a.storeCount + 1
      aligned32 := a.aligned32 && offset % 4 == 0
      aligned64 := a.aligned64 && offset % 8 == 0 }, cache)
  else throw (.valueError (outOfBoundsMsg addrHex))

def typeName (a : LiveAlloc) : List Char :=
  if a.aligned32 then if a.aligned64 then "64bits".toList else "32bits".toList
  else "object".toList

def target (a : LiveAlloc) : Path :=
  a.baseCore ++ "_".toList ++ a.typeName ++ "_".toList ++ Nat.toDigits 10 a.usageNum ++
    ".stores".toList

def closeAndFinalize (a : LiveAlloc) (cache : FileCache) : Except ParseError FileCache :=
  let cache := cache.closePath a.tmpPath
  if a.storeCount = 0 then
    .ok { cache with files := Function.update cache.files a.tmpPath none }
  else
    match cache.files a.tmpPath with
    | some text =>
      .ok { cache with
        files := Function.update (Function.update cache.files a.tmpPath none) a.target (some text) }
    | none => .error .fileNotFound

end LiveAlloc

/-! ## `parse_log` -/

/-- `ALLOC_HEADER_RE`: the two groups. -/
def matchAllocHeader (line : List Char) : Option (List Char × List Char) := do
  let s ← after "Start".toList line
  let (_, s) ← scan isSpace s
  let s ← after "0x".toList s
  let (startHex, s) ← scan isHexDigit s
  let s ← after ",".toList s
  let (_, s) ← scan isSpace s
  let s ← after "size".toList s
  let (_, s) ← scan isSpace s
  let (sizeStr, _) ← scan isDecDigit s
  return (startHex, sizeStr)

/-- `STORE_RE`: the two groups. -/
def matchStore (line : List Char) : Option (List Char × List Char) := do
  let s ← after "0x".toList line
  let (addrHex, s) ← scan isHexDigit s
  let (_, s) ← scan isSpace s
  let s ← after "0x".toList s
  let (valueHex, _) ← scan isHexDigit s
  return (addrHex, valueHex)

/-- The place of a `LiveAlloc` in the table of objects. -/
abbrev Ref := Nat

/-- The variables of `parse_log`. -/
structure Parser where
  objects : Ref → LiveAlloc
  nextRef : Ref
  liveAllocs : Nat → List Ref
  startsSorted : List Nat
  liveList : List Ref
  addressUsageCount : Nat → Nat
  fileCache : FileCache
  insideAlloc : Bool
  insideFree : Bool
  currentBuilding : Option Ref

namespace Parser

def init (maxOpenFiles : Nat) (files : Files) : Parser where
  objects := fun _ => default
  nextRef := 0
  liveAllocs := fun _ => []
  startsSorted := []
  liveList := []
  addressUsageCount := fun _ => 0
  fileCache := .init maxOpenFiles files
  insideAlloc := false
  insideFree := false
  currentBuilding := none

/-- `_add`. -/
def add (p : Parser) (ref : Ref) : Parser :=
  let start := (p.objects ref).start
  let idx := bisectLeft p.startsSorted start
  { p with
    startsSorted := p.startsSorted.insertIdx idx start
    liveList := p.liveList.insertIdx idx ref
    liveAllocs := Function.update p.liveAllocs start (p.liveAllocs start ++ [ref]) }

/-- `_remove`. -/
def remove (p : Parser) (ref : Ref) : Except ParseError Parser :=
  let start := (p.objects ref).start
  match p.liveList.idxOf? ref with
  | some idx =>
    if idx < p.startsSorted.length ∧ p.liveAllocs start ≠ [] then
      .ok { p with
        startsSorted := p.startsSorted.eraseIdx idx
        liveList := p.liveList.eraseIdx idx
        liveAllocs := Function.update p.liveAllocs start (p.liveAllocs start).dropLast }
    else .error .indexError
  | none => .error .notInList

def notLiveMsg (addrHex : List Char) (live : Nat) : List Char :=
  "STORE 0x".toList ++ addrHex ++ " does not belong to any live ALLOC. (live=".toList ++
    Nat.toDigits 10 live ++ ").".toList

/-- The allocation that the STORE branch takes: the last one in order that starts at or below the
address, if it contains it, else the first that does. -/
def findAlloc (p : Parser) (addr : Nat) : Except ParseError (Option Ref) := do
  let fallback := p.liveList.find? fun ref => (p.objects ref).Contains addr
  match bisectRight p.startsSorted addr with
  | 0 => return fallback
  | pos + 1 =>
    match p.liveList[pos]? with
    | some ref => if (p.objects ref).Contains addr then return some ref else return fallback
    | none => throw .indexError

/-- The STORE branch. -/
def onStore (p : Parser) (addrHex valueHex : List Char) : Except ParseError Parser := do
  match ← p.findAlloc (numeral 16 hexVal addrHex) with
  | some ref =>
    let (alloc, fileCache) ← (p.objects ref).writeStore addrHex valueHex p.fileCache
    return { p with objects := Function.update p.objects ref alloc, fileCache := fileCache }
  | none => throw (.valueError (notLiveMsg addrHex p.liveList.length))

/-- A header in an ALLOC record. -/
def onAllocHeader (p : Parser) (startHex sizeStr : List Char) : Parser :=
  let start := numeral 16 hexVal startHex
  let size := numeral 10 decVal sizeStr
  let baseCore := "0x".toList ++ startHex.map Char.toLower ++ "_".toList ++ Nat.toDigits 10 size
  let usageNum := p.addressUsageCount start + 1
  let p := { p with
    addressUsageCount := Function.update p.addressUsageCount start usageNum
    objects := Function.update p.objects p.nextRef
      ⟨start, size, baseCore, usageNum, 0, true, true, []⟩
    nextRef := p.nextRef + 1
    currentBuilding := some p.nextRef }
  p.add (p.nextRef - 1)

/-- Another line in an ALLOC record. -/
def onStackLine (p : Parser) (line : List Char) : Parser :=
  match p.currentBuilding with
  | some ref =>
    let stripped := rstrip line
    if stripped.isEmpty then p
    else
      let alloc := p.objects ref
      { p with
        objects := Function.update p.objects ref
          { alloc with stackLines := alloc.stackLines ++ [stripped] } }
  | none => p

/-- The header of a `.stores` file. -/
def headerText (stackLines : List (List Char)) : List Char :=
  stackLines.flatMap fun sl => "# ".toList ++ sl ++ "\n".toList

/-- The line `===ALLOC END===`. -/
def onAllocEnd (p : Parser) : Except ParseError Parser := do
  let fileCache ← match p.currentBuilding with
    | some ref =>
      let alloc := p.objects ref
      if alloc.stackLines.isEmpty then pure p.fileCache
      else p.fileCache.writeLine alloc.tmpPath (headerText alloc.stackLines)
    | none => pure p.fileCache
  return { p with fileCache := fileCache, insideAlloc := false, currentBuilding := none }

/-- The end of an allocation: its file gets its name, and it is no longer live. -/
def finalize (p : Parser) (ref : Ref) : Except ParseError Parser := do
  let fileCache ← (p.objects ref).closeAndFinalize p.fileCache
  { p with fileCache := fileCache }.remove ref

/-- A header in a FREE record. -/
def onFreeHeader (p : Parser) (startHex : List Char) : Except ParseError Parser :=
  match (p.liveAllocs (numeral 16 hexVal startHex)).getLast? with
  | some ref => p.finalize ref
  | none => .ok p

/-- The body of the loop over the lines. -/
def onLine (p : Parser) (line : List Char) : Except ParseError Parser :=
  match matchStore line with
  | some (addrHex, valueHex) => p.onStore addrHex valueHex
  | none =>
    if "===ALLOC START===".toList.isPrefixOf line then
      .ok { p with insideAlloc := true, currentBuilding := none }
    else if "===ALLOC END===".toList.isPrefixOf line then p.onAllocEnd
    else if "===FREE START===".toList.isPrefixOf line then .ok { p with insideFree := true }
    else if "===FREE END===".toList.isPrefixOf line then .ok { p with insideFree := false }
    else if p.insideAlloc then
      match matchAllocHeader line with
      | some (startHex, sizeStr) => .ok (p.onAllocHeader startHex sizeStr)
      | none => .ok (p.onStackLine line)
    else if p.insideFree then
      match matchAllocHeader line with
      | some (startHex, _) => p.onFreeHeader startHex
      | none => .ok p
    else .ok p

/-- The loop over the lines. -/
def onLines (p : Parser) (lines : List (List Char)) : Except ParseError Parser :=
  lines.foldlM onLine p

/-- What follows the loop. -/
def finish (p : Parser) : Except ParseError Files := do
  let p ← p.liveList.foldlM finalize p
  return p.fileCache.closeAll.files

end Parser

/-- `parse_log` on the text of a log and an output directory: the directory that it leaves. -/
def parseLog (maxOpenFiles : Nat) (text : List Char) (files : Files) : Except ParseError Files := do
  let p ← (Parser.init maxOpenFiles files).onLines (splitLines text)
  p.finish

end Memlog
