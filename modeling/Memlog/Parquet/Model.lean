import Mathlib.Algebra.Group.Nat.Defs
import Memlog.Lib.Text

/-!
# `to_parquet.py`

`convert_archive` streams the `.stores` members of an archive into one table. The columns are
collected in seven parallel buffers; a buffer that reaches the batch size is written as a table of
its own, with the dictionary of stack texts as it is then. An archive is given by its members with
their decoded texts. Of pyarrow only its contract is used (`Pyarrow`): an integer that does not fit
its column makes it raise, which ends the conversion.
-/

namespace Memlog.ToParquet

open Lib

/-! ## Rows and tables -/

/-- The three allocation types of `TYPE_DICT`. -/
inductive AllocType where
  | bits64
  | bits32
  | object
deriving DecidableEq

def AllocType.text : AllocType → List Char
  | bits64 => "64bits".toList
  | bits32 => "32bits".toList
  | object => "object".toList

def typeDict : List AllocType := [.bits64, .bits32, .object]

/-- `TYPE_IDX`. -/
def typeIdxOf (ty : AllocType) : Nat := typeDict.idxOf ty

/-- A row of the table. -/
structure StoreRow where
  allocAddr : BitVec 64
  allocSize : BitVec 64
  allocType : AllocType
  generation : BitVec 32
  allocStack : List Char
  offset : BitVec 64
  value : BitVec 64
deriving DecidableEq

/-- The key of the buffer that a row belongs to. -/
def StoreRow.key (r : StoreRow) : BitVec 64 × BitVec 32 := (r.allocAddr, r.generation)

/-- A `DictionaryArray`. -/
structure DictArray (w : Nat) (α : Type) where
  indices : List (BitVec w)
  dict : List α

/-- The value at a position. -/
def DictArray.get? {w : Nat} {α : Type} (a : DictArray w α) (i : Nat) : Option α :=
  (a.indices[i]?).bind fun k => a.dict[k.toNat]?

/-- A table of `SCHEMA`. -/
structure Table where
  allocAddr : List (BitVec 64)
  allocSize : List (BitVec 64)
  allocType : DictArray 8 AllocType
  generation : List (BitVec 32)
  allocStack : DictArray 32 (List Char)
  offset : List (BitVec 64)
  value : List (BitVec 64)

/-- The row at a position, with its dictionary values looked up. -/
def Table.row? (t : Table) (i : Nat) : Option StoreRow := do
  return {
    allocAddr := ← t.allocAddr[i]?
    allocSize := ← t.allocSize[i]?
    allocType := ← t.allocType.get? i
    generation := ← t.generation[i]?
    allocStack := ← t.allocStack.get? i
    offset := ← t.offset[i]?
    value := ← t.value[i]? }

def Table.rows (t : Table) : List StoreRow := (List.range t.offset.length).filterMap t.row?

/-! ## pyarrow -/

/-- The integer types of `SCHEMA`. -/
inductive IntType where
  | uint64
  | uint32
  | int32
  | int8

namespace IntType

def width : IntType → Nat
  | uint64 => 64
  | uint32 | int32 => 32
  | int8 => 8

/-- The values that are not negative are those below this. -/
def bound : IntType → Nat
  | uint64 => 2 ^ 64
  | uint32 => 2 ^ 32
  | int32 => 2 ^ 31
  | int8 => 2 ^ 7

end IntType

/-- What `flush` uses of pyarrow. `pa.array` with an integer type keeps the integers of the type and
raises for any other (no negative number is ever passed); `DictionaryArray.from_arrays` keeps
indices that are in the dictionary. -/
structure Pyarrow where
  Error : Type
  array (type : IntType) : List Nat → Except Error (List (BitVec type.width))
  fromArrays {w : Nat} {α : Type} : List (BitVec w) → List α → Except Error (DictArray w α)
  array_ok {type : IntType} {xs : List Nat} :
    (∀ x ∈ xs, x < type.bound) → array type xs = .ok (xs.map (BitVec.ofNat type.width))
  array_raises {type : IntType} {xs : List Nat} {x : Nat} :
    x ∈ xs → type.bound ≤ x → ∃ e, array type xs = .error e
  fromArrays_ok {w : Nat} {α : Type} {indices : List (BitVec w)} {dict : List α} :
    (∀ k ∈ indices, k.toNat < dict.length) → fromArrays indices dict = .ok ⟨indices, dict⟩

namespace Pyarrow

/-- The array functions that check every integer and every index. -/
def checking : Pyarrow where
  Error := Unit
  array type xs :=
    if xs.all (· < type.bound) then .ok (xs.map (BitVec.ofNat type.width)) else .error ()
  fromArrays indices dict :=
    if indices.all (·.toNat < dict.length) then .ok ⟨indices, dict⟩ else .error ()
  array_ok h := if_pos (by simpa using h)
  array_raises hx hle := ⟨(), if_neg (by simpa using ⟨_, hx, hle⟩)⟩
  fromArrays_ok h := if_pos (by simpa using h)

variable (pa : Pyarrow)

def uint64Array : List Nat → Except pa.Error (List (BitVec 64)) := pa.array .uint64

def uint32Array : List Nat → Except pa.Error (List (BitVec 32)) := pa.array .uint32

def int32Array : List Nat → Except pa.Error (List (BitVec 32)) := pa.array .int32

def int8Array : List Nat → Except pa.Error (List (BitVec 8)) := pa.array .int8

end Pyarrow

/-! ## Members -/

/-- A member of the archive. -/
structure Member where
  name : List Char
  isFile : Bool
  text : List Char

/-- `Path(name).name`: the last component that is not empty or a single dot. -/
def baseName (name : List Char) : List Char :=
  (((name.splitOn '/').filter fun part => part ≠ [] ∧ part ≠ ['.']).getLast?).getD []

/-- The alternatives of `NAME_RE` for the type. -/
def scanType (s : List Char) : Option (AllocType × List Char) :=
  typeDict.findSome? fun ty => (after ty.text s).map fun rest => (ty, rest)

/-- The groups of `NAME_RE`. -/
structure NameMatch where
  addrHex : List Char
  sizeStr : List Char
  type : AllocType
  genStr : List Char

/-- `NAME_RE`. -/
def matchName (base : List Char) : Option NameMatch := do
  let s ← after "0x".toList base
  let (addrHex, s) ← scan isHexDigit s
  let s ← after "_".toList s
  let (sizeStr, s) ← scan isDecDigit s
  let s ← after "_".toList s
  let (type, s) ← scanType s
  let s ← after "_".toList s
  let (genStr, s) ← scan isDecDigit s
  let s ← after ".stores".toList s
  if s = [] ∨ s = ['\n'] then return ⟨addrHex, sizeStr, type, genStr⟩ else none

/-- `STORE_RE`: the two groups. -/
def matchStore (line : List Char) : Option (List Char × List Char) := do
  let (offsetStr, s) ← scan isDecDigit line
  let s ← after ":0x".toList s
  let (valueHex, s) ← scan isHexDigit s
  if s.all isSpace then return (offsetStr, valueHex) else none

/-- `_read_stack_header` on the lines of a member: the stack lines, the first other line, and what
is left. -/
def readStackHeader : List (List Char) → List (List Char) × Option (List Char) × List (List Char)
  | [] => ([], none, [])
  | raw :: rest =>
    if raw.head? = some '#' then
      let (stackLines, firstBody, body) := readStackHeader rest
      (strip raw.tail :: stackLines, firstBody, body)
    else ([], some raw, rest)

/-! ## The conversion -/

/-- The column buffers. -/
structure Buffers where
  allocAddr : List Nat
  allocSize : List Nat
  typeIdx : List Nat
  generation : List Nat
  stackIdx : List Nat
  offset : List Nat
  value : List Nat

def Buffers.empty : Buffers := ⟨[], [], [], [], [], [], []⟩

/-- The table that a flush writes. -/
def Buffers.table (pa : Pyarrow) (buf : Buffers) (stackDictStrs : List (List Char)) :
    Except pa.Error Table := do
  return {
    allocAddr := ← pa.uint64Array buf.allocAddr
    allocSize := ← pa.uint64Array buf.allocSize
    allocType := ← pa.fromArrays (← pa.int8Array buf.typeIdx) typeDict
    generation := ← pa.uint32Array buf.generation
    allocStack := ← pa.fromArrays (← pa.int32Array buf.stackIdx) stackDictStrs
    offset := ← pa.uint64Array buf.offset
    value := ← pa.uint64Array buf.value }

/-- The variables of `convert_archive`; `writer` has the tables that have been written. -/
structure Converter where
  buf : Buffers
  stackDictStrs : List (List Char)
  stackIdxOf : List Char → Option Nat
  nAlloc : Nat
  nStores : Nat
  skipped : Nat
  writer : Option (List Table)

namespace Converter

def init : Converter := ⟨.empty, [], fun _ => none, 0, 0, 0, none⟩

def flush (pa : Pyarrow) (c : Converter) : Except pa.Error Converter :=
  if c.buf.offset.isEmpty then .ok c
  else do
    let table ← c.buf.table pa c.stackDictStrs
    return { c with writer := some (c.writer.getD [] ++ [table]), buf := .empty }

/-- The index of a stack text, which is added to the dictionary if it is new. -/
def stackIndex (c : Converter) (stackStr : List Char) : Nat × Converter :=
  match c.stackIdxOf stackStr with
  | some sidx => (sidx, c)
  | none =>
    let sidx := c.stackDictStrs.length
    (sidx, { c with
      stackDictStrs := c.stackDictStrs ++ [stackStr]
      stackIdxOf := Function.update c.stackIdxOf stackStr (some sidx) })

end Converter

/-- The constants of the loop body for one member. -/
structure MemberInfo where
  addr : Nat
  size : Nat
  tIdx : Nat
  generation : Nat
  stackStr : List Char

/-- The variables of the loop body for one member; `sidxForAlloc` is negative until the first store,
which is `none` here. -/
structure Reading where
  conv : Converter
  sidxForAlloc : Option Nat
  nInAlloc : Nat

/-- One row more in the buffers. -/
def Buffers.push (buf : Buffers) (info : MemberInfo) (sidx offset value : Nat) : Buffers where
  allocAddr := buf.allocAddr ++ [info.addr]
  allocSize := buf.allocSize ++ [info.size]
  typeIdx := buf.typeIdx ++ [info.tIdx]
  generation := buf.generation ++ [info.generation]
  stackIdx := buf.stackIdx ++ [sidx]
  offset := buf.offset ++ [offset]
  value := buf.value ++ [value]

def Converter.push (c : Converter) (info : MemberInfo) (sidx offset value : Nat) : Converter :=
  { c with buf := c.buf.push info sidx offset value, nStores := c.nStores + 1 }

/-- The flush at the end of `consume_line`. -/
def Converter.flushIfFull (pa : Pyarrow) (batchRows : Nat) (c : Converter) :
    Except pa.Error Converter :=
  if batchRows ≤ c.buf.offset.length then c.flush pa else .ok c

/-- The index of the member's stack text, looked up at the first store. -/
def Reading.stackIndex (s : Reading) (stackStr : List Char) : Nat × Converter :=
  match s.sidxForAlloc with
  | some sidx => (sidx, s.conv)
  | none => s.conv.stackIndex stackStr

def consumeLine (pa : Pyarrow) (batchRows : Nat) (info : MemberInfo) (s : Reading)
    (raw : List Char) : Except pa.Error Reading :=
  match matchStore raw with
  | none => .ok s
  | some (offsetStr, valueHex) => do
    let (sidx, c) := s.stackIndex info.stackStr
    let c := c.push info sidx (numeral 10 decVal offsetStr) (numeral 16 hexVal valueHex)
    let c ← c.flushIfFull pa batchRows
    return ⟨c, some sidx, s.nInAlloc + 1⟩

/-- The body of a member: the line that ended the header, and the lines after it. -/
def consumeBody (pa : Pyarrow) (batchRows : Nat) (info : MemberInfo) (s : Reading)
    (firstBody : Option (List Char)) (body : List (List Char)) : Except pa.Error Reading :=
  match firstBody with
  | some raw => do
    let s ← consumeLine pa batchRows info s raw
    body.foldlM (consumeLine pa batchRows info) s
  | none => body.foldlM (consumeLine pa batchRows info) s

/-- What the name and the header of a member say. -/
def memberInfo (name : NameMatch) (stackLines : List (List Char)) : MemberInfo where
  addr := numeral 16 hexVal name.addrHex
  size := numeral 10 decVal name.sizeStr
  tIdx := typeIdxOf name.type
  generation := numeral 10 decVal name.genStr
  stackStr := ['\n'].intercalate stackLines

/-- The body of the loop over the members. -/
def convertMember (pa : Pyarrow) (batchRows : Nat) (c : Converter) (m : Member) :
    Except pa.Error Converter :=
  if !m.isFile then .ok c
  else if !(".stores".toList.isSuffixOf (baseName m.name)) then .ok c
  else
    match matchName (baseName m.name) with
    | none => .ok { c with skipped := c.skipped + 1 }
    | some name => do
      let (stackLines, firstBody, body) := readStackHeader (splitFeeds m.text)
      let info := memberInfo name stackLines
      let s ← consumeBody pa batchRows info ⟨c, none, 0⟩ firstBody body
      if s.nInAlloc = 0 then return s.conv
      else return { s.conv with nAlloc := s.conv.nAlloc + 1 }

/-- What `convert_archive` leaves and returns: the tables of the file, and the two counts. -/
structure Parquet where
  tables : List Table
  nAlloc : Nat
  nStores : Nat

/-- The rows of the file, as `write_table` appends them. -/
def Parquet.rows (p : Parquet) : List StoreRow := p.tables.flatMap Table.rows

/-- `BATCH_ROWS`. -/
def batchRows : Nat := 2 ^ 20

/-- `convert_archive`, for any batch size. -/
def convertArchive (pa : Pyarrow) (batchRows : Nat) (archive : List Member) :
    Except pa.Error Parquet := do
  let c ← archive.foldlM (convertMember pa batchRows) .init
  let c ← c.flush pa
  return ⟨c.writer.getD [], c.nAlloc, c.nStores⟩

end Memlog.ToParquet
