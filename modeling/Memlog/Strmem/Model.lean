import Memlog.Lib.Writes
import Memlog.Tool.Basic

/-!
# The replacements of `memcpy` and its family

`vg_replace_strmem.c`, which `ml_replace_strmem.c` includes: the functions that copy or set memory
in place of those of the C library, on a 64-bit machine (`sizeof(UWord)` is 8). They run on the
simulated processor, so that their stores are instrumented; the model keeps the stores that they
make, in order.
-/

namespace Memlog.Strmem

open Lib

/-- The memory and the stores that have been made. -/
structure Trace where
  mem : Mem
  stores : List (Put 64)

/-- A store of the `k` bytes of a value. -/
def Trace.store (t : Trace) (a : Addr) (k value : Nat) : Trace where
  mem := t.mem.storeLE a k value
  stores := t.stores ++ [⟨a, k, value⟩]

/-- `*(T*)d = *(T*)s`, for a type of `k` bytes. -/
def Trace.copy (t : Trace) (d s : Addr) (k : Nat) : Trace := t.store d k (t.mem.loadLE s k)

/-- `is_overlap`. -/
def isOverlap (dst src : Addr) (dstlen srclen : SizeT) : Bool :=
  if dstlen = 0 ∨ srclen = 0 then false
  else
    let loS := src
    let loD := dst
    let hiS := loS + srclen - 1
    let hiD := loD + dstlen - 1
    if loS < loD then !(hiS < loD : Bool)
    else if loD < loS then !(hiD < loS : Bool)
    else true

/-! ## Loops over words -/

/-- The loops that both `memmove` and `memset` have: bytes up to a word boundary of `addr`, four
words a round, then word by word. `put k` does the next `k` of the `left` bytes. -/
def byWords {σ : Type} (addr : σ → Addr) (left : σ → Nat) (put : Nat → σ → σ) (c : σ) : σ :=
  let c := whileLoop left (fun c => addr c &&& 7 ≠ 0 ∧ 1 ≤ left c) (put 1) c
  let c := whileLoop left (fun c => 32 ≤ left c) (fun c => put 8 (put 8 (put 8 (put 8 c)))) c
  whileLoop left (fun c => 8 ≤ left c) (put 8) c

/-! ## `memmove` and `memcpy` -/

/-- The variables of the copying loops. -/
structure Cursor extends Trace where
  d : Addr
  s : Addr
  n : Nat

/-- `*(T*)d = *(T*)s; s += k; d += k; n -= k;` -/
def copyUp (k : Nat) (c : Cursor) : Cursor where
  toTrace := c.copy c.d c.s k
  d := c.d + BitVec.ofNat 64 k
  s := c.s + BitVec.ofNat 64 k
  n := c.n - k

/-- `s -= k; d -= k; *(T*)d = *(T*)s; n -= k;` -/
def copyDown (k : Nat) (c : Cursor) : Cursor where
  toTrace := c.copy (c.d - BitVec.ofNat 64 k) (c.s - BitVec.ofNat 64 k) k
  d := c.d - BitVec.ofNat 64 k
  s := c.s - BitVec.ofNat 64 k
  n := c.n - k

/-- What follows the words: pairs of bytes when both addresses are even, then bytes. -/
def copyLeftovers (copy : Nat → Cursor → Cursor) (c : Cursor) : Cursor :=
  let c :=
    if (c.s ||| c.d) &&& 1 = 0 then whileLoop Cursor.n (fun c => 2 ≤ c.n) (copy 2) c else c
  whileLoop Cursor.n (fun c => 1 ≤ c.n) (copy 1) c

/-- The loops of one direction. -/
def copyLoops (copy : Nat → Cursor → Cursor) (c : Cursor) : Cursor :=
  if (c.s ^^^ c.d) &&& 7 = 0 then
    let c := byWords Cursor.s Cursor.n copy c
    if c.n = 0 then c else copyLeftovers copy c
  else copyLeftovers copy c

/-- `MEMMOVE_OR_MEMCPY`. On amd64 Linux `memcpy` does not check for overlap either. -/
def memmoveOrMemcpy (dst src : Addr) (len : SizeT) (m : Mem) : Trace :=
  let start : Trace := ⟨m, []⟩
  if 0 < len then
    if dst < src ∨ !isOverlap dst src len len then
      (copyLoops copyUp ⟨start, dst, src, len.toNat⟩).toTrace
    else if src < dst then
      (copyLoops copyDown ⟨start, dst + len, src + len, len.toNat⟩).toTrace
    else start
  else start

/-! ## Byte by byte -/

/-- `for (i = 0; i < n; i++) dst[i] = src[i]` -/
def copyAscending (dst src : Addr) (n : Nat) (t : Trace) : Trace :=
  (List.range n).foldl
    (fun t i => t.copy (dst + BitVec.ofNat 64 i) (src + BitVec.ofNat 64 i) 1) t

/-- `for (i = 0; i < n; i++) dst[n-i-1] = src[n-i-1]` -/
def copyDescending (dst src : Addr) (n : Nat) (t : Trace) : Trace :=
  (List.range n).foldl
    (fun t i =>
      t.copy (dst + BitVec.ofNat 64 (n - i - 1)) (src + BitVec.ofNat 64 (n - i - 1)) 1) t

/-- `BCOPY`, which takes the source first. -/
def bcopy (srcV dstV : Addr) (n : SizeT) (m : Mem) : Trace :=
  let start : Trace := ⟨m, []⟩
  if dstV < srcV then copyAscending dstV srcV n.toNat start
  else if srcV < dstV then copyDescending dstV srcV n.toNat start
  else start

/-- `GLIBC25___MEMMOVE_CHK`; the program is terminated when the destination is too small. -/
def memmoveChk (dstV srcV : Addr) (n destlen : SizeT) (m : Mem) : Option Trace :=
  let start : Trace := ⟨m, []⟩
  if destlen < n then none
  else if dstV < srcV then some (copyAscending dstV srcV n.toNat start)
  else if srcV < dstV then some (copyDescending dstV srcV n.toNat start)
  else some start

/-- `GLIBC26___MEMCPY_CHK`. Its pointers step after the store: `*d-- = *s--`, `*d++ = *s++`. -/
def memcpyChk (dst src : Addr) (len dstlen : SizeT) (m : Mem) : Option Trace :=
  let start : Trace := ⟨m, []⟩
  if dstlen < len then none
  else if len = 0 then some start
  else if src < dst then
    some (whileLoop Cursor.n (fun c => c.n ≠ 0)
      (fun c => ⟨c.copy c.d c.s 1, c.d - 1, c.s - 1, c.n - 1⟩)
      ⟨start, dst + len - 1, src + len - 1, len.toNat⟩).toTrace
  else if dst < src then
    some (whileLoop Cursor.n (fun c => c.n ≠ 0)
      (fun c => ⟨c.copy c.d c.s 1, c.d + 1, c.s + 1, c.n - 1⟩)
      ⟨start, dst, src, len.toNat⟩).toTrace
  else some start

/-! ## `memset` -/

/-- The variables of the loops of `memset`. -/
structure Filler extends Trace where
  a : Addr
  n : Nat

/-- The byte `c & 0xFF` in each of the eight bytes of a word. -/
def c8 (c : BitVec 32) : ULong :=
  let c8 := (c &&& 0xFF).setWidth 64
  let c8 := (c8 <<< 8) ||| c8
  let c8 := (c8 <<< 16) ||| c8
  (c8 <<< 32) ||| c8

/-- `*(ULong*)a = c8; a += 8; n -= 8;`, and `*(UChar*)a = (UChar)c; a += 1; n -= 1;` for a byte. -/
def fillUp (c : BitVec 32) (k : Nat) (f : Filler) : Filler where
  toTrace := f.store f.a k (if k = 8 then (c8 c).toNat else (c.setWidth 8).toNat)
  a := f.a + BitVec.ofNat 64 k
  n := f.n - k

/-- `MEMSET`. -/
def memset (s : Addr) (c : BitVec 32) (n : SizeT) (m : Mem) : Trace :=
  let f := byWords Filler.a Filler.n (fillUp c) ⟨⟨m, []⟩, s, n.toNat⟩
  (whileLoop Filler.n (fun f => 1 ≤ f.n) (fillUp c 1) f).toTrace

end Memlog.Strmem
