import Mathlib.Order.Lattice
import Memlog.Lib.ByteMem

/-!
# Machine types, command line and blocks of `ml_main.c`

`Addr`, `SizeT`, `ULong` and `HWord` are 64-bit words; `Long` is an integer, since no value of that
type comes near its bounds. The settings that the command line admits are a structure whose fields
carry their ranges, so a setting outside them cannot be built: `mlProcessCmdLineOption` is the only
way to change one.
-/

namespace Memlog

abbrev Addr := BitVec 64

abbrev SizeT := BitVec 64

abbrev ULong := BitVec 64

abbrev HWord := BitVec 64

/-- The memory of the traced program. -/
abbrev Mem := Lib.ByteMem 64

/-- Words are ordered as unsigned numbers. -/
instance instLinearOrderWord {w : Nat} : LinearOrder (BitVec w) where
  le_refl := BitVec.le_refl
  le_trans _ _ _ := BitVec.le_trans
  lt_iff_le_not_ge a b := by
    rw [BitVec.lt_def, BitVec.le_def, BitVec.le_def]
    omega
  le_antisymm _ _ := BitVec.le_antisymm
  le_total := BitVec.le_total
  toDecidableLE := inferInstance

/-! ## Command line -/

/-- The `clo_*` variables, with `VG_(clo_realloc_zero_bytes_frees)` of the core. -/
structure Clo where
  minBlockSize : Nat := 4096
  mxRound : Bool := false
  mxMbits : Nat := 3
  mxEmax : Nat := 8
  mxEmin : Int := -6
  mxSitesFile : Option String := none
  mxListSites : Bool := false
  mxEsz : Nat := 8
  mxScaleBits : Nat := 8
  reallocZeroBytesFrees : Bool := true
  minBlockSize_range : 1 ≤ minBlockSize ∧ minBlockSize ≤ 1024 * 1024 * 1024 := by decide
  mxMbits_range : mxMbits ≤ 52 := by decide
  mxEmax_range : mxEmax ≤ 1023 := by decide
  mxEmin_range : -1022 ≤ mxEmin ∧ mxEmin ≤ 0 := by decide
  mxEsz_range : 4 ≤ mxEsz ∧ mxEsz ≤ 8 := by decide
  mxScaleBits_range : 1 ≤ mxScaleBits ∧ mxScaleBits ≤ 16 := by decide

/-- An option of the command line with its value. -/
inductive CloArg where
  | minBlockSize (n : Int)
  | mxRound (b : Bool)
  | mxMbits (n : Int)
  | mxEmax (n : Int)
  | mxEmin (n : Int)
  | mxSitesFile (path : String)
  | mxListSites (b : Bool)
  | mxEsz (n : Int)
  | mxScaleBits (n : Int)
  | reallocZeroBytesFrees (b : Bool)

/-- `ml_process_cmd_line_option`; `none` is the abort that `VG_BINT_CLO` causes when a value is out
of bounds. -/
def mlProcessCmdLineOption (c : Clo) : CloArg → Option Clo
  | .minBlockSize n =>
    if h : 1 ≤ n ∧ n ≤ 1024 * 1024 * 1024 then
      some { c with minBlockSize := n.toNat, minBlockSize_range := by omega }
    else none
  | .mxRound b => some { c with mxRound := b }
  | .mxMbits n =>
    if h : 0 ≤ n ∧ n ≤ 52 then some { c with mxMbits := n.toNat, mxMbits_range := by omega }
    else none
  | .mxEmax n =>
    if h : 0 ≤ n ∧ n ≤ 1023 then some { c with mxEmax := n.toNat, mxEmax_range := by omega }
    else none
  | .mxEmin n =>
    if h : -1022 ≤ n ∧ n ≤ 0 then some { c with mxEmin := n, mxEmin_range := h } else none
  | .mxSitesFile path => some { c with mxSitesFile := some path }
  | .mxListSites b => some { c with mxListSites := b }
  | .mxEsz n =>
    if h : 4 ≤ n ∧ n ≤ 8 then some { c with mxEsz := n.toNat, mxEsz_range := by omega } else none
  | .mxScaleBits n =>
    if h : 1 ≤ n ∧ n ≤ 16 then
      some { c with mxScaleBits := n.toNat, mxScaleBits_range := by omega }
    else none
  | .reallocZeroBytesFrees b => some { c with reallocZeroBytesFrees := b }

/-! ## Blocks -/

/-- A line of text, without its line end. -/
abbrev Line := List Char

/-- A recorded stack trace, as the lines that `VG_(pp_ExeContext)` prints. -/
abbrev ExeContext := List Line

/-- `Block`. -/
structure Block where
  payload : Addr
  reqSzB : SizeT
  allocEc : ExeContext
  mx : Bool
deriving DecidableEq

end Memlog
