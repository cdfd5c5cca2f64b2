import Memlog.Tool.Basic

/-!
# The MX encoder of `ml_main.c`

`mx_split` to `mx_encode_block`, and the loop of `mx_after_store` over the groups that a store
touches. The statistics counters, which only `ml_fini` prints, are left out.
-/

namespace Memlog

/-- `MX_BLOCK_ELEMS`. -/
abbrev mxBlockElems : Nat := 32

/-- `FpFmt`: the layout of the stored elements. -/
structure FpFmt where
  esz : Nat
  mant : Nat
  emask : Nat
  bias : Nat

/-- `FMT64`. -/
def fmt64 : FpFmt := ⟨8, 52, 0x7FF, 1023⟩

/-- `FMT32`. -/
def fmt32 : FpFmt := ⟨4, 23, 0xFF, 127⟩

/-- `mx_load`. -/
def mxLoad (f : FpFmt) (m : Mem) (a : Addr) : ULong :=
  if f.esz = 8 then BitVec.ofNat 64 (m.loadLE a 8) else BitVec.ofNat 64 (m.loadLE a 4)

/-- `mx_store`. -/
def mxStore (f : FpFmt) (m : Mem) (a : Addr) (v : ULong) : Mem :=
  if f.esz = 8 then m.storeLE a 8 v.toNat else m.storeLE a 4 v.toNat

/-- `__builtin_clzll`, for a nonzero argument. -/
def clzll (x : ULong) : Int := 63 - x.toNat.log2

/-- The exponent field of an element. -/
def mxExponent (f : FpFmt) (v : ULong) : ULong := (v >>> f.mant) &&& BitVec.ofNat 64 f.emask

/-- `mx_split`: the significand, and the exponent of its least significant bit. -/
def mxSplit (f : FpFmt) (v : ULong) : ULong × Int :=
  let e := mxExponent f v
  let sig := v &&& ((1#64 <<< f.mant) - 1#64)
  if e = 0#64 then (sig, 1 - f.bias - f.mant)
  else (sig ||| (1#64 <<< f.mant), e.toNat - f.bias - f.mant)

/-- `mx_lead`. -/
def mxLead (f : FpFmt) (v : ULong) : Int :=
  let (sig, lsb) := mxSplit f v
  lsb + 63 - clzll sig

/-- `mx_max_sig`. -/
def mxMaxSig (clo : Clo) : ULong :=
  let ones := (1#64 <<< (clo.mxMbits + 1)) - 1#64
  if clo.mxMbits = 3 ∧ clo.mxEmax = 8 then ones - 1#64 else ones

/-- The exponent of the quantum that an element with leading exponent `lead` is rounded to. -/
def mxQuantum (clo : Clo) (lead shared : Int) : Int :=
  (if lead - shared ≥ clo.mxEmin then lead else shared + clo.mxEmin) - clo.mxMbits

/-- The end of `mx_quantize`: the element with the given sign and magnitude `r * 2 ^ qe`. -/
def mxAssemble (f : FpFmt) (sign r : ULong) (qe : Int) : ULong :=
  let rlead := qe + 63 - clzll r
  let be := rlead + f.bias
  if be ≥ f.emask then sign ||| (BitVec.ofNat 64 f.emask <<< f.mant)
  else if be ≤ 0 then sign ||| (r <<< (qe - (1 - f.bias - f.mant)).toNat)
  else
    sign ||| (BitVec.ofNat 64 be.toNat <<< f.mant) |||
      ((r <<< (f.mant - (rlead - qe)).toNat) &&& ((1#64 <<< f.mant) - 1#64))

/-- `mx_quantize`. -/
def mxQuantize (clo : Clo) (f : FpFmt) (v : ULong) (shared : Int) : ULong :=
  let sign := v &&& (1#64 <<< (8 * f.esz - 1))
  if v &&& ~~~sign = 0#64 then v
  else
    let (sig, lsb) := mxSplit f v
    let lead := lsb + 63 - clzll sig
    let qe := mxQuantum clo lead shared
    let shift := qe - lsb
    if shift ≤ 0 then v
    else
      let r := if shift < 64 then (sig + (1#64 <<< (shift - 1).toNat)) >>> shift.toNat else 0#64
      if r = 0#64 then sign
      else
        let r :=
          if qe = shared + clo.mxEmax - clo.mxMbits ∧ r > mxMaxSig clo then mxMaxSig clo else r
        mxAssemble f sign r qe

/-- `mx_nan_element`. -/
def mxNanElement (f : FpFmt) : ULong :=
  (BitVec.ofNat 64 f.emask <<< f.mant) ||| (1#64 <<< (f.mant - 1))

/-! ## One group -/

/-- What the first loop of `mx_encode_block` accumulates. -/
structure MxScan where
  any : Bool
  nonfinite : Bool
  lmax : Int
deriving DecidableEq

/-- One turn of the first loop of `mx_encode_block`. -/
def mxScanElement (f : FpFmt) (acc : MxScan) (v : ULong) : MxScan :=
  if v &&& ~~~(1#64 <<< (8 * f.esz - 1)) = 0#64 then acc
  else if mxExponent f v = BitVec.ofNat 64 f.emask then { acc with nonfinite := true }
  else
    let lead := mxLead f v
    { acc with any := true, lmax := if !acc.any || lead > acc.lmax then lead else acc.lmax }

/-- The address of the `i`-th element of a group. -/
def mxElemAddr (f : FpFmt) (base : Addr) (i : Nat) : Addr := base + BitVec.ofNat 64 (i * f.esz)

/-- The first loop of `mx_encode_block`. -/
def mxScan (f : FpFmt) (base : Addr) (n : Nat) (m : Mem) : MxScan :=
  (List.range n).foldl (fun acc i => mxScanElement f acc (mxLoad f m (mxElemAddr f base i)))
    ⟨false, false, 0⟩

/-- The loops of `mx_encode_block` that rewrite the elements of a group. -/
def mxRewrite (f : FpFmt) (base : Addr) (g : ULong → ULong) (n : Nat) (m : Mem) : Mem :=
  (List.range n).foldl
    (fun m i =>
      let a := mxElemAddr f base i
      let v := mxLoad f m a
      let q := g v
      if q ≠ v then mxStore f m a q else m)
    m

/-- The largest shared exponent, `semax`. -/
def mxScaleMax (clo : Clo) : Int := 2 ^ (clo.mxScaleBits - 1) - 1

/-- The address of a group. -/
def mxGroupBase (f : FpFmt) (bk : Block) (bi : SizeT) : Addr :=
  bk.payload + bi * BitVec.ofNat 64 mxBlockElems * BitVec.ofNat 64 f.esz

/-- The number of elements of a group. -/
def mxGroupLen (f : FpFmt) (bk : Block) (bi : SizeT) : Nat :=
  let left := bk.reqSzB / BitVec.ofNat 64 f.esz - bi * BitVec.ofNat 64 mxBlockElems
  if left < BitVec.ofNat 64 mxBlockElems then left.toNat else mxBlockElems

/-- `mx_encode_block`. -/
def mxEncodeBlock (clo : Clo) (f : FpFmt) (bk : Block) (bi : SizeT) (m : Mem) : Mem :=
  let base := mxGroupBase f bk bi
  let n := mxGroupLen f bk bi
  let acc := mxScan f base n m
  let shared := acc.lmax - clo.mxEmax
  if acc.nonfinite || (acc.any && shared > mxScaleMax clo) then
    mxRewrite f base (fun _ => mxNanElement f) n m
  else if !acc.any then m
  else
    let shared := if shared < -mxScaleMax clo then -mxScaleMax clo else shared
    mxRewrite f base (fun v => mxQuantize clo f v shared) n m

/-! ## The groups that a store touches -/

/-- The element format of a run. -/
def mxFormat (clo : Clo) : FpFmt := if clo.mxEsz = 4 then fmt32 else fmt64

/-- The bytes of a whole group. -/
def mxSpan (f : FpFmt) : SizeT := BitVec.ofNat 64 (mxBlockElems * f.esz)

/-- The number of groups of a block. -/
def mxGroups (f : FpFmt) (bk : Block) : SizeT :=
  bk.reqSzB / mxSpan f +
    if bk.reqSzB % mxSpan f ≥ BitVec.ofNat 64 f.esz then 1#64 else 0#64

/-- The indices that the loop of `mx_after_store` runs through. -/
def mxTouched (f : FpFmt) (bk : Block) (addr : Addr) (size : HWord) : List Nat :=
  let first := (addr - bk.payload) / mxSpan f
  let last := (addr + size - 1#64 - bk.payload) / mxSpan f
  List.range' first.toNat (min (last.toNat + 1) (mxGroups f bk).toNat - first.toNat)

/-- `mx_after_store`, once the block that contains the address is found. -/
def mxReencode (clo : Clo) (bk : Block) (addr : Addr) (size : HWord) (m : Mem) : Mem :=
  let f := mxFormat clo
  (mxTouched f bk addr size).foldl (fun m bi => mxEncodeBlock clo f bk (BitVec.ofNat 64 bi) m) m

end Memlog
