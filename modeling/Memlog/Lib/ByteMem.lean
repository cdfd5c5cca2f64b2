import Mathlib.Algebra.Order.Ring.Nat
import Mathlib.Data.BitVec
import Mathlib.Tactic.Ring

/-!
# Byte-addressed memory

A memory maps each address to a byte. Addresses wrap around, so a range of `k` bytes from `a` is
given by the distance `dist a x` of its addresses from `a`. Multi-byte values are little-endian:
`loadLE_storeLE` says what a load sees after a store, `loadLE_congr` and `storeLE_of_le` are the
frame rules.
-/

namespace Memlog.Lib

/-- A byte-addressed memory with `w`-bit addresses. -/
abbrev ByteMem (w : Nat) := BitVec w → BitVec 8

/-- How far `x` lies above `a`. -/
def dist {w : Nat} (a x : BitVec w) : Nat := (x - a).toNat

/-- The `i`-th byte of a number. -/
def byteAt (v i : Nat) : BitVec 8 := BitVec.ofNat 8 (v / 256 ^ i)

namespace ByteMem

variable {w : Nat}

/-- Write the low `k` bytes of `v` at `a`, least significant byte first. -/
def storeLE (m : ByteMem w) (a : BitVec w) (k v : Nat) : ByteMem w := fun x =>
  if dist a x < k then byteAt v (dist a x) else m x

/-- The number that the `k` bytes at `a` hold, least significant byte first. -/
def loadLE (m : ByteMem w) (a : BitVec w) : Nat → Nat
  | 0 => 0
  | k + 1 => loadLE m a k + (m (a + BitVec.ofNat w k)).toNat * 256 ^ k

/-- The number whose `k` bytes are those of `v` in reverse order. -/
def byteSwap (k v : Nat) : Nat :=
  (List.range k).foldl (fun acc i => acc * 256 + v / 256 ^ i % 256) 0

/-- Write the low `k` bytes of `v` at `a`, most significant byte first. -/
def storeBE (m : ByteMem w) (a : BitVec w) (k v : Nat) : ByteMem w := storeLE m a k (byteSwap k v)

/-- The number that the `k` bytes at `a` hold, most significant byte first. -/
def loadBE (m : ByteMem w) (a : BitVec w) (k : Nat) : Nat := byteSwap k (loadLE m a k)

/-- Set `k` bytes at `a` to one value. -/
def fill (m : ByteMem w) (a : BitVec w) (b : BitVec 8) (k : Nat) : ByteMem w := fun x =>
  if dist a x < k then b else m x

/-- Copy `k` bytes from `src` to `dst`, as if through a temporary. -/
def move (m : ByteMem w) (dst src : BitVec w) (k : Nat) : ByteMem w := fun x =>
  if dist dst x < k then m (src + (x - dst)) else m x

end ByteMem

section Dist

variable {w : Nat} {a x : BitVec w} {i j k : Nat}

@[simp] theorem dist_self (a : BitVec w) : dist a a = 0 := by
  rw [dist, sub_self]
  rfl

@[simp] theorem dist_add (a : BitVec w) (hi : i < 2 ^ w) : dist a (a + BitVec.ofNat w i) = i := by
  rw [dist, add_sub_cancel_left, BitVec.toNat_ofNat, Nat.mod_eq_of_lt hi]

theorem add_dist (a x : BitVec w) : a + BitVec.ofNat w (dist a x) = x := by
  rw [dist, BitVec.ofNat_toNat, BitVec.setWidth_eq, add_sub_cancel]

theorem dist_lt (a x : BitVec w) : dist a x < 2 ^ w := (x - a).isLt

theorem dist_eq_sub (h : a.toNat ≤ x.toNat) : dist a x = x.toNat - a.toNat := by
  have hx := x.isLt
  rw [dist, BitVec.toNat_sub]
  have hsum : 2 ^ w - a.toNat + x.toNat = x.toNat - a.toNat + 2 ^ w := by omega
  rw [hsum, Nat.add_mod_right, Nat.mod_eq_of_lt (by omega)]

theorem dist_of_lt (h : x.toNat < a.toNat) : dist a x = 2 ^ w - (a.toNat - x.toNat) := by
  have ha := a.isLt
  rw [dist, BitVec.toNat_sub, Nat.mod_eq_of_lt (by omega)]
  omega

theorem toNat_of_dist (h : a.toNat + dist a x < 2 ^ w) : x.toNat = a.toNat + dist a x := by
  by_cases hle : a.toNat ≤ x.toNat
  · have hdist := dist_eq_sub hle
    omega
  · have hdist := dist_of_lt (not_le.1 hle)
    have ha := a.isLt
    omega

/-- The distance from a point `i` bytes above `a`. -/
theorem dist_add_cases (a x : BitVec w) (hi : i < 2 ^ w) :
    (i ≤ dist a x ∧ dist (a + BitVec.ofNat w i) x = dist a x - i) ∨
      (dist a x < i ∧ dist (a + BitVec.ofNat w i) x = 2 ^ w - (i - dist a x)) := by
  have hsub : x - (a + BitVec.ofNat w i) = (x - a) - BitVec.ofNat w i := sub_add_eq_sub_sub ..
  have hmod : (BitVec.ofNat w i).toNat = i := by
    rw [BitVec.toNat_ofNat, Nat.mod_eq_of_lt hi]
  have hlt := dist_lt a x
  unfold dist at hlt ⊢
  rw [hsub]
  rcases Nat.lt_or_ge (x - a).toNat i with h | h
  · refine .inr ⟨h, ?_⟩
    have := dist_of_lt (a := BitVec.ofNat w i) (x := x - a) (by omega)
    rwa [dist, hmod] at this
  · refine .inl ⟨h, ?_⟩
    have := dist_eq_sub (a := BitVec.ofNat w i) (x := x - a) (by omega)
    rwa [dist, hmod] at this

/-- The `j` bytes from `i` bytes above `a`, seen from `a`. -/
theorem dist_add_lt_iff (a x : BitVec w) (hij : i + j ≤ 2 ^ w) (hi : i < 2 ^ w) :
    dist (a + BitVec.ofNat w i) x < j ↔ i ≤ dist a x ∧ dist a x < i + j := by
  rcases dist_add_cases a x hi with ⟨hle, heq⟩ | ⟨hlt, heq⟩ <;> omega

/-- Runs of `j` bytes that follow each other cover each of their bytes once. -/
theorem countP_runs (a x : BitVec w) (hk : j * k < 2 ^ w) :
    (List.range k).countP (fun i => dist (a + BitVec.ofNat w (j * i)) x < j) =
      if dist a x < j * k then 1 else 0 := by
  induction k with
  | zero => simp
  | succ k ih =>
    rw [Nat.mul_succ] at hk ⊢
    have hrun := dist_add_lt_iff a x (Nat.le_of_lt hk) (by omega)
    rw [List.range_succ, List.countP_append, ih (by omega), List.countP_singleton]
    simp only [decide_eq_true_eq, hrun]
    split <;> split <;> split <;> omega

end Dist

namespace ByteMem

variable {w : Nat} {m m' : ByteMem w} {a b x : BitVec w} {i j k v : Nat}

/-! ## Loads -/

theorem loadLE_lt (m : ByteMem w) (a : BitVec w) (k : Nat) : loadLE m a k < 256 ^ k := by
  induction k with
  | zero => exact Nat.one_pos
  | succ k ih =>
    have hb := (m (a + BitVec.ofNat w k)).isLt
    have hmul := Nat.mul_le_mul_right (256 ^ k) (Nat.le_sub_one_of_lt hb)
    rw [loadLE, pow_succ]
    omega

/-- A load sees only its own bytes. -/
theorem loadLE_congr (h : ∀ i < k, m (a + BitVec.ofNat w i) = m' (a + BitVec.ofNat w i)) :
    loadLE m a k = loadLE m' a k := by
  induction k with
  | zero => rfl
  | succ k ih =>
    rw [loadLE, loadLE, h k (Nat.lt_succ_self k), ih fun i hi => h i (Nat.lt_succ_of_lt hi)]

theorem byteAt_loadLE (m : ByteMem w) (a : BitVec w) (hi : i < k) :
    byteAt (loadLE m a k) i = m (a + BitVec.ofNat w i) := by
  induction k with
  | zero => omega
  | succ k ih =>
    have hlow := loadLE_lt m a k
    unfold byteAt at ih ⊢
    rw [loadLE]
    apply BitVec.eq_of_toNat_eq
    rcases Nat.lt_or_ge i k with hik | hik
    · rw [← ih hik, BitVec.toNat_ofNat, BitVec.toNat_ofNat]
      obtain ⟨d, rfl⟩ : ∃ d, k = i + d + 1 := ⟨k - i - 1, by omega⟩
      have hpow : 256 ^ (i + d + 1) = 256 ^ d * 2 ^ 8 * 256 ^ i := by ring
      rw [hpow, ← Nat.mul_assoc, Nat.add_mul_div_right _ _ (Nat.pow_pos (by omega)),
        ← Nat.mul_assoc, Nat.add_mul_mod_self_right]
    · obtain rfl : i = k := by omega
      rw [Nat.add_mul_div_right _ _ (Nat.pow_pos (by omega)), Nat.div_eq_of_lt hlow, Nat.zero_add,
        BitVec.toNat_ofNat, Nat.mod_eq_of_lt (BitVec.isLt _)]

/-- The bytes of a number, put together. -/
theorem loadLE_of_byteAt (hm : ∀ i < k, m (a + BitVec.ofNat w i) = byteAt v i) :
    loadLE m a k = v % 256 ^ k := by
  induction k with
  | zero => rw [loadLE, pow_zero, Nat.mod_one]
  | succ k ih =>
    rw [loadLE, ih fun i hi => hm i (Nat.lt_succ_of_lt hi), hm k (Nat.lt_succ_self k), byteAt,
      BitVec.toNat_ofNat, Nat.mul_comm]
    exact (Nat.mod_pow_succ (b := 256)).symm

/-! ## Stores -/

theorem storeLE_of_lt (h : dist a x < k) : storeLE m a k v x = byteAt v (dist a x) := if_pos h

/-- A store leaves the bytes outside its range alone. -/
theorem storeLE_of_le (h : k ≤ dist a x) : storeLE m a k v x = m x := if_neg (by omega)

/-- Two stores side by side are one. -/
theorem storeLE_storeLE_add (m : ByteMem w) (a : BitVec w) (v : Nat) (hi : i < 2 ^ w)
    (hij : i + j ≤ 2 ^ w) :
    storeLE (storeLE m a i v) (a + BitVec.ofNat w i) j (v / 256 ^ i) = storeLE m a (i + j) v := by
  funext x
  have hrun := dist_add_lt_iff a x hij hi
  rcases dist_add_cases a x hi with ⟨hle, heq⟩ | ⟨hlt, heq⟩
  · unfold storeLE
    by_cases hin : dist a x < i + j
    · rw [if_pos (hrun.2 ⟨hle, hin⟩), if_pos hin, byteAt, byteAt, Nat.div_div_eq_div_mul, ← pow_add,
        heq, Nat.add_sub_cancel' hle]
    · rw [if_neg fun h => hin (hrun.1 h).2, if_neg (by omega), if_neg hin]
  · unfold storeLE
    rw [if_neg fun h => by omega, if_pos hlt, if_pos (by omega)]

/-- A load of some of the bytes that a store has written. -/
theorem loadLE_storeLE_add (m : ByteMem w) (a : BitVec w) (v : Nat) (hk : k ≤ 2 ^ w)
    (hi : i + j ≤ k) :
    loadLE (storeLE m a k v) (a + BitVec.ofNat w i) j = v / 256 ^ i % 256 ^ j := by
  apply loadLE_of_byteAt
  intro l hl
  have hd : dist a (a + BitVec.ofNat w (i + l)) = i + l := dist_add a (by omega)
  rw [BitVec.add_assoc, ← BitVec.ofNat_add, storeLE_of_lt (by omega), hd, byteAt, byteAt, pow_add,
    Nat.div_div_eq_div_mul]

theorem loadLE_storeLE (m : ByteMem w) (a : BitVec w) (v : Nat) (hk : k ≤ 2 ^ w) :
    loadLE (storeLE m a k v) a k = v % 256 ^ k := by
  have h : loadLE (storeLE m a k v) (a + BitVec.ofNat w 0) k = v / 256 ^ 0 % 256 ^ k :=
    loadLE_storeLE_add m a v hk (by omega)
  rwa [BitVec.add_zero, pow_zero, Nat.div_one] at h

end ByteMem

end Memlog.Lib
