import Memlog.Lib.ByteMem

/-!
# Loops that write a range of memory

`whileLoop` runs a loop whose body lowers a variant, and `whileLoop_rule` is its rule of total
correctness. `Writes` is the invariant of a loop that fills a range of memory piece by piece, from
either end: the stores made so far have written the bytes `lo ≤ i < hi` of the range, each byte
once, and nothing else. `Writes.extend_up` and `Writes.extend_down` are its steps.
-/

namespace Memlog.Lib

/-! ## Loops -/

section While

variable {σ : Type}

/-- At most `k` rounds of a loop. -/
def whileFor (cond : σ → Bool) (body : σ → σ) : Nat → σ → σ
  | 0, s => s
  | k + 1, s => if cond s then whileFor cond body k (body s) else s

/-- `while (cond) body`, where every round lowers the variant. -/
def whileLoop (variant : σ → Nat) (cond : σ → Bool) (body : σ → σ) (s : σ) : σ :=
  whileFor cond body (variant s) s

/-- A loop that keeps `P` and lowers the variant ends, with `P` and without its condition. -/
theorem whileLoop_rule (variant : σ → Nat) (cond : σ → Bool) (body : σ → σ) {P : σ → Prop}
    (hbody : ∀ s, P s → cond s = true → P (body s) ∧ variant (body s) < variant s) {s : σ}
    (hs : P s) :
    P (whileLoop variant cond body s) ∧ cond (whileLoop variant cond body s) = false := by
  have hrounds : ∀ k s, P s → variant s ≤ k →
      P (whileFor cond body k s) ∧ cond (whileFor cond body k s) = false := by
    intro k
    induction k with
    | zero =>
      intro s hs hk
      refine ⟨hs, Bool.eq_false_iff.2 fun hcond => ?_⟩
      have hlower := (hbody s hs hcond).2
      omega
    | succ k ih =>
      intro s hs hk
      rw [whileFor]
      cases hcond : cond s with
      | false => exact ⟨hs, hcond⟩
      | true =>
        obtain ⟨hP, hlower⟩ := hbody s hs hcond
        exact ih (body s) hP (by omega)
  exact hrounds (variant s) s hs le_rfl

end While

/-! ## Repeated bytes -/

/-- The number whose `k` bytes are ones. -/
def onesBytes : Nat → Nat
  | 0 => 0
  | k + 1 => 1 + 256 * onesBytes k

theorem byteAt_mul_onesBytes (b : BitVec 8) {k i : Nat} (hi : i < k) :
    byteAt (b.toNat * onesBytes k) i = b := by
  have hbyte := b.isLt
  have hsplit : ∀ k, b.toNat * onesBytes (k + 1) = b.toNat + 256 * (b.toNat * onesBytes k) := by
    intro k
    rw [onesBytes]
    ring
  induction k generalizing i with
  | zero => omega
  | succ k ih =>
    rw [hsplit]
    cases i with
    | zero =>
      apply BitVec.eq_of_toNat_eq
      rw [byteAt, pow_zero, Nat.div_one, BitVec.toNat_ofNat]
      omega
    | succ i =>
      have hnext := ih (Nat.lt_of_succ_lt_succ hi)
      rw [byteAt] at hnext ⊢
      rw [pow_succ', ← Nat.div_div_eq_div_mul, Nat.add_mul_div_left _ _ (by decide),
        Nat.div_eq_of_lt hbyte, Nat.zero_add]
      exact hnext

/-! ## Written ranges -/

variable {w : Nat}

/-- A store of the low `size` bytes of a value. -/
structure Put (w : Nat) where
  addr : BitVec w
  size : Nat
  value : Nat
deriving DecidableEq

/-- The store stays in a word of `word` bytes: its size divides the word and its address. -/
def Put.Natural (word : Nat) (p : Put w) : Prop := p.size ∣ word ∧ p.size ∣ p.addr.toNat

namespace ByteMem

variable {m : ByteMem w} {a : BitVec w} {f : Nat → BitVec 8}

/-- The bytes `lo ≤ i < hi` of the range at `a` set to those of `f`. -/
def writeRange (m : ByteMem w) (a : BitVec w) (f : Nat → BitVec 8) (lo hi : Nat) : ByteMem w :=
  fun x => if lo ≤ dist a x ∧ dist a x < hi then f (dist a x) else m x

theorem writeRange_empty (m : ByteMem w) (a : BitVec w) (f : Nat → BitVec 8) (lo : Nat) :
    m.writeRange a f lo lo = m := by
  funext x
  exact if_neg (by omega)

theorem writeRange_of_not {lo hi : Nat} {x : BitVec w} (h : ¬(lo ≤ dist a x ∧ dist a x < hi)) :
    m.writeRange a f lo hi x = m x := if_neg h

theorem writeRange_fill (m : ByteMem w) (a : BitVec w) (b : BitVec 8) (k : Nat) :
    m.writeRange a (fun _ => b) 0 k = m.fill a b k := by
  funext x
  simp only [writeRange, fill, Nat.zero_le, true_and]

theorem writeRange_move (m : ByteMem w) (dst src : BitVec w) (k : Nat) :
    m.writeRange dst (fun i => m (src + BitVec.ofNat w i)) 0 k = m.move dst src k := by
  funext x
  have hsrc : BitVec.ofNat w (dist dst x) = x - dst := by
    rw [dist, BitVec.ofNat_toNat, BitVec.setWidth_eq]
  simp only [writeRange, move, Nat.zero_le, true_and, hsrc]

/-- A store next to a written part, or anywhere else in the range. -/
theorem storeLE_writeRange {lo hi lo' hi' t k v : Nat} (hk : 0 < k) (ht : t + k ≤ 2 ^ w)
    (hjoin : ∀ i, (lo' ≤ i ∧ i < hi') ↔ (lo ≤ i ∧ i < hi) ∨ (t ≤ i ∧ i < t + k))
    (hv : ∀ i < k, byteAt v i = f (t + i)) :
    (m.writeRange a f lo hi).storeLE (a + BitVec.ofNat w t) k v = m.writeRange a f lo' hi' := by
  funext x
  have hpart := dist_add_lt_iff a x ht (by omega)
  unfold writeRange storeLE
  rcases dist_add_cases a x (i := t) (by omega) with ⟨hle, heq⟩ | ⟨hlt, heq⟩
  · by_cases hin : dist a x < t + k
    · rw [if_pos (hpart.2 ⟨hle, hin⟩), if_pos ((hjoin _).2 (.inr ⟨hle, hin⟩)), hv _ (by omega),
        heq, Nat.add_sub_cancel' hle]
    · rw [if_neg fun h => hin (hpart.1 h).2]
      simp only [hjoin, hin, and_false, or_false]
  · rw [if_neg fun h => absurd (hpart.1 h).1 (by omega)]
    simp only [hjoin, not_le.2 hlt, false_and, or_false]

end ByteMem

/-- The stores have written the bytes `lo ≤ i < hi` of the range at `a` with those of `f`, each byte
once, and nothing else; none crosses a boundary between words of `word` bytes. -/
structure Writes (word : Nat) (m : ByteMem w) (a : BitVec w) (f : Nat → BitVec 8) (lo hi : Nat)
    (puts : List (Put w)) (m' : ByteMem w) : Prop where
  mem : m' = m.writeRange a f lo hi
  once : ∀ x, puts.countP (fun p => dist p.addr x < p.size) =
    if lo ≤ dist a x ∧ dist a x < hi then 1 else 0
  bytes : ∀ p ∈ puts, p.Natural word ∧ ∀ i < p.size, byteAt p.value i = f (dist a p.addr + i)

namespace Writes

variable {word : Nat} {m m' : ByteMem w} {a : BitVec w} {f : Nat → BitVec 8}
  {lo hi lo' hi' t k v : Nat} {puts : List (Put w)}

/-- Nothing is written at the start. -/
theorem empty (word : Nat) (m : ByteMem w) (a : BitVec w) (f : Nat → BitVec 8) (lo : Nat) :
    Writes word m a f lo lo [] m where
  mem := (ByteMem.writeRange_empty m a f lo).symm
  once x := by rw [List.countP_nil, if_neg (by omega)]
  bytes p hp := by cases hp

/-- A store into a part that has not been written. -/
theorem extend (h : Writes word m a f lo hi puts m') (hk : 0 < k) (ht : t + k ≤ 2 ^ w)
    (hjoin : ∀ i, (lo' ≤ i ∧ i < hi') ↔ (lo ≤ i ∧ i < hi) ∨ (t ≤ i ∧ i < t + k))
    (hnew : ∀ i, t ≤ i → i < t + k → ¬(lo ≤ i ∧ i < hi))
    (hword : k ∣ word) (haddr : k ∣ (a + BitVec.ofNat w t).toNat)
    (hv : ∀ i < k, byteAt v i = f (t + i)) :
    Writes word m a f lo' hi' (puts ++ [⟨a + BitVec.ofNat w t, k, v⟩])
      (m'.storeLE (a + BitVec.ofNat w t) k v) where
  mem := by rw [h.mem, ByteMem.storeLE_writeRange hk ht hjoin hv]
  once x := by
    have hpart := dist_add_lt_iff a x ht (by omega)
    have hdisj := hnew (dist a x)
    rw [List.countP_append, h.once x, List.countP_singleton]
    simp only [decide_eq_true_eq, hpart, hjoin]
    split <;> split <;> split <;> first | rfl | omega
  bytes p hp := by
    rcases List.mem_append.1 hp with hold | hnew
    · exact h.bytes p hold
    · obtain rfl := List.mem_singleton.1 hnew
      refine ⟨⟨hword, haddr⟩, fun i hi => ?_⟩
      rw [dist_add a (by omega)]
      exact hv i hi

/-- A store at the upper end. -/
theorem extend_up (h : Writes word m a f lo hi puts m') (hlo : lo ≤ hi) (hk : 0 < k)
    (ht : hi + k ≤ 2 ^ w) (hword : k ∣ word) (haddr : k ∣ (a + BitVec.ofNat w hi).toNat)
    (hv : ∀ i < k, byteAt v i = f (hi + i)) :
    Writes word m a f lo (hi + k) (puts ++ [⟨a + BitVec.ofNat w hi, k, v⟩])
      (m'.storeLE (a + BitVec.ofNat w hi) k v) :=
  h.extend hk ht (by omega) (by omega) hword haddr hv

/-- A store at the lower end. -/
theorem extend_down (h : Writes word m a f (t + k) hi puts m') (hlo : t + k ≤ hi) (hk : 0 < k)
    (ht : hi ≤ 2 ^ w) (hword : k ∣ word) (haddr : k ∣ (a + BitVec.ofNat w t).toNat)
    (hv : ∀ i < k, byteAt v i = f (t + i)) :
    Writes word m a f t hi (puts ++ [⟨a + BitVec.ofNat w t, k, v⟩])
      (m'.storeLE (a + BitVec.ofNat w t) k v) :=
  h.extend hk (by omega) (by omega) (by omega) hword haddr hv

/-- A load of bytes outside the written part gives the bytes from before. -/
theorem byteAt_loadLE (h : Writes word m a f lo hi puts m') {s : BitVec w} {i : Nat} (hi' : i < k)
    (hout : ¬(lo ≤ dist a (s + BitVec.ofNat w i) ∧ dist a (s + BitVec.ofNat w i) < hi)) :
    byteAt (m'.loadLE s k) i = m (s + BitVec.ofNat w i) := by
  rw [ByteMem.byteAt_loadLE m' s hi', h.mem, ByteMem.writeRange_of_not hout]

end Writes

end Memlog.Lib
