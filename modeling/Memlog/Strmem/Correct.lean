import Memlog.Strmem.Model

/-!
# The replacements copy and set what they should

The loops of `memmove` and `memset` are optimised: words where the alignment allows, four a round,
pairs of bytes, bytes. `memmove_family_moves` says that they copy what a copy through a temporary
copies, for every overlap and alignment, and that the plain loops of `bcopy` and of the checked
functions do the same; `memset_fills` says that `memset` sets its range. `Copies` is what the loops
need of a direction, `copies_up` and `copies_down` that both directions have it.
-/

namespace Memlog.Strmem

open Lib

/-! ## Alignment and overlap -/

theorem and_seven_eq_zero_iff (a : Addr) : a &&& 7 = 0 ↔ a.toNat % 8 = 0 := by
  have hand : (a &&& 7).toNat = a.toNat % 8 := Nat.and_two_pow_sub_one_eq_mod a.toNat 3
  rw [← hand, ← BitVec.toNat_inj]
  rfl

theorem xor_and_seven_eq_zero_iff (s d : Addr) :
    (s ^^^ d) &&& 7 = 0 ↔ s.toNat % 8 = d.toNat % 8 := by
  have hand : ∀ a : Addr, (a &&& 7).toNat = a.toNat % 8 := fun a =>
    Nat.and_two_pow_sub_one_eq_mod a.toNat 3
  have hxor : (s ^^^ d) &&& 7 = (s &&& 7) ^^^ (d &&& 7) := by
    ext i
    simp only [BitVec.getElem_and, BitVec.getElem_xor, Bool.and_xor_distrib_right]
  have hzero : (s &&& 7) ^^^ (d &&& 7) = 0 ↔ s &&& 7 = d &&& 7 := BitVec.xor_eq_zero_iff
  rw [hxor, hzero, ← hand, ← hand, BitVec.toNat_inj]

theorem or_and_one_eq_zero_iff (s d : Addr) :
    (s ||| d) &&& 1 = 0 ↔ s.toNat % 2 = 0 ∧ d.toNat % 2 = 0 := by
  have hand : ∀ a : Addr, a &&& 1 = 0 ↔ a.toNat % 2 = 0 := fun a => by
    have hmod : (a &&& 1).toNat = a.toNat % 2 := Nat.and_two_pow_sub_one_eq_mod a.toNat 1
    rw [← hmod, ← BitVec.toNat_inj]
    rfl
  have hzero : (s &&& 1) ||| (d &&& 1) = 0 ↔ s &&& 1 = 0 ∧ d &&& 1 = 0 := BitVec.or_eq_zero_iff
  rw [BitVec.and_or_distrib_right, hzero, hand, hand]

/-- Ranges of the same length that do not wrap around are apart when `is_overlap` says so. -/
theorem isOverlap_eq_false_iff {dst src : Addr} {len : SizeT} (hlen : 0 < len)
    (hd : dst.toNat + len.toNat ≤ 2 ^ 64) (hs : src.toNat + len.toNat ≤ 2 ^ 64) :
    isOverlap dst src len len = false ↔
      src.toNat + len.toNat ≤ dst.toNat ∨ dst.toNat + len.toNat ≤ src.toNat := by
  have hpos : 0 < len.toNat := hlen
  have hzero : ¬(len = 0 ∨ len = 0) := by
    rintro (rfl | rfl) <;> exact absurd hpos (by decide)
  have htop : ∀ a : Addr, a.toNat + len.toNat ≤ 2 ^ 64 →
      (a + len - 1).toNat = a.toNat + len.toNat - 1 := by
    intro a ha
    bv_omega
  unfold isOverlap
  rw [if_neg hzero]
  simp only [BitVec.lt_def, htop src hs, htop dst hd]
  split
  · simp only [Bool.not_eq_false', decide_eq_true_eq]
    omega
  · split
    · simp only [Bool.not_eq_false', decide_eq_true_eq]
      omega
    · simp only [reduceCtorEq, false_iff]
      omega

/-! ## Loops over words -/

section ByWords

variable {σ : Type} {addr : σ → Addr} {left : σ → Nat} {put : Nat → σ → σ} {P : σ → Prop}

/-- The loops over words leave less than a word. Words are put at word boundaries only. -/
theorem byWords_rule (hleft : ∀ k c, left (put k c) = left c - k)
    (hbyte : ∀ c, P c → 1 ≤ left c → P (put 1 c))
    (hword : ∀ c, P c → (addr c).toNat % 8 = 0 → 8 ≤ left c →
      P (put 8 c) ∧ (addr (put 8 c)).toNat % 8 = 0)
    {c : σ} (hc : P c) :
    P (byWords addr left put c) ∧ left (byWords addr left put c) < 8 := by
  -- after the first loop a word boundary is reached, or nothing is left
  let Q : σ → Prop := fun c => P c ∧ (8 ≤ left c → (addr c).toNat % 8 = 0)
  have hput : ∀ c, Q c → 8 ≤ left c → Q (put 8 c) := fun c hQ hle => by
    obtain ⟨hP, haddr⟩ := hword c hQ.1 (hQ.2 hle) hle
    exact ⟨hP, fun _ => haddr⟩
  unfold byWords
  extract_lets c₁ c₂
  have h₁ : Q c₁ := by
    obtain ⟨hP, hexit⟩ := whileLoop_rule left (fun c => addr c &&& 7 ≠ 0 ∧ 1 ≤ left c) (put 1)
      (fun c hP hcond => by
        rw [decide_eq_true_eq] at hcond
        exact ⟨hbyte c hP hcond.2, by rw [hleft]; omega⟩) hc
    refine ⟨hP, fun hle => (and_seven_eq_zero_iff _).1 ?_⟩
    rw [decide_eq_false_iff_not] at hexit
    by_contra hne
    exact hexit ⟨hne, le_trans (by decide) hle⟩
  have h₂ : Q c₂ :=
    (whileLoop_rule left _ _
      (fun c hQ hcond => by
        rw [decide_eq_true_eq] at hcond
        have q₁ := hput c hQ (by omega)
        have q₂ := hput _ q₁ (by rw [hleft]; omega)
        have q₃ := hput _ q₂ (by rw [hleft, hleft]; omega)
        have q₄ := hput _ q₃ (by rw [hleft, hleft, hleft]; omega)
        refine ⟨q₄, ?_⟩
        simp only [hleft]
        omega) h₁).1
  obtain ⟨h₃, hexit⟩ := whileLoop_rule left (fun c => 8 ≤ left c) (put 8)
    (fun c hQ hcond => by
      rw [decide_eq_true_eq] at hcond
      exact ⟨hput c hQ hcond, by rw [hleft]; omega⟩) h₂
  rw [decide_eq_false_iff_not] at hexit
  exact ⟨h₃.1, by omega⟩

end ByWords

/-! ## The loops of a copy -/

/-- A way to copy the next bytes that keeps `P` when it is used at aligned addresses. -/
structure Copies (copy : Nat → Cursor → Cursor) (P : Cursor → Prop) : Prop where
  left : ∀ k c, (copy k c).n = c.n - k
  shift : ∀ k c, k ∣ 8 → ∃ e, k ∣ e ∧
    (copy k c).d.toNat % 8 = (c.d.toNat + e) % 8 ∧ (copy k c).s.toNat % 8 = (c.s.toNat + e) % 8
  keeps : ∀ k c, P c → k ∣ 8 → k ≤ c.n → k ∣ c.d.toNat → P (copy k c)

namespace Copies

variable {copy : Nat → Cursor → Cursor} {P : Cursor → Prop} {c : Cursor}

theorem copyLeftovers (h : Copies copy P) (hc : P c) :
    P (Strmem.copyLeftovers copy c) ∧ (Strmem.copyLeftovers copy c).n = 0 := by
  unfold Strmem.copyLeftovers
  extract_lets c₁
  have h₁ : P c₁ := by
    by_cases heven : (c.s ||| c.d) &&& 1 = 0
    · have hd := ((or_and_one_eq_zero_iff c.s c.d).1 heven).2
      have hc₁ : c₁ = whileLoop Cursor.n (fun c => 2 ≤ c.n) (copy 2) c := if_pos heven
      rw [hc₁]
      refine (whileLoop_rule _ _ _ (P := fun c => P c ∧ c.d.toNat % 2 = 0) (fun c hP hcond => ?_)
        ⟨hc, hd⟩).1.1
      rw [decide_eq_true_eq] at hcond
      obtain ⟨e, he, hshift, -⟩ := h.shift 2 c (by decide)
      refine ⟨⟨h.keeps 2 c hP.1 (by decide) hcond (by omega), by omega⟩, ?_⟩
      rw [h.left]
      omega
    · have hc₁ : c₁ = c := if_neg heven
      rwa [hc₁]
  obtain ⟨h₂, hexit⟩ := whileLoop_rule Cursor.n (fun c => 1 ≤ c.n) (copy 1)
    (fun c hP hcond => by
      rw [decide_eq_true_eq] at hcond
      exact ⟨h.keeps 1 c hP (one_dvd 8) hcond (one_dvd _), by rw [h.left]; omega⟩) h₁
  rw [decide_eq_false_iff_not] at hexit
  exact ⟨h₂, by omega⟩

/-- **The loops of a copy** copy everything that is left. -/
theorem copyLoops (h : Copies copy P) (hc : P c) :
    P (Strmem.copyLoops copy c) ∧ (Strmem.copyLoops copy c).n = 0 := by
  unfold Strmem.copyLoops
  split
  · rename_i hsame
    rw [xor_and_seven_eq_zero_iff] at hsame
    have hwords : P (byWords Cursor.s Cursor.n copy c) :=
      (byWords_rule (P := fun c => P c ∧ c.s.toNat % 8 = c.d.toNat % 8) h.left
      (fun c hP hle => by
        obtain ⟨e, -, hd, hs⟩ := h.shift 1 c (one_dvd 8)
        exact ⟨h.keeps 1 c hP.1 (one_dvd 8) hle (one_dvd _), by omega⟩)
      (fun c hP haddr hle => by
        obtain ⟨e, he, hd, hs⟩ := h.shift 8 c dvd_rfl
        exact ⟨⟨h.keeps 8 c hP.1 dvd_rfl hle (by omega), by omega⟩, by omega⟩) ⟨hc, hsame⟩).1.1
    extract_lets c₁
    by_cases hn : c₁.n = 0
    · rw [if_pos hn]
      exact ⟨hwords, hn⟩
    · rw [if_neg hn]
      exact h.copyLeftovers hwords
  · exact h.copyLeftovers hc

end Copies

/-! ## Both directions -/

/-- The bytes `lo ≤ i < hi` of the source have been copied, as they were at the start. -/
def Copied (m : Mem) (dst src : Addr) (lo hi : Nat) (t : Trace) : Prop :=
  Writes 8 m dst (fun i => m (src + BitVec.ofNat 64 i)) lo hi t.stores t.mem

section Directions

variable {m : Mem} {dst src : Addr} {len : Nat} {t : Trace}

theorem Copied.start (m : Mem) (dst src : Addr) (lo : Nat) : Copied m dst src lo lo ⟨m, []⟩ :=
  Writes.empty 8 m dst _ lo

/-- Upwards, no byte of the source is overwritten before it is read. -/
def UnreadAbove (dst src : Addr) (len : Nat) : Prop :=
  ∀ i < len, i ≤ dist dst (src + BitVec.ofNat 64 i)

/-- Downwards, no byte of the source is overwritten before it is read. -/
def UnreadBelow (dst src : Addr) (len : Nat) : Prop :=
  ∀ i < len, dist dst (src + BitVec.ofNat 64 i) ≤ i ∨ len ≤ dist dst (src + BitVec.ofNat 64 i)

theorem add_ofNat_add (a : Addr) (i j : Nat) :
    a + BitVec.ofNat 64 i + BitVec.ofNat 64 j = a + BitVec.ofNat 64 (i + j) := by
  rw [BitVec.add_assoc, ← BitVec.ofNat_add]

theorem Copied.copy_up {hi k : Nat} (h : Copied m dst src 0 hi t) (hlen : len ≤ 2 ^ 64)
    (hsafe : UnreadAbove dst src len) (hle : hi + k ≤ len) (hk : k ∣ 8)
    (hd : k ∣ (dst + BitVec.ofNat 64 hi).toNat) :
    Copied m dst src 0 (hi + k)
      (t.copy (dst + BitVec.ofNat 64 hi) (src + BitVec.ofNat 64 hi) k) := by
  refine Writes.extend_up h (Nat.zero_le hi) (Nat.pos_of_dvd_of_pos hk (by decide)) (by omega) hk hd
    fun i hi' => ?_
  have hunread := hsafe (hi + i) (by omega)
  rw [h.byteAt_loadLE hi' (by rw [add_ofNat_add]; omega), add_ofNat_add]

theorem Copied.copy_down {lo k : Nat} (h : Copied m dst src (lo + k) len t) (hlen : len ≤ 2 ^ 64)
    (hsafe : UnreadBelow dst src len) (hle : lo + k ≤ len) (hk : k ∣ 8)
    (hd : k ∣ (dst + BitVec.ofNat 64 lo).toNat) :
    Copied m dst src lo len (t.copy (dst + BitVec.ofNat 64 lo) (src + BitVec.ofNat 64 lo) k) := by
  refine Writes.extend_down h hle (Nat.pos_of_dvd_of_pos hk (by decide)) hlen hk hd
    fun i hi' => ?_
  have hunread := hsafe (lo + i) (by omega)
  rw [h.byteAt_loadLE hi' (by rw [add_ofNat_add]; omega), add_ofNat_add]

/-- The state of the upward loops. -/
structure Ascends (m : Mem) (dst src : Addr) (len : Nat) (c : Cursor) : Prop where
  le : c.n ≤ len
  d : c.d = dst + BitVec.ofNat 64 (len - c.n)
  s : c.s = src + BitVec.ofNat 64 (len - c.n)
  copied : Copied m dst src 0 (len - c.n) c.toTrace

theorem Ascends.start (m : Mem) (dst src : Addr) (len : Nat) :
    Ascends m dst src len ⟨⟨m, []⟩, dst, src, len⟩ := by
  refine ⟨le_rfl, ?_, ?_, ?_⟩ <;> rw [Nat.sub_self]
  · exact (BitVec.add_zero dst).symm
  · exact (BitVec.add_zero src).symm
  · exact Copied.start m dst src 0

theorem copies_up (hlen : len ≤ 2 ^ 64) (hsafe : UnreadAbove dst src len) :
    Copies copyUp (Ascends m dst src len) where
  left k c := rfl
  shift k c hk := by
    have hadd : ∀ a : Addr, (a + BitVec.ofNat 64 k).toNat % 8 = (a.toNat + k) % 8 := by
      intro a
      rw [BitVec.toNat_add, BitVec.toNat_ofNat]
      omega
    exact ⟨k, dvd_rfl, hadd c.d, hadd c.s⟩
  keeps k c h hk hle hd := by
    have hn : len - (c.n - k) = len - c.n + k := by have := h.le; omega
    have hstep : ∀ a : Addr, a + BitVec.ofNat 64 (len - (c.n - k)) =
        a + BitVec.ofNat 64 (len - c.n) + BitVec.ofNat 64 k := by
      intro a
      rw [hn, BitVec.ofNat_add, BitVec.add_assoc]
    refine ⟨(Nat.sub_le c.n k).trans h.le, ?_, ?_, ?_⟩
    · rw [copyUp, hstep, ← h.d]
    · rw [copyUp, hstep, ← h.s]
    · have hle' : len - c.n + k ≤ len := by have := h.le; omega
      rw [copyUp, h.d, h.s, hn]
      exact h.copied.copy_up hlen hsafe hle' hk (h.d ▸ hd)

/-- The state of the downward loops. -/
structure Descends (m : Mem) (dst src : Addr) (len : Nat) (c : Cursor) : Prop where
  le : c.n ≤ len
  d : c.d = dst + BitVec.ofNat 64 c.n
  s : c.s = src + BitVec.ofNat 64 c.n
  copied : Copied m dst src c.n len c.toTrace

theorem toNat_sub_ofNat_mod {k : Nat} (hk : k ∣ 8) (a : Addr) :
    (a - BitVec.ofNat 64 k).toNat % 8 = (a.toNat + (2 ^ 64 - k)) % 8 := by
  have hsmall : k ≤ 8 := Nat.le_of_dvd (by decide) hk
  rw [BitVec.toNat_sub, BitVec.toNat_ofNat]
  omega

theorem copies_down (hlen : len ≤ 2 ^ 64) (hsafe : UnreadBelow dst src len) :
    Copies copyDown (Descends m dst src len) where
  left k c := rfl
  shift k c hk :=
    ⟨2 ^ 64 - k, Nat.dvd_sub (hk.trans (by decide)) dvd_rfl, toNat_sub_ofNat_mod hk c.d,
      toNat_sub_ofNat_mod hk c.s⟩
  keeps k c h hk hle hd := by
    have hn : c.n = c.n - k + k := by omega
    have hstep : ∀ a : Addr, a + BitVec.ofNat 64 c.n - BitVec.ofNat 64 k =
        a + BitVec.ofNat 64 (c.n - k) := by
      intro a
      conv_lhs => rw [hn, BitVec.ofNat_add, ← BitVec.add_assoc, BitVec.add_sub_cancel]
    have hd' : k ∣ (dst + BitVec.ofNat 64 (c.n - k)).toNat := by
      rw [← hstep, ← h.d, ← Nat.dvd_mod_iff hk, toNat_sub_ofNat_mod hk, Nat.dvd_mod_iff hk]
      exact Nat.dvd_add hd (Nat.dvd_sub (hk.trans (by decide)) dvd_rfl)
    refine ⟨(Nat.sub_le c.n k).trans h.le, ?_, ?_, ?_⟩
    · rw [copyDown, h.d, hstep]
    · rw [copyDown, h.s, hstep]
    · have hle' : c.n - k + k ≤ len := hn ▸ h.le
      rw [copyDown, h.d, h.s, hstep, hstep]
      exact Copied.copy_down (hn ▸ h.copied) hlen hsafe hle' hk hd'

/-- The state of the loops of `memcpy_chk` that step downwards after the store. -/
structure StepsDown (m : Mem) (dst src : Addr) (len : Nat) (c : Cursor) : Prop where
  le : c.n ≤ len
  d : c.d + 1 = dst + BitVec.ofNat 64 c.n
  s : c.s + 1 = src + BitVec.ofNat 64 c.n
  copied : Copied m dst src c.n len c.toTrace

theorem copied_ascending (hlen : len ≤ 2 ^ 64) (hsafe : UnreadAbove dst src len) :
    Copied m dst src 0 len (copyAscending dst src len ⟨m, []⟩) := by
  have hrounds : ∀ n ≤ len, Copied m dst src 0 n (copyAscending dst src n ⟨m, []⟩) := by
    intro n
    induction n with
    | zero => exact fun _ => Copied.start m dst src 0
    | succ n ih =>
      intro hn
      rw [copyAscending, List.range_succ, List.foldl_append]
      exact (ih (by omega)).copy_up hlen hsafe hn (one_dvd 8) (one_dvd _)
  exact hrounds len le_rfl

theorem copied_descending (hlen : len ≤ 2 ^ 64) (hsafe : UnreadBelow dst src len) :
    Copied m dst src 0 len (copyDescending dst src len ⟨m, []⟩) := by
  have hrounds : ∀ n ≤ len, Copied m dst src (len - n) len
      ((List.range n).foldl (fun t i => t.copy (dst + BitVec.ofNat 64 (len - i - 1))
        (src + BitVec.ofNat 64 (len - i - 1)) 1) ⟨m, []⟩) := by
    intro n
    induction n with
    | zero => exact fun _ => Copied.start m dst src len
    | succ n ih =>
      intro hn
      have hn' : len - n = len - n - 1 + 1 := by omega
      rw [List.range_succ, List.foldl_append, ← Nat.sub_sub]
      exact Copied.copy_down (hn' ▸ ih (by omega)) hlen hsafe (by omega) (one_dvd 8) (one_dvd _)
  have hall := hrounds len le_rfl
  rwa [Nat.sub_self] at hall

end Directions

/-! ## `memmove` and its family -/

section Moves

variable {dst src : Addr} {len : Nat}

theorem toNat_add_ofNat {i : Nat} (hs : src.toNat + len ≤ 2 ^ 64) (hi : i < len) :
    (src + BitVec.ofNat 64 i).toNat = src.toNat + i := by
  rw [BitVec.toNat_add, BitVec.toNat_ofNat]
  omega

theorem unreadAbove (hs : src.toNat + len ≤ 2 ^ 64)
    (h : dst.toNat ≤ src.toNat ∨ src.toNat + len ≤ dst.toNat) : UnreadAbove dst src len := by
  intro i hi
  have haddr := toNat_add_ofNat hs hi
  rcases Nat.lt_or_ge (src + BitVec.ofNat 64 i).toNat dst.toNat with hlt | hge
  · rw [dist_of_lt hlt]
    omega
  · rw [dist_eq_sub hge]
    omega

theorem unreadBelow (hd : dst.toNat + len ≤ 2 ^ 64) (hs : src.toNat + len ≤ 2 ^ 64)
    (h : src.toNat ≤ dst.toNat) : UnreadBelow dst src len := by
  intro i hi
  have haddr := toNat_add_ofNat hs hi
  rcases Nat.lt_or_ge (src + BitVec.ofNat 64 i).toNat dst.toNat with hlt | hge
  · rw [dist_of_lt hlt]
    omega
  · rw [dist_eq_sub hge]
    omega

variable {m : Mem} {len : SizeT}

/-- **`memmove`** copies upwards or downwards, whichever is safe. -/
theorem copied_memmoveOrMemcpy (hd : dst.toNat + len.toNat ≤ 2 ^ 64)
    (hs : src.toNat + len.toNat ≤ 2 ^ 64) (hne : dst ≠ src) :
    Copied m dst src 0 len.toNat (memmoveOrMemcpy dst src len m) := by
  have hne' : dst.toNat ≠ src.toNat := fun h => hne (BitVec.toNat_inj.1 h)
  have hlen' : len.toNat ≤ 2 ^ 64 := by omega
  unfold memmoveOrMemcpy
  by_cases hlen : 0 < len
  · rw [if_pos hlen]
    simp only [Bool.not_eq_true', isOverlap_eq_false_iff hlen hd hs, BitVec.lt_def]
    split
    · rename_i hdir
      obtain ⟨h, hn⟩ := (copies_up hlen' (unreadAbove hs (by omega))).copyLoops
        (Ascends.start m dst src len.toNat)
      have hall := h.copied
      rwa [hn] at hall
    · rw [if_pos (by omega)]
      have hstart : Descends m dst src len.toNat ⟨⟨m, []⟩, dst + len, src + len, len.toNat⟩ := by
        refine ⟨le_rfl, ?_, ?_, Copied.start m dst src len.toNat⟩ <;>
          rw [BitVec.ofNat_toNat, BitVec.setWidth_eq]
      obtain ⟨h, hn⟩ := (copies_down hlen' (unreadBelow hd hs (by omega))).copyLoops hstart
      have hall := h.copied
      rwa [hn] at hall
  · have hzero : len.toNat = 0 := by
      have hnot : ¬0 < len.toNat := hlen
      omega
    rw [if_neg hlen, hzero]
    exact Copied.start m dst src 0

theorem copied_bcopy (hd : dst.toNat + len.toNat ≤ 2 ^ 64)
    (hs : src.toNat + len.toNat ≤ 2 ^ 64) (hne : dst ≠ src) :
    Copied m dst src 0 len.toNat (bcopy src dst len m) := by
  have hne' : dst.toNat ≠ src.toNat := fun h => hne (BitVec.toNat_inj.1 h)
  have hlen' : len.toNat ≤ 2 ^ 64 := by omega
  unfold bcopy
  simp only [BitVec.lt_def]
  split
  · exact copied_ascending hlen' (unreadAbove hs (by omega))
  · rw [if_pos (by omega)]
    exact copied_descending hlen' (unreadBelow hd hs (by omega))

/-- The checked `memmove` is `bcopy` when the destination is large enough. -/
theorem memmoveChk_eq (dst src : Addr) (len dstlen : SizeT) (m : Mem) :
    memmoveChk dst src len dstlen m =
      if dstlen < len then none else some (bcopy src dst len m) := by
  unfold memmoveChk bcopy
  split
  · rfl
  · split
    · rfl
    · split <;> rfl

theorem copied_memcpyChk {dstlen : SizeT} (hd : dst.toNat + len.toNat ≤ 2 ^ 64)
    (hs : src.toNat + len.toNat ≤ 2 ^ 64) (hne : dst ≠ src) (hle : ¬dstlen < len) :
    ∃ t, memcpyChk dst src len dstlen m = some t ∧ Copied m dst src 0 len.toNat t := by
  have hne' : dst.toNat ≠ src.toNat := fun h => hne (BitVec.toNat_inj.1 h)
  have hlen' : len.toNat ≤ 2 ^ 64 := by omega
  unfold memcpyChk
  rw [if_neg hle]
  by_cases hzero : len = 0
  · rw [if_pos hzero, hzero]
    exact ⟨_, rfl, Copied.start m dst src 0⟩
  · rw [if_neg hzero]
    simp only [BitVec.lt_def]
    split
    · rename_i hdir
      have hsafe := unreadBelow hd hs hdir.le
      refine ⟨_, rfl, ?_⟩
      have hstart : StepsDown m dst src len.toNat
          ⟨⟨m, []⟩, dst + len - 1, src + len - 1, len.toNat⟩ := by
        refine ⟨le_rfl, ?_, ?_, Copied.start m dst src len.toNat⟩ <;>
          rw [BitVec.ofNat_toNat, BitVec.setWidth_eq, BitVec.sub_add_cancel]
      obtain ⟨h, hexit⟩ := whileLoop_rule Cursor.n (fun c => c.n ≠ 0)
        (fun c => ⟨c.copy c.d c.s 1, c.d - 1, c.s - 1, c.n - 1⟩)
        (fun c h hcond => by
          rw [decide_eq_true_eq] at hcond
          have hn : c.n = c.n - 1 + 1 := by omega
          have hat : ∀ a b : Addr, a + 1 = b + BitVec.ofNat 64 c.n →
              a = b + BitVec.ofNat 64 (c.n - 1) := by
            intro a b hab
            rw [hn, BitVec.ofNat_add, ← BitVec.add_assoc] at hab
            exact (BitVec.add_left_inj 1).1 hab
          refine ⟨⟨(Nat.sub_le c.n 1).trans h.le, ?_, ?_, ?_⟩, by simp only; omega⟩
          · rw [BitVec.sub_add_cancel]
            exact hat _ _ h.d
          · rw [BitVec.sub_add_cancel]
            exact hat _ _ h.s
          · rw [hat _ _ h.d, hat _ _ h.s]
            exact Copied.copy_down (hn ▸ h.copied) hlen' hsafe (hn ▸ h.le) (one_dvd 8)
              (one_dvd _)) hstart
      have hall := h.copied
      rwa [of_not_not (of_decide_eq_false hexit)] at hall
    · rw [if_pos (by omega)]
      refine ⟨_, rfl, ?_⟩
      have hcopies : Copies copyUp (Ascends m dst src len.toNat) :=
        copies_up hlen' (unreadAbove hs (by omega))
      obtain ⟨h, hexit⟩ := whileLoop_rule Cursor.n (fun c => c.n ≠ 0) (copyUp 1)
        (fun c h hcond => by
          rw [decide_eq_true_eq] at hcond
          exact ⟨hcopies.keeps 1 c h (one_dvd 8) (by omega) (one_dvd _),
            by rw [hcopies.left]; omega⟩) (Ascends.start m dst src len.toNat)
      have hall := h.copied
      rwa [of_not_not (of_decide_eq_false hexit)] at hall

/-- Nothing is copied onto itself. -/
theorem memmoveOrMemcpy_self (dst : Addr) (len : SizeT) (m : Mem) :
    memmoveOrMemcpy dst dst len m = ⟨m, []⟩ := by
  unfold memmoveOrMemcpy
  split
  · rename_i hlen
    have hoverlap : isOverlap dst dst len len = true := by
      have hzero : ¬(len = 0 ∨ len = 0) := by
        rintro (rfl | rfl) <;> exact absurd hlen (by decide)
      unfold isOverlap
      simp only [hzero, if_false, BitVec.lt_irrefl]
    simp only [hoverlap, BitVec.lt_irrefl, Bool.not_true, Bool.false_eq_true, or_self, if_false]
  · rfl

theorem memcpyChk_of_lt {dstlen : SizeT} (hlt : dstlen < len) :
    memcpyChk dst src len dstlen m = none := if_pos hlt

theorem memcpyChk_self {dstlen : SizeT} (hle : ¬dstlen < len) :
    memcpyChk dst dst len dstlen m = some ⟨m, []⟩ := by
  unfold memcpyChk
  simp only [hle, if_false, BitVec.lt_irrefl, ite_self]

theorem Copied.mem_eq {n : Nat} {t : Trace} (h : Copied m dst src 0 n t) :
    t.mem = m.move dst src n := by
  rw [h.mem, ByteMem.writeRange_move]

end Moves

/-- **The replacements of `memmove` and its family agree**, whatever the overlap and the alignment:
the memory at the end is that of a copy through a temporary. The word loops store every byte of the
destination once, in words, pairs and bytes at aligned addresses, with the bytes that the source had
at the start. The checked functions terminate the program when the destination is too small. -/
theorem memmove_family_moves (m : Mem) (dst src : Addr) (len : SizeT)
    (hd : dst.toNat + len.toNat ≤ 2 ^ 64) (hs : src.toNat + len.toNat ≤ 2 ^ 64) :
    let t := memmoveOrMemcpy dst src len m
    t.mem = m.move dst src len.toNat ∧
      (∀ x, t.stores.countP (fun p : Put 64 => dist p.addr x < p.size) =
        if dst ≠ src ∧ dist dst x < len.toNat then 1 else 0) ∧
      (∀ p ∈ t.stores, p.Natural 8 ∧
        ∀ i < p.size, byteAt p.value i = m (src + BitVec.ofNat 64 (dist dst p.addr + i))) ∧
      (bcopy src dst len m).mem = t.mem ∧
      ∀ dstlen,
        (memmoveChk dst src len dstlen m).map Trace.mem =
            (if dstlen < len then none else some t.mem) ∧
          (memcpyChk dst src len dstlen m).map Trace.mem =
            (if dstlen < len then none else some t.mem) := by
  intro t
  by_cases hne : dst = src
  · subst hne
    have ht : t = ⟨m, []⟩ := memmoveOrMemcpy_self dst len m
    have hmove : m = m.move dst dst len.toNat := by
      funext x
      unfold ByteMem.move
      rw [add_sub_cancel, ite_self]
    have hbcopy : bcopy dst dst len m = ⟨m, []⟩ := by
      unfold bcopy
      simp only [BitVec.lt_irrefl, if_false]
    rw [ht, hbcopy]
    refine ⟨hmove, fun x => ?_, fun p hp => (by cases hp), rfl, fun dstlen => ?_⟩
    · rw [if_neg fun h => h.1 rfl]
      rfl
    · rw [memmoveChk_eq, hbcopy]
      by_cases hle : dstlen < len
      · rw [if_pos hle, if_pos hle]
        exact ⟨rfl, congrArg _ (memcpyChk_of_lt hle)⟩
      · rw [if_neg hle, if_neg hle, memcpyChk_self hle]
        exact ⟨rfl, rfl⟩
  · have h : Copied m dst src 0 len.toNat t := copied_memmoveOrMemcpy hd hs hne
    have hbcopy := (copied_bcopy (m := m) hd hs hne).mem_eq
    refine ⟨h.mem_eq, fun x => ?_, h.bytes, hbcopy.trans h.mem_eq.symm, fun dstlen => ?_⟩
    · rw [h.once x]
      simp only [Nat.zero_le, true_and, ne_eq, hne, not_false_eq_true]
    · rw [memmoveChk_eq]
      by_cases hle : dstlen < len
      · rw [if_pos hle, if_pos hle]
        exact ⟨rfl, congrArg _ (memcpyChk_of_lt hle)⟩
      · obtain ⟨t', hchk, h'⟩ := copied_memcpyChk (m := m) hd hs hne hle
        rw [if_neg hle, if_neg hle, hchk, Option.map_some, Option.map_some, hbcopy, h'.mem_eq,
          h.mem_eq]
        exact ⟨rfl, rfl⟩

theorem memmove_family_moves_overlapping :
    (memmoveOrMemcpy 0x1003 0x1000 16 fun a => a.setWidth 8).mem 0x1004 = 1 := by
  rw [(memmove_family_moves (fun a => a.setWidth 8) 0x1003 0x1000 16 (by decide) (by decide)).1]
  decide

/-! ## `memset` -/

section Fill

variable {m : Mem} {s : Addr} {c : BitVec 32} {len : Nat}

theorem c8_toNat (c : BitVec 32) : (c8 c).toNat = (c.setWidth 8).toNat * 0x0101010101010101 := by
  have hmask : ((c &&& 0xFF).setWidth 64).toNat = (c.setWidth 8).toNat := by
    have hand : (c &&& 0xFF).toNat = c.toNat % 256 := Nat.and_two_pow_sub_one_eq_mod c.toNat 8
    rw [BitVec.toNat_setWidth, BitVec.toNat_setWidth, hand]
    omega
  have hbyte := (c.setWidth 8).isLt
  have hdouble : ∀ (v : BitVec 64) (i : Nat), v.toNat < 2 ^ i → 2 * i ≤ 64 →
      ((v <<< i) ||| v).toNat = v.toNat * 2 ^ i + v.toNat := by
    intro v i hv hi
    have hshift : v.toNat * 2 ^ i < 2 ^ 64 :=
      calc v.toNat * 2 ^ i < 2 ^ i * 2 ^ i := Nat.mul_lt_mul_of_pos_right hv (Nat.two_pow_pos i)
        _ = 2 ^ (2 * i) := by rw [← Nat.pow_add, Nat.two_mul]
        _ ≤ 2 ^ 64 := Nat.pow_le_pow_right (by decide) hi
    rw [BitVec.toNat_or, BitVec.toNat_shiftLeft, Nat.shiftLeft_eq, Nat.mod_eq_of_lt hshift,
      ← Nat.shiftLeft_eq, Nat.shiftLeft_add_eq_or_of_lt hv]
  unfold c8
  extract_lets v₁ v₂ v₄
  have h₁ : v₁.toNat = (c.setWidth 8).toNat := hmask
  have h₂ : v₂.toNat = v₁.toNat * 2 ^ 8 + v₁.toNat := hdouble v₁ 8 (by omega) (by decide)
  have h₄ : v₄.toNat = v₂.toNat * 2 ^ 16 + v₂.toNat := hdouble v₂ 16 (by omega) (by decide)
  rw [hdouble v₄ 32 (by omega) (by decide)]
  omega

theorem byteAt_c8 (c : BitVec 32) {i : Nat} (hi : i < 8) :
    byteAt (c8 c).toNat i = c.setWidth 8 := by
  rw [c8_toNat]
  exact byteAt_mul_onesBytes (c.setWidth 8) hi

/-- The state of the loops of `memset`. -/
structure Fills (m : Mem) (s : Addr) (c : BitVec 32) (len : Nat) (f : Filler) : Prop where
  le : f.n ≤ len
  a : f.a = s + BitVec.ofNat 64 (len - f.n)
  written : Writes 8 m s (fun _ => c.setWidth 8) 0 (len - f.n) f.stores f.mem

theorem Fills.fillUp (hlen : len ≤ 2 ^ 64) {f : Filler} (h : Fills m s c len f) {k : Nat}
    (hk : k = 1 ∨ k = 8) (hle : k ≤ f.n) (ha : k ∣ f.a.toNat) :
    Fills m s c len (Strmem.fillUp c k f) := by
  have hn : len - (f.n - k) = len - f.n + k := by have := h.le; omega
  have hle' : len - f.n + k ≤ len := by have := h.le; omega
  refine ⟨(Nat.sub_le f.n k).trans h.le, ?_, ?_⟩
  · rw [Strmem.fillUp, hn, BitVec.ofNat_add, ← BitVec.add_assoc, ← h.a]
  · rw [Strmem.fillUp, h.a, hn]
    refine Writes.extend_up h.written (Nat.zero_le _) (by omega) (by omega) ?_ (h.a ▸ ha)
      fun i hi => ?_
    · rcases hk with rfl | rfl <;> decide
    · rcases hk with rfl | rfl
      · obtain rfl : i = 0 := by omega
        rw [if_neg (by decide), byteAt, pow_zero, Nat.div_one, BitVec.ofNat_toNat,
          BitVec.setWidth_eq]
      · rw [if_pos rfl, byteAt_c8 c hi]

end Fill

/-- **`memset` sets its range**, whatever the alignment: it stores every byte of the range once, in
words and bytes at aligned addresses, with the low byte of its argument. -/
theorem memset_fills (m : Mem) (s : Addr) (c : BitVec 32) (n : SizeT) :
    let t := memset s c n m
    t.mem = m.fill s (c.setWidth 8) n.toNat ∧
      (∀ x, t.stores.countP (fun p : Put 64 => dist p.addr x < p.size) =
        if dist s x < n.toNat then 1 else 0) ∧
      ∀ p ∈ t.stores, p.Natural 8 ∧ ∀ i < p.size, byteAt p.value i = c.setWidth 8 := by
  intro t
  have hlen : n.toNat ≤ 2 ^ 64 := n.isLt.le
  have hstart : Fills m s c n.toNat ⟨⟨m, []⟩, s, n.toNat⟩ := by
    refine ⟨le_rfl, ?_, ?_⟩ <;> rw [Nat.sub_self]
    · exact (BitVec.add_zero s).symm
    · exact Writes.empty 8 m s _ 0
  have hwords : Fills m s c n.toNat (byWords Filler.a Filler.n (fillUp c) ⟨⟨m, []⟩, s, n.toNat⟩) :=
    (byWords_rule (fun _ _ => rfl) (fun f h hle => h.fillUp hlen (.inl rfl) hle (one_dvd _))
      (fun f h ha hle => by
        refine ⟨h.fillUp hlen (.inr rfl) hle (Nat.dvd_of_mod_eq_zero ha), ?_⟩
        change (f.a + BitVec.ofNat 64 8).toNat % 8 = 0
        rw [BitVec.toNat_add, BitVec.toNat_ofNat]
        omega) hstart).1
  obtain ⟨h, hexit⟩ := whileLoop_rule Filler.n (fun f => 1 ≤ f.n) (fillUp c 1)
    (fun f h hcond => by
      rw [decide_eq_true_eq] at hcond
      refine ⟨h.fillUp hlen (.inl rfl) hcond (one_dvd _), ?_⟩
      change f.n - 1 < f.n
      omega) hwords
  have hn : (whileLoop Filler.n (fun f => 1 ≤ f.n) (fillUp c 1)
      (byWords Filler.a Filler.n (fillUp c) ⟨⟨m, []⟩, s, n.toNat⟩)).n = 0 := by
    rw [decide_eq_false_iff_not] at hexit
    omega
  have hall := h.written
  rw [hn, Nat.sub_zero] at hall
  refine ⟨?_, fun x => ?_, hall.bytes⟩
  · rw [← ByteMem.writeRange_fill]
    exact hall.mem
  · have honce := hall.once x
    simp only [Nat.zero_le, true_and] at honce
    exact honce

end Memlog.Strmem
