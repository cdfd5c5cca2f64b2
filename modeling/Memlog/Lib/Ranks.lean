import Mathlib.Algebra.BigOperators.Group.List.Basic
import Mathlib.Data.Nat.Dist
import Mathlib.Tactic.Ring
import Memlog.Lib.Sql

/-!
# Sums weighted by ranks

The numbers of a sorted list, each times its rank, add up to a sum that the differences between them
determine (`two_mul_rankSum`), and these are bounded (`gaps_add_sum_le`). When the ranks are those
of a longer list, in which other elements stand between, each of the others adds the weights of what
comes after it (`ownRankSum_zipIdx`), and the order of the elements says what that is (`ahead_eq`).
-/

namespace Memlog.Lib

/-! ## A list by itself -/

/-- The differences of the numbers of a list, over all pairs. -/
def gaps : List Nat → Nat
  | [] => 0
  | x :: l => gaps l + (l.map (Nat.dist x)).sum

/-- Each number of a list times its rank, which counts from one. -/
def rankSum : List Nat → Nat
  | [] => 0
  | x :: l => x + (rankSum l + l.sum)

theorem gaps_perm {l l' : List Nat} (h : l.Perm l') : gaps l = gaps l' := by
  induction h with
  | nil => rfl
  | cons x h ih => rw [gaps, gaps, ih, (h.map _).sum_eq]
  | swap x y l =>
    simp only [gaps, List.map_cons, List.sum_cons, Nat.dist_comm x y]
    ring
  | trans _ _ ih ih' => exact ih.trans ih'

theorem gaps_eq_zero {l : List Nat} (h : ∀ x ∈ l, ∀ y ∈ l, x = y) : gaps l = 0 := by
  induction l with
  | nil => rfl
  | cons x l ih =>
    have hzero : (l.map (Nat.dist x)).sum = 0 := by
      refine List.sum_eq_zero fun d hd => ?_
      obtain ⟨y, hy, rfl⟩ := List.mem_map.1 hd
      rw [h x List.mem_cons_self y (List.mem_cons_of_mem x hy), Nat.dist_self]
    rw [gaps, hzero, ih fun y hy z hz =>
      h y (List.mem_cons_of_mem x hy) z (List.mem_cons_of_mem x hz)]

theorem sum_dist_le (x : Nat) (l : List Nat) :
    (l.map (Nat.dist x)).sum ≤ l.length * x + l.sum := by
  induction l with
  | nil => exact Nat.zero_le _
  | cons y l ih =>
    have hdist : Nat.dist x y ≤ x + y := by
      unfold Nat.dist
      omega
    rw [List.map_cons, List.sum_cons, List.sum_cons, List.length_cons, Nat.succ_mul]
    omega

/-- The differences are less than the sum of the list for each of its numbers but one. -/
theorem gaps_add_sum_le (l : List Nat) : gaps l + l.sum ≤ l.length * l.sum := by
  induction l with
  | nil => exact Nat.zero_le _
  | cons x l ih =>
    have hdist := sum_dist_le x l
    have hexpand : (l.length + 1) * (x + l.sum) =
        l.length * x + l.length * l.sum + (x + l.sum) := by
      ring
    rw [gaps, List.sum_cons, List.length_cons, hexpand]
    omega

theorem sum_eq_of_le {x : Nat} {l : List Nat} (h : ∀ y ∈ l, x ≤ y) :
    l.sum = l.length * x + (l.map (Nat.dist x)).sum := by
  induction l with
  | nil => rw [List.length_nil, Nat.zero_mul]; rfl
  | cons y l ih =>
    have hy := h y List.mem_cons_self
    have hrest := ih fun z hz => h z (List.mem_cons_of_mem y hz)
    rw [List.map_cons, List.sum_cons, List.sum_cons, List.length_cons, Nat.succ_mul,
      Nat.dist_eq_sub_of_le hy]
    omega

/-- **Ranks and differences** of a sorted list. -/
theorem two_mul_rankSum {l : List Nat} (h : l.Pairwise (· ≤ ·)) :
    2 * rankSum l = (l.length + 1) * l.sum + gaps l := by
  induction l with
  | nil => rfl
  | cons x l ih =>
    obtain ⟨hle, hsorted⟩ := List.pairwise_cons.1 h
    have hsum := sum_eq_of_le hle
    have hrest := ih hsorted
    have hexpand : (l.length + 1 + 1) * (x + l.sum) =
        l.length * x + 2 * x + (l.length + 1) * l.sum + l.sum := by
      ring
    rw [rankSum, gaps, List.sum_cons, List.length_cons, hexpand]
    omega

/-! ## Ranks in a longer list -/

section Own

variable {α : Type} (own : α → Bool) (w : α → Nat)

/-- The elements that count, each times its rank among all of them. -/
def ownRankSum (l : List (α × Nat)) : Nat :=
  ((l.filter fun x => own x.1).map fun x => (x.2 + 1) * w x.1).sum

/-- The weight that the others put before elements that count. -/
def ahead : List α → Nat
  | [] => 0
  | a :: l => ahead l + if own a then 0 else ((l.filter own).map w).sum

theorem ownRankSum_zipIdx (l : List α) (k : Nat) :
    ownRankSum own w (l.zipIdx k) = k * ((l.filter own).map w).sum +
      rankSum ((l.filter own).map w) + ahead own w l := by
  induction l generalizing k with
  | nil => rfl
  | cons a l ih =>
    have hrest := ih (k + 1)
    unfold ownRankSum at hrest ⊢
    by_cases ha : own a = true
    · have hfilter : ((a, k) :: l.zipIdx (k + 1)).filter (fun x => own x.1) =
          (a, k) :: (l.zipIdx (k + 1)).filter fun x => own x.1 := List.filter_cons_of_pos ha
      rw [List.zipIdx_cons, hfilter, List.filter_cons_of_pos ha, List.map_cons, List.map_cons,
        List.sum_cons, List.sum_cons, hrest, rankSum, ahead, if_pos ha]
      ring
    · have hfilter : ((a, k) :: l.zipIdx (k + 1)).filter (fun x => own x.1) =
          (l.zipIdx (k + 1)).filter fun x => own x.1 := List.filter_cons_of_neg ha
      rw [List.zipIdx_cons, hfilter, List.filter_cons_of_neg ha, hrest, ahead, if_neg ha]
      ring

/-- **What stands before** is known if the order of the list says of each of the others whether it
stands before an element that counts. -/
theorem ahead_eq {P : α → α → Prop} [DecidableRel P] {l : List α}
    (h : l.Pairwise fun a b => (own a = false → own b = true → P a b) ∧
      (own a = true → own b = false → ¬P b a)) :
    ahead own w l = ((l.filter own).map fun a =>
      w a * (l.filter fun b => !own b).countP fun b => P b a).sum := by
  induction l with
  | nil => rfl
  | cons a l ih =>
    obtain ⟨hhead, htail⟩ := List.pairwise_cons.1 h
    rw [ahead, ih htail]
    by_cases ha : own a = true
    · have hnone : (l.filter fun b => !own b).countP (fun b => P b a) = 0 := by
        rw [List.countP_eq_zero]
        intro b hb
        obtain ⟨hmem, hown⟩ := List.mem_filter.1 hb
        rw [decide_eq_true_eq]
        exact (hhead b hmem).2 ha (by simpa using hown)
      have hothers : ((a :: l).filter fun b => !own b) = l.filter fun b => !own b :=
        List.filter_cons_of_neg (by simp [ha])
      rw [if_pos ha, List.filter_cons_of_pos ha, hothers, List.map_cons, List.sum_cons, hnone,
        Nat.mul_zero, Nat.add_zero, Nat.zero_add]
    · have hfalse : own a = false := by simpa using ha
      have hothers : ((a :: l).filter fun b => !own b) = a :: l.filter fun b => !own b :=
        List.filter_cons_of_pos (by simp [hfalse])
      have hone : ((l.filter own).map fun x =>
          w x * (a :: l.filter fun b => !own b).countP fun b => P b x) =
          (l.filter own).map fun x => w x * ((l.filter fun b => !own b).countP fun b => P b x) +
            w x := by
        refine List.map_congr_left fun x hx => ?_
        obtain ⟨hmem, hown⟩ := List.mem_filter.1 hx
        have hP : P a x := (hhead x hmem).1 hfalse hown
        rw [List.countP_cons_of_pos (by simpa using hP), Nat.mul_succ]
      rw [if_neg ha, List.filter_cons_of_neg ha, hothers, hone, List.sum_map_add]

end Own

end Memlog.Lib
