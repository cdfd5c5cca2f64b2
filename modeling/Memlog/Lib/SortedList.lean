import Mathlib.Data.List.InsertIdx
import Mathlib.Data.List.Sort

/-!
# Lists sorted by a key

Lists whose keys increase strictly, with the operations of an ordered map: `pred`, the last element
whose key is not above a bound, insertion of a new key (`insertKey`) and removal of a key
(`eraseKey`). The last section is about lists that are sorted with repetitions, and about the points
that divide them into smaller and larger elements.
-/

namespace Memlog.Lib

variable {α β κ : Type} [LinearOrder κ] {key : α → κ}

/-- Keys increase strictly along the list. -/
def SortedBy (key : α → κ) (l : List α) : Prop := l.Pairwise fun x y => key x < key y

/-- The last element whose key is not above `a`. -/
def pred (key : α → κ) (a : κ) (l : List α) : Option α := (l.filter fun x => key x ≤ a).getLast?

/-- The list without the elements of a key. -/
def eraseKey (key : α → κ) (k : κ) (l : List α) : List α := l.filter fun x => key x ≠ k

/-- The list with a new element at the place of its key. -/
def insertKey (key : α → κ) (x : α) (l : List α) : List α :=
  l.orderedInsert (fun y z => key y ≤ key z) x

section Pred

variable {a : κ} {l : List α} {x : α}

/-- An element is determined by its key. -/
theorem SortedBy.eq_of_key (h : SortedBy key l) {y z : α} (hy : y ∈ l) (hz : z ∈ l)
    (hk : key y = key z) : y = z := by
  have hnodup : (l.map key).Nodup := List.pairwise_map.2 (h.imp fun hlt => hlt.ne)
  exact List.inj_on_of_nodup_map hnodup hy hz hk

theorem pred_map (key : β → κ) (g : α → β) (a : κ) (l : List α) :
    pred key a (l.map g) = (pred (fun x => key (g x)) a l).map g := by
  unfold pred
  rw [List.filter_map, List.getLast?_map]
  rfl

theorem pred_eq_none : pred key a l = none ↔ ∀ x ∈ l, a < key x := by
  unfold pred
  rw [List.getLast?_eq_none_iff, List.filter_eq_nil_iff]
  simp only [decide_eq_true_eq, not_le]

/-- The predecessor is the element with the largest key not above `a`. -/
theorem pred_eq_some (h : SortedBy key l) :
    pred key a l = some x ↔ x ∈ l ∧ key x ≤ a ∧ ∀ y ∈ l, key y ≤ a → key y ≤ key x := by
  have hsorted : SortedBy key (l.filter fun y => key y ≤ a) := h.sublist List.filter_sublist
  have hmem : ∀ y, y ∈ (l.filter fun y => key y ≤ a) ↔ y ∈ l ∧ key y ≤ a := by
    intro y
    rw [List.mem_filter, decide_eq_true_eq]
  have hlast : ∀ z, (l.filter fun y => key y ≤ a).getLast? = some z →
      z ∈ l ∧ key z ≤ a ∧ ∀ y ∈ l, key y ≤ a → key y ≤ key z := by
    intro z hz
    obtain ⟨l', hl'⟩ := List.getLast?_eq_some_iff.1 hz
    rw [hl'] at hsorted
    have hz' := (hmem z).1 (by rw [hl']; simp)
    refine ⟨hz'.1, hz'.2, fun y hy hya => ?_⟩
    have hy' := (hmem y).2 ⟨hy, hya⟩
    rw [hl', List.mem_append, List.mem_singleton] at hy'
    rcases hy' with hy' | rfl
    · exact ((List.pairwise_append.1 hsorted).2.2 y hy' z (by simp)).le
    · exact le_rfl
  constructor
  · exact hlast x
  · rintro ⟨hx, hxa, hmax⟩
    cases hz : pred key a l with
    | none => exact absurd (pred_eq_none.1 hz x hx) (not_lt.2 hxa)
    | some z =>
      obtain ⟨hzl, hza, hzmax⟩ := hlast z hz
      have hkey : key z = key x := le_antisymm (hmax z hzl hza) (hzmax x hx hxa)
      rw [h.eq_of_key hzl hx hkey]

end Pred

section Update

variable {l a b : List α} {x : α} {k : κ}

theorem mem_insertKey {y : α} : y ∈ insertKey key x l ↔ y = x ∨ y ∈ l := List.mem_orderedInsert _

theorem mem_eraseKey {y : α} : y ∈ eraseKey key k l ↔ y ∈ l ∧ key y ≠ k := by
  unfold eraseKey
  rw [List.mem_filter, decide_eq_true_eq]

theorem SortedBy.eraseKey (h : SortedBy key l) (k : κ) : SortedBy key (eraseKey key k l) :=
  h.sublist List.filter_sublist

theorem SortedBy.insertKey (h : SortedBy key l) (hx : ∀ y ∈ l, key y ≠ key x) :
    SortedBy key (insertKey key x l) := by
  unfold Lib.insertKey
  induction l with
  | nil => exact List.pairwise_singleton ..
  | cons y l ih =>
    obtain ⟨hy, hl⟩ := List.pairwise_cons.1 h
    have hyx := hx y (by simp)
    rw [List.orderedInsert_cons]
    by_cases hle : key x ≤ key y
    · rw [if_pos hle]
      refine List.pairwise_cons.2 ⟨fun z hz => ?_, h⟩
      have hlt : key x < key y := lt_of_le_of_ne hle hyx.symm
      rcases List.mem_cons.1 hz with rfl | hz
      · exact hlt
      · exact hlt.trans (hy z hz)
    · rw [if_neg hle]
      refine List.pairwise_cons.2 ⟨fun z hz => ?_, ih hl fun z hz => hx z (by simp [hz])⟩
      rcases mem_insertKey.1 hz with rfl | hz
      · exact not_le.1 hle
      · exact hy z hz

/-- Where a new key goes. -/
theorem insertKey_append (ha : ∀ y ∈ a, key y < key x) (hb : ∀ y ∈ b, key x < key y) :
    insertKey key x (a ++ b) = a ++ x :: b := by
  unfold insertKey
  induction a with
  | nil =>
    cases b with
    | nil => rfl
    | cons y b =>
      rw [List.nil_append, List.orderedInsert_cons, if_pos (hb y (by simp)).le]
      rfl
  | cons y a ih =>
    have hy := ha y (by simp)
    rw [List.cons_append, List.orderedInsert_cons, if_neg (not_le.2 hy),
      ih fun z hz => ha z (by simp [hz])]
    rfl

/-- Removing the key of an element of a sorted list removes that element. -/
theorem eraseKey_append (h : SortedBy key (a ++ x :: b)) :
    eraseKey key (key x) (a ++ x :: b) = a ++ b := by
  obtain ⟨-, hxb, hax⟩ := List.pairwise_append.1 h
  have ha : eraseKey key (key x) a = a := by
    refine List.filter_eq_self.2 fun y hy => ?_
    rw [decide_eq_true_eq]
    exact (hax y hy x (by simp)).ne
  have hb : eraseKey key (key x) b = b := by
    refine List.filter_eq_self.2 fun y hy => ?_
    rw [decide_eq_true_eq]
    exact ((List.pairwise_cons.1 hxb).1 y hy).ne'
  unfold eraseKey at ha hb ⊢
  rw [List.filter_append, ha, List.filter_cons_of_neg (by simp), hb]

theorem eraseKey_of_not_mem (h : ∀ y ∈ l, key y ≠ k) : eraseKey key k l = l := by
  refine List.filter_eq_self.2 fun y hy => ?_
  rw [decide_eq_true_eq]
  exact h y hy

end Update

section PartitionPoint

variable {l : List κ}

/-- Insertion before the first element that is not smaller. -/
theorem pairwise_insertIdx_takeWhile (h : l.Pairwise (· ≤ ·)) (x : κ) :
    (l.insertIdx (l.takeWhile (· < x)).length x).Pairwise (· ≤ ·) := by
  induction l with
  | nil => simp
  | cons y l ih =>
    obtain ⟨hy, hl⟩ := List.pairwise_cons.1 h
    by_cases hlt : y < x
    · simp only [List.takeWhile_cons, hlt, decide_true, if_true, List.length_cons,
        List.insertIdx_succ_cons, List.pairwise_cons]
      refine ⟨fun z hz => ?_, ih hl⟩
      rcases List.eq_or_mem_of_mem_insertIdx hz with rfl | hz
      · exact hlt.le
      · exact hy z hz
    · simp only [List.takeWhile_cons, hlt, decide_false, Bool.false_eq_true, if_false,
        List.length_nil, List.insertIdx_zero, List.pairwise_cons]
      refine ⟨fun z hz => ?_, hy, hl⟩
      rcases List.mem_cons.1 hz with rfl | hz
      · exact not_lt.1 hlt
      · exact (not_lt.1 hlt).trans (hy z hz)

/-- The last element before the partition point of `x` is the greatest that is not above `x`. -/
theorem getElem?_takeWhile_le (h : l.Pairwise (· ≤ ·)) {x : κ} {pos : Nat}
    (hpos : (l.takeWhile (· ≤ x)).length = pos + 1) :
    ∃ s, l[pos]? = some s ∧ s ≤ x ∧ ∀ y ∈ l, y ≤ x → y ≤ s := by
  induction l generalizing pos with
  | nil => simp at hpos
  | cons y l ih =>
    obtain ⟨hy, hl⟩ := List.pairwise_cons.1 h
    by_cases hle : y ≤ x
    · simp only [List.takeWhile_cons, hle, decide_true, if_true, List.length_cons,
        Nat.add_right_cancel_iff] at hpos
      cases pos with
      | zero =>
        refine ⟨y, rfl, hle, fun z hz hzx => ?_⟩
        rcases List.mem_cons.1 hz with rfl | hz
        · exact le_rfl
        · -- nothing after `y` is at or below `x`
          cases l with
          | nil => cases hz
          | cons w l =>
            have hw : ¬w ≤ x := by
              intro hw
              simp [hw] at hpos
            have hwz : w ≤ z := by
              rcases List.mem_cons.1 hz with rfl | hz
              · exact le_rfl
              · exact (List.pairwise_cons.1 hl).1 z hz
            exact absurd (hwz.trans hzx) hw
      | succ pos =>
        obtain ⟨s, hs, hsx, hmax⟩ := ih hl hpos
        refine ⟨s, hs, hsx, fun z hz hzx => ?_⟩
        rcases List.mem_cons.1 hz with rfl | hz
        · exact hy s (List.mem_of_getElem? hs)
        · exact hmax z hz hzx
    · simp [hle] at hpos

theorem takeWhile_le_eq_nil (h : l.Pairwise (· ≤ ·)) {x : κ}
    (hpos : (l.takeWhile (· ≤ x)).length = 0) : ∀ y ∈ l, x < y := by
  cases l with
  | nil => simp
  | cons y l =>
    have hy : ¬y ≤ x := by
      intro hle
      simp [hle] at hpos
    intro z hz
    rcases List.mem_cons.1 hz with rfl | hz
    · exact not_le.1 hy
    · exact (not_le.1 hy).trans_le ((List.pairwise_cons.1 h).1 z hz)

end PartitionPoint
end Memlog.Lib
