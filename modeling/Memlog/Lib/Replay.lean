import Memlog.Lib.Sql

/-!
# Looking back, in a window and in a map

A window that is partitioned by a key and looks one row back finds what a map holds into which the
rows have been put one after the other: `lag_perm_replay`. The rows of one key are the same in both
(`filter_lag`, `filter_replay`), and lists that agree on every key are permutations of each other
(`perm_of_filter_eq`).
-/

namespace Memlog.Lib

variable {α β κ : Type} [DecidableEq κ]

/-- Each row with the value of the row before it. -/
def withPrev (val : α → β) : Option β → List α → List (α × Option β)
  | _, [] => []
  | prev, r :: rows => (r, prev) :: withPrev val (some (val r)) rows

/-- `LAG(val) OVER (PARTITION BY part ORDER BY ord)`, next to each row. -/
def lag (part : α → κ) (ord : α → Nat) (val : α → β) (rows : List α) : List (α × Option β) :=
  (groupBy part rows).flatMap fun rs =>
    withPrev val none (rs.insertionSort fun r r' => ord r ≤ ord r')

/-- The rows are put into a map, each with what it finds there under its key. -/
def replay (key : α → κ) (val : α → β) : (κ → Option β) → List α → List (α × Option β)
  | _, [] => []
  | mem, r :: rows =>
    (r, mem (key r)) :: replay key val (Function.update mem (key r) (some (val r))) rows

section Keys

variable {key : α → κ} {ord : α → Nat} {val : α → β} {rows : List α}

omit [DecidableEq κ] in
theorem map_fst_withPrev (prev : Option β) (rows : List α) :
    (withPrev val prev rows).map Prod.fst = rows := by
  induction rows generalizing prev with
  | nil => rfl
  | cons r rows ih => rw [withPrev, List.map_cons, ih]

theorem map_fst_replay (mem : κ → Option β) (rows : List α) :
    (replay key val mem rows).map Prod.fst = rows := by
  induction rows generalizing mem with
  | nil => rfl
  | cons r rows ih => rw [replay, List.map_cons, ih]

/-- Only what is under the keys of the rows matters. -/
theorem replay_congr {mem mem' : κ → Option β} (h : ∀ r ∈ rows, mem (key r) = mem' (key r)) :
    replay key val mem rows = replay key val mem' rows := by
  induction rows generalizing mem mem' with
  | nil => rfl
  | cons r rows ih =>
    rw [replay, replay, h r List.mem_cons_self]
    congr 1
    refine ih fun r' hr' => ?_
    by_cases heq : key r' = key r
    · rw [heq, Function.update_self, Function.update_self]
    · rw [Function.update_of_ne heq, Function.update_of_ne heq]
      exact h r' (List.mem_cons_of_mem _ hr')

/-- The rows of a key see each other, and no others. -/
theorem filter_replay (mem : κ → Option β) (k : κ) :
    (replay key val mem rows).filter (fun x => key x.1 = k) =
      withPrev val (mem k) (rows.filter fun r => key r = k) := by
  induction rows generalizing mem with
  | nil => rfl
  | cons r rows ih =>
    rw [replay]
    by_cases hk : key r = k
    · subst hk
      rw [List.filter_cons_of_pos (by simp), List.filter_cons_of_pos (by simp), withPrev, ih,
        Function.update_self]
    · rw [List.filter_cons_of_neg (by simpa using hk), List.filter_cons_of_neg (by simpa using hk),
        ih, Function.update_of_ne (Ne.symm hk)]

/-- The rows of some keys are replayed without the others. -/
theorem filter_replay_of_key {γ : Type} [DecidableEq γ] (q : κ → γ) (c : γ) (mem : κ → Option β)
    (rows : List α) : (replay key val mem rows).filter (fun x => q (key x.1) = c) =
      replay key val mem (rows.filter fun r => q (key r) = c) := by
  induction rows generalizing mem with
  | nil => rfl
  | cons r rows ih =>
    rw [replay]
    by_cases hc : q (key r) = c
    · rw [List.filter_cons_of_pos (by simpa using hc), List.filter_cons_of_pos (by simpa using hc),
        replay, ih]
    · rw [List.filter_cons_of_neg (by simpa using hc), List.filter_cons_of_neg (by simpa using hc),
        ih]
      refine replay_congr fun r' hr' => ?_
      refine Function.update_of_ne (fun heq => hc ?_) ..
      rw [← heq]
      exact of_decide_eq_true (List.mem_filter.1 hr').2

theorem filter_lag (hsorted : rows.Pairwise fun r r' => ord r ≤ ord r') (k : κ) :
    (lag key ord val rows).filter (fun x => key x.1 = k) =
      withPrev val none (rows.filter fun r => key r = k) := by
  have hkey : ∀ k', ∀ x ∈ withPrev val none ((rows.filter fun r => key r = k').insertionSort
      fun r r' => ord r ≤ ord r'), key x.1 = k' := by
    intro k' x hx
    have hfst := List.mem_map_of_mem (f := Prod.fst) hx
    rw [map_fst_withPrev, List.mem_insertionSort, List.mem_filter] at hfst
    exact of_decide_eq_true hfst.2
  have hsort : (rows.filter fun r => key r = k).insertionSort (fun r r' => ord r ≤ ord r') =
      rows.filter fun r => key r = k := (hsorted.filter _).insertionSort_eq
  exact (filter_flatMap_groupBy rfl hkey k).trans (congrArg (withPrev val none) hsort)

theorem perm_of_filter_eq {γ : Type} {p : γ → κ} {l l' : List γ}
    (h : ∀ k, l.filter (fun x => p x = k) = l'.filter fun x => p x = k) : l.Perm l' := by
  classical
  rw [List.perm_iff_count]
  intro x
  have hx := congrArg (List.count x) (h (p x))
  rw [List.count_filter (by simp), List.count_filter (by simp)] at hx
  exact hx

/-- What is kept of the rows of all, if only one of them has any. -/
theorem filter_flatMap_of_unique {γ : Type} {f : γ → List α} {p : α → Bool} {l : List γ} {a : γ}
    (hnodup : l.Nodup) (ha : a ∈ l) (hother : ∀ x ∈ l, x ≠ a → (f x).filter p = []) :
    (l.flatMap f).filter p = (f a).filter p := by
  obtain ⟨before, after, rfl⟩ := List.mem_iff_append.1 ha
  have hnone : ∀ xs : List γ, (∀ x ∈ xs, x ∈ before ++ a :: after ∧ x ≠ a) →
      (xs.flatMap f).filter p = [] := by
    intro xs hxs
    rw [List.filter_flatMap, List.flatMap_eq_nil_iff]
    exact fun x hx => hother x (hxs x hx).1 (hxs x hx).2
  rw [List.nodup_middle, List.nodup_cons, List.mem_append, not_or] at hnodup
  rw [List.flatMap_append, List.flatMap_cons, List.filter_append, List.filter_append, hnone before,
    hnone after, List.nil_append, List.append_nil]
  · intro x hx
    refine ⟨List.mem_append_right _ (List.mem_cons_of_mem _ hx), ?_⟩
    rintro rfl
    exact hnodup.1.2 hx
  · intro x hx
    refine ⟨List.mem_append_left _ hx, ?_⟩
    rintro rfl
    exact hnodup.1.1 hx

/-- **A window that looks back finds what the map holds**, if the rows come in its order. -/
theorem lag_perm_replay (hsorted : rows.Pairwise fun r r' => ord r ≤ ord r') :
    (lag key ord val rows).Perm (replay key val (fun _ => none) rows) := by
  refine perm_of_filter_eq (p := fun x => key x.1) fun k => ?_
  rw [filter_lag hsorted, filter_replay]

end Keys

/-- Keys may be renamed. -/
theorem replay_rename {κ' : Type} [DecidableEq κ'] {g : κ → κ'} (hg : Function.Injective g)
    (key : α → κ) (val : α → β) (mem : κ' → Option β) (rows : List α) :
    replay (fun r => g (key r)) val mem rows = replay key val (fun k => mem (g k)) rows := by
  induction rows generalizing mem with
  | nil => rfl
  | cons r rows ih =>
    rw [replay, replay, ih]
    congr 2
    exact Function.update_comp_eq_of_injective mem hg (key r) (some (val r))

/-- Rows that carry more than the map needs. -/
theorem map_replay {γ : Type} (f : γ → α) (key : α → κ) (val : α → β) (mem : κ → Option β)
    (rows : List γ) : replay key val mem (rows.map f) =
      (replay (fun x => key (f x)) (fun x => val (f x)) mem rows).map fun x => (f x.1, x.2) := by
  induction rows generalizing mem with
  | nil => rfl
  | cons r rows ih => rw [List.map_cons, replay, replay, List.map_cons, ih]

end Memlog.Lib
