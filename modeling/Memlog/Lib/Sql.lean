import Mathlib.Algebra.BigOperators.Group.Finset.Piecewise
import Mathlib.Algebra.Order.Field.Rat
import Mathlib.Data.List.Dedup
import Mathlib.Data.List.MinMax
import Mathlib.Data.List.Nodup
import Mathlib.Data.List.Sort

/-!
# Relations as lists of rows

The operators of a query language on lists of rows: grouping, aggregates that pass over NULL, and
row numbers within partitions. A relation has no order, so the order in which groups are listed here
stands for any; rows that are equal in a window's order are numbered as they come.

A grouping whose keys are all different puts every row into a group of its own (`groupBy_of_nodup`);
the rows of one partition are numbered in order (`filter_rowNumbered`), and no number occurs twice
in a partition (`nodup_rowNumbered`).
-/

namespace Memlog.Lib

variable {α β κ : Type} [DecidableEq κ]

/-! ## Grouping and aggregates -/

/-- The groups of the rows with equal keys. -/
def groupBy (key : α → κ) (rows : List α) : List (List α) :=
  (rows.map key).dedup.map fun k => rows.filter fun r => key r = k

/-- `SELECT ... GROUP BY key`: a row for each group, made from one of its rows and from all of them.
-/
def aggregate (key : α → κ) (row : α → List α → β) (rows : List α) : List β :=
  (groupBy key rows).filterMap fun group => group.head?.map fun r => row r group

/-- What `any_value(f)` may be: the value of some row of the group. -/
def AnyValue (f : α → β) (anyValue : List α → β) : Prop :=
  ∀ group, group ≠ [] → ∃ r ∈ group, anyValue group = f r

/-- `JOIN ... USING (key)`. -/
def joinUsing {γ : Type} (key : α → κ) (key' : γ → κ) (rows : List α) (rows' : List γ) :
    List (α × γ) :=
  rows.flatMap fun r => (rows'.filter fun r' => key' r' = key r).map fun r' => (r, r')

/-- `COUNT(f)`. -/
def countOf (f : α → Option β) (rows : List α) : Nat := (rows.filterMap f).length

/-- `MAX(f)`. -/
def maxOf (f : α → Option Nat) (rows : List α) : Option Nat := (rows.filterMap f).max?

/-- `MIN(f)`. -/
def minOf (f : α → Option Nat) (rows : List α) : Option Nat := (rows.filterMap f).min?

/-- `ARG_MAX(f, ord)`. -/
def argMaxOf (f : α → β) (ord : α → Nat) (rows : List α) : Option β := (rows.argmax ord).map f

/-- `SUM(f)`, which is NULL if there is no value. -/
def sumOf {γ : Type} [AddMonoid γ] (f : α → Option γ) (rows : List α) : Option γ :=
  if (rows.filterMap f).isEmpty then none else some (rows.filterMap f).sum

/-- `x / n` for a number of rows, which is NULL if `n` is zero. -/
def ratio (x : Option ℚ) (n : Nat) : Option ℚ := if n = 0 then none else x.map (· / n)

theorem mem_groupBy {key : α → κ} {rows group : List α} :
    group ∈ groupBy key rows ↔ ∃ k, (rows.filter fun r => key r = k) = group ∧ group ≠ [] := by
  simp only [groupBy, List.mem_map, List.mem_dedup]
  constructor
  · rintro ⟨k, ⟨r, hr, rfl⟩, rfl⟩
    exact ⟨key r, rfl, List.ne_nil_of_mem (List.mem_filter.2 ⟨hr, decide_eq_true rfl⟩)⟩
  · rintro ⟨k, rfl, hne⟩
    obtain ⟨r, hr⟩ := List.exists_mem_of_ne_nil _ hne
    obtain ⟨hmem, hk⟩ := List.mem_filter.1 hr
    exact ⟨k, ⟨r, hmem, of_decide_eq_true hk⟩, rfl⟩

theorem exists_head_group (key : α → κ) {rows : List α} {r : α} (hr : r ∈ rows) :
    ∃ r' rest, (rows.filter fun r' => key r' = key r) = r' :: rest ∧ r' ∈ rows ∧
      key r' = key r := by
  have hmem : r ∈ rows.filter fun r' => key r' = key r := List.mem_filter.2 ⟨hr, decide_eq_true rfl⟩
  obtain ⟨r', rest, hcons⟩ := List.exists_cons_of_ne_nil (List.ne_nil_of_mem hmem)
  have hr' : r' ∈ rows.filter fun r' => key r' = key r := hcons ▸ List.mem_cons_self
  obtain ⟨hrow, hkey⟩ := List.mem_filter.1 hr'
  exact ⟨r', rest, hcons, hrow, of_decide_eq_true hkey⟩

theorem mem_joinUsing {γ : Type} {key : α → κ} {key' : γ → κ} {rows : List α} {rows' : List γ}
    {x : α × γ} : x ∈ joinUsing key key' rows rows' ↔
      x.1 ∈ rows ∧ x.2 ∈ rows' ∧ key' x.2 = key x.1 := by
  simp only [joinUsing, List.mem_flatMap, List.mem_map, List.mem_filter, decide_eq_true_eq]
  constructor
  · rintro ⟨r, hr, r', ⟨hr', hkey⟩, rfl⟩
    exact ⟨hr, hr', hkey⟩
  · rintro ⟨hr, hr', hkey⟩
    exact ⟨x.1, hr, x.2, ⟨hr', hkey⟩, rfl⟩

/-- A row whose key no other row has. -/
theorem filter_key_of_nodup {key : α → κ} {rows : List α} (h : (rows.map key).Nodup) {r : α}
    (hr : r ∈ rows) : (rows.filter fun r' => key r' = key r) = [r] := by
  have hmem : r ∈ rows.filter fun r' => key r' = key r := List.mem_filter.2 ⟨hr, decide_eq_true rfl⟩
  have hsame : (rows.filter fun r' => key r' = key r).map key =
      List.replicate (rows.filter fun r' => key r' = key r).length (key r) := by
    refine List.eq_replicate_iff.2 ⟨List.length_map _, List.forall_mem_map.2 fun r' hr' => ?_⟩
    exact of_decide_eq_true (List.mem_filter.1 hr').2
  have hone : (rows.filter fun r' => key r' = key r).length ≤ 1 := by
    refine (List.nodup_replicate (a := key r)).1 ?_
    rw [← hsame]
    exact h.sublist (List.filter_sublist.map key)
  obtain ⟨r', hr'⟩ := List.length_eq_one_iff.1 (le_antisymm hone (List.length_pos_of_mem hmem))
  rw [hr', List.mem_singleton] at hmem
  rw [hr', hmem]

theorem groupBy_of_nodup {key : α → κ} {rows : List α} (h : (rows.map key).Nodup) :
    groupBy key rows = rows.map fun r => [r] := by
  rw [groupBy, h.dedup, List.map_map]
  exact List.map_congr_left fun r hr => filter_key_of_nodup h hr

section Aggregates

variable {rows : List α} {r r' : α} (hr : r ∈ rows)
include hr

omit [DecidableEq κ] in
theorem le_maxOf {f : α → Option Nat} {e m : Nat} (h : maxOf f rows = some m) (he : f r = some e) :
    e ≤ m :=
  (List.max?_eq_some_iff.1 h).2 e (List.mem_filterMap.2 ⟨r, hr, he⟩)

omit [DecidableEq κ] in
theorem minOf_le {f : α → Option Nat} {e m : Nat} (h : minOf f rows = some m) (he : f r = some e) :
    m ≤ e :=
  (List.min?_eq_some_iff.1 h).2 e (List.mem_filterMap.2 ⟨r, hr, he⟩)

omit [DecidableEq κ] in
/-- Fewer than two values: they are equal. -/
theorem eq_of_countOf_lt_two {f : α → Option β} {e e' : β} (h : countOf f rows < 2)
    (he : f r = some e) (hr' : r' ∈ rows) (he' : f r' = some e') : e = e' := by
  have hmem : e ∈ rows.filterMap f := List.mem_filterMap.2 ⟨r, hr, he⟩
  have hmem' : e' ∈ rows.filterMap f := List.mem_filterMap.2 ⟨r', hr', he'⟩
  have hlen : (rows.filterMap f).length = 1 := by
    have hpos := List.length_pos_of_mem hmem
    unfold countOf at h
    omega
  obtain ⟨x, hx⟩ := List.length_eq_one_iff.1 hlen
  rw [hx, List.mem_singleton] at hmem hmem'
  rw [hmem, hmem']

end Aggregates

section Sums

variable {γ : Type} [AddCommMonoid γ] {key : α → κ} {rows : List α}

omit [DecidableEq κ] in
theorem sum_map_filter (p : α → Prop) [DecidablePred p] (f : α → γ) (rows : List α) :
    ((rows.filter fun r => p r).map f).sum = (rows.map fun r => if p r then f r else 0).sum := by
  induction rows with
  | nil => rfl
  | cons r rows ih =>
    by_cases hp : p r
    · rw [List.filter_cons_of_pos (by simpa using hp), List.map_cons, List.sum_cons, List.map_cons,
        List.sum_cons, ih, if_pos hp]
    · rw [List.filter_cons_of_neg (by simpa using hp), List.map_cons, List.sum_cons, ih, if_neg hp,
        zero_add]

/-- A sum over keys of sums over the rows with the key. -/
theorem sum_filter_key {keys : Finset κ} (h : ∀ r ∈ rows, key r ∈ keys) (f : α → γ) :
    ∑ k ∈ keys, ((rows.filter fun r => key r = k).map f).sum = (rows.map f).sum := by
  induction rows with
  | nil => exact Finset.sum_const_zero
  | cons r rows ih =>
    obtain ⟨hr, hrows⟩ := List.forall_mem_cons.1 h
    have hsplit : ∀ k, (((r :: rows).filter fun r => key r = k).map f).sum =
        (if key r = k then f r else 0) + ((rows.filter fun r => key r = k).map f).sum := by
      intro k
      rw [sum_map_filter, sum_map_filter, List.map_cons, List.sum_cons]
    simp only [hsplit]
    rw [Finset.sum_add_distrib, Finset.sum_ite_eq, if_pos hr, ih hrows, List.map_cons,
      List.sum_cons]

theorem sum_map_groupBy (F : List α → γ) :
    ((groupBy key rows).map F).sum =
      ∑ k ∈ (rows.map key).toFinset, F (rows.filter fun r => key r = k) := by
  rw [groupBy, List.map_map, ← List.sum_toFinset _ (List.nodup_dedup _)]
  refine Finset.sum_congr (Finset.ext fun k => ?_) fun _ _ => rfl
  rw [List.mem_toFinset, List.mem_toFinset, List.mem_dedup]

/-- **Grouping loses nothing**: sums over the groups add up to the sum over all rows. -/
theorem sum_groupBy (f : α → γ) :
    ((groupBy key rows).map fun group => (group.map f).sum).sum = (rows.map f).sum := by
  rw [sum_map_groupBy]
  exact sum_filter_key (fun r hr => List.mem_toFinset.2 (List.mem_map.2 ⟨r, hr, rfl⟩)) f

theorem mem_aggregate {row : α → List α → β} {b : β} : b ∈ aggregate key row rows ↔
    ∃ r, (rows.filter fun r' => key r' = key r).head? = some r ∧
      row r (rows.filter fun r' => key r' = key r) = b := by
  simp only [aggregate, List.mem_filterMap, mem_groupBy, Option.map_eq_some_iff]
  constructor
  · rintro ⟨group, ⟨k, rfl, -⟩, r, hr, rfl⟩
    have hk : key r = k := of_decide_eq_true (List.mem_filter.1 (List.mem_of_head? hr)).2
    subst hk
    exact ⟨r, hr, rfl⟩
  · rintro ⟨r, hr, rfl⟩
    exact ⟨_, ⟨key r, rfl, List.ne_nil_of_mem (List.mem_of_head? hr)⟩, r, hr, rfl⟩

/-- A sum over the rows of an aggregation, from what each of them adds. -/
theorem sum_map_aggregate {row : α → List α → β} {φ : β → γ} {F : List α → γ}
    (h : ∀ r ∈ rows, φ (row r (rows.filter fun r' => key r' = key r)) =
      F (rows.filter fun r' => key r' = key r)) :
    ((aggregate key row rows).map φ).sum = ((groupBy key rows).map F).sum := by
  have hgroups : ∀ groups : List (List α), (∀ group ∈ groups, group ∈ groupBy key rows) →
      ((groups.filterMap fun group => group.head?.map fun r => row r group).map φ).sum =
        (groups.map F).sum := by
    intro groups hmem
    induction groups with
    | nil => rfl
    | cons group groups ih =>
      obtain ⟨hgroup, hrest⟩ := List.forall_mem_cons.1 hmem
      obtain ⟨k, hfilter, hne⟩ := mem_groupBy.1 hgroup
      obtain ⟨r, rest, rfl⟩ := List.exists_cons_of_ne_nil hne
      have hr : r ∈ rows.filter fun r' => key r' = k := hfilter ▸ List.mem_cons_self
      obtain ⟨hmem', hkey⟩ := List.mem_filter.1 hr
      obtain rfl := of_decide_eq_true hkey
      have hrow := h r hmem'
      rw [hfilter] at hrow
      rw [List.filterMap_cons_some (by rfl), List.map_cons, List.sum_cons, List.map_cons,
        List.sum_cons, ih hrest, hrow]
  exact hgroups _ fun _ hgroup => hgroup

/-- **A sum over some rows of an aggregation**, chosen by their keys, is one over the rows below. -/
theorem sum_filter_aggregate {row : α → List α → β} {p : β → Prop} [DecidablePred p] {q : κ → Prop}
    [DecidablePred q] (hp : ∀ r group, p (row r group) ↔ q (key r)) {φ : β → γ} {f : α → γ}
    (h : ∀ r ∈ rows, q (key r) → φ (row r (rows.filter fun r' => key r' = key r)) =
      ((rows.filter fun r' => key r' = key r).map f).sum) :
    (((aggregate key row rows).filter fun b => p b).map φ).sum =
      ((rows.filter fun r => q (key r)).map f).sum := by
  rw [sum_map_filter, sum_map_filter]
  refine (sum_map_aggregate fun r hr => ?_).trans
    (sum_groupBy fun r => if q (key r) then f r else 0)
  have hconst : ∀ r' ∈ rows.filter fun r' => key r' = key r, key r' = key r := fun r' hr' =>
    of_decide_eq_true (List.mem_filter.1 hr').2
  by_cases hq : q (key r)
  · rw [if_pos ((hp _ _).2 hq), h r hr hq]
    refine congrArg List.sum (List.map_congr_left fun r' hr' => ?_)
    rw [hconst r' hr', if_pos hq]
  · rw [if_neg fun hrow => hq ((hp _ _).1 hrow)]
    refine (List.sum_eq_zero fun x hx => ?_).symm
    obtain ⟨r', hr', rfl⟩ := List.mem_map.1 hx
    rw [hconst r' hr', if_neg hq]

theorem exists_mem_aggregate {row : α → List α → β} {r : α} (hr : r ∈ rows) :
    ∃ r' ∈ rows, key r' = key r ∧
      row r' (rows.filter fun r'' => key r'' = key r') ∈ aggregate key row rows := by
  obtain ⟨r', rest, hcons, hr', hkey⟩ := exists_head_group key hr
  refine ⟨r', hr', hkey, mem_aggregate.2 ⟨r', ?_, rfl⟩⟩
  rw [hkey, hcons]
  rfl

/-- Each key has one row. -/
theorem map_key_aggregate {row : α → List α → β} {key' : β → κ}
    (hkey : ∀ r group, key' (row r group) = key r) :
    (aggregate key row rows).map key' = (rows.map key).dedup := by
  rw [aggregate, groupBy, List.filterMap_map, List.map_filterMap]
  have hsome : ∀ k ∈ (rows.map key).dedup, (((fun group : List α => group.head?.map fun r =>
      row r group) ∘ fun k => rows.filter fun r => key r = k) k).map key' = some k := by
    intro k hk
    obtain ⟨r, hr, rfl⟩ := List.mem_map.1 (List.mem_dedup.1 hk)
    obtain ⟨r', rest, hcons, -, hkey'⟩ := exists_head_group key hr
    rw [Function.comp_apply, hcons, List.head?_cons, Option.map_some, Option.map_some, hkey, hkey']
  rw [List.filterMap_congr hsome, List.filterMap_some]

/-- **A join with a lookup**: if each row finds one partner, a sum over the join is one over the
rows. -/
theorem sum_joinUsing {δ : Type} {key' : δ → κ} {rows' : List δ} (hnodup : (rows'.map key').Nodup)
    (hpartner : ∀ r ∈ rows, ∃ r' ∈ rows', key' r' = key r) {φ : α × δ → γ} {f : α → γ}
    (h : ∀ r ∈ rows, ∀ r' ∈ rows', key' r' = key r → φ (r, r') = f r) :
    ((joinUsing key key' rows rows').map φ).sum = (rows.map f).sum := by
  induction rows with
  | nil => rfl
  | cons r rows ih =>
    obtain ⟨⟨r', hr', hkey⟩, hpartners⟩ := List.forall_mem_cons.1 hpartner
    obtain ⟨hfirst, hrest⟩ := List.forall_mem_cons.1 h
    have hone : (rows'.filter fun r'' => key' r'' = key r) = [r'] := by
      rw [← hkey]
      exact filter_key_of_nodup hnodup hr'
    rw [joinUsing, List.flatMap_cons, hone, List.map_singleton, List.singleton_append,
      List.map_cons, List.sum_cons, hfirst r' hr' hkey, List.map_cons, List.sum_cons]
    exact congrArg (f r + ·) (ih hpartners hrest)

omit [DecidableEq κ] in
theorem countP_eq_sum (p : α → Bool) (rows : List α) :
    rows.countP p = (rows.map fun r => if p r then 1 else 0).sum := by
  induction rows with
  | nil => rfl
  | cons r rows ih => rw [List.countP_cons, List.map_cons, List.sum_cons, ih, Nat.add_comm]

omit [DecidableEq κ] in
theorem length_eq_sum (rows : List α) : rows.length = (rows.map fun _ => 1).sum := by
  rw [List.map_const', List.sum_replicate_nat, Nat.mul_one]

omit [DecidableEq κ] in
theorem sum_filterMap (f : α → Option γ) (rows : List α) :
    (rows.filterMap f).sum = (rows.map fun r => (f r).getD 0).sum := by
  induction rows with
  | nil => rfl
  | cons r rows ih =>
    cases hr : f r with
    | none => rw [List.filterMap_cons_none hr, List.map_cons, List.sum_cons, hr, ih,
        Option.getD_none, zero_add]
    | some x => rw [List.filterMap_cons_some hr, List.map_cons, List.sum_cons, List.sum_cons, hr,
        ih, Option.getD_some]

omit [DecidableEq κ] in
theorem sumOf_eq_some {f : α → Option γ} {r : α} (hr : r ∈ rows) (hf : f r ≠ none) :
    sumOf f rows = some (rows.map fun r => (f r).getD 0).sum := by
  obtain ⟨x, hx⟩ := Option.ne_none_iff_exists'.1 hf
  have hne : rows.filterMap f ≠ [] := List.ne_nil_of_mem (List.mem_filterMap.2 ⟨r, hr, hx⟩)
  rw [sumOf, if_neg (by simpa using hne), sum_filterMap]

end Sums

/-! ## Row numbers -/

/-- `ROW_NUMBER() OVER (PARTITION BY part ORDER BY ord) - 1`, next to each row. -/
def rowNumbered (part : α → κ) (ord : α → Nat) (rows : List α) : List (α × Nat) :=
  (groupBy part rows).flatMap fun rs => (rs.insertionSort fun r r' => ord r ≤ ord r').zipIdx

section RowNumbers

variable {part : α → κ} {ord : α → Nat} {rows : List α}

theorem filter_flatMap_of_nodup {ks : List κ} (hks : ks.Nodup) {f : κ → List β} {p : β → κ}
    (hp : ∀ k, ∀ x ∈ f k, p x = k) (k : κ) :
    (ks.flatMap f).filter (fun x => p x = k) = if k ∈ ks then f k else [] := by
  induction ks with
  | nil => rfl
  | cons k' ks ih =>
    obtain ⟨hnot, hks⟩ := List.nodup_cons.1 hks
    rw [List.flatMap_cons, List.filter_append, ih hks]
    by_cases hk : k = k'
    · subst hk
      rw [if_neg hnot, if_pos List.mem_cons_self, List.append_nil, List.filter_eq_self]
      intro x hx
      exact decide_eq_true (hp k x hx)
    · have hnone : (f k').filter (fun x => p x = k) = [] := by
        rw [List.filter_eq_nil_iff]
        intro x hx
        rw [hp k' x hx, decide_eq_true_eq]
        exact Ne.symm hk
      rw [hnone, List.nil_append]
      simp only [List.mem_cons, hk, false_or]

/-- **The rows that a window makes of one partition**; it makes none of an empty one. -/
theorem filter_flatMap_groupBy {f : List α → List β} {p : β → κ} (hnil : f [] = [])
    (hp : ∀ k, ∀ x ∈ f (rows.filter fun r => part r = k), p x = k) (k : κ) :
    ((groupBy part rows).flatMap f).filter (fun x => p x = k) =
      f (rows.filter fun r => part r = k) := by
  rw [groupBy, List.flatMap_map, filter_flatMap_of_nodup (List.nodup_dedup _) hp]
  split
  · rfl
  · next hnot =>
    have hnone : (rows.filter fun r => part r = k) = [] := by
      rw [List.filter_eq_nil_iff]
      intro r hr hk
      exact hnot (List.mem_dedup.2 (List.mem_map.2 ⟨r, hr, of_decide_eq_true hk⟩))
    rw [hnone, hnil]

theorem part_of_mem_partition {k : κ} {x : α × Nat}
    (hx : x ∈ ((rows.filter fun r => part r = k).insertionSort fun r r' => ord r ≤ ord r').zipIdx) :
    part x.1 = k := by
  have hfst : x.1 ∈ (rows.filter fun r => part r = k).insertionSort fun r r' => ord r ≤ ord r' :=
    List.fst_mem_of_mem_zipIdx hx
  rw [List.mem_insertionSort, List.mem_filter] at hfst
  exact of_decide_eq_true hfst.2

/-- **The rows of a partition** are numbered in order. -/
theorem filter_rowNumbered (k : κ) :
    (rowNumbered part ord rows).filter (fun x => part x.1 = k) =
      ((rows.filter fun r => part r = k).insertionSort fun r r' => ord r ≤ ord r').zipIdx := by
  exact filter_flatMap_groupBy rfl (fun k' x hx => part_of_mem_partition hx) k

/-- No number occurs twice in a partition. -/
theorem nodup_rowNumbered : ((rowNumbered part ord rows).map fun x => (part x.1, x.2)).Nodup := by
  rw [rowNumbered, groupBy, List.flatMap_map, List.map_flatMap, List.nodup_flatMap]
  constructor
  · intro k _
    refine List.Nodup.of_map Prod.snd ?_
    rw [List.map_map]
    have hsnd : (Prod.snd ∘ fun x : α × Nat => (part x.1, x.2)) = Prod.snd := rfl
    rw [hsnd, List.zipIdx_map_snd]
    exact List.nodup_range'
  · refine (List.nodup_dedup _).imp fun {k k'} hne => ?_
    intro x hx hx'
    obtain ⟨y, hy, rfl⟩ := List.mem_map.1 hx
    obtain ⟨y', hy', heq⟩ := List.mem_map.1 hx'
    have hpart := part_of_mem_partition hy
    have hpart' := part_of_mem_partition hy'
    rw [← (Prod.mk.inj heq).1, hpart'] at hpart
    exact hne hpart.symm

/-- **A numbering that the query language allows**: rows that are equal in the order of the window
are numbered in any order. -/
def Numbered (part : α → κ) (ord : α → Nat) (rows : List α) (numbered : List (α × Nat)) : Prop :=
  ∀ k, ∃ l : List α, l.Perm (rows.filter fun r => part r = k) ∧
    l.Pairwise (fun r r' => ord r ≤ ord r') ∧
    (numbered.filter fun x => part x.1 = k).Perm l.zipIdx

/-- A finer order breaks the ties. -/
theorem numbered_rowNumbered {fine : α → Nat} (hfine : ∀ r r', fine r ≤ fine r' → ord r ≤ ord r') :
    Numbered part ord rows (rowNumbered part fine rows) := by
  intro k
  let sorted := (rows.filter fun r => part r = k).insertionSort fun r r' => fine r ≤ fine r'
  refine ⟨sorted, List.perm_insertionSort _ _, ?_, ?_⟩
  · have : Std.Total fun r r' : α => fine r ≤ fine r' := ⟨fun r r' => Nat.le_total _ _⟩
    have : IsTrans α fun r r' : α => fine r ≤ fine r' := ⟨fun _ _ _ h h' => Nat.le_trans h h'⟩
    exact (List.pairwise_insertionSort _ _).imp fun h => hfine _ _ h
  · rw [filter_rowNumbered]

end RowNumbers

/-! ## Runs -/

/-- The consecutive runs of `k` elements, the last one being shorter if need be. -/
def runs (k : Nat) (l : List α) : List (List α) :=
  (List.range ((l.length + k - 1) / k)).map fun j => (l.drop (j * k)).take k

theorem length_runs (k : Nat) (l : List α) : (runs k l).length = (l.length + k - 1) / k := by
  rw [runs, List.length_map, List.length_range]

end Memlog.Lib
