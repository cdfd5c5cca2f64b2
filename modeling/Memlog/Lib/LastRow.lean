import Memlog.Lib.Sql

/-!
# The last row of a key

In a list of rows that are numbered in their order, the row with the largest number is the last one:
`ARG_MAX` over the numbers gives the last row of a group (`argMaxOf_of_increasing`). `lastOf` is the
last value under a key, `lastOf_append` what one row more does to it.
-/

namespace Memlog.Lib

variable {α β κ : Type} [DecidableEq κ]

/-- The value of the last row of a key. -/
def lastOf (key : α → κ) (val : α → β) (rows : List α) (k : κ) : Option β :=
  ((rows.filter fun r => key r = k).getLast?).map val

section LastOf

variable {key : α → κ} {val : α → β} {rows : List α} {r : α} {k : κ}

@[simp] theorem lastOf_nil (key : α → κ) (val : α → β) (k : κ) : lastOf key val [] k = none := rfl

/-- One row more is the last one of its key. -/
theorem lastOf_append (rows : List α) (r : α) (k : κ) :
    lastOf key val (rows ++ [r]) k = if key r = k then some (val r) else lastOf key val rows k := by
  unfold lastOf
  rw [List.filter_append]
  by_cases hk : key r = k
  · rw [if_pos hk, List.filter_cons_of_pos (by simpa using hk), List.filter_nil,
      List.getLast?_append, List.getLast?_singleton, Option.some_or, Option.map_some]
  · rw [if_neg hk, List.filter_cons_of_neg (by simpa using hk), List.filter_nil, List.append_nil]

theorem lastOf_map {γ : Type} (g : γ → α) (rows : List γ) (k : κ) :
    lastOf key val (rows.map g) k = lastOf (fun r => key (g r)) (fun r => val (g r)) rows k := by
  rw [lastOf, List.filter_map, List.getLast?_map, Option.map_map]
  rfl

/-- Other names for the keys. -/
theorem lastOf_rename {κ' : Type} [DecidableEq κ'] {g : κ → κ'} (hg : Function.Injective g)
    (rows : List α) (k : κ) :
    lastOf (fun r => g (key r)) val rows (g k) = lastOf key val rows k := by
  unfold lastOf
  simp only [hg.eq_iff]

theorem lastOf_eq_some_iff {v : β} :
    lastOf key val rows k = some v ↔
      ∃ r, (rows.filter fun r => key r = k).getLast? = some r ∧ val r = v := Option.map_eq_some_iff

theorem exists_lastOf (hr : r ∈ rows) : ∃ v, lastOf key val rows (key r) = some v := by
  have hmem : r ∈ rows.filter fun r' => key r' = key r := List.mem_filter.2 ⟨hr, decide_eq_true rfl⟩
  have hlast := List.getLast?_eq_some_getLast (List.ne_nil_of_mem hmem)
  exact ⟨_, lastOf_eq_some_iff.2 ⟨_, hlast, rfl⟩⟩

theorem mem_of_lastOf {v : β} (h : lastOf key val rows k = some v) :
    ∃ r ∈ rows, key r = k ∧ val r = v := by
  obtain ⟨r, hr, hv⟩ := lastOf_eq_some_iff.1 h
  obtain ⟨hmem, hk⟩ := List.mem_filter.1 (List.mem_of_getLast? hr)
  exact ⟨r, hmem, of_decide_eq_true hk, hv⟩

end LastOf

omit [DecidableEq κ] in
theorem argMaxOf_of_increasing (f : α → β) {ord : α → Nat} {rows : List α}
    (h : rows.Pairwise fun r r' => ord r < ord r') : argMaxOf f ord rows = rows.getLast?.map f := by
  have hargmax : rows.argmax ord = rows.getLast? := by
    rcases List.eq_nil_or_concat rows with rfl | ⟨front, last, rfl⟩
    · rfl
    · rw [List.concat_eq_append] at h ⊢
      rw [List.argmax_concat, List.getLast?_concat]
      cases hfront : front.argmax ord with
      | none => rfl
      | some r =>
        have hr : r ∈ front := List.argmax_mem hfront
        have hlt : ord r < ord last :=
          (List.pairwise_append.1 h).2.2 r hr last (List.mem_singleton.2 rfl)
        exact if_pos hlt
  rw [argMaxOf, hargmax]

/-- The rows of a list with their numbers, the rows of some keys only. -/
theorem argMaxOf_zipIdx (f : α → β) (key : α → κ) (rows : List α) (p : α → Bool) (k : κ) :
    argMaxOf (fun r => f r.1) Prod.snd
        ((rows.zipIdx.filter fun r => p r.1).filter fun r => key r.1 = k) =
      lastOf key f (rows.filter p) k := by
  rw [argMaxOf_of_increasing, lastOf]
  · have hfst : ((rows.zipIdx.filter fun r => p r.1).filter fun r => key r.1 = k).map Prod.fst =
        (rows.filter p).filter fun r => key r = k := by
      conv_rhs => rw [← List.zipIdx_map_fst 0 rows, List.filter_map, List.filter_map]
      rfl
    rw [← hfst, List.getLast?_map, Option.map_map]
    rfl
  · refine List.Pairwise.filter _ (List.Pairwise.filter _ ?_)
    rw [← List.pairwise_map (f := Prod.snd), List.zipIdx_map_snd]
    exact List.pairwise_lt_range'

end Memlog.Lib
