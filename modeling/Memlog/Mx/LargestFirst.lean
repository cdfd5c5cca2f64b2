import Memlog.Mx.Element
import Memlog.Mx.Store

/-!
# Writing the largest element first

Every store rounds the whole group again, with a scale computed from what is there. If the largest
element of an array is stored first, that scale is the one of the whole array from the first store
on: the elements stored before are left alone, and the group ends as `mx_encode_block` makes it of
the array (`storeAll_largest_first`). A group that turns into NaN stays so. For the stores of the
program this needs the tool to attribute each of them to the block, which it does unless a tracked
region starts between the start of the block and the element (`wiredStores_largest_first_iff`).
-/

namespace Memlog

open Lib

/-! ## Storing an array element by element -/

section Run

variable {clo : Clo} {f : FpFmt} (hf : f.Ieee) {n : Nat} {raw g : Nat → ULong}

/-- The group after the elements at these positions have been stored, each followed by an encoding.
-/
def storeAll (clo : Clo) (f : FpFmt) (n : Nat) (raw : Nat → ULong) (g : Nat → ULong)
    (order : List Nat) : Nat → ULong :=
  order.foldl (fun g i => encodeAt clo f n (Function.update g i (raw i))) g

theorem storeAll_cons (clo : Clo) (f : FpFmt) (n : Nat) (raw g : Nat → ULong) (i : Nat)
    (order : List Nat) : storeAll clo f n raw g (i :: order) =
      storeAll clo f n raw (encodeAt clo f n (Function.update g i (raw i))) order := rfl

theorem storeAll_append (clo : Clo) (f : FpFmt) (n : Nat) (raw g : Nat → ULong)
    (order order' : List Nat) : storeAll clo f n raw g (order ++ order') =
      storeAll clo f n raw (storeAll clo f n raw g order) order' := List.foldl_append

theorem storeAll_congr {g' : Nat → ULong} (h : ∀ i < n, g i = g' i) (order : List Nat) {i : Nat}
    (hi : i < n) : storeAll clo f n raw g order i = storeAll clo f n raw g' order i := by
  induction order generalizing g g' with
  | nil => exact h i hi
  | cons j order ih =>
    rw [storeAll_cons, storeAll_cons]
    refine ih fun k hk => encodeAt_congr (fun l hl => ?_) hk
    by_cases hlj : l = j
    · rw [hlj, Function.update_self, Function.update_self]
    · rw [Function.update_of_ne hlj, Function.update_of_ne hlj, h l hl]

theorem update_word (hg : ∀ i < n, f.Word (g i)) {j : Nat} {v : ULong} (hv : f.Word v) :
    ∀ i < n, f.Word (Function.update g j v i) := by
  intro i hi
  by_cases hij : i = j
  · rw [hij, Function.update_self]
    exact hv
  · rw [Function.update_of_ne hij]
    exact hg i hi

include hf

theorem encodeAt_word (hg : ∀ i < n, f.Word (g i)) : ∀ i < n, f.Word (encodeAt clo f n g i) := by
  have hwords : ∀ v ∈ (List.range n).map g, f.Word v :=
    List.forall_mem_map.2 fun i hi => hg i (List.mem_range.1 hi)
  intro i hi
  exact mxElementMap_word hf clo (scanOf_scanGroup hf hwords) hwords
    (List.mem_map_of_mem (List.mem_range.2 hi))

theorem storeAll_word (hraw : ∀ i < n, f.Word (raw i)) (hg : ∀ i < n, f.Word (g i))
    {order : List Nat} (horder : ∀ i ∈ order, i < n) :
    ∀ i < n, f.Word (storeAll clo f n raw g order i) := by
  induction order generalizing g with
  | nil => exact hg
  | cons j order ih =>
    obtain ⟨hj, horder⟩ := List.forall_mem_cons.1 horder
    exact ih (encodeAt_word hf (update_word hg (hraw j hj))) horder

/-! ## Groups that turn into NaN -/

theorem encodeAt_of_not_finite (hg : ∀ i < n, f.Word (g i)) {i : Nat} (hi : i < n)
    (hinf : ¬f.Finite (g i)) : ∀ j < n, encodeAt clo f n g j = mxNanElement f := by
  have hwords : ∀ v ∈ (List.range n).map g, f.Word v :=
    List.forall_mem_map.2 fun i hi => hg i (List.mem_range.1 hi)
  have hnan := encodeGroup_of_not_finite hf clo hwords
    ⟨g i, List.mem_map_of_mem (List.mem_range.2 hi), hinf⟩
  rw [encodeGroup_map_range, List.map_map] at hnan
  exact map_range_eq_iff.1 hnan

/-- A store leaves a NaN in a group of at least two, so the group stays NaN. -/
theorem storeAll_nan (hraw : ∀ i < n, f.Word (raw i)) (hg : ∀ i < n, g i = mxNanElement f)
    {order : List Nat} (horder : ∀ i ∈ order, i < n) (hn : order ≠ [] → 2 ≤ n) :
    ∀ i < n, storeAll clo f n raw g order i = mxNanElement f := by
  obtain ⟨hnan, hnotfin⟩ := mxNanElement_word hf
  induction order generalizing g with
  | nil => exact hg
  | cons j order ih =>
    obtain ⟨hj, horder⟩ := List.forall_mem_cons.1 horder
    have htwo : 2 ≤ n := hn (List.cons_ne_nil j order)
    obtain ⟨k, hk, hkj⟩ : ∃ k < n, k ≠ j := by
      by_cases hzero : j = 0
      · exact ⟨1, by omega, by omega⟩
      · exact ⟨0, by omega, by omega⟩
    have hwords : ∀ i < n, f.Word (Function.update g j (raw j) i) :=
      update_word (fun i hi => by rw [hg i hi]; exact hnan) (hraw j hj)
    have hinf : ¬f.Finite (Function.update g j (raw j) k) := by
      rw [Function.update_of_ne hkj, hg k hk]
      exact hnotfin
    exact ih (encodeAt_of_not_finite hf hwords hk hinf) horder fun _ => htwo

/-! ## Groups that are rounded -/

/-- An array with a scale that all its elements fit, the element at `i₀` being in the top binade
unless the scale is the least one. -/
structure ScaledBy (clo : Clo) (f : FpFmt) (n : Nat) (raw : Nat → ULong) (shared : Int) (i₀ : Nat) :
    Prop where
  scale : MxScale clo f shared
  inScale : ∀ i < n, InScale clo f shared (raw i)
  lt : i₀ < n
  top : shared ≠ -mxScaleMax clo → f.Active (raw i₀) ∧ mxLead f (raw i₀) = shared + clo.mxEmax

section Scaled

variable {shared : Int} {i₀ : Nat} (h : ScaledBy clo f n raw shared i₀)
include h

/-- A mix of elements that are stored, rounded and not yet stored is rounded with the same scale. -/
theorem ScaledBy.encodeAt
    (hg : ∀ i < n, g i = 0#64 ∨ g i = raw i ∨ g i = mxQuantize clo f (raw i) shared)
    (hg₀ : g i₀ = raw i₀ ∨ g i₀ = mxQuantize clo f (raw i₀) shared) :
    ∀ i < n, encodeAt clo f n g i = mxQuantize clo f (g i) shared := by
  have hin : ∀ v ∈ (List.range n).map g, InScale clo f shared v := by
    refine List.forall_mem_map.2 fun i hi => ?_
    have hraw := h.inScale i (List.mem_range.1 hi)
    rcases hg i (List.mem_range.1 hi) with hgi | hgi | hgi <;> rw [hgi]
    · refine InScale.of_code hf ?_ ?_
      · exact Nat.two_pow_pos _
      · exact Nat.zero_mod _
    · exact hraw
    · exact hraw.quantize hf h.scale
  have htop : shared ≠ -mxScaleMax clo →
      ∃ v ∈ (List.range n).map g, f.Active v ∧ mxLead f v = shared + clo.mxEmax := by
    intro hleast
    obtain ⟨hactive, hlead⟩ := h.top hleast
    refine ⟨g i₀, List.mem_map_of_mem (List.mem_range.2 h.lt), ?_⟩
    rcases hg₀ with hgi | hgi <;> rw [hgi]
    · exact ⟨hactive, hlead⟩
    · have hraw := h.inScale i₀ h.lt
      obtain ⟨hqa, hqlead⟩ := mxLead_mxQuantize_top hf clo (hraw.no_overflow hf h.scale) hraw.word
        hactive hlead
      exact ⟨hqa, hqlead.trans hlead⟩
  have hmap := encodeGroup_of_inScale hf h.scale hin htop
  rw [encodeGroup_map_range, List.map_map] at hmap
  exact map_range_eq_iff.1 hmap

/-- **One store** of an element, once the first one is there. -/
theorem ScaledBy.step (hg : ∀ i < n, g i = 0#64 ∨ g i = mxQuantize clo f (raw i) shared) {j : Nat}
    (hfirst : j = i₀ ∨ g i₀ = mxQuantize clo f (raw i₀) shared) :
    ∀ i < n, Memlog.encodeAt clo f n (Function.update g j (raw j)) i =
      if i = j then mxQuantize clo f (raw i) shared else g i := by
  have hmix : ∀ i < n, Function.update g j (raw j) i = 0#64 ∨
      Function.update g j (raw j) i = raw i ∨
      Function.update g j (raw j) i = mxQuantize clo f (raw i) shared := by
    intro i hi
    by_cases hij : i = j
    · subst hij
      exact .inr (.inl (Function.update_self ..))
    · rw [Function.update_of_ne hij]
      exact (hg i hi).imp_right .inr
  have hmix₀ : Function.update g j (raw j) i₀ = raw i₀ ∨
      Function.update g j (raw j) i₀ = mxQuantize clo f (raw i₀) shared := by
    by_cases hij : i₀ = j
    · subst hij
      exact .inl (Function.update_self ..)
    · rw [Function.update_of_ne hij]
      exact .inr (hfirst.resolve_left (Ne.symm hij))
  intro i hi
  rw [h.encodeAt hf hmix hmix₀ i hi]
  by_cases hij : i = j
  · subst hij
    rw [if_pos rfl, Function.update_self]
  · rw [if_neg hij, Function.update_of_ne hij]
    rcases hg i hi with hgi | hgi <;> rw [hgi]
    · exact mxQuantize_of_code hf (Nat.two_pow_pos _) (Nat.zero_mod _)
    · exact (h.inScale i hi).quantize_idem hf h.scale

/-- **The run**: what has been stored is rounded with the scale of the array, the rest is untouched.
-/
theorem ScaledBy.storeAll (hg : ∀ i < n, g i = 0#64 ∨ g i = mxQuantize clo f (raw i) shared)
    {order : List Nat} (hfirst : i₀ ∈ order.head? ∨ g i₀ = mxQuantize clo f (raw i₀) shared) :
    ∀ i < n, Memlog.storeAll clo f n raw g order i =
      if i ∈ order then mxQuantize clo f (raw i) shared else g i := by
  induction order generalizing g with
  | nil =>
    intro i _
    rw [if_neg List.not_mem_nil]
    rfl
  | cons j order ih =>
    have hj : j = i₀ ∨ g i₀ = mxQuantize clo f (raw i₀) shared :=
      hfirst.imp_left fun hhead => Option.some.inj hhead
    have hstep := h.step hf hg hj
    have hg' : ∀ i < n, Memlog.encodeAt clo f n (Function.update g j (raw j)) i = 0#64 ∨
        Memlog.encodeAt clo f n (Function.update g j (raw j)) i =
          mxQuantize clo f (raw i) shared := by
      intro i hi
      rw [hstep i hi]
      split
      · exact .inr rfl
      · exact hg i hi
    have hg₀ : Memlog.encodeAt clo f n (Function.update g j (raw j)) i₀ =
        mxQuantize clo f (raw i₀) shared := by
      rw [hstep i₀ h.lt]
      split
      · rfl
      · rename_i hne
        exact hj.resolve_left (Ne.symm hne)
    intro i hi
    rw [storeAll_cons, ih hg' (.inr hg₀) i hi, hstep i hi]
    by_cases hij : i = j <;> simp [hij]

end Scaled

/-! ## The order does not matter -/

/-- The element has the largest `floor(log2|x|)` of the finite nonzero ones, if there are any. -/
def LeadsAll (f : FpFmt) (n : Nat) (raw : Nat → ULong) (i₀ : Nat) : Prop :=
  (∃ i < n, f.Active (raw i)) → f.Active (raw i₀) ∧
    ∀ i < n, f.Active (raw i) → f.expo (raw i) ≤ f.expo (raw i₀)

theorem LeadsAll.mxLead_le {i₀ i : Nat} (h : LeadsAll f n raw i₀) (hi : i < n)
    (ha : f.Active (raw i)) : f.Active (raw i₀) ∧ mxLead f (raw i) ≤ mxLead f (raw i₀) := by
  obtain ⟨hactive, hmax⟩ := h ⟨i, hi, ha⟩
  rw [mxLead_eq hf ha.2, mxLead_eq hf hactive.2]
  exact ⟨hactive, hmax i hi ha⟩

/-- An array that the encoder does not turn into NaN has a scale. -/
theorem exists_scaledBy {i₀ : Nat} (hemax : clo.mxEmax ≤ f.bias) (hraw : ∀ i < n, f.Word (raw i))
    (hi₀ : i₀ < n) (hlead : LeadsAll f n raw i₀) (hfin : ∀ i < n, f.Finite (raw i))
    (hrange : ∀ i < n, f.Active (raw i) → mxLead f (raw i) - clo.mxEmax ≤ mxScaleMax clo) :
    ∃ shared, ScaledBy clo f n raw shared i₀ := by
  have hscale := mxScaleMax_nonneg clo
  by_cases hany : ∃ i < n, f.Active (raw i)
  · obtain ⟨hactive, -⟩ := hlead hany
    have hle := le_mxShared_add clo (mxLead f (raw i₀))
    have hbias := mxLead_le_bias hf hactive
    have hrange₀ := hrange i₀ hi₀ hactive
    refine ⟨mxShared clo (mxLead f (raw i₀)), ⟨?_, ?_, ?_⟩, fun i hi => ⟨hraw i hi, hfin i hi, ?_⟩,
      hi₀, fun hleast => ⟨hactive, ?_⟩⟩
    · rcases mxShared_cases clo (mxLead f (raw i₀)) with ⟨hge, heq⟩ | ⟨-, heq⟩ <;> omega
    · rcases mxShared_cases clo (mxLead f (raw i₀)) with ⟨-, heq⟩ | ⟨-, heq⟩ <;> omega
    · rcases mxShared_cases clo (mxLead f (raw i₀)) with ⟨-, heq⟩ | ⟨-, heq⟩ <;> omega
    · exact fun hc => (hlead.mxLead_le hf hi ⟨hfin i hi, hc⟩).2.trans hle
    · rcases mxShared_cases clo (mxLead f (raw i₀)) with ⟨-, heq⟩ | ⟨-, heq⟩ <;> omega
  · -- only zeros: they fit every scale
    refine ⟨-mxScaleMax clo, ⟨le_rfl, by omega, by omega⟩, fun i hi => ?_, hi₀,
      fun hleast => absurd rfl hleast⟩
    refine InScale.of_code hf (hraw i hi) ?_
    by_contra hc
    exact hany ⟨i, hi, hfin i hi, hc⟩

/-- An element that is too large for the scale turns the group into NaN. -/
theorem encodeAt_of_large (hg : ∀ i < n, f.Word (g i)) {i : Nat} (hi : i < n) (ha : f.Active (g i))
    (hlarge : mxScaleMax clo < mxLead f (g i) - clo.mxEmax) (j : Nat) :
    encodeAt clo f n g j = mxNanElement f := by
  have hwords : ∀ v ∈ (List.range n).map g, f.Word v :=
    List.forall_mem_map.2 fun i hi => hg i (List.mem_range.1 hi)
  have hscan := scanOf_scanGroup hf hwords
  have hmem : g i ∈ (List.range n).map g := List.mem_map_of_mem (List.mem_range.2 hi)
  have hle := hscan.le _ hmem ha
  rw [encodeAt, mxElementMap_nan clo (.inr ⟨hscan.any.2 ⟨_, hmem, ha⟩, by omega⟩)]

/-- A store that turns the group into NaN decides how it ends. -/
theorem storeAll_of_nan (hraw : ∀ i < n, f.Word (raw i)) {before after : List Nat} {k : Nat}
    (horder : ∀ i ∈ before ++ k :: after, i < n) (hlen : (before ++ k :: after).length = n)
    (hnan : ∀ i < n,
      encodeAt clo f n (Function.update (storeAll clo f n raw g before) k (raw k)) i =
        mxNanElement f) :
    ∀ i < n, storeAll clo f n raw g (before ++ k :: after) i = mxNanElement f := by
  obtain ⟨-, hafter⟩ := List.forall_mem_append.1 horder
  rw [storeAll_append, storeAll_cons]
  refine storeAll_nan hf hraw hnan (List.forall_mem_cons.1 hafter).2 fun hne => ?_
  have hpos := List.length_pos_iff.2 hne
  rw [List.length_append, List.length_cons] at hlen
  omega

/-- **Largest first**: whatever the order of the others, the group ends as the encoder makes it of
the whole array. -/
theorem storeAll_largest_first (hemax : clo.mxEmax ≤ f.bias) (hraw : ∀ i < n, f.Word (raw i))
    {order : List Nat} (hperm : order.Perm (List.range n))
    (hfirst : ∀ i₀ ∈ order.head?, LeadsAll f n raw i₀) :
    ∀ i < n, storeAll clo f n raw (fun _ => 0#64) order i = encodeAt clo f n raw i := by
  have horder : ∀ i ∈ order, i < n := fun i hi => List.mem_range.1 (hperm.mem_iff.1 hi)
  have hzero : ∀ i < n, f.Word ((fun _ => 0#64 : Nat → ULong) i) := fun _ _ => Nat.two_pow_pos _
  have hlen : order.length = n := hperm.length_eq.trans List.length_range
  by_cases hfin : ∀ i < n, f.Finite (raw i)
  · cases order with
    | nil =>
      intro i hi
      rw [← hlen] at hi
      exact absurd hi (Nat.not_lt_zero i)
    | cons i₀ rest =>
      have hlead : LeadsAll f n raw i₀ := hfirst i₀ rfl
      have hi₀ : i₀ < n := horder i₀ List.mem_cons_self
      by_cases hrange : ∀ i < n, f.Active (raw i) → mxLead f (raw i) - clo.mxEmax ≤ mxScaleMax clo
      · obtain ⟨shared, h⟩ := exists_scaledBy hf hemax hraw hi₀ hlead hfin hrange
        intro i hi
        rw [h.storeAll hf (fun _ _ => .inl rfl) (.inl rfl) i hi,
          h.encodeAt hf (fun _ _ => .inr (.inl rfl)) (.inl rfl) i hi,
          if_pos (hperm.mem_iff.2 (List.mem_range.2 hi))]
      · -- the scale of the first element is already out of range
        push Not at hrange
        obtain ⟨k, hk, hka, hlarge⟩ := hrange
        obtain ⟨hactive, hle⟩ := hlead.mxLead_le hf hk hka
        have hlarge₀ : mxScaleMax clo < mxLead f (raw i₀) - clo.mxEmax := by omega
        have hupdate : Function.update (fun _ => 0#64) i₀ (raw i₀) i₀ = raw i₀ :=
          Function.update_self ..
        have hnan : ∀ j < n, encodeAt clo f n (Function.update
            (storeAll clo f n raw (fun _ => 0#64) []) i₀ (raw i₀)) j = mxNanElement f :=
          fun j _ => encodeAt_of_large hf (update_word hzero (hraw i₀ hi₀)) hi₀
            (hupdate.symm ▸ hactive) (hupdate.symm ▸ hlarge₀) j
        intro i hi
        rw [encodeAt_of_large hf hraw hi₀ hactive hlarge₀]
        exact storeAll_of_nan hf hraw horder hlen hnan i hi
  · -- from the store of an infinity or NaN on, every element is NaN
    push Not at hfin
    obtain ⟨k, hk, hinf⟩ := hfin
    obtain ⟨before, after, rfl⟩ := List.append_of_mem (hperm.mem_iff.2 (List.mem_range.2 hk))
    have hbefore : ∀ i ∈ before, i < n := (List.forall_mem_append.1 horder).1
    intro i hi
    rw [encodeAt_of_not_finite hf hraw hk hinf i hi]
    refine storeAll_of_nan hf hraw horder hlen (encodeAt_of_not_finite hf ?_ hk ?_) i hi
    · exact update_word (storeAll_word hf hraw hzero hbefore) (hraw k hk)
    · rw [Function.update_self]
      exact hinf

end Run

/-! ## The stores of the program -/

section Stores

variable {su : Setup} {bk : Block} {bi : Nat}

/-- The stores of the elements of an array into a group, in some order. -/
def elementStores (f : FpFmt) (bk : Block) (bi : Nat) (raw : Nat → ULong) (order : List Nat) :
    List StoreOp :=
  order.map fun i => elementStore f bk bi i (raw i)

/-- The instrumented stores do to the group what `storeAll` says. -/
theorem wiredStores_elementStores {raw : Nat → ULong} (hmx : bk.mx)
    (hbi : bi < (mxGroups (mxFormat su.clo) bk).toNat)
    (hraw : ∀ i < mxLen (mxFormat su.clo) bk bi, (mxFormat su.clo).Word (raw i)) {order : List Nat}
    (horder : ∀ i ∈ order, i < mxLen (mxFormat su.clo) bk bi) {t : Tool}
    (hfinds : ∀ i < mxLen (mxFormat su.clo) bk bi,
      Finds t (mxElemAddr (mxFormat su.clo) (mxGroupBase (mxFormat su.clo) bk (BitVec.ofNat 64 bi))
        i) bk) :
    ∃ t', wiredStores su (elementStores (mxFormat su.clo) bk bi raw order) t = some ((), t') ∧
      ∀ i < mxLen (mxFormat su.clo) bk bi, mxElem (mxFormat su.clo) bk bi t'.mem i =
        storeAll su.clo (mxFormat su.clo) (mxLen (mxFormat su.clo) bk bi) raw
          (mxElem (mxFormat su.clo) bk bi t.mem) order i := by
  induction order generalizing t with
  | nil => exact ⟨t, rfl, fun _ _ => rfl⟩
  | cons j order ih =>
    obtain ⟨hj, horder⟩ := List.forall_mem_cons.1 horder
    have hfirst : wiredStore su (elementStore (mxFormat su.clo) bk bi j (raw j)) t = _ :=
      wiredStore_of_finds (hfinds j hj) hmx
    obtain ⟨t', hrest, helems⟩ := ih horder (t := { t with
      mem := storeInto su.clo bk (elementStore (mxFormat su.clo) bk bi j (raw j)) t.mem }) hfinds
    refine ⟨t', ?_, fun i hi => ?_⟩
    · rw [elementStores, List.map_cons, wiredStores, toolM_bind, hfirst, Option.bind_some]
      exact hrest
    · rw [helems i hi, storeAll_cons]
      exact storeAll_congr (fun k hk => mxElem_storeInto hbi hj (hraw j hj) hk) order hi

/-- Where the tool finds the marked block at every element, the group ends as the encoder makes it.
-/
theorem wiredStores_of_leadsAll (hemax : su.clo.mxEsz = 4 → su.clo.mxEmax ≤ 127) (hmx : bk.mx)
    (hbi : bi < (mxGroups (mxFormat su.clo) bk).toNat) {t : Tool}
    (hfinds : ∀ i < mxLen (mxFormat su.clo) bk bi, Finds t
      (mxElemAddr (mxFormat su.clo) (mxGroupBase (mxFormat su.clo) bk (BitVec.ofNat 64 bi)) i) bk)
    (hzero : ∀ v ∈ mxGroup (mxFormat su.clo) bk (BitVec.ofNat 64 bi) t.mem, v = 0#64) (raw : Mem)
    {order : List Nat} (hperm : order.Perm (List.range (mxLen (mxFormat su.clo) bk bi)))
    (hfirst : ∀ i₀ ∈ order.head?, LeadsAll (mxFormat su.clo) (mxLen (mxFormat su.clo) bk bi)
      (mxElem (mxFormat su.clo) bk bi raw) i₀) :
    ∃ t', wiredStores su
        (elementStores (mxFormat su.clo) bk bi (mxElem (mxFormat su.clo) bk bi raw) order) t =
          some ((), t') ∧
      mxGroup (mxFormat su.clo) bk (BitVec.ofNat 64 bi) t'.mem =
        mxGroup (mxFormat su.clo) bk (BitVec.ofNat 64 bi)
          (mxEncodeBlock su.clo (mxFormat su.clo) bk (BitVec.ofNat 64 bi) raw) := by
  have hf := mxFormat_ieee su.clo
  have hraw : ∀ i < mxLen (mxFormat su.clo) bk bi,
      (mxFormat su.clo).Word (mxElem (mxFormat su.clo) bk bi raw i) := fun _ _ => mxLoad_word hf
  have horder : ∀ i ∈ order, i < mxLen (mxFormat su.clo) bk bi :=
    fun i hi => List.mem_range.1 (hperm.mem_iff.1 hi)
  obtain ⟨t', hrun, helems⟩ := wiredStores_elementStores hmx hbi hraw horder hfinds
  refine ⟨t', hrun, ?_⟩
  rw [mxEncodeBlock_elems su.clo hf, mxGroup_eq_map, mxGroup_eq_map, encodeGroup_map_range,
    map_range_eq_iff]
  intro i hi
  rw [helems i hi, ← storeAll_largest_first hf (mxEmax_le_bias hemax) hraw hperm hfirst i hi]
  refine storeAll_congr (fun j hj => hzero _ ?_) order hi
  exact List.mem_map_of_mem (List.mem_range.2 hj)

/-! ## Elements that another region hides -/

theorem contains_mxElemAddr {f : FpFmt} (hf : f.Ieee) (hbi : bi < (mxGroups f bk).toNat) {i : Nat}
    (hi : i < mxLen f bk bi) (hwrap : bk.payload.toNat + bk.reqSzB.toNat < 2 ^ 64) :
    bk.Contains (mxElemAddr f (mxGroupBase f bk (BitVec.ofNat 64 bi)) i) := by
  obtain ⟨hdist, hend⟩ := dist_mxElemAddr hf hbi hi
  refine contains_of_dist hwrap ?_
  rw [hdist]
  exact Nat.lt_of_lt_of_le (Nat.lt_add_of_pos_right (hf.esz.elim (by omega) (by omega))) hend

/-- An infinity: not finite, and not the NaN of the encoder. -/
theorem exists_infinity (clo : Clo) : ∃ v, (mxFormat clo).Word v ∧ ¬(mxFormat clo).Finite v ∧
    v ≠ mxNanElement (mxFormat clo) := by
  unfold mxFormat
  split
  · exact ⟨0x7F800000#64, by unfold FpFmt.Word; decide, by decide, by decide⟩
  · exact ⟨0x7FF0000000000000#64, by unfold FpFmt.Word; decide, by decide, by decide⟩

/-- An array with an infinity in one place and zeros elsewhere: no element leads it, so that it may
be stored in any order, and its encoding does not keep the infinity. -/
theorem exists_one_infinity (clo : Clo) (hbi : bi < (mxGroups (mxFormat clo) bk).toNat) {i : Nat}
    (hi : i < mxLen (mxFormat clo) bk bi) :
    ∃ raw : Mem, (∀ i₀, LeadsAll (mxFormat clo) (mxLen (mxFormat clo) bk bi)
        (mxElem (mxFormat clo) bk bi raw) i₀) ∧
      mxElem (mxFormat clo) bk bi (mxEncodeBlock clo (mxFormat clo) bk (BitVec.ofNat 64 bi) raw) i ≠
        mxElem (mxFormat clo) bk bi raw i := by
  have hf := mxFormat_ieee clo
  obtain ⟨v, hword, hinf, hne⟩ := exists_infinity clo
  let raw : Mem := ByteMem.storeLE (fun _ => 0#8) (elementStore (mxFormat clo) bk bi i v).addr
    (mxFormat clo).esz v.toNat
  have hraw : ∀ j < mxLen (mxFormat clo) bk bi, mxElem (mxFormat clo) bk bi raw j =
      Function.update (mxElem (mxFormat clo) bk bi fun _ => 0#8) i v j :=
    fun j hj => mxElem_elementStore hf hi hword hj
  have hself : mxElem (mxFormat clo) bk bi raw i = v :=
    (hraw i hi).trans (Function.update_self ..)
  refine ⟨raw, fun i₀ hsome => ?_, ?_⟩
  · obtain ⟨j, hj, hactive⟩ := hsome
    by_cases hji : j = i
    · rw [hji, hself] at hactive
      exact absurd hactive.1 hinf
    · have hj' : mxElem (mxFormat clo) bk bi (fun _ => 0#8) j = 0#64 :=
        mxGroup_of_zero hbi (fun _ _ => rfl) _ (List.mem_map_of_mem (List.mem_range.2 hj))
      rw [hraw j hj, Function.update_of_ne hji, hj'] at hactive
      exact absurd (Nat.zero_mod _) hactive.2
  · have hgroup : mxGroup (mxFormat clo) bk (BitVec.ofNat 64 bi)
        (mxEncodeBlock clo (mxFormat clo) bk (BitVec.ofNat 64 bi) raw) =
          encodeGroup clo (mxFormat clo) (mxGroup (mxFormat clo) bk (BitVec.ofNat 64 bi) raw) :=
      mxEncodeBlock_elems clo hf
    rw [mxGroup_eq_map, mxGroup_eq_map, encodeGroup_map_range, map_range_eq_iff] at hgroup
    have hinf' : ¬(mxFormat clo).Finite (mxElem (mxFormat clo) bk bi raw i) := hself.symm ▸ hinf
    have hnan : encodeAt clo (mxFormat clo) (mxLen (mxFormat clo) bk bi)
        (mxElem (mxFormat clo) bk bi raw) i = mxNanElement (mxFormat clo) :=
      encodeAt_of_not_finite hf (fun j _ => mxLoad_word hf) hi hinf' i hi
    rw [hgroup i hi, hnan, hself]
    exact hne.symm

/-- An element that is stored last and that the tool does not attribute to the block stays. -/
theorem wiredStores_last_unmarked {t : Tool} {r : Registry} (h : Refines su t r)
    {raw : Nat → ULong} {before : List Nat} {i : Nat} (hi : i < mxLen (mxFormat su.clo) bk bi)
    (hraw : (mxFormat su.clo).Word (raw i))
    (hno : ∀ b, lookupBlock
      (mxElemAddr (mxFormat su.clo) (mxGroupBase (mxFormat su.clo) bk (BitVec.ofNat 64 bi)) i)
      r.blocks = some b → b.mx = false) :
    ∃ t', wiredStores su (elementStores (mxFormat su.clo) bk bi raw (before ++ [i])) t =
        some ((), t') ∧ mxElem (mxFormat su.clo) bk bi t'.mem i = raw i := by
  have hf := mxFormat_ieee su.clo
  obtain ⟨t₁, hbefore, h₁, -⟩ :=
    wiredStores_refines h (elementStores (mxFormat su.clo) bk bi raw before)
  have hlast : wiredStore su (elementStore (mxFormat su.clo) bk bi i (raw i)) t₁ = _ :=
    wiredStore_of_unmarked h₁ hno
  rw [size_elementStore hf] at hlast
  refine ⟨{ t₁ with
    mem := t₁.mem.storeLE (elementStore (mxFormat su.clo) bk bi i (raw i)).addr
      (mxFormat su.clo).esz (raw i).toNat }, ?_, ?_⟩
  · rw [elementStores, List.map_append, List.map_singleton, ← elementStores,
      wiredStores_append hbefore, wiredStores, toolM_bind, hlast, Option.bind_some]
    rfl
  · rw [mxElem_elementStore hf hi hraw hi, Function.update_self]

/-- **The largest element first.** In every state of the tool, take a group of a marked block that
is all zero. For every array of raw elements, finite or not: if an element whose `floor(log2|x|)` is
the largest of the finite nonzero ones is stored first and then the others in any order, each
followed by `mx_after_store`, the group ends bit for bit as `mx_encode_block` makes it of the array
in one go. This holds if and only if no tracked region starts between the start of the block and an
element of the group. -/
theorem wiredStores_largest_first_iff (su : Setup) (hemax : su.clo.mxEsz = 4 → su.clo.mxEmax ≤ 127)
    (m : Mem) (acts : List Action) (t : Tool) (hrun : Run su (.init m) acts t) (bs : List Block)
    (htracks : Tracks t.trackedBlocks bs) (bk : Block) (hbk : bk ∈ bs) (hmx : bk.mx) (bi : Nat)
    (hbi : bi < (mxGroups (mxFormat su.clo) bk).toNat)
    (hzero : ∀ v ∈ mxGroup (mxFormat su.clo) bk (BitVec.ofNat 64 bi) t.mem, v = 0#64) :
    (∀ (raw : Mem) (order : List Nat),
        order.Perm (List.range (mxLen (mxFormat su.clo) bk bi)) →
        (∀ i₀ ∈ order.head?, LeadsAll (mxFormat su.clo) (mxLen (mxFormat su.clo) bk bi)
          (mxElem (mxFormat su.clo) bk bi raw) i₀) →
        ∃ t', wiredStores su
            (elementStores (mxFormat su.clo) bk bi (mxElem (mxFormat su.clo) bk bi raw) order) t =
              some ((), t') ∧
          mxGroup (mxFormat su.clo) bk (BitVec.ofNat 64 bi) t'.mem =
            mxGroup (mxFormat su.clo) bk (BitVec.ofNat 64 bi)
              (mxEncodeBlock su.clo (mxFormat su.clo) bk (BitVec.ofNat 64 bi) raw)) ↔
      ∀ i < mxLen (mxFormat su.clo) bk bi, bk.Unhidden
        (mxElemAddr (mxFormat su.clo) (mxGroupBase (mxFormat su.clo) bk (BitVec.ofNat 64 bi)) i)
        bs := by
  have hf := mxFormat_ieee su.clo
  have h := hrun.refines (Refines.init su m)
  have howned := hrun.owned (Refines.init su m) .init
  obtain rfl := h.tracks.unique htracks
  have hwrap := (howned.marked hbk hmx).1
  constructor
  · -- an infinity that is stored last into a hidden element is not turned into a NaN
    intro hall i hi
    by_contra hhidden
    obtain ⟨raw, hleads, hne⟩ := exists_one_infinity su.clo hbi hi
    let before := (List.range (mxLen (mxFormat su.clo) bk bi)).erase i
    have hperm : (before ++ [i]).Perm (List.range (mxLen (mxFormat su.clo) bk bi)) :=
      (List.perm_append_singleton i before).trans
        (List.perm_cons_erase (List.mem_range.2 hi)).symm
    obtain ⟨t', hstores, hgroup⟩ := hall raw (before ++ [i]) hperm fun i₀ _ => hleads i₀
    have hno : ∀ b, lookupBlock
        (mxElemAddr (mxFormat su.clo) (mxGroupBase (mxFormat su.clo) bk (BitVec.ofNat 64 bi)) i)
        (Registry.init.run acts).blocks = some b → b.mx = false := fun b hb =>
      unmarked_of_hidden h howned hbk hmx (contains_mxElemAddr hf hbi hi hwrap) hhidden hb
    obtain ⟨t'', hstores', hlast⟩ : ∃ t'', wiredStores su (elementStores (mxFormat su.clo) bk bi
        (mxElem (mxFormat su.clo) bk bi raw) (before ++ [i])) t = some ((), t'') ∧
          mxElem (mxFormat su.clo) bk bi t''.mem i = mxElem (mxFormat su.clo) bk bi raw i :=
      wiredStores_last_unmarked h hi (mxLoad_word hf) hno
    obtain rfl : t' = t'' := (Prod.mk.inj (Option.some.inj (hstores.symm.trans hstores'))).2
    rw [mxGroup_eq_map, mxGroup_eq_map, map_range_eq_iff] at hgroup
    exact hne ((hgroup i hi).symm.trans hlast)
  · intro hfree raw order hperm hfirst
    refine wiredStores_of_leadsAll hemax hmx hbi (fun i hi => h.finds ?_) hzero raw hperm hfirst
    exact lookupBlock_of_contains h.tracks.sorted hbk hwrap (contains_mxElemAddr hf hbi hi hwrap)
      (hfree i hi)

end Stores

/-- Memory that holds `1.0` and `1.1` in the first two elements of `fourDoubles`. -/
def firstTwo : Mem :=
  ByteMem.storeLE (ByteMem.storeLE (fun _ => 0#8) 0x10000#64 8 0x3FF0000000000000) 0x10008#64 8
    0x3FF199999999999A

theorem leadsAll_firstTwo (i₀ : Nat) (hi₀ : i₀ < 2) :
    LeadsAll fmt64 4 (mxElem fmt64 fourDoubles 0 firstTwo) i₀ := by
  have hcode : ∀ i < 4, fmt64.code (mxElem fmt64 fourDoubles 0 firstTwo i) ≠ 0 → i < 2 := by decide
  have hfinite : ∀ i < 2, fmt64.Finite (mxElem fmt64 fourDoubles 0 firstTwo i) ∧
      fmt64.code (mxElem fmt64 fourDoubles 0 firstTwo i) ≠ 0 := by decide
  have hexpo : ∀ i < 2, fmt64.expo (mxElem fmt64 fourDoubles 0 firstTwo i) = 0 := by decide +kernel
  intro _
  refine ⟨hfinite i₀ hi₀, fun i hi hact => ?_⟩
  rw [hexpo i₀ hi₀, hexpo i (hcode i hi hact.2)]

/-- The program stores the two elements and two zeros; both are rounded with the scale of the first.
-/
theorem wiredStores_largest_first_iff_four :
    ∃ acts t t', Run markAll (.init fun _ => 0#8) acts t ∧
      wiredStores markAll
          (elementStores fmt64 fourDoubles 0 (mxElem fmt64 fourDoubles 0 firstTwo) [1, 3, 0, 2]) t =
        some ((), t') ∧
      mxGroup fmt64 fourDoubles 0#64 t'.mem = mxGroup fmt64 fourDoubles 0#64
        (mxEncodeBlock markAll.clo fmt64 fourDoubles 0#64 firstTwo) := by
  obtain ⟨t, hexec, h, hmem⟩ := exec_fourDoubles
  have hrun : Run markAll (.init fun _ => 0#8) _ t := .step _ _ _ hexec (.refl t)
  have hzero : ∀ v ∈ mxGroup (mxFormat markAll.clo) fourDoubles (BitVec.ofNat 64 0) t.mem,
    v = 0#64 :=
    mxGroup_of_zero (by decide) fun x _ => congrFun hmem x
  have hiff := wiredStores_largest_first_iff markAll (by decide) _ _ t hrun [fourDoubles] h.tracks
    fourDoubles (List.mem_singleton.2 rfl) rfl 0 (by decide) hzero
  have hfree : ∀ i < 4, fourDoubles.Unhidden
      (mxElemAddr fmt64 (mxGroupBase fmt64 fourDoubles (BitVec.ofNat 64 0)) i) [fourDoubles] := by
    decide
  obtain ⟨t', hstores, hgroup⟩ := hiff.2 hfree firstTwo [1, 3, 0, 2] (by decide)
    fun i₀ hi₀ => Option.some.inj hi₀ ▸ leadsAll_firstTwo 1 (by decide)
  exact ⟨_, t, t', hrun, hstores, hgroup⟩

/-- The program tracks the second double as a region of its own: its `1.1` is not rounded, while the
encoder makes `1.125` of it. -/
theorem wiredStores_largest_first_hidden :
    ∃ acts t t' bs, Run markAll (.init fun _ => 0#8) acts t ∧ Tracks t.trackedBlocks bs ∧
      fourDoubles ∈ bs ∧ fourDoubles.mx ∧ (∀ v ∈ mxGroup fmt64 fourDoubles 0#64 t.mem, v = 0#64) ∧
      LeadsAll fmt64 4 (mxElem fmt64 fourDoubles 0 firstTwo) 0 ∧
      wiredStores markAll
          (elementStores fmt64 fourDoubles 0 (mxElem fmt64 fourDoubles 0 firstTwo) [0, 1, 2, 3]) t =
        some ((), t') ∧
      mxElem fmt64 fourDoubles 0 t'.mem 1 = 0x3FF199999999999A#64 ∧
      mxElem fmt64 fourDoubles 0 (mxEncodeBlock markAll.clo fmt64 fourDoubles 0#64 firstTwo) 1 =
        0x3FF2000000000000#64 := by
  obtain ⟨t, hexec, h, hmem⟩ := exec_fourDoubles
  obtain ⟨t₁, hexec₁, h₁, hmem₁⟩ :=
    exec_trackBlock h ⟨[], []⟩ 0x10008#64 (by decide : 0 < 8#64)
  have hrun : Run markAll (.init fun _ => 0#8) _ t₁ :=
    .step _ _ _ hexec (.step _ _ _ hexec₁ (.refl t₁))
  have hzero : t₁.mem = fun _ => 0#8 := hmem₁.trans hmem
  have hblocks : ((Registry.init.step (.track fourDoubles)).step
      (.track (clientBlock ⟨[], []⟩ 0x10008#64 8#64))).blocks =
        [fourDoubles, ⟨0x10008#64, 8#64, [], false⟩] := by decide
  -- the first element is found in the block, the others are hidden
  have hfound : lookupBlock 0x10000#64 [fourDoubles, ⟨0x10008#64, 8#64, [], false⟩] =
      some fourDoubles := by decide
  have hhidden : ∀ i ∈ [1, 2, 3], ∀ b ∈ lookupBlock
      (mxElemAddr fmt64 (mxGroupBase fmt64 fourDoubles (BitVec.ofNat 64 0)) i)
      [fourDoubles, ⟨0x10008#64, 8#64, [], false⟩], b.mx = false := by decide
  let first := elementStore fmt64 fourDoubles 0 0 (mxElem fmt64 fourDoubles 0 firstTwo 0)
  let rest := elementStores fmt64 fourDoubles 0 (mxElem fmt64 fourDoubles 0 firstTwo) [1, 2, 3]
  let t₂ : Tool := { t₁ with mem := storeInto markAll.clo fourDoubles first fun _ => 0#8 }
  have h₂ : Refines markAll t₂ _ := h₁.congr rfl rfl rfl
  have hfirst : wiredStore markAll first t₁ = some ((), t₂) := by
    rw [wiredStore_of_finds (h₁.finds (hblocks ▸ hfound)) rfl, hzero]
  have hno : ∀ st ∈ rest, ∀ b, lookupBlock st.addr ((Registry.init.step (.track fourDoubles)).step
      (.track (clientBlock ⟨[], []⟩ 0x10008#64 8#64))).blocks = some b → b.mx = false := by
    intro st hst b hb
    obtain ⟨i, hi, rfl⟩ := List.mem_map.1 hst
    rw [hblocks] at hb
    exact hhidden i hi b hb
  have hstores : wiredStores markAll
      (elementStores fmt64 fourDoubles 0 (mxElem fmt64 fourDoubles 0 firstTwo) [0, 1, 2, 3]) t₁ =
        some ((), { t₂ with
          mem := rest.foldl (fun m st => m.storeLE st.addr st.size.toNat st.value) t₂.mem }) := by
    change wiredStores markAll (first :: rest) t₁ = _
    rw [wiredStores, toolM_bind, hfirst, Option.bind_some]
    exact wiredStores_of_unmarked h₂ hno
  have hgroup : ∀ v ∈ mxGroup (mxFormat markAll.clo) fourDoubles (BitVec.ofNat 64 0) t₁.mem,
      v = 0#64 := mxGroup_of_zero (by decide) fun x _ => congrFun hzero x
  have hsecond : mxElem fmt64 fourDoubles 0 (ByteMem.storeLE (ByteMem.storeLE (ByteMem.storeLE
      (storeInto markAll.clo fourDoubles first fun _ => 0#8) 0x10008#64 8 0x3FF199999999999A)
      0x10010#64 8 0) 0x10018#64 8 0) 1 = 0x3FF199999999999A#64 := by decide +kernel
  exact ⟨_, t₁, _, _, hrun, hblocks ▸ h₁.tracks, List.mem_cons_self, rfl, hgroup,
    leadsAll_firstTwo 0 (by decide), hstores, hsecond, by decide +kernel⟩

end Memlog
