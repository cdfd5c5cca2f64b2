import Mathlib.Logic.Basic

/-!
# Computations on a state that can fail

Rules for `StateT σ Option`. `Keeps f x`: whenever `x` goes through, it leaves `f` of the state as
it was; a frame fact of this kind is proved along the text of the computation. `Lockstep x s y t Q`:
both computations go through from the states `s` and `t`, and `Q` holds where they end; a
computation on a state with more detail is compared with one on a state with less by such facts,
statement by statement (`Lockstep.bind`), and a statement that only the detailed one has is passed
over (`Lockstep.left`).
-/

namespace Memlog.Lib

variable {σ τ α β γ ε ρ : Type}

/-! ## What a computation keeps -/

/-- Whenever the computation goes through, `f` of the state is what it was. -/
def Keeps (f : σ → ρ) (x : StateT σ Option α) : Prop :=
  ∀ s a s', x s = some (a, s') → f s' = f s

section Keeps

variable {f : σ → ρ}

theorem Keeps.pure (a : α) : Keeps f (pure a : StateT σ Option α) := by
  intro s b s' h
  cases h
  rfl

theorem Keeps.failure : Keeps f (failure : StateT σ Option α) := by
  intro s b s' h
  cases h

theorem Keeps.get : Keeps f (get : StateT σ Option σ) := by
  intro s b s' h
  cases h
  rfl

theorem Keeps.bind {x : StateT σ Option α} {g : α → StateT σ Option β} (hx : Keeps f x)
    (hg : ∀ a, Keeps f (g a)) : Keeps f (x >>= g) := by
  intro s b s' h
  obtain ⟨⟨a, s₁⟩, hrun, hrest⟩ := Option.bind_eq_some_iff.1 h
  exact (hg a s₁ b s' hrest).trans (hx s a s₁ hrun)

theorem Keeps.map {x : StateT σ Option α} (hx : Keeps f x) (g : α → β) : Keeps f (g <$> x) := by
  intro s b s' h
  obtain ⟨⟨a, s₁⟩, hrun, hrest⟩ := Option.bind_eq_some_iff.1 h
  cases hrest
  exact hx s a _ hrun

theorem Keeps.ite {c : Prop} [Decidable c] {x y : StateT σ Option α} (hx : Keeps f x)
    (hy : Keeps f y) : Keeps f (if c then x else y) := by
  by_cases h : c
  · rwa [if_pos h]
  · rwa [if_neg h]

end Keeps

/-! ## Two computations in lockstep -/

/-- Both computations go through, and `Q` holds of their results and of the states they leave. -/
def Lockstep (x : StateT σ Option α) (s : σ) (y : StateT τ Option β) (t : τ)
    (Q : α → σ → β → τ → Prop) : Prop :=
  ∃ a s' b t', x s = some (a, s') ∧ y t = some (b, t') ∧ Q a s' b t'

section Lockstep

variable {s : σ} {t : τ} {x : StateT σ Option α} {y : StateT τ Option β}
  {Q : α → σ → β → τ → Prop}

theorem Lockstep.pure {a : α} {b : β} (h : Q a s b t) :
    Lockstep (pure a : StateT σ Option α) s (pure b : StateT τ Option β) t Q :=
  ⟨a, s, b, t, rfl, rfl, h⟩

theorem Lockstep.imp {Q' : α → σ → β → τ → Prop} (h : Lockstep x s y t Q)
    (hQ : ∀ a s' b t', Q a s' b t' → Q' a s' b t') : Lockstep x s y t Q' := by
  obtain ⟨a, s', b, t', hx, hy, h⟩ := h
  exact ⟨a, s', b, t', hx, hy, hQ a s' b t' h⟩

theorem Lockstep.bind {f : α → StateT σ Option γ} {g : β → StateT τ Option ε}
    {Q' : γ → σ → ε → τ → Prop} (h : Lockstep x s y t Q)
    (hrest : ∀ a s' b t', Q a s' b t' → Lockstep (f a) s' (g b) t' Q') :
    Lockstep (x >>= f) s (y >>= g) t Q' := by
  obtain ⟨a, s₁, b, t₁, hx, hy, h₁⟩ := h
  obtain ⟨c, s₂, d, t₂, hf, hg, h₂⟩ := hrest a s₁ b t₁ h₁
  refine ⟨c, s₂, d, t₂, ?_, ?_, h₂⟩
  · exact Option.bind_eq_some_iff.2 ⟨(a, s₁), hx, hf⟩
  · exact Option.bind_eq_some_iff.2 ⟨(b, t₁), hy, hg⟩

/-- A statement that only the first computation has. -/
theorem Lockstep.left {f : α → StateT σ Option γ} {a : α} {s₁ : σ} {Q' : γ → σ → β → τ → Prop}
    (hx : x s = some (a, s₁)) (hrest : Lockstep (f a) s₁ y t Q') :
    Lockstep (x >>= f) s y t Q' := by
  obtain ⟨c, s₂, b, t₂, hf, hy, h⟩ := hrest
  exact ⟨c, s₂, b, t₂, Option.bind_eq_some_iff.2 ⟨(a, s₁), hx, hf⟩, hy, h⟩

/-- A branch on the same condition. -/
theorem Lockstep.ite {c : Prop} [Decidable c] {x' : StateT σ Option α} {y' : StateT τ Option β}
    (hpos : c → Lockstep x s y t Q) (hneg : ¬c → Lockstep x' s y' t Q) :
    Lockstep (if c then x else x') s (if c then y else y') t Q := by
  by_cases h : c
  · rw [if_pos h, if_pos h]
    exact hpos h
  · rw [if_neg h, if_neg h]
    exact hneg h

end Lockstep

end Memlog.Lib
