import HttpProxy.Library.Transition

/-! # Simulations

A machine follows another one through a relation of their states when it answers each step of it with steps of its
own, none or several, and keeps to the relation. What holds of the states of the one that follows then holds, through
the relation, of the one that leads. -/

namespace Machine
variable {σ ε φ τ δ ψ : Type*} {M : Machine σ ε φ} {A : Machine τ δ ψ} {R : σ → τ → Prop}

theorem Reachable.run {s t : σ} {ps : List (σ × ε)} (h : M.Reachable s) (hr : M.Run s ps t) : M.Reachable t := by
  induction hr with
  | nil => exact h
  | step _ hs ih => exact .step _ ih hs

variable (A R) in
/-- Some run of `A` from `a` comes to a state that is related to `s`. -/
def Answers (a : τ) (s : σ) : Prop := ∃ ps b, A.Run a ps b ∧ R s b

theorem Answers.stay {a : τ} {s : σ} (h : R s a) : A.Answers R a s := ⟨[], a, .nil, h⟩

theorem Answers.step {a b : τ} {d : δ} {s : σ} (hs : A.Step a d b) (h : R s b) : A.Answers R a s :=
  ⟨_, b, .step .nil hs, h⟩

variable (M A R) in
/-- `A` follows `M` through `R`. -/
structure Follows : Prop where
  init : ∀ {s}, M.Init s → ∃ a, A.Init a ∧ R s a
  step : ∀ {s t e a}, M.Reachable s → A.Reachable a → R s a → M.Step s e t → A.Answers R a t

/-- The states of the leading machine are related to states of the one that follows. -/
theorem Follows.reachable {s : σ} (h : Follows M A R) (hs : M.Reachable s) : ∃ a, A.Reachable a ∧ R s a := by
  induction hs with
  | init hi =>
    obtain ⟨a, ha, hr⟩ := h.init hi
    exact ⟨a, .init ha, hr⟩
  | step e hr hst ih =>
    obtain ⟨a, ha, hrel⟩ := ih
    obtain ⟨ps, b, hrun, hb⟩ := h.step hr ha hrel hst
    exact ⟨b, ha.run hrun, hb⟩

end Machine
