import Mathlib.Data.List.Basic

/-! # Machines that step or fault

A machine takes a state and an event to a next state, or faults; an event need not be possible in a state.
A run keeps the steps it took, newest first. This file holds the rules that later files use: an invariant
holds in every reachable state, a property of runs that each step decides holds of a run exactly when every
step of it meets the step's condition, and a machine left to a class of events comes to a goal. -/

/-- A machine over states `σ`, events `ε` and faults `φ`; `step` is `none` on an event that cannot occur. -/
structure Machine (σ ε φ : Type*) where
  Init : σ → Prop
  step : σ → ε → Option (Except φ σ)

namespace Machine
variable {σ ε φ : Type*} (M : Machine σ ε φ)

/-- Event `e` takes `s` to `t`. -/
def Step (s : σ) (e : ε) (t : σ) : Prop := M.step s e = some (.ok t)

/-- Event `e` faults in `s`. -/
def Faults (s : σ) (e : ε) : Prop := ∃ f, M.step s e = some (.error f)

/-- `Run s₀ ps t`: the machine comes from `s₀` to `t` by the steps `ps`, newest first. -/
inductive Run (s₀ : σ) : List (σ × ε) → σ → Prop
  | nil : Run s₀ [] s₀
  | step {ps : List (σ × ε)} {s t : σ} {e : ε} : Run s₀ ps s → M.Step s e t → Run s₀ ((s, e) :: ps) t

/-- The states that runs from an initial state come to. -/
inductive Reachable : σ → Prop
  | init {s : σ} : M.Init s → Reachable s
  | step {s t : σ} (e : ε) : Reachable s → M.Step s e t → Reachable t

/-- The states that runs from an initial state come to when every step of them meets `C`. -/
inductive Within (C : σ → ε → Prop) : σ → Prop
  | init {s : σ} : M.Init s → Within C s
  | step {s t : σ} (e : ε) : Within C s → C s e → M.Step s e t → Within C t

variable {M} {s₀ s t : σ} {e : ε} {ps : List (σ × ε)} {C : σ → ε → Prop}

theorem Within.reachable (h : M.Within C s) : M.Reachable s := by
  induction h with
  | init hi => exact .init hi
  | step e _ _ hs ih => exact .step e ih hs

theorem Run.reachable (hi : M.Init s₀) (h : M.Run s₀ ps t) : M.Reachable t := by
  induction h with
  | nil => exact .init hi
  | step _ hs ih => exact .step _ ih hs

theorem Reachable.exists_run (h : M.Reachable t) : ∃ s₀ ps, M.Init s₀ ∧ M.Run s₀ ps t := by
  induction h with
  | init hi => exact ⟨_, [], hi, .nil⟩
  | step e _ hs ih =>
    obtain ⟨s₀, ps, hi, hr⟩ := ih
    exact ⟨s₀, _, hi, .step hr hs⟩

theorem Run.within (hi : M.Init s₀) (h : M.Run s₀ ps t) (hc : ∀ p ∈ ps, C p.1 p.2) : M.Within C t := by
  induction h with
  | nil => exact .init hi
  | step _ hs ih =>
    exact .step _ (ih fun p hp => hc p (List.mem_cons_of_mem _ hp)) (hc _ List.mem_cons_self) hs

theorem Run.append {u : σ} {qs : List (σ × ε)} (h₁ : M.Run s ps t) (h₂ : M.Run t qs u) : M.Run s (qs ++ ps) u := by
  induction h₂ with
  | nil => exact h₁
  | step _ hs ih => exact .step ih hs

/-- The steps of a run are steps of the machine. -/
theorem Run.step_of_mem (h : M.Run s₀ ps t) {p : σ × ε} (hp : p ∈ ps) : ∃ u, M.Step p.1 p.2 u := by
  induction h with
  | nil => cases hp
  | step _ hs ih =>
    rcases List.mem_cons.mp hp with rfl | hp
    · exact ⟨_, hs⟩
    · exact ih hp

/-- What holds initially and is kept by every step from a reachable state holds in every reachable state. -/
theorem Reachable.invariant {I : σ → Prop} (h : M.Reachable s) (init : ∀ s, M.Init s → I s)
    (step : ∀ s e t, M.Reachable s → I s → M.Step s e t → I t) : I s := by
  induction h with
  | init hi => exact init _ hi
  | step e hr hs ih => exact step _ e _ hr ih hs

/-- The rule of `Reachable.invariant` for runs whose steps all meet `C`. -/
theorem Within.invariant {I : σ → Prop} (h : M.Within C s) (init : ∀ s, M.Init s → I s)
    (step : ∀ s e t, M.Within C s → I s → C s e → M.Step s e t → I t) : I s := by
  induction h with
  | init hi => exact init _ hi
  | step e hr hc hs ih => exact step _ e _ hr ih hc hs

/-- A property that a step keeps exactly when it meets `C` holds at the end of a run exactly when every step
    of the run meets `C`. -/
theorem Run.iff_forall_steps {I : σ → Prop} (hi : M.Init s₀) (h₀ : I s₀)
    (step : ∀ s e t, M.Reachable s → M.Step s e t → (I t ↔ I s ∧ C s e)) (h : M.Run s₀ ps t) :
    I t ↔ ∀ p ∈ ps, C p.1 p.2 := by
  induction h with
  | nil => simp [h₀]
  | step hr hs ih => rw [step _ _ _ (hr.reachable hi) hs, ih, List.forall_mem_cons, and_comm]

/-- When a step from a state of `I` leads to a state of `I` exactly where it meets `C`, every state of a run is in
    `I` exactly when every step of it meets `C`. -/
theorem Run.forall_states_iff {I : σ → Prop} (hi : M.Init s₀) (h₀ : I s₀)
    (step : ∀ s e t, M.Reachable s → I s → M.Step s e t → (I t ↔ C s e)) (h : M.Run s₀ ps t) :
    (∀ p ∈ ps, I p.1) ∧ I t ↔ ∀ p ∈ ps, C p.1 p.2 := by
  induction h with
  | nil => simp [h₀]
  | @step ps s t e hr hs ih =>
    rw [List.forall_mem_cons, List.forall_mem_cons, ← ih]
    constructor
    · intro ⟨⟨hs', hps⟩, ht⟩
      exact ⟨(step s e t (hr.reachable hi) hs' hs).mp ht, hps, hs'⟩
    · intro ⟨hc, hps, hs'⟩
      exact ⟨⟨hs', hps⟩, (step s e t (hr.reachable hi) hs' hs).mpr hc⟩

/-! ## Executing a list of events -/

variable (M) in
/-- The state that the events lead to, in order, when each is possible and none faults. -/
def exec (s : σ) : List ε → Option σ
  | [] => some s
  | e :: es =>
    match M.step s e with
    | some (.ok t) => exec t es
    | _ => none

theorem Reachable.exec {es : List ε} (h : M.Reachable s) (he : M.exec s es = some t) : M.Reachable t := by
  induction es generalizing s with
  | nil => exact Option.some.inj he ▸ h
  | cons e es ih =>
    rw [Machine.exec] at he
    split at he
    · rename_i u hs
      exact ih (.step e h hs) he
    · cases he

/-- The state that the events lead to, or the first one where some event is not possible. -/
theorem Reachable.exec_getD {es : List ε} (h : M.Reachable s) : M.Reachable ((M.exec s es).getD s) := by
  cases he : M.exec s es with
  | none => exact h
  | some t => exact h.exec he

variable (M) in
/-- The steps that the events take, newest first, up to the first that is not possible or faults. -/
def trail (s : σ) : List ε → List (σ × ε)
  | [] => []
  | e :: es =>
    match M.step s e with
    | some (.ok t) => trail t es ++ [(s, e)]
    | _ => []

theorem Run.of_exec {es : List ε} (h : M.exec s es = some t) : M.Run s (M.trail s es) t := by
  induction es generalizing s with
  | nil => exact Option.some.inj h ▸ .nil
  | cons e es ih =>
    rw [Machine.exec] at h
    split at h
    · rename_i u hs
      have first : M.Run s [(s, e)] u := .step .nil hs
      rw [trail, hs]
      exact first.append (ih h)
    · cases h

/-! ## Runs up to a fault -/

variable (M) in
/-- A run with the way it ends: in a state, or in the fault of one more step. -/
inductive Ends (s₀ : σ) : List (σ × ε) → Except φ σ → Prop
  | ok {ps : List (σ × ε)} {t : σ} : M.Run s₀ ps t → Ends s₀ ps (.ok t)
  | fault {ps : List (σ × ε)} {s : σ} {e : ε} {f : φ} :
      M.Run s₀ ps s → M.step s e = some (.error f) → Ends s₀ ((s, e) :: ps) (.error f)

theorem Ends.prepend {out : Except φ σ} (hs : M.Step s e t) (h : M.Ends t ps out) :
    M.Ends s (ps ++ [(s, e)]) out := by
  have first : M.Run s [(s, e)] t := .step .nil hs
  cases h with
  | ok hr => exact .ok (first.append hr)
  | fault hr hf => exact .fault (first.append hr) hf

/-- When a step faults exactly where it misses `C`, a run ends without a fault exactly when every step of it
    meets `C`. -/
theorem Ends.ok_iff_forall_steps {out : Except φ σ} (hi : M.Init s₀)
    (ok : ∀ s e t, M.Reachable s → M.Step s e t → C s e) (fault : ∀ s e, M.Reachable s → M.Faults s e → ¬C s e)
    (h : M.Ends s₀ ps out) : (∃ t, out = .ok t) ↔ ∀ p ∈ ps, C p.1 p.2 := by
  have steps : ∀ {ps : List (σ × ε)} {t : σ}, M.Run s₀ ps t → ∀ p ∈ ps, C p.1 p.2 := by
    intro ps t hr
    induction hr with
    | nil => intro p hp; cases hp
    | step hr hs ih => exact List.forall_mem_cons.mpr ⟨ok _ _ _ (hr.reachable hi) hs, ih⟩
  cases h with
  | ok hr => exact ⟨fun _ => steps hr, fun _ => ⟨_, rfl⟩⟩
  | fault hr hf =>
    constructor
    · rintro ⟨t, ht⟩
      cases ht
    · intro hall
      exact absurd (hall _ List.mem_cons_self) (fault _ _ (hr.reachable hi) ⟨_, hf⟩)

/-! ## Coming to a goal -/

variable (M) in
/-- Left to the events of `E`, the machine comes to a state of `G`: while it has not, some event of `E` is
    possible, and whichever is taken does not fault and leads to a state from which it comes to `G`. -/
inductive Attains (E : σ → ε → Prop) (G : σ → Prop) : σ → Prop
  | goal {s : σ} : G s → Attains E G s
  | step {s : σ} : (∃ e out, E s e ∧ M.step s e = some out) → (∀ e, E s e → ¬M.Faults s e) →
      (∀ e t, E s e → M.Step s e t → Attains E G t) → Attains E G s

variable {E : σ → ε → Prop} {G B : σ → Prop}

/-- A machine in a state of `B` does not come to the goal when `B` excludes the goal and every state of `B` is
    stuck, or can fault, or has a step that stays in `B`. -/
theorem not_attains (goal : ∀ s, B s → ¬G s)
    (stay : ∀ s, B s → (∀ e out, E s e → M.step s e ≠ some out) ∨ (∃ e, E s e ∧ M.Faults s e) ∨
      ∃ e t, E s e ∧ M.Step s e t ∧ B t) (hs : B s) : ¬M.Attains E G s := by
  intro h
  induction h with
  | goal hg => exact goal _ hs hg
  | step hex hsafe _ ih =>
    rcases stay _ hs with hstuck | ⟨e, he, hf⟩ | ⟨e, t, he, hst, hb⟩
    · obtain ⟨e, out, he, hout⟩ := hex
      exact hstuck e out he hout
    · exact hsafe e he hf
    · exact ih e t he hst hb

theorem Attains.mono {G' : σ → Prop} (h : M.Attains E G s) (hg : ∀ s, G s → G' s) : M.Attains E G' s := by
  induction h with
  | goal hs => exact .goal (hg _ hs)
  | step hex hsafe _ ih => exact .step hex hsafe ih

theorem Attains.reachable (h : M.Attains E G s) (hr : M.Reachable s) :
    M.Attains E (fun t => M.Reachable t ∧ G t) s := by
  induction h with
  | goal hg => exact .goal ⟨hr, hg⟩
  | step hex hsafe _ ih => exact .step hex hsafe fun e t he hs => ih e t he hs (.step e hr hs)

/-- A run of allowed events comes past the goal, or on the way to it. -/
theorem Attains.run (h : M.Attains E G s) (run : M.Run s ps t) (allowed : ∀ p ∈ ps, E p.1 p.2) :
    (∃ p ∈ ps, G p.1) ∨ M.Attains E G t := by
  induction run with
  | nil => exact Or.inr h
  | step _ hs ih =>
    rcases ih fun p hp => allowed p (List.mem_cons_of_mem _ hp) with ⟨p, hp, hg⟩ | on
    · exact Or.inl ⟨p, List.mem_cons_of_mem _ hp, hg⟩
    · cases on with
      | goal hg => exact Or.inl ⟨_, List.mem_cons_self, hg⟩
      | step _ _ next => exact Or.inr (next _ _ (allowed _ List.mem_cons_self) hs)

/-- A machine comes to the goal when, outside it, an event is possible, none faults, and every step reaches the
    goal or goes down in a well-founded relation. -/
theorem Attains.of_wellFounded {I : σ → Prop} {ρ : Type*} {r : ρ → ρ → Prop} (wf : WellFounded r) (μ : σ → ρ)
    (hs : I s) (enabled : ∀ s, I s → ¬G s → ∃ e out, E s e ∧ M.step s e = some out)
    (safe : ∀ s e, I s → ¬G s → E s e → ¬M.Faults s e)
    (lower : ∀ s e t, I s → ¬G s → E s e → M.Step s e t → G t ∨ I t ∧ r (μ t) (μ s)) : M.Attains E G s := by
  induction hn : μ s using wf.induction generalizing s with
  | h n ih =>
    by_cases hg : G s
    · exact .goal hg
    · refine .step (enabled s hs hg) (fun e he => safe s e hs hg he) fun e t he hst => ?_
      rcases lower s e t hs hg he hst with ht | ⟨ht, hlt⟩
      · exact .goal ht
      · exact ih (μ t) (hn ▸ hlt) ht rfl

/-- The rule of `Attains.of_wellFounded` for a number. -/
theorem Attains.of_measure {I : σ → Prop} (μ : σ → Nat) (hs : I s)
    (enabled : ∀ s, I s → ¬G s → ∃ e out, E s e ∧ M.step s e = some out)
    (safe : ∀ s e, I s → ¬G s → E s e → ¬M.Faults s e)
    (lower : ∀ s e t, I s → ¬G s → E s e → M.Step s e t → G t ∨ I t ∧ μ t < μ s) : M.Attains E G s :=
  .of_wellFounded Nat.lt_wfRel.wf μ hs enabled safe lower

end Machine
