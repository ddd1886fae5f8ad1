import HttpProxy.Library.Transition

/-! # Machines that host others

The members of a host go through the steps of a machine of their own: a step of the host takes a member through at
most one of them, and a member that joins is in an initial state. So what a member goes through is a run of its own
machine, whatever the host and the other members do. -/

namespace Machine

/-- `H` hosts members that step as `M` does. `members` are those of a state, and `part e i` is what an event of the
    host is for member `i`, if it is anything for it. -/
structure Hosting {τ δ σ ε φ : Type*} (H : Machine τ δ φ) (M : Machine σ ε φ) where
  members : τ → List σ
  part : δ → Nat → Option ε
  empty : ∀ {t : τ}, H.Init t → members t = []
  moves : ∀ {t u : τ} {e : δ} {i : Nat} {s : σ}, H.Step t e u → (members t)[i]? = some s →
    ∃ s', (members u)[i]? = some s' ∧ (part e i).elim (s' = s) fun e' => M.Step s e' s'
  joins : ∀ {t u : τ} {e : δ} {i : Nat} {s : σ}, H.Step t e u → (members t)[i]? = none →
    (members u)[i]? = some s → M.Init s

namespace Hosting
variable {τ δ σ ε φ : Type*} {H : Machine τ δ φ} {M : Machine σ ε φ} (K : Hosting H M)

/-- A step of the host, as member `i` sees it. -/
def glance (i : Nat) (p : τ × δ) : Option (σ × ε) :=
  match (K.members p.1)[i]?, K.part p.2 i with
  | some s, some e => some (s, e)
  | _, _ => none

/-- The steps of a run of the host that member `i` goes through. -/
def view (i : Nat) (ps : List (τ × δ)) : List (σ × ε) := ps.filterMap (K.glance i)

variable {K} {t₀ t u : τ} {e : δ} {ps : List (τ × δ)} {i : Nat} {s : σ}

theorem glance_eq_some_iff {p : τ × δ} {q : σ × ε} :
    K.glance i p = some q ↔ (K.members p.1)[i]? = some q.1 ∧ K.part p.2 i = some q.2 := by
  obtain ⟨s, e⟩ := q
  simp only [glance]
  cases (K.members p.1)[i]? <;> cases K.part p.2 i <;> simp

theorem mem_view {q : σ × ε} (h : q ∈ K.view i ps) :
    ∃ p ∈ ps, (K.members p.1)[i]? = some q.1 ∧ K.part p.2 i = some q.2 := by
  obtain ⟨p, hp, hq⟩ := List.mem_filterMap.mp h
  exact ⟨p, hp, glance_eq_some_iff.mp hq⟩

theorem view_cons_some {q : σ × ε} (ht : (K.members t)[i]? = some q.1) (he : K.part e i = some q.2) :
    K.view i ((t, e) :: ps) = q :: K.view i ps :=
  List.filterMap_cons_some (glance_eq_some_iff.mpr ⟨ht, he⟩)

theorem view_cons_none (h : (K.members t)[i]? = none ∨ K.part e i = none) :
    K.view i ((t, e) :: ps) = K.view i ps := by
  refine List.filterMap_cons_none (Option.eq_none_iff_forall_ne_some.mpr fun q hq => ?_)
  obtain ⟨hs, he⟩ := glance_eq_some_iff.mp hq
  rcases h with h | h
  · rw [h] at hs
    cases hs
  · rw [h] at he
    cases he

/-- A member that is not there now was not there before: members stay. -/
theorem view_of_absent (h : H.Run t₀ ps t) (ht : (K.members t)[i]? = none) : K.view i ps = [] := by
  induction h with
  | nil => rfl
  | @step ps t u e _ hst ih =>
    have here : (K.members t)[i]? = none := by
      cases hs : (K.members t)[i]? with
      | none => rfl
      | some s =>
        obtain ⟨s', hs', -⟩ := K.moves hst hs
        rw [ht] at hs'
        cases hs'
    rw [view_cons_none (Or.inl here), ih here]

/-- What a member goes through is a run of its own machine. -/
theorem run (init : H.Init t₀) (h : H.Run t₀ ps t) (hs : (K.members t)[i]? = some s) :
    ∃ s₀, M.Init s₀ ∧ M.Run s₀ (K.view i ps) s := by
  induction h generalizing s with
  | nil =>
    rw [K.empty init] at hs
    cases hs
  | @step ps t u e hr hst ih =>
    cases ht : (K.members t)[i]? with
    | none =>
      rw [view_cons_none (Or.inl ht), view_of_absent hr ht]
      exact ⟨s, K.joins hst ht hs, .nil⟩
    | some s' =>
      obtain ⟨s₀, hi, hrun⟩ := ih ht
      obtain ⟨s'', hs'', hstep⟩ := K.moves hst ht
      obtain rfl : s'' = s := Option.some.inj (hs''.symm.trans hs)
      cases he : K.part e i with
      | none =>
        rw [he] at hstep
        obtain rfl : s'' = s' := hstep
        rw [view_cons_none (Or.inr he)]
        exact ⟨s₀, hi, hrun⟩
      | some e' =>
        rw [he] at hstep
        rw [view_cons_some (q := (s', e')) ht he]
        exact ⟨s₀, hi, .step hrun hstep⟩

end Hosting
end Machine
