import Mathlib.Data.List.Basic

/-! # Logs

A log is a list of actions, the newest first. `Always P` says that every action stands in relation `P` to the
actions before it; it is what an invariant says of a log that only grows. -/

namespace Log
variable {α : Type*} {P Q : α → List α → Prop} {a : α} {l newer older : List α}

/-- Every action of the log is related by `P` to what came before it. -/
def Always (P : α → List α → Prop) : List α → Prop
  | [] => True
  | a :: older => P a older ∧ Always P older

@[simp] theorem always_nil : Always P [] := trivial

@[simp] theorem always_cons : Always P (a :: older) ↔ P a older ∧ Always P older := Iff.rfl

instance decidableAlways [∀ a older, Decidable (P a older)] : ∀ l, Decidable (Always P l)
  | [] => .isTrue trivial
  | a :: older =>
    have := decidableAlways older
    inferInstanceAs (Decidable (P a older ∧ Always P older))

theorem Always.of_append : ∀ {newer : List α}, Always P (newer ++ older) → Always P older
  | [], h => h
  | _ :: _, h => Always.of_append h.2

theorem Always.split (h : Always P (newer ++ a :: older)) : P a older := (Always.of_append h).1

theorem always_iff : Always P l ↔ ∀ newer a older, l = newer ++ a :: older → P a older := by
  refine ⟨fun h newer a older hl => Always.split (hl ▸ h), fun h => ?_⟩
  induction l with
  | nil => trivial
  | cons a l ih => exact ⟨h [] a l rfl, ih fun newer b older hl => h (a :: newer) b older (hl ▸ rfl)⟩

theorem Always.mono (h : Always P l) (hpq : ∀ a older, P a older → Q a older) : Always Q l :=
  always_iff.mpr fun newer a older hl => hpq a older (always_iff.mp h newer a older hl)

theorem always_append_iff : Always P (newer ++ older) ↔ Always (fun a l => P a (l ++ older)) newer ∧ Always P older := by
  induction newer with
  | nil => exact (and_iff_right trivial).symm
  | cons a newer ih => rw [List.cons_append, always_cons, always_cons, ih, and_assoc]

theorem Always.of_forall (h : ∀ a older, P a older) : Always P l := always_iff.mpr fun _ a older _ => h a older

/-- Actions that are related to every past leave the property as it is. -/
theorem always_append (h : ∀ a ∈ newer, ∀ older, P a older) : Always P (newer ++ older) ↔ Always P older := by
  induction newer with
  | nil => exact Iff.rfl
  | cons a newer ih =>
    rw [List.cons_append, always_cons, ih fun b hb => h b (List.mem_cons_of_mem a hb)]
    exact and_iff_right (h a List.mem_cons_self _)

end Log
