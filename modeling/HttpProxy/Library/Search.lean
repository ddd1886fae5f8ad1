import Mathlib.Data.List.Infix
import Mathlib.Data.Nat.Find

/-! # First occurrence of a pattern

`find? p l` is the first position at which the list `p` occurs in the list `l`, and `findFrom? p l i` the
first one not before `i`. Everything that is used of them follows from `find?_eq_some_iff`: the pattern
occurs there and nowhere before. -/

namespace Search

/-! ### Occurrences and borders

A letter that the pattern does not have separates the text: every occurrence lies on one side of it. -/

section Borders
variable {α : Type*} {p l r : List α} {a : α}

theorem prefix_append_cons_iff (ha : a ∉ p) : p <+: l ++ a :: r ↔ p <+: l := by
  refine ⟨fun h => ?_, fun h => h.trans (List.prefix_append _ _)⟩
  rcases Nat.lt_or_ge l.length p.length with hlt | hge
  · -- A longer prefix holds the letter.
    have hmem : a ∈ p := by
      obtain ⟨t, ht⟩ := h
      have hget : (p ++ t)[l.length]? = some a := by simp [ht]
      rw [List.getElem?_append_left hlt] at hget
      exact List.mem_of_getElem? hget
    exact absurd hmem ha
  · exact List.prefix_of_prefix_length_le h (List.prefix_append _ _) hge

/-- No occurrence lies across the border of two texts when the second starts with a letter that the pattern has at
    most in front. -/
theorem infix_append_iff_of_head (h : ∀ a ∈ r.head?, a ∉ p.tail) : p <:+: l ++ r ↔ p <:+: l ∨ p <:+: r := by
  rw [List.infix_append_iff_ne_nil]
  refine or_congr_right (or_iff_left ?_)
  rintro ⟨x, y, hx, hy, rfl, -, hr⟩
  obtain ⟨a, x, rfl⟩ := List.exists_cons_of_ne_nil hx
  obtain ⟨b, y, rfl⟩ := List.exists_cons_of_ne_nil hy
  have hb : r.head? = some b := by
    obtain ⟨t, rfl⟩ := hr
    rfl
  exact h b hb (by simp)

theorem infix_append_cons_iff (ha : a ∉ p) (hp : p ≠ []) : p <:+: l ++ a :: r ↔ p <:+: l ∨ p <:+: r := by
  have border : ∀ b ∈ (a :: r).head?, b ∉ p.tail := fun b hb => by
    rw [← Option.some.inj hb]
    exact fun hmem => ha (List.mem_of_mem_tail hmem)
  have start : ¬p <+: a :: r := fun h => hp (List.prefix_nil.mp ((prefix_append_cons_iff (l := []) ha).mp h))
  rw [infix_append_iff_of_head border, List.infix_cons_iff, or_iff_right start]

theorem infix_append_right_iff (h : ∀ a ∈ l, a ∉ p) (hp : p ≠ []) : p <:+: l ++ r ↔ p <:+: r := by
  induction l with
  | nil => exact Iff.rfl
  | cons a l ih =>
    have ha := h a List.mem_cons_self
    rw [List.cons_append, ← List.nil_append (a :: (l ++ r)), infix_append_cons_iff ha hp,
      ih fun b hb => h b (List.mem_cons_of_mem _ hb), List.infix_nil]
    exact or_iff_right hp

theorem infix_append_left_iff (h : ∀ a ∈ r, a ∉ p) (hp : p ≠ []) : p <:+: l ++ r ↔ p <:+: l := by
  cases r with
  | nil => rw [List.append_nil]
  | cons a r =>
    rw [infix_append_cons_iff (h a List.mem_cons_self) hp]
    refine or_iff_left fun hr => ?_
    have alone := infix_append_right_iff (r := []) (fun b hb => h b (List.mem_cons_of_mem _ hb)) hp
    rw [List.append_nil, List.infix_nil] at alone
    exact hp (alone.mp hr)

/-- A text that lacks the second letter of the pattern has at most its first letter, at the end. -/
theorem infix_append_iff_of_second {b : α} (h : b ∉ l) : a :: b :: p <:+: l ++ r ↔
    l.getLast? = some a ∧ b :: p <+: r ∨ a :: b :: p <:+: r := by
  rw [List.infix_append_iff_ne_nil, ← List.singleton_suffix_iff_getLast?_eq_some]
  constructor
  · rintro (hl | hr | ⟨x, y, hx, -, hp, hxl, hyr⟩)
    · exact absurd (hl.subset (by simp)) h
    · exact Or.inr hr
    · cases x with
      | nil => exact absurd rfl hx
      | cons c x =>
        obtain ⟨rfl, rest⟩ := List.cons.inj hp
        cases x with
        | nil => exact Or.inl ⟨hxl, (show b :: p = y from rest) ▸ hyr⟩
        | cons d x =>
          obtain ⟨rfl, -⟩ := List.cons.inj rest
          exact absurd (hxl.subset (by simp)) h
  · rintro (⟨hl, hr⟩ | hr)
    · exact Or.inr (Or.inr ⟨[a], b :: p, by simp, by simp, rfl, hl, hr⟩)
    · exact Or.inr (Or.inl hr)

/-- No occurrence lies across texts that each start with a letter that the pattern has at most in front. -/
theorem infix_flatten_iff (hp : p ≠ []) : ∀ {ls : List (List α)}, (∀ l ∈ ls, ∀ a ∈ l.head?, a ∉ p.tail) →
    (p <:+: ls.flatten ↔ ∃ l ∈ ls, p <:+: l)
  | [], _ => by simp [hp]
  | l :: ls, h => by
    have border : ∀ a ∈ ls.flatten.head?, a ∉ p.tail := by
      intro a ha
      rw [List.head?_flatten] at ha
      obtain ⟨x, hx, ha⟩ := List.exists_of_findSome?_eq_some ha
      exact h x (List.mem_cons_of_mem l hx) a ha
    have rest := infix_flatten_iff hp fun x hx => h x (List.mem_cons_of_mem l hx)
    rw [List.flatten_cons, infix_append_iff_of_head border, rest, List.exists_mem_cons_iff]

end Borders

/-! ### The first occurrence -/

variable {α : Type*} [DecidableEq α] {p l r : List α} {i j n : Nat}

/-- The first position at which `p` occurs in a list. -/
def find? (p : List α) : List α → Option Nat
  | [] => if p.isEmpty then some 0 else none
  | a :: l => if p.isPrefixOf (a :: l) then some 0 else (find? p l).map (· + 1)

/-- The first position from `i` on at which `p` occurs in `l`. -/
def findFrom? (p l : List α) (i : Nat) : Option Nat :=
  if i ≤ l.length then (find? p (l.drop i)).map (· + i) else none

theorem find?_cons_here {a : α} (h : p <+: a :: l) : find? p (a :: l) = some 0 := by
  rw [find?, if_pos (List.isPrefixOf_iff_prefix.mpr h)]

theorem find?_cons_later {a : α} (h : ¬p <+: a :: l) : find? p (a :: l) = (find? p l).map (· + 1) := by
  rw [find?, if_neg fun h' => h (List.isPrefixOf_iff_prefix.mp h')]

/-- The position found is the first one at which the pattern occurs. -/
theorem find?_eq_some_iff : ∀ {l : List α} {i : Nat},
    find? p l = some i ↔ (i ≤ l.length ∧ p <+: l.drop i) ∧ ∀ j < i, ¬p <+: l.drop j
  | [], i => by
    cases p with
    | nil =>
      simp only [find?, List.isEmpty_nil, ↓reduceIte, Option.some.injEq, List.drop_nil]
      constructor
      · rintro rfl
        exact ⟨⟨Nat.le_refl _, List.nil_prefix⟩, fun j hj => absurd hj (by omega)⟩
      · rintro ⟨⟨hi, -⟩, -⟩
        simp only [List.length_nil] at hi
        omega
    | cons a p => simp [find?]
  | a :: l, i => by
    by_cases h : p <+: a :: l
    · rw [find?_cons_here h, Option.some.injEq]
      constructor
      · rintro rfl
        exact ⟨⟨Nat.zero_le _, h⟩, fun j hj => absurd hj (by omega)⟩
      · rintro ⟨-, hmin⟩
        by_contra hne
        exact hmin 0 (by omega) h
    · rw [find?_cons_later h, Option.map_eq_some_iff]
      constructor
      · rintro ⟨k, hk, rfl⟩
        obtain ⟨⟨hle, hpre⟩, hmin⟩ := find?_eq_some_iff.mp hk
        refine ⟨⟨by simpa using hle, by simpa using hpre⟩, fun j hj => ?_⟩
        cases j with
        | zero => exact h
        | succ j => simpa using hmin j (by omega)
      · rintro ⟨⟨hle, hpre⟩, hmin⟩
        cases i with
        | zero => exact absurd hpre h
        | succ i =>
          refine ⟨i, find?_eq_some_iff.mpr ⟨⟨by simpa using hle, by simpa using hpre⟩, fun j hj => ?_⟩, rfl⟩
          simpa using hmin (j + 1) (by omega)

theorem prefix_drop_of_find? (h : find? p l = some i) : p <+: l.drop i := (find?_eq_some_iff.mp h).1.2

/-- An occurrence lies inside the list. -/
theorem find?_add_length_le (h : find? p l = some i) : i + p.length ≤ l.length := by
  obtain ⟨⟨hi, hp⟩, -⟩ := find?_eq_some_iff.mp h
  have := hp.length_le
  rw [List.length_drop] at this
  omega

/-- The pattern is found exactly when it occurs. -/
theorem find?_isSome_iff : (find? p l).isSome ↔ p <:+: l := by
  constructor
  · intro h
    obtain ⟨i, hi⟩ := Option.isSome_iff_exists.mp h
    exact (prefix_drop_of_find? hi).isInfix.trans (List.drop_suffix i l).isInfix
  · rintro ⟨s, t, rfl⟩
    by_contra hn
    -- The least position at which the pattern occurs would be found.
    have hex : ∃ j, j ≤ (s ++ p ++ t).length ∧ p <+: (s ++ p ++ t).drop j :=
      ⟨s.length, by simp, by rw [List.append_assoc, List.drop_left]; exact List.prefix_append p t⟩
    classical
    have hfind := Nat.find_spec hex
    have hsome : find? p (s ++ p ++ t) = some (Nat.find hex) :=
      find?_eq_some_iff.mpr ⟨hfind, fun j hj hp => Nat.find_min hex hj ⟨(by omega), hp⟩⟩
    rw [hsome] at hn
    exact hn rfl

theorem find?_eq_none_iff : find? p l = none ↔ ¬p <:+: l := by
  rw [← find?_isSome_iff, Option.not_isSome_iff_eq_none]

/-- More text after the list does not move the first occurrence. -/
theorem find?_append (h : find? p l = some i) (r : List α) : find? p (l ++ r) = some i := by
  have hlen := find?_add_length_le h
  obtain ⟨⟨hi, hp⟩, hmin⟩ := find?_eq_some_iff.mp h
  refine find?_eq_some_iff.mpr ⟨⟨by rw [List.length_append]; omega, ?_⟩, fun j hj hpre => hmin j hj ?_⟩
  · rw [List.drop_append_of_le_length hi]
    exact hp.trans (List.prefix_append _ _)
  · rw [List.drop_append_of_le_length (by omega)] at hpre
    exact List.prefix_of_prefix_length_le hpre (List.prefix_append _ _) (by rw [List.length_drop]; omega)

/-- The first occurrence in a longer text is the first one in every part that reaches its end. -/
theorem find?_of_append (h : find? p (l ++ r) = some i) (hlen : i + p.length ≤ l.length) : find? p l = some i := by
  obtain ⟨⟨-, hp⟩, hmin⟩ := find?_eq_some_iff.mp h
  refine find?_eq_some_iff.mpr ⟨⟨by omega, ?_⟩, fun j hj hpre => hmin j hj ?_⟩
  · rw [List.drop_append_of_le_length (by omega)] at hp
    exact List.prefix_of_prefix_length_le hp (List.prefix_append _ _) (by rw [List.length_drop]; omega)
  · rw [List.drop_append_of_le_length (by omega)]
    exact hpre.trans (List.prefix_append _ _)

/-- A text at whose end the pattern is first complete, by what its parts have. -/
theorem infix_at_end_iff (hne : l ≠ []) :
    (∀ part, part <+: l → (p <:+: part ↔ part = l)) ↔ p <:+: l ∧ ¬p <:+: l.dropLast := by
  constructor
  · intro h
    refine ⟨(h l List.prefix_rfl).mpr rfl, fun hin => ?_⟩
    have same := congrArg List.length ((h l.dropLast (List.dropLast_prefix l)).mp hin)
    have hpos := List.length_pos_iff.mpr hne
    rw [List.length_dropLast] at same
    omega
  · intro ⟨whole, before⟩ part hpart
    refine ⟨fun hin => ?_, fun h => h ▸ whole⟩
    by_contra hlt
    obtain ⟨rest, rfl⟩ := hpart
    have hrest : rest ≠ [] := fun h => hlt (by rw [h, List.append_nil])
    refine before (hin.trans (List.IsPrefix.isInfix ?_))
    rw [List.dropLast_append_of_ne_nil hrest]
    exact List.prefix_append _ _

/-- A text at whose end the pattern is first complete, by where it is found. -/
theorem find?_at_end_iff (hne : l ≠ []) :
    (∃ i, find? p l = some i ∧ i + p.length = l.length) ↔ p <:+: l ∧ ¬p <:+: l.dropLast := by
  have hpos := List.length_pos_iff.mpr hne
  have hlast := List.dropLast_append_getLast hne
  have hlen : l.dropLast.length = l.length - 1 := List.length_dropLast
  constructor
  · rintro ⟨i, hi, hend⟩
    refine ⟨find?_isSome_iff.mp (by rw [hi]; rfl), fun hin => ?_⟩
    obtain ⟨j, hj⟩ := Option.isSome_iff_exists.mp (find?_isSome_iff.mpr hin)
    have found := find?_append hj [l.getLast hne]
    rw [hlast, hi] at found
    have hle := find?_add_length_le hj
    have same := Option.some.inj found
    omega
  · intro ⟨hin, before⟩
    obtain ⟨i, hi⟩ := Option.isSome_iff_exists.mp (find?_isSome_iff.mpr hin)
    refine ⟨i, hi, Nat.le_antisymm (find?_add_length_le hi) (Nat.le_of_not_lt fun hlt => before ?_)⟩
    rw [← hlast] at hi
    have early := find?_of_append hi (by omega)
    exact find?_isSome_iff.mp (by rw [early]; rfl)

/-- No occurrence starts before the first place that has the first letter of the pattern. -/
theorem find?_append_of_not_mem {a : α} {q : List α} (h : a ∉ l) (r : List α) :
    find? (a :: q) (l ++ r) = (find? (a :: q) r).map (· + l.length) := by
  induction l with
  | nil => simp
  | cons b l ih =>
    have hb : ¬a :: q <+: b :: (l ++ r) := fun hpre => h (by simp [(List.cons_prefix_cons.mp hpre).1])
    rw [List.cons_append, find?_cons_later hb, ih fun hmem => h (List.mem_cons_of_mem _ hmem), Option.map_map]
    exact congrArg (fun f => Option.map f _) (funext fun i => Nat.add_assoc i l.length 1)

theorem infix_append_iff_of_first {a : α} {q : List α} (h : a ∉ l) : a :: q <:+: l ++ r ↔ a :: q <:+: r := by
  rw [← find?_isSome_iff, find?_append_of_not_mem h, Option.isSome_map, find?_isSome_iff]

/-- Where the pattern lacks a letter of the text, its first occurrence is on the left of it, or else on the right. -/
theorem find?_append_cons {a : α} (ha : a ∉ p) (hp : p ≠ []) :
    find? p (l ++ a :: r) = (find? p l).or ((find? p r).map (· + (l.length + 1))) := by
  induction l with
  | nil =>
    have hr : ¬p <+: a :: r := fun h => hp (List.prefix_nil.mp ((prefix_append_cons_iff (l := []) ha).mp h))
    have hnone : find? p [] = none := by simp [find?, hp]
    rw [List.nil_append, find?_cons_later hr, hnone, Option.none_or]
    rfl
  | cons b l ih =>
    rw [List.cons_append]
    by_cases hb : p <+: b :: l
    · have hb' : p <+: b :: (l ++ a :: r) := hb.trans (List.prefix_append (b :: l) (a :: r))
      rw [find?_cons_here hb, find?_cons_here hb']
      rfl
    · have hb' : ¬p <+: b :: (l ++ a :: r) := fun h => hb ((prefix_append_cons_iff (l := b :: l) ha).mp h)
      rw [find?_cons_later hb, find?_cons_later hb', ih]
      cases find? p l
      · simp only [Option.none_or, Option.map_none, Option.map_map]
        exact congrArg (fun f => Option.map f _) (funext fun i => Nat.add_assoc i (l.length + 1) 1)
      · rfl

theorem findFrom?_eq_some_iff : findFrom? p l i = some n ↔
    i ≤ n ∧ (n ≤ l.length ∧ p <+: l.drop n) ∧ ∀ j, i ≤ j → j < n → ¬p <+: l.drop j := by
  unfold findFrom?
  by_cases hi : i ≤ l.length
  · rw [if_pos hi, Option.map_eq_some_iff]
    constructor
    · rintro ⟨k, hk, rfl⟩
      obtain ⟨⟨hle, hp⟩, hmin⟩ := find?_eq_some_iff.mp hk
      rw [List.length_drop] at hle
      rw [List.drop_drop, Nat.add_comm] at hp
      refine ⟨by omega, ⟨by omega, hp⟩, fun j hij hj hpre => hmin (j - i) (by omega) ?_⟩
      rw [List.drop_drop, Nat.add_sub_cancel' hij]
      exact hpre
    · rintro ⟨hin, ⟨hle, hp⟩, hmin⟩
      refine ⟨n - i, find?_eq_some_iff.mpr ⟨⟨by rw [List.length_drop]; omega, ?_⟩, fun j hj hpre => ?_⟩, by omega⟩
      · rw [List.drop_drop, Nat.add_sub_cancel' hin]
        exact hp
      · rw [List.drop_drop] at hpre
        exact hmin (i + j) (by omega) (by omega) hpre
  · rw [if_neg hi]
    constructor
    · intro h
      cases h
    · rintro ⟨hin, ⟨hle, -⟩, -⟩
      omega

/-- More text after the list does not move the first occurrence from a position on. -/
theorem findFrom?_append (h : findFrom? p l i = some n) (r : List α) : findFrom? p (l ++ r) i = some n := by
  unfold findFrom? at h ⊢
  split at h
  · rename_i hi
    obtain ⟨k, hk, rfl⟩ := Option.map_eq_some_iff.mp h
    rw [if_pos (by rw [List.length_append]; omega), List.drop_append_of_le_length hi, find?_append hk r]
    rfl
  · cases h

/-- A search from within the first part is a search in the rest. -/
theorem findFrom?_append_length : findFrom? p (l ++ r) l.length = (find? p r).map (· + l.length) := by
  simp [findFrom?]

end Search
