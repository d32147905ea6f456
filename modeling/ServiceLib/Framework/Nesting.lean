import Mathlib.Data.List.Infix

namespace ServiceLib

variable {α : Type*} {opens closes : α → Bool} {d d' : ℕ} {l : List α} {a : α}

/-- A list that leaves `d` of its openings open and closes nothing it has not opened. -/
structure Nested (opens closes : α → Bool) (d : ℕ) (l : List α) : Prop where
  total : d + l.countP closes = l.countP opens
  before : ∀ q, q <+: l → q.countP closes ≤ q.countP opens

theorem Nested.nil : Nested opens closes 0 [] := by
  refine ⟨rfl, fun q hq => ?_⟩
  rw [List.prefix_nil.mp hq]
  exact Nat.le_refl 0

theorem Nested.snoc (h : Nested opens closes d l)
    (hd : d' + (closes a).toNat = d + (opens a).toNat) : Nested opens closes d' (l ++ [a]) := by
  have hc : (l ++ [a]).countP closes = l.countP closes + (closes a).toNat := by
    cases hca : closes a <;> simp [hca]
  have ho : (l ++ [a]).countP opens = l.countP opens + (opens a).toNat := by
    cases hoa : opens a <;> simp [hoa]
  have htotal : d' + (l ++ [a]).countP closes = (l ++ [a]).countP opens := by
    have := h.total
    omega
  refine ⟨htotal, fun q hq => ?_⟩
  rcases List.prefix_concat_iff.mp hq with rfl | hq
  · omega
  · exact h.before q hq

/-- Everything opened is closed again, the last opened first. -/
abbrev Balanced (opens closes : α → Bool) (l : List α) : Prop := Nested opens closes 0 l

end ServiceLib
