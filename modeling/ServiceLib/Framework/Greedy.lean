import Mathlib.Algebra.BigOperators.Fin
import Mathlib.Algebra.BigOperators.Group.Finset.Piecewise
import Mathlib.Algebra.Order.BigOperators.Group.Finset
import Mathlib.Data.Finset.Lattice.Fold
import Mathlib.Order.Lattice.Nat

namespace ServiceLib

section

variable {ι : Type*} [DecidableEq ι] {L : ι → ℕ} {i : ι}

/-- One more on place `i`. -/
def bump (L : ι → ℕ) (i : ι) : ι → ℕ := Function.update L i (L i + 1)

theorem bump_self : bump L i i = L i + 1 := Function.update_self ..

theorem bump_of_ne {j : ι} (hj : j ≠ i) : bump L i j = L j := Function.update_of_ne hj ..

theorem le_bump (i j : ι) : L j ≤ bump L i j := by
  by_cases hj : j = i
  · rw [hj, bump_self]
    exact Nat.le_succ _
  · rw [bump_of_ne hj]

end

section

variable {ι : Type*} [Fintype ι] (L : ι → ℕ)

def largest : ℕ := Finset.univ.sup L

/-- How far the smallest load lies below the largest one. -/
def gap : ℕ := Finset.univ.sup fun i => largest L - L i

/-- How much is missing until all loads are as large as the largest one. -/
def deficit : ℕ := ∑ i, (largest L - L i)

variable {L} {i : ι} {g : ℕ}

theorem le_largest (i : ι) : L i ≤ largest L := Finset.le_sup (Finset.mem_univ i)

theorem largest_le : largest L ≤ g ↔ ∀ i, L i ≤ g := by simp [largest]

theorem gap_le : gap L ≤ g ↔ ∀ i, largest L ≤ L i + g := by
  simp [gap, Nat.add_comm g]

theorem gap_le_deficit : gap L ≤ deficit L := by
  refine gap_le.mpr fun i => ?_
  have hone : largest L - L i ≤ deficit L :=
    Finset.single_le_sum (f := fun i => largest L - L i) (fun _ _ => Nat.zero_le _)
      (Finset.mem_univ i)
  exact Nat.sub_le_iff_le_add'.mp hone

/-- A gap of two leaves room on the smallest load. -/
theorem lt_largest_of_gap (hi : ∀ j, L i ≤ L j) (h : 1 < gap L) : L i < largest L := by
  by_contra hfull
  have hflat : gap L ≤ 0 := gap_le.mpr fun j => by
    have := hi j
    omega
  omega

variable [DecidableEq ι]

/-- One more on a place below the largest load does not change the largest load. -/
theorem largest_bump (h : L i < largest L) : largest (bump L i) = largest L := by
  apply le_antisymm
  · refine largest_le.mpr fun j => ?_
    by_cases hj : j = i
    · rw [hj, bump_self]
      exact h
    · rw [bump_of_ne hj]
      exact le_largest j
  · exact largest_le.mpr fun j => (le_bump i j).trans (le_largest j)

theorem deficit_bump (h : L i < largest L) : deficit (bump L i) + 1 = deficit L := by
  have hsum : (fun j => largest L - bump L i j) =
      Function.update (fun j => largest L - L j) i (largest L - (L i + 1)) := by
    funext j
    by_cases hj : j = i
    · rw [hj, bump_self, Function.update_self]
    · rw [bump_of_ne hj, Function.update_of_ne hj]
  have hparts := Finset.add_sum_erase Finset.univ (fun j => largest L - L j) (Finset.mem_univ i)
  rw [deficit, largest_bump h, hsum, Finset.sum_update_of_mem (Finset.mem_univ i),
    ← Finset.erase_eq, deficit, ← hparts]
  omega

/-- One more on the smallest load opens no gap above one. -/
theorem gap_bump (hi : ∀ j, L i ≤ L j) : gap (bump L i) ≤ max (gap L) 1 := by
  refine gap_le.mpr fun j => ?_
  have hold := gap_le.mp (le_refl (gap L)) j
  have hj := le_bump (L := L) i j
  by_cases h : L i < largest L
  · rw [largest_bump h]
    omega
  · have hnew : largest (bump L i) ≤ L i + 1 := by
      refine largest_le.mpr fun k => ?_
      by_cases hk : k = i
      · rw [hk, bump_self]
      · have hk' := le_largest (L := L) k
        rw [bump_of_ne hk]
        omega
    have := hi j
    omega

variable [LinearOrder ι]

/-- The first of the places with the least load. -/
structure FirstLeast (L : ι → ℕ) (i : ι) : Prop where
  least : ∀ j, L i ≤ L j
  first : ∀ j < i, L i < L j

omit [Fintype ι] [DecidableEq ι] in
theorem FirstLeast.unique {j : ι} (hi : FirstLeast L i) (hj : FirstLeast L j) : i = j := by
  rcases lt_trichotomy i j with h | h | h
  · exact absurd (hj.first i h) (Nat.not_lt.mpr (hi.least j))
  · exact h
  · exact absurd (hi.first j h) (Nat.not_lt.mpr (hj.least i))

/-- The loads after placing one after another, each on the first place of least load, with the
places chosen, oldest first. -/
inductive Greedy (L : ι → ℕ) : List ι → (ι → ℕ) → Prop
  | start : Greedy L [] L
  | place {is : List ι} {L' : ι → ℕ} {i : ι} (h : Greedy L is L') (hi : FirstLeast L' i) :
      Greedy L (is ++ [i]) (bump L' i)

namespace Greedy

variable {is : List ι} {L' : ι → ℕ}

theorem gap_le (h : Greedy L is L') : gap L' ≤ max (gap L) 1 := by
  induction h with
  | start => exact le_max_left _ _
  | place h hi ih => exact (gap_bump hi.least).trans (max_le ih (le_max_right _ _))

theorem deficit_or (h : Greedy L is L') : gap L' ≤ 1 ∨ deficit L' + is.length = deficit L := by
  induction h with
  | start => exact .inr rfl
  | @place is L' i h hi ih =>
    rcases ih with hgap | hdef
    · exact .inl ((gap_bump hi.least).trans (max_le hgap le_rfl))
    · by_cases hgap : gap L' ≤ 1
      · exact .inl ((gap_bump hi.least).trans (max_le hgap le_rfl))
      · have hroom := lt_largest_of_gap hi.least (Nat.lt_of_not_le hgap)
        have hstep := deficit_bump hroom
        rw [List.length_append, List.length_singleton]
        exact .inr (by omega)

/-- Once as many have been placed as were missing, no two loads differ by more than one. -/
theorem balanced (h : Greedy L is L') (hk : deficit L ≤ is.length) : gap L' ≤ 1 := by
  rcases h.deficit_or with hgap | hdef
  · exact hgap
  · exact gap_le_deficit.trans (by omega)

end Greedy

end

section

variable {n : ℕ} {L L' : Fin n → ℕ} {is : List (Fin n)}

/-- Equal loads `c` after `q` whole rounds and `r` places of the next one. -/
def inTurn (n c q r : ℕ) (i : Fin n) : ℕ := c + q + if i < r then 1 else 0

theorem inTurn_least (c q : ℕ) {r : ℕ} (hr : r < n) : FirstLeast (inTurn n c q r) ⟨r, hr⟩ := by
  constructor
  · intro i
    simp only [inTurn, Nat.lt_irrefl, if_false]
    omega
  · intro i hi
    have hir : (i : ℕ) < r := hi
    simp only [inTurn, Nat.lt_irrefl, if_false, hir, if_true]
    omega

theorem inTurn_bump (c q : ℕ) {r : ℕ} (hr : r < n) (i : Fin n) :
    bump (inTurn n c q r) ⟨r, hr⟩ i = c + q + if i < r + 1 then 1 else 0 := by
  by_cases hi : i = ⟨r, hr⟩
  · simp [hi, bump_self, inTurn]
  · have hne : (i : ℕ) ≠ r := fun h => hi (Fin.ext h)
    have hiff : (i : ℕ) < r ↔ (i : ℕ) < r + 1 := by omega
    rw [bump_of_ne hi, inTurn]
    simp only [hiff]

theorem Greedy.inTurn (h : Greedy L is L') {c : ℕ} (hL : ∀ i, L i = c) (hn : 0 < n) :
    ∃ q r, r < n ∧ is.length = n * q + r ∧ L' = inTurn n c q r := by
  induction h with
  | start =>
    refine ⟨0, 0, hn, by simp, ?_⟩
    funext i
    simp [ServiceLib.inTurn, hL]
  | @place is L' i h hi ih =>
    obtain ⟨q, r, hr, hlen, rfl⟩ := ih
    rw [hi.unique (inTurn_least c q hr), List.length_append, List.length_singleton, hlen]
    by_cases hlast : r + 1 < n
    · exact ⟨q, r + 1, hlast, rfl, funext (inTurn_bump c q hr)⟩
    · refine ⟨q + 1, 0, hn, by rw [Nat.mul_succ]; omega, ?_⟩
      funext i
      have hi : (i : ℕ) < r + 1 := by have := i.isLt; omega
      rw [inTurn_bump, if_pos hi]
      simp [ServiceLib.inTurn, Nat.add_assoc]

/-- From equal loads the places are taken in turn. -/
theorem Greedy.getElem_eq (h : Greedy L is L') {c : ℕ} (hL : ∀ i, L i = c) :
    ∀ (j : ℕ) (hj : j < is.length), (is[j] : ℕ) = j % n := by
  induction h with
  | start => exact fun j hj => absurd hj (Nat.not_lt_zero j)
  | @place is L' i h hi ih =>
    intro j hj
    rcases Nat.lt_or_ge j is.length with hlt | hge
    · rw [List.getElem_append_left hlt]
      exact ih j hlt
    · obtain rfl : j = is.length := by
        rw [List.length_append, List.length_singleton] at hj
        omega
      obtain ⟨q, r, hr, hlen, rfl⟩ := h.inTurn hL (Fin.pos i)
      rw [List.getElem_concat_length rfl, hi.unique (inTurn_least c q hr), hlen,
        Nat.mul_add_mod, Nat.mod_eq_of_lt hr]

end

end ServiceLib
