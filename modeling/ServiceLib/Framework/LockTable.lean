import Mathlib.Data.Set.Basic

namespace ServiceLib

/-- Who owns which lock and who waits for which, at one moment. -/
structure LockTable (θ ℓ : Type*) where
  owns : θ → ℓ → Prop
  waits : θ → ℓ → Prop

namespace LockTable

variable {θ ℓ : Type*} (L : LockTable θ ℓ) {S : Set θ} {rank : ℓ → ℕ} {b : ℕ}

/-- Each of the threads waits for a lock that one of them owns. -/
def Deadlocked (S : Set θ) : Prop :=
  S.Nonempty ∧ ∀ t ∈ S, ∃ u ∈ S, ∃ l, L.waits t l ∧ L.owns u l

/-- The thread owns the first lock and waits for the second one, which does not come after it. -/
def Inverts (rank : ℓ → ℕ) (t : θ) (l l' : ℓ) : Prop :=
  L.owns t l ∧ L.waits t l' ∧ rank l' ≤ rank l

variable {L}

/-- Where threads block each other in the order of the locks, there is always a later lock. -/
theorem Deadlocked.climbs (h : L.Deadlocked S)
    (hno : ∀ t ∈ S, ∀ u ∈ S, ∀ l l', L.waits t l → ¬L.Inverts rank u l l') (k : ℕ) :
    ∃ t ∈ S, ∃ u ∈ S, ∃ l, L.waits t l ∧ L.owns u l ∧ k ≤ rank l := by
  obtain ⟨⟨t₀, ht₀⟩, hall⟩ := h
  induction k with
  | zero =>
    obtain ⟨u, hu, l, hw, ho⟩ := hall t₀ ht₀
    exact ⟨t₀, ht₀, u, hu, l, hw, ho, Nat.zero_le _⟩
  | succ k ih =>
    obtain ⟨t, ht, u, hu, l, hw, ho, hk⟩ := ih
    obtain ⟨v, hv, l', hw', ho'⟩ := hall u hu
    refine ⟨u, hu, v, hv, l', hw', ho', ?_⟩
    by_contra hlt
    exact hno t ht u hu l l' hw ⟨ho, hw', by omega⟩

/-- In a deadlock some thread goes against the order of the locks, and blocks another one by it. -/
theorem Deadlocked.inverts (h : L.Deadlocked S) (hb : ∀ l, rank l ≤ b) :
    ∃ t ∈ S, ∃ u ∈ S, ∃ l l', L.waits t l ∧ L.Inverts rank u l l' := by
  by_contra hno
  push Not at hno
  obtain ⟨t, -, u, -, l, -, -, hk⟩ := h.climbs hno (b + 1)
  have hle := hb l
  omega

end LockTable

end ServiceLib
