import Mathlib.Data.Set.Basic

namespace ServiceLib

/-- A recursive mutex: nobody, or its owner and how often it took the lock again. -/
abbrev RecursiveMutex (θ : Type*) := Option (θ × Nat)

namespace RecursiveMutex

variable {θ : Type*} [DecidableEq θ] (m : RecursiveMutex θ) (t u : θ)

/-- A thread gets the mutex when it is free or already its own. -/
def canLock : Bool :=
  match m with
  | none => true
  | some (u, _) => u = t

/-- How many times a thread still has to unlock. -/
def depth : Nat :=
  match m with
  | none => 0
  | some (u, k) => if u = t then k + 1 else 0

def lock : RecursiveMutex θ :=
  match m with
  | none => some (t, 0)
  | some (u, k) => some (u, k + 1)

def unlock : RecursiveMutex θ :=
  match m with
  | none => none
  | some (_, 0) => none
  | some (u, k + 1) => some (u, k)

def owner : Option θ := m.map Prod.fst

theorem owner_eq_some : m.owner = some t ↔ 0 < m.depth t := by
  rcases m with _ | ⟨u, k⟩
  · simp [owner, depth]
  · by_cases hu : u = t <;> simp [owner, depth, hu]

theorem canLock_iff : m.canLock t ↔ ∀ u, u ≠ t → m.depth u = 0 := by
  rcases m with _ | ⟨v, k⟩
  · simp [canLock, depth]
  · constructor
    · intro h u hu
      obtain rfl : v = t := by simpa [canLock] using h
      simp [depth, Ne.symm hu]
    · intro h
      by_contra hv
      have hv' : v ≠ t := by simpa [canLock] using hv
      simpa [depth] using h v hv'

theorem depth_lock (h : m.canLock t) :
    (m.lock t).depth u = if u = t then m.depth u + 1 else m.depth u := by
  rcases m with _ | ⟨v, k⟩
  · by_cases hu : u = t
    · simp [lock, depth, hu]
    · simp [lock, depth, hu, Ne.symm hu]
  · obtain rfl : v = t := by simpa [canLock] using h
    by_cases hu : u = v
    · simp [lock, depth, hu]
    · simp [lock, depth, hu, Ne.symm hu]

theorem depth_unlock (h : 0 < m.depth t) :
    m.unlock.depth u = if u = t then m.depth u - 1 else m.depth u := by
  rcases m with _ | ⟨v, k⟩
  · simp [depth] at h
  · obtain rfl : v = t := by
      by_contra hv
      simp [depth, hv] at h
    by_cases hu : u = v
    · rcases k with _ | k <;> simp [unlock, depth, hu]
    · rcases k with _ | k <;> simp [unlock, depth, hu, Ne.symm hu]

end RecursiveMutex

end ServiceLib
