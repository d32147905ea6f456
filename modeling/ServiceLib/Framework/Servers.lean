import Mathlib.Data.List.Count
import Mathlib.Logic.Function.Basic
import ServiceLib.Framework.Transition

namespace ServiceLib

/-- What can happen at a set of servers. -/
inductive ServerEvent (ι κ α : Type*)
  | bind (k : κ) (i : ι)
  | submit (i : ι) (x : α) (k : Option κ)
  | start (i : ι) (x : α)
  | finish (i : ι) (x : α)
  | drop (i : ι) (p : α → Bool)
  | close (i : ι)
  | leave (i : ι)

/-- Servers with a queue each. A server runs one job at a time, the first of its queue; a key once
bound to a server stays with it; a server that is closed may leave once it runs nothing. -/
@[ext]
structure Servers (ι κ α : Type*) where
  queue : ι → List α
  running : ι → Option α
  bound : κ → Option ι
  closed : ι → Prop
  gone : ι → Prop

namespace Servers

variable {ι κ α : Type*}

def init : Servers ι κ α :=
  ⟨fun _ => [], fun _ => none, fun _ => none, fun _ => False, fun _ => False⟩

/-- When an event may happen. -/
def Admits (a : Servers ι κ α) : ServerEvent ι κ α → Prop
  | .bind k i => ∀ j ∈ a.bound k, j = i
  | .submit i _ k => ∀ k' ∈ k, a.bound k' = some i
  | .start i x => a.running i = none ∧ ¬a.gone i ∧ (a.queue i).head? = some x
  | .finish i x => a.running i = some x
  | .drop _ _ => True
  | .close i => a.queue i = []
  | .leave i => a.closed i ∧ a.running i = none

/-- The job is `k` places from the front of the queue of server `i`. -/
def Waits (a : Servers ι κ α) (i : ι) (x : α) (k : ℕ) : Prop :=
  ∃ l r, a.queue i = l ++ x :: r ∧ l.length = k

theorem Waits.of_queue {a a' : Servers ι κ α} {i : ι} {x : α} {k : ℕ} (h : a.Waits i x k)
    (hq : a'.queue i = a.queue i) : a'.Waits i x k := by
  obtain ⟨l, r, hlr, hk⟩ := h
  exact ⟨l, r, hq.trans hlr, hk⟩

variable [DecidableEq ι] [DecidableEq κ]

/-- What an event does. -/
def after (a : Servers ι κ α) : ServerEvent ι κ α → Servers ι κ α
  | .bind k i => { a with bound := Function.update a.bound k (some i) }
  | .submit i x _ => { a with queue := Function.update a.queue i (a.queue i ++ [x]) }
  | .start i x =>
    { a with queue := Function.update a.queue i (a.queue i).tail
             running := Function.update a.running i (some x) }
  | .finish i _ => { a with running := Function.update a.running i none }
  | .drop i p => { a with queue := Function.update a.queue i ((a.queue i).filter fun x => !p x) }
  | .close i => { a with closed := Function.update a.closed i True }
  | .leave i => { a with gone := Function.update a.gone i True }

open Classical in
/-- The servers as a machine: the input is the event. -/
noncomputable def machine (ι κ α : Type*) [DecidableEq ι] [DecidableEq κ] :
    Machine (Servers ι κ α) (ServerEvent ι κ α) (ServerEvent ι κ α) where
  init := .init
  step a e := if a.Admits e then some (e, a.after e) else none

theorem step_eq {a : Servers ι κ α} {e : ServerEvent ι κ α} (h : a.Admits e) :
    (machine ι κ α).step a e = some (e, a.after e) := if_pos h

/-- How many jobs server `i` starts. -/
def starts (i : ι) (m : List (ServerEvent ι κ α)) : ℕ :=
  m.countP fun
    | .start j _ => j = i
    | _ => false

/-- A job leaves the queue by being started or dropped; other events leave it where it is, and a
start of another job brings it forward. -/
theorem Waits.step {a : Servers ι κ α} {i : ι} {x : α} {k : ℕ} {e : ServerEvent ι κ α}
    (h : a.Waits i x k) (hadm : a.Admits e) :
    e = .start i x ∨ (∃ p, e = .drop i p ∧ p x = true) ∨
      ∃ k', (a.after e).Waits i x k' ∧ k' + starts i [e] ≤ k := by
  cases e with
  | bind | finish | close | leave => exact .inr (.inr ⟨k, h.of_queue rfl, Nat.le_refl k⟩)
  | submit j y =>
    by_cases hj : i = j
    · subst hj
      obtain ⟨l, r, hq, hk⟩ := h
      exact .inr (.inr ⟨k, ⟨l, r ++ [y], by simp [after, hq], hk⟩, Nat.le_refl k⟩)
    · exact .inr (.inr ⟨k, h.of_queue (Function.update_of_ne hj ..), Nat.le_refl k⟩)
  | start j y =>
    by_cases hj : i = j
    · subst hj
      obtain ⟨l, r, hq, rfl⟩ := h
      obtain ⟨-, -, hhead⟩ := hadm
      cases l with
      | nil =>
        rw [hq] at hhead
        exact .inl (by rw [Option.some.inj hhead])
      | cons z l => exact .inr (.inr ⟨l.length, ⟨l, r, by simp [after, hq], rfl⟩, by simp [starts]⟩)
    · refine .inr (.inr ⟨k, h.of_queue (Function.update_of_ne hj ..), ?_⟩)
      simp [starts, Ne.symm hj]
  | drop j p =>
    by_cases hj : i = j
    · subst hj
      cases hp : p x with
      | true => exact .inr (.inl ⟨p, rfl, hp⟩)
      | false =>
        obtain ⟨l, r, hq, rfl⟩ := h
        refine .inr (.inr ⟨_, ⟨l.filter fun x => !p x, r.filter fun x => !p x, ?_, rfl⟩, ?_⟩)
        · simp [after, hq, hp]
        · exact List.length_filter_le _ _
    · exact .inr (.inr ⟨k, h.of_queue (Function.update_of_ne hj ..), Nat.le_refl k⟩)

end Servers

end ServiceLib
