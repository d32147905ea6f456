import ServiceLib.Model.History

namespace ServiceLib

variable {T : ArgTypes} {n : Nat} {s : Sys T n} {t : Tid n} {i : Choice T n} {mv : Move T n}
  {p : JobContext T → Bool}

/-- The thread is past its last look at the queue: it has left the loop or is about to test
`active_`. -/
def WorkerPc.leaving : WorkerPc T → Bool
  | .test | .exited => true
  | _ => false

/-- If the step pushes a job of the given kind, it is not on a worker that `stop` has told to leave
and whose thread is past its last look at the queue. -/
def LandsAlive (p : JobContext T → Bool) (s : Sys T n) (t : Tid n) : Bool :=
  match s.stack t with
  | .push w name call onDone _ :: _ =>
    !p ⟨call, onDone, name, s.mem.fresh⟩ || (s.worker w).active || !(s.pc w).leaving
  | _ => true

theorem Moves.exited_stays (hm : Moves s t i mv) {w : Fin n} (hp : s.pc w = .exited) :
    s.setPc t mv.pc w = .exited := by
  rcases s.at_loop t w with hw | ⟨rfl, hs⟩
  · rw [(hm.pc_frame w hw).1, hp]
  · cases hm <;> simp_all

/-- A worker leaves its loop only by the test of `active_`. -/
theorem Moves.exits_from_test (hm : Moves s t i mv) {w : Fin n}
    (hp : s.setPc t mv.pc w = .exited) :
    s.pc w = .exited ∨
      t = .worker w ∧ mv.action = .left w ∧ s.pc w = .test ∧ (s.worker w).active = false := by
  rcases s.at_loop t w with hw | ⟨rfl, hs⟩
  · exact .inl ((hm.pc_frame w hw).1 ▸ hp)
  · cases hm
    case leave v ht _ hpc ha =>
      obtain rfl := Tid.worker.inj ht
      exact .inr ⟨rfl, rfl, hpc, ha⟩
    all_goals simp_all

theorem Action.onActive_false (a : Action T n) (w : Fin n) : a.onActive w false = false := by
  cases a <;> simp

/-- A worker whose thread has left the loop is not active, and stays so. -/
theorem Moves.inactive_step (hm : Moves s t i mv) {w : Fin n}
    (h : s.pc w = .exited → (s.worker w).active = false)
    (hp : (s.apply t mv).pc w = .exited) : ((s.apply t mv).worker w).active = false := by
  have hold : (s.worker w).active = false := by
    rcases hm.exits_from_test hp with hp | ⟨-, -, -, ha⟩
    · exact h hp
    · exact ha
  rw [Sys.apply_active, hold]
  exact mv.action.onActive_false w

/-- `stop` clears `active_` only under the lock and with an empty queue. -/
theorem Moves.deactivated_inv (hm : Moves s t i mv) {w : Fin n}
    (ha : mv.action = .deactivated w) : (s.worker w).calls = [] := by
  cases hm <;> cases ha
  assumption

theorem Action.eq_deactivated {a : Action T n} {w : Fin n} (h : a.onActive w true = false) :
    a = .deactivated w := by
  cases a <;> simp_all [onActive]

/-- A worker that leaves was told to, and leaves no job of the given kind behind. -/
structure Drained (p : JobContext T → Bool) (s : Sys T n) : Prop where
  inactive : ∀ w, s.pc w = .exited → (s.worker w).active = false
  empty : ∀ w, (s.worker w).active = false → (s.pc w).leaving = true →
    ∀ j ∈ (s.worker w).calls, p j = false

theorem Drained.init : Drained p (Sys.init : Sys T n) where
  inactive w hp := by cases hp
  empty w ha := by cases ha

/-- A push that lands on a leaving worker is of another kind. -/
theorem Moves.pushed_alive (hm : Moves s t i mv) (hok : LandsAlive p s t = true) {w : Fin n}
    {j : JobContext T} {strand : String} (ha : mv.action = .pushed w j strand)
    (hact : (s.worker w).active = false) (hp : (s.pc w).leaving = true) : p j = false := by
  have hg := hm.queue_guard
  rw [ha] at hg
  obtain ⟨rest, hs, -⟩ := hm.pushed_inv ha
  simpa [LandsAlive, hs, hact, hp, ← hg] using hok

theorem Drained.empty_step (h : Drained p s) (hm : Moves s t i mv) (hok : LandsAlive p s t = true)
    {w : Fin n} (ha : ((s.apply t mv).worker w).active = false)
    (hp : ((s.apply t mv).pc w).leaving = true) {j : JobContext T}
    (hj : j ∈ ((s.apply t mv).worker w).calls) : p j = false := by
  rcases s.at_loop t w with hw | ⟨rfl, hs⟩
  · rw [Sys.apply_pc, (hm.pc_frame w hw).1] at hp
    by_cases hact : (s.worker w).active = false
    · rcases Sys.mem_apply_calls hj with hj | ⟨strand, hpush⟩
      · exact h.empty w hact hp j hj
      · exact hm.pushed_alive hok hpush hact hp
    · have hd : mv.action = .deactivated w := by
        simp only [Bool.not_eq_false] at hact
        exact Action.eq_deactivated (hact ▸ (s.apply_active t mv w) ▸ ha)
      rcases Sys.mem_apply_calls hj with hj | ⟨strand, hpush⟩
      · rw [hm.deactivated_inv hd] at hj
        exact absurd hj List.not_mem_nil
      · simp [hd] at hpush
  · rcases Sys.mem_apply_calls hj with hold | ⟨strand, hpush⟩
    · cases hm
      case leave v ht _ hpc hact =>
        obtain rfl := Tid.worker.inj ht
        exact h.empty w hact (by rw [hpc]; rfl) j hold
      case pass v ht _ hpc _ hc =>
        obtain rfl := Tid.worker.inj ht
        rw [hc] at hold
        exact absurd hold List.not_mem_nil
      all_goals simp_all [WorkerPc.leaving]
    · obtain ⟨rest, hs', -⟩ := hm.pushed_inv hpush
      simp [hs] at hs'

theorem Drained.step (h : Drained p s) (hm : Moves s t i mv) (hok : LandsAlive p s t = true) :
    Drained p (s.apply t mv) where
  inactive w hp := hm.inactive_step (h.inactive w) hp
  empty _ ha hp _ hj := h.empty_step hm hok ha hp hj

end ServiceLib
