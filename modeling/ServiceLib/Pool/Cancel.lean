import ServiceLib.Model.Worker

namespace ServiceLib

variable {T : ArgTypes} {θ : Type} {n : Nat}

/-- `AsyncDispatcher::cancelJobsFor`: every worker of the pool cancels in turn. -/
def cancelJobsFor (asyncWorkers : Fin n → AsyncWorker T θ) (id : String) :
    Fin n → AsyncWorker T θ :=
  fun w => (asyncWorkers w).cancelJobsFor id

/-- What the comment on `cancelJobsFor` asks for: the jobs of the one service are gone, all others
wait in their old order, and the load is the new length. -/
def CancelsOnly (old new : Fin n → AsyncWorker T θ) (id : String) : Prop :=
  ∀ w, (new w).calls = (old w).calls.filter (fun it => it.id ≠ id) ∧
    (new w).outstandingJobs = BitVec.ofNat 64 (new w).calls.length

theorem cancelJobsFor_eq_nil (ws : Fin n → AsyncWorker T θ) (id : String) (w : Fin n) :
    (cancelJobsFor ws id w).calls = [] :=
  (ws w).cancelJobsFor_calls id

theorem cancelJobsFor_load (ws : Fin n → AsyncWorker T θ) (id : String) (w : Fin n) :
    (cancelJobsFor ws id w).outstandingJobs =
      BitVec.ofNat 64 (cancelJobsFor ws id w).calls.length := rfl

/-- The predicate given to `remove_if` is constantly true, so the cancel is right just where no
other service has a job waiting. -/
theorem cancelJobsFor_cancelsOnly_iff (ws : Fin n → AsyncWorker T θ) (id : String) :
    CancelsOnly ws (cancelJobsFor ws id) id ↔ ∀ w, ∀ it ∈ (ws w).calls, it.id = id := by
  have hkeep (w : Fin n) : (ws w).calls.filter (fun it => it.id ≠ id) = [] ↔
      ∀ it ∈ (ws w).calls, it.id = id := by
    simp [List.filter_eq_nil_iff]
  constructor
  · intro h w
    rw [← hkeep, ← (h w).1]
    exact cancelJobsFor_eq_nil ws id w
  · intro h w
    refine ⟨?_, cancelJobsFor_load ws id w⟩
    rw [(hkeep w).mpr (h w)]
    exact cancelJobsFor_eq_nil ws id w

/-- One worker, one job of "b" waiting: unregistering "a" drops it. -/
theorem cancelJobsFor_drops_other :
    ¬∀ (ws : Fin 1 → AsyncWorker ⟨Unit, fun _ => Unit, fun _ => "v"⟩ Unit) (id : String),
      CancelsOnly ws (cancelJobsFor ws id) id := by
  intro h
  have hb := (h (fun _ => AsyncWorker.started.pushBack ⟨some (.client 0), none, "b", 0⟩) "a" 0).1
  rw [cancelJobsFor_eq_nil] at hb
  simp [AsyncWorker.pushBack, AsyncWorker.started] at hb

end ServiceLib
