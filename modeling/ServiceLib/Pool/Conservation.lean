import ServiceLib.Pool.Ran

namespace ServiceLib

open Machine

variable {T : ArgTypes} {n : Nat} {ok : History T n → Sys T n → Tid n × Choice T n → Prop}
  {tr : History T n} {s : Sys T n}

/-- The places a pushed job can be in. -/
inductive Place (n : Nat)
  | waiting (w : Fin n)
  | dequeued (w : Fin n)
  | cancelled (w : Fin n)

def Place.worker : Place n → Fin n
  | .waiting w | .dequeued w | .cancelled w => w

/-- The job is in the given place after the history `tr`. -/
def Located (tr : History T n) (s : Sys T n) (j : JobContext T) : Place n → Prop
  | .waiting w => j ∈ (s.worker w).calls
  | .dequeued w => j ∈ dequeuedOn w tr
  | .cancelled w => j ∈ cancelledOn w tr

/-- A job is only ever in a place of the worker it was pushed on. -/
theorem located_pushed (h : (pool T n).Run ok tr s) {j : JobContext T} {p : Place n}
    (hp : Located tr s j p) : j ∈ pushedOn p.worker tr := by
  obtain ⟨F, hpush, htk, hrm, hq⟩ := tracked h p.worker
  rw [← hpush, F.mem_pushed, htk, hrm, hq]
  cases p with
  | waiting w => exact .inr (.inr hp)
  | dequeued w => exact .inl hp
  | cancelled w => exact .inr (.inl hp)

/-- A pushed job is in exactly one place. -/
theorem located_unique (h : (pool T n).Run ok tr s) {w : Fin n} {j : JobContext T}
    (hj : j ∈ pushedOn w tr) :
    ∃ p : Place n, p.worker = w ∧ Located tr s j p ∧ ∀ q, Located tr s j q → q = p := by
  obtain ⟨F, hpush, htk, hrm, hq⟩ := tracked h w
  have hone := F.one_place (hpush ▸ (numbered h).nodup w) (hpush ▸ hj)
  rw [htk, hrm, hq] at hone
  have hworker : ∀ q, Located tr s j q → q.worker = w := fun q hl =>
    (numbered h).apart (located_pushed h hl) hj
  rcases hone with ⟨ht, hr, hc⟩ | ⟨ht, hr, hc⟩ | ⟨ht, hr, hc⟩
  · refine ⟨.dequeued w, rfl, ht, ?_⟩
    intro q hl
    have hw := hworker q hl
    cases q <;> obtain rfl := hw
    · exact absurd hl hc
    · rfl
    · exact absurd hl hr
  · refine ⟨.cancelled w, rfl, hr, ?_⟩
    intro q hl
    have hw := hworker q hl
    cases q <;> obtain rfl := hw
    · exact absurd hl hc
    · exact absurd hl ht
    · rfl
  · refine ⟨.waiting w, rfl, hc, ?_⟩
    intro q hl
    have hw := hworker q hl
    cases q <;> obtain rfl := hw
    · rfl
    · exact absurd hl ht
    · exact absurd hl hr

/-- What the thread has done for its current job is a beginning of one execution of it. -/
theorem Executes.done_prefix {w : Fin n} {js : List (JobContext T)} (h : Executes w tr s js) :
    (s.pc w).done w <+: (s.pc w).current.flatMap (execution w) := by
  obtain ⟨-, -, hsome⟩ := h
  cases hp : s.pc w
  case inOnDone j =>
    have hj := hsome j hp
    simp [WorkerPc.done, WorkerPc.current, execution, hj]
  all_goals simp [WorkerPc.done, WorkerPc.current, execution]

theorem jobSteps_initial {w : Fin n} {js : List (JobContext T)} (h : Executes w tr s js) :
    jobSteps w tr <+: (dequeuedOn w tr).flatMap (execution w) := by
  rw [h.1, h.2.1, List.flatMap_append]
  exact (List.prefix_append_right_inj _).mpr h.done_prefix

/-- Each step of an execution tells whose it is. -/
theorem mem_execution {w : Fin n} {j : JobContext T} {a : Action T n} (h : a ∈ execution w j) :
    a = .dequeued w j ∨ a = .actionBegan w j ∨ a = .actionEnded w j ∨ a = .onDoneBegan w j ∨
      a = .onDoneEnded w j := by
  unfold execution at h
  split at h <;> simp at h <;> tauto

/-- No worker takes a step of the same execution twice. -/
theorem jobSteps_nodup (h : (pool T n).Run ok tr s) (w : Fin n) : (jobSteps w tr).Nodup := by
  obtain ⟨js, hjs⟩ := executes h w
  obtain ⟨F, hpush, htk, -, -⟩ := tracked h w
  have hnd : (dequeuedOn w tr).Nodup :=
    htk ▸ F.taken_sublist.nodup (hpush ▸ (numbered h).nodup w)
  refine (jobSteps_initial hjs).sublist.nodup (List.nodup_flatMap.mpr ⟨fun j _ => ?_, ?_⟩)
  · unfold execution
    split <;> simp
  · refine hnd.imp fun hne a ha hb => ?_
    rcases mem_execution ha with rfl | rfl | rfl | rfl | rfl <;>
      rcases mem_execution hb with hb | hb | hb | hb | hb <;> cases hb <;> exact hne rfl

/-- In every reachable state of the pool each job is in one place, no job is dequeued twice, every
worker serves its jobs in the order of the pushes, and what its thread has done is a sequence of
whole executions, the last one possibly in progress. In each that is over the function objects of
the job have been run, once between their begin and their end. -/
theorem pool_conserves (h : (pool T n).Run AnyStep tr s) (w : Fin n) :
    (∀ j ∈ pushedOn w tr,
      ∃ p : Place n, p.worker = w ∧ Located tr s j p ∧ ∀ q, Located tr s j q → q = p) ∧
    (dequeuedOn w tr ++ cancelledOn w tr ++ (s.worker w).calls).Nodup ∧
    (dequeuedOn w tr ++ (s.worker w).calls).Sublist (pushedOn w tr) ∧
    (∃ js part, dequeuedOn w tr = js ++ (s.pc w).current ∧
      jobSteps w tr = js.flatMap (execution w) ++ part ∧
      part <+: (s.pc w).current.flatMap (execution w) ∧ ∀ j ∈ js, Ran w j tr) ∧
    ∀ t a, (t, a) ∈ tr → a.runsOn w → t = .worker w := by
  obtain ⟨F, hpush, htk, hrm, hq⟩ := tracked h w
  obtain ⟨js, hjs⟩ := executes h w
  refine ⟨fun j hj => located_unique h hj, ?_, ?_, ?_, fun t a he ha => job_thread h he ha⟩
  · rw [← htk, ← hrm, ← hq]
    exact F.nodup_parts (hpush ▸ (numbered h).nodup w)
  · rw [← htk, ← hq, ← hpush]
    exact F.order
  · exact ⟨js, _, hjs.1, hjs.2.1, hjs.done_prefix, fun j hj => hjs.ran h hj⟩

/-- Three jobs on worker 0: one executed, one dequeued, one cancelled. -/
def threeJobs : History .unit 1 × Sys .unit 1 :=
  let c := Tid.client 0
  let w := Tid.worker worker₀
  let doJob := c.calls (.doJob worker₀ "a" (some 0) none) 3
  (pool .unit 1).drive (fun _ _ _ => true)
    (doJob ++ doJob ++ doJob ++ w.steps 5 ++ w.returns 4 ++ c.calls (.cancelOn worker₀ "b") 3)

theorem pool_conserves_threeJobs :
    (dequeuedOn 0 threeJobs.1).map (·.serial) = [0, 1] ∧
    (cancelledOn 0 threeJobs.1).map (·.serial) = [2] ∧
    (dequeuedOn 0 threeJobs.1).Sublist (pushedOn 0 threeJobs.1) := by
  have h : (pool .unit 1).Run AnyStep threeJobs.1 threeJobs.2 :=
    run_drive (fun _ _ _ _ => trivial) _
  refine ⟨rfl, rfl, ?_⟩
  exact (List.sublist_append_left _ _).trans (pool_conserves h 0).2.2.1

end ServiceLib
