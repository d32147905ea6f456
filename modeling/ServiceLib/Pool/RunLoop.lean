import ServiceLib.Pool.Queue

namespace ServiceLib

variable {T : ArgTypes} {n : Nat} {ok : History T n → Sys T n → Tid n × Choice T n → Prop}
  {tr : History T n} {s : Sys T n}

/-- What the thread of worker `w` has done with jobs, oldest first. -/
def jobSteps (w : Fin n) (tr : History T n) : List (Action T n) :=
  (tr.map Prod.snd).filter (·.runsOn w)

theorem mem_jobSteps {w : Fin n} {tr : History T n} {a : Action T n} :
    a ∈ jobSteps w tr ↔ a.runsOn w ∧ ∃ t, (t, a) ∈ tr := by
  simp [jobSteps, and_comm]

theorem jobSteps_snoc (w : Fin n) (tr : History T n) (t : Tid n) (a : Action T n) :
    jobSteps w (tr ++ [(t, a)]) = jobSteps w tr ++ if a.runsOn w then [a] else [] := by
  by_cases h : a.runsOn w <;> simp [jobSteps, h]

/-- One whole execution of a job: its action once and then, if there is one, its `onDone` once. -/
def execution (w : Fin n) (j : JobContext T) : List (Action T n) :=
  [.dequeued w j, .actionBegan w j, .actionEnded w j] ++
    if j.onDone.isSome then [.onDoneBegan w j, .onDoneEnded w j] else []

/-- The part of `execution` the thread has done for that job. -/
def WorkerPc.done (w : Fin n) : WorkerPc T → List (Action T n)
  | .acquire j | .action j => [.dequeued w j]
  | .inAction j => [.dequeued w j, .actionBegan w j]
  | .onDone j => [.dequeued w j, .actionBegan w j, .actionEnded w j]
  | .inOnDone j => [.dequeued w j, .actionBegan w j, .actionEnded w j, .onDoneBegan w j]
  | .finish j => execution w j
  | _ => []

/-- The jobs worker `w` has finished; together with the current one they are all it dequeued,
and each was executed whole before the next was taken. -/
def Executes (w : Fin n) (tr : History T n) (s : Sys T n) (js : List (JobContext T)) : Prop :=
  dequeuedOn w tr = js ++ (s.pc w).current ∧
    jobSteps w tr = js.flatMap (execution w) ++ (s.pc w).done w ∧
    ∀ j, s.pc w = .inOnDone j → j.onDone.isSome

/-- Job steps on worker `w` are taken by its own thread. -/
theorem job_thread (h : (pool T n).Run ok tr s) {t : Tid n} {w : Fin n} {a : Action T n}
    (he : (t, a) ∈ tr) (ha : a.runsOn w) : t = .worker w := by
  revert he
  refine pool_invariant (J := fun tr _ => (t, a) ∈ tr → t = .worker w) ?_ ?_ h
  · intro he
    exact absurd he List.not_mem_nil
  · intro tr s u i mv _ ih _ hm he
    rcases mem_snoc.mp he with he | ⟨rfl, rfl⟩
    · exact ih he
    · by_contra hne
      obtain ⟨-, -, hr⟩ := hm.pc_frame w fun ht => absurd ht hne
      simp [hr] at ha

/-- A worker begins an action right after its dequeue of the job. -/
theorem Moves.actionBegan_inv {t : Tid n} {i : Choice T n} {mv : Move T n} (h : Moves s t i mv)
    {w : Fin n} {j : JobContext T} (ha : mv.action = .actionBegan w j) :
    t = .worker w ∧ s.stack t = [] ∧ s.pc w = .action j := by
  cases h <;> cases ha
  exact ⟨‹_›, ‹_›, ‹_›⟩

theorem Executes.step {w : Fin n} {js : List (JobContext T)} {t : Tid n} {i : Choice T n}
    {mv : Move T n} (h : Executes w tr s js) (hm : Moves s t i mv) :
    ∃ js', Executes w (tr ++ [(t, mv.action)]) (s.apply t mv) js' := by
  obtain ⟨hd, he, hsome⟩ := h
  simp only [Executes, dequeuedOn_snoc, jobSteps_snoc, Sys.apply_pc]
  rcases s.at_loop t w with hw | ⟨rfl, hs⟩
  · obtain ⟨h1, h2, h3⟩ := hm.pc_frame w hw
    refine ⟨js, ?_, ?_, ?_⟩
    · rw [h1, h2, hd, List.append_nil]
    · rw [h1, h3, he, if_neg (by simp), List.append_nil]
    · rwa [h1]
  · cases hm
    case dequeue v j left ht _ hp _ _ =>
      obtain rfl := Tid.worker.inj ht
      refine ⟨js, ?_⟩
      rcases hp with hp | hp | hp <;> rw [hp] at hd he <;>
        simp [Action.runsOn, WorkerPc.current, WorkerPc.done, hd, he]
    case finish v j ht _ hp =>
      obtain rfl := Tid.worker.inj ht
      rw [hp] at hd he
      exact ⟨js ++ [j], by simp [Action.runsOn, WorkerPc.current, WorkerPc.done, hd, he]⟩
    case pass v ht _ hp _ _ =>
      obtain rfl := Tid.worker.inj ht
      refine ⟨js, ?_⟩
      rcases hp with hp | ⟨hp | hp, _⟩ <;> rw [hp] at hd he <;>
        simp [Action.runsOn, WorkerPc.current, WorkerPc.done, hd, he]
    case sleep v ht _ hp _ _ _ =>
      obtain rfl := Tid.worker.inj ht
      refine ⟨js, ?_⟩
      rcases hp with hp | hp <;> rw [hp] at hd he <;>
        simp [Action.runsOn, WorkerPc.current, WorkerPc.done, hd, he]
    case enterLoop v ht _ hp _ | leave v ht _ hp _ | «begin» v j ht _ hp _
        | beginAction v j c ht _ hp _ | endAction v j ht _ hp _ _ =>
      obtain rfl := Tid.worker.inj ht
      rw [hp] at hd he
      exact ⟨js, by simp [Action.runsOn, WorkerPc.current, WorkerPc.done, hd, he]⟩
    case beginOnDone v j c ht _ hp hc | noOnDone v j ht _ hp hc =>
      obtain rfl := Tid.worker.inj ht
      rw [hp] at hd he
      exact ⟨js, by simp [Action.runsOn, WorkerPc.current, WorkerPc.done, execution, hd, he, hc]⟩
    case endOnDone v j ht _ hp =>
      obtain rfl := Tid.worker.inj ht
      rw [hp] at hd he
      have hj := hsome j hp
      exact ⟨js, by simp [Action.runsOn, WorkerPc.current, WorkerPc.done, execution, hd, he, hj]⟩
    all_goals simp_all

theorem executes (h : (pool T n).Run ok tr s) (w : Fin n) : ∃ js, Executes w tr s js := by
  refine pool_invariant (J := fun tr s => ∃ js, Executes w tr s js)
    ⟨[], rfl, rfl, fun j hj => ?_⟩ ?_ h
  · cases hj
  · intro tr s t i mv _ hjs _ hm
    obtain ⟨js, hjs⟩ := hjs
    exact hjs.step hm

end ServiceLib
