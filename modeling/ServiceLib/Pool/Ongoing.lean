import ServiceLib.Pool.Queue
import ServiceLib.Scheduler.Locks

namespace ServiceLib

open Machine

variable {T : ArgTypes} {n : Nat} {ok : History T n → Sys T n → Tid n × Choice T n → Prop}
  {tr : History T n} {s : Sys T n} {t : Tid n} {i : Choice T n} {mv : Move T n} {w : Fin n}
  {name : String}

/-- The worker has a job of the service out of the queue and not finished. -/
def WorkerPc.runs (name : String) (pc : WorkerPc T) : Bool := pc.current.any (·.id = name)

/-- The thread has dequeued a job of the service and not taken `executingLock_` yet. -/
def WorkerPc.acquires (name : String) : WorkerPc T → Bool
  | .acquire j => j.id = name
  | _ => false

/-- A cancel that finds a job of its service out of the queue also finds one in it, so that its
predicate comes to the wait; and when the predicate looks at the last one in the queue, the worker
is not between its dequeue of such a job and `executingLock_`. -/
def ReachesWait (s : Sys T n) (t : Tid n) : Bool :=
  match s.stack t with
  | .cancelLock name w :: _ => !(s.pc w).runs name || (s.worker w).calls.any (·.id = name)
  | .cancelScan name w (it :: left) :: _ =>
    it.id ≠ name || left.any (·.id = name) || !(s.pc w).acquires name
  | _ => true

/-- A cancel in progress has a job of its service still ahead of it in its scan, if the worker has
one out of the queue. -/
def WillWait (s : Sys T n) : Prop :=
  ∀ {t name w left rest}, s.stack t = .cancelScan name w left :: rest →
    (s.pc w).runs name = true → left.any (·.id = name) = true

theorem WorkerPc.runs_inv {pc : WorkerPc T} (h : pc.runs name = true) :
    pc.acquires name = true ∨ pc.executes = true := by
  cases pc <;> simp_all [WorkerPc.runs, WorkerPc.current, WorkerPc.acquires, WorkerPc.executes]

/-- The frame of a scan is put on a stack by the lock of the queue or by the step before. -/
theorem Moves.scan_frames (hm : Moves s t i mv) {left : List (JobContext T)} {l : List (Frame T n)}
    (hfr : mv.frames = .cancelScan name w left :: l) :
    (∃ rest, s.stack t = .cancelLock name w :: rest ∧ left = (s.worker w).calls ∧
      mv.pc = none) ∨
    (∃ it rest, s.stack t = .cancelScan name w (it :: left) :: rest ∧ mv.pc = none ∧
      (it.id = name → (s.worker w).executing = false)) := by
  cases hm
  case cancelLock hs _ =>
    obtain ⟨⟨rfl, rfl, rfl⟩, -⟩ := by simpa using hfr
    exact .inl ⟨_, hs, rfl, rfl⟩
  case cancelSkip it _ _ hs hfree =>
    obtain ⟨⟨rfl, rfl, rfl⟩, -⟩ := by simpa using hfr
    exact .inr ⟨it, _, hs, rfl, fun hid => (hfree hid).2⟩
  case call op _ _ _ | callBack op _ _ => cases op <;> simp [Op.enter] at hfr
  case scanPlace | bindStrand =>
    unfold Sys.place at hfr
    split at hfr <;> simp at hfr
  all_goals simp at hfr

/-- While a queue is locked its worker takes no job out of it. -/
theorem Moves.runs_locked (hm : Moves s t i mv) (hl : (s.worker w).queueLock ≠ none)
    (hr : (s.setPc t mv.pc w).runs name = true) : (s.pc w).runs name = true := by
  rcases s.at_loop t w with hw | ⟨rfl, hs⟩
  · rwa [(hm.pc_frame w hw).1] at hr
  · cases hm
    case dequeue v j left ht _ _ hq _ =>
      obtain rfl := Tid.worker.inj ht
      exact absurd hq hl
    all_goals simp_all [WorkerPc.runs, WorkerPc.current]

theorem WillWait.step (hrun : (pool T n).Run ok tr s) (h : WillWait s) (hm : Moves s t i mv)
    (hok : ReachesWait s t = true) : WillWait (s.apply t mv) := by
  intro u name w left rest hs hr
  rw [Sys.apply_pc] at hr
  rcases Sys.apply_top (resting_below hrun t) hs with ⟨-, hs₀⟩ | ⟨-, l, hfr, -⟩ | ⟨-, -, -, hrest⟩
  · have hlock : (s.worker w).queueLock = some u := (queue_owner hrun w u).mpr (by rw [hs₀]; rfl)
    exact h hs₀ (hm.runs_locked (by simp [hlock]) hr)
  · rcases hm.scan_frames hfr with ⟨rest', hs₀, rfl, hpc⟩ | ⟨it, rest', hs₀, hpc, hfree⟩
    · rw [hpc, Sys.setPc_none] at hr
      simpa [ReachesWait, hs₀, hr] using hok
    · rw [hpc, Sys.setPc_none] at hr
      have hwait := h hs₀ hr
      rw [List.any_cons, Bool.or_eq_true] at hwait
      refine hwait.elim (fun hid => ?_) id
      have hid' : it.id = name := by simpa using hid
      -- the wait of the predicate is over, so no job of the worker is executing
      have hexec : (s.pc w).executes = false := (guarded hrun w).flag ▸ hfree hid'
      have hacq : (s.pc w).acquires name = true :=
        (WorkerPc.runs_inv hr).resolve_right (by simp [hexec])
      simpa [ReachesWait, hs₀, hid', hacq] using hok
  · simp [Frame.resting] at hrest

theorem willWait (h : (pool T n).Run (fun _ s i => ReachesWait s i.1) tr s) : WillWait s := by
  refine pool_invariant (J := fun _ s => WillWait s) ?_ ?_ h
  · intro t name w left rest hs
    cases hs
  · intro tr s t i mv hrun ih hok hm
    exact WillWait.step hrun ih hm hok

/-- A job leaves the hands of its worker only at its end. -/
theorem Moves.current_kept (hm : Moves s t i mv) {j : JobContext T} (hj : j ∈ (s.pc w).current) :
    j ∈ (s.setPc t mv.pc w).current ∨ t = .worker w ∧ mv.action = .ended w j := by
  have hmem : j ∈ mv.action.endedOn w ++ (s.setPc t mv.pc w).current :=
    hm.hands_step w ▸ List.mem_append_left _ hj
  rcases List.mem_append.mp hmem with he | hcur
  · exact .inr (hm.endedOn_inv he)
  · exact .inl hcur

theorem Moves.began_inv (hm : Moves s t i mv) {j : JobContext T} (ha : mv.action = .began w j) :
    t = .worker w ∧ s.pc w = .acquire j ∧ mv.pc = some (.action j) := by
  cases hm <;> cases ha
  exact ⟨‹_›, ‹_›, rfl⟩

/-- A worker that has begun to execute a job has ended it or has it still. -/
theorem began_ended (h : (pool T n).Run ok tr s) {j : JobContext T} {u : Tid n}
    (hb : (u, .began w j) ∈ tr) : (u, .ended w j) ∈ tr ∨ u = .worker w ∧ j ∈ (s.pc w).current := by
  revert hb
  refine pool_invariant (J := fun tr s => (u, .began w j) ∈ tr →
    (u, .ended w j) ∈ tr ∨ u = .worker w ∧ j ∈ (s.pc w).current) ?_ ?_ h
  · intro hb
    exact absurd hb List.not_mem_nil
  · intro tr s t i mv _ ih _ hm hb
    rcases mem_snoc.mp hb with hb | ⟨rfl, ha⟩
    · rcases ih hb with he | ⟨rfl, hj⟩
      · exact .inl (List.mem_append_left _ he)
      · rcases hm.current_kept hj with hj' | ⟨rfl, ha⟩
        · exact .inr ⟨rfl, hj'⟩
        · exact .inl (mem_snoc.mpr (.inr ⟨rfl, ha⟩))
    · obtain ⟨rfl, -, hpc⟩ := hm.began_inv ha
      refine .inr ⟨rfl, ?_⟩
      simp [hpc, WorkerPc.current]

/-- The job was pushed on the worker, is not in its queue and not in the hands of its thread. -/
structure Retired (w : Fin n) (j : JobContext T) (tr : History T n) (s : Sys T n) : Prop where
  pushed : j ∈ pushedOn w tr
  queue : j ∉ (s.worker w).calls
  current : j ∉ (s.pc w).current

theorem Retired.step (hrun : (pool T n).Run ok tr s) {j : JobContext T} (h : Retired w j tr s)
    (hm : Moves s t i mv) : Retired w j (tr ++ [(t, mv.action)]) (s.apply t mv) where
  pushed := by
    rw [pushedOn_snoc]
    exact List.mem_append_left _ h.pushed
  queue hj := by
    rcases Sys.mem_apply_calls hj with hj | ⟨strand, ha⟩
    · exact h.queue hj
    · have hserial := hm.queue_guard
      rw [ha] at hserial
      have hbelow := (numbered hrun).below w j h.pushed
      omega
  current hj := by
    rcases hm.current_step hj with hj | hj
    · exact h.current hj
    · exact h.queue hj

/-- What has been retired is never executed again. -/
theorem Retired.not_began {j : JobContext T} (h : Retired w j tr s) (hm : Moves s t i mv) :
    mv.action ≠ .began w j := by
  intro ha
  obtain ⟨-, hpc, -⟩ := hm.began_inv ha
  exact h.current (by simp [hpc, WorkerPc.current])

/-- When a cancel of the service returns, no job of it pushed on the worker so far is executing,
and none begins to execute from then on, if every cancel comes to the wait and no worker is just
past its dequeue there. No job is pushed while the cancel holds the queue. -/
theorem cancel_waits (h : (pool T n).Run (fun _ s i => ReachesWait s i.1) tr s)
    {p q : History T n} {js : List (JobContext T)}
    (htr : tr = p ++ (t, .cancelled w name js) :: q) {j : JobContext T} (hj : j ∈ pushedOn w p)
    (hid : j.id = name) :
    (∀ u, (u, .began w j) ∈ p → (u, .ended w j) ∈ p) ∧ ∀ u, (u, .began w j) ∉ q := by
  have hidle : ∀ {s i mv}, (pool T n).Run (fun _ s i => ReachesWait s i.1) p s →
      Moves s t i mv → mv.action = .cancelled w name js → j ∉ (s.pc w).current := by
    intro s i mv hrun hm ha hj
    obtain ⟨⟨rest, hs⟩, -⟩ := hm.cancelled_inv ha
    have hr : (s.pc w).runs name = true := List.any_eq_true.mpr ⟨j, hj, by simpa using hid⟩
    simpa using willWait hrun hs hr
  obtain ⟨s₀, i, mv, h₀, -, hm, ha⟩ := pool_at_label h htr
  refine ⟨fun u hb => ?_, fun u hb => ?_⟩
  · exact (began_ended h₀ hb).resolve_right fun hcur => hidle h₀ hm ha hcur.2
  · obtain ⟨q₁, q₂, rfl⟩ := List.append_of_mem hb
    have htr' : tr = (p ++ (t, .cancelled w name js) :: q₁) ++ (u, .began w j) :: q₂ := by
      simpa using htr
    obtain ⟨s₁, k, mv₁, h₁, -, hm₁, ha₁⟩ := pool_at_label h htr'
    have hretired : Retired w j (p ++ (t, .cancelled w name js) :: q₁) s₁ := by
      refine pool_since (J := Retired w j) ?_ ?_ h₁ rfl
      · intro s i mv hrun _ hm ha
        refine ⟨?_, ?_, ?_⟩
        · rw [pushedOn_append]
          exact List.mem_append_left _ hj
        · simp [Sys.apply_calls, ha, AsyncWorker.removeIf, AsyncWorker.cancelPredicate]
        · rw [Sys.apply_pc, (hm.cancelled_inv ha).2, Sys.setPc_none]
          exact hidle hrun hm ha
      · intro tr s t i mv hrun ih _ hm
        exact ih.step hrun hm
    exact hretired.not_began hm₁ ha₁

/-- The worker begins the first of two jobs, the cancel finds the second one in the queue and waits
until the first has ended. -/
def cancelWaitRun : History .unit 1 × Sys .unit 1 :=
  let c := Tid.client 0
  let w := Tid.worker worker₀
  let doJob := c.calls (.doJob worker₀ "test" (some 0) none) 3
  (pool .unit 1).drive (fun _ s i => ReachesWait s i.1)
    (doJob ++ doJob ++ w.steps 5 ++ c.calls (.cancelOn worker₀ "test") 1 ++ w.returns 3 ++
      c.steps 2)

theorem cancel_waits_cancelWaitRun : ∃ p js, cancelWaitRun.1 =
      p ++ [(.client 0, .cancelled 0 "test" js)] ∧
    (.worker 0, .ended 0 ⟨some (.client 0), none, "test", 0⟩) ∈ p := by
  have h : (pool .unit 1).Run (fun _ s i => ReachesWait s i.1) cancelWaitRun.1 cancelWaitRun.2 :=
    run_drive (fun _ _ _ hok => hok) _
  have hcancel : cancelWaitRun.1 = cancelWaitRun.1.dropLast ++ (.client 0, .cancelled 0 "test"
      [⟨some (.client 0), none, "test", 1⟩]) :: [] := rfl
  have hj : (⟨some (.client 0), none, "test", 0⟩ : JobContext .unit) ∈
      pushedOn 0 cancelWaitRun.1.dropLast := List.mem_cons_self
  have hbegan : (.worker 0, .began 0 ⟨some (.client 0), none, "test", 0⟩) ∈
      cancelWaitRun.1.dropLast := List.mem_of_getElem? (i := 10) rfl
  exact ⟨_, _, hcancel, (cancel_waits h hcancel hj rfl).1 _ hbegan⟩

/-- The worker runs the only job of the service when the cancel comes. -/
def cancelEarlyRun : History .unit 1 × Sys .unit 1 :=
  let c := Tid.client 0
  let w := Tid.worker worker₀
  (pool .unit 1).drive (fun _ _ _ => true)
    (c.calls (.doJob worker₀ "test" (some 0) none) 3 ++ w.steps 5 ++
      c.calls (.cancelOn worker₀ "test") 2)

/-- The queue is empty, so the cancel returns while the job is executing. -/
theorem cancel_returns_early :
    ¬∀ (tr : History .unit 1) (s : Sys .unit 1), (pool .unit 1).Run AnyStep tr s →
      ∀ p q t w name js, tr = p ++ (t, .cancelled w name js) :: q →
        ∀ j ∈ pushedOn w p, j.id = name →
          (∀ u, (u, .began w j) ∈ p → (u, .ended w j) ∈ p) ∧ ∀ u, (u, .began w j) ∉ q := by
  intro hclaim
  have h : (pool .unit 1).Run AnyStep cancelEarlyRun.1 cancelEarlyRun.2 :=
    run_drive (fun _ _ _ _ => trivial) _
  have hcancel : cancelEarlyRun.1 = cancelEarlyRun.1.dropLast ++
      (.client 0, .cancelled 0 "test" []) :: [] := rfl
  have hj : (⟨some (.client 0), none, "test", 0⟩ : JobContext .unit) ∈
      pushedOn 0 cancelEarlyRun.1.dropLast := List.mem_cons_self
  have hbegan : (.worker 0, .began 0 ⟨some (.client 0), none, "test", 0⟩) ∈
      cancelEarlyRun.1.dropLast := List.mem_of_getElem? (i := 6) rfl
  have hended : endedOn 0 cancelEarlyRun.1.dropLast = [] := rfl
  have hmem := mem_endedOn ((hclaim _ _ h _ _ _ _ _ _ hcancel _ hj rfl).1 _ hbegan)
  rw [hended] at hmem
  exact absurd hmem List.not_mem_nil

end ServiceLib
