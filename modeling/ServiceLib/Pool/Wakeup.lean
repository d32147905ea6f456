import ServiceLib.Pool.Blocking
import ServiceLib.Pool.Leaving

namespace ServiceLib

open Machine

variable {T : ArgTypes} {n : Nat} {ok : History T n → Sys T n → Tid n × Choice T n → Prop}
  {tr : History T n} {s : Sys T n} {t : Tid n} {i : Choice T n} {mv : Move T n} {k : Nat}

/-- The job a worker's thread has dequeued and whose `onDone` it has not completed. -/
def WorkerPc.serving : WorkerPc T → List (JobContext T)
  | .acquire j | .action j | .inAction j | .onDone j | .inOnDone j => [j]
  | _ => []

/-- A job that will wake the caller `k` waits on a worker that has not left, or is being
executed. -/
def Sys.Served (s : Sys T n) (k : Nat) : Prop :=
  ∃ w j, j.Wakes k ∧
    (j ∈ (s.worker w).calls ∧ s.pc w ≠ .exited ∨ j ∈ (s.pc w).serving)

/-- If the step is the erase of a cancel, no blocked caller waits for what it erases. -/
def CancelsNoWaker (s : Sys T n) (t : Tid n) : Bool :=
  match s.stack t with
  | .cancelScan _ w [] :: _ => (s.worker w).calls.all fun j => !j.blocking
  | _ => true

def KeepsWakers (s : Sys T n) (t : Tid n) : Bool :=
  LandsAlive (·.blocking) s t && CancelsNoWaker s t

theorem JobContext.Wakes.blocking {j : JobContext T} (h : j.Wakes k) : j.blocking = true := by
  obtain ⟨c, hc⟩ := h
  simp [JobContext.blocking, hc]

/-- A call that is finished stays so; its number is not used again. -/
theorem Moves.finished_stays (hm : Moves s t i mv) (hk : k < s.mem.fresh)
    (hf : (s.mem.syncCalls k).finished = true) :
    ((s.apply t mv).mem.syncCalls k).finished = true := by
  rw [Sys.apply_mem, Mem.perform_finished, hf]
  cases ha : mv.action with
  | opened l =>
    have hl : k ≠ l := by
      have := hm.opened_inv ha
      omega
    simp [hl]
  | _ => simp

theorem Sys.finished_or_opened (hf : ((s.apply t mv).mem.syncCalls k).finished = false) :
    (s.mem.syncCalls k).finished = false ∨ mv.action = .opened k := by
  rw [Sys.apply_mem, Mem.perform_finished] at hf
  cases ha : mv.action with
  | opened l =>
    by_cases hl : k = l
    · exact .inr (hl ▸ rfl)
    · exact .inl (by simpa [ha, hl] using hf)
  | finished l =>
    by_cases hl : k = l
    · simp [ha, hl] at hf
    · exact .inl (by simpa [ha, hl] using hf)
  | _ => exact .inl (by simpa [ha] using hf)

/-- The frame is on its way to set `finished` of call `k`. -/
def Frame.Finishes (k : Nat) : Frame T n → Prop
  | .invoke (.syncDone _ l) | .syncFinish l => l = k
  | _ => False

/-- The call is finished, or the `onDone` running on worker `w` will finish it before it returns. -/
def Sys.Finishing (s : Sys T n) (w : Fin n) (k : Nat) : Prop :=
  (s.mem.syncCalls k).finished = true ∨
    ∃ f ∈ (s.stack (.worker w)).getLast?, f.Finishes k

/-- The closure of `doSyncJob` ends with setting `finished`. -/
theorem Moves.finishes_step (hm : Moves s t i mv) {f : Frame T n} (hs : s.stack t = [f])
    (hf : f.Finishes k) :
    mv.action = .finished k ∨ ∃ g ∈ mv.frames.getLast?, g.Finishes k := by
  have hne : f ≠ .user := by
    intro heq
    subst heq
    exact hf
  have hnext := Sys.next_frame hm.next_eq hs hne
  cases f with
  | invoke c =>
    rcases c with g | ⟨l, a, p⟩ | ⟨_ | c, l⟩
    · exact hf.elim
    · exact hf.elim
    · obtain rfl := Option.some.inj hnext
      exact .inr ⟨_, rfl, hf⟩
    · obtain rfl := Option.some.inj hnext
      exact .inr ⟨_, rfl, hf⟩
  | syncFinish l =>
    obtain rfl := Option.some.inj hnext
    exact .inl (congrArg Action.finished hf)
  | _ => exact hf.elim

theorem Sys.Finishing.step {w : Fin n} (h : s.Finishing w k) (hm : Moves s t i mv)
    (hk : k < s.mem.fresh) (hw : t = .worker w → s.stack t ≠ []) :
    (s.apply t mv).Finishing w k := by
  rcases h with hf | ⟨f, hlast, hf⟩
  · exact .inl (hm.finished_stays hk hf)
  · by_cases ht : t = .worker w
    · subst ht
      obtain ⟨l, hl⟩ := List.getLast?_eq_some_iff.mp hlast
      cases l with
      | nil =>
        rcases hm.finishes_step hl hf with ha | ⟨g, hg, hgf⟩
        · refine .inl ?_
          rw [Sys.apply_mem, Mem.perform_finished, ha]
          simp
        · refine .inr ⟨g, ?_, hgf⟩
          rw [Sys.apply_stack_self, hl]
          simpa using hg
      | cons e l =>
        refine .inr ⟨f, ?_, hf⟩
        rw [Sys.apply_stack_self, hl]
        simp [← List.append_assoc]
    · refine .inr ⟨f, ?_, hf⟩
      rw [Sys.apply_stack_other _ (Ne.symm ht)]
      exact hlast

/-- What moves the run loop can make inside an execution. -/
theorem Moves.serving_step (hm : Moves s t i mv) {w : Fin n} {j : JobContext T}
    (hj : j ∈ (s.pc w).serving) :
    j ∈ ((s.apply t mv).pc w).serving ∨ j.onDone = none ∨
      s.pc w = .inOnDone j ∧ s.stack (.worker w) = [] := by
  rw [Sys.apply_pc]
  rcases s.at_loop t w with hw | ⟨rfl, hs⟩
  · rw [(hm.pc_frame w hw).1]
    exact .inl hj
  · cases hm
    case noOnDone v j' ht _ hp hc =>
      obtain rfl := Tid.worker.inj ht
      obtain rfl : j = j' := by simpa [hp, WorkerPc.serving] using hj
      exact .inr (.inl hc)
    case endOnDone v j' ht _ hp =>
      obtain rfl := Tid.worker.inj ht
      obtain rfl : j = j' := by simpa [hp, WorkerPc.serving] using hj
      exact .inr (.inr ⟨hp, hs⟩)
    case dequeue v j' left ht _ hp _ _ =>
      obtain rfl := Tid.worker.inj ht
      rcases hp with hp | hp | hp <;> simp [hp, WorkerPc.serving] at hj
    case sleep v ht _ hp _ _ _ =>
      obtain rfl := Tid.worker.inj ht
      rcases hp with hp | hp <;> simp [hp, WorkerPc.serving] at hj
    case pass v ht _ hp _ _ =>
      obtain rfl := Tid.worker.inj ht
      rcases hp with hp | ⟨hp | hp, -⟩ <;> simp [hp, WorkerPc.serving] at hj
    all_goals simp_all [WorkerPc.serving]

/-- A job leaves a queue to be executed or by the erase of a cancel. -/
theorem Moves.calls_lost (hm : Moves s t i mv) {w : Fin n} {j : JobContext T}
    (hj : j ∈ (s.worker w).calls) (hgone : j ∉ ((s.apply t mv).worker w).calls) :
    (s.apply t mv).pc w = .acquire j ∨ ∃ id rest, s.stack t = .cancelScan id w [] :: rest := by
  rw [Sys.apply_calls] at hgone
  cases hm
  case dequeue v j' left ht _ _ _ hc =>
    by_cases hv : w = v
    · subst hv ht
      rw [hc] at hj hgone
      rcases List.mem_cons.mp hj with rfl | hj
      · exact .inl (by simp)
      · exact absurd (by simpa using hj) hgone
    · exact absurd (by simpa [hv] using hj) hgone
  case cancelErase id v rest hs =>
    by_cases hv : w = v
    · subst hv
      exact .inr ⟨id, rest, hs⟩
    · exact absurd (by simpa [hv] using hj) hgone
  case push v name call onDone strand rest _ _ =>
    refine absurd ?_ hgone
    by_cases hv : w = v
    · simp [hv, hv ▸ hj]
    · simpa [hv] using hj
  all_goals exact absurd (by simpa using hj) hgone

/-- The call has opened and its thread is just before the push. -/
def Sys.AboutToPush (s : Sys T n) (t : Tid n) (k : Nat) : Prop :=
  ∃ w name call c strand rest,
    s.stack t = .push w name call (some (.syncDone c k)) strand :: rest

/-- Who wakes the blocked callers. -/
structure Wakers (s : Sys T n) : Prop where
  drained : Drained (·.blocking) s
  finishing : ∀ {w j k}, s.pc w = .inOnDone j → j.Wakes k → s.Finishing w k
  served : ∀ {t k}, s.WaitsIn t k → (s.mem.syncCalls k).finished = false →
    s.AboutToPush t k ∨ s.Served k

theorem Wakers.finishing_step (hrun : (pool T n).Run ok tr s) (h : Wakers s)
    (hm : Moves s t i mv) {w : Fin n} {j : JobContext T}
    (hp : (s.apply t mv).pc w = .inOnDone j) (hj : j.Wakes k) :
    (s.apply t mv).Finishing w k := by
  rw [Sys.apply_pc] at hp
  rcases s.at_loop t w with hw | ⟨rfl, hs⟩
  · rw [(hm.pc_frame w hw).1] at hp
    have hk : k < s.mem.fresh :=
      hj.below ((sync_below hrun).running w j (by simp [hp, WorkerPc.current]))
    exact (h.finishing hp hj).step hm hk hw
  · cases hm
    case beginOnDone v j' c ht _ _ hc =>
      obtain rfl := Tid.worker.inj ht
      obtain rfl : j' = j := by simpa using hp
      obtain ⟨inner, hinner⟩ := hj
      obtain rfl : c = .syncDone inner k := Option.some.inj (hc.symm.trans hinner)
      refine .inr ⟨.invoke (.syncDone inner k), ?_, rfl⟩
      rw [Sys.apply_stack_self, hs]
      rfl
    all_goals simp_all

theorem Wakers.served_step (hrun : (pool T n).Run ok tr s) (h : Wakers s) (hm : Moves s t i mv)
    (hcancel : CancelsNoWaker s t = true) (hs : s.Served k)
    (hf : ((s.apply t mv).mem.syncCalls k).finished = false) : (s.apply t mv).Served k := by
  obtain ⟨w, j, hj, ⟨hmem, hpc⟩ | hserving⟩ := hs
  · by_cases hstay : j ∈ ((s.apply t mv).worker w).calls
    · refine ⟨w, j, hj, .inl ⟨hstay, ?_⟩⟩
      intro hexit
      rcases hm.exits_from_test hexit with hp | ⟨-, -, hp, ha⟩
      · exact hpc hp
      · have hleaving : (s.pc w).leaving = true := by rw [hp]; rfl
        simpa [hj.blocking] using h.drained.empty w ha hleaving j hmem
    · rcases hm.calls_lost hmem hstay with hp | ⟨id, rest, hs⟩
      · exact ⟨w, j, hj, .inr (by simp [hp, WorkerPc.serving])⟩
      · have hno : (s.worker w).calls.all fun j => !j.blocking := by
          simpa [CancelsNoWaker, hs] using hcancel
        simpa [hj.blocking] using List.all_eq_true.mp hno j hmem
  · rcases hm.serving_step hserving with hserving | hnone | ⟨hp, hstack⟩
    · exact ⟨w, j, hj, .inr hserving⟩
    · obtain ⟨c, hc⟩ := hj
      simp [hnone] at hc
    · have hk : k < s.mem.fresh :=
        hj.below ((sync_below hrun).running w j (by simp [hp, WorkerPc.current]))
      rcases h.finishing hp hj with hfin | ⟨f, hlast, -⟩
      · rw [hm.finished_stays hk hfin] at hf
        exact absurd hf (by simp)
      · simp [hstack] at hlast

/-- The push of a blocked caller puts its job in the queue of a worker that has not left. -/
theorem Wakers.served_by_push (h : Wakers s) (hm : Moves s t i mv)
    (hland : LandsAlive (·.blocking) s t = true) (hs : s.AboutToPush t k) :
    (s.apply t mv).Served k := by
  obtain ⟨w, name, call, c, strand, rest, hs⟩ := hs
  have hnext := Sys.next_frame hm.next_eq hs (by simp)
  simp only [Sys.frameNext, Sys.pushNext] at hnext
  split at hnext
  · obtain rfl := Option.some.inj hnext
    let j : JobContext T := ⟨call, some (.syncDone c k), name, s.mem.fresh⟩
    refine ⟨w, j, ⟨c, rfl⟩, .inl ⟨?_, ?_⟩⟩
    · rw [Sys.apply_calls]
      simp [j]
    · rw [Sys.apply_pc, Sys.setPc_none]
      intro hexit
      have hleaving : (s.pc w).leaving = true := by rw [hexit]; rfl
      have hinactive := h.drained.inactive w hexit
      simp [LandsAlive, hs, hleaving, hinactive, JobContext.blocking] at hland
  · cases hnext

theorem Wakers.step (hrun : (pool T n).Run ok tr s) (h : Wakers s) (hm : Moves s t i mv)
    (hok : KeepsWakers s t = true) : Wakers (s.apply t mv) := by
  simp only [KeepsWakers, Bool.and_eq_true] at hok
  refine ⟨h.drained.step hm hok.1, h.finishing_step hrun hm, ?_⟩
  intro u k hw hf
  rcases hm.waits_step hw with hold | ⟨rfl, ha⟩
  · have hk : k < s.mem.fresh := hold.below hrun
    have hf₀ : (s.mem.syncCalls k).finished = false := by
      refine (Sys.finished_or_opened hf).resolve_right ?_
      intro ha
      have := hm.opened_inv ha
      omega
    rcases h.served hold hf₀ with hpush | hserved
    · by_cases hu : u = t
      · subst hu
        exact .inr (h.served_by_push hm hok.1 hpush)
      · obtain ⟨w, name, call, c, strand, rest, hs⟩ := hpush
        refine .inl ⟨w, name, call, c, strand, rest, ?_⟩
        rw [Sys.apply_stack_other _ hu, hs]
    · exact .inr (h.served_step hrun hm hok.2 hserved hf)
  · cases hm <;> cases ha
    rename_i w name call onDone strand rest hs
    refine .inl ⟨w, name, call, onDone, strand, .syncWait s.mem.fresh :: rest, ?_⟩
    rw [Sys.apply_stack_self, hs]
    rfl

theorem wakers (h : (pool T n).Run (fun _ s i => KeepsWakers s i.1) tr s) : Wakers s := by
  refine pool_invariant (J := fun _ s => Wakers s) ?_ ?_ h
  · refine ⟨.init, fun {w j k} hp => (by cases hp), ?_⟩
    intro t k hw
    obtain ⟨f, hf, -⟩ := hw
    exact absurd hf List.not_mem_nil
  · intro tr s t i mv hrun hw hok hm
    exact hw.step hrun hm hok

/-- Whoever is blocked inside `doSyncJob` has a job that will wake it, if cancels erase no such job
and none is pushed on a worker that is past its last look at the queue. -/
theorem blocked_served (h : (pool T n).Run (fun _ s i => KeepsWakers s i.1) tr s) {t : Tid n}
    {f : Frame T n} {rest : List (Frame T n)} {k : Nat} (hs : s.stack t = f :: rest)
    (hf : f.waits = some k) (hfin : (s.mem.syncCalls k).finished = false) : s.Served k := by
  have hw : s.WaitsIn t k := ⟨f, by simp [hs], hf⟩
  refine ((wakers h).served hw hfin).resolve_left ?_
  intro hpush
  obtain ⟨w, name, call, c, strand, rest', hs'⟩ := hpush
  obtain ⟨rfl, -⟩ := List.cons.inj (hs.symm.trans hs')
  simp [Frame.waits] at hf

/-- Jobs are handed to workers, cancelled, and workers are stopped. -/
def CallsWorkers : Tid n × Choice T n → Bool
  | (_, .call (.doJob _ _ _ _)) | (_, .call (.doSyncJob _ _ _ _)) | (_, .call (.cancelJobsFor _))
  | (_, .call (.cancelOn _ _)) | (_, .call .stop) | (_, .call (.stopWorker _)) => true
  | (_, .call _) => false
  | _ => true

/-- A client blocks on a job of the worker. -/
def blockOn (name : String) : List (Tid 1 × Choice .unit 1) :=
  (Tid.client 0).calls (.doSyncJob worker₀ name (some 0) none) 5

/-- A cancel drops a job of "b" before a client blocks on one of "a", and while the worker runs that
one another client stops it. -/
def blockedRun : History .unit 1 × Sys .unit 1 :=
  let c := Tid.client 1
  (pool .unit 1).drive (fun _ s i => KeepsWakers s i.1)
    (c.calls (.doJob worker₀ "b" (some 1) none) 3 ++ c.calls (.cancelJobsFor "b") 5 ++
      blockOn "a" ++ (Tid.worker worker₀).steps 5 ++ c.calls (.stopWorker worker₀) 2)

theorem blocked_served_blockedRun :
    (blockedRun.2.worker 0).active = false ∧ blockedRun.2.Served 1 := by
  have h : (pool .unit 1).Run (fun _ s i => KeepsWakers s i.1) blockedRun.1 blockedRun.2 :=
    run_drive (fun _ _ _ hok => hok) _
  have hs : blockedRun.2.stack (.client 0) = [.syncAsleep 1] := rfl
  exact ⟨rfl, blocked_served h hs rfl rfl⟩

/-- A client blocks on a job of "a", and another cancels the jobs of "a". -/
def cancelledWaiterRun : History .unit 1 × Sys .unit 1 :=
  (pool .unit 1).drive (fun _ _ i => CallsWorkers i)
    (blockOn "a" ++ (Tid.client 1).calls (.cancelJobsFor "a") 4)

/-- The closure that would wake the client went with its job. -/
theorem blocked_forever :
    ¬∀ (tr : History .unit 1) (s : Sys .unit 1),
      (pool .unit 1).Run (fun _ _ i => CallsWorkers i) tr s → ∀ t f rest k,
        s.stack t = f :: rest → f.waits = some k → (s.mem.syncCalls k).finished = false →
          s.Served k := by
  intro hclaim
  have h : (pool .unit 1).Run (fun _ _ i => CallsWorkers i) cancelledWaiterRun.1
      cancelledWaiterRun.2 := run_drive (fun _ _ _ hok => hok) _
  have hs : cancelledWaiterRun.2.stack (.client 0) = [.syncAsleep 0] := rfl
  have hcalls : (cancelledWaiterRun.2.worker 0).calls = [] := rfl
  have hserving : (cancelledWaiterRun.2.pc 0).serving = [] := rfl
  obtain ⟨w, j, -, hj⟩ := hclaim _ _ h _ _ _ 0 hs rfl rfl
  obtain rfl : w = 0 := Subsingleton.elim w 0
  rcases hj with ⟨hj, -⟩ | hj
  · exact absurd (hcalls ▸ hj) List.not_mem_nil
  · exact absurd (hserving ▸ hj) List.not_mem_nil

end ServiceLib
