import ServiceLib.Pool.Drain
import ServiceLib.Pool.Ready
import ServiceLib.Pool.Refines
import ServiceLib.Scheduler.Locks

namespace ServiceLib

open Machine

variable {T : ArgTypes} {n : Nat} {ok : History T n → Sys T n → Tid n × Choice T n → Prop}
  {l m : History T n} {s s₀ : Sys T n} {t : Tid n} {i : Choice T n} {mv : Move T n} {w : Fin n}
  {j : JobContext T} {k : ℕ}

/-- The steps of worker `w` in its run loop; what its callbacks do is not counted. -/
def Action.loopStep (w : Fin n) : Action T n → Bool
  | .slept v | .passed v | .dequeued v _ | .began v _ | .actionBegan v _ | .actionEnded v _
  | .onDoneBegan v _ | .onDoneEnded v _ | .ended v _ | .left v => v = w
  | _ => false

def loopSteps (w : Fin n) (tr : History T n) : ℕ := tr.countP fun e => e.2.loopStep w

/-- How many of these steps the worker has still to take before it looks at its queue again. -/
def WorkerPc.ahead : WorkerPc T → ℕ
  | .acquire _ => 6
  | .action _ => 5
  | .inAction _ => 4
  | .onDone _ => 3
  | .inOnDone _ => 2
  | .finish _ => 1
  | _ => 0

/-- The worker will look at its queue once more. -/
def Sys.Serves (s : Sys T n) (w : Fin n) : Prop :=
  (s.worker w).active = true ∨ (s.pc w).leaving = false

theorem Moves.loopStep_other (hm : Moves s t i mv) (hw : t = .worker w → s.stack t ≠ []) :
    mv.action.loopStep w = false := by
  cases hm
  case leave v ht hs _ _ | dequeue v _ _ ht hs _ _ _ | sleep v ht hs _ _ _ _ | pass v ht hs _ _ _
      | «begin» v _ ht hs _ _ | beginAction v _ _ ht hs _ _ | endAction v _ ht hs _ _ _
      | beginOnDone v _ _ ht hs _ _ | endOnDone v _ ht hs _ | finish v _ ht hs _ =>
    have hv : v ≠ w := fun h => hw (h ▸ ht) hs
    simp [Action.loopStep, hv]
  all_goals rfl

/-- A worker with something in its queue goes round its loop: it takes the next job, or comes a
step nearer to its next look at the queue. -/
theorem Moves.ahead_step (hm : Moves s t i mv) (hc : (s.worker w).calls ≠ [])
    (hserve : s.Serves w) : (s.apply t mv).Serves w ∧
      ((∃ j, mv.action = .dequeued w j) ∧ (s.pc w).ahead = 0 ∧
          ((s.apply t mv).pc w).ahead = 6 ∨
        mv.action.dequeuedOn w = [] ∧
          ((s.apply t mv).pc w).ahead + (mv.action.loopStep w).toNat ≤ (s.pc w).ahead) := by
  have hactive (ha : (s.worker w).active = true) : ((s.apply t mv).worker w).active = true :=
    Sys.active_kept ha fun hd => hc (hm.deactivated_inv hd)
  rcases s.at_loop t w with hw | ⟨rfl, hs⟩
  · obtain ⟨hpc, hd, -⟩ := hm.pc_frame w hw
    rw [Sys.Serves, Sys.apply_pc, hpc, hm.loopStep_other hw]
    exact ⟨hserve.imp hactive id, .inr ⟨hd, Nat.le_refl _⟩⟩
  · cases hm
    case dequeue v j _ ht _ hp _ _ =>
      obtain rfl := Tid.worker.inj ht
      refine ⟨.inr (by simp [WorkerPc.leaving]), .inl ⟨⟨j, rfl⟩, ?_, by simp [WorkerPc.ahead]⟩⟩
      rcases hp with hp | hp | hp <;> rw [hp] <;> rfl
    case leave v ht _ hp ha =>
      obtain rfl := Tid.worker.inj ht
      simp [Sys.Serves, hp, ha, WorkerPc.leaving] at hserve
    case sleep v ht _ _ _ hempty _ | pass v ht _ _ _ hempty =>
      obtain rfl := Tid.worker.inj ht
      exact absurd hempty hc
    case enterLoop v ht _ hp _ | «begin» v _ ht _ hp _ | beginAction v _ _ ht _ hp _
        | endAction v _ ht _ hp _ _ | beginOnDone v _ _ ht _ hp _ | noOnDone v _ ht _ hp _
        | endOnDone v _ ht _ hp | finish v _ ht _ hp =>
      obtain rfl := Tid.worker.inj ht
      simp [Sys.Serves, hp, WorkerPc.leaving, WorkerPc.ahead, Action.loopStep]
    all_goals simp_all

/-- How far a worker is on its way to a job that was `k` places from the front of its queue. -/
structure Nearing (w : Fin n) (j : JobContext T) (k c : ℕ) (m : History T n) (s : Sys T n) :
    Prop where
  waits : ∃ k', s.servers.Waits w j k' ∧ k' + (dequeuedOn w m).length ≤ k
  serves : s.Serves w
  steps : (s.pc w).ahead + loopSteps w m ≤ 7 * (dequeuedOn w m).length + c

theorem Action.starts_event (a : Action T n) (w : Fin n) :
    Servers.starts w a.event.toList = (a.dequeuedOn w).length := by
  cases a with
  | dequeued v j =>
    by_cases hv : w = v
    · simp [event, Servers.starts, hv]
    · simp [event, Servers.starts, hv, Ne.symm hv]
  | _ => rfl

/-- A waiting job is dequeued or cancelled by a step, or comes forward by what the worker takes. -/
theorem Moves.waits_forward {tr : History T n} (hrun : (pool T n).Run ok tr s)
    (hm : Moves s t i mv) (h : s.servers.Waits w j k) :
    j ∈ mv.action.dequeuedOn w ∨ j ∈ mv.action.cancelledOn w ∨
      ∃ k', (s.apply t mv).servers.Waits w j k' ∧ k' + (mv.action.dequeuedOn w).length ≤ k := by
  have hstarts := mv.action.starts_event w
  rw [hm.servers_step]
  cases he : mv.action.event with
  | none =>
    rw [he] at hstarts
    exact .inr (.inr ⟨k, h, by rw [← hstarts]; exact Nat.le_refl k⟩)
  | some e =>
    rw [he] at hstarts
    rcases h.step (hm.event_admitted hrun he) with rfl | ⟨p, rfl, hp⟩ | ⟨k', hk', hle⟩
    · refine .inl ?_
      cases ha : mv.action <;> rw [ha] at he <;> cases he
      simp
    · refine .inr (.inl ?_)
      have hguard := hm.queue_guard
      obtain ⟨l, r, hq, -⟩ := h
      have hj : j ∈ (s.worker w).calls := by
        change j ∈ s.servers.queue w
        simp [hq]
      cases ha : mv.action <;> rw [ha] at he hguard <;> cases he
      simpa [hguard] using hj
    · exact .inr (.inr ⟨k', hk', hstarts ▸ hle⟩)

theorem Nearing.step {c : ℕ} {tr : History T n} (hrun : (pool T n).Run ok tr s)
    (h : Nearing w j k c m s) (hm : Moves s t i mv) :
    j ∈ mv.action.dequeuedOn w ∨ j ∈ mv.action.cancelledOn w ∨
      Nearing w j k c (m ++ [(t, mv.action)]) (s.apply t mv) := by
  obtain ⟨⟨k', hk', hle⟩, hserve, hsteps⟩ := h
  have hc : (s.worker w).calls ≠ [] := by
    obtain ⟨l, r, hq, -⟩ := hk'
    change s.servers.queue w ≠ []
    simp [hq]
  rcases hm.waits_forward hrun hk' with hd | hx | ⟨k'', hk'', hle'⟩
  · exact .inl hd
  · exact .inr (.inl hx)
  · refine .inr (.inr ?_)
    have hlen : (dequeuedOn w (m ++ [(t, mv.action)])).length =
        (dequeuedOn w m).length + (mv.action.dequeuedOn w).length := by
      rw [dequeuedOn_snoc, List.length_append]
    have hcount : loopSteps w (m ++ [(t, mv.action)]) =
        loopSteps w m + (mv.action.loopStep w).toNat := by
      cases hl : mv.action.loopStep w <;> simp [loopSteps, hl]
    obtain ⟨hserve', hahead⟩ := hm.ahead_step hc hserve
    refine ⟨⟨k'', hk'', by omega⟩, hserve', ?_⟩
    rcases hahead with ⟨⟨j', ha⟩, hzero, hsix⟩ | ⟨hnone, hless⟩
    · have hone : (mv.action.dequeuedOn w).length = 1 := by simp [ha]
      have hstep : (mv.action.loopStep w).toNat = 1 := by simp [ha, Action.loopStep]
      omega
    · rw [hnone, List.length_nil] at hlen
      omega

/-- What can keep a worker from going on in its loop: a cancel has its queue locked, it sleeps and
a thread that has pushed a job stands before its `notify_all`, the job it is to run has no action,
or the action has thrown. -/
inductive Sys.Halted (s : Sys T n) (w : Fin n) : Prop
  | locked {u : Tid n} {id : String} {left : List (JobContext T)} {rest : List (Frame T n)}
      (hs : s.stack u = .cancelScan id w left :: rest)
  | unnotified {u : Tid n} {rest : List (Frame T n)} (hp : s.pc w = .asleep)
      (hc : (s.worker w).queueCond ≠ .notified) (hs : s.stack u = .notify w :: rest)
  | noAction {j : JobContext T} (hp : s.pc w = .action j) (ha : j.action = none)
  | thrown {j : JobContext T} {e : Exn} (hp : s.pc w = .inAction j)
      (he : s.result (.worker w) = .threw e)

theorem topScan_inv {l : List (Frame T n)} (h : topScan l = some w) :
    ∃ id left rest, l = .cancelScan id w left :: rest := by
  unfold topScan at h
  split at h
  · rename_i id v left rest
    cases h
    exact ⟨id, left, rest, rfl⟩
  · cases h

/-- A worker that will look at its queue again, and has a job there, stops in its loop for no other
reason. -/
theorem halted_of_stopped {tr : History T n} (h : (pool T n).Run ok tr s) (hserve : s.Serves w)
    (hcalls : (s.worker w).calls ≠ []) (hs : s.stack (.worker w) = [])
    (hstop : ¬s.Ready (.worker w)) : s.Halted w := by
  by_cases hsleep : s.Sleeps (.worker w)
  · cases hsleep with
    | call hs' _ => cases hs.symm.trans hs'
    | queue ht _ hp hc =>
      obtain rfl := Tid.worker.inj ht
      rcases asleep_rightly h hp hc with ⟨hempty, -⟩ | ⟨u, rest, hu⟩
      · exact absurd hempty hcalls
      · exact .unnotified hp hc hu
  have hnone : s.next (.worker w) .run = none := by
    by_contra hne
    exact hstop ⟨⟨.run, fun op => by simp, hne⟩, hsleep⟩
  have hlocked (hq : (s.worker w).queueLock ≠ none) : s.Halted w := by
    obtain ⟨u, hu⟩ := Option.ne_none_iff_exists'.mp hq
    obtain ⟨id, left, rest, hscan⟩ := topScan_inv ((queue_owner h w u).mp hu)
    exact .locked hscan
  have hguard := (guarded h w).lock
  simp only [Sys.next, hs, Sys.runNext] at hnone
  cases hp : s.pc w with
  | test =>
    have ha : (s.worker w).active = true := by simpa [Sys.Serves, hp, WorkerPc.leaving] using hserve
    simp [hp, ha] at hnone
  | lock | asleep =>
    refine hlocked fun hq => ?_
    simp only [hp, hq, if_true] at hnone
    split at hnone
    · cases hnone
    · split at hnone <;> cases hnone
  | relock =>
    refine hlocked fun hq => ?_
    simp only [hp, hq, if_true] at hnone
    split at hnone <;> cases hnone
  | acquire j =>
    rw [hp] at hguard
    simp [hp, hguard, WorkerPc.executes] at hnone
  | action j => exact .noAction hp (by simpa [hp] using hnone)
  | inAction j =>
    simp only [hp] at hnone
    split at hnone
    · cases hnone
    · rename_i e he
      exact .thrown hp he
  | onDone j =>
    simp only [hp] at hnone
    split at hnone <;> cases hnone
  | inOnDone j | finish j => simp [hp] at hnone
  | exited =>
    have ha := exited_inactive h hp
    simp [Sys.Serves, hp, ha, WorkerPc.leaving] at hserve

/-- Every job has its turn. A job with `k` others before it in the queue of a worker that has not
been told to leave, or still goes on, is dequeued or cancelled before the worker has taken
`7 * (k + 1)` steps of its loop; the worker takes at most those `k` jobs before it, does not leave
meanwhile and stops in its loop only where a cancel holds its queue, a `notify_all` is on its way or
the process ends. -/
theorem queued_reached (h₀ : (pool T n).Run AnyStep l s₀) (hq : s₀.servers.Waits w j k)
    (hserve : s₀.Serves w) (hm : ((pool T n).startAt s₀).Run AnyStep m s) :
    j ∈ dequeuedOn w m ∨ j ∈ cancelledOn w m ∨
      loopSteps w m < 7 * (k + 1) ∧ (dequeuedOn w m).length ≤ k ∧ s.Serves w ∧
        (s.stack (.worker w) = [] → ¬s.Ready (.worker w) → s.Halted w) := by
  have hnear : j ∈ dequeuedOn w m ∨ j ∈ cancelledOn w m ∨ Nearing w j k 6 m s := by
    refine startAt_invariant (J := fun m s =>
      j ∈ dequeuedOn w m ∨ j ∈ cancelledOn w m ∨ Nearing w j k 6 m s) ?_ ?_ hm
    · refine .inr (.inr ⟨⟨k, hq, Nat.le_refl k⟩, hserve, ?_⟩)
      cases s₀.pc w <;> simp [WorkerPc.ahead, loopSteps, dequeuedOn]
    · intro m s t i mv hrun ih _ hm
      rw [dequeuedOn_snoc, cancelledOn_snoc, List.mem_append, List.mem_append]
      rcases ih with hd | hx | hnear
      · exact .inl (.inl hd)
      · exact .inr (.inl (.inl hx))
      · rcases hnear.step (h₀.append hrun) hm with hd | hx | hnext
        · exact .inl (.inr hd)
        · exact .inr (.inl (.inr hx))
        · exact .inr (.inr hnext)
  refine hnear.imp id (Or.imp id ?_)
  intro ⟨⟨k', hwaits, hle⟩, hserves, hsteps⟩
  have hcalls : (s.worker w).calls ≠ [] := by
    obtain ⟨l, r, hq, -⟩ := hwaits
    change s.servers.queue w ≠ []
    simp [hq]
  exact ⟨by omega, by omega, hserves, halted_of_stopped (h₀.append hm) hserves hcalls⟩

/-- Two jobs wait on the only worker. -/
def twoQueued : History .unit 1 × Sys .unit 1 :=
  let doJob := (Tid.client 0).calls (.doJob worker₀ "a" (some 0) none) 3
  (pool .unit 1).drive (fun _ _ _ => true) (doJob ++ doJob)

/-- The worker begins the first of them. -/
def firstBegun : History .unit 1 × Sys .unit 1 :=
  ((pool .unit 1).startAt twoQueued.2).drive (fun _ _ _ => true) ((Tid.worker worker₀).steps 5)

theorem queued_reached_firstBegun :
    (dequeuedOn 0 firstBegun.1).map (·.serial) = [0] ∧ loopSteps 0 firstBegun.1 < 14 := by
  have hd : (dequeuedOn 0 firstBegun.1).map (·.serial) = [0] := by decide
  have hx : (cancelledOn 0 firstBegun.1).map (·.serial) = [] := by decide
  have h₀ : (pool .unit 1).Run AnyStep twoQueued.1 twoQueued.2 :=
    run_drive (fun _ _ _ _ => trivial) _
  have hm : ((pool .unit 1).startAt twoQueued.2).Run AnyStep firstBegun.1 firstBegun.2 :=
    run_drive (fun _ _ _ _ => trivial) _
  have hq : twoQueued.2.servers.Waits 0 ⟨some (.client 0), none, "a", 1⟩ 1 :=
    ⟨[⟨some (.client 0), none, "a", 0⟩], [], rfl, rfl⟩
  refine ⟨hd, ?_⟩
  rcases queued_reached h₀ hq (.inl rfl) hm with hmem | hmem | ⟨hlt, -⟩
  · have := List.mem_map_of_mem (f := (·.serial)) hmem
    simp [hd] at this
  · have := List.mem_map_of_mem (f := (·.serial)) hmem
    simp [hx] at this
  · exact hlt

end ServiceLib
