import ServiceLib.Framework.Fifo
import ServiceLib.Model.Effects

namespace ServiceLib

variable {T : ArgTypes} {n : Nat}

/-- The history of a run: who did what, oldest first. -/
abbrev History (T : ArgTypes) (n : Nat) := List (Tid n × Action T n)

section

variable {ok : History T n → Sys T n → Tid n × Choice T n → Prop} {tr : History T n} {s : Sys T n}

/-- What holds of a state and is kept by every admitted step holds along every run from there. -/
theorem startAt_invariant {s₀ : Sys T n} {J : History T n → Sys T n → Prop} (h0 : J [] s₀)
    (hstep : ∀ {tr s t i mv}, ((pool T n).startAt s₀).Run ok tr s → J tr s → ok tr s (t, i) →
      Moves s t i mv → J (tr ++ [(t, mv.action)]) (s.apply t mv))
    (h : ((pool T n).startAt s₀).Run ok tr s) : J tr s := by
  refine h.invariant h0 ?_
  intro tr s i e s' hrun ih hok hs
  obtain ⟨mv, hm, rfl, rfl⟩ := pool_step hs
  exact hstep hrun ih hok hm

/-- What holds of the started pool and is kept by every admitted step holds along every run. -/
theorem pool_invariant {J : History T n → Sys T n → Prop} (h0 : J [] .init)
    (hstep : ∀ {tr s t i mv}, (pool T n).Run ok tr s → J tr s → ok tr s (t, i) → Moves s t i mv →
      J (tr ++ [(t, mv.action)]) (s.apply t mv))
    (h : (pool T n).Run ok tr s) : J tr s :=
  startAt_invariant h0 hstep h

/-- A thread that has taken no step is not inside any function. -/
theorem stack_of_no_step (h : (pool T n).Run ok tr s) {t : Tid n} (ht : ∀ e ∈ tr, e.1 ≠ t) :
    s.stack t = [] := by
  revert ht
  refine pool_invariant (J := fun tr s => (∀ e ∈ tr, e.1 ≠ t) → s.stack t = []) ?_ ?_ h
  · exact fun _ => rfl
  · intro tr s u i mv _ ih _ _ ht
    have hu : t ≠ u := (ht (u, mv.action) (by simp)).symm
    rw [Sys.apply_stack_other mv hu]
    exact ih fun e he => ht e (List.mem_append_left _ he)

/-- The stacks of all threads, from those of the threads that have taken a step. -/
theorem stacks_of_steps (h : (pool T n).Run ok tr s) {P : List (Frame T n) → Prop} (hnil : P [])
    {ts : List (Tid n)} (hts : tr.all (fun e => e.1 ∈ ts) = true) (hP : ∀ t ∈ ts, P (s.stack t))
    (t : Tid n) : P (s.stack t) := by
  by_cases ht : t ∈ ts
  · exact hP t ht
  · have hno : ∀ e ∈ tr, e.1 ≠ t := fun e he heq =>
      ht (heq ▸ of_decide_eq_true (List.all_eq_true.mp hts e he))
    exact stack_of_no_step h hno ▸ hnil

/-- The step by which a run took a given action, with the run up to it. -/
theorem pool_at_label (h : (pool T n).Run ok tr s) {l r : History T n} {t : Tid n}
    {a : Action T n} (htr : tr = l ++ (t, a) :: r) :
    ∃ s₀ i mv, (pool T n).Run ok l s₀ ∧ ok l s₀ (t, i) ∧ Moves s₀ t i mv ∧ mv.action = a := by
  obtain ⟨s₀, ⟨u, i⟩, s₁, h₀, hok, hs, -⟩ := h.at_label htr
  obtain ⟨mv, hm, he, -⟩ := pool_step hs
  obtain ⟨rfl, rfl⟩ := Prod.mk.inj he
  exact ⟨s₀, i, mv, h₀, hok, hm, rfl⟩

/-- What holds right after an action and is kept by every admitted step holds from there on. -/
theorem pool_since {J : History T n → Sys T n → Prop} {l r : History T n} {t : Tid n}
    {a : Action T n}
    (h0 : ∀ {s i mv}, (pool T n).Run ok l s → ok l s (t, i) → Moves s t i mv → mv.action = a →
      J (l ++ [(t, a)]) (s.apply t mv))
    (hstep : ∀ {tr s t i mv}, (pool T n).Run ok tr s → J tr s → ok tr s (t, i) → Moves s t i mv →
      J (tr ++ [(t, mv.action)]) (s.apply t mv))
    (h : (pool T n).Run ok tr s) (htr : tr = l ++ (t, a) :: r) : J tr s := by
  refine Machine.Run.since (l := l ++ [(t, a)]) (r := r) ?_ ?_ h (by simpa using htr)
  · intro s₁ h₁
    obtain ⟨s₀, ⟨u, i⟩, h₀, hok, hs⟩ := h₁.last
    obtain ⟨mv, hm, he, rfl⟩ := pool_step hs
    obtain ⟨rfl, ha⟩ := Prod.mk.inj he
    exact h0 h₀ hok hm ha.symm
  · intro tr s i e s' hrun ih hok hs
    obtain ⟨mv, hm, rfl, rfl⟩ := pool_step hs
    exact hstep hrun ih hok hm

end

namespace Action

@[simp] def pushedOn (w : Fin n) : Action T n → List (JobContext T)
  | .pushed v j _ => if w = v then [j] else []
  | _ => []

@[simp] def dequeuedOn (w : Fin n) : Action T n → List (JobContext T)
  | .dequeued v j => if w = v then [j] else []
  | _ => []

@[simp] def cancelledOn (w : Fin n) : Action T n → List (JobContext T)
  | .cancelled v _ js => if w = v then js else []
  | _ => []

@[simp] def endedOn (w : Fin n) : Action T n → List (JobContext T)
  | .ended v j => if w = v then [j] else []
  | _ => []

end Action

/-- The jobs pushed on worker `w`, in order. -/
def pushedOn (w : Fin n) (tr : History T n) : List (JobContext T) :=
  tr.flatMap fun e => e.2.pushedOn w

/-- The jobs the thread of worker `w` has dequeued, in order. -/
def dequeuedOn (w : Fin n) (tr : History T n) : List (JobContext T) :=
  tr.flatMap fun e => e.2.dequeuedOn w

/-- The jobs removed from worker `w` by a cancel. -/
def cancelledOn (w : Fin n) (tr : History T n) : List (JobContext T) :=
  tr.flatMap fun e => e.2.cancelledOn w

/-- The jobs the thread of worker `w` has finished, in order. -/
def endedOn (w : Fin n) (tr : History T n) : List (JobContext T) :=
  tr.flatMap fun e => e.2.endedOn w

theorem mem_snoc {tr : History T n} {t u : Tid n} {a b : Action T n} :
    (t, a) ∈ tr ++ [(u, b)] ↔ (t, a) ∈ tr ∨ t = u ∧ b = a := by
  simp [eq_comm]

theorem pushedOn_snoc (w : Fin n) (tr : History T n) (t : Tid n) (a : Action T n) :
    pushedOn w (tr ++ [(t, a)]) = pushedOn w tr ++ a.pushedOn w := by
  simp [pushedOn]

theorem dequeuedOn_snoc (w : Fin n) (tr : History T n) (t : Tid n) (a : Action T n) :
    dequeuedOn w (tr ++ [(t, a)]) = dequeuedOn w tr ++ a.dequeuedOn w := by
  simp [dequeuedOn]

theorem cancelledOn_snoc (w : Fin n) (tr : History T n) (t : Tid n) (a : Action T n) :
    cancelledOn w (tr ++ [(t, a)]) = cancelledOn w tr ++ a.cancelledOn w := by
  simp [cancelledOn]

theorem endedOn_snoc (w : Fin n) (tr : History T n) (t : Tid n) (a : Action T n) :
    endedOn w (tr ++ [(t, a)]) = endedOn w tr ++ a.endedOn w := by
  simp [endedOn]

theorem pushedOn_append (w : Fin n) (l r : History T n) :
    pushedOn w (l ++ r) = pushedOn w l ++ pushedOn w r := List.flatMap_append

theorem dequeuedOn_append (w : Fin n) (l r : History T n) :
    dequeuedOn w (l ++ r) = dequeuedOn w l ++ dequeuedOn w r := List.flatMap_append

theorem cancelledOn_append (w : Fin n) (l r : History T n) :
    cancelledOn w (l ++ r) = cancelledOn w l ++ cancelledOn w r := List.flatMap_append

theorem mem_pushedOn {w : Fin n} {tr : History T n} {j : JobContext T} :
    j ∈ pushedOn w tr ↔ ∃ t strand, (t, Action.pushed w j strand) ∈ tr := by
  simp only [pushedOn, List.mem_flatMap, Prod.exists]
  constructor
  · intro h
    obtain ⟨t, a, hmem, hj⟩ := h
    cases a <;> simp only [Action.pushedOn, List.not_mem_nil] at hj
    split at hj
    · rename_i h
      obtain rfl := List.mem_singleton.mp hj
      exact ⟨t, _, h ▸ hmem⟩
    · simp at hj
  · intro h
    obtain ⟨t, strand, hmem⟩ := h
    exact ⟨t, _, hmem, by simp [Action.pushedOn]⟩

theorem mem_endedOn {w : Fin n} {tr : History T n} {t : Tid n} {j : JobContext T}
    (h : (t, Action.ended w j) ∈ tr) : j ∈ endedOn w tr :=
  List.mem_flatMap.mpr ⟨_, h, by simp⟩

/-- What an action may rely on: a job is new when it is pushed, first when it is dequeued, and
a cancel removes what it found. -/
theorem Moves.queue_guard {s : Sys T n} {t : Tid n} {i : Choice T n} {mv : Move T n}
    (h : Moves s t i mv) :
    match mv.action with
    | .pushed _ j _ => j.serial = s.mem.fresh
    | .dequeued w j => ∃ left, (s.worker w).calls = j :: left
    | .cancelled w _ js => js = (s.worker w).calls
    | _ => True := by
  cases h <;> first | trivial | rfl | exact ⟨_, ‹_›⟩

/-- Only the locked section of `doJob` pushes. -/
theorem Moves.pushed_inv {s : Sys T n} {t : Tid n} {i : Choice T n} {mv : Move T n}
    (h : Moves s t i mv) {w : Fin n} {j : JobContext T} {strand : String}
    (ha : mv.action = .pushed w j strand) :
    ∃ rest, s.stack t = .push w j.id j.action j.onDone strand :: rest ∧
      (s.worker w).queueLock = none ∧ mv.frames = [.notify w] := by
  cases h <;> cases ha
  exact ⟨_, ‹_›, ‹_›, rfl⟩

/-- A cancel erases the queue once its scan is through. -/
theorem Moves.cancelled_inv {s : Sys T n} {t : Tid n} {i : Choice T n} {mv : Move T n}
    (h : Moves s t i mv) {w : Fin n} {id : String} {js : List (JobContext T)}
    (ha : mv.action = .cancelled w id js) :
    (∃ rest, s.stack t = .cancelScan id w [] :: rest) ∧ mv.pc = none := by
  cases h <;> cases ha
  exact ⟨⟨_, ‹_›⟩, rfl⟩

/-- The steps by which the thread of worker `w` takes a job and runs it. -/
def Action.runsOn (w : Fin n) : Action T n → Bool
  | .dequeued v _ | .actionBegan v _ | .actionEnded v _ | .onDoneBegan v _
  | .onDoneEnded v _ => v = w
  | _ => false

/-- The job a worker's thread has dequeued and not finished. -/
def WorkerPc.current : WorkerPc T → List (JobContext T)
  | .acquire j | .action j | .inAction j | .onDone j | .inOnDone j | .finish j => [j]
  | _ => []

/-- A thread is the one of worker `w` in its run loop, or any other or inside some function. -/
theorem Sys.at_loop (s : Sys T n) (t : Tid n) (w : Fin n) :
    (t = .worker w → s.stack t ≠ []) ∨ t = .worker w ∧ s.stack t = [] := by
  by_cases hw : t = .worker w → s.stack t ≠ []
  · exact .inl hw
  · simp only [ne_eq, Classical.not_imp, not_not] at hw
    exact .inr hw

/-- Only the run loop of worker `w` moves its program counter and takes job steps on it. -/
theorem Moves.pc_frame {s : Sys T n} {t : Tid n} {i : Choice T n} {mv : Move T n}
    (h : Moves s t i mv) (w : Fin n) (hw : t = .worker w → s.stack t ≠ []) :
    s.setPc t mv.pc w = s.pc w ∧ mv.action.dequeuedOn w = [] ∧ mv.action.runsOn w = false := by
  cases h
  case enterLoop v ht hs _ _ | leave v ht hs _ _ | dequeue v _ _ ht hs _ _ _
      | sleep v ht hs _ _ _ _ | pass v ht hs _ _ _ | «begin» v _ ht hs _ _
      | beginAction v _ _ ht hs _ _ | endAction v _ ht hs _ _ _ | beginOnDone v _ _ ht hs _ _
      | noOnDone v _ ht hs _ _ | endOnDone v _ ht hs _ | finish v _ ht hs _ =>
    have hv : w ≠ v := fun h => hw (h ▸ ht) hs
    subst ht
    simp [hv, Ne.symm hv, Action.runsOn]
  all_goals exact ⟨by rw [Sys.setPc_none], rfl, rfl⟩

/-- A step moves a job from the hands of the worker to the finished ones, or a new one into its
hands. -/
theorem Moves.hands_step {s : Sys T n} {t : Tid n} {i : Choice T n} {mv : Move T n}
    (hm : Moves s t i mv) (w : Fin n) :
    (s.pc w).current ++ mv.action.dequeuedOn w =
      mv.action.endedOn w ++ (s.setPc t mv.pc w).current := by
  rcases s.at_loop t w with hw | ⟨rfl, hs⟩
  · obtain ⟨hpc, hd, -⟩ := hm.pc_frame w hw
    have he : mv.action.endedOn w = [] := by
      cases hm
      case finish v j ht hs' _ =>
        have hv : w ≠ v := fun h => hw (h ▸ ht) hs'
        simp [hv]
      all_goals rfl
    rw [hpc, hd, he, List.append_nil, List.nil_append]
  · cases hm
    case dequeue v j left ht _ hp _ _ =>
      obtain rfl := Tid.worker.inj ht
      rcases hp with hp | hp | hp <;> simp [hp, WorkerPc.current]
    case sleep v ht _ hp _ _ _ =>
      obtain rfl := Tid.worker.inj ht
      rcases hp with hp | hp <;> simp [hp, WorkerPc.current]
    case pass v ht _ hp _ _ =>
      obtain rfl := Tid.worker.inj ht
      rcases hp with hp | ⟨hp | hp, -⟩ <;> simp [hp, WorkerPc.current]
    case enterLoop v ht _ hp _ | leave v ht _ hp _ | «begin» v _ ht _ hp _
        | beginAction v _ _ ht _ hp _ | endAction v _ ht _ hp _ _ | beginOnDone v _ _ ht _ hp _
        | noOnDone v _ ht _ hp _ | endOnDone v _ ht _ hp | finish v _ ht _ hp =>
      obtain rfl := Tid.worker.inj ht
      simp [hp, WorkerPc.current]
    all_goals simp_all

/-- Only a worker's own thread ends its jobs. -/
theorem Moves.endedOn_inv {s : Sys T n} {t : Tid n} {i : Choice T n} {mv : Move T n}
    (hm : Moves s t i mv) {w : Fin n} {j : JobContext T} (hj : j ∈ mv.action.endedOn w) :
    t = .worker w ∧ mv.action = .ended w j := by
  cases hm
  case finish v j' ht _ _ =>
    obtain ⟨rfl, rfl⟩ : w = v ∧ j = j' := by
      by_cases hv : w = v <;> simp_all
    exact ⟨ht, rfl⟩
  all_goals exact absurd hj List.not_mem_nil

/-- The job a worker runs after a step it ran before or had in its queue. -/
theorem Moves.current_step {s : Sys T n} {t : Tid n} {i : Choice T n} {mv : Move T n}
    (hm : Moves s t i mv) {w : Fin n} {j : JobContext T}
    (hj : j ∈ ((s.apply t mv).pc w).current) :
    j ∈ (s.pc w).current ∨ j ∈ (s.worker w).calls := by
  have hmem : j ∈ (s.pc w).current ++ mv.action.dequeuedOn w := by
    rw [hm.hands_step, ← Sys.apply_pc]
    exact List.mem_append_right _ hj
  rcases List.mem_append.mp hmem with hold | hnew
  · exact .inl hold
  · have hg := hm.queue_guard
    cases ha : mv.action with
    | dequeued v j' =>
      rw [ha] at hg hnew
      obtain ⟨left, hc⟩ := hg
      obtain ⟨rfl, rfl⟩ : w = v ∧ j = j' := by
        by_cases hv : w = v <;> simp_all
      exact .inr (hc ▸ List.mem_cons_self)
    | _ =>
      rw [ha] at hnew
      exact absurd hnew List.not_mem_nil

/-- A job in a queue after a step was there before or was pushed by it. -/
theorem Sys.mem_apply_calls {s : Sys T n} {t : Tid n} {mv : Move T n} {w : Fin n}
    {j : JobContext T} (hj : j ∈ ((s.apply t mv).worker w).calls) :
    j ∈ (s.worker w).calls ∨ ∃ strand, mv.action = .pushed w j strand := by
  rw [Sys.apply_calls] at hj
  cases ha : mv.action with
  | pushed v j' strand =>
    by_cases hw : w = v
    · subst hw
      have hj' : j ∈ (s.worker w).calls ∨ j = j' := by simpa [ha] using hj
      rcases hj' with hj' | rfl
      · exact .inl hj'
      · exact .inr ⟨strand, rfl⟩
    · exact .inl (by simpa [ha, hw] using hj)
  | dequeued v j' =>
    by_cases hw : w = v
    · exact .inl (List.mem_of_mem_tail (by simpa [ha, hw] using hj))
    · exact .inl (by simpa [ha, hw] using hj)
  | cancelled v id js =>
    by_cases hw : w = v
    · simp [ha, hw, AsyncWorker.removeIf, AsyncWorker.cancelPredicate] at hj
    · exact .inl (by simpa [ha, hw] using hj)
  | _ => exact .inl (by simpa [ha] using hj)

end ServiceLib
