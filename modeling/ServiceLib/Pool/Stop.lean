import ServiceLib.Pool.Drain

namespace ServiceLib

open Machine

variable {T : ArgTypes} {n : Nat} {tr : History T n} {s : Sys T n} {t : Tid n} {i : Choice T n}
  {mv : Move T n}

def Action.callsStop : Action T n → Bool
  | .called .stop => true
  | _ => false

def stopCalled (tr : History T n) : Bool := tr.any fun e => e.2.callsStop

/-- Clients schedule before the one call of `stop`; after it only running jobs do, without
waiting. -/
def StopsLast (tr : History T n) : Tid n × Choice T n → Bool
  | (.client _, .call (.scheduleJob _ _ _ _ _)) => !stopCalled tr
  | (.worker _, .call (.scheduleJob _ _ _ wait _)) => !stopCalled tr || !wait
  | (_, .call .stop) => !stopCalled tr
  | (_, .call (.cancelJobsFor _)) => true
  | (_, .call _) => false
  | _ => true

abbrev StopOk (tr : History T n) (s : Sys T n) (i : Tid n × Choice T n) : Bool :=
  StopsLast tr i && LandsAlive (fun _ => true) s i.1

/-- The frames of a `stop` in progress. -/
def Frame.stopping : Frame T n → Bool
  | .stopLoop _ | .stopCheck _ | .stopPoll _ | .stopJoin _ => true
  | _ => false

/-- The frames of a thread inside `stop`: so many workers are joined, and the next one is told to
leave or not yet. -/
inductive StopTop : Nat → Bool → List (Frame T n) → Prop
  | loop (k : Nat) : StopTop k false [.stopLoop k]
  | check (w : Fin n) : StopTop w false [.stopCheck w, .stopLoop (w + 1)]
  | poll (w : Fin n) : StopTop w false [.stopPoll w, .stopLoop (w + 1)]
  | join (w : Fin n) : StopTop w true [.stopJoin w, .stopLoop (w + 1)]

theorem StopTop.head {k : Nat} {told : Bool} {top : List (Frame T n)} (h : StopTop k told top) :
    ∃ f l, top = f :: l ∧ f.stopping = true := by
  cases h <;> exact ⟨_, _, rfl, rfl⟩

/-- How far the one call of `stop` has come. -/
inductive StopPhase (tr : History T n) (s : Sys T n) : Prop
  | before (htr : stopCalled tr = false) (hf : ∀ t, ∀ f ∈ s.stack t, f.stopping = false)
      (ha : ∀ w, (s.worker w).active = true)
  | during (htr : stopCalled tr = true) (t : Tid n) (k : Nat) (told : Bool)
      (top rest : List (Frame T n)) (htop : StopTop k told top) (hs : s.stack t = top ++ rest)
      (hrest : ∀ f ∈ rest, f.stopping = false)
      (hf : ∀ u, u ≠ t → ∀ f ∈ s.stack u, f.stopping = false)
      (hjoined : ∀ w : Fin n, w < k → s.pc w = .exited)
      (ha : ∀ w : Fin n, k < w ∨ w = k ∧ told = false → (s.worker w).active = true)
  | after (htr : stopCalled tr = true) (hf : ∀ t, ∀ f ∈ s.stack t, f.stopping = false)
      (hjoined : ∀ w, s.pc w = .exited)

/-- Outside `stop` nothing of it happens. -/
theorem Moves.outside_stop (hm : Moves s t i mv) (hf : ∀ f ∈ s.stack t, f.stopping = false)
    (hop : ∀ op, i = .call op → op.enter.stopping = false) :
    (∀ f ∈ mv.frames, f.stopping = false) ∧ (∀ w b, mv.action.onActive w b = b) ∧
      mv.action ≠ .stopped := by
  cases hm
  case call op _ _ _ =>
    exact ⟨List.forall_mem_singleton.mpr (hop op rfl), by simp, by simp⟩
  case callBack op _ _ =>
    refine ⟨List.forall_mem_cons.mpr ⟨hop op rfl, ?_⟩, by simp, by simp⟩
    simp [Frame.stopping]
  case stopNext hs _ | stopEnd hs _ | stopSkip hs _ | stopCheck hs _ | stopWait hs _ _
      | deactivate hs _ _ | join hs _ =>
    have h := hf _ (hs ▸ List.mem_cons_self)
    simp [Frame.stopping] at h
  case scanPlace | bindStrand =>
    refine ⟨?_, by simp, by simp⟩
    unfold Sys.place
    split <;> exact Frame.forall_not rfl
  all_goals exact ⟨Frame.forall_not rfl, fun _ _ => rfl, fun ha => by cases ha⟩

theorem Moves.called_inv (hm : Moves s t i mv) {op : Op T n} (ha : mv.action = .called op) :
    i = .call op := by
  cases hm <;> cases ha <;> rfl

theorem stopCalled_snoc (tr : History T n) (t : Tid n) (a : Action T n) :
    stopCalled (tr ++ [(t, a)]) = (stopCalled tr || a.callsStop) := by
  simp [stopCalled]

theorem StopsLast.enter (h : StopsLast tr (t, i) = true) (hstop : i = .call .stop → False)
    {op : Op T n} (hi : i = .call op) : op.enter.stopping = false := by
  subst hi
  cases op
  case stop => exact absurd rfl hstop
  case stopWorker w => cases t <;> simp [StopsLast] at h
  all_goals rfl

/-- A step that is not the call of `stop` leaves the trace's answer as it was. -/
theorem Moves.stopCalled_same (hm : Moves s t i mv) (hstop : i = .call .stop → False) :
    stopCalled (tr ++ [(t, mv.action)]) = stopCalled tr := by
  rw [stopCalled_snoc]
  cases ha : mv.action with
  | called op =>
    cases op with
    | stop => exact absurd (hm.called_inv ha) hstop
    | _ => simp [Action.callsStop]
  | _ => simp [Action.callsStop]

/-- Frames outside `stop` stay outside when a thread outside `stop` moves. -/
theorem Sys.stacks_outside (hframes : ∀ f ∈ mv.frames, f.stopping = false) {u : Tid n}
    (hf : ∀ f ∈ s.stack u, f.stopping = false) :
    ∀ f ∈ (s.apply t mv).stack u, f.stopping = false := by
  intro f h
  rcases Sys.mem_apply_stack h with ⟨-, hnew⟩ | hold
  · exact hframes f hnew
  · exact hf f hold

theorem Sys.active_same (hact : ∀ w b, mv.action.onActive w b = b) (w : Fin n) :
    ((s.apply t mv).worker w).active = (s.worker w).active := by
  rw [Sys.apply_active, hact]

/-- The call of `stop` itself. -/
theorem StopPhase.called (hm : Moves s t (.call .stop) mv)
    (hf : ∀ t, ∀ f ∈ s.stack t, f.stopping = false) (ha : ∀ w, (s.worker w).active = true) :
    StopPhase (tr ++ [(t, mv.action)]) (s.apply t mv) := by
  have hframes : ∃ l : List (Frame T n), mv.frames = .stopLoop 0 :: l ∧
      (∀ f ∈ l, f.stopping = false) ∧ mv.action = .called .stop := by
    cases hm
    · exact ⟨[], rfl, by simp, rfl⟩
    · exact ⟨[.user], rfl, by simp [Frame.stopping], rfl⟩
  obtain ⟨l, hl, hrest, hact⟩ := hframes
  have htr : stopCalled (tr ++ [(t, mv.action)]) = true := by
    rw [stopCalled_snoc, hact]
    simp [Action.callsStop]
  refine .during htr t 0 false _ (l ++ (s.stack t).tail) (.loop 0) ?_ ?_ ?_ ?_ ?_
  · rw [Sys.apply_stack_self, hl]
    rfl
  · intro f h
    rcases List.mem_append.mp h with h | h
    · exact hrest f h
    · exact hf t f (List.mem_of_mem_tail h)
  · intro u hu f h
    rw [Sys.apply_stack_other _ hu] at h
    exact hf u f h
  · intro w hw
    exact absurd hw (Nat.not_lt_zero _)
  · intro w _
    rw [Sys.apply_active, hact]
    exact ha w

/-- A step of a thread that is not inside `stop`. -/
theorem StopPhase.step_outside (h : StopPhase tr s) (hm : Moves s t i mv)
    (hok : StopsLast tr (t, i) = true) (hf : ∀ f ∈ s.stack t, f.stopping = false) :
    StopPhase (tr ++ [(t, mv.action)]) (s.apply t mv) := by
  by_cases hstop : i = .call .stop
  · subst hstop
    have hno : stopCalled tr = false := by
      cases t <;> simpa [StopsLast] using hok
    cases h with
    | before _ hf ha => exact .called hm hf ha
    | during htr => simp [hno] at htr
    | after htr => simp [hno] at htr
  · obtain ⟨hframes, hact, -⟩ := hm.outside_stop hf fun op hi => StopsLast.enter hok hstop hi
    have htr' : stopCalled (tr ++ [(t, mv.action)]) = stopCalled tr := hm.stopCalled_same hstop
    have hstacks := fun u (hu : ∀ f ∈ s.stack u, f.stopping = false) =>
      Sys.stacks_outside (t := t) hframes hu
    have hexit := fun w (hw : s.pc w = .exited) => hm.exited_stays hw
    cases h with
    | before htr hall ha =>
      exact .before (htr' ▸ htr) (fun u => hstacks u (hall u)) fun w =>
        (Sys.active_same hact w).trans (ha w)
    | during htr u k told top rest htop hs hrest hothers hj ha =>
      have hu : u ≠ t := by
        intro heq
        subst heq
        obtain ⟨f, l, rfl, hstopping⟩ := htop.head
        have hf' := hf f (by simp [hs])
        simp [hstopping] at hf'
      refine .during (htr' ▸ htr) u k told top rest htop ?_ hrest ?_ ?_ ?_
      · rw [Sys.apply_stack_other _ hu, hs]
      · exact fun v hv => hstacks v (hothers v hv)
      · exact fun w hw => hexit w (hj w hw)
      · exact fun w hw => (Sys.active_same hact w).trans (ha w hw)
    | after htr hall hj =>
      exact .after (htr' ▸ htr) (fun u => hstacks u (hall u)) fun w => hexit w (hj w)

/-- The thread inside `stop` goes on there. -/
theorem StopTop.next {k : Nat} {told : Bool} {top rest : List (Frame T n)}
    (htop : StopTop k told top) (hm : Moves s t i mv) (hs : s.stack t = top ++ rest)
    (hjoined : ∀ w : Fin n, w < k → s.pc w = .exited)
    (ha : ∀ w : Fin n, k < w ∨ w = k ∧ told = false → (s.worker w).active = true) :
    mv.pc = none ∧ mv.action.callsStop = false ∧
      ((∃ k' told' top', mv.action ≠ .stopped ∧ StopTop k' told' top' ∧
        mv.frames ++ (s.stack t).tail = top' ++ rest ∧ (∀ w : Fin n, w < k' → s.pc w = .exited) ∧
        ∀ w : Fin n, k' < w ∨ w = k' ∧ told' = false →
          mv.action.onActive w (s.worker w).active = true) ∨
      (mv.frames ++ (s.stack t).tail = rest ∧ n ≤ k ∧ mv.action = .stopped)) := by
  have hn := hm.next_eq
  cases htop with
  | loop k =>
    have hstep := Sys.next_frame hn hs (by simp)
    simp only [Sys.frameNext, Sys.stopLoopNext, Option.some.injEq] at hstep
    split at hstep
    · rename_i hk
      subst hstep
      exact ⟨rfl, rfl, .inl ⟨k, false, _, by simp, .check ⟨k, hk⟩, by simp [hs], hjoined, ha⟩⟩
    · rename_i hk
      subst hstep
      exact ⟨rfl, rfl, .inr ⟨by simp [hs], by omega, rfl⟩⟩
  | check w =>
    have hstep := Sys.next_frame hn hs (by simp)
    have hact : (s.worker w).active = true := ha w (.inr ⟨rfl, rfl⟩)
    simp only [Sys.frameNext, Sys.stopCheckNext, hact, if_true, Option.some.injEq] at hstep
    subst hstep
    exact ⟨rfl, rfl, .inl ⟨w, false, _, by simp, .poll w, by simp [hs], hjoined, ha⟩⟩
  | poll w =>
    have hstep := Sys.next_frame hn hs (by simp)
    simp only [Sys.frameNext, Sys.stopPollNext] at hstep
    split at hstep
    · split at hstep
      · obtain rfl := Option.some.inj hstep
        refine ⟨rfl, rfl, .inl ⟨w, true, _, by simp, .join w, by simp [hs], hjoined, ?_⟩⟩
        intro v hv
        have hlt : (w : Nat) < v := by simpa using hv
        have hne : v ≠ w := by
          intro heq
          subst heq
          omega
        simpa [hne] using ha v (.inl hlt)
      · obtain rfl := Option.some.inj hstep
        exact ⟨rfl, rfl, .inl ⟨w, false, _, by simp, .poll w, by simp [hs], hjoined, ha⟩⟩
    · cases hstep
  | join w =>
    have hstep := Sys.next_frame hn hs (by simp)
    simp only [Sys.frameNext, Sys.stopJoinNext] at hstep
    split at hstep
    · rename_i hpc
      obtain rfl := Option.some.inj hstep
      refine ⟨rfl, rfl, .inl ⟨w + 1, false, _, by simp, .loop (w + 1), by simp [hs], fun v hv => ?_,
        fun v hv => ?_⟩⟩
      · by_cases hvw : v = w
        · exact hvw ▸ hpc
        · have hne : (v : Nat) ≠ w := fun h => hvw (Fin.ext h)
          exact hjoined v (by omega)
      · exact ha v (.inl (by omega))
    · cases hstep

/-- The thread with a frame of `stop` is the one inside it. -/
theorem StopPhase.inside (h : StopPhase tr s) (hf : ¬∀ f ∈ s.stack t, f.stopping = false) :
    stopCalled tr = true ∧ ∃ k told top rest, StopTop k told top ∧ s.stack t = top ++ rest ∧
      (∀ f ∈ rest, f.stopping = false) ∧
      (∀ u, u ≠ t → ∀ f ∈ s.stack u, f.stopping = false) ∧
      (∀ w : Fin n, w < k → s.pc w = .exited) ∧
      ∀ w : Fin n, k < w ∨ w = k ∧ told = false → (s.worker w).active = true := by
  cases h with
  | before _ hall _ => exact absurd (hall t) hf
  | after _ hall _ => exact absurd (hall t) hf
  | during htr u k told top rest htop hs hrest hothers hj ha =>
    have htu : t = u := by
      by_contra hne
      exact hf (hothers t hne)
    subst htu
    exact ⟨htr, k, told, top, rest, htop, hs, hrest, hothers, hj, ha⟩

theorem StopPhase.step (h : StopPhase tr s) (hm : Moves s t i mv)
    (hok : StopsLast tr (t, i) = true) : StopPhase (tr ++ [(t, mv.action)]) (s.apply t mv) := by
  by_cases hf : ∀ f ∈ s.stack t, f.stopping = false
  · exact h.step_outside hm hok hf
  obtain ⟨htr, k, told, top, rest, htop, hs, hrest, hothers, hj, ha⟩ := h.inside hf
  obtain ⟨hpc, hcall, hnext⟩ := htop.next hm hs hj ha
  have hpcs (w : Fin n) : (s.apply t mv).pc w = s.pc w := by
    rw [Sys.apply_pc, hpc, Sys.setPc_none]
  have htr' : stopCalled (tr ++ [(t, mv.action)]) = true := by
    rw [stopCalled_snoc, htr, Bool.true_or]
  have hothers' : ∀ v, v ≠ t → ∀ f ∈ (s.apply t mv).stack v, f.stopping = false := by
    intro v hv f hmem
    rw [Sys.apply_stack_other _ hv] at hmem
    exact hothers v hv f hmem
  rcases hnext with ⟨k', told', top', -, htop', hs', hj', ha'⟩ | ⟨hs', hk, -⟩
  · refine .during htr' t k' told' top' rest htop' ?_ hrest hothers' ?_ ?_
    · rw [Sys.apply_stack_self, hs']
    · exact fun w hw => (hpcs w).trans (hj' w hw)
    · exact fun w hw => (Sys.apply_active ..).trans (ha' w hw)
  · refine .after htr' ?_ fun w => (hpcs w).trans (hj w (by omega))
    intro v
    by_cases hv : v = t
    · subst hv
      rw [Sys.apply_stack_self, hs']
      exact hrest
    · exact hothers' v hv

/-- When `stop` returns every worker has left its loop. -/
theorem StopPhase.joined (h : StopPhase tr s) (hm : Moves s t i mv)
    (hok : StopsLast tr (t, i) = true) (hstopped : mv.action = .stopped) (w : Fin n) :
    s.pc w = .exited := by
  have hcall : i = .call .stop → False := by
    intro heq
    subst heq
    cases hm <;> cases hstopped
  have hf : ¬∀ f ∈ s.stack t, f.stopping = false := fun hf =>
    (hm.outside_stop hf fun op hi => StopsLast.enter hok hcall hi).2.2 hstopped
  obtain ⟨-, k, told, top, rest, htop, hs, -, -, hj, ha⟩ := h.inside hf
  obtain ⟨-, -, ⟨_, _, _, hne, -⟩ | ⟨-, hk, -⟩⟩ := htop.next hm hs hj ha
  · exact absurd hstopped hne
  · have hw := w.isLt
    exact hj w (by omega)

theorem stopInv (h : (pool T n).Run (fun tr s i => StopOk tr s i) tr s) :
    StopPhase tr s ∧ Drained (fun _ => true) s := by
  refine pool_invariant (J := fun tr s => StopPhase tr s ∧ Drained (fun _ => true) s)
    ⟨?_, ?_⟩ ?_ h
  · exact .before rfl (fun t f hf => absurd hf List.not_mem_nil) fun w => rfl
  · exact .init
  · intro tr s t i mv _ hinv hok hm
    simp only [StopOk, Bool.and_eq_true] at hok
    exact ⟨hinv.1.step hm hok.1, hinv.2.step hm hok.2⟩

/-- `stop` returns with every job settled, if no job lands on a worker already past its last look
at the queue. -/
theorem stop_settles (h : (pool T n).Run (fun tr s i => StopOk tr s i) tr s) {p q : History T n}
    {t : Tid n} (htr : tr = p ++ (t, .stopped) :: q) {w : Fin n} {j : JobContext T}
    (hj : j ∈ pushedOn w p) : Settled w j p := by
  obtain ⟨s₀, i, mv, h₀, hok, hm, ha⟩ := pool_at_label h htr
  simp only [StopOk, Bool.and_eq_true] at hok
  obtain ⟨hphase, hdrained⟩ := stopInv h₀
  have hexit : s₀.pc w = .exited := hphase.joined hm hok.1 ha w
  have hempty : j ∉ (s₀.worker w).calls := by
    intro hmem
    have hleaving : (s₀.pc w).leaving = true := by rw [hexit]; rfl
    simpa using hdrained.empty w (hdrained.inactive w hexit) hleaving j hmem
  exact settled_exited h₀ hexit (taken_or_removed h₀ hj hempty)

/-- The calls of one thread that schedule a job on the less loaded of two workers. -/
def scheduleOn (t : Tid 2) (f : ClientFn) : List (Tid 2 × Choice .unit 2) :=
  t.calls (.scheduleJob "a" (some f) none false "") 7

/-- Both workers run a job when `stop` begins, and the job on the worker it waits for schedules one
more there. -/
def stopRun : History .unit 2 × Sys .unit 2 :=
  let c := Tid.client 0
  let w := Tid.worker worker₀
  let v := Tid.worker worker₁
  (pool .unit 2).drive StopOk
    (scheduleOn c 0 ++ scheduleOn c 1 ++ w.steps 5 ++ v.steps 5 ++ c.calls .stop 3 ++
      scheduleOn w 2 ++ w.returns 7 ++ w.returns 5 ++ c.steps 4 ++ v.returns 5 ++ c.steps 2)

theorem stop_settles_stopRun : ∃ p, stopRun.1 = p ++ [(.client 0, .stopped)] ∧
    Settled 0 ⟨some (.client 2), none, "a", 2⟩ p ∧
    Settled 1 ⟨some (.client 1), none, "a", 1⟩ p := by
  have h : (pool .unit 2).Run (fun tr s i => StopOk tr s i) stopRun.1 stopRun.2 :=
    run_drive (fun _ _ _ hok => hok) _
  have hstop : stopRun.1 = stopRun.1.dropLast ++ (.client 0, .stopped) :: [] := rfl
  have h₀ : (⟨some (.client 2), none, "a", 2⟩ : JobContext .unit) ∈
      pushedOn 0 stopRun.1.dropLast := List.mem_cons_of_mem _ (List.mem_singleton.mpr rfl)
  have h₁ : (⟨some (.client 1), none, "a", 1⟩ : JobContext .unit) ∈
      pushedOn 1 stopRun.1.dropLast := List.mem_singleton.mpr rfl
  exact ⟨_, hstop, stop_settles h hstop h₀, stop_settles h hstop h₁⟩

/-- `stop` drains and joins worker 0; then the job running on worker 1 schedules one more job, and
the choice falls on worker 0. -/
def lateJobRun : History .unit 2 × Sys .unit 2 :=
  let c := Tid.client 0
  let w := Tid.worker worker₀
  let v := Tid.worker worker₁
  (pool .unit 2).drive (fun tr _ i => StopsLast tr i)
    (scheduleOn c 0 ++ scheduleOn c 1 ++ w.steps 5 ++ v.steps 5 ++ w.returns 4 ++
      c.calls .stop 3 ++ w.steps 1 ++ c.steps 4 ++ scheduleOn v 2 ++ v.returns 4 ++ v.steps 1 ++
      c.steps 2)

/-- The late job is accepted and never runs. -/
theorem stop_loses_late_job :
    ¬∀ (tr : History .unit 2) (s : Sys .unit 2),
      (pool .unit 2).Run (fun tr _ i => StopsLast tr i) tr s → ∀ p q t,
        tr = p ++ (t, .stopped) :: q → ∀ w, ∀ j ∈ pushedOn w p, Settled w j p := by
  intro hclaim
  have h : (pool .unit 2).Run (fun tr _ i => StopsLast tr i) lateJobRun.1 lateJobRun.2 :=
    run_drive (fun _ _ _ hok => hok) _
  have hstop : lateJobRun.1 = lateJobRun.1.dropLast ++ (.client 0, .stopped) :: [] := rfl
  have hj : (⟨some (.client 2), none, "a", 2⟩ : JobContext .unit) ∈
      pushedOn 0 lateJobRun.1.dropLast := List.mem_cons_of_mem _ (List.mem_singleton.mpr rfl)
  have hcancelled : cancelledOn 0 lateJobRun.1.dropLast = [] := rfl
  have hended : (lateJobRun.1.dropLast.filterMap fun e =>
      match e.2 with
      | .actionEnded _ j => some j.serial
      | _ => none) = [0, 1] := rfl
  rcases hclaim _ _ h _ _ _ hstop 0 _ hj with hc | hran
  · rw [hcancelled] at hc
    exact absurd hc List.not_mem_nil
  · have hmem : 2 ∈ [0, 1] := hended ▸ List.mem_filterMap.mpr ⟨_, hran.ended, rfl⟩
    exact absurd hmem (by decide)

end ServiceLib
