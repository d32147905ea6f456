import ServiceLib.Pool.Leaving
import ServiceLib.Pool.Strand

namespace ServiceLib

open Machine

variable {T : ArgTypes} {n : Nat} {ok : History T n → Sys T n → Tid n × Choice T n → Prop}
  {tr p q : History T n} {s : Sys T n} {t u : Tid n} {i : Choice T n} {mv : Move T n} {w : Fin n}

/-- The thread is inside the action or the `onDone` of a job. -/
def WorkerPc.inCallback : WorkerPc T → Bool
  | .inAction _ | .inOnDone _ => true
  | _ => false

theorem Moves.enters_callback (hm : Moves s (.worker w) i mv) (hs : s.stack (.worker w) = []) :
    mv.frames = [] ∨ (s.setPc (.worker w) mv.pc w).inCallback = true := by
  cases hm
  case beginAction v j c ht _ _ _ | beginOnDone v j c ht _ _ _ =>
    obtain rfl := Tid.worker.inj ht
    exact .inr (by simp [WorkerPc.inCallback])
  all_goals first | exact .inl rfl | simp_all

/-- A worker's thread calls functions only from inside its jobs. -/
theorem stack_worker (h : (pool T n).Run ok tr s) (w : Fin n) :
    s.stack (.worker w) = [] ∨ (s.pc w).inCallback = true := by
  refine pool_invariant (J := fun _ s => s.stack (.worker w) = [] ∨ (s.pc w).inCallback = true)
    (.inl rfl) ?_ h
  intro tr s t i mv _ ih _ hm
  rw [Sys.apply_pc]
  rcases s.at_loop t w with hw | ⟨rfl, hs⟩
  · rw [(hm.pc_frame w hw).1]
    by_cases ht : t = .worker w
    · exact .inr (ih.resolve_left (ht ▸ hw ht))
    · rwa [Sys.apply_stack_other _ (Ne.symm ht)]
  · rw [Sys.apply_stack_self, hs, List.tail_nil, List.append_nil]
    exact hm.enters_callback hs

theorem stack_leaving (h : (pool T n).Run ok tr s) (hp : (s.pc w).leaving = true) :
    s.stack (.worker w) = [] := by
  refine (stack_worker h w).resolve_right fun hc => ?_
  cases hpc : s.pc w <;> simp [hpc, WorkerPc.leaving, WorkerPc.inCallback] at hp hc

/-- A worker that leaves was past its last look at the queue before, or found it empty just now. -/
theorem Moves.leaving_step (hm : Moves s t i mv) (hp : ((s.apply t mv).pc w).leaving = true) :
    (s.pc w).leaving = true ∨ ((s.apply t mv).worker w).calls = [] := by
  rw [Sys.apply_pc] at hp
  rcases s.at_loop t w with hw | ⟨rfl, hs⟩
  · exact .inl ((hm.pc_frame w hw).1 ▸ hp)
  · cases hm
    case leave v ht _ hpc _ =>
      obtain rfl := Tid.worker.inj ht
      exact .inl (by rw [hpc]; rfl)
    case pass v ht _ _ _ hc =>
      obtain rfl := Tid.worker.inj ht
      exact .inr (by simp [Sys.apply_calls, hc])
    all_goals simp_all [WorkerPc.leaving]

/-- A worker that leaves has run all jobs its own jobs have pushed on it. -/
theorem own_taken (h : (pool T n).Run ok tr s) (hp : (s.pc w).leaving = true) {j : JobContext T}
    {strand : String} (hj : (.worker w, .pushed w j strand) ∈ tr) : j ∉ (s.worker w).calls := by
  revert hp hj
  refine pool_invariant (J := fun tr s => (s.pc w).leaving = true →
    (.worker w, .pushed w j strand) ∈ tr → j ∉ (s.worker w).calls) ?_ ?_ h
  · exact fun _ hj => absurd hj List.not_mem_nil
  · intro tr s t i mv hrun ih _ hm hp hj hmem
    rcases mem_snoc.mp hj with hj | ⟨rfl, ha⟩
    · rcases Sys.mem_apply_calls hmem with hold | ⟨strand', ha⟩
      · rcases hm.leaving_step hp with hp | hempty
        · exact ih hp hj hold
        · exact absurd (hempty ▸ hmem) List.not_mem_nil
      · have hserial := hm.queue_guard
        rw [ha] at hserial
        have hbelow := (numbered hrun).below w j (mem_pushedOn.mpr ⟨_, _, hj⟩)
        omega
    · obtain ⟨rest, hs, -⟩ := hm.pushed_inv ha
      have hw : (Tid.worker w : Tid n) = .worker w → s.stack (.worker w) ≠ [] := by simp [hs]
      rw [Sys.apply_pc, (hm.pc_frame w hw).1] at hp
      rw [stack_leaving hrun hp] at hs
      cases hs

/-- A worker that has left its loop has said so. -/
theorem exited_left (h : (pool T n).Run ok tr s) (hp : s.pc w = .exited) :
    (.worker w, .left w) ∈ tr := by
  revert hp
  refine pool_invariant (J := fun tr s => s.pc w = .exited → (.worker w, .left w) ∈ tr) ?_ ?_ h
  · intro hp
    cases hp
  · intro tr s t i mv _ ih _ hm hp
    rcases hm.exits_from_test hp with hp | ⟨rfl, ha, -, -⟩
    · exact List.mem_append_left _ (ih hp)
    · exact mem_snoc.mpr (.inr ⟨rfl, ha⟩)

theorem Moves.joined_inv (hm : Moves s t i mv) (ha : mv.action = .joined w) :
    s.pc w = .exited ∧ mv.pc = none := by
  cases hm <;> cases ha
  exact ⟨‹_›, rfl⟩

/-- The thread of a worker that has left its loop takes no step. -/
theorem Moves.not_exited (hm : Moves s t i mv) (hp : s.pc w = .exited)
    (hs : s.stack (.worker w) = []) : t ≠ .worker w := by
  intro ht
  subst ht
  cases hm <;> simp_all

/-- When a worker has been joined, its thread has left the loop and taken its last step. -/
theorem silent_after_join (h : (pool T n).Run ok tr s) (htr : tr = p ++ (t, .joined w) :: q) :
    ∀ e ∈ q, e.1 ≠ .worker w := by
  intro e he
  obtain ⟨u, a⟩ := e
  obtain ⟨q₁, q₂, rfl⟩ := List.append_of_mem he
  have htr' : tr = (p ++ (t, .joined w) :: q₁) ++ (u, a) :: q₂ := by simpa using htr
  obtain ⟨s₁, i, mv, h₁, -, hm, -⟩ := pool_at_label h htr'
  have hexit : s₁.pc w = .exited := by
    refine pool_since (J := fun _ s => s.pc w = .exited) ?_ ?_ h₁ rfl
    · intro s i mv _ _ hm ha
      obtain ⟨hp, hpc⟩ := hm.joined_inv ha
      rw [Sys.apply_pc, hpc, Sys.setPc_none, hp]
    · intro tr s t i mv _ ih _ hm
      exact hm.exited_stays ih
  exact hm.not_exited hexit (stack_leaving h₁ (by rw [hexit]; rfl))

/-- What a worker that has left its loop has taken or a cancel has removed is settled. -/
theorem settled_exited (h : (pool T n).Run ok tr s) (hp : s.pc w = .exited) {j : JobContext T}
    (hj : j ∈ dequeuedOn w tr ∨ j ∈ cancelledOn w tr) : Settled w j tr := by
  obtain ⟨js, hjs⟩ := executes h w
  rcases hj with hj | hj
  · have htaken : dequeuedOn w tr = js := by
      rw [hjs.1, hp]
      exact List.append_nil js
    exact .inr (hjs.ran h (htaken ▸ hj))
  · exact .inl hj

/-- What was pushed and does not wait is taken or removed. -/
theorem taken_or_removed (h : (pool T n).Run ok tr s) {j : JobContext T} (hj : j ∈ pushedOn w tr)
    (hno : j ∉ (s.worker w).calls) : j ∈ dequeuedOn w tr ∨ j ∈ cancelledOn w tr := by
  obtain ⟨F, hp, htk, hrm, hq⟩ := tracked h w
  rcases F.mem_pushed.mp (hp ▸ hj) with hj | hj | hj
  · exact .inl (htk ▸ hj)
  · exact .inr (hrm ▸ hj)
  · exact absurd (hq ▸ hj) hno

theorem joined_settles (h : (pool T n).Run ok tr s) (hp : s.pc w = .exited) :
    (∀ {l r u}, tr = l ++ (u, .deactivated w) :: r → ∀ j ∈ pushedOn w l, Settled w j tr) ∧
    ∀ j strand, (.worker w, .pushed w j strand) ∈ tr → Settled w j tr := by
  constructor
  · intro l r u htr j hj
    obtain ⟨s₀, i, mv, h₀, -, hm, ha⟩ := pool_at_label h htr
    have hempty := hm.deactivated_inv ha
    have htaken := taken_or_removed h₀ hj (hempty ▸ List.not_mem_nil)
    refine settled_exited h hp ?_
    rw [htr, dequeuedOn_append, cancelledOn_append]
    exact htaken.imp (List.mem_append_left _) (List.mem_append_left _)
  · intro j strand hj
    have hno := own_taken h (by rw [hp]; rfl) hj
    exact settled_exited h hp (taken_or_removed h (mem_pushedOn.mpr ⟨_, _, hj⟩) hno)

theorem inactive_deactivated (h : (pool T n).Run ok tr s) (ha : (s.worker w).active = false) :
    ∃ u, (u, .deactivated w) ∈ tr := by
  revert ha
  refine pool_invariant (J := fun tr s => (s.worker w).active = false →
    ∃ u, (u, .deactivated w) ∈ tr) ?_ ?_ h
  · intro ha
    cases ha
  · intro tr s t i mv _ ih _ _ ha
    rw [Sys.apply_active] at ha
    cases hact : (s.worker w).active with
    | false =>
      obtain ⟨u, hu⟩ := ih hact
      exact ⟨u, List.mem_append_left _ hu⟩
    | true => exact ⟨t, mem_snoc.mpr (.inr ⟨rfl, Action.eq_deactivated (hact ▸ ha)⟩)⟩

theorem exited_inactive (h : (pool T n).Run ok tr s) (hp : s.pc w = .exited) :
    (s.worker w).active = false := by
  revert hp
  refine pool_invariant (J := fun _ s => s.pc w = .exited → (s.worker w).active = false) ?_ ?_ h
  · intro hp
    cases hp
  · intro tr s t i mv _ ih _ hm hp
    exact hm.inactive_step ih hp

/-- The call comes to `AsyncWorker::stop` of the worker. -/
def Op.stops (w : Fin n) : Op T n → Bool
  | .stop => true
  | .stopWorker v => v = w
  | _ => false

def Action.callsStopOf (w : Fin n) : Action T n → Bool
  | .called op => op.stops w
  | _ => false

/-- At most one call stops the worker. -/
def StopsOnce (w : Fin n) (tr : History T n) : Tid n × Choice T n → Bool
  | (_, .call op) => !op.stops w || !tr.any fun e => e.2.callsStopOf w
  | _ => true

/-- The function has still to come to the end of the worker's `stop` up to the join. -/
def Frame.due (w : Fin n) : Frame T n → Bool
  | .stopLoop i => i ≤ w
  | .stopCheck v | .stopPoll v => v = w
  | _ => false

theorem Op.due_enter (op : Op T n) (w : Fin n) : op.enter.due w = op.stops w := by
  cases op <;> simp [Op.enter, Op.stops, Frame.due]

theorem Frame.due_place (req : Request T) (v w : Fin n) : (Sys.place req v).due w = false := by
  unfold Sys.place
  split <;> rfl

/-- A `stop` of the worker comes up by a call and is over with the clearing of `active_`, or at
once if that is cleared already. -/
theorem Moves.due_step (hm : Moves s t i mv) (w : Fin n) :
    (mv.action.callsStopOf w = true ∧ (mv.frames ++ (s.stack t).tail).countP (·.due w) =
      (s.stack t).countP (·.due w) + 1 ∧ mv.action ≠ .deactivated w) ∨
    (mv.action.callsStopOf w = false ∧ (mv.frames ++ (s.stack t).tail).countP (·.due w) =
      (s.stack t).countP (·.due w) ∧ mv.action ≠ .deactivated w) ∨
    (mv.action.callsStopOf w = false ∧ (mv.frames ++ (s.stack t).tail).countP (·.due w) + 1 =
      (s.stack t).countP (·.due w) ∧
      (mv.action = .deactivated w ∨ (s.worker w).active = false)) := by
  cases hm
  case call op k ht hs | callBack op rest hs =>
    have huser : (Frame.user : Frame T n).due w = false := rfl
    cases hop : op.stops w
    · refine .inr (.inl ⟨hop, ?_, by simp⟩)
      simp [hs, Op.due_enter, hop, huser]
    · refine .inl ⟨hop, ?_, by simp⟩
      simp [hs, Op.due_enter, hop, huser]
  case scanPlace req res it rest hs hi hstrand =>
    have hscan : (Frame.scan req res it none).due w = false := rfl
    refine .inr (.inl ⟨rfl, ?_, by simp⟩)
    simp [hs, Frame.due_place, hscan]
  case bindStrand req idle rest hs =>
    have hbind : (Frame.bindStrand req idle).due w = false := rfl
    refine .inr (.inl ⟨rfl, ?_, by simp⟩)
    simp [hs, Frame.due_place, hbind]
  case stopNext i rest hs hi =>
    refine .inr (.inl ⟨rfl, ?_, by simp⟩)
    simp only [hs, List.cons_append, List.nil_append, List.tail_cons, List.countP_cons, Frame.due,
      decide_eq_true_eq, Fin.ext_iff]
    split <;> split <;> split <;> omega
  case stopEnd i rest hs hi =>
    refine .inr (.inl ⟨rfl, ?_, by simp⟩)
    have hw := w.isLt
    have hno : ¬i ≤ (w : Nat) := by omega
    simp [hs, Frame.due, hno]
  case stopSkip v rest hs ha =>
    by_cases hv : v = w
    · refine .inr (.inr ⟨rfl, ?_, .inr (hv ▸ ha)⟩)
      simp [hs, Frame.due, hv]
    · refine .inr (.inl ⟨rfl, ?_, by simp⟩)
      simp [hs, Frame.due, hv]
  case stopCheck v rest hs _ =>
    refine .inr (.inl ⟨rfl, ?_, by simp⟩)
    simp only [hs, List.cons_append, List.nil_append, List.tail_cons, List.countP_cons, Frame.due]
  case deactivate v rest hs _ _ =>
    by_cases hv : v = w
    · refine .inr (.inr ⟨rfl, ?_, .inl (hv ▸ rfl)⟩)
      simp [hs, Frame.due, hv]
    · refine .inr (.inl ⟨rfl, ?_, by simpa using hv⟩)
      simp [hs, Frame.due, hv]
  all_goals
    refine .inr (.inl ⟨rfl, ?_, fun ha => by cases ha⟩)
    rw [‹s.stack t = _›]
    rfl

/-- So many functions of the thread have still to come to the end of a `stop` of the worker. -/
def Sys.due (s : Sys T n) (w : Fin n) (t : Tid n) : Nat := (s.stack t).countP (·.due w)

/-- The one call that stops the worker has not been made, is in progress or is over. -/
inductive OneStop (w : Fin n) (tr : History T n) (s : Sys T n) : Prop
  | before (hm : tr.any (fun e => e.2.callsStopOf w) = false) (hd : ∀ t, s.due w t = 0)
      (ha : (s.worker w).active = true)
  | during (hm : tr.any (fun e => e.2.callsStopOf w) = true) (t : Tid n) (ht : s.due w t = 1)
      (hd : ∀ u, u ≠ t → s.due w u = 0) (ha : (s.worker w).active = true)
  | after (hm : tr.any (fun e => e.2.callsStopOf w) = true) (hd : ∀ t, s.due w t = 0)

theorem Sys.due_other {v : Tid n} (hv : v ≠ t) : (s.apply t mv).due w v = s.due w v := by
  rw [due, due, Sys.apply_stack_other _ hv]

theorem Sys.active_kept (ha : (s.worker w).active = true) (hne : mv.action ≠ .deactivated w) :
    ((s.apply t mv).worker w).active = true := by
  rw [Sys.apply_active]
  by_contra hno
  rw [Bool.not_eq_true, ha] at hno
  exact hne (Action.eq_deactivated hno)

theorem StopsOnce.first (hok : StopsOnce w tr (t, i) = true) (hm : Moves s t i mv)
    (hc : mv.action.callsStopOf w = true) : tr.any (fun e => e.2.callsStopOf w) = false := by
  cases hm
  case call op _ _ _ | callBack op _ _ =>
    have hop : op.stops w = true := hc
    simpa [StopsOnce, hop] using hok
  all_goals cases hc

theorem OneStop.step (h : OneStop w tr s) (hm : Moves s t i mv)
    (hok : StopsOnce w tr (t, i) = true) : OneStop w (tr ++ [(t, mv.action)]) (s.apply t mv) := by
  have hself : (s.apply t mv).due w t = (mv.frames ++ (s.stack t).tail).countP (·.due w) := by
    rw [Sys.due, Sys.apply_stack_self]
  have hmade : (tr ++ [(t, mv.action)]).any (fun e => e.2.callsStopOf w) =
      (tr.any (fun e => e.2.callsStopOf w) || mv.action.callsStopOf w) := by simp
  rcases hm.due_step w with ⟨hc, hcount, hne⟩ | ⟨hc, hcount, hne⟩ | ⟨hc, hcount, hend⟩
  · have hfirst := StopsOnce.first hok hm hc
    rw [hc, Bool.or_true] at hmade
    cases h with
    | before _ hd ha =>
      refine .during hmade t ?_ (fun u hu => (Sys.due_other hu).trans (hd u))
        (Sys.active_kept ha hne)
      rw [hself, hcount]
      exact congrArg (· + 1) (hd t)
    | during hm' => exact absurd hfirst (by simp [hm'])
    | after hm' => exact absurd hfirst (by simp [hm'])
  · have hsame (u : Tid n) : (s.apply t mv).due w u = s.due w u := by
      by_cases hu : u = t
      · rw [hu, hself, hcount, Sys.due]
      · exact Sys.due_other hu
    rw [hc, Bool.or_false] at hmade
    cases h with
    | before hm' hd ha =>
      exact .before (hmade ▸ hm') (fun u => (hsame u).trans (hd u)) (Sys.active_kept ha hne)
    | during hm' u hu hd ha =>
      exact .during (hmade ▸ hm') u ((hsame u).trans hu) (fun v hv => (hsame v).trans (hd v hv))
        (Sys.active_kept ha hne)
    | after hm' hd => exact .after (hmade ▸ hm') fun u => (hsame u).trans (hd u)
  · have hpos : s.due w t ≠ 0 := by
      rw [Sys.due, ← hcount]
      exact Nat.succ_ne_zero _
    rw [hc, Bool.or_false] at hmade
    cases h with
    | before _ hd _ => exact absurd (hd t) hpos
    | after _ hd => exact absurd (hd t) hpos
    | during hm' u hu hd ha =>
      have hut : t = u := by
        by_contra hne
        exact hpos (hd t hne)
      subst hut
      refine .after (hmade ▸ hm') fun v => ?_
      by_cases hv : v = t
      · rw [Sys.due] at hu
        rw [hv, hself]
        omega
      · exact (Sys.due_other hv).trans (hd v hv)

theorem oneStop (h : (pool T n).Run (fun tr _ i => StopsOnce w tr i) tr s) : OneStop w tr s := by
  refine pool_invariant (J := OneStop w) (.before rfl (fun _ => rfl) rfl) ?_ h
  intro tr s t i mv _ ih hok hm
  exact ih.step hm hok

/-- The one `stop` of a worker returns only from its join. The worker has left its loop then, and
what was pushed before `active_` was cleared or by the worker's own jobs has run or been cancelled;
its thread takes no further step. -/
theorem stop_drains (h : (pool T n).Run (fun tr _ i => StopsOnce w tr i) tr s) :
    (∀ t rest, s.stack t = .stopCheck w :: rest → (s.worker w).active = true) ∧
    ∀ p q t, tr = p ++ (t, .joined w) :: q →
      (.worker w, .left w) ∈ p ∧ (∃ u, (u, .deactivated w) ∈ p) ∧
      (∀ l r u, p = l ++ (u, .deactivated w) :: r → ∀ j ∈ pushedOn w l, Settled w j p) ∧
      (∀ j strand, (.worker w, .pushed w j strand) ∈ tr → Settled w j p) ∧
      ∀ e ∈ q, e.1 ≠ .worker w ∧ e.2.runsOn w = false := by
  constructor
  · intro t rest hs
    have hpos : s.due w t ≠ 0 := by
      rw [Sys.due, hs, List.countP_cons]
      simp [Frame.due]
    cases oneStop h with
    | before _ hd _ => exact absurd (hd t) hpos
    | during _ _ _ _ ha => exact ha
    | after _ hd => exact absurd (hd t) hpos
  · intro p q t htr
    obtain ⟨s₀, i, mv, h₀, -, hm, ha⟩ := pool_at_label h htr
    have hexit := (hm.joined_inv ha).1
    have hsilent := silent_after_join h htr
    obtain ⟨hbefore, hown⟩ := joined_settles h₀ hexit
    refine ⟨exited_left h₀ hexit, inactive_deactivated h₀ (exited_inactive h₀ hexit),
      fun l r u hp => hbefore hp, fun j strand hj => ?_, fun e he => ⟨hsilent e he, ?_⟩⟩
    · rw [htr] at hj
      rcases List.mem_append.mp hj with hj | hj
      · exact hown j strand hj
      · rcases List.mem_cons.mp hj with heq | hj
        · cases heq
        · exact absurd rfl (hsilent _ hj)
    · rw [← Bool.not_eq_true]
      intro hr
      have hmem : (e.1, e.2) ∈ tr := by
        rw [htr]
        exact List.mem_append_right _ (List.mem_cons_of_mem _ he)
      exact hsilent e he (job_thread h hmem hr)

/-- A worker is stopped while it runs a job, and the job pushes another. -/
def drainRun : History .unit 1 × Sys .unit 1 :=
  let c := Tid.client 0
  let w := Tid.worker worker₀
  (pool .unit 1).drive (fun tr _ i => StopsOnce worker₀ tr i)
    (c.calls (.doJob worker₀ "a" (some 0) none) 3 ++ w.steps 5 ++
      (Tid.client 1).calls (.stopWorker worker₀) 2 ++
      w.calls (.doJob worker₀ "b" (some 1) none) 3 ++ w.returns 7 ++ w.returns 5 ++
      (Tid.client 1).steps 1 ++ c.calls (.doJob worker₀ "c" (some 2) none) 3)

theorem stop_drains_drainRun : ∃ p q, drainRun.1 = p ++ (.client 1, .joined 0) :: q ∧
    Settled 0 ⟨some (.client 0), none, "a", 0⟩ p ∧ Settled 0 ⟨some (.client 1), none, "b", 1⟩ p ∧
    q ≠ [] ∧ ∀ e ∈ q, e.2.runsOn 0 = false := by
  have h : (pool .unit 1).Run (fun tr _ i => StopsOnce worker₀ tr i) drainRun.1 drainRun.2 :=
    run_drive (fun _ _ _ hok => hok) _
  have hjoin : drainRun.1 =
      drainRun.1.take 30 ++ (.client 1, .joined 0) :: drainRun.1.drop 31 := rfl
  obtain ⟨-, -, hbefore, hown, hafter⟩ := (stop_drains h).2 _ _ _ hjoin
  have hstop : drainRun.1.take 30 =
      drainRun.1.take 11 ++ (.client 1, .deactivated 0) :: (drainRun.1.take 30).drop 12 := rfl
  have hpushed : drainRun.1[13]? =
      some (.worker 0, .pushed 0 ⟨some (.client 1), none, "b", 1⟩ "") := rfl
  refine ⟨_, _, hjoin, hbefore _ _ _ hstop _ (List.mem_singleton.mpr rfl),
    hown _ _ (List.mem_of_getElem? hpushed), by simp [show drainRun.1.length = 35 from rfl], ?_⟩
  exact fun e he => (hafter e he).2

end ServiceLib
