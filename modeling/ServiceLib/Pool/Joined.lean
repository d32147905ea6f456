import ServiceLib.Pool.Drain
import ServiceLib.Scheduler.Locks

namespace ServiceLib

open Machine

variable {T : ArgTypes} {n : Nat} {ok : History T n → Sys T n → Tid n × Choice T n → Prop}
  {tr : History T n} {s : Sys T n} {t u : Tid n} {i : Choice T n} {mv : Move T n} {w : Fin n}

/-- The thread waits in `stop` for the worker's queue to become empty. -/
def Sys.polls (s : Sys T n) (w : Fin n) (t : Tid n) : Bool :=
  match s.stack t with
  | .stopPoll v :: _ => v = w
  | _ => false

/-- The thread waits in `thread_.join()` of the worker. -/
def Sys.joins (s : Sys T n) (w : Fin n) (t : Tid n) : Bool :=
  match s.stack t with
  | .stopJoin v :: _ => v = w
  | _ => false

def WorkerPc.hasExited : WorkerPc T → Bool
  | .exited => true
  | _ => false

/-- If the step is the look of a `stop` of the worker at `active_`, the thread is not the worker's,
and no other `stop` is between its look and its return unless the worker has left its loop. -/
def StopAlone (w : Fin n) (tr : History T n) (s : Sys T n) (t : Tid n) : Bool :=
  match s.stack t with
  | .stopCheck v :: _ => v ≠ w || t ≠ .worker w && ((s.pc w).hasExited ||
      tr.all fun e => !(s.polls w e.1 || s.joins w e.1))
  | _ => true

/-- `stop` goes from clearing `active_` to `thread_.join()`. -/
def Action.goesToJoin (w : Fin n) : Action T n → Bool
  | .deactivated v => v = w
  | _ => false

/-- How often `thread_.join()` of the worker has been called. -/
def joinCalls (w : Fin n) (tr : History T n) : Nat := tr.countP fun e => e.2.goesToJoin w

theorem WorkerPc.hasExited_iff {pc : WorkerPc T} : pc.hasExited = true ↔ pc = .exited := by
  cases pc <;> simp [hasExited]

theorem Sys.polls_iff : s.polls w t = true ↔ ∃ rest, s.stack t = .stopPoll w :: rest := by
  unfold polls
  split
  · rename_i v rest hs
    simp [hs]
  · rename_i hno
    simpa using fun rest hs => hno w rest hs

theorem Sys.joins_iff : s.joins w t = true ↔ ∃ rest, s.stack t = .stopJoin w :: rest := by
  unfold joins
  split
  · rename_i v rest hs
    simp [hs]
  · rename_i hno
    simpa using fun rest hs => hno w rest hs

/-- A thread inside some function has taken a step. -/
theorem exists_step (h : (pool T n).Run ok tr s) (hs : s.stack t ≠ []) : ∃ a, (t, a) ∈ tr := by
  by_contra hno
  refine hs (stack_of_no_step h fun e he heq => hno ⟨e.2, ?_⟩)
  rw [← heq]
  exact he

theorem StopAlone.alone (h : (pool T n).Run ok tr s) (hok : StopAlone w tr s t = true)
    {rest : List (Frame T n)} (hs : s.stack t = .stopCheck w :: rest) (hp : s.pc w ≠ .exited)
    (u : Tid n) : s.polls w u = false ∧ s.joins w u = false := by
  have hall : tr.all (fun e => !(s.polls w e.1 || s.joins w e.1)) = true := by
    have hcond : t ≠ .worker w ∧ ((s.pc w).hasExited = true ∨
        tr.all (fun e => !(s.polls w e.1 || s.joins w e.1)) = true) := by
      simpa [StopAlone, hs] using hok
    exact hcond.2.resolve_left fun hex => hp (WorkerPc.hasExited_iff.mp hex)
  cases hstack : s.stack u with
  | nil => simp [Sys.polls, Sys.joins, hstack]
  | cons f rest =>
    obtain ⟨a, ha⟩ := exists_step h (t := u) (by simp [hstack])
    simpa using List.all_eq_true.mp hall _ ha

/-- Who waits for the queue after a step did so before or has just found `active_` set. -/
theorem Moves.polls_step (hm : Moves s t i mv) (hrest : ∀ f ∈ (s.stack t).tail, f.resting = true)
    (hp : (s.apply t mv).polls w u = true) : s.polls w u = true ∨
      u = t ∧ (∃ rest, s.stack t = .stopCheck w :: rest) ∧ (s.worker w).active = true := by
  obtain ⟨rest, hs⟩ := Sys.polls_iff.mp hp
  rcases Sys.apply_top hrest hs with ⟨-, hs'⟩ | ⟨rfl, l, hl, -⟩ | ⟨-, -, -, hf⟩
  · exact .inl (Sys.polls_iff.mpr ⟨rest, hs'⟩)
  · cases hm
    case stopCheck v rest' hs' ha =>
      obtain rfl : v = w := by simpa using (List.cons.inj hl).1
      exact .inr ⟨rfl, ⟨rest', hs'⟩, ha⟩
    case stopWait v rest' hs' _ _ =>
      obtain rfl : v = w := by simpa using (List.cons.inj hl).1
      exact .inl (Sys.polls_iff.mpr ⟨rest', hs'⟩)
    case scanPlace | bindStrand =>
      unfold Sys.place at hl
      split at hl <;> simp at hl
    case call op _ _ _ | callBack op _ _ => cases op <;> simp [Op.enter] at hl
    all_goals simp at hl
  · simp [Frame.resting] at hf

theorem Moves.deactivated_from (hm : Moves s t i mv) (ha : mv.action = .deactivated w) :
    s.polls w t = true ∧ (s.apply t mv).joins w t = true := by
  cases hm <;> cases ha
  rename_i rest hs _ _
  refine ⟨Sys.polls_iff.mpr ⟨rest, hs⟩, Sys.joins_iff.mpr ⟨rest, ?_⟩⟩
  rw [Sys.apply_stack_self, hs]
  rfl

/-- A join ends once the worker has left its loop. -/
theorem Moves.join_inv (hm : Moves s t i mv) {rest : List (Frame T n)}
    (hs : s.stack t = .stopJoin w :: rest) : s.pc w = .exited := by
  have hstep := Sys.next_frame hm.next_eq hs (by simp)
  simp only [Sys.frameNext, Sys.stopJoinNext] at hstep
  split at hstep
  · assumption
  · cases hstep

theorem Moves.joins_step (hm : Moves s t i mv) (hj : s.joins w u = true) :
    (s.apply t mv).joins w u = true ∨ s.pc w = .exited := by
  obtain ⟨rest, hs⟩ := Sys.joins_iff.mp hj
  by_cases hu : u = t
  · exact .inr (hm.join_inv (hu ▸ hs))
  · refine .inl (Sys.joins_iff.mpr ⟨rest, ?_⟩)
    rw [Sys.apply_stack_other _ hu, hs]

/-- At most one `stop` waits for the queue, and none once `active_` is cleared; who has cleared it
joins until the worker has left its loop. -/
structure StopsApart (w : Fin n) (tr : History T n) (s : Sys T n) : Prop where
  unique : ∀ t u, s.polls w t = true → s.polls w u = true → t = u
  stopped : (s.worker w).active = false → ∀ t, s.polls w t = false
  joining : (s.worker w).active = false → s.pc w = .exited ∨ ∃ t, s.joins w t = true
  unjoined : (s.worker w).active = true → joinCalls w tr = 0
  once : joinCalls w tr ≤ 1

theorem joinCalls_snoc (w : Fin n) (tr : History T n) (t : Tid n) (a : Action T n) :
    joinCalls w (tr ++ [(t, a)]) = joinCalls w tr + if a.goesToJoin w then 1 else 0 := by
  rw [joinCalls, List.countP_append, List.countP_singleton, ← joinCalls]

theorem Action.goesToJoin_iff {a : Action T n} : a.goesToJoin w = true ↔ a = .deactivated w := by
  cases a <;> simp [goesToJoin]

/-- The `stop` that waits for the queue clears `active_`. -/
theorem StopsApart.deactivate (h : StopsApart w tr s) (hm : Moves s t i mv)
    (hrest : ∀ f ∈ (s.stack t).tail, f.resting = true) (ha : mv.action = .deactivated w) :
    StopsApart w (tr ++ [(t, mv.action)]) (s.apply t mv) := by
  obtain ⟨hpolls, hjoins⟩ := hm.deactivated_from ha
  have hact : (s.worker w).active = true := by
    by_contra hno
    have hnone := h.stopped (by simpa using hno) t
    simp [hpolls] at hnone
  have hact' : ((s.apply t mv).worker w).active = false := by
    rw [Sys.apply_active, ha]
    simp
  have hnone (u : Tid n) : (s.apply t mv).polls w u = false := by
    rw [← Bool.not_eq_true]
    intro hu
    rcases hm.polls_step hrest hu with hu' | ⟨rfl, ⟨rest, hs⟩, -⟩
    · obtain rfl := h.unique u t hu' hpolls
      obtain ⟨rest, hs⟩ := Sys.polls_iff.mp hu
      obtain ⟨rest', hs'⟩ := Sys.joins_iff.mp hjoins
      rw [hs] at hs'
      simp at hs'
    · obtain ⟨rest', hs'⟩ := Sys.polls_iff.mp hpolls
      rw [hs] at hs'
      simp at hs'
  have hcount : joinCalls w (tr ++ [(t, mv.action)]) = 1 := by
    rw [joinCalls_snoc, h.unjoined hact, if_pos (Action.goesToJoin_iff.mpr ha)]
  refine ⟨fun v u hv => ?_, fun _ => hnone, fun _ => .inr ⟨t, hjoins⟩, fun hno => ?_, hcount.le⟩
  · simp [hnone v] at hv
  · simp [hact'] at hno

theorem StopsApart.step (hrun : (pool T n).Run ok tr s) (h : StopsApart w tr s)
    (hm : Moves s t i mv) (hok : StopAlone w tr s t = true) :
    StopsApart w (tr ++ [(t, mv.action)]) (s.apply t mv) := by
  have hrest := resting_below hrun t
  by_cases ha : mv.action = .deactivated w
  · exact h.deactivate hm hrest ha
  have hact : ((s.apply t mv).worker w).active = (s.worker w).active := by
    rw [Sys.apply_active]
    cases hb : (s.worker w).active with
    | false => exact mv.action.onActive_false w
    | true =>
      by_contra hno
      exact ha (Action.eq_deactivated (by simpa using hno))
  have hcount : joinCalls w (tr ++ [(t, mv.action)]) = joinCalls w tr := by
    rw [joinCalls_snoc, if_neg fun hg => ha (Action.goesToJoin_iff.mp hg), Nat.add_zero]
  -- a `stop` that comes to wait for the queue finds nobody there
  have hnew {v u : Tid n} (hv : v = t ∧ (∃ rest, s.stack t = .stopCheck w :: rest) ∧
      (s.worker w).active = true) (hu : s.polls w u = true) : v = u := by
    obtain ⟨rfl, ⟨rest, hs⟩, hb⟩ := hv
    have hp : s.pc w ≠ .exited := by
      intro hp
      have hno := exited_inactive hrun hp
      simp [hb] at hno
    have hfree := (StopAlone.alone hrun hok hs hp u).1
    simp [hu] at hfree
  refine ⟨fun v u hv hu => ?_, fun hb v => ?_, fun hb => ?_, fun hb => ?_, hcount ▸ h.once⟩
  · rcases hm.polls_step hrest hv with hv | hv <;> rcases hm.polls_step hrest hu with hu | hu
    · exact h.unique v u hv hu
    · exact (hnew hu hv).symm
    · exact hnew hv hu
    · exact hv.1.trans hu.1.symm
  · rw [hact] at hb
    rw [← Bool.not_eq_true]
    intro hv
    rcases hm.polls_step hrest hv with hv | ⟨-, -, hb'⟩
    · simp [h.stopped hb v] at hv
    · simp [hb] at hb'
  · rw [hact] at hb
    rcases h.joining hb with hp | ⟨u, hu⟩
    · exact .inl (hm.exited_stays hp)
    · rcases hm.joins_step hu with hu | hp
      · exact .inr ⟨u, hu⟩
      · exact .inl (hm.exited_stays hp)
  · rw [hcount]
    exact h.unjoined (hact ▸ hb)

theorem stopsApart (h : (pool T n).Run (fun tr s i => StopAlone w tr s i.1) tr s) :
    StopsApart w tr s := by
  have h0 : StopsApart w [] (.init : Sys T n) :=
    ⟨fun _ _ h => (by cases h), fun h => (by cases h), fun h => (by cases h), fun _ => rfl,
      Nat.zero_le 1⟩
  refine pool_invariant (J := StopsApart w) h0 ?_ h
  intro tr s t i mv hrun ih hok hm
  exact ih.step hrun hm hok

/-- The step is the return of a `stop` of the worker, at once or from the join. -/
def Sys.ReturnsStop (s : Sys T n) (t : Tid n) (mv : Move T n) (w : Fin n) : Prop :=
  mv.frames = [] ∧ ∃ rest, s.stack t = .stopCheck w :: rest ∨ s.stack t = .stopJoin w :: rest

/-- A `stop` returns at once if `active_` is cleared, and else when the worker has left its loop. -/
theorem Moves.returns_stop (hm : Moves s t i mv) (hret : s.ReturnsStop t mv w) :
    (∃ rest, s.stack t = .stopCheck w :: rest ∧ (s.worker w).active = false) ∨
      s.pc w = .exited := by
  obtain ⟨hnil, rest, hs | hs⟩ := hret
  · have hstep := Sys.next_frame hm.next_eq hs (by simp)
    simp only [Sys.frameNext, Sys.stopCheckNext, Option.some.injEq] at hstep
    split at hstep
    · rw [← hstep] at hnil
      cases hnil
    · rename_i hact
      exact .inl ⟨rest, hs, by simpa using hact⟩
  · exact .inr (hm.join_inv hs)

/-- The worker is joined at most once, and when any `stop` returns it has left its loop and runs
nothing, if no `stop` looks at `active_` while another one is in progress past its own look and the
worker has not left its loop. -/
theorem stop_concurrent (h : (pool T n).Run (fun tr s i => StopAlone w tr s i.1) tr s) :
    joinCalls w tr ≤ 1 ∧ ∀ t i mv, StopAlone w tr s t = true → Moves s t i mv →
      s.ReturnsStop t mv w → s.pc w = .exited ∧ (s.worker w).executing = false := by
  have hinv := stopsApart h
  refine ⟨hinv.once, fun t i mv hok hm hret => ?_⟩
  have hexit : s.pc w = .exited := by
    rcases hm.returns_stop hret with ⟨rest, hs, hact⟩ | hp
    · by_contra hp
      rcases hinv.joining hact with hp' | ⟨u, hu⟩
      · exact hp hp'
      · have hfree := (StopAlone.alone h hok hs hp u).2
        simp [hu] at hfree
    · exact hp
  refine ⟨hexit, ?_⟩
  rw [(guarded h w).flag, hexit]
  rfl

/-- A worker is stopped and has left its loop, and another thread calls `stop`. -/
def secondStopRun : History .unit 1 × Sys .unit 1 :=
  let c := Tid.client 0
  (pool .unit 1).drive (fun tr s i => StopAlone worker₀ tr s i.1)
    (c.calls (.stopWorker worker₀) 2 ++ (Tid.worker worker₀).steps 1 ++ c.steps 1 ++
      (Tid.client 1).calls (.stopWorker worker₀) 0)

theorem stop_concurrent_secondStopRun : joinCalls 0 secondStopRun.1 ≤ 1 ∧
    secondStopRun.2.pc 0 = .exited ∧ (secondStopRun.2.worker 0).executing = false := by
  have h : (pool .unit 1).Run (fun tr s i => StopAlone worker₀ tr s i.1) secondStopRun.1
      secondStopRun.2 := run_drive (fun _ _ _ hok => hok) _
  have hs : secondStopRun.2.stack (.client 1) = [.stopCheck 0] := rfl
  have hm : Moves secondStopRun.2 (.client 1) .run ⟨.tau, [], some (.ret true), none⟩ :=
    .stopSkip hs rfl
  obtain ⟨honce, hreturn⟩ := stop_concurrent h
  exact ⟨honce, hreturn _ _ _ rfl hm ⟨rfl, [], .inl hs⟩⟩

/-- No `stop` of the worker is called from its own thread. -/
def OthersStop (w : Fin n) : Tid n × Choice T n → Bool
  | (t, .call op) => !op.stops w || t ≠ .worker w
  | _ => true

/-- Two threads find `active_` set before either clears it. -/
def racingStopRun : History .unit 1 × Sys .unit 1 :=
  let c := Tid.client 0
  let d := Tid.client 1
  (pool .unit 1).drive (fun _ _ i => OthersStop worker₀ i)
    (c.calls (.stopWorker worker₀) 1 ++ d.calls (.stopWorker worker₀) 1 ++ c.steps 1 ++ d.steps 1)

/-- Both threads come to `thread_.join()`. -/
theorem stop_joins_twice :
    ¬∀ (tr : History .unit 1) (s : Sys .unit 1) (w : Fin 1),
      (pool .unit 1).Run (fun _ _ i => OthersStop w i) tr s →
        joinCalls w tr ≤ 1 ∧ ∀ t i mv, Moves s t i mv → s.ReturnsStop t mv w →
          s.pc w = .exited ∧ (s.worker w).executing = false := by
  intro hclaim
  have h : (pool .unit 1).Run (fun _ _ i => OthersStop worker₀ i) racingStopRun.1
      racingStopRun.2 := run_drive (fun _ _ _ hok => hok) _
  have htwo : joinCalls worker₀ racingStopRun.1 = 2 := rfl
  have hone := (hclaim _ _ _ h).1
  omega

end ServiceLib
