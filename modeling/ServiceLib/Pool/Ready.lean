import ServiceLib.Pool.Signals

namespace ServiceLib

open Machine

variable {T : ArgTypes} {n : Nat} {ok : History T n → Sys T n → Tid n × Choice T n → Prop}
  {tr : History T n} {s : Sys T n} {t u : Tid n} {i : Choice T n} {mv : Move T n} {w : Fin n}
  {k : Nat}

/-- The thread sleeps on a condition variable and no `notify_all` has reached it. -/
inductive Sys.Sleeps (s : Sys T n) (t : Tid n) : Prop
  | call {k : Nat} {rest : List (Frame T n)} (hs : s.stack t = .syncAsleep k :: rest)
      (hc : (s.mem.syncCalls k).cond ≠ .notified)
  | queue {w : Fin n} (ht : t = .worker w) (hs : s.stack t = []) (hp : s.pc w = .asleep)
      (hc : (s.worker w).queueCond ≠ .notified)

/-- The thread can go on without calling the library anew. A sleeper can only once it has been
notified: nobody may count on a wake-up without a reason. -/
def Sys.Ready (s : Sys T n) (t : Tid n) : Prop :=
  (∃ i, (∀ op, i ≠ .call op) ∧ s.next t i ≠ none) ∧ ¬s.Sleeps t

theorem Sys.not_sleeps {f : Frame T n} {rest : List (Frame T n)} (hs : s.stack t = f :: rest)
    (hf : ∀ k, f ≠ .syncAsleep k) : ¬s.Sleeps t := by
  intro h
  cases h with
  | call hs' _ => exact hf _ (List.cons.inj (hs.symm.trans hs')).1
  | queue _ hs' _ _ => cases hs.symm.trans hs'

/-- Who stands before its `notify_all` is ready. -/
theorem Sys.ready_of_notify {rest : List (Frame T n)} (hs : s.stack t = .notify w :: rest) :
    s.Ready t := by
  refine ⟨⟨.run, fun op => by simp, ?_⟩, Sys.not_sleeps hs (by simp)⟩
  cases t <;> simp [Sys.next, hs, Sys.frameNext]

/-- A worker that sleeps and has not been notified finds nothing to do if it looks, or a thread that
has pushed a job has its `notify_all` still to do. -/
theorem asleep_rightly (h : (pool T n).Run ok tr s) (hp : s.pc w = .asleep)
    (hc : (s.worker w).queueCond ≠ .notified) :
    ((s.worker w).calls = [] ∧ (s.worker w).active = true) ∨
      ∃ t rest, s.stack t = .notify w :: rest := by
  obtain ⟨tr', hrun, -⟩ := fine_covers h.any
  have hasleep := Cond.asleep_of_ne ((marked hrun).workers hp) hc
  rcases queueWait_sound hrun w hasleep with hready | hnotify | ⟨t, ht⟩
  · refine .inl ?_
    simpa [queueWait] using hready
  · exact .inr hnotify
  · cases ht

/-- A caller that sleeps and has not been notified finds its flag unset if it looks. -/
theorem syncAsleep_rightly (h : (pool T n).Run ok tr s) {rest : List (Frame T n)}
    (hs : s.stack t = .syncAsleep k :: rest) (hc : (s.mem.syncCalls k).cond ≠ .notified) :
    (s.mem.syncCalls k).finished = false := by
  obtain ⟨tr', hrun, -⟩ := fine_covers h.any
  have hasleep := Cond.asleep_of_ne ((marked hrun).callers hs) hc
  rcases callWait_sound hrun k hasleep with hready | ⟨u, hu⟩
  · simpa [callWait] using hready
  · cases hu

/-- A `notify_all` that has reached a worker is not taken back by another thread. -/
theorem Moves.queue_notified (hm : Moves s t i mv) (hu : t ≠ .worker w) :
    mv.action.onQueueCond w .notified = .notified := by
  cases hm
  case dequeue v _ _ ht _ _ _ _ | pass v ht _ _ _ _ | sleep v ht _ _ _ _ _ =>
    have hv : w ≠ v := fun h => hu (h ▸ ht)
    simp [hv]
  all_goals simp [Cond.notifyAll]

/-- A `notify_all` that has reached a caller is not taken back by another thread. -/
theorem Moves.call_notified (hm : Moves s t i mv) (hrun : (pool T n).Run ok tr s)
    (hw : s.WaitsIn u k) (hu : u ≠ t) : mv.action.onCallCond k .notified = .notified := by
  have hother {l : Nat} (hl : s.WaitsIn t l) : k ≠ l := by
    rintro rfl
    exact hu (waits_unique hrun hw hl)
  cases hm
  case syncSleep l rest hs _ => simp [hother ⟨.syncWait l, by simp [hs], rfl⟩]
  case syncWake l rest hs => simp [hother ⟨.syncAsleep l, by simp [hs], rfl⟩]
  case doSync => simp [(hw.below hrun).ne]
  all_goals simp [Cond.notifyAll]

/-- Nobody is sent to sleep by another thread. -/
theorem Moves.sleeps_other (hm : Moves s t i mv) (hrun : (pool T n).Run ok tr s) (hu : u ≠ t)
    (h : (s.apply t mv).Sleeps u) : s.Sleeps u := by
  cases h with
  | @call k rest hs hc =>
    rw [Sys.apply_stack_other mv hu] at hs
    refine .call hs fun hnotified => hc ?_
    rw [Sys.apply_mem, Mem.perform_callCond, hnotified]
    exact hm.call_notified hrun ⟨.syncAsleep k, by simp [hs], rfl⟩ hu
  | @queue w ht hs hp hc =>
    subst ht
    rw [Sys.apply_stack_other mv hu] at hs
    rw [Sys.apply_pc, (hm.pc_frame w fun h => absurd h.symm hu).1] at hp
    refine .queue rfl hs hp fun hnotified => hc ?_
    change ((s.mem.perform t mv.action).workers w).queueCond = .notified
    rw [Mem.perform_queueCond]
    exact (congrArg (mv.action.onQueueCond w) hnotified).trans (hm.queue_notified (Ne.symm hu))

end ServiceLib
