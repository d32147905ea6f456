import ServiceLib.Pool.Drain
import ServiceLib.Pool.Lifetime

namespace ServiceLib

open Machine

variable {T : ArgTypes} {n : Nat} {ok : History T n → Sys T n → Tid n × Choice T n → Prop}
  {tr l m : History T n} {s s₀ : Sys T n} {t u : Tid n} {i : Choice T n} {mv : Move T n}
  {w : Fin n} {j : JobContext T} {k : Nat} {K : Nat → Prop}

/-- Nobody will bring the job to its end: a cancel has removed it, or its worker has left the loop,
or the worker's thread is inside one of the `doSyncJob` calls `K`. -/
def Abandoned (K : Nat → Prop) (tr : History T n) (s : Sys T n) (w : Fin n) (j : JobContext T) :
    Prop :=
  j ∈ cancelledOn w tr ∨
    s.Live w j ∧ (s.pc w = .exited ∨ ∃ k, K k ∧ s.WaitsIn (.worker w) k)

/-- Each of the `doSyncJob` calls `K` waits for an abandoned job. -/
def Hung (K : Nat → Prop) (tr : History T n) (s : Sys T n) : Prop :=
  ∀ k, K k → (∃ t, s.WaitsIn t k) ∧ ∃ w j, j.Wakes k ∧ Abandoned K tr s w j

/-- Whose flag is set had its job dequeued. -/
theorem finished_dequeued (h : (pool T n).Run ok tr s)
    (hf : (s.mem.syncCalls k).finished = true) : ∃ w, ∃ j ∈ dequeuedOn w tr, j.Wakes k := by
  revert hf
  refine pool_invariant (J := fun tr s => (s.mem.syncCalls k).finished = true →
    ∃ w, ∃ j ∈ dequeuedOn w tr, j.Wakes k) (fun hf => by cases hf) ?_ h
  intro tr s t i mv hrun ih _ hm hf
  have hold (h : ∃ w, ∃ j ∈ dequeuedOn w tr, j.Wakes k) :
      ∃ w, ∃ j ∈ dequeuedOn w (tr ++ [(t, mv.action)]), j.Wakes k := by
    obtain ⟨w, j, hj, hk⟩ := h
    exact ⟨w, j, by rw [dequeuedOn_snoc]; exact List.mem_append_left _ hj, hk⟩
  refine hold ?_
  cases hset : (s.mem.syncCalls k).finished with
  | true => exact ih hset
  | false =>
    have ha : mv.action = .finished k := by
      rw [Sys.apply_mem, Mem.perform_finished, hset] at hf
      cases ha : mv.action <;> simp_all
    obtain ⟨rest, hs⟩ := hm.finished_inv ha
    obtain ⟨w, j, c, d, rfl, hpc, -, -, hd, -⟩ := finisher hrun hs
    obtain ⟨js, hjs⟩ := executes hrun w
    refine ⟨w, j, ?_, d, hd⟩
    rw [hjs.1, hpc]
    exact List.mem_append_right js List.mem_cons_self

theorem Abandoned.pushed (h : Abandoned K tr s w j) (hrun : (pool T n).Run ok tr s) :
    j ∈ pushedOn w tr := by
  rcases h with hx | ⟨hlive, -⟩
  · exact located_pushed (p := .cancelled w) hrun hx
  · exact hlive.pushed hrun

/-- A job that waits or has been cancelled has not been dequeued. -/
theorem Located.not_dequeued {p : Place n} (h : Located tr s j p) (hp : ∀ v, p ≠ .dequeued v)
    (hrun : (pool T n).Run ok tr s) (v : Fin n) : j ∉ dequeuedOn v tr := by
  intro hd
  obtain ⟨q, -, -, hone⟩ := located_unique hrun (located_pushed hrun h)
  exact hp v ((hone p h).trans (hone (.dequeued v) hd).symm)

/-- A worker dequeues in its loop only. -/
theorem Moves.no_dequeue (hm : Moves s t i mv)
    (h : s.pc w = .exited ∨ s.stack (.worker w) ≠ []) : mv.action.dequeuedOn w = [] := by
  rcases s.at_loop t w with hw | ⟨rfl, hs⟩
  · exact (hm.pc_frame w hw).2.1
  · rcases h with hp | hne
    · exact absurd rfl (hm.not_exited hp hs)
    · exact absurd hs hne

/-- A waiting job is taken by its worker or by a cancel, or it still waits. -/
theorem Moves.queued_step (hrun : (pool T n).Run AnyStep tr s) (hm : Moves s t i mv)
    (hq : j ∈ (s.worker w).calls) (hidle : mv.action.dequeuedOn w = []) :
    j ∈ cancelledOn w (tr ++ [(t, mv.action)]) ∨ j ∈ ((s.apply t mv).worker w).calls := by
  have hnew : j ∈ pushedOn w (tr ++ [(t, mv.action)]) := by
    rw [pushedOn_snoc]
    exact List.mem_append_left _ (located_pushed (p := .waiting w) hrun hq)
  obtain ⟨p, hp, hloc, -⟩ := located_unique (hrun.next trivial hm.step_eq) hnew
  cases p with
  | waiting v =>
    obtain rfl : w = v := hp.symm
    exact .inr hloc
  | dequeued v =>
    obtain rfl : w = v := hp.symm
    have hd : j ∈ dequeuedOn w (tr ++ [(t, mv.action)]) := hloc
    rw [dequeuedOn_snoc, hidle, List.append_nil] at hd
    have hwaits : Located tr s j (.waiting w) := hq
    exact absurd hd (hwaits.not_dequeued (fun v => by simp) hrun w)
  | cancelled v =>
    obtain rfl : w = v := hp.symm
    exact .inl hloc

theorem Abandoned.step (h : Abandoned K tr s w j) (hrun : (pool T n).Run AnyStep tr s)
    (hm : Moves s t i mv)
    (hkept : ∀ k, K k → ∀ u, s.WaitsIn u k → (s.apply t mv).WaitsIn u k) :
    Abandoned K (tr ++ [(t, mv.action)]) (s.apply t mv) w j := by
  rcases h with hx | ⟨hlive, hstuck⟩
  · refine .inl ?_
    rw [cancelledOn_snoc]
    exact List.mem_append_left _ hx
  · have hinside (h : ∃ k, K k ∧ s.WaitsIn (.worker w) k) : s.stack (.worker w) ≠ [] := by
      obtain ⟨k, -, f, hf, -⟩ := h
      exact List.ne_nil_of_mem hf
    have hstuck' : (s.apply t mv).pc w = .exited ∨
        ∃ k, K k ∧ (s.apply t mv).WaitsIn (.worker w) k := by
      refine hstuck.imp (fun hexit => hm.exited_stays hexit) ?_
      rintro ⟨k, hk, hwait⟩
      exact ⟨k, hk, hkept k hk _ hwait⟩
    rcases hlive with hq | ⟨hserving, -⟩
    · refine (hm.queued_step hrun hq (hm.no_dequeue (hstuck.imp id hinside))).imp id fun hq => ?_
      exact ⟨.inl hq, hstuck'⟩
    · obtain ⟨k, hk, hwait⟩ := hstuck.resolve_left fun hexit => by
        rw [hexit] at hserving
        exact absurd hserving List.not_mem_nil
      refine .inr ⟨.inr ⟨?_, fun _ => ?_⟩, hstuck'⟩
      · rw [Sys.apply_pc, (hm.pc_frame w fun ht => ht ▸ hinside ⟨k, hk, hwait⟩).1]
        exact hserving
      · obtain ⟨f, hf, -⟩ := hkept k hk _ hwait
        exact List.ne_nil_of_mem hf

theorem Hung.unset (h : Hung K tr s) (hrun : (pool T n).Run ok tr s) (hk : K k) :
    (s.mem.syncCalls k).finished = false := by
  obtain ⟨-, w, j, hw, hlost⟩ := h k hk
  rcases id hlost with hx | ⟨hlive, -⟩
  · by_contra hf
    obtain ⟨v, j', hj', hw'⟩ := finished_dequeued hrun (eq_true_of_ne_false hf)
    have hpushed : j' ∈ pushedOn v tr := located_pushed (p := .dequeued v) hrun hj'
    obtain rfl := (tethered hrun).once hpushed (hlost.pushed hrun) hw' hw
    have hgone : Located tr s j' (.cancelled w) := hx
    exact hgone.not_dequeued (fun v => by simp) hrun v hj'
  · exact ((tethered hrun).live hlive hw).unset

/-- None of the calls returns in a step. -/
theorem Hung.not_awaited (h : Hung K tr s) (hrun : (pool T n).Run ok tr s) (hm : Moves s t i mv)
    (hk : K k) : mv.action ≠ .awaited k := by
  intro ha
  have hset := (hm.awaited_inv ha).2
  rw [h.unset hrun hk] at hset
  cases hset

theorem Hung.waits_kept (h : Hung K tr s) (hrun : (pool T n).Run ok tr s) (hm : Moves s t i mv)
    (hk : K k) (hu : s.WaitsIn u k) : (s.apply t mv).WaitsIn u k :=
  (hm.waits_kept hu).resolve_right (h.not_awaited hrun hm hk)

theorem Hung.step (h : Hung K tr s) (hrun : (pool T n).Run AnyStep tr s) (hm : Moves s t i mv) :
    Hung K (tr ++ [(t, mv.action)]) (s.apply t mv) := by
  intro k hk
  obtain ⟨⟨u, hu⟩, w, j, hw, hlost⟩ := h k hk
  refine ⟨⟨u, h.waits_kept hrun hm hk hu⟩, w, j, hw, hlost.step hrun hm ?_⟩
  exact fun k hk v hv => h.waits_kept hrun hm hk hv

/-- A `doSyncJob` call that hangs, hangs for ever: calls whose jobs have been cancelled, wait on a
worker that has left, or wait on a worker that is itself inside one of these calls, never return
whatever the other threads do, and a worker inside such a call never takes another job. -/
theorem hung_never_return (h₀ : (pool T n).Run AnyStep l s₀) (hK : Hung K l s₀)
    (hm : ((pool T n).startAt s₀).Run AnyStep m s) :
    Hung K (l ++ m) s ∧ (∀ k, K k → ∀ u, (u, .awaited k) ∉ m) ∧
      ∀ k, K k → ∀ w, s₀.WaitsIn (.worker w) k →
        s.WaitsIn (.worker w) k ∧ dequeuedOn w m = [] := by
  refine startAt_invariant (J := fun m s => Hung K (l ++ m) s ∧
    (∀ k, K k → ∀ u, (u, .awaited k) ∉ m) ∧ ∀ k, K k → ∀ w, s₀.WaitsIn (.worker w) k →
      s.WaitsIn (.worker w) k ∧ dequeuedOn w m = []) ?_ ?_ hm
  · refine ⟨(List.append_nil l).symm ▸ hK, fun k _ u => List.not_mem_nil, ?_⟩
    exact fun k _ w hw => ⟨hw, rfl⟩
  · intro m s t i mv hrun ⟨hhung, hno, hstuck⟩ _ hmv
    have hwhole : (pool T n).Run AnyStep (l ++ m) s := h₀.append hrun
    refine ⟨?_, fun k hk u hu => ?_, fun k hk w hw => ?_⟩
    · rw [← List.append_assoc]
      exact hhung.step hwhole hmv
    · rcases mem_snoc.mp hu with hu | ⟨-, ha⟩
      · exact hno k hk u hu
      · exact hhung.not_awaited hwhole hmv hk ha
    · obtain ⟨hwait, hnone⟩ := hstuck k hk w hw
      refine ⟨hhung.waits_kept hwhole hmv hk hwait, ?_⟩
      obtain ⟨f, hf, -⟩ := hwait
      rw [dequeuedOn_snoc, hnone, hmv.no_dequeue (.inr (List.ne_nil_of_mem hf))]
      rfl

/-- The jobs on two workers block on each other's worker. -/
def mutualRun : History .unit 2 × Sys .unit 2 :=
  let c := Tid.client 0
  let v := Tid.worker worker₀
  let w := Tid.worker worker₁
  (pool .unit 2).drive (fun _ _ _ => true)
    (c.calls (.doJob worker₀ "a" (some 0) none) 3 ++ c.calls (.doJob worker₁ "b" (some 1) none) 3 ++
      v.steps 5 ++ w.steps 5 ++ v.calls (.doSyncJob worker₁ "c" (some 2) none) 5 ++
      w.calls (.doSyncJob worker₀ "d" (some 3) none) 5)

/-- One of the jobs is cancelled, and both workers look at their flags again. -/
def mutualCancelled : History .unit 2 × Sys .unit 2 :=
  ((pool .unit 2).startAt mutualRun.2).drive (fun _ _ _ => true)
    ((Tid.client 0).calls (.cancelOn worker₁ "e") 3 ++ (Tid.worker worker₀).steps 2 ++
      (Tid.worker worker₁).steps 2)

theorem hung_never_return_mutualCancelled :
    cancelledOn worker₁ mutualCancelled.1 ≠ [] ∧
      mutualCancelled.2.WaitsIn (.worker worker₀) 2 ∧
      dequeuedOn worker₀ mutualCancelled.1 = [] := by
  have h₀ : (pool .unit 2).Run AnyStep mutualRun.1 mutualRun.2 :=
    run_drive (fun _ _ _ _ => trivial) _
  have hm : ((pool .unit 2).startAt mutualRun.2).Run AnyStep
      mutualCancelled.1 mutualCancelled.2 :=
    run_drive (fun _ _ _ _ => trivial) _
  have hvs : mutualRun.2.stack (.worker worker₀) = [.syncAsleep 2, .user] := rfl
  have hws : mutualRun.2.stack (.worker worker₁) = [.syncAsleep 4, .user] := rfl
  have hv : mutualRun.2.WaitsIn (.worker worker₀) 2 := ⟨_, hvs ▸ List.mem_cons_self, rfl⟩
  have hw : mutualRun.2.WaitsIn (.worker worker₁) 4 := ⟨_, hws ▸ List.mem_cons_self, rfl⟩
  have hc : (mutualRun.2.worker worker₁).calls =
      [⟨some (.client 2), some (.syncDone none 2), "c", 3⟩] := rfl
  have hd : (mutualRun.2.worker worker₀).calls =
      [⟨some (.client 3), some (.syncDone none 4), "d", 5⟩] := rfl
  have hK : Hung (fun k => k = 2 ∨ k = 4) mutualRun.1 mutualRun.2 := by
    rintro k (rfl | rfl)
    · exact ⟨⟨_, hv⟩, worker₁, _, ⟨none, rfl⟩,
        .inr ⟨.inl (hc ▸ List.mem_cons_self), .inr ⟨4, .inr rfl, hw⟩⟩⟩
    · exact ⟨⟨_, hw⟩, worker₀, _, ⟨none, rfl⟩,
        .inr ⟨.inl (hd ▸ List.mem_cons_self), .inr ⟨2, .inl rfl, hv⟩⟩⟩
  exact ⟨by decide, (hung_never_return h₀ hK hm).2.2 2 (.inl rfl) worker₀ hv⟩

end ServiceLib
