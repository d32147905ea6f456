import ServiceLib.Pool.Awaited

namespace ServiceLib

open Machine

variable {T : ArgTypes} {n : Nat} {ok : History T n → Sys T n → Tid n × Choice T n → Prop}
  {tr : History T n} {s : Sys T n} {t u : Tid n} {i : Choice T n} {mv : Move T n} {w : Fin n}
  {j : JobContext T} {k : Nat}

/-- The job is still to run on worker `w`, or its `onDone` is running there. -/
def Sys.Live (s : Sys T n) (w : Fin n) (j : JobContext T) : Prop :=
  j ∈ (s.worker w).calls ∨
    j ∈ (s.pc w).serving ∧ (s.pc w = .inOnDone j → s.stack (.worker w) ≠ [])

theorem WorkerPc.serving_subset {p : WorkerPc T} (h : j ∈ p.serving) : j ∈ p.current := by
  cases p <;> simp_all [serving, current]

theorem Sys.Live.pushed (h : s.Live w j) (hrun : (pool T n).Run ok tr s) : j ∈ pushedOn w tr := by
  rcases h with hj | ⟨hj, -⟩
  · exact located_pushed (p := .waiting w) hrun hj
  · exact current_pushed hrun (WorkerPc.serving_subset hj)

/-- A job that is live after a step was so before, or the step pushed it. -/
theorem Moves.live_step (hm : Moves s t i mv) (h : (s.apply t mv).Live w j) :
    s.Live w j ∨ ∃ strand, mv.action = .pushed w j strand := by
  rcases h with hj | ⟨hj, hstack⟩
  · exact (Sys.mem_apply_calls hj).imp .inl id
  · rw [Sys.apply_pc] at hj hstack
    refine .inl ?_
    rcases s.at_loop t w with hw | ⟨rfl, hs⟩
    · rw [(hm.pc_frame w hw).1] at hj hstack
      refine .inr ⟨hj, fun hp => ?_⟩
      by_cases ht : t = .worker w
      · exact ht ▸ hw ht
      · rw [← Sys.apply_stack_other mv (Ne.symm ht)]
        exact hstack hp
    · cases hm
      case dequeue v j' left ht _ _ _ hc =>
        obtain rfl := Tid.worker.inj ht
        obtain rfl : j = j' := by simpa [WorkerPc.serving] using hj
        exact .inl (by simp [hc])
      case «begin» v j' ht _ hp _ | beginAction v j' _ ht _ hp _ | endAction v j' ht _ hp _ _
          | beginOnDone v j' _ ht _ hp _ =>
        obtain rfl := Tid.worker.inj ht
        obtain rfl : j = j' := by simpa [WorkerPc.serving] using hj
        exact .inr (by simp [hp, WorkerPc.serving])
      all_goals simp_all [WorkerPc.serving]

/-- A thread blocked in `doSyncJob` tests its flag, sleeps and tests again. -/
theorem Moves.waiting_frames (hm : Moves s t i mv) {f : Frame T n} {rest : List (Frame T n)}
    (hs : s.stack t = f :: rest) (hk : f.waits = some k) :
    (∃ g ∈ mv.frames, g.waits = some k) ∨ mv.action = .awaited k := by
  cases f <;> simp only [Frame.waits, reduceCtorEq, Option.some.injEq] at hk
  case syncWait l =>
    subst hk
    cases hf : (s.mem.syncCalls l).finished with
    | true =>
      obtain rfl := hm.eq_of_frame hs (by simp) (congrArg some (if_pos hf))
      exact .inr rfl
    | false =>
      obtain rfl := hm.eq_of_frame hs (by simp) (congrArg some (if_neg (by simp [hf])))
      exact .inl ⟨_, List.mem_singleton_self _, rfl⟩
  case syncAsleep l =>
    obtain rfl := hm.eq_of_frame hs (by simp) rfl
    exact .inl ⟨_, List.mem_singleton_self _, congrArg some hk⟩

/-- A thread stays in its `doSyncJob` until that call returns. -/
theorem Moves.waits_kept (hm : Moves s t i mv) (h : s.WaitsIn u k) :
    (s.apply t mv).WaitsIn u k ∨ mv.action = .awaited k := by
  obtain ⟨f, hf, hk⟩ := h
  by_cases hu : u = t
  · subst hu
    unfold Sys.WaitsIn
    rw [Sys.apply_stack_self]
    cases hs : s.stack u with
    | nil => exact absurd (hs ▸ hf) List.not_mem_nil
    | cons g rest =>
      rw [hs] at hf
      rcases List.mem_cons.mp hf with rfl | hf
      · refine (hm.waiting_frames hs hk).imp ?_ id
        rintro ⟨g, hg, hk⟩
        exact ⟨g, List.mem_append_left _ hg, hk⟩
      · exact .inl ⟨f, List.mem_append_right _ hf, hk⟩
  · exact .inl ⟨f, (Sys.apply_stack_other mv hu).symm ▸ hf, hk⟩

theorem Sys.AboutToPush.waits (h : s.AboutToPush t k) (hrun : (pool T n).Run ok tr s) :
    s.WaitsIn t k := by
  obtain ⟨w, name, call, c, strand, rest, hs⟩ := h
  have hshape := syncShape hrun t
  rw [hs] at hshape
  obtain ⟨l, rfl⟩ := hshape
  exact ⟨.syncWait k, by simp [hs], rfl⟩

/-- The call is going on: its thread is inside `doSyncJob`, and the flag is not set. -/
structure Sys.Pending (s : Sys T n) (k : Nat) : Prop where
  unset : (s.mem.syncCalls k).finished = false
  waits : ∃ t, s.WaitsIn t k

/-- What a closure of `doSyncJob` refers to is there as long as it may run. -/
structure Tethered (tr : History T n) (s : Sys T n) : Prop where
  about : ∀ {t k}, s.AboutToPush t k →
    (s.mem.syncCalls k).finished = false ∧ ∀ w, ∀ j ∈ pushedOn w tr, ¬j.Wakes k
  once : ∀ {v w j j' k}, j ∈ pushedOn v tr → j' ∈ pushedOn w tr → j.Wakes k → j'.Wakes k → j = j'
  live : ∀ {w j k}, s.Live w j → j.Wakes k → s.Pending k
  apart : ∀ {w j k}, j ∈ (s.pc w).serving → j.Wakes k → ¬s.WaitsIn (.worker w) k

theorem Sys.Pending.step (h : s.Pending k) (hm : Moves s t i mv)
    (hfin : mv.action ≠ .finished k) : (s.apply t mv).Pending k := by
  obtain ⟨hunset, u, hu⟩ := h
  refine ⟨?_, u, ?_⟩
  · rw [Sys.apply_mem, Mem.perform_finished, hunset]
    cases ha : mv.action with
    | finished l =>
      have hl : k ≠ l := fun heq => hfin (heq ▸ ha)
      simp [hl]
    | _ => simp
  · refine (hm.waits_kept hu).resolve_right fun ha => ?_
    have hset := (hm.awaited_inv ha).2
    rw [hunset] at hset
    cases hset

/-- A job a worker has in its hands is in no queue. -/
theorem current_not_queued (hrun : (pool T n).Run ok tr s) {v : Fin n}
    (hj : j ∈ (s.pc w).current) : j ∉ (s.worker v).calls := by
  intro hq
  obtain ⟨js, hjs⟩ := executes hrun w
  have htaken : j ∈ dequeuedOn w tr := by
    rw [hjs.1]
    exact List.mem_append_right js hj
  obtain ⟨p, -, -, hone⟩ := located_unique hrun (current_pushed hrun hj)
  have hwaiting := hone (.waiting v) hq
  rw [← hone (.dequeued w) htaken] at hwaiting
  cases hwaiting

/-- The job whose closure has just set its flag has nothing left to run. -/
theorem Tethered.not_live (h : Tethered tr s) (hrun : (pool T n).Run ok tr s)
    (hm : Moves s t i mv) (ha : mv.action = .finished k) (hk : j.Wakes k) :
    ¬(s.apply t mv).Live w j := by
  intro hlive
  obtain ⟨rest, hs⟩ := hm.finished_inv ha
  obtain ⟨v, j', c, d, rfl, hpc, rfl, -, hd, -⟩ := finisher hrun hs
  have hcur : j' ∈ (s.pc v).current := by simp [hpc, WorkerPc.current]
  have hpushed : j ∈ pushedOn w tr :=
    ((hm.live_step hlive).resolve_right (by simp [ha])).pushed hrun
  obtain rfl := h.once (current_pushed hrun hcur) hpushed ⟨d, hd⟩ hk
  obtain rfl := (numbered hrun).apart (current_pushed hrun hcur) hpushed
  obtain rfl := hm.eq_of_frame hs (by simp) rfl
  rcases hlive with hq | ⟨-, hstack⟩
  · exact current_not_queued hrun hcur ((Sys.mem_apply_calls hq).resolve_right (by simp))
  · refine hstack ?_ ?_
    · rw [Sys.apply_pc, Sys.setPc_none]
      exact hpc
    · rw [Sys.apply_stack_self, hs]
      rfl

theorem Tethered.about_step (h : Tethered tr s) (hrun : (pool T n).Run ok tr s)
    (hm : Moves s t i mv) (hpush : (s.apply t mv).AboutToPush u k) :
    ((s.apply t mv).mem.syncCalls k).finished = false ∧
      ∀ w, ∀ j ∈ pushedOn w (tr ++ [(t, mv.action)]), ¬j.Wakes k := by
  rcases hm.aboutToPush_step (syncShape hrun t) (resting_below hrun t) hpush with
    ⟨hu, hold⟩ | ⟨rfl, ha⟩
  · obtain ⟨hunset, hno⟩ := h.about hold
    refine ⟨?_, fun w j hj hk => ?_⟩
    · have hpending : s.Pending k := ⟨hunset, u, hold.waits hrun⟩
      refine (hpending.step hm fun ha => ?_).unset
      obtain ⟨rest, hs⟩ := hm.finished_inv ha
      obtain ⟨v, j, c, d, rfl, hpc, -, -, hd, -⟩ := finisher hrun hs
      exact hno v j (current_pushed hrun (by simp [hpc, WorkerPc.current])) ⟨d, hd⟩
    · rw [pushedOn_snoc] at hj
      rcases List.mem_append.mp hj with hj | hj
      · exact hno w j hj hk
      · have ht := hm.wakes_pushed hj hk
        exact hu (waits_unique hrun (hold.waits hrun) (ht.waits hrun))
  · have hk := hm.opened_inv ha
    refine ⟨?_, fun w j hj hw => ?_⟩
    · rw [Sys.apply_mem, Mem.perform_finished, ha]
      simp
    · rw [pushedOn_snoc, ha] at hj
      have hlt := pushed_below hrun w j (by simpa using hj) k hw
      omega

theorem Tethered.once_step (h : Tethered tr s) (hm : Moves s t i mv) {v : Fin n}
    {j' : JobContext T} (hj : j ∈ pushedOn v (tr ++ [(t, mv.action)]))
    (hj' : j' ∈ pushedOn w (tr ++ [(t, mv.action)])) (hk : j.Wakes k) (hk' : j'.Wakes k) :
    j = j' := by
  rw [pushedOn_snoc] at hj hj'
  rcases List.mem_append.mp hj with hj | hj <;> rcases List.mem_append.mp hj' with hj' | hj'
  · exact h.once hj hj' hk hk'
  · exact absurd hk ((h.about (hm.wakes_pushed hj' hk')).2 v j hj)
  · exact absurd hk' ((h.about (hm.wakes_pushed hj hk)).2 w j' hj')
  · cases ha : mv.action with
    | pushed x y strand =>
      rw [ha] at hj hj'
      by_cases hv : v = x <;> by_cases hw : w = x <;> simp_all
    | _ => simp [ha] at hj

theorem Tethered.live_step (h : Tethered tr s) (hrun : (pool T n).Run ok tr s)
    (hm : Moves s t i mv) (hlive : (s.apply t mv).Live w j) (hk : j.Wakes k) :
    (s.apply t mv).Pending k := by
  rcases hm.live_step hlive with hold | ⟨strand, ha⟩
  · exact (h.live hold hk).step hm fun ha => h.not_live hrun hm ha hk hlive
  · have hpush : s.AboutToPush t k := hm.wakes_pushed (v := w) (j := j) (by simp [ha]) hk
    have hpending : s.Pending k := ⟨(h.about hpush).1, t, hpush.waits hrun⟩
    exact hpending.step hm (by simp [ha])

theorem Tethered.apart_step (h : Tethered tr s) (hrun : (pool T n).Run ok tr s)
    (hm : Moves s t i mv) (hj : j ∈ ((s.apply t mv).pc w).serving) (hk : j.Wakes k) :
    ¬(s.apply t mv).WaitsIn (.worker w) k := by
  intro hwaits
  rcases hm.waits_step hwaits with ⟨f, hf, hfk⟩ | ⟨-, ha⟩
  · rcases s.at_loop t w with hw | ⟨rfl, hs⟩
    · rw [Sys.apply_pc, (hm.pc_frame w hw).1] at hj
      exact h.apart hj hk ⟨f, hf, hfk⟩
    · exact absurd (hs ▸ hf) List.not_mem_nil
  · have hpushed : j ∈ pushedOn w tr := by
      rcases hm.current_step (WorkerPc.serving_subset hj) with hcur | hq
      · exact current_pushed hrun hcur
      · exact located_pushed (p := .waiting w) hrun hq
    have hlt := pushed_below hrun w j hpushed k hk
    have hnew := hm.opened_inv ha
    omega

theorem tethered (hrun : (pool T n).Run ok tr s) : Tethered tr s := by
  refine pool_invariant (J := Tethered) ⟨?_, ?_, ?_, ?_⟩ ?_ hrun
  · rintro t k ⟨w, name, call, c, strand, rest, hs⟩
    cases hs
  · intro v w j j' k hj
    exact absurd hj List.not_mem_nil
  · rintro w j k (hj | ⟨hj, -⟩)
    · exact absurd hj List.not_mem_nil
    · exact absurd hj List.not_mem_nil
  · intro w j k hj
    exact absurd hj List.not_mem_nil
  · intro tr s t i mv hrun ih _ hm
    exact ⟨ih.about_step hrun hm, ih.once_step hm, ih.live_step hrun hm, ih.apart_step hrun hm⟩

theorem Frame.Finishes.finishes {f : Frame T n} (h : f.Finishes k) : f.finishes = true := by
  cases f with
  | invoke c => cases c <;> first | exact h.elim | rfl
  | syncFinish => rfl
  | _ => exact h.elim

/-- The only flag a running closure has to set is that of its own call. -/
theorem InSyncDone.finishes {d : Option (Callable T)} {l : Nat} {o : List (Action T n)}
    {stack : List (Frame T n)} (h : InSyncDone d l o stack) (hd : d.all Callable.isClient = true)
    {f : Frame T n} (hf : f ∈ stack) (hk : f.Finishes k) : l = k := by
  cases h with
  | start =>
    obtain rfl := List.mem_singleton.mp hf
    exact hk
  | @inside c seg stack r hc hrun _ =>
    rcases List.mem_append.mp hf with hf | hf
    · have hplain : c.plain = true := by
        subst hc
        cases c <;> first | rfl | cases hd
      have hno := hrun.not_finishes hplain f hf
      rw [hk.finishes] at hno
      cases hno
    · obtain rfl := List.mem_singleton.mp hf
      exact hk
  | finish =>
    obtain rfl := List.mem_singleton.mp hf
    exact hk
  | ended => exact absurd hf List.not_mem_nil

end ServiceLib
