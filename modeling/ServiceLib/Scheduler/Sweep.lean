import ServiceLib.Scheduler.Notify
import ServiceLib.Scheduler.Unregister

namespace ServiceLib

open Machine

variable {T : ArgTypes} {n : Nat} {ok : History T n → Sys T n → Tid n × Choice T n → Prop}
  {tr l m : History T n} {s s₀ s₁ : Sys T n} {t u : Tid n} {i : Choice T n} {mv : Move T n}
  {id : String} {k : ℕ} {w : Fin n}

/-- The action changes `calls_` of the worker. -/
def Action.changesCalls (w : Fin n) : Action T n → Bool
  | .pushed v _ _ | .dequeued v _ | .cancelled v _ _ => v = w
  | _ => false

theorem Action.onCalls_of_not_changes {a : Action T n} (h : a.changesCalls w = false)
    (cs : List (JobContext T)) : a.onCalls w cs = cs := by
  cases a <;> simp_all [Action.changesCalls, eq_comm]

/-- While a thread owns `queueLock_` of a worker no other one changes the queue. -/
theorem Moves.calls_locked (hrun : (pool T n).Run ok tr s) (hm : Moves s u i mv)
    (hlock : (s.worker w).queueLock = some t) (hu : u ≠ t) :
    mv.action.changesCalls w = false := by
  by_contra hchanges
  rw [Bool.not_eq_false] at hchanges
  cases hm
  case push v _ _ _ _ _ _ hq | dequeue v _ _ _ _ _ hq _ =>
    obtain rfl : v = w := by simpa [Action.changesCalls] using hchanges
    rw [hlock] at hq
    cases hq
  case cancelErase id v rest hs =>
    obtain rfl : v = w := by simpa [Action.changesCalls] using hchanges
    have hscan : topScan (s.stack u) = some v := by rw [hs]; rfl
    have howner := (queue_owner hrun v u).mpr hscan
    exact hu (Option.some.inj (howner.symm.trans hlock))
  all_goals simp [Action.changesCalls] at hchanges

/-- What has happened when the first `k` queues are swept: one after another the thread takes the
`queueLock_` of a worker, comes past each of its jobs and erases them all, and in between nobody
changes the queue. -/
inductive Swept (id : String) (t : Tid n) : ℕ → History T n → Prop
  | start {a : History T n} (ha : own t a = []) : Swept id t 0 a
  | worker {w : Fin n} {m a b c : History T n} {js : List (JobContext T)}
      (h : Swept id t w m) (ha : own t a = []) (hb : own t b = List.replicate js.length .tau)
      (hq : ∀ e ∈ b, e.2.changesCalls w = false) (hc : own t c = []) :
      Swept id t (w + 1)
        (m ++ (t, .tau) :: (a ++ (t, .queueLocked w) :: (b ++ (t, .cancelled w id js) :: c)))

theorem Swept.le (h : Swept id t k m) : k ≤ n := by
  cases h
  · exact Nat.zero_le n
  · rename_i w _ _ _ _ _ _ _ _ _ _
    exact w.isLt

theorem Swept.other {a : Action T n} (h : Swept id t k m) (hu : u ≠ t) :
    Swept id t k (m ++ [(u, a)]) := by
  cases h with
  | start ha => exact .start ((own_snoc_other hu _ _).trans ha)
  | worker h ha hb hq hc =>
    simp only [List.append_assoc, List.cons_append]
    exact h.worker ha hb hq ((own_snoc_other hu _ _).trans hc)

/-- How far a sweep has come: the steps since the action was erased and the functions above the
caller. -/
inductive Sweeping (id : String) (t : Tid n) (s : Sys T n) :
    History T n → List (Frame T n) → Prop
  | loop {k : ℕ} {m : History T n} (h : Swept id t k m) :
      Sweeping id t s m [.cancelLoop id k, .unregisterExit id]
  | lock {w : Fin n} {m a : History T n} (h : Swept id t w m) (ha : own t a = []) :
      Sweeping id t s (m ++ (t, .tau) :: a)
        [.cancelLock id w, .cancelLoop id (w + 1), .unregisterExit id]
  | scan {w : Fin n} {m a b : History T n} {p left : List (JobContext T)}
      (h : Swept id t w m) (ha : own t a = []) (hb : own t b = List.replicate p.length .tau)
      (hq : ∀ e ∈ b, e.2.changesCalls w = false) (hcalls : (s.worker w).calls = p ++ left) :
      Sweeping id t s (m ++ (t, .tau) :: (a ++ (t, .queueLocked w) :: b))
        [.cancelScan id w left, .cancelLoop id (w + 1), .unregisterExit id]
  | exit {m a : History T n} (h : Swept id t n m) (ha : own t a = []) :
      Sweeping id t s (m ++ (t, .tau) :: a) [.unregisterExit id]

theorem Sweeping.exit_mem {top : List (Frame T n)} (h : Sweeping id t s m top) :
    .unregisterExit id ∈ top := by
  cases h <;> simp

/-- The steps of other threads leave a sweep as it is. -/
theorem Sweeping.other {top : List (Frame T n)} (h : Sweeping id t s m top) (hu : u ≠ t)
    (hlocked : ∀ w, topScan top = some w → mv.action.changesCalls w = false) :
    Sweeping id t (s.apply u mv) (m ++ [(u, mv.action)]) top := by
  cases h with
  | loop h => exact .loop (h.other hu)
  | lock h ha =>
    rw [List.append_assoc, List.cons_append]
    exact .lock h ((own_snoc_other hu _ _).trans ha)
  | @scan w m a b p left h ha hb hq hcalls =>
    have hkept := hlocked w rfl
    simp only [List.append_assoc, List.cons_append]
    refine .scan h ha ((own_snoc_other hu _ _).trans hb) ?_ ?_
    · exact List.forall_mem_append.mpr ⟨hq, List.forall_mem_singleton.mpr hkept⟩
    · rw [Sys.apply_calls, Action.onCalls_of_not_changes hkept, hcalls]
  | exit h ha =>
    rw [List.append_assoc, List.cons_append]
    exact .exit h ((own_snoc_other hu _ _).trans ha)

/-- One step of the thread takes the sweep further, or returns once all queues are swept. -/
theorem Sweeping.step {top rest : List (Frame T n)} (h : Sweeping id t s m top)
    (hs : s.stack t = top ++ rest) (hm : Moves s t i mv) :
    (mv.action = .unregistered id ∧ mv.frames ++ top.tail = [] ∧
      ∃ a b, m = a ++ (t, .tau) :: b ∧ Swept id t n a ∧ own t b = []) ∨
    Sweeping id t (s.apply t mv) (m ++ [(t, mv.action)]) (mv.frames ++ top.tail) ∧
      ∀ r, mv.action.onRegistry r = r := by
  cases h with
  | @loop k m h =>
    refine .inr ?_
    by_cases hk : k < n
    · have hnext : s.frameNext t (.cancelLoop id k) =
          some ⟨.tau, [.cancelLock id ⟨k, hk⟩, .cancelLoop id (k + 1)], none, none⟩ := by
        simp [Sys.frameNext, Sys.cancelLoopNext, hk]
      obtain rfl := hm.eq_of_frame hs (by simp) hnext
      exact ⟨.lock (w := ⟨k, hk⟩) h rfl, fun _ => rfl⟩
    · have hnext : s.frameNext t (.cancelLoop id k) =
          some ⟨.tau, [], some (.ret true), none⟩ := by
        simp [Sys.frameNext, Sys.cancelLoopNext, hk]
      obtain rfl := hm.eq_of_frame hs (by simp) hnext
      obtain rfl : k = n := Nat.le_antisymm h.le (Nat.not_lt.mp hk)
      exact ⟨.exit h rfl, fun _ => rfl⟩
  | @lock w m a h ha =>
    have hstep := Sys.next_frame hm.next_eq hs (by simp)
    simp only [Sys.frameNext, Sys.cancelLockNext] at hstep
    split at hstep
    · obtain rfl := Option.some.inj hstep
      refine .inr ⟨?_, fun _ => rfl⟩
      rw [List.append_assoc, List.cons_append]
      refine .scan (p := []) h ha rfl (fun e he => absurd he List.not_mem_nil) ?_
      rw [Sys.apply_calls]
      rfl
    · cases hstep
  | @scan w m a b p left h ha hb hq hcalls =>
    refine .inr ?_
    have hstep := Sys.next_frame hm.next_eq hs (by simp)
    simp only [List.append_assoc, List.cons_append]
    cases left with
    | nil =>
      obtain rfl := Option.some.inj hstep
      rw [List.append_nil] at hcalls
      refine ⟨.loop ?_, fun _ => rfl⟩
      exact h.worker ha (by rw [hb, hcalls]) hq rfl
    | cons it left =>
      simp only [Sys.frameNext, Sys.cancelScanNext] at hstep
      split at hstep
      · cases hstep
      · obtain rfl := Option.some.inj hstep
        refine ⟨.scan (p := p ++ [it]) h ha ?_ ?_ ?_, fun _ => rfl⟩
        · rw [own_snoc_self, hb, List.length_append, List.length_singleton, List.replicate_succ']
        · exact List.forall_mem_append.mpr ⟨hq, List.forall_mem_singleton.mpr rfl⟩
        · rw [Sys.apply_calls, List.append_assoc]
          exact hcalls
  | @exit m a h ha =>
    have hnext : s.frameNext t (.unregisterExit id) =
        some ⟨.unregistered id, [], some (.ret true), none⟩ := rfl
    obtain rfl := hm.eq_of_frame hs (by simp) hnext
    exact .inl ⟨rfl, rfl, m, a, rfl, h, ha⟩

theorem Sweeping.excludes {top rest : List (Frame T n)} (h : Sweeping id t s m top)
    (hrun : (pool T n).Run ok tr s) (hs : s.stack t = top ++ rest) : s.Excludes t := by
  have hmem : .unregisterExit id ∈ s.stack t := hs ▸ List.mem_append_left rest h.exit_mem
  exact Sys.excludes_of_owner hrun (mapping_owner hrun hmem rfl)

/-- What has become of an unregistration: it is sweeping the queues, or has returned after the last
one. Up to then the other threads are kept out at every step. -/
def SweepOutcome (id : String) (t : Tid n) (rest : List (Frame T n)) (s₁ : Sys T n)
    (m : History T n) (s : Sys T n) : Prop :=
  (((pool T n).startAt s₁).Run (Excluding t) m s ∧ s.Excludes t ∧
    s.mem.registry = s₁.mem.registry ∧
    ∃ top, s.stack t = top ++ rest ∧ Sweeping id t s m top) ∨
  ∃ p q s', m = p ++ (t, .unregistered id) :: q ∧
    ((pool T n).startAt s₁).Run (Excluding t) (p ++ [(t, .unregistered id)]) s' ∧
    ((pool T n).startAt s').Run AnyStep q s ∧ s'.stack t = rest ∧
    s'.mem.registry = s₁.mem.registry ∧ ∃ a b, p = a ++ (t, .tau) :: b ∧ Swept id t n a ∧
      own t b = []

/-- Unregistration is atomic towards other threads. From the moment the action is erased up to the
return, no other thread gets into a section under `mappingLock_`, and the registry stays as it is;
meanwhile the thread sweeps the queues of all workers, one after another and each of them once, with
nothing pushed to a queue, taken from it or cancelled there by another while it is swept. -/
theorem unregister_sweeps {rest : List (Frame T n)} (h₀ : (pool T n).Run AnyStep l s₀)
    (hs : s₀.stack t = .unregister id :: rest)
    (herase : (pool T n).step s₀ (t, i) = some ((t, .erased id), s₁))
    (h : ((pool T n).startAt s₁).Run AnyStep m s) : SweepOutcome id t rest s₁ m s := by
  obtain ⟨mv, hm, he, rfl⟩ := pool_step herase
  have ha : mv.action = .erased id := (Prod.mk.inj he).2.symm
  have hfr : mv.frames = [.cancelLoop id 0, .unregisterExit id] := by
    cases hm <;> cases ha
    rfl
  have hreach {m s} (h : ((pool T n).startAt (s₀.apply t mv)).Run AnyStep m s) :
      (pool T n).Run AnyStep (l ++ [(t, mv.action)] ++ m) s :=
    (h₀.next trivial hm.step_eq).append h
  have hstack : (s₀.apply t mv).stack t = [.cancelLoop id 0, .unregisterExit id] ++ rest := by
    rw [Sys.apply_stack_self, hs, hfr]
    rfl
  have hstart : Sweeping id t (s₀.apply t mv) [] [.cancelLoop id 0, .unregisterExit id] :=
    .loop (.start rfl)
  refine startAt_invariant (J := fun m s => SweepOutcome id t rest (s₀.apply t mv) m s)
    (.inl ⟨.start, hstart.excludes (hreach .start) hstack, rfl, _, hstack, hstart⟩) ?_ h
  intro m s u i mv' hrun ih _ hmv
  rcases ih with ⟨hquiet, halone, hreg, top, hstack, hsweep⟩ | ⟨p, q, s', rfl, hp, hq, hback⟩
  · have hquiet' := hquiet.next (M := (pool T n).startAt (s₀.apply t mv)) halone hmv.step_eq
    have hrun' := hrun.next (M := (pool T n).startAt (s₀.apply t mv)) trivial hmv.step_eq
    by_cases hu : u = t
    · subst hu
      have hne : top ≠ [] := List.ne_nil_of_mem hsweep.exit_mem
      have hnext : (s.apply u mv').stack u = mv'.frames ++ top.tail ++ rest := by
        rw [Sys.apply_stack_self, hstack, List.tail_append_of_ne_nil hne, List.append_assoc]
      rcases hsweep.step hstack hmv with ⟨hend, hnil, hall⟩ | ⟨hgoing, hkept⟩
      · rw [hnil, List.nil_append] at hnext
        rw [hend] at hquiet' ⊢
        refine .inr ⟨m, [], s.apply u mv', rfl, hquiet', .start, hnext, ?_, hall⟩
        rw [Sys.apply_mem, Mem.perform_registry, hend]
        exact hreg
      · refine .inl ⟨hquiet', hgoing.excludes (hreach hrun') hnext, ?_, _, hnext, hgoing⟩
        rw [Sys.apply_mem, Mem.perform_registry, hkept, hreg]
    · have hstack' := (Sys.apply_stack_other mv' (Ne.symm hu)).trans hstack
      have hgoing : Sweeping id t (s.apply u mv') (m ++ [(u, mv'.action)]) top := by
        refine hsweep.other hu fun w hscan => ?_
        refine hmv.calls_locked (hreach hrun) ((queue_owner (hreach hrun) w t).mpr ?_) hu
        cases top with
        | nil => cases hscan
        | cons f top =>
          rw [hstack]
          cases f <;> exact hscan
      refine .inl ⟨hquiet', hgoing.excludes (hreach hrun') hstack', ?_, top, hstack', hgoing⟩
      rw [Sys.apply_mem, Mem.perform_registry, halone.registry_kept hmv hu, hreg]
  · exact .inr ⟨p, q ++ [(u, mv'.action)], s', by simp, hp, hq.next trivial hmv.step_eq, hback⟩

/-- Each of two workers has a job of "a" when a client comes to unregister it. -/
def sweepEntered : History .unit 2 × Sys .unit 2 :=
  let c := Tid.client 0
  (pool .unit 2).drive (fun _ _ _ => true)
    (c.calls (.registerInterfaceFor "a" () (some 0)) 3 ++
      c.calls (.doJob worker₀ "a" none none) 3 ++ c.calls (.doJob worker₁ "a" none none) 3 ++
      c.calls (.unRegiterInterface "a") 0)

def sweepErased : Sys .unit 2 :=
  sweepEntered.2.apply (.client 0)
    ⟨.erased "a", [.cancelLoop "a" 0, .unregisterExit "a"], none, none⟩

/-- While the first queue is swept another client pushes one more job of "a", and a third asks for "a"
and has to wait. -/
def sweepDone : History .unit 2 × Sys .unit 2 :=
  let c := Tid.client 0
  ((pool .unit 2).startAt sweepErased).drive (fun _ _ _ => true)
    (c.steps 3 ++ (Tid.client 1).calls (.doJob worker₁ "a" none none) 3 ++
      (Tid.client 2).calls (.isServiceRegistered "a") 0 ++ c.steps 8 ++ (Tid.client 2).steps 1)

theorem unregister_sweeps_sweepDone : ∃ p q,
    sweepDone.1 = p ++ (.client 0, .unregistered "a") :: q ∧
      ∃ a b, p = a ++ (.client 0, .tau) :: b ∧ Swept "a" (.client 0) 2 a := by
  have h₀ : (pool .unit 2).Run AnyStep sweepEntered.1 sweepEntered.2 :=
    run_drive (fun _ _ _ _ => trivial) _
  have h : ((pool .unit 2).startAt sweepErased).Run AnyStep sweepDone.1 sweepDone.2 :=
    run_drive (fun _ _ _ _ => trivial) _
  have hs : sweepEntered.2.stack (.client 0) = [.unregister "a"] := rfl
  have herase : (pool .unit 2).step sweepEntered.2 (.client 0, .run) =
      some ((.client 0, .erased "a"), sweepErased) := rfl
  have hend : sweepDone.2.stack (.client 0) = [] := rfl
  rcases unregister_sweeps h₀ hs herase h with ⟨-, -, -, top, htop, hsweep⟩ |
    ⟨p, q, s', hpq, -, -, -, -, a, b, hab, hswept, -⟩
  · rw [hend, List.append_nil] at htop
    exact absurd hsweep.exit_mem (htop ▸ List.not_mem_nil)
  · exact ⟨p, q, hpq, a, b, hab, hswept⟩

end ServiceLib
