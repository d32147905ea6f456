import ServiceLib.Framework.WaitPoint
import ServiceLib.Pool.Blocking

namespace ServiceLib

open Machine

variable {T : ArgTypes} {n : Nat} {s : Sys T n} {t u : Tid n} {i : Choice T n} {mv : Move T n}
  {w : Fin n} {k : Nat}

/-- The condition variables: `queueCond_` of each worker, used with `queueLock_`, and the `cond` of
each `doSyncJob` call, used with its `flagMutex`. -/
inductive CondVar (n : Nat)
  | queue (w : Fin n)
  | call (k : Nat)
  deriving DecidableEq

namespace Mem

/-- The store of a section that changes a predicate and then notifies, up to the `notify_all`. -/
def store (m : Mem T n) : Action T n → Option (CondVar n × Mem T n)
  | .deactivated w => some (.queue w, m.onWorker w fun a => { a with active := false })
  | .finished k => some (.call k, m.onSyncCall k fun c => { c with finished := true })
  | _ => none

def notify (m : Mem T n) : CondVar n → Mem T n
  | .queue w => m.onWorker w (·.notifyAll)
  | .call k => m.onSyncCall k fun c => { c with cond := c.cond.notifyAll }

/-- The store and the `notify_all` together are the step of the pool. -/
theorem notify_store {m m' : Mem T n} {a : Action T n} {v : CondVar n}
    (h : m.store a = some (v, m')) : m'.notify v = m.perform t a := by
  cases a <;> simp only [store, reduceCtorEq, Option.some.injEq, Prod.mk.injEq] at h
  all_goals
    obtain ⟨rfl, rfl⟩ := h
    simp [notify, perform, onWorker, onSyncCall, AsyncWorker.notifyAll, AsyncWorker.deactivate]

end Mem

/-- The mutex of a condition variable that the next step of the thread locks. Returning from a wait
locks it again. -/
def Sys.locks (s : Sys T n) (t : Tid n) : Option (CondVar n) :=
  match s.stack t, t with
  | .push w _ _ _ _ :: _, _ | .cancelLock _ w :: _, _ | .stopPoll w :: _, _ => some (.queue w)
  | .syncWait k :: _, _ | .syncAsleep k :: _, _ | .syncFinish k :: _, _ => some (.call k)
  | [], .worker w =>
    match s.pc w with
    | .lock | .asleep | .relock => some (.queue w)
    | _ => none
  | _, _ => none

/-- The pool with the sections that store and notify taken apart: between the two the thread holds
the mutex and owes the `notify_all`. -/
structure Fine (T : ArgTypes) (n : Nat) where
  sys : Sys T n
  holder : CondVar n → Option (Tid n)
  owes : Tid n → Option (CondVar n)

/-- The steps of the finer machine. -/
inductive FineAction (T : ArgTypes) (n : Nat)
  | act (a : Action T n)
  | notifyAll (v : CondVar n)

namespace Fine

def init : Fine T n := ⟨.init, fun _ => none, fun _ => none⟩

/-- A step of the pool, up to the `notify_all` if it has one under the mutex. -/
def advance (f : Fine T n) (t : Tid n) (mv : Move T n) : Fine T n :=
  match f.sys.mem.store mv.action with
  | some (v, m) => ⟨{ f.sys.apply t mv with mem := m }, Function.update f.holder v (some t),
      Function.update f.owes t (some v)⟩
  | none => { f with sys := f.sys.apply t mv }

/-- The `notify_all` and the release of the mutex. -/
def notify (f : Fine T n) (t : Tid n) (v : CondVar n) : Fine T n :=
  ⟨{ f.sys with mem := f.sys.mem.notify v }, Function.update f.holder v none,
    Function.update f.owes t none⟩

def blocked (f : Fine T n) (t : Tid n) : Bool := (f.sys.locks t).any fun v => (f.holder v).isSome

def step (f : Fine T n) : Tid n × Choice T n → Option ((Tid n × FineAction T n) × Fine T n)
  | (t, c) =>
    match f.owes t, c with
    | some v, .run => some ((t, .notifyAll v), f.notify t v)
    | some _, _ => none
    | none, c =>
      if f.blocked t then none
      else (f.sys.next t c).map fun mv => ((t, .act mv.action), f.advance t mv)

end Fine

/-- The threads of the pool, interleaved also between a store and its `notify_all`. -/
def finePool (T : ArgTypes) (n : Nat) :
    Machine (Fine T n) (Tid n × Choice T n) (Tid n × FineAction T n) where
  init := .init
  step := Fine.step

/-- Without who sleeps where and who has been notified. -/
def Mem.forget (m : Mem T n) : Mem T n :=
  { m with
    workers := fun w => { m.workers w with queueCond := .empty }
    syncCalls := fun k => { m.syncCalls k with cond := .empty } }

def Sys.forget (s : Sys T n) : Sys T n := { s with mem := s.mem.forget }

/-- No step looks at who sleeps: a wait may end at any time. -/
theorem Sys.next_forget (s : Sys T n) (t : Tid n) (i : Choice T n) :
    s.forget.next t i = s.next t i := rfl

/-- The memories differ at most in who sleeps where and who has been notified. -/
structure Mem.Agrees (m m' : Mem T n) : Prop where
  calls : ∀ w, (m.workers w).calls = (m'.workers w).calls
  queueLock : ∀ w, (m.workers w).queueLock = (m'.workers w).queueLock
  active : ∀ w, (m.workers w).active = (m'.workers w).active
  load : ∀ w, (m.workers w).outstandingJobs = (m'.workers w).outstandingJobs
  executingLock : ∀ w, (m.workers w).executingLock = (m'.workers w).executingLock
  executing : ∀ w, (m.workers w).executing = (m'.workers w).executing
  finished : ∀ k, (m.syncCalls k).finished = (m'.syncCalls k).finished
  strands : m.strands = m'.strands
  registry : m.registry = m'.registry
  mappingLock : m.mappingLock = m'.mappingLock
  fresh : m.fresh = m'.fresh

namespace Mem.Agrees

variable {m m' m'' : Mem T n}

theorem refl (m : Mem T n) : m.Agrees m := by
  constructor <;> first | rfl | exact fun _ => rfl

theorem symm (h : m.Agrees m') : m'.Agrees m where
  calls w := (h.calls w).symm
  queueLock w := (h.queueLock w).symm
  active w := (h.active w).symm
  load w := (h.load w).symm
  executingLock w := (h.executingLock w).symm
  executing w := (h.executing w).symm
  finished k := (h.finished k).symm
  strands := h.strands.symm
  registry := h.registry.symm
  mappingLock := h.mappingLock.symm
  fresh := h.fresh.symm

theorem trans (h : m.Agrees m') (h' : m'.Agrees m'') : m.Agrees m'' where
  calls w := (h.calls w).trans (h'.calls w)
  queueLock w := (h.queueLock w).trans (h'.queueLock w)
  active w := (h.active w).trans (h'.active w)
  load w := (h.load w).trans (h'.load w)
  executingLock w := (h.executingLock w).trans (h'.executingLock w)
  executing w := (h.executing w).trans (h'.executing w)
  finished k := (h.finished k).trans (h'.finished k)
  strands := h.strands.trans h'.strands
  registry := h.registry.trans h'.registry
  mappingLock := h.mappingLock.trans h'.mappingLock
  fresh := h.fresh.trans h'.fresh

theorem forget (h : m.Agrees m') : m.forget = m'.forget := by
  unfold Mem.forget
  simp only [h.calls, h.queueLock, h.active, h.load, h.executingLock, h.executing, h.finished,
    h.strands, h.registry, h.mappingLock, h.fresh]

theorem perform (h : m.Agrees m') (t : Tid n) (a : Action T n) :
    (m.perform t a).Agrees (m'.perform t a) where
  calls w := by rw [perform_calls, perform_calls, h.calls]
  queueLock w := by rw [perform_queueLock, perform_queueLock, h.queueLock]
  active w := by rw [perform_active, perform_active, h.active]
  load w := by rw [perform_load, perform_load, h.load, h.calls]
  executingLock w := by rw [perform_executingLock, perform_executingLock, h.executingLock]
  executing w := by rw [perform_executing, perform_executing, h.executing]
  finished k := by rw [perform_finished, perform_finished, h.finished]
  strands := by rw [perform_strands, perform_strands, h.strands]
  registry := by rw [perform_registry, perform_registry, h.registry]
  mappingLock := by rw [perform_mappingLock, perform_mappingLock, h.mappingLock]
  fresh := by rw [perform_fresh, perform_fresh, h.fresh]

/-- A `notify_all` changes only who has been notified. -/
theorem of_notify (m : Mem T n) (v : CondVar n) : (m.notify v).Agrees m := by
  cases v with
  | queue v =>
    constructor
    case strands | registry | mappingLock | fresh => rfl
    case finished => exact fun _ => rfl
    all_goals
      intro w
      simp only [notify, onWorker_workers]
      split
      · rename_i hw
        rw [hw]
        rfl
      · rfl
  | call k =>
    constructor
    case strands | registry | mappingLock | fresh => rfl
    case finished =>
      intro l
      simp only [notify, onSyncCall_syncCalls]
      split
      · rename_i hl
        rw [hl]
      · rfl
    all_goals exact fun _ => rfl

end Mem.Agrees

structure Sys.Agrees (s s' : Sys T n) : Prop where
  mem : s.mem.Agrees s'.mem
  pc : s.pc = s'.pc
  stack : s.stack = s'.stack
  result : s.result = s'.result

theorem Sys.Agrees.next {s s' : Sys T n} (h : s.Agrees s') (t : Tid n) (i : Choice T n) :
    s.next t i = s'.next t i := by
  have hforget : s.forget = s'.forget := by
    obtain ⟨hmem, hpc, hstack, hresult⟩ := h
    unfold forget
    rw [hmem.forget, hpc, hstack, hresult]
  rw [← next_forget, hforget, next_forget]

theorem Sys.Agrees.apply {s s' : Sys T n} (h : s.Agrees s') (t : Tid n) (mv : Move T n) :
    (s.apply t mv).Agrees (s'.apply t mv) where
  mem := h.mem.perform t mv.action
  pc := by
    rw [apply_pc, apply_pc]
    unfold setPc
    rw [h.pc]
  stack := by rw [apply_stack, apply_stack, h.stack]
  result := by
    unfold Sys.apply
    rw [h.result]

variable {ok : List (Tid n × FineAction T n) → Fine T n → Tid n × Choice T n → Prop}
  {tr : List (Tid n × FineAction T n)} {f f' : Fine T n} {tr' : History T n}
  {ok' : History T n → Sys T n → Tid n × Choice T n → Prop}

/-- A step of the finer machine is a `notify_all` that was owed, or a step of the pool, stopped
before its `notify_all`, by a thread that owes none. -/
theorem fine_step {i : Tid n × Choice T n} {e : Tid n × FineAction T n}
    (h : (finePool T n).step f i = some (e, f')) :
    (∃ v, f.owes i.1 = some v ∧ e = (i.1, .notifyAll v) ∧ f' = f.notify i.1 v) ∨
      ∃ mv, f.owes i.1 = none ∧ Moves f.sys i.1 i.2 mv ∧ e = (i.1, .act mv.action) ∧
        f' = f.advance i.1 mv := by
  obtain ⟨t, c⟩ := i
  simp only [finePool, Fine.step] at h
  split at h
  · rename_i v hv
    simp only [Option.some.injEq, Prod.mk.injEq] at h
    exact .inl ⟨v, hv, h.1.symm, h.2.symm⟩
  · cases h
  · rename_i hnone
    split at h
    · cases h
    · obtain ⟨mv, hmv, he⟩ := Option.map_eq_some_iff.mp h
      obtain ⟨rfl, rfl⟩ := Prod.mk.inj he
      exact .inr ⟨mv, hnone, Sys.next_moves hmv, rfl, rfl⟩

/-- Up to the notifications still owed a step of the finer machine is the one of the pool. -/
theorem Fine.advance_agrees (f : Fine T n) (t : Tid n) (mv : Move T n) :
    (f.sys.apply t mv).Agrees (f.advance t mv).sys := by
  unfold advance
  split
  · rename_i v m hstore
    refine ⟨?_, rfl, rfl, rfl⟩
    rw [Sys.apply_mem, ← Mem.notify_store hstore]
    exact .of_notify m v
  · exact ⟨.refl _, rfl, rfl, rfl⟩

def FineAction.acts : FineAction T n → List (Action T n)
  | .act a => [a]
  | .notifyAll _ => []

/-- The history of the pool. -/
def acts (tr : List (Tid n × FineAction T n)) : History T n :=
  tr.flatMap fun e => e.2.acts.map (Prod.mk e.1)

theorem acts_act (tr : List (Tid n × FineAction T n)) (t : Tid n) (a : Action T n) :
    acts (tr ++ [(t, .act a)]) = acts tr ++ [(t, a)] := by
  simp [acts, FineAction.acts]

theorem acts_notifyAll (tr : List (Tid n × FineAction T n)) (t : Tid n) (v : CondVar n) :
    acts (tr ++ [(t, .notifyAll v)]) = acts tr := by
  simp [acts, FineAction.acts]

/-- A run of the finer machine is one of the pool. -/
theorem fine_refines (h : (finePool T n).Run ok tr f) :
    ∃ s, (pool T n).Run AnyStep (acts tr) s ∧ s.Agrees f.sys := by
  refine h.invariant (J := fun tr f => ∃ s, (pool T n).Run AnyStep (acts tr) s ∧ s.Agrees f.sys)
    ⟨.init, .start, .refl _, rfl, rfl, rfl⟩ ?_
  intro tr f i e f' _ ih _ hs
  obtain ⟨s, hrun, hs₀⟩ := ih
  rcases fine_step hs with ⟨v, -, rfl, rfl⟩ | ⟨mv, -, hm, rfl, rfl⟩
  · refine ⟨s, acts_notifyAll tr i.1 v ▸ hrun, ?_, hs₀.pc, hs₀.stack, hs₀.result⟩
    exact hs₀.mem.trans (Mem.Agrees.of_notify f.sys.mem v).symm
  · have hnext : s.next i.1 i.2 = some mv := by rw [hs₀.next, hm.next_eq]
    have hstep : (pool T n).step s i = some ((i.1, mv.action), s.apply i.1 mv) := by
      simp [pool, hnext]
    have hsame := hs₀.apply i.1 mv
    have hadv := f.advance_agrees i.1 mv
    refine ⟨s.apply i.1 mv, ?_, hsame.mem.trans hadv.mem, hsame.pc.trans hadv.pc,
      hsame.stack.trans hadv.stack, hsame.result.trans hadv.result⟩
    rw [acts_act]
    exact hrun.next trivial hstep

/-- A run of the pool is one of the finer machine in which each `notify_all` follows its store at
once. -/
theorem fine_covers (h : (pool T n).Run AnyStep tr' s) :
    ∃ tr, (finePool T n).Run AnyStep tr ⟨s, fun _ => none, fun _ => none⟩ ∧ acts tr = tr' := by
  refine pool_invariant (J := fun tr' s => ∃ tr, (finePool T n).Run AnyStep tr
    ⟨s, fun _ => none, fun _ => none⟩ ∧ acts tr = tr') ⟨[], .start, rfl⟩ ?_ h
  intro tr' s t i mv _ ih _ hm
  obtain ⟨tr, hrun, rfl⟩ := ih
  have hfree : (⟨s, fun _ => none, fun _ => none⟩ : Fine T n).blocked t = false := by
    simp [Fine.blocked]
  have hrun' : (finePool T n).Run AnyStep (tr ++ [(t, .act mv.action)])
      ((⟨s, fun _ => none, fun _ => none⟩ : Fine T n).advance t mv) := by
    refine hrun.next (i := (t, i)) trivial ?_
    simp [finePool, Fine.step, hfree, hm.next_eq]
  cases hstore : s.mem.store mv.action with
  | none =>
    refine ⟨_, ?_, acts_act tr t mv.action⟩
    simpa [Fine.advance, hstore] using hrun'
  | some vm =>
    obtain ⟨v, m⟩ := vm
    refine ⟨_, ?_, (acts_notifyAll _ t v).trans (acts_act tr t mv.action)⟩
    refine hrun'.next (i := (t, .run)) trivial ?_
    have hend : s.apply t mv = { s.apply t mv with mem := m.notify v } := by
      rw [Mem.notify_store hstore (t := t)]
      rfl
    rw [hend]
    simp [finePool, Fine.step, Fine.advance, hstore, Fine.notify]

/-- The worker's wait in `run`: its debts are those of `doJob`, past the push, and of `stop`, past
the store to `active_`. -/
def queueWait (w : Fin n) : WaitPoint (Fine T n) where
  asleep f := (f.sys.worker w).queueCond = .asleep
  ready f := (f.sys.worker w).calls ≠ [] ∨ (f.sys.worker w).active = false
  owed f := (∃ t rest, f.sys.stack t = .notify w :: rest) ∨ ∃ t, f.owes t = some (.queue w)

/-- The caller's wait in `doSyncJob`: the debt is that of its closure, past the store to
`finished`. -/
def callWait (k : Nat) : WaitPoint (Fine T n) where
  asleep f := (f.sys.mem.syncCalls k).cond = .asleep
  ready f := (f.sys.mem.syncCalls k).finished = true
  owed f := ∃ t, f.owes t = some (.call k)

theorem Cond.notifyAll_ne_asleep (c : Cond) : c.notifyAll ≠ .asleep := by
  cases c <;> simp [notifyAll]

theorem Cond.notifyAll_ne_empty {c : Cond} (h : c ≠ .empty) : c.notifyAll ≠ .empty := by
  cases c <;> simp_all [notifyAll]

/-- What a step does to the waiter on a queue, a `notify_all` under the mutex apart. -/
@[simp] def Action.storeQueueCond (w : Fin n) (c : Cond) : Action T n → Cond
  | .deactivated _ => c
  | a => a.onQueueCond w c

/-- What a step does to the waiter on a call, a `notify_all` under the mutex apart. -/
@[simp] def Action.storeCallCond (k : Nat) (c : Cond) : Action T n → Cond
  | .finished _ => c
  | a => a.onCallCond k c

theorem Mem.store_conds {m m' : Mem T n} {a : Action T n} {v : CondVar n}
    (h : m.store a = some (v, m')) :
    (∀ w, (m'.workers w).queueCond = a.storeQueueCond w (m.workers w).queueCond) ∧
      ∀ k, (m'.syncCalls k).cond = a.storeCallCond k (m.syncCalls k).cond := by
  cases a <;> simp only [store, reduceCtorEq, Option.some.injEq, Prod.mk.injEq] at h
  all_goals
    obtain ⟨rfl, rfl⟩ := h
    refine ⟨fun w => ?_, fun k => ?_⟩
    all_goals
      simp only [onWorker_workers, onSyncCall_syncCalls, Action.storeQueueCond,
        Action.storeCallCond, Action.onQueueCond, Action.onCallCond]
      first | rfl | (split <;> simp_all)

theorem Mem.perform_conds {m : Mem T n} {a : Action T n} (h : m.store a = none) :
    (∀ w, ((m.perform t a).workers w).queueCond =
      a.storeQueueCond w (m.workers w).queueCond) ∧
      ∀ k, ((m.perform t a).syncCalls k).cond = a.storeCallCond k (m.syncCalls k).cond := by
  refine ⟨fun w => (m.perform_queueCond t a w).trans ?_,
    fun k => (m.perform_callCond t a k).trans ?_⟩
  all_goals cases a <;> first | rfl | simp [store] at h

theorem Fine.advance_queueCond (f : Fine T n) (t : Tid n) (mv : Move T n) (w : Fin n) :
    ((f.advance t mv).sys.worker w).queueCond =
      mv.action.storeQueueCond w (f.sys.worker w).queueCond := by
  unfold advance
  split
  · rename_i hstore
    exact (Mem.store_conds hstore).1 w
  · rename_i hnone
    exact (Mem.perform_conds hnone).1 w

theorem Fine.advance_callCond (f : Fine T n) (t : Tid n) (mv : Move T n) (k : Nat) :
    ((f.advance t mv).sys.mem.syncCalls k).cond =
      mv.action.storeCallCond k (f.sys.mem.syncCalls k).cond := by
  unfold advance
  split
  · rename_i hstore
    exact (Mem.store_conds hstore).2 k
  · rename_i hnone
    exact (Mem.perform_conds hnone).2 k

theorem Fine.owes_advance {f : Fine T n} (hnone : f.owes t = none) {v : CondVar n}
    (h : f.owes u = some v) : (f.advance t mv).owes u = some v := by
  have hu : u ≠ t := by
    intro heq
    rw [heq, hnone] at h
    cases h
  unfold advance
  split
  · exact (Function.update_of_ne hu ..).trans h
  · exact h

theorem Fine.advance_stack (f : Fine T n) (t : Tid n) (mv : Move T n) :
    (f.advance t mv).sys.stack = (f.sys.apply t mv).stack := by
  unfold advance
  split <;> rfl

theorem owes_notify {f : Fine T n} {v v' : CondVar n} (hv : f.owes t = some v)
    (hu : f.owes u = some v') (hne : v ≠ v') : (f.notify t v).owes u = some v' := by
  have hut : u ≠ t := by
    intro heq
    rw [heq, hv] at hu
    exact hne (Option.some.inj hu)
  exact (Function.update_of_ne hut ..).trans hu

theorem Fine.notify_queueCond (f : Fine T n) (t : Tid n) (v : CondVar n) (w : Fin n) :
    ((f.notify t v).sys.worker w).queueCond =
      if v = .queue w then (f.sys.worker w).queueCond.notifyAll
      else (f.sys.worker w).queueCond := by
  cases v with
  | queue v =>
    simp only [notify, Sys.worker, Mem.notify, Mem.onWorker_workers, CondVar.queue.injEq,
      eq_comm (a := v)]
    split
    · rename_i hw
      rw [hw]
      rfl
    · rfl
  | call k => rfl

theorem Fine.notify_callCond (f : Fine T n) (t : Tid n) (v : CondVar n) (k : Nat) :
    ((f.notify t v).sys.mem.syncCalls k).cond =
      if v = .call k then (f.sys.mem.syncCalls k).cond.notifyAll
      else (f.sys.mem.syncCalls k).cond := by
  cases v with
  | queue v => rfl
  | call l =>
    simp only [notify, Mem.notify, Mem.onSyncCall_syncCalls, CondVar.call.injEq,
      eq_comm (a := l)]
    split
    · rename_i hk
      rw [hk]
    · rfl

theorem queueWait_notify (f : Fine T n) {v : CondVar n} (hv : f.owes t = some v) (w : Fin n) :
    (queueWait w).Step f (f.notify t v) := by
  have hcond := f.notify_queueCond t v w
  by_cases hw : v = .queue w
  · refine .wakes ?_
    rw [if_pos hw] at hcond
    simp only [queueWait, hcond]
    exact Cond.notifyAll_ne_asleep _
  · rw [if_neg hw] at hcond
    have hagrees := Mem.Agrees.of_notify f.sys.mem v
    refine .keeps (fun h => hcond.symm.trans h) (fun h => .inl ?_) ?_
    · exact h.imp (fun hc => hagrees.calls w ▸ hc) (fun ha => (hagrees.active w).symm.trans ha)
    · intro howed
      rcases howed with hpush | ⟨u, hu⟩
      · exact .inl hpush
      · exact .inr ⟨u, owes_notify hv hu hw⟩

theorem Fine.advance_calls (f : Fine T n) (t : Tid n) (mv : Move T n) (w : Fin n) :
    ((f.advance t mv).sys.worker w).calls = mv.action.onCalls w (f.sys.worker w).calls :=
  ((f.advance_agrees t mv).mem.calls w).symm.trans (f.sys.apply_calls t mv w)

theorem Fine.advance_active (f : Fine T n) (t : Tid n) (mv : Move T n) (w : Fin n) :
    ((f.advance t mv).sys.worker w).active = mv.action.onActive w (f.sys.worker w).active :=
  ((f.advance_agrees t mv).mem.active w).symm.trans (f.sys.apply_active t mv w)

theorem Moves.slept_inv (hm : Moves s t i mv) (ha : mv.action = .slept w) :
    (s.worker w).calls = [] ∧ (s.worker w).active = true := by
  cases hm <;> cases ha
  exact ⟨‹_›, ‹_›⟩

/-- A debt of `doJob` is settled by its `notify_all` only. -/
theorem queueWait_owed {f : Fine T n} (hnone : f.owes t = none) (hm : Moves f.sys t i mv)
    (hno : mv.action ≠ .signalled w) (h : (queueWait w).owed f) :
    (queueWait w).owed (f.advance t mv) := by
  rcases h with ⟨u, rest, hs⟩ | ⟨u, hu⟩
  · by_cases hut : u = t
    · subst hut
      obtain rfl := hm.eq_of_frame hs (by simp) rfl
      exact absurd rfl hno
    · refine .inl ⟨u, rest, ?_⟩
      rw [f.advance_stack, Sys.apply_stack_other mv hut, hs]
  · exact .inr ⟨u, Fine.owes_advance hnone hu⟩

/-- A step that neither wakes the worker nor changes what it waits for leaves it waiting. -/
theorem queueWait_frame {f : Fine T n} (hnone : f.owes t = none) (hm : Moves f.sys t i mv)
    (hcond : ((f.advance t mv).sys.worker w).queueCond = (f.sys.worker w).queueCond)
    (hready : (queueWait w).ready (f.advance t mv) → (queueWait w).ready f)
    (hno : mv.action ≠ .signalled w) : (queueWait w).Step f (f.advance t mv) := by
  refine .keeps ?_ (fun h => .inl (hready h)) (queueWait_owed hnone hm hno)
  simp only [queueWait, hcond]
  exact id

theorem queueWait_advance {f : Fine T n} (hnone : f.owes t = none) (hm : Moves f.sys t i mv)
    (w : Fin n) : (queueWait w).Step f (f.advance t mv) := by
  have hcond := f.advance_queueCond t mv w
  have hcalls := f.advance_calls t mv w
  have hactive := f.advance_active t mv w
  have howed := queueWait_owed (w := w) hnone hm
  have hframe := queueWait_frame (w := w) hnone hm
  cases ha : mv.action with
  | slept v =>
    rw [ha] at hcond hcalls hactive hframe
    by_cases hv : w = v
    · subst hv
      obtain ⟨hc, hact⟩ := hm.slept_inv ha
      refine .sleeps ?_
      simp [queueWait, hcalls, hactive, hc, hact]
    · exact hframe (by simp [hcond, hv]) (by simp [queueWait, hcalls, hactive]) (by simp)
  | signalled v =>
    rw [ha] at hcond hcalls hactive hframe
    by_cases hv : w = v
    · subst hv
      refine .wakes ?_
      simp only [queueWait, hcond, Action.storeQueueCond, Action.onQueueCond, if_true]
      exact Cond.notifyAll_ne_asleep _
    · refine hframe (by simp [hcond, hv]) (by simp [queueWait, hcalls, hactive]) ?_
      simpa using Ne.symm hv
  | passed v | dequeued v j =>
    rw [ha] at hcond hcalls hactive hframe
    by_cases hv : w = v
    · subst hv
      refine .wakes ?_
      simp [queueWait, hcond]
    · exact hframe (by simp [hcond, hv]) (by simp [queueWait, hcalls, hactive, hv]) (by simp)
  | pushed v j strand =>
    rw [ha] at hcond hcalls hactive howed hframe
    by_cases hv : w = v
    · subst hv
      obtain ⟨rest, hs, -, hfr⟩ := hm.pushed_inv ha
      refine .keeps ?_ (fun _ => .inr (.inl ⟨t, rest, ?_⟩)) (howed (by simp))
      · simp [queueWait, hcond]
      · rw [f.advance_stack, Sys.apply_stack_self, hs, hfr]
        rfl
    · exact hframe (by simp [hcond]) (by simp [queueWait, hcalls, hactive, hv]) (by simp)
  | deactivated v =>
    rw [ha] at hcond hcalls hactive howed hframe
    by_cases hv : w = v
    · subst hv
      refine .keeps ?_ (fun _ => .inr (.inr ⟨t, ?_⟩)) (howed (by simp))
      · simp [queueWait, hcond]
      · simp [Fine.advance, ha, Mem.store]
    · exact hframe (by simp [hcond]) (by simp [queueWait, hcalls, hactive, hv]) (by simp)
  | cancelled v name js =>
    rw [ha] at hcond hcalls hactive hframe
    refine hframe (by simp [hcond]) ?_ (by simp)
    simp only [queueWait, hcalls, hactive, Action.onCalls, Action.onActive]
    split
    · simp only [AsyncWorker.removeIf, AsyncWorker.cancelPredicate, Bool.not_true,
        List.filter_false, ne_eq, not_true_eq_false, false_or]
      exact .inr
    · exact id
  | _ =>
    rw [ha] at hcond hcalls hactive hframe
    exact hframe (by simp [hcond]) (by simp [queueWait, hcalls, hactive]) (by simp)

theorem callWait_notify (f : Fine T n) {v : CondVar n} (hv : f.owes t = some v) (k : Nat) :
    (callWait k).Step f (f.notify t v) := by
  have hcond := f.notify_callCond t v k
  by_cases hk : v = .call k
  · refine .wakes ?_
    rw [if_pos hk] at hcond
    simp only [callWait, hcond]
    exact Cond.notifyAll_ne_asleep _
  · rw [if_neg hk] at hcond
    have hagrees := Mem.Agrees.of_notify f.sys.mem v
    refine .keeps (fun h => hcond.symm.trans h)
      (fun h => .inl ((hagrees.finished k).symm.trans h)) ?_
    intro howed
    obtain ⟨u, hu⟩ := howed
    exact ⟨u, owes_notify hv hu hk⟩

theorem Fine.advance_finished (f : Fine T n) (t : Tid n) (mv : Move T n) (k : Nat) :
    ((f.advance t mv).sys.mem.syncCalls k).finished =
      mv.action.onFinished k (f.sys.mem.syncCalls k).finished :=
  ((f.advance_agrees t mv).mem.finished k).symm.trans
    (f.sys.mem.perform_finished t mv.action k)

theorem Moves.dozed_inv (hm : Moves s t i mv) (ha : mv.action = .dozed k) :
    (s.mem.syncCalls k).finished = false := by
  cases hm <;> cases ha
  assumption

theorem callWait_advance {f : Fine T n} (hnone : f.owes t = none) (hm : Moves f.sys t i mv)
    (k : Nat) : (callWait k).Step f (f.advance t mv) := by
  have hcond := f.advance_callCond t mv k
  have hfin := f.advance_finished t mv k
  have howed : (callWait k).owed f → (callWait k).owed (f.advance t mv) := by
    intro h
    obtain ⟨u, hu⟩ := h
    exact ⟨u, Fine.owes_advance hnone hu⟩
  have hframe (hc : ((f.advance t mv).sys.mem.syncCalls k).cond = (f.sys.mem.syncCalls k).cond)
      (hf : ((f.advance t mv).sys.mem.syncCalls k).finished =
        (f.sys.mem.syncCalls k).finished) : (callWait k).Step f (f.advance t mv) := by
    refine .keeps ?_ (fun h => .inl (hf.symm.trans h)) howed
    exact fun h => hc.symm.trans h
  cases ha : mv.action with
  | dozed l =>
    rw [ha] at hcond hfin
    by_cases hl : k = l
    · subst hl
      refine .sleeps ?_
      simp [callWait, hfin, hm.dozed_inv ha]
    · exact hframe (by simp [hcond, hl]) (by simp [hfin])
  | woke l | opened l =>
    rw [ha] at hcond hfin
    by_cases hl : k = l
    · subst hl
      refine .wakes ?_
      simp [callWait, hcond]
    · exact hframe (by simp [hcond, hl]) (by simp [hfin, hl])
  | finished l =>
    rw [ha] at hcond hfin
    by_cases hl : k = l
    · subst hl
      refine .keeps ?_ (fun _ => .inr ⟨t, ?_⟩) howed
      · exact fun h => (hcond.symm.trans h)
      · simp [Fine.advance, ha, Mem.store]
    · exact hframe (by simp [hcond]) (by simp [hfin, hl])
  | _ =>
    rw [ha] at hcond hfin
    exact hframe hcond hfin

/-- Who stands in a wait is marked as asleep or as notified. -/
structure Fine.Marked (f : Fine T n) : Prop where
  workers : ∀ {w}, f.sys.pc w = .asleep → (f.sys.worker w).queueCond ≠ .empty
  callers : ∀ {t k rest}, f.sys.stack t = .syncAsleep k :: rest →
    (f.sys.mem.syncCalls k).cond ≠ .empty

theorem Fine.Marked.notify {f : Fine T n} (h : f.Marked) (t : Tid n) (v : CondVar n) :
    (f.notify t v).Marked := by
  refine ⟨fun {w} hp => ?_, fun {u k rest} hs => ?_⟩
  · rw [f.notify_queueCond]
    split
    · exact Cond.notifyAll_ne_empty (h.workers hp)
    · exact h.workers hp
  · rw [f.notify_callCond]
    split
    · exact Cond.notifyAll_ne_empty (h.callers hs)
    · exact h.callers hs

/-- A worker comes to its wait by going to sleep, and nobody else takes its mark away. -/
theorem Moves.asleep_step (hm : Moves s t i mv) (hp : s.setPc t mv.pc w = .asleep) :
    mv.action = .slept w ∨
      s.pc w = .asleep ∧ ∀ c, c ≠ .empty → mv.action.storeQueueCond w c ≠ .empty := by
  rcases s.at_loop t w with hw | ⟨rfl, hs⟩
  · refine .inr ⟨(hm.pc_frame w hw).1.symm.trans hp, ?_⟩
    intro c hc
    cases hm
    case dequeue v _ _ ht hs _ _ _ | pass v ht hs _ _ _ =>
      have hv : w ≠ v := fun h => hw (h ▸ ht) hs
      simpa [hv] using hc
    case sleep v _ _ _ _ _ _ =>
      simp only [Action.storeQueueCond, Action.onQueueCond]
      split <;> simp [hc]
    case notify v _ _ =>
      simp only [Action.storeQueueCond, Action.onQueueCond]
      split
      · exact Cond.notifyAll_ne_empty hc
      · exact hc
    all_goals exact hc
  · cases hm
    case sleep v ht _ _ _ _ _ =>
      obtain rfl := Tid.worker.inj ht
      exact .inl rfl
    all_goals simp_all

/-- A thread comes to its wait by going to sleep. -/
theorem Moves.syncAsleep_frames (hm : Moves s t i mv) {l : List (Frame T n)}
    (hfr : mv.frames = .syncAsleep k :: l) : mv.action = .dozed k := by
  cases hm
  case syncSleep =>
    obtain ⟨⟨rfl⟩, -⟩ := by simpa using hfr
    rfl
  case call op _ _ _ | callBack op _ _ => cases op <;> simp [Op.enter] at hfr
  case scanPlace | bindStrand =>
    unfold Sys.place at hfr
    split at hfr <;> simp at hfr
  all_goals simp at hfr

theorem Moves.woke_inv (hm : Moves s t i mv) (ha : mv.action = .woke k) :
    ∃ rest, s.stack t = .syncAsleep k :: rest := by
  cases hm <;> cases ha
  exact ⟨_, ‹_›⟩

/-- A call a thread is inside is opened and left by no other thread. -/
theorem Moves.callCond_kept (hm : Moves s t i mv) (hrun : (pool T n).Run ok' tr' s)
    (hw : s.WaitsIn u k) (hu : u ≠ t) {c : Cond} (hc : c ≠ .empty) :
    mv.action.storeCallCond k c ≠ .empty := by
  cases ha : mv.action with
  | opened l =>
    have hl : k ≠ l := by
      have hlt := hw.below hrun
      have hl := hm.opened_inv ha
      omega
    simpa [hl] using hc
  | woke l =>
    have hl : k ≠ l := by
      intro hl
      subst hl
      obtain ⟨rest, hs⟩ := hm.woke_inv ha
      exact hu (waits_unique hrun hw ⟨.syncAsleep k, by simp [hs], rfl⟩)
    simpa [hl] using hc
  | dozed l =>
    simp only [Action.storeCallCond, Action.onCallCond]
    split <;> simp [hc]
  | _ => exact hc

theorem Fine.Marked.advance {f : Fine T n} (h : f.Marked) (hrun : (pool T n).Run ok' tr' s)
    (hs : s.stack = f.sys.stack) (hagrees : s.Agrees f.sys) (hm : Moves f.sys t i mv) :
    (f.advance t mv).Marked := by
  have hrest := resting_below hrun
  have hnext : s.next t i = some mv := by rw [hagrees.next, hm.next_eq]
  have hm₀ : Moves s t i mv := Sys.next_moves hnext
  refine ⟨fun {w} hp => ?_, fun {u k rest} htop => ?_⟩
  · rw [f.advance_queueCond]
    have hpc : (f.advance t mv).sys.pc = f.sys.setPc t mv.pc :=
      (f.advance_agrees t mv).pc.symm
    rw [hpc] at hp
    rcases hm.asleep_step hp with ha | ⟨hp₀, hkept⟩
    · simp [ha]
    · exact hkept _ (h.workers hp₀)
  · rw [f.advance_callCond]
    rw [f.advance_stack] at htop
    rcases Sys.apply_top (hs ▸ hrest t) htop with ⟨hu, hs₀⟩ | ⟨-, l, hfr, -⟩ | ⟨-, -, -, hno⟩
    · have hw : s.WaitsIn u k := ⟨.syncAsleep k, by simp [hs, hs₀], rfl⟩
      exact hm₀.callCond_kept hrun hw hu (h.callers hs₀)
    · simp [hm.syncAsleep_frames hfr]
    · cases hno

theorem marked (h : (finePool T n).Run ok tr f) : f.Marked := by
  refine h.invariant (J := fun _ f => f.Marked) ?_ ?_
  · exact ⟨fun {w} hp => (by cases hp), fun {t k rest} hs => (by cases hs)⟩
  · intro tr f i e f' hrun ih _ hs
    rcases fine_step hs with ⟨v, -, -, rfl⟩ | ⟨mv, -, hm, -, rfl⟩
    · exact ih.notify i.1 v
    · obtain ⟨s, hs, hagrees⟩ := fine_refines hrun
      exact ih.advance hs hagrees.stack hagrees hm

theorem queueWait_sound (h : (finePool T n).Run ok tr f) (w : Fin n) : (queueWait w).Sound f := by
  refine WaitPoint.sound_of_run ?_ ?_ h
  · intro hasleep
    cases hasleep
  · intro tr f i e f' _ _ hs
    rcases fine_step hs with ⟨v, hv, -, rfl⟩ | ⟨mv, hnone, hm, -, rfl⟩
    · exact queueWait_notify f hv w
    · exact queueWait_advance hnone hm w

theorem callWait_sound (h : (finePool T n).Run ok tr f) (k : Nat) : (callWait k).Sound f := by
  refine WaitPoint.sound_of_run ?_ ?_ h
  · intro hasleep
    cases hasleep
  · intro tr f i e f' _ _ hs
    rcases fine_step hs with ⟨v, hv, -, rfl⟩ | ⟨mv, hnone, hm, -, rfl⟩
    · exact callWait_notify f hv k
    · exact callWait_advance hnone hm k

theorem Cond.asleep_of_ne {c : Cond} (h : c ≠ .empty) (h' : c ≠ .notified) : c = .asleep := by
  cases c <;> simp_all

/-- No wake-up is lost: whoever is in a wait and not notified finds its predicate false if it
looks, or a thread past the change has its `notify_all` still to do. -/
theorem no_wakeup_lost (h : (finePool T n).Run AnyStep tr f) :
    (∀ w, f.sys.pc w = .asleep → (f.sys.worker w).queueCond ≠ .notified →
      ((f.sys.worker w).calls = [] ∧ (f.sys.worker w).active = true) ∨
        (∃ t rest, f.sys.stack t = .notify w :: rest) ∨ ∃ t, f.owes t = some (.queue w)) ∧
    ∀ t k rest, f.sys.stack t = .syncAsleep k :: rest →
      (f.sys.mem.syncCalls k).cond ≠ .notified →
      (f.sys.mem.syncCalls k).finished = false ∨ ∃ u, f.owes u = some (.call k) := by
  refine ⟨?_, ?_⟩
  · intro w hp hno
    have hasleep := Cond.asleep_of_ne ((marked h).workers hp) hno
    refine (queueWait_sound h w hasleep).imp ?_ id
    intro hready
    simpa [queueWait] using hready
  · intro t k rest hs hno
    have hasleep := Cond.asleep_of_ne ((marked h).callers hs) hno
    refine (callWait_sound h k hasleep).imp ?_ id
    intro hready
    simpa [callWait] using hready

/-- A worker sleeps, one client is blocked on the other worker, and another has pushed a job on the
sleeping one and not notified it. -/
def pushedRun : List (Tid 2 × FineAction .unit 2) × Fine .unit 2 :=
  (finePool .unit 2).drive (fun _ _ _ => true)
    ((Tid.worker worker₁).steps 2 ++
      (Tid.client 0).calls (.doSyncJob worker₀ "a" (some 0) none) 5 ++
      (Tid.client 1).calls (.doJob worker₁ "b" (some 0) none) 1)

theorem no_wakeup_lost_pushedRun :
    (((pushedRun.2.sys.worker worker₁).calls = [] ∧
      (pushedRun.2.sys.worker worker₁).active = true) ∨
        (∃ t rest, pushedRun.2.sys.stack t = .notify worker₁ :: rest) ∨
        ∃ t, pushedRun.2.owes t = some (.queue worker₁)) ∧
    ((pushedRun.2.sys.mem.syncCalls 0).finished = false ∨
      ∃ u, pushedRun.2.owes u = some (.call 0)) := by
  have h : (finePool .unit 2).Run AnyStep pushedRun.1 pushedRun.2 :=
    run_drive (fun _ _ _ _ => trivial) _
  have hs : pushedRun.2.sys.stack (.client 0) = [.syncAsleep 0] := rfl
  have hqueue : (pushedRun.2.sys.worker worker₁).queueCond = .asleep := rfl
  have hcall : (pushedRun.2.sys.mem.syncCalls 0).cond = .asleep := rfl
  exact ⟨(no_wakeup_lost h).1 worker₁ rfl (by simp [hqueue]),
    (no_wakeup_lost h).2 (.client 0) 0 [] hs (by simp [hcall])⟩

end ServiceLib
