import ServiceLib.Model.Moves

namespace ServiceLib

variable {T : ArgTypes} {n : Nat}

namespace Action

/-- What an action does to `calls_` of worker `w`. -/
@[simp] def onCalls (w : Fin n) (cs : List (JobContext T)) : Action T n → List (JobContext T)
  | .pushed v j _ => if w = v then cs ++ [j] else cs
  | .dequeued v _ => if w = v then cs.tail else cs
  | .cancelled v id _ =>
    if w = v then AsyncWorker.removeIf (AsyncWorker.cancelPredicate id) cs else cs
  | _ => cs

/-- What an action does to `active_` of worker `w`. -/
@[simp] def onActive (w : Fin n) (b : Bool) : Action T n → Bool
  | .deactivated v => if w = v then false else b
  | _ => b

/-- What an action of thread `t` does to `queueLock_` of worker `w`. -/
@[simp] def onQueueLock (t : Tid n) (w : Fin n) (o : Option (Tid n)) : Action T n → Option (Tid n)
  | .queueLocked v => if w = v then some t else o
  | .cancelled v _ _ => if w = v then none else o
  | _ => o

/-- What an action of thread `t` does to `executingLock_` of worker `w`. -/
@[simp] def onExecutingLock (t : Tid n) (w : Fin n) (o : Option (Tid n)) :
    Action T n → Option (Tid n)
  | .began v _ => if w = v then some t else o
  | .ended v _ => if w = v then none else o
  | _ => o

/-- What an action does to `executing_` of worker `w`. -/
@[simp] def onExecuting (w : Fin n) (b : Bool) : Action T n → Bool
  | .began v _ => if w = v then true else b
  | .ended v _ => if w = v then false else b
  | _ => b

/-- What an action does to `outstandingJobs_` of worker `w`, whose queue is `cs`. -/
@[simp] def onLoad (w : Fin n) (cs : List (JobContext T)) (x : SizeT) : Action T n → SizeT
  | .counted v => if w = v then x + 1 else x
  | .dequeued v _ => if w = v then x - 1 else x
  | .cancelled v id _ =>
    if w = v then
      BitVec.ofNat 64 (AsyncWorker.removeIf (AsyncWorker.cancelPredicate id) cs).length
    else x
  | _ => x

/-- What an action does to the flag of the `doSyncJob` call `k`. -/
@[simp] def onFinished (k : Nat) (b : Bool) : Action T n → Bool
  | .finished l => if k = l then true else b
  | .opened l => if k = l then false else b
  | _ => b

/-- What an action does to the waiter on `queueCond_` of worker `w`. -/
@[simp] def onQueueCond (w : Fin n) (c : Cond) : Action T n → Cond
  | .signalled v | .deactivated v => if w = v then c.notifyAll else c
  | .slept v => if w = v then .asleep else c
  | .passed v | .dequeued v _ => if w = v then .empty else c
  | _ => c

/-- What an action does to the waiter on the `cond` of the `doSyncJob` call `k`. -/
@[simp] def onCallCond (k : Nat) (c : Cond) : Action T n → Cond
  | .finished l => if k = l then c.notifyAll else c
  | .dozed l => if k = l then .asleep else c
  | .woke l | .opened l => if k = l then .empty else c
  | _ => c

@[simp] def onStrands (m : String → Option (Fin n)) : Action T n → String → Option (Fin n)
  | .bound strand w => Function.update m strand (some w)
  | _ => m

@[simp] def onFresh (k : Nat) : Action T n → Nat
  | .lookedUp _ _ _ => k + 1
  | .opened _ => k + 1
  | .pushed _ _ _ => k + 1
  | _ => k

@[simp] def onMappingLock (t : Tid n) (l : RecursiveMutex (Tid n)) :
    Action T n → RecursiveMutex (Tid n)
  | .stored _ _ => l.lock t
  | .erased _ => l.lock t
  | .ranAtOnce _ _ => l.lock t
  | .unregistered _ => l.unlock
  | .released => l.unlock
  | .notified _ => l.unlock
  | _ => l

@[simp] def onRegistry (r : Registry (CallbackType T × String) ClientFn) :
    Action T n → Registry (CallbackType T × String) ClientFn
  | .stored id st => r.store id st
  | .erased id => r.eraseAction id
  | .watched id cb => r.watch id cb
  | .notified id => r.eraseWatchers id
  | _ => r

end Action

namespace Mem

variable (m : Mem T n) (t : Tid n) (a : Action T n) (w : Fin n)

private theorem perform_fields :
    ((m.perform t a).workers w).calls = a.onCalls w (m.workers w).calls ∧
    ((m.perform t a).workers w).active = a.onActive w (m.workers w).active ∧
    ((m.perform t a).workers w).queueLock = a.onQueueLock t w (m.workers w).queueLock ∧
    ((m.perform t a).workers w).executingLock =
      a.onExecutingLock t w (m.workers w).executingLock ∧
    ((m.perform t a).workers w).executing = a.onExecuting w (m.workers w).executing ∧
    ((m.perform t a).workers w).outstandingJobs =
      a.onLoad w (m.workers w).calls (m.workers w).outstandingJobs := by
  cases a <;> simp only [perform, Action.onCalls, Action.onActive, Action.onQueueLock,
    Action.onExecutingLock, Action.onExecuting, Action.onLoad, onWorker_workers, onSyncCall,
    and_self]
  all_goals
    split <;> simp_all [AsyncWorker.pushBack, AsyncWorker.popFront, AsyncWorker.notifyAll,
      AsyncWorker.increment, AsyncWorker.deactivate, AsyncWorker.cancelJobsFor,
      AsyncWorker.beginExecuting, AsyncWorker.endExecuting]

theorem perform_calls :
    ((m.perform t a).workers w).calls = a.onCalls w (m.workers w).calls :=
  (m.perform_fields t a w).1

theorem perform_active :
    ((m.perform t a).workers w).active = a.onActive w (m.workers w).active :=
  (m.perform_fields t a w).2.1

theorem perform_queueLock :
    ((m.perform t a).workers w).queueLock = a.onQueueLock t w (m.workers w).queueLock :=
  (m.perform_fields t a w).2.2.1

theorem perform_executingLock :
    ((m.perform t a).workers w).executingLock =
      a.onExecutingLock t w (m.workers w).executingLock :=
  (m.perform_fields t a w).2.2.2.1

theorem perform_executing :
    ((m.perform t a).workers w).executing = a.onExecuting w (m.workers w).executing :=
  (m.perform_fields t a w).2.2.2.2.1

theorem perform_load : ((m.perform t a).workers w).outstandingJobs =
    a.onLoad w (m.workers w).calls (m.workers w).outstandingJobs :=
  (m.perform_fields t a w).2.2.2.2.2

theorem perform_finished (k : Nat) :
    ((m.perform t a).syncCalls k).finished = a.onFinished k (m.syncCalls k).finished := by
  cases a <;> simp only [perform, Action.onFinished, onSyncCall_syncCalls, onWorker] <;> split <;>
    simp_all

theorem perform_queueCond :
    ((m.perform t a).workers w).queueCond = a.onQueueCond w (m.workers w).queueCond := by
  cases a <;> simp only [perform, Action.onQueueCond, onWorker_workers, onSyncCall]
  all_goals
    split <;> simp_all [AsyncWorker.pushBack, AsyncWorker.popFront, AsyncWorker.notifyAll,
      AsyncWorker.increment, AsyncWorker.deactivate, AsyncWorker.cancelJobsFor,
      AsyncWorker.beginExecuting, AsyncWorker.endExecuting]

theorem perform_callCond (k : Nat) :
    ((m.perform t a).syncCalls k).cond = a.onCallCond k (m.syncCalls k).cond := by
  cases a <;> simp only [perform, Action.onCallCond, onSyncCall_syncCalls, onWorker] <;> split <;>
    simp_all

theorem perform_strands : (m.perform t a).strands = a.onStrands m.strands := by
  cases a <;> rfl

theorem perform_fresh : (m.perform t a).fresh = a.onFresh m.fresh := by
  cases a <;> rfl

theorem perform_mappingLock :
    (m.perform t a).mappingLock = a.onMappingLock t m.mappingLock := by
  cases a <;> rfl

theorem perform_registry : (m.perform t a).registry = a.onRegistry m.registry := by
  cases a <;> rfl

end Mem

namespace Sys

variable (s : Sys T n) (t : Tid n) (mv : Move T n) (w : Fin n)

theorem apply_calls :
    ((s.apply t mv).worker w).calls = mv.action.onCalls w (s.worker w).calls :=
  s.mem.perform_calls t mv.action w

theorem apply_active :
    ((s.apply t mv).worker w).active = mv.action.onActive w (s.worker w).active :=
  s.mem.perform_active t mv.action w

theorem apply_queueLock :
    ((s.apply t mv).worker w).queueLock = mv.action.onQueueLock t w (s.worker w).queueLock :=
  s.mem.perform_queueLock t mv.action w

theorem apply_executingLock : ((s.apply t mv).worker w).executingLock =
    mv.action.onExecutingLock t w (s.worker w).executingLock :=
  s.mem.perform_executingLock t mv.action w

theorem apply_executing :
    ((s.apply t mv).worker w).executing = mv.action.onExecuting w (s.worker w).executing :=
  s.mem.perform_executing t mv.action w

theorem apply_load : ((s.apply t mv).worker w).outstandingJobs =
    mv.action.onLoad w (s.worker w).calls (s.worker w).outstandingJobs :=
  s.mem.perform_load t mv.action w

/-- A number once used is not given again. -/
theorem fresh_mono : s.mem.fresh ≤ (s.apply t mv).mem.fresh := by
  rw [apply_mem, Mem.perform_fresh]
  cases mv.action <;> simp

end Sys

end ServiceLib
