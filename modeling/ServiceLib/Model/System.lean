import ServiceLib.Framework.RecursiveMutex
import ServiceLib.Model.Registry
import ServiceLib.Model.Worker

namespace ServiceLib

/-- A thread: one of the clients', or the one a worker of the pool owns. -/
inductive Tid (n : Nat)
  | client (k : Nat)
  | worker (w : Fin n)
  deriving DecidableEq

/-- The calls client code can make: the scheduler's, the dispatcher's and a worker's own. -/
inductive Op (T : ArgTypes) (n : Nat)
  | interfaceCall (id : String) (prop : CallProperty) (args : ParamArgs T)
  | registerInterface (id : String) (action : CallbackType T) (typeId : String)
  | registerInterfaceFor (id : String) (tuple : T.Tuple) (action : Option ClientFn)
  | unRegiterInterface (id : String)
  | isServiceRegistered (id : String)
  | subscribeForRegistration (id : String) (cb : ClientFn)
  | scheduleJob (name : String) (action onDone : Option ClientFn) (waitForDone : Bool)
      (strand : String)
  | cancelJobsFor (id : String)
  | stop
  | doJob (w : Fin n) (name : String) (call onDone : Option ClientFn)
  | doSyncJob (w : Fin n) (name : String) (call onDone : Option ClientFn)
  | cancelOn (w : Fin n) (name : String)
  | stopWorker (w : Fin n)

/-- The arguments of `AsyncDispatcher::scheduleJob`. -/
structure Request (T : ArgTypes) where
  name : String
  action : Option (Callable T)
  onDone : Option (Callable T)
  waitForDone : Bool
  strand : String

/-- Where a thread stands in a function of the library; what is listed is what is left to do.
`user` is client code, which may call the library or return. -/
inductive Frame (T : ArgTypes) (n : Nat)
  | user
  | invoke (c : Callable T)
  | syncFinish (k : Nat)
  -- InterfaceScheduler
  | checkAndInvoke (id : String) (prop : CallProperty) (args : ParamArgs T)
  | syncOnDone (onDone : Option ClientFn)
  | syncReturn (o : Outcome)
  | registerFor (id : String) (tuple : T.Tuple) (action : Option ClientFn)
  | register (id : String) (action : CallbackType T) (typeId : String)
  | notifyLoop (id : String) (i len : Nat)
  | unregister (id : String)
  | unregisterExit (id : String)
  | isRegistered (id : String)
  | subscribe (id : String) (cb : ClientFn)
  | subscribeExit
  -- AsyncDispatcher
  | schedule (req : Request T)
  | scan (req : Request T) (res : Fin n) (it : Nat) (load : Option SizeT)
  | bindStrand (req : Request T) (idle : Fin n)
  | cancelLoop (id : String) (i : Nat)
  | stopLoop (i : Nat)
  -- AsyncWorker
  | push (w : Fin n) (name : String) (call onDone : Option (Callable T)) (strand : String)
  | notify (w : Fin n)
  | increment (w : Fin n)
  | doSync (w : Fin n) (name : String) (call onDone : Option (Callable T)) (strand : String)
  | syncWait (k : Nat)
  | syncAsleep (k : Nat)
  | cancelLock (id : String) (w : Fin n)
  | cancelScan (id : String) (w : Fin n) (left : List (JobContext T))
  | stopCheck (w : Fin n)
  | stopPoll (w : Fin n)
  | stopJoin (w : Fin n)

/-- Where a worker's thread stands in `AsyncWorker::run` when no callback is running on it. -/
inductive WorkerPc (T : ArgTypes)
  | test
  | lock
  | asleep
  | relock
  | acquire (j : JobContext T)
  | action (j : JobContext T)
  | inAction (j : JobContext T)
  | onDone (j : JobContext T)
  | inOnDone (j : JobContext T)
  | finish (j : JobContext T)
  | exited

/-- The atomic actions of the library. A label is what a run leaves in its history. -/
inductive Action (T : ArgTypes) (n : Nat)
  | tau
  | called (op : Op T n)
  | entered (f : ClientFn)
  | returned (b : Bool)
  | executed (call : Nat) (action : CallbackType T) (param : ParamArgs T)
  | finished (k : Nat)
  -- InterfaceScheduler, under mappingLock_
  | lookedUp (call : Nat) (id : String) (args : ParamArgs T)
  | stored (id : String) (state : CallbackType T × String)
  | erased (id : String)
  | unregistered (id : String)
  | watched (id : String) (cb : ClientFn)
  | ranAtOnce (id : String) (cb : ClientFn)
  | released
  | notified (id : String)
  -- AsyncDispatcher
  | bound (strand : String) (w : Fin n)
  | stopped
  -- AsyncWorker, callers
  | opened (k : Nat)
  | pushed (w : Fin n) (j : JobContext T) (strand : String)
  | signalled (w : Fin n)
  | counted (w : Fin n)
  | dozed (k : Nat)
  | woke (k : Nat)
  | awaited (k : Nat)
  | queueLocked (w : Fin n)
  | cancelled (w : Fin n) (id : String) (js : List (JobContext T))
  | deactivated (w : Fin n)
  | joined (w : Fin n)
  -- AsyncWorker, its own thread
  | slept (w : Fin n)
  | passed (w : Fin n)
  | dequeued (w : Fin n) (j : JobContext T)
  | began (w : Fin n) (j : JobContext T)
  | actionBegan (w : Fin n) (j : JobContext T)
  | actionEnded (w : Fin n) (j : JobContext T)
  | onDoneBegan (w : Fin n) (j : JobContext T)
  | onDoneEnded (w : Fin n) (j : JobContext T)
  | ended (w : Fin n) (j : JobContext T)
  | left (w : Fin n)

/-- The memory all threads share. `strandsLock_` and the `flagMutex` of a `doSyncJob` are never
held between two steps and have no field; `fresh` numbers jobs and calls. -/
structure Mem (T : ArgTypes) (n : Nat) where
  workers : Fin n → AsyncWorker T (Tid n)
  strands : String → Option (Fin n)
  registry : Registry (CallbackType T × String) ClientFn
  mappingLock : RecursiveMutex (Tid n)
  syncCalls : Nat → SyncCall
  fresh : Nat

namespace Mem

variable {T : ArgTypes} {n : Nat}

/-- A started pool and an empty registry. -/
def init : Mem T n :=
  ⟨fun _ => .started, fun _ => none, .empty, none, fun _ => ⟨false, .empty⟩, 0⟩

def onWorker (m : Mem T n) (w : Fin n)
    (f : AsyncWorker T (Tid n) → AsyncWorker T (Tid n)) : Mem T n :=
  { m with workers := Function.update m.workers w (f (m.workers w)) }

def onSyncCall (m : Mem T n) (k : Nat) (f : SyncCall → SyncCall) : Mem T n :=
  { m with syncCalls := Function.update m.syncCalls k (f (m.syncCalls k)) }

/-- What an action of thread `t` does to the shared memory. -/
def perform (m : Mem T n) (t : Tid n) : Action T n → Mem T n
  | .finished k => m.onSyncCall k fun _ => ⟨true, (m.syncCalls k).cond.notifyAll⟩
  | .lookedUp _ _ _ => { m with fresh := m.fresh + 1 }
  | .stored id st =>
    { m with registry := m.registry.store id st, mappingLock := m.mappingLock.lock t }
  | .erased id =>
    { m with registry := m.registry.eraseAction id, mappingLock := m.mappingLock.lock t }
  | .unregistered _ => { m with mappingLock := m.mappingLock.unlock }
  | .watched id cb => { m with registry := m.registry.watch id cb }
  | .ranAtOnce _ _ => { m with mappingLock := m.mappingLock.lock t }
  | .released => { m with mappingLock := m.mappingLock.unlock }
  | .notified id =>
    { m with registry := m.registry.eraseWatchers id, mappingLock := m.mappingLock.unlock }
  | .bound strand w => { m with strands := Function.update m.strands strand (some w) }
  | .opened k => { m.onSyncCall k fun _ => ⟨false, .empty⟩ with fresh := m.fresh + 1 }
  | .pushed w j _ => { m.onWorker w (·.pushBack j) with fresh := m.fresh + 1 }
  | .signalled w => m.onWorker w (·.notifyAll)
  | .counted w => m.onWorker w (·.increment)
  | .dozed k => m.onSyncCall k fun c => { c with cond := .asleep }
  | .woke k => m.onSyncCall k fun c => { c with cond := .empty }
  | .queueLocked w => m.onWorker w fun a => { a with queueLock := some t }
  | .cancelled w id _ => m.onWorker w fun a => { a.cancelJobsFor id with queueLock := none }
  | .deactivated w => m.onWorker w (·.deactivate)
  | .slept w => m.onWorker w fun a => { a with queueCond := .asleep }
  | .passed w => m.onWorker w fun a => { a with queueCond := .empty }
  | .dequeued w _ => m.onWorker w (·.popFront)
  | .began w _ => m.onWorker w (·.beginExecuting t)
  | .ended w _ => m.onWorker w (·.endExecuting)
  | _ => m

theorem onWorker_workers (m : Mem T n) (w v : Fin n)
    (f : AsyncWorker T (Tid n) → AsyncWorker T (Tid n)) :
    (m.onWorker w f).workers v = if v = w then f (m.workers w) else m.workers v := by
  simp [onWorker, Function.update_apply]

theorem onSyncCall_syncCalls (m : Mem T n) (k l : Nat) (f : SyncCall → SyncCall) :
    (m.onSyncCall k f).syncCalls l = if l = k then f (m.syncCalls k) else m.syncCalls l := by
  simp [onSyncCall, Function.update_apply]

end Mem

/-- The whole program: memory, the run loops of the workers, the calls in progress on each thread
(innermost first) and what the last one of them ended with. -/
structure Sys (T : ArgTypes) (n : Nat) where
  mem : Mem T n
  pc : Fin n → WorkerPc T
  stack : Tid n → List (Frame T n)
  result : Tid n → Outcome

/-- What the scheduler of threads may choose: one step of the library, or a call or a return of
client code. An action, an `onDone` or a watcher catches what its calls throw and returns; those
that throw themselves have no step here. -/
inductive Choice (T : ArgTypes) (n : Nat)
  | run
  | call (op : Op T n)
  | ret (b : Bool)

/-- One step of a thread: its action, the frames that take the place of its innermost one, and what
else of the thread changes. -/
structure Move (T : ArgTypes) (n : Nat) where
  action : Action T n
  frames : List (Frame T n)
  result : Option Outcome := none
  pc : Option (WorkerPc T) := none

namespace Sys

variable {T : ArgTypes} {n : Nat}

def init : Sys T n := ⟨.init, fun _ => .test, fun _ => [], fun _ => .ret true⟩

def worker (s : Sys T n) (w : Fin n) : AsyncWorker T (Tid n) := s.mem.workers w

def setPc (s : Sys T n) : Tid n → Option (WorkerPc T) → Fin n → WorkerPc T
  | .worker w, some p => Function.update s.pc w p
  | _, _ => s.pc

def apply (s : Sys T n) (t : Tid n) (mv : Move T n) : Sys T n where
  mem := s.mem.perform t mv.action
  pc := s.setPc t mv.pc
  stack := Function.update s.stack t (mv.frames ++ (s.stack t).tail)
  result := match mv.result with
    | some o => Function.update s.result t o
    | none => s.result

@[simp] theorem apply_mem (s : Sys T n) (t : Tid n) (mv : Move T n) :
    (s.apply t mv).mem = s.mem.perform t mv.action := rfl

@[simp] theorem apply_pc (s : Sys T n) (t : Tid n) (mv : Move T n) :
    (s.apply t mv).pc = s.setPc t mv.pc := rfl

@[simp] theorem apply_stack (s : Sys T n) (t : Tid n) (mv : Move T n) :
    (s.apply t mv).stack = Function.update s.stack t (mv.frames ++ (s.stack t).tail) := rfl

theorem apply_stack_self (s : Sys T n) (t : Tid n) (mv : Move T n) :
    (s.apply t mv).stack t = mv.frames ++ (s.stack t).tail := by
  rw [apply_stack, Function.update_self]

theorem apply_stack_other {s : Sys T n} {t u : Tid n} (mv : Move T n) (hu : u ≠ t) :
    (s.apply t mv).stack u = s.stack u := by
  rw [apply_stack, Function.update_of_ne hu]

theorem mem_apply_stack {s : Sys T n} {t u : Tid n} {mv : Move T n} {f : Frame T n}
    (h : f ∈ (s.apply t mv).stack u) : u = t ∧ f ∈ mv.frames ∨ f ∈ s.stack u := by
  rw [apply_stack, Function.update_apply] at h
  split at h
  · rename_i hu
    rcases List.mem_append.mp h with h | h
    · exact .inl ⟨hu, h⟩
    · exact .inr (hu ▸ List.mem_of_mem_tail h)
  · exact .inr h

@[simp] theorem setPc_none (s : Sys T n) (t : Tid n) : s.setPc t none = s.pc := by
  cases t <;> rfl

@[simp] theorem setPc_worker (s : Sys T n) (w : Fin n) (p : WorkerPc T) :
    s.setPc (.worker w) (some p) = Function.update s.pc w p := rfl

end Sys

end ServiceLib
