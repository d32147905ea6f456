import ServiceLib.Framework.Transition
import ServiceLib.Model.System

namespace ServiceLib

variable {T : ArgTypes} {n : Nat}

/-- Where the library starts when client code calls it. -/
def Op.enter : Op T n → Frame T n
  | .interfaceCall id prop args => .checkAndInvoke id prop args
  | .registerInterface id action typeId => .register id action typeId
  | .registerInterfaceFor id tuple action => .registerFor id tuple action
  | .unRegiterInterface id => .unregister id
  | .isServiceRegistered id => .isRegistered id
  | .subscribeForRegistration id cb => .subscribe id cb
  | .scheduleJob name action onDone wait strand =>
    .schedule ⟨name, action.map .client, onDone.map .client, wait, strand⟩
  | .cancelJobsFor id => .cancelLoop id 0
  | .stop => .stopLoop 0
  | .doJob w name call onDone => .push w name (call.map .client) (onDone.map .client) ""
  | .doSyncJob w name call onDone => .doSync w name (call.map .client) (onDone.map .client) ""
  | .cancelOn w name => .cancelLock name w
  | .stopWorker w => .stopCheck w

namespace Sys

variable (s : Sys T n) (t : Tid n)

/-- Calling a function object. -/
def invokeNext : Callable T → Move T n
  | .client f => ⟨.entered f, [.user], none, none⟩
  | .bound k (some a) p => ⟨.executed k (some a) p, [.user], none, none⟩
  | .bound k none p => ⟨.executed k none p, [], some (.threw .badFunctionCall), none⟩
  | .syncDone (some c) k => ⟨.tau, [.invoke c, .syncFinish k], none, none⟩
  | .syncDone none k => ⟨.tau, [.syncFinish k], none, none⟩

/-- `interfaceCall` up to the branch of `invokeCall`: `fetchStoredCallbackByServiceId` reads the
pair under `mappingLock_`, the types are compared, and the closure copies action and arguments. -/
def checkAndInvokeNext (id : String) (prop : CallProperty) (args : ParamArgs T) :
    Option (Move T n) :=
  if s.mem.mappingLock.canLock t then
    match s.mem.registry.actionMapping id with
    | none => some ⟨.tau, [], some (.ret false), none⟩
    | some (action, storedType) =>
      if args.getType ≠ storedType then
        some ⟨.tau, [], some (.threw (.invalidArgument
          ("Expected type: <" ++ storedType ++ ">, actual:" ++ args.getType))), none⟩
      else
        let cb := Callable.bound s.mem.fresh action args
        some ⟨.lookedUp s.mem.fresh id args,
          if prop.async then
            [.schedule ⟨id, some cb, prop.onCallDone.map .client, prop.waitForDone, prop.strand⟩]
          else [.invoke cb, .syncOnDone prop.onCallDone], none, none⟩
  else none

/-- `SyncWorker::doJob` after `call()`: `ret` is kept while `onDone` runs, an exception is passed
on at once. -/
def syncOnDoneNext (onDone : Option ClientFn) : Move T n :=
  match s.result t, onDone with
  | .ret b, some f => ⟨.tau, [.invoke (.client f), .syncReturn (.ret b)], none, none⟩
  | _, _ => ⟨.tau, [], none, none⟩

def registerForNext (id : String) (tuple : T.Tuple) : Option ClientFn → Move T n
  | none => ⟨.tau, [], some (.threw (.invalidArgument
      ("Null action specified for interface:" ++ id))), none⟩
  | some f => ⟨.tau, [.register id (some ⟨tuple, f⟩) (T.typeName tuple)], none, none⟩

def registerNext (id : String) (action : CallbackType T) (typeId : String) : Option (Move T n) :=
  match action with
  | none => some ⟨.tau, [], some (.threw (.invalidArgument
      ("Empty function provided as callback, name=" ++ id))), none⟩
  | some a =>
    if s.mem.mappingLock.canLock t then
      if s.mem.registry.isRegistered id then
        some ⟨.tau, [], some (.threw (.logicError
          ("Duplicated registration for " ++ id ++ " - unregister firstly"))), none⟩
      else
        some ⟨.stored id (some a, typeId),
          [.notifyLoop id 0 (s.mem.registry.watchers id).length], none, none⟩
    else none

/-- The loop of `notifySubscribersOnRegistration` over the live vector. Where a callback has
changed that vector the source has no defined behaviour and the model no step. -/
def notifyLoopNext (id : String) (i len : Nat) : Option (Move T n) :=
  let ws := s.mem.registry.watchers id
  if ws.length = len then
    match ws[i]? with
    | some cb => some ⟨.tau, [.invoke (.client cb), .notifyLoop id (i + 1) len], none, none⟩
    | none => some ⟨.notified id, [], some (.ret true), none⟩
  else none

def unregisterNext (id : String) : Option (Move T n) :=
  if s.mem.mappingLock.canLock t then
    if s.mem.registry.isRegistered id then
      some ⟨.erased id, [.cancelLoop id 0, .unregisterExit id], none, none⟩
    else some ⟨.tau, [], some (.ret true), none⟩
  else none

def isRegisteredNext (id : String) : Option (Move T n) :=
  if s.mem.mappingLock.canLock t then
    some ⟨.tau, [], some (.ret (s.mem.registry.isRegistered id)), none⟩
  else none

def subscribeNext (id : String) (cb : ClientFn) : Option (Move T n) :=
  if s.mem.mappingLock.canLock t then
    if s.mem.registry.isRegistered id then
      some ⟨.ranAtOnce id cb, [.invoke (.client cb), .subscribeExit], none, none⟩
    else some ⟨.watched id cb, [], some (.ret true), none⟩
  else none

/-- `scheduleJob` on the chosen worker. -/
def place (req : Request T) (w : Fin n) : Frame T n :=
  if req.waitForDone then .doSync w req.name req.action req.onDone req.strand
  else .push w req.name req.action req.onDone req.strand

/-- `min_element` starts at the first worker; an empty pool has none to dereference. -/
def scheduleNext (req : Request T) : Option (Move T n) :=
  if h : 0 < n then some ⟨.tau, [.scan req ⟨0, h⟩ 1 none], none, none⟩ else none

/-- `min_element` over the loads, one atomic read a step: first `a->getLoad()` of the next worker,
then `b->getLoad()` of the least one so far. -/
def scanNext (req : Request T) (res : Fin n) (it : Nat) : Option SizeT → Option (Move T n)
  | none =>
    if h : it < n then
      some ⟨.tau, [.scan req res it (some (s.worker ⟨it, h⟩).getLoad)], none, none⟩
    else if req.strand = "" then some ⟨.tau, [place req res], none, none⟩
    else some ⟨.tau, [.bindStrand req res], none, none⟩
  | some a =>
    if h : it < n then
      let less := if a < (s.worker res).getLoad then ⟨it, h⟩ else res
      some ⟨.tau, [.scan req less (it + 1) none], none, none⟩
    else none

/-- `getStrandWorkerForSchedule`, one section under `strandsLock_`. -/
def bindStrandNext (req : Request T) (idle : Fin n) : Move T n :=
  let w := (s.mem.strands req.strand).getD idle
  ⟨.bound req.strand w, [place req w], none, none⟩

/-- `AsyncDispatcher::cancelJobsFor`: the workers one after another. -/
def cancelLoopNext (id : String) (i : Nat) : Move T n :=
  if h : i < n then ⟨.tau, [.cancelLock id ⟨i, h⟩, .cancelLoop id (i + 1)], none, none⟩
  else ⟨.tau, [], some (.ret true), none⟩

/-- `AsyncDispatcher::stop`. -/
def stopLoopNext (i : Nat) : Move T n :=
  if h : i < n then ⟨.tau, [.stopCheck ⟨i, h⟩, .stopLoop (i + 1)], none, none⟩
  else ⟨.stopped, [], some (.ret true), none⟩

def pushNext (w : Fin n) (name : String) (call onDone : Option (Callable T)) (strand : String) :
    Option (Move T n) :=
  if (s.worker w).queueLock = none then
    some ⟨.pushed w ⟨call, onDone, name, s.mem.fresh⟩ strand, [.notify w], none, none⟩
  else none

/-- `doSyncJob` up to its call of `doJob`. -/
def doSyncNext (w : Fin n) (name : String) (call onDone : Option (Callable T))
    (strand : String) : Move T n :=
  let k := s.mem.fresh
  ⟨.opened k, [.push w name call (some (.syncDone onDone k)) strand, .syncWait k],
    none, none⟩

/-- One test of the predicate of `cond.wait`. -/
def syncWaitNext (k : Nat) : Move T n :=
  if (s.mem.syncCalls k).finished then ⟨.awaited k, [], some (.ret true), none⟩
  else ⟨.dozed k, [.syncAsleep k], none, none⟩

def cancelLockNext (id : String) (w : Fin n) : Option (Move T n) :=
  if (s.worker w).queueLock = none then
    some ⟨.queueLocked w, [.cancelScan id w (s.worker w).calls], none, none⟩
  else none

/-- The predicate of `remove_if` on the next job: for a job of the service it takes
`executingLock_` and waits until `executing_` is false. -/
def cancelScanNext (id : String) (w : Fin n) : List (JobContext T) → Option (Move T n)
  | [] => some ⟨.cancelled w id (s.worker w).calls, [], some (.ret true), none⟩
  | it :: left =>
    if it.id = id ∧ ¬((s.worker w).executingLock = none ∧ (s.worker w).executing = false) then none
    else some ⟨.tau, [.cancelScan id w left], none, none⟩

def stopCheckNext (w : Fin n) : Move T n :=
  if (s.worker w).active then ⟨.tau, [.stopPoll w], none, none⟩
  else ⟨.tau, [], some (.ret true), none⟩

/-- One round of `waitForOutstandingJobsToFinish`; the last one goes on to clear `active_` under
the same lock. -/
def stopPollNext (w : Fin n) : Option (Move T n) :=
  if (s.worker w).queueLock = none then
    if (s.worker w).calls.isEmpty then
      some ⟨.deactivated w, [.stopJoin w], none, none⟩
    else some ⟨.tau, [.stopPoll w], none, none⟩
  else none

/-- `thread_.join()`. -/
def stopJoinNext (w : Fin n) : Option (Move T n) :=
  match s.pc w with
  | .exited => some ⟨.joined w, [], some (.ret true), none⟩
  | _ => none

/-- The step of the innermost function in progress. -/
def frameNext : Frame T n → Option (Move T n)
  | .user => none
  | .invoke c => some (invokeNext c)
  | .syncFinish k => some ⟨.finished k, [], some (.ret true), none⟩
  | .checkAndInvoke id prop args => s.checkAndInvokeNext t id prop args
  | .syncOnDone onDone => some (s.syncOnDoneNext t onDone)
  | .syncReturn o => some ⟨.tau, [], some o, none⟩
  | .registerFor id tuple action => some (registerForNext id tuple action)
  | .register id action typeId => s.registerNext t id action typeId
  | .notifyLoop id i len => s.notifyLoopNext id i len
  | .unregister id => s.unregisterNext t id
  | .unregisterExit id => some ⟨.unregistered id, [], some (.ret true), none⟩
  | .isRegistered id => s.isRegisteredNext t id
  | .subscribe id cb => s.subscribeNext t id cb
  | .subscribeExit => some ⟨.released, [], some (.ret true), none⟩
  | .schedule req => scheduleNext req
  | .scan req res it load => s.scanNext req res it load
  | .bindStrand req idle => some (s.bindStrandNext req idle)
  | .cancelLoop id i => some (cancelLoopNext id i)
  | .stopLoop i => some (stopLoopNext i)
  | .push w name call onDone strand => s.pushNext w name call onDone strand
  | .notify w => some ⟨.signalled w, [.increment w], none, none⟩
  | .increment w => some ⟨.counted w, [], some (.ret true), none⟩
  | .doSync w name call onDone strand => some (s.doSyncNext w name call onDone strand)
  | .syncWait k => some (s.syncWaitNext k)
  | .syncAsleep k => some ⟨.woke k, [.syncWait k], none, none⟩
  | .cancelLock id w => s.cancelLockNext id w
  | .cancelScan id w left => s.cancelScanNext id w left
  | .stopCheck w => some (s.stopCheckNext w)
  | .stopPoll w => s.stopPollNext w
  | .stopJoin w => s.stopJoinNext w

/-- `AsyncWorker::run`, `scheduleFirstOutstandingJob` and `runTheCall`. Taking `queueLock_`,
looking at `calls_` and letting the lock go again is one step. -/
def runNext (w : Fin n) : Option (Move T n) :=
  let a := s.worker w
  match s.pc w with
  | .test =>
    if a.active then some ⟨.tau, [], none, some .lock⟩ else some ⟨.left w, [], none, some .exited⟩
  -- a sleeping worker may wake at any time and tests its predicate again
  | .lock | .asleep =>
    if a.queueLock = none then
      match a.calls with
      | j :: _ => some ⟨.dequeued w j, [], none, some (.acquire j)⟩
      | [] =>
        if a.active then some ⟨.slept w, [], none, some .asleep⟩
        else some ⟨.passed w, [], none, some .test⟩
    else none
  | .relock =>
    if a.queueLock = none then
      match a.calls with
      | j :: _ => some ⟨.dequeued w j, [], none, some (.acquire j)⟩
      | [] => some ⟨.passed w, [], none, some .test⟩
    else none
  | .acquire j =>
    if a.executingLock = none then some ⟨.began w j, [], none, some (.action j)⟩ else none
  -- `assert(action)` ends the process
  | .action j => j.action.map fun c => ⟨.actionBegan w j, [.invoke c], none, some (.inAction j)⟩
  -- an exception out of the action ends the process too
  | .inAction j =>
    match s.result (.worker w) with
    | .ret _ => some ⟨.actionEnded w j, [], none, some (.onDone j)⟩
    | .threw _ => none
  | .onDone j =>
    match j.onDone with
    | some c => some ⟨.onDoneBegan w j, [.invoke c], none, some (.inOnDone j)⟩
    | none => some ⟨.tau, [], none, some (.finish j)⟩
  | .inOnDone j => some ⟨.onDoneEnded w j, [], none, some (.finish j)⟩
  | .finish j => some ⟨.ended w j, [], none, some .relock⟩
  | .exited => none

/-- One step of a thread: client code goes on as chosen, everything else by the source. -/
def next : Choice T n → Option (Move T n)
  | .call op =>
    match s.stack t, t with
    | [], .client _ => some ⟨.called op, [op.enter], none, none⟩
    | .user :: _, _ => some ⟨.called op, [op.enter, .user], none, none⟩
    | _, _ => none
  | .ret b =>
    match s.stack t with
    | .user :: _ => some ⟨.returned b, [], some (.ret b), none⟩
    | _ => none
  | .run =>
    match s.stack t, t with
    | [], .worker w => s.runNext w
    | f :: _, _ => s.frameNext t f
    | [], .client _ => none

end Sys

/-- The threads of a started pool of `n` workers and of its clients, interleaved step by step. -/
def pool (T : ArgTypes) (n : Nat) :
    Machine (Sys T n) (Tid n × Choice T n) (Tid n × Action T n) where
  init := .init
  step s i := (s.next i.1 i.2).map fun mv => ((i.1, mv.action), s.apply i.1 mv)

/-! Scripts for `Machine.drive` -/

def worker₀ : Fin (n + 1) := 0

def worker₁ : Fin (n + 2) := 1

/-- A thread takes `k` steps of the library. -/
def Tid.steps (t : Tid n) (k : Nat) : List (Tid n × Choice T n) := List.replicate k (t, .run)

/-- A thread calls the library and takes `k` steps in it. -/
def Tid.calls (t : Tid n) (op : Op T n) (k : Nat) : List (Tid n × Choice T n) :=
  (t, .call op) :: t.steps k

/-- The action or the `onDone` the thread is in returns, and the thread takes `k` steps. -/
def Tid.returns (t : Tid n) (k : Nat) : List (Tid n × Choice T n) := (t, .ret true) :: t.steps k

end ServiceLib
