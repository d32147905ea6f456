import ServiceLib.Framework.Transition
import ServiceLib.Model.Registry
import ServiceLib.Model.Worker
import Mathlib.Data.List.MinMax
import Mathlib.Data.List.FinRange

namespace ServiceLib

open Machine

/-- `SyncWorker` has no state; what matters of `syncWorker_` is whether it points to one. -/
structure SyncWorker

/-- `InterfaceScheduler` and its `AsyncDispatcher` between two calls. A worker of the pool is known
by its position in `asyncWorkers_`. -/
structure InterfaceScheduler (T : ArgTypes) where
  registry : Registry (CallbackType T × String) ClientFn
  started : Bool
  syncWorker : Option SyncWorker
  asyncWorkers : List (AsyncWorker T Unit)
  strands : String → Option Nat
  fresh : Nat

/-- The public operations of a scheduler that nobody watches for registrations. -/
inductive SchedulerOp (T : ArgTypes)
  | start (poolSize : SizeT)
  | stop
  | registerInterface (id : String) (action : CallbackType T) (typeId : String)
  | unRegiterInterface (id : String)
  | interfaceCall (id : String) (prop : CallProperty) (args : ParamArgs T)

/-- An operation, or anything the thread of a worker does meanwhile. -/
inductive SchedulerInput (T : ArgTypes)
  | op (o : SchedulerOp T)
  | progress (i : Nat) (a : AsyncWorker T Unit)

/-- What an operation comes to. The last two are the uses of a pointer that points to nothing. -/
inductive OpResult
  | done
  | refused (o : Outcome)
  | ran
  | queued (i : Nat)
  | endDereferenced
  | nullSyncWorker
  deriving DecidableEq

namespace InterfaceScheduler

variable {T : ArgTypes} (s : InterfaceScheduler T)

/-- The constructor with its default arguments. -/
def init : InterfaceScheduler T := ⟨.empty, false, none, [], fun _ => none, 0⟩

/-- `AsyncDispatcher::createWorkersIfNotInitialized`; the `assert` ends the process. -/
def createWorkersIfNotInitialized (ws : List (AsyncWorker T Unit)) (poolSize : SizeT) :
    Option (List (AsyncWorker T Unit)) :=
  if ws.isEmpty then some (List.replicate poolSize.toNat .started)
  else if BitVec.ofNat 64 ws.length = poolSize then some ws
  else none

def start (poolSize : SizeT) : Option (InterfaceScheduler T) :=
  if s.started then some s
  else (createWorkersIfNotInitialized s.asyncWorkers poolSize).map fun ws =>
    { s with syncWorker := some (s.syncWorker.getD {}), asyncWorkers := ws, started := true }

/-- `stop` returns when no worker that has been active has a job waiting. -/
def stop : Option (InterfaceScheduler T) :=
  if s.asyncWorkers.all fun w => !w.active || w.calls.isEmpty then
    some { s with asyncWorkers := s.asyncWorkers.map fun w => if w.active then w.deactivate else w }
  else none

def registerInterface (id : String) (action : CallbackType T) (typeId : String) :
    OpResult × InterfaceScheduler T :=
  match action with
  | none => (.refused (.threw (.invalidArgument
      ("Empty function provided as callback, name=" ++ id))), s)
  | some a =>
    if s.registry.isRegistered id then
      (.refused (.threw (.logicError
        ("Duplicated registration for " ++ id ++ " - unregister firstly"))), s)
    else (.done, { s with registry := s.registry.store id (some a, typeId) })

def unRegiterInterface (id : String) : InterfaceScheduler T :=
  if s.registry.isRegistered id then
    { s with registry := s.registry.eraseAction id,
             asyncWorkers := s.asyncWorkers.map (·.cancelJobsFor id) }
  else s

/-- `min_element` over the loads; `none` is the end iterator. -/
def leastLoaded : Option (Fin s.asyncWorkers.length) :=
  (List.finRange s.asyncWorkers.length).argmin fun i => s.asyncWorkers[i].getLoad.toNat

/-- `AsyncDispatcher::scheduleJob` on a worker, up to the wait of `doSyncJob`. -/
def doJob (i : Nat) (j : JobContext T) : InterfaceScheduler T :=
  { s with asyncWorkers := s.asyncWorkers.modify i fun w => (w.pushBack j).increment,
           fresh := s.fresh + 1 }

/-- `getWorkerForSchedule` evaluates `*it` whether there is a strand or not. -/
def scheduleJob (j : JobContext T) (strand : String) : OpResult × InterfaceScheduler T :=
  match s.leastLoaded with
  | none => (.endDereferenced, s)
  | some it =>
    if strand = "" then (.queued it, s.doJob it j)
    else
      let i := (s.strands strand).getD it
      (.queued i, { s with strands := Function.update s.strands strand (some i) }.doJob i j)

/-- `interfaceCall`: the checks of `isCallRegisteredAndTypesMatch`, then `invokeCall`. -/
def interfaceCall (id : String) (prop : CallProperty) (args : ParamArgs T) :
    OpResult × InterfaceScheduler T :=
  match s.registry.actionMapping id with
  | none => (.refused (.ret false), s)
  | some (action, storedType) =>
    if args.getType ≠ storedType then
      (.refused (.threw (.invalidArgument
        ("Expected type: <" ++ storedType ++ ">, actual:" ++ args.getType))), s)
    else if prop.async then
      s.scheduleJob ⟨some (.bound s.fresh action args), prop.onCallDone.map .client, id, s.fresh⟩
        prop.strand
    else
      match s.syncWorker with
      | none => (.nullSyncWorker, s)
      | some _ => (.ran, s)

def perform : SchedulerOp T → Option (OpResult × InterfaceScheduler T)
  | .start poolSize => (s.start poolSize).map (.done, ·)
  | .stop => s.stop.map (.done, ·)
  | .registerInterface id action typeId => some (s.registerInterface id action typeId)
  | .unRegiterInterface id => some (.done, s.unRegiterInterface id)
  | .interfaceCall id prop args => some (s.interfaceCall id prop args)

def step : SchedulerInput T → Option (OpResult × InterfaceScheduler T)
  | .op o => s.perform o
  | .progress i a => some (.done, { s with asyncWorkers := s.asyncWorkers.set i a })

end InterfaceScheduler

/-- A scheduler from its construction on, one operation after another. -/
def lifeCycle (T : ArgTypes) :
    Machine (InterfaceScheduler T) (SchedulerInput T) (SchedulerInput T × OpResult) where
  init := .init
  step s i := (s.step i).map fun (r, s') => ((i, r), s')

variable {T : ArgTypes} {s s' : InterfaceScheduler T} {tr : List (SchedulerInput T × OpResult)}

namespace InterfaceScheduler

theorem leastLoaded_eq_none : s.leastLoaded = none ↔ s.asyncWorkers = [] := by
  rw [leastLoaded, List.argmin_eq_none, List.finRange_eq_nil_iff, List.length_eq_zero_iff]

theorem scheduleJob_result (s : InterfaceScheduler T) (j : JobContext T) (strand : String) :
    if s.asyncWorkers = [] then (s.scheduleJob j strand).1 = .endDereferenced
    else ∃ i, (s.scheduleJob j strand).1 = .queued i := by
  cases hl : s.leastLoaded with
  | none => simp [leastLoaded_eq_none.mp hl, scheduleJob, hl]
  | some it =>
    have hne : s.asyncWorkers ≠ [] := fun h => by simp [leastLoaded_eq_none.mpr h] at hl
    rw [if_neg hne, scheduleJob, hl]
    by_cases hs : strand = ""
    · exact ⟨it, by simp [hs]⟩
    · exact ⟨_, by simp [hs]; rfl⟩

/-- The service is registered, and its type id is the one of the arguments. -/
def Admits (s : InterfaceScheduler T) (id : String) (args : ParamArgs T) : Prop :=
  ∃ action, s.registry.actionMapping id = some (action, args.getType)

/-- How a call ends, by the registry, the property and what `start` has made. -/
theorem interfaceCall_result (s : InterfaceScheduler T) (id : String) (prop : CallProperty)
    (args : ParamArgs T) :
    (¬s.Admits id args ∧ ∃ o, (s.interfaceCall id prop args).1 = .refused o) ∨
    (s.Admits id args ∧ prop.async = true ∧ if s.asyncWorkers = [] then
        (s.interfaceCall id prop args).1 = .endDereferenced
      else ∃ i, (s.interfaceCall id prop args).1 = .queued i) ∨
    (s.Admits id args ∧ prop.async = false ∧ (s.interfaceCall id prop args).1 =
      if s.syncWorker.isSome then .ran else .nullSyncWorker) := by
  unfold interfaceCall
  split
  · rename_i hr
    refine .inl ⟨?_, _, rfl⟩
    rintro ⟨action, ha⟩
    cases hr.symm.trans ha
  · rename_i action storedType hr
    by_cases hty : args.getType = storedType
    · have hadmits : s.Admits id args := ⟨action, by rw [hr, hty]⟩
      cases ha : prop.async
      · refine .inr (.inr ⟨hadmits, rfl, ?_⟩)
        cases hw : s.syncWorker <;> simp [hty]
      · refine .inr (.inl ⟨hadmits, rfl, ?_⟩)
        simpa [hty] using s.scheduleJob_result _ prop.strand
    · refine .inl ⟨?_, _, by rw [if_pos hty]⟩
      rintro ⟨action', ha⟩
      obtain ⟨-, rfl⟩ := Prod.mk.inj (Option.some.inj (hr.symm.trans ha))
      exact hty rfl

/-- The operations after `start` keep the size of the pool and what calls go through. -/
theorem interfaceCall_frame (s : InterfaceScheduler T) (id : String) (prop : CallProperty)
    (args : ParamArgs T) :
    (s.interfaceCall id prop args).2.started = s.started ∧
    (s.interfaceCall id prop args).2.syncWorker = s.syncWorker ∧
    (s.interfaceCall id prop args).2.asyncWorkers.length = s.asyncWorkers.length := by
  unfold interfaceCall
  split
  · exact ⟨rfl, rfl, rfl⟩
  · split
    · exact ⟨rfl, rfl, rfl⟩
    · split
      · unfold scheduleJob
        split
        · exact ⟨rfl, rfl, rfl⟩
        · split <;> exact ⟨rfl, rfl, List.length_modify ..⟩
      · split <;> exact ⟨rfl, rfl, rfl⟩

end InterfaceScheduler

/-- The pool size of the first `start`, the only one that counts. -/
def firstStart (tr : List (SchedulerInput T × OpResult)) : Option SizeT :=
  tr.findSome? fun e =>
    match e.1 with
    | .op (.start poolSize) => some poolSize
    | _ => none

/-- The scheduler has what its first `start` has made. -/
structure Started (tr : List (SchedulerInput T × OpResult)) (s : InterfaceScheduler T) : Prop where
  started : s.started = (firstStart tr).isSome
  sync : s.syncWorker.isSome = s.started
  size : s.asyncWorkers.length = ((firstStart tr).getD 0).toNat

theorem firstStart_snoc (tr : List (SchedulerInput T × OpResult)) (i : SchedulerInput T)
    (r : OpResult) : firstStart (tr ++ [(i, r)]) = (firstStart tr).or
      (match i with
      | .op (.start poolSize) => some poolSize
      | _ => none) := by
  cases i with
  | op o => cases o <;> simp [firstStart]
  | progress => simp [firstStart]

theorem Started.frame (h : Started tr s) {i : SchedulerInput T} {r : OpResult}
    (hi : ∀ poolSize, i ≠ .op (.start poolSize)) (hst : s'.started = s.started)
    (hsync : s'.syncWorker = s.syncWorker)
    (hlen : s'.asyncWorkers.length = s.asyncWorkers.length) : Started (tr ++ [(i, r)]) s' := by
  have hfirst : firstStart (tr ++ [(i, r)]) = firstStart tr := by
    rw [firstStart_snoc]
    split
    · exact absurd rfl (hi _)
    · exact Option.or_none
  exact ⟨hfirst ▸ hst.trans h.started, hsync ▸ hst ▸ h.sync, hfirst ▸ hlen.trans h.size⟩

theorem Started.start (h : Started tr s) {poolSize : SizeT} {r : OpResult}
    (hs : s.start poolSize = some s') : Started (tr ++ [(.op (.start poolSize), r)]) s' := by
  have hfirst : firstStart (tr ++ [(.op (.start poolSize), r)]) =
      (firstStart tr).or (some poolSize) := firstStart_snoc ..
  unfold InterfaceScheduler.start at hs
  split at hs
  · rename_i hst
    obtain rfl := Option.some.inj hs
    have hsome : (firstStart tr).isSome := h.started ▸ hst
    have hsame : firstStart (tr ++ [(.op (.start poolSize), r)]) = firstStart tr := by
      rw [hfirst, Option.or_of_isSome hsome]
    exact ⟨hsame ▸ h.started, h.sync, hsame ▸ h.size⟩
  · rename_i hst
    have hnone : firstStart tr = none := by
      have hno := h.started
      simpa [hst] using hno
    have hempty : s.asyncWorkers = [] := by
      have hlen := h.size
      simpa [hnone] using hlen
    obtain rfl : _ = s' := by
      simpa [InterfaceScheduler.createWorkersIfNotInitialized, hempty] using hs
    rw [hnone] at hfirst
    exact ⟨by simp [hfirst], rfl, by simp [hfirst]⟩

theorem Started.step (h : Started tr s) {i : SchedulerInput T} {r : OpResult}
    (hs : s.step i = some (r, s')) : Started (tr ++ [(i, r)]) s' := by
  cases i with
  | progress k a =>
    obtain rfl : _ = s' := (Prod.mk.inj (Option.some.inj hs)).2
    exact h.frame (by simp) rfl rfl (List.length_set ..)
  | op o =>
    cases o with
    | start poolSize =>
      obtain ⟨s₁, hs₁, he⟩ := Option.map_eq_some_iff.mp hs
      obtain rfl := (Prod.mk.inj he).2
      exact h.start hs₁
    | stop =>
      obtain ⟨s₁, hs₁, he⟩ := Option.map_eq_some_iff.mp hs
      obtain rfl := (Prod.mk.inj he).2
      unfold InterfaceScheduler.stop at hs₁
      split at hs₁
      · obtain rfl := Option.some.inj hs₁
        exact h.frame (by simp) rfl rfl (List.length_map ..)
      · cases hs₁
    | registerInterface id action typeId =>
      obtain rfl : _ = s' := congrArg Prod.snd (Option.some.inj hs)
      unfold InterfaceScheduler.registerInterface
      split
      · exact h.frame (by simp) rfl rfl rfl
      · split <;> exact h.frame (by simp) rfl rfl rfl
    | unRegiterInterface id =>
      obtain rfl : _ = s' := (Prod.mk.inj (Option.some.inj hs)).2
      unfold InterfaceScheduler.unRegiterInterface
      split
      · exact h.frame (by simp) rfl rfl (List.length_map ..)
      · exact h.frame (by simp) rfl rfl rfl
    | interfaceCall id prop args =>
      obtain rfl : _ = s' := congrArg Prod.snd (Option.some.inj hs)
      obtain ⟨hst, hsync, hlen⟩ := s.interfaceCall_frame id prop args
      exact h.frame (by simp) hst hsync hlen

theorem lifeCycle_started {ok} (h : (lifeCycle T).Run ok tr s) : Started tr s := by
  refine h.invariant ⟨rfl, rfl, rfl⟩ ?_
  intro tr s i e s' _ hinv _ hs
  obtain ⟨⟨r, s₁⟩, hr, he⟩ := Option.map_eq_some_iff.mp hs
  obtain ⟨rfl, rfl⟩ := Prod.mk.inj he
  exact hinv.step hr

/-- A call dereferences the end iterator just if the registry admits it, it is asynchronous and the
first `start` has not made a worker, and calls through the null pointer just if the registry admits
it, it is synchronous and there has been no `start`. -/
theorem interfaceCall_faults (h : (lifeCycle T).Run AnyStep tr s) {id : String}
    {prop : CallProperty} {args : ParamArgs T} {e : SchedulerInput T × OpResult}
    (hs : (lifeCycle T).step s (.op (.interfaceCall id prop args)) = some (e, s')) :
    (e.2 = .endDereferenced ↔
      s.Admits id args ∧ prop.async = true ∧ (firstStart tr).getD 0 = 0) ∧
    (e.2 = .nullSyncWorker ↔
      s.Admits id args ∧ prop.async = false ∧ firstStart tr = none) := by
  have hres : e.2 = (s.interfaceCall id prop args).1 :=
    (congrArg Prod.snd (Prod.mk.inj (Option.some.inj hs)).1).symm
  have hinv := lifeCycle_started h
  have hpool : s.asyncWorkers = [] ↔ (firstStart tr).getD 0 = 0 := by
    rw [← List.length_eq_zero_iff, hinv.size, BitVec.toNat_eq]
    rfl
  have hsync : s.syncWorker.isSome = (firstStart tr).isSome := hinv.sync.trans hinv.started
  rw [hres, ← hpool]
  rcases s.interfaceCall_result id prop args with ⟨hno, o, ho⟩ | ⟨hadmits, ha, hres⟩ |
    ⟨hadmits, ha, hres⟩
  · simp [ho, hno]
  · split at hres
    · rename_i hempty
      simp [hres, hadmits, ha, hempty]
    · rename_i hne
      obtain ⟨k, hk⟩ := hres
      simp [hk, ha, hne]
  · rw [hsync] at hres
    cases hf : firstStart tr <;> simp [hres, hadmits, ha, hf]

/-- A call of service "a" without arguments. -/
def callA (async : Bool) : SchedulerInput .unit :=
  .op (.interfaceCall "a" ⟨async, false, none, ""⟩ ⟨(), ()⟩)

def registerA : SchedulerInput .unit := .op (.registerInterface "a" (some ⟨(), 0⟩) "v")

/-- A service is called before it is registered and, after a `start` without workers, synchronously
once it is. -/
def startedRun : List (SchedulerInput .unit × OpResult) × InterfaceScheduler .unit :=
  (lifeCycle .unit).drive (fun _ _ _ => true)
    [callA true, .op (.start 0), registerA, callA false]

theorem interfaceCall_faults_startedRun :
    startedRun.1.map Prod.snd = [.refused (.ret false), .done, .done, .ran] ∧
      (startedRun.2.step (callA true)).map Prod.fst = some .endDereferenced ∧
      startedRun.2.Admits "a" ⟨(), ()⟩ ∧ (firstStart startedRun.1).getD 0 = 0 := by
  have h : (lifeCycle .unit).Run AnyStep startedRun.1 startedRun.2 :=
    run_drive (fun _ _ _ _ => trivial) _
  have hs : (lifeCycle .unit).step startedRun.2 (callA true) =
      some ((callA true, .endDereferenced), startedRun.2) := rfl
  obtain ⟨hadmits, -, hzero⟩ := (interfaceCall_faults h hs).1.mp rfl
  exact ⟨rfl, rfl, hadmits, hzero⟩

/-- A service is registered and called, and nobody has called `start`. -/
def unstartedRun : List (SchedulerInput .unit × OpResult) × InterfaceScheduler .unit :=
  (lifeCycle .unit).drive (fun _ _ _ => true) [registerA, callA false]

theorem interfaceCall_before_start :
    ¬∀ (tr : List (SchedulerInput .unit × OpResult)) (s : InterfaceScheduler .unit),
      (lifeCycle .unit).Run AnyStep tr s →
        ∀ e ∈ tr, e.2 ≠ .endDereferenced ∧ e.2 ≠ .nullSyncWorker := by
  intro hclaim
  have h : (lifeCycle .unit).Run AnyStep unstartedRun.1 unstartedRun.2 :=
    run_drive (fun _ _ _ _ => trivial) _
  have hcall : (callA false, OpResult.nullSyncWorker) ∈ unstartedRun.1 :=
    List.mem_cons_of_mem _ (List.mem_singleton.mpr rfl)
  exact (hclaim _ _ h _ hcall).2 rfl

end ServiceLib
