import ServiceLib.Model.ArgDefs
import Mathlib.Data.BitVec

namespace ServiceLib

/-- `std::size_t`: arithmetic is modulo 2^64. -/
abbrev SizeT := BitVec 64

/-- A condition variable with at most one waiter: nobody waits, the waiter sleeps, or it sleeps
and a `notify_all` has reached it. -/
inductive Cond
  | empty
  | asleep
  | notified
  deriving DecidableEq

def Cond.notifyAll : Cond → Cond
  | .empty => .empty
  | _ => .notified

/-- `JobContext`. The serial number is not in the source; it tells equal jobs apart. -/
structure JobContext (T : ArgTypes) where
  action : Option (Callable T)
  onDone : Option (Callable T)
  id : String
  serial : Nat

/-- The job carries the closure of the `doSyncJob` call `k`. -/
def JobContext.Wakes {T : ArgTypes} (j : JobContext T) (k : Nat) : Prop :=
  ∃ inner, j.onDone = some (.syncDone inner k)

/-- Whether some blocked `doSyncJob` waits for the job. -/
def JobContext.blocking {T : ArgTypes} (j : JobContext T) : Bool :=
  match j.onDone with
  | some (.syncDone _ _) => true
  | _ => false

/-- `AsyncWorker`; a lock field holds the owner between two steps. -/
structure AsyncWorker (T : ArgTypes) (θ : Type) where
  calls : List (JobContext T)
  queueCond : Cond
  queueLock : Option θ
  active : Bool
  outstandingJobs : SizeT
  executingLock : Option θ
  executing : Bool

namespace AsyncWorker

variable {T : ArgTypes} {θ : Type}

/-- A worker whose thread has set `ready_`. -/
def started : AsyncWorker T θ := ⟨[], .empty, none, true, 0, none, false⟩

def getLoad (w : AsyncWorker T θ) : SizeT := w.outstandingJobs

/-- The locked section of `doJob`. -/
def pushBack (w : AsyncWorker T θ) (j : JobContext T) : AsyncWorker T θ :=
  { w with calls := w.calls ++ [j] }

/-- `queueCond_.notify_all()`. -/
def notifyAll (w : AsyncWorker T θ) : AsyncWorker T θ :=
  { w with queueCond := w.queueCond.notifyAll }

/-- `outstandingJobs_++`, after the lock of `doJob` is released. -/
def increment (w : AsyncWorker T θ) : AsyncWorker T θ :=
  { w with outstandingJobs := w.outstandingJobs + 1 }

/-- The head of `scheduleFirstOutstandingJob`: erase the first job and count it out. -/
def popFront (w : AsyncWorker T θ) : AsyncWorker T θ :=
  { w with calls := w.calls.tail, outstandingJobs := w.outstandingJobs - 1, queueCond := .empty }

/-- `std::remove_if` followed by `erase`. -/
def removeIf (p : JobContext T → Bool) (js : List (JobContext T)) : List (JobContext T) :=
  js.filter fun it => !p it

/-- What the predicate of `cancelJobsFor` returns. Its `if` waits for the running job and falls
through to the same `return true`. -/
def cancelPredicate (_name : String) (_it : JobContext T) : Bool := true

/-- The end of `cancelJobsFor`: erase what the predicate chose and store the new length. -/
def cancelJobsFor (w : AsyncWorker T θ) (name : String) : AsyncWorker T θ :=
  let calls := removeIf (cancelPredicate name) w.calls
  { w with calls := calls, outstandingJobs := BitVec.ofNat 64 calls.length }

/-- The locked section of `stop` once the queue is empty. -/
def deactivate (w : AsyncWorker T θ) : AsyncWorker T θ :=
  { w with active := false, queueCond := w.queueCond.notifyAll }

/-- Take `executingLock_` and set `executing_`. -/
def beginExecuting (w : AsyncWorker T θ) (t : θ) : AsyncWorker T θ :=
  { w with executingLock := some t, executing := true }

def endExecuting (w : AsyncWorker T θ) : AsyncWorker T θ :=
  { w with executingLock := none, executing := false }

theorem cancelJobsFor_calls (w : AsyncWorker T θ) (name : String) :
    (w.cancelJobsFor name).calls = [] := by
  simp [cancelJobsFor, removeIf, cancelPredicate]

end AsyncWorker

/-- The local variables of one `doSyncJob` call. -/
structure SyncCall where
  finished : Bool
  cond : Cond

end ServiceLib
