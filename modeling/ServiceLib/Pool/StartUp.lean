import ServiceLib.Framework.Refinement
import ServiceLib.Model.History

namespace ServiceLib

open Machine

/-- The members of `AsyncWorker` in the order of their declaration. -/
inductive Member
  | calls
  | ready
  | queueCond
  | queueLock
  | active
  | thread
  | outstandingJobs
  | executingLock
  | executing
  | executingCond
  deriving DecidableEq

/-- The order in which the constructor initialises them, whatever its own list says. -/
def Member.order : List Member :=
  [.calls, .ready, .queueCond, .queueLock, .active, .thread, .outstandingJobs, .executingLock,
    .executing, .executingCond]

def Member.rank (m : Member) : ℕ := order.idxOf m

/-- The thread of a worker: about to set `ready_`, or in its loop. -/
inductive Spawned (T : ArgTypes)
  | begins
  | loops (p : WorkerPc T)

/-- The memory of a worker under construction; `none` is a member not initialised yet. -/
structure RawWorker (T : ArgTypes) (θ : Type) where
  calls : Option (List (JobContext T)) := none
  ready : Option Bool := none
  queueCond : Option Cond := none
  queueLock : Option (Option θ) := none
  active : Option Bool := none
  thread : Option (Spawned T) := none
  outstandingJobs : Option SizeT := none
  executingLock : Option (Option θ) := none
  executing : Option Bool := none
  executingCond : Option Unit := none

/-- What comes of a step that reads members: it waits, it reads one that is not initialised, or it
is taken. -/
inductive Attempt (α : Type)
  | blocked
  | undefined
  | goes (a : α)

variable {T : ArgTypes} {n : Nat}

namespace RawWorker

/-- The constructor comes to the next member; `thread_` starts the thread. -/
def build (r : RawWorker T (Tid n)) : Member → RawWorker T (Tid n)
  | .calls => { r with calls := some [] }
  | .ready => { r with ready := some false }
  | .queueCond => { r with queueCond := some .empty }
  | .queueLock => { r with queueLock := some none }
  | .active => { r with active := some true }
  | .thread => { r with thread := some .begins }
  | .outstandingJobs => { r with outstandingJobs := some 0 }
  | .executingLock => { r with executingLock := some none }
  | .executing => { r with executing := some false }
  | .executingCond => { r with executingCond := some () }

def has (r : RawWorker T (Tid n)) : Member → Bool
  | .calls => r.calls.isSome
  | .ready => r.ready.isSome
  | .queueCond => r.queueCond.isSome
  | .queueLock => r.queueLock.isSome
  | .active => r.active.isSome
  | .thread => r.thread.isSome
  | .outstandingJobs => r.outstandingJobs.isSome
  | .executingLock => r.executingLock.isSome
  | .executing => r.executing.isSome
  | .executingCond => r.executingCond.isSome

/-- The head of `scheduleFirstOutstandingJob`. -/
def takeFirst (r : RawWorker T (Tid n)) (w : Fin n) (j : JobContext T)
    (left : List (JobContext T)) : Attempt (Action T n × RawWorker T (Tid n)) :=
  match r.outstandingJobs with
  | none => .undefined
  | some load => .goes (.dequeued w j,
      { r with calls := some left, outstandingJobs := some (load - 1), queueCond := some .empty,
               thread := some (.loops (.acquire j)) })

/-- `AsyncWorker::run` over members that may not be there yet. Nobody can push before `start` has
returned, so what a worker does with a job is not looked at here and counts as undefined. -/
def runNext (r : RawWorker T (Tid n)) (w : Fin n) :
    WorkerPc T → Attempt (Action T n × RawWorker T (Tid n))
  | .test =>
    match r.active with
    | none => .undefined
    | some true => .goes (.tau, { r with thread := some (.loops .lock) })
    | some false => .goes (.left w, { r with thread := some (.loops .exited) })
  | .lock | .asleep =>
    match r.queueLock, r.queueCond, r.calls, r.active with
    | some (some _), _, _, _ => .blocked
    | some none, some _, some (j :: left), _ => r.takeFirst w j left
    | some none, some _, some [], some true =>
      .goes (.slept w, { r with queueCond := some .asleep, thread := some (.loops .asleep) })
    | some none, some _, some [], some false =>
      .goes (.passed w, { r with queueCond := some .empty, thread := some (.loops .test) })
    | _, _, _, _ => .undefined
  | .exited => .blocked
  | _ => .undefined

/-- One step of the worker's thread; `none` is the thread setting `ready_`. -/
def threadNext (r : RawWorker T (Tid n)) (w : Fin n) :
    Attempt (Option (Action T n) × RawWorker T (Tid n)) :=
  match r.thread with
  | none => .blocked
  | some .begins =>
    match r.ready with
    | none => .undefined
    | some _ => .goes (none, { r with ready := some true, thread := some (.loops .test) })
  | some (.loops p) =>
    match r.runNext w p with
    | .blocked => .blocked
    | .undefined => .undefined
    | .goes (a, r') => .goes (some a, r')

/-- The worker once its constructor is through. -/
def complete (r : RawWorker T (Tid n)) : Option (AsyncWorker T (Tid n)) := do
  let calls ← r.calls
  let _ ← r.ready
  let queueCond ← r.queueCond
  let queueLock ← r.queueLock
  let active ← r.active
  let _ ← r.thread
  let outstandingJobs ← r.outstandingJobs
  let executingLock ← r.executingLock
  let executing ← r.executing
  let _ ← r.executingCond
  some ⟨calls, queueCond, queueLock, active, outstandingJobs, executingLock, executing⟩

end RawWorker

/-- Where `AsyncDispatcher::start` stands: in the constructor of a worker with its first `k` members
there, or in `blockUntilReady` of a worker. -/
inductive StartPc (n : Nat)
  | construct (w : Fin n) (k : ℕ)
  | wait (w : ℕ)
  | returned

/-- The loop of `createWorkersIfNotInitialized`. -/
def StartPc.create (n w : ℕ) : StartPc n := if h : w < n then .construct ⟨w, h⟩ 0 else .wait 0

structure StartUp (T : ArgTypes) (n : Nat) where
  workers : Fin n → RawWorker T (Tid n)
  main : StartPc n

inductive StartThread (n : Nat)
  | main
  | worker (w : Fin n)

inductive StartEvent (T : ArgTypes) (n : Nat)
  | built (w : Fin n) (m : Member)
  | created (w : Fin n)
  | polled (w : Fin n) (isReady : Bool)
  | returned
  | ready (w : Fin n)
  | ran (w : Fin n) (a : Action T n)
  | undefined

namespace StartUp

def onWorker (s : StartUp T n) (w : Fin n) (r : RawWorker T (Tid n)) : StartUp T n :=
  { s with workers := Function.update s.workers w r }

/-- `AsyncDispatcher::start` on a dispatcher without workers. -/
def mainNext (s : StartUp T n) : Option (StartEvent T n × StartUp T n) :=
  match s.main with
  | .construct w k =>
    match Member.order[k]? with
    | some m => some (.built w m,
        { s.onWorker w ((s.workers w).build m) with main := .construct w (k + 1) })
    | none => some (.created w, { s with main := .create n (w + 1) })
  | .wait w =>
    if h : w < n then
      match (s.workers ⟨w, h⟩).ready with
      | none => some (.undefined, s)
      | some true => some (.polled ⟨w, h⟩ true, { s with main := .wait (w + 1) })
      | some false => some (.polled ⟨w, h⟩ false, s)
    else some (.returned, { s with main := .returned })
  | .returned => none

def workerNext (s : StartUp T n) (w : Fin n) : Option (StartEvent T n × StartUp T n) :=
  match (s.workers w).threadNext w with
  | .blocked => none
  | .undefined => some (.undefined, s)
  | .goes (none, r) => some (.ready w, s.onWorker w r)
  | .goes (some a, r) => some (.ran w a, s.onWorker w r)

end StartUp

/-- The thread in `start` and the threads of the workers it makes. -/
def startUp (T : ArgTypes) (n : Nat) :
    Machine (StartUp T n) (StartThread n) (StartEvent T n) where
  init := ⟨fun _ => {}, .create n 0⟩
  step s
    | .main => s.mainNext
    | .worker w => s.workerNext w

namespace RawWorker

variable {r r' : RawWorker T (Tid n)} {k : ℕ} {w : Fin n} {m : Member}

/-- The worker as a started pool has it, members not yet there with the values they will get. -/
def shown (r : RawWorker T (Tid n)) : AsyncWorker T (Tid n) where
  calls := r.calls.getD []
  queueCond := r.queueCond.getD .empty
  queueLock := r.queueLock.getD none
  active := r.active.getD true
  outstandingJobs := r.outstandingJobs.getD 0
  executingLock := r.executingLock.getD none
  executing := r.executing.getD false

def pc (r : RawWorker T (Tid n)) : WorkerPc T :=
  match r.thread with
  | some (.loops p) => p
  | _ => .test

/-- A worker with its first `k` members initialised. No job has come, and the thread is past
`ready_ = 1` just when it is in its loop. -/
structure Growing (k : ℕ) (r : RawWorker T (Tid n)) : Prop where
  built : ∀ m, r.has m = decide (m.rank < k)
  idle : r.shown = { AsyncWorker.started with queueCond := r.shown.queueCond }
  looping : ∀ p, r.thread = some (.loops p) → p = .test ∨ p = .lock ∨ p = .asleep
  ready : r.ready = some true ↔ ∃ p, r.thread = some (.loops p)

theorem rank_of_order (h : Member.order[k]? = some m) : m.rank = k := by
  obtain ⟨hk, rfl⟩ := List.getElem?_eq_some_iff.mp h
  exact List.Nodup.idxOf_getElem (by decide) k hk

theorem rank_injective {m m' : Member} (h : m.rank = m'.rank) : m = m' := by
  have hmem (m : Member) : m ∈ Member.order := by cases m <;> decide
  exact (List.idxOf_inj (hmem m)).mp h

theorem has_build (m m' : Member) : (r.build m).has m' = (decide (m' = m) || r.has m') := by
  cases m <;> cases m' <;> simp [build, has]

theorem shown_build (h : r.has m = false) : (r.build m).shown = r.shown := by
  cases m <;> simp_all [build, has, shown]

theorem loops_build (h : r.has m = false) (p : WorkerPc T) :
    (r.build m).thread = some (.loops p) ↔ r.thread = some (.loops p) := by
  cases m <;> simp_all [build, has]

theorem ready_build (h : r.has m = false) :
    (r.build m).ready = some true ↔ r.ready = some true := by
  cases m <;> simp_all [build, has]

theorem pc_build (h : r.has m = false) : (r.build m).pc = r.pc := by
  cases m <;> simp_all [build, has, pc]

theorem Growing.init : Growing 0 ({} : RawWorker T (Tid n)) := by
  refine ⟨fun m => ?_, rfl, fun p hp => (by cases hp), ?_⟩
  · cases m <;> rfl
  · simp

theorem Growing.build (h : Growing k r) (hm : Member.order[k]? = some m) :
    Growing (k + 1) (r.build m) := by
  have hrank : m.rank = k := rank_of_order hm
  have hno : r.has m = false := by simp [h.built, hrank]
  refine ⟨fun m' => ?_, ?_, ?_, ?_⟩
  · rw [has_build, h.built]
    by_cases hmm : m' = m
    · simp [hmm, hrank]
    · have hne : m'.rank ≠ k := fun he => hmm (rank_injective (he.trans hrank.symm))
      simp only [hmm, decide_false, Bool.false_or, decide_eq_decide]
      omega
  · rw [shown_build hno]
    exact h.idle
  · exact fun p hp => h.looping p ((loops_build hno p).mp hp)
  · simp only [ready_build hno, loops_build hno, h.ready]

/-- What `run` reads is there when the thread is started. -/
theorem Growing.needs (h : Growing k r) {th : Spawned T} (hth : r.thread = some th) (m : Member)
    (hm : m.rank ≤ Member.thread.rank) : r.has m = true := by
  have hthread : r.has .thread = true := by simp [has, hth]
  rw [h.built, decide_eq_true_iff] at hthread ⊢
  omega

/-- The fields of a worker under construction that its thread looks at. -/
theorem Growing.fields (h : Growing k r) {th : Spawned T} (hth : r.thread = some th) :
    r.calls = some [] ∧ r.queueLock = some none ∧ r.active = some true ∧
      ∃ c, r.queueCond = some c := by
  have hidle := h.idle
  have hcalls := h.needs hth .calls (by decide)
  have hlock := h.needs hth .queueLock (by decide)
  have hactive := h.needs hth .active (by decide)
  have hcond := h.needs hth .queueCond (by decide)
  simp only [has, Option.isSome_iff_exists] at hcalls hlock hactive hcond
  obtain ⟨cs, hcs⟩ := hcalls
  obtain ⟨o, ho⟩ := hlock
  obtain ⟨b, hb⟩ := hactive
  simp only [shown, AsyncWorker.started, AsyncWorker.mk.injEq, hcs, ho, hb,
    Option.getD_some] at hidle
  obtain ⟨rfl, -, rfl, rfl, -⟩ := hidle
  exact ⟨hcs, ho, hb, hcond⟩

/-- The thread never comes to a member that is not there: it is about to set `ready_`, or takes a
step of a worker that waits for its first job. -/
theorem Growing.threadNext (h : Growing k r) :
    r.threadNext w = .blocked ∧ r.thread = none ∨
    (r.thread = some .begins ∧ r.threadNext w =
      .goes (none, { r with ready := some true, thread := some (.loops .test) })) ∨
    (r.thread = some (.loops .test) ∧ r.threadNext w =
      .goes (some .tau, { r with thread := some (.loops .lock) })) ∨
    ((r.thread = some (.loops .lock) ∨ r.thread = some (.loops .asleep)) ∧
      r.threadNext w = .goes (some (.slept w),
        { r with queueCond := some .asleep, thread := some (.loops .asleep) })) := by
  unfold RawWorker.threadNext
  cases hth : r.thread with
  | none => exact .inl ⟨rfl, rfl⟩
  | some th =>
    obtain ⟨hcs, ho, hb, c, hc⟩ := h.fields hth
    cases th with
    | begins =>
      have hready := h.needs hth .ready (by decide)
      obtain ⟨x, hx⟩ := Option.isSome_iff_exists.mp hready
      exact .inr (.inl ⟨rfl, by simp only [hx]⟩)
    | loops p =>
      rcases h.looping p hth with rfl | rfl | rfl
      · exact .inr (.inr (.inl ⟨rfl, by simp [runNext, hb]⟩))
      · exact .inr (.inr (.inr ⟨.inl rfl, by simp [runNext, hb, hcs, ho, hc]⟩))
      · exact .inr (.inr (.inr ⟨.inr rfl, by simp [runNext, hb, hcs, ho, hc]⟩))

/-- A step of the thread leaves the constructor alone. -/
theorem Growing.ran (h : Growing k r) {p : WorkerPc T} {c : Option Cond}
    (hth : r.thread.isSome = true) (hp : p = .test ∨ p = .lock ∨ p = .asleep)
    (hc : c.isSome = r.queueCond.isSome) :
    Growing k { r with ready := some true, queueCond := c, thread := some (.loops p) } := by
  refine ⟨fun m => ?_, ?_, fun q hq => ?_, ?_⟩
  · rw [← h.built]
    obtain ⟨th, hth⟩ := Option.isSome_iff_exists.mp hth
    have hready := h.needs hth .ready (by decide)
    cases m <;> simp_all [has]
  · have hidle := h.idle
    simp only [shown, AsyncWorker.started, AsyncWorker.mk.injEq] at hidle ⊢
    tauto
  · obtain rfl : p = q := by simpa using hq
    exact hp
  · simp

theorem Growing.whole (h : Growing k r) (hk : Member.order.length ≤ k) :
    Growing Member.order.length r := by
  refine ⟨fun m => ?_, h.idle, h.looping, h.ready⟩
  have hm : m.rank < Member.order.length := by cases m <;> decide
  rw [h.built, decide_eq_decide]
  omega

/-- A worker with all its members is the one the started pool has. -/
theorem Growing.complete (h : Growing Member.order.length r) : r.complete = some r.shown := by
  have hall (m : Member) : r.has m = true := by
    have hm : m.rank < Member.order.length := by cases m <;> decide
    simp [h.built, hm]
  have hsome {α : Type} {o : Option α} (ho : o.isSome = true) : ∃ x, o = some x :=
    Option.isSome_iff_exists.mp ho
  obtain ⟨_, h₁⟩ := hsome (hall .calls)
  obtain ⟨_, h₂⟩ := hsome (hall .ready)
  obtain ⟨_, h₃⟩ := hsome (hall .queueCond)
  obtain ⟨_, h₄⟩ := hsome (hall .queueLock)
  obtain ⟨_, h₅⟩ := hsome (hall .active)
  obtain ⟨_, h₆⟩ := hsome (hall .thread)
  obtain ⟨_, h₇⟩ := hsome (hall .outstandingJobs)
  obtain ⟨_, h₈⟩ := hsome (hall .executingLock)
  obtain ⟨_, h₉⟩ := hsome (hall .executing)
  obtain ⟨_, h₁₀⟩ := hsome (hall .executingCond)
  simp [RawWorker.complete, shown, h₁, h₂, h₃, h₄, h₅, h₆, h₇, h₈, h₉, h₁₀]

end RawWorker

/-- How many members of a worker are there. -/
def StartPc.built (w : Fin n) : StartPc n → ℕ
  | .construct v k => if w < v then Member.order.length else if w = v then k else 0
  | _ => Member.order.length

/-- `blockUntilReady` of the worker has returned. -/
def StartPc.waited (w : Fin n) : StartPc n → Bool
  | .construct _ _ => false
  | .wait v => w < v
  | .returned => true

/-- What the history of the started pool has of it. -/
def StartEvent.inPool : StartEvent T n → Option (Tid n × Action T n)
  | .ran w a => some (.worker w, a)
  | _ => none

/-- `blockUntilReady` has found the worker's thread not running yet. -/
def StartEvent.tooEarly (w : Fin n) : StartEvent T n → Bool
  | .polled v false => v = w
  | _ => false

namespace StartUp

/-- The started pool this will be. -/
def pool (s : StartUp T n) : Sys T n where
  mem := { Mem.init with workers := fun w => (s.workers w).shown }
  pc w := (s.workers w).pc
  stack _ := []
  result _ := .ret true

structure Sane (tr : List (StartEvent T n)) (s : StartUp T n) : Prop where
  growing : ∀ w, RawWorker.Growing (s.main.built w) (s.workers w)
  waited : ∀ w, s.main.waited w = true → (s.workers w).ready = some true
  readied : ∀ w, .ready w ∈ tr → (s.workers w).ready = some true

theorem built_create (v : ℕ) (w : Fin n) : (StartPc.create n v).built w =
    if (w : ℕ) < v ∨ n ≤ v then Member.order.length else 0 := by
  unfold StartPc.create
  split
  · rename_i hv
    by_cases hw : (w : ℕ) < v
    · simp [StartPc.built, Fin.lt_def, hw]
    · simp [StartPc.built, Fin.lt_def, hw, Nat.not_le.mpr hv]
  · rename_i hv
    simp [StartPc.built, Nat.not_lt.mp hv]

theorem waited_create (v : ℕ) (w : Fin n) : (StartPc.create n v).waited w = false := by
  unfold StartPc.create
  split <;> simp [StartPc.waited]

theorem Sane.init : Sane [] (startUp T n).init where
  growing w := by
    have hbuilt : (startUp T n).init.main.built w = 0 := by
      have hn : ¬n ≤ 0 := Nat.not_le.mpr w.pos
      change (StartPc.create n 0).built w = 0
      simp [built_create, hn]
    rw [hbuilt]
    exact .init
  waited w hw := by
    have hno : (startUp T n).init.main.waited w = false := waited_create 0 w
    rw [hno] at hw
    cases hw
  readied w hw := absurd hw List.not_mem_nil

variable {s s' : StartUp T n} {tr : List (StartEvent T n)} {e : StartEvent T n} {w : Fin n}

/-- The started pool does not see what leaves a worker's memory and loop as they are shown. -/
theorem pool_onWorker {r : RawWorker T (Tid n)} (hshown : r.shown = (s.workers w).shown)
    (hpc : r.pc = (s.workers w).pc) : (s.onWorker w r).pool = s.pool := by
  have hworker (v : Fin n) : ((s.onWorker w r).workers v).shown = (s.workers v).shown ∧
      ((s.onWorker w r).workers v).pc = (s.workers v).pc := by
    by_cases hv : v = w
    · subst hv
      simp [onWorker, hshown, hpc]
    · simp [onWorker, hv]
  simp only [pool, hworker]

/-- The part of the invariant about one worker carries over where it is not touched. -/
theorem Sane.of_main (h : Sane tr s) {p : StartPc n}
    (hbuilt : ∀ w, p.built w = s.main.built w ∨
      Member.order.length ≤ s.main.built w ∧ p.built w = Member.order.length)
    (hwaited : ∀ w, p.waited w = true → (s.workers w).ready = some true)
    (hready : ∀ w, e ≠ .ready w) : Sane (tr ++ [e]) { s with main := p } where
  growing w := by
    rcases hbuilt w with hw | ⟨hle, hw⟩
    · exact hw ▸ h.growing w
    · exact hw ▸ (h.growing w).whole hle
  waited := hwaited
  readied w hw := by
    rcases List.mem_append.mp hw with hw | hw
    · exact h.readied w hw
    · exact absurd (List.mem_singleton.mp hw).symm (hready w)

theorem Sane.build (h : Sane tr s) {v : Fin n} {k : ℕ} {m : Member}
    (hmain : s.main = .construct v k) (hm : Member.order[k]? = some m) :
    let s' := { s.onWorker v ((s.workers v).build m) with main := .construct v (k + 1) }
    Sane (tr ++ [.built v m]) s' ∧ s'.pool = s.pool := by
  have hgrow : RawWorker.Growing k (s.workers v) := by
    have hv := h.growing v
    simpa [hmain, StartPc.built] using hv
  have hno : (s.workers v).has m = false := by
    simp [hgrow.built, RawWorker.rank_of_order hm]
  refine ⟨⟨fun w => ?_, fun w hw => (by cases hw), fun w hw => ?_⟩, ?_⟩
  · by_cases hw : w = v
    · subst hw
      simpa [onWorker, StartPc.built] using hgrow.build hm
    · have hold := h.growing w
      simp only [hmain, StartPc.built, hw, if_false] at hold
      simpa [onWorker, StartPc.built, hw] using hold
  · have hold : (s.workers w).ready = some true := by
      refine h.readied w ?_
      simpa using hw
    by_cases hv : w = v
    · subst hv
      simpa [onWorker] using (RawWorker.ready_build hno).mpr hold
    · simpa [onWorker, hv] using hold
  · exact pool_onWorker (RawWorker.shown_build hno) (RawWorker.pc_build hno)

/-- The next constructor begins where the last one is through. -/
theorem built_next {v : Fin n} {k : ℕ} (hk : Member.order.length ≤ k) (w : Fin n) :
    (StartPc.create n (v + 1)).built w = (StartPc.construct v k).built w ∨
      Member.order.length ≤ (StartPc.construct v k).built w ∧
        (StartPc.create n (v + 1)).built w = Member.order.length := by
  have hwn := w.isLt
  rw [built_create]
  rcases lt_trichotomy w v with hw | rfl | hw
  · have hle : (w : ℕ) < v + 1 := by rw [Fin.lt_def] at hw; omega
    exact .inl (by rw [if_pos (.inl hle)]; simp [StartPc.built, hw])
  · exact .inr (by simp [StartPc.built, hk])
  · have hle : ¬((w : ℕ) < v + 1 ∨ n ≤ v + 1) := by rw [Fin.lt_def] at hw; omega
    exact .inl (by rw [if_neg hle]; simp [StartPc.built, Fin.lt_asymm hw, ne_of_gt hw])

theorem Sane.main (h : Sane tr s) (hs : s.mainNext = some (e, s')) :
    Sane (tr ++ [e]) s' ∧ s'.pool = s.pool ∧ e.inPool = none ∧ e ≠ .undefined ∧
      ∀ w, e.tooEarly w = true → .ready w ∉ tr := by
  unfold mainNext at hs
  split at hs
  · rename_i v k hmain
    split at hs
    · rename_i m hm
      cases hs
      obtain ⟨hsane, hpool⟩ := h.build hmain hm
      exact ⟨hsane, hpool, rfl, by simp, by simp [StartEvent.tooEarly]⟩
    · rename_i hk
      cases hs
      refine ⟨h.of_main (fun w => ?_) (fun w hw => ?_) (by simp), rfl, rfl, by simp,
        by simp [StartEvent.tooEarly]⟩
      · rw [hmain]
        exact built_next (List.getElem?_eq_none_iff.mp hk) w
      · rw [waited_create] at hw
        cases hw
  · rename_i v hmain
    have hwhole (w : Fin n) : s.main.built w = Member.order.length := by rw [hmain]; rfl
    have hwaited {w : Fin n} (hw : (w : ℕ) < v) : (s.workers w).ready = some true :=
      h.waited w (by simp [hmain, StartPc.waited, hw])
    split at hs
    · rename_i hv
      split at hs
      · rename_i hnone
        have hhas := (h.growing ⟨v, hv⟩).built .ready
        rw [hwhole] at hhas
        simp [RawWorker.has, hnone, Member.rank, Member.order] at hhas
      · rename_i hready
        cases hs
        refine ⟨h.of_main (fun w => .inl (hwhole w).symm) (fun w hw => ?_) (by simp), rfl, rfl,
          by simp, by simp [StartEvent.tooEarly]⟩
        have hle : (w : ℕ) < v + 1 := by simpa [StartPc.waited] using hw
        by_cases heq : (w : ℕ) = v
        · have hwv : w = ⟨v, hv⟩ := Fin.ext heq
          rw [hwv, hready]
        · exact hwaited (by omega)
      · rename_i hready
        cases hs
        refine ⟨h.of_main (p := s.main) (fun w => .inl rfl) h.waited (by simp), rfl, rfl, by simp,
          fun w hw hmem => ?_⟩
        obtain rfl : ⟨v, hv⟩ = w := by simpa [StartEvent.tooEarly] using hw
        rw [h.readied _ hmem] at hready
        cases hready
    · rename_i hv
      cases hs
      refine ⟨h.of_main (fun w => .inl (hwhole w).symm) (fun w _ => ?_) (by simp), rfl, rfl,
        by simp, by simp [StartEvent.tooEarly]⟩
      exact hwaited (Nat.lt_of_lt_of_le w.isLt (Nat.not_lt.mp hv))
  · cases hs

/-- A step of the thread touches its own worker only. -/
theorem Sane.of_worker (h : Sane tr s) {r : RawWorker T (Tid n)}
    (hr : RawWorker.Growing (s.main.built w) r) (hready : r.ready = some true)
    (he : ∀ v, e = .ready v → v = w) : Sane (tr ++ [e]) (s.onWorker w r) where
  growing v := by
    by_cases hv : v = w
    · subst hv
      simpa [onWorker] using hr
    · simpa [onWorker, hv] using h.growing v
  waited v hw := by
    by_cases hv : v = w
    · subst hv
      simpa [onWorker] using hready
    · simpa [onWorker, hv] using h.waited v hw
  readied v hw := by
    by_cases hv : v = w
    · subst hv
      simpa [onWorker] using hready
    · rcases List.mem_append.mp hw with hw | hw
      · simpa [onWorker, hv] using h.readied v hw
      · exact absurd (he v (List.mem_singleton.mp hw).symm) hv

theorem pool_mem (r : RawWorker T (Tid n)) : (s.onWorker w r).pool.mem =
    { s.pool.mem with workers := Function.update s.pool.mem.workers w r.shown } := by
  have hworkers : (fun v => ((s.onWorker w r).workers v).shown) =
      Function.update (fun v => (s.workers v).shown) w r.shown := by
    funext v
    by_cases hv : v = w
    · subst hv
      simp [onWorker]
    · simp [onWorker, hv]
  simp only [pool, hworkers]

/-- A step of the pool that changes one worker, seen from the start-up. -/
theorem pool_apply {r : RawWorker T (Tid n)} {a : Action T n} {p : WorkerPc T}
    (ha : s.pool.mem.perform (.worker w) a = (s.onWorker w r).pool.mem) (hp : r.pc = p) :
    s.pool.apply (.worker w) ⟨a, [], none, some p⟩ = (s.onWorker w r).pool := by
  have hpc : Function.update s.pool.pc w p = (s.onWorker w r).pool.pc := by
    funext v
    by_cases hv : v = w
    · subst hv
      simp [pool, onWorker, hp]
    · simp [pool, onWorker, hv]
  have hstack : Function.update s.pool.stack (.worker w)
      ([] ++ (s.pool.stack (.worker w)).tail) = (s.onWorker w r).pool.stack :=
    Function.update_eq_self ..
  simp only [Sys.apply, Sys.setPc_worker, ha, hpc, hstack]
  rfl

/-- The steps of a thread in its loop are steps the started pool has. -/
theorem Sane.moves (h : Sane tr s) : (s.pool.worker w).calls = [] ∧
    (s.pool.worker w).queueLock = none ∧ (s.pool.worker w).active = true := by
  have hidle : s.pool.worker w = _ := (h.growing w).idle
  rw [hidle]
  exact ⟨rfl, rfl, rfl⟩

theorem Sane.worker (h : Sane tr s) (hs : s.workerNext w = some (e, s')) :
    Sane (tr ++ [e]) s' ∧ (e = .ready w ∧ s'.pool = s.pool ∨ ∃ a, e = .ran w a ∧
      (ServiceLib.pool T n).step s.pool (.worker w, .run) = some ((.worker w, a), s'.pool)) := by
  have hgrow := h.growing w
  obtain ⟨hcalls, hlock, hactive⟩ := h.moves (w := w)
  have hready {p : WorkerPc T} (hth : (s.workers w).thread = some (.loops p)) :
      (s.workers w).ready = some true := hgrow.ready.mpr ⟨p, hth⟩
  have hpc {p : WorkerPc T} (hth : (s.workers w).thread = some (.loops p)) : s.pool.pc w = p := by
    simp [pool, RawWorker.pc, hth]
  unfold workerNext at hs
  rcases hgrow.threadNext (w := w) with ⟨hn, -⟩ | ⟨hth, hn⟩ | ⟨hth, hn⟩ | ⟨hth, hn⟩
  · rw [hn] at hs
    cases hs
  · rw [hn] at hs
    cases hs
    refine ⟨h.of_worker (hgrow.ran (by simp [hth]) (.inl rfl) rfl) rfl (by simp), .inl ⟨rfl, ?_⟩⟩
    exact pool_onWorker rfl (by simp [RawWorker.pc, hth])
  · rw [hn] at hs
    cases hs
    have hnew := hgrow.ran (p := .lock) (by simp [hth]) (.inr (.inl rfl)) rfl
    rw [← hready hth] at hnew
    refine ⟨h.of_worker hnew (hready hth) (by simp), .inr ⟨.tau, rfl, ?_⟩⟩
    have hm : Moves s.pool (.worker w) .run ⟨.tau, [], none, some .lock⟩ :=
      .enterLoop rfl rfl (hpc hth) hactive
    refine hm.step_eq.trans (congrArg (fun s' => some (_, s')) (pool_apply ?_ rfl))
    rw [pool_mem]
    exact congrArg (fun ws => { s.pool.mem with workers := ws }) (Function.update_eq_self ..).symm
  · rw [hn] at hs
    cases hs
    have hready' : (s.workers w).ready = some true := hth.elim hready hready
    have hsome : (s.workers w).thread.isSome = true := by rcases hth with hth | hth <;> simp [hth]
    have hcond : (some Cond.asleep).isSome = (s.workers w).queueCond.isSome := by
      obtain ⟨th, hth⟩ := Option.isSome_iff_exists.mp hsome
      obtain ⟨-, -, -, c, hc⟩ := hgrow.fields hth
      simp [hc]
    have hnew := hgrow.ran (p := .asleep) hsome (.inr (.inr rfl)) hcond
    rw [← hready'] at hnew
    refine ⟨h.of_worker hnew hready' (by simp), .inr ⟨.slept w, rfl, ?_⟩⟩
    have hm : Moves s.pool (.worker w) .run ⟨.slept w, [], none, some .asleep⟩ :=
      .sleep rfl rfl (hth.imp hpc hpc) hlock hcalls hactive
    refine hm.step_eq.trans (congrArg (fun s' => some (_, s')) (pool_apply ?_ rfl))
    rw [pool_mem]
    rfl

end StartUp

variable {ok : List (StartEvent T n) → StartUp T n → StartThread n → Prop}
  {tr : List (StartEvent T n)} {s : StartUp T n}

theorem sane (h : (startUp T n).Run ok tr s) : s.Sane tr := by
  refine h.invariant (J := fun tr s => s.Sane tr) .init ?_
  intro tr s i e s' _ ih _ hs
  cases i with
  | main => exact (ih.main hs).1
  | worker w => exact (ih.worker hs).1

theorem startUp_pool (T : ArgTypes) (n : Nat)
    (ok : List (StartEvent T n) → StartUp T n → StartThread n → Prop) :
    Refines (startUp T n) (pool T n) ok StartEvent.inPool StartUp.pool where
  init := rfl
  hidden {tr s i e s'} hrun _ hs he := by
    cases i with
    | main => exact ((sane hrun).main hs).2.1
    | worker w =>
      rcases ((sane hrun).worker hs).2 with ⟨-, hpool⟩ | ⟨a, rfl, -⟩
      · exact hpool
      · cases he
  shown {tr s i e s' e'} hrun _ hs he := by
    cases i with
    | main =>
      rw [((sane hrun).main hs).2.2.1] at he
      cases he
    | worker w =>
      rcases ((sane hrun).worker hs).2 with ⟨rfl, -⟩ | ⟨a, rfl, hstep⟩
      · cases he
      · cases he
        exact ⟨_, hstep⟩

/-- `start` hands over a started pool. A worker's thread runs before the worker is constructed, yet
never comes to a member that is not initialised; all it does up to then is a run of the pool; and
when `start` has returned, every worker is whole, its thread in its loop and the pool in the state
that run ends in. A poll of `blockUntilReady` fails only before the thread has set `ready_`. -/
theorem start_ready (h : (startUp T n).Run AnyStep tr s) :
    .undefined ∉ tr ∧ (pool T n).Run AnyStep (tr.filterMap StartEvent.inPool) s.pool ∧
    (∀ l r w, tr = l ++ .polled w false :: r → .ready w ∉ l) ∧
    (s.main = .returned → ∀ w, (s.workers w).complete = some (s.pool.worker w) ∧
      (s.workers w).ready = some true ∧ (s.workers w).thread = some (.loops (s.pool.pc w))) := by
  have hdefined {tr s} (h : (startUp T n).Run AnyStep tr s) {i : StartThread n}
      {e : StartEvent T n} {s' : StartUp T n} (hs : (startUp T n).step s i = some (e, s')) :
      e ≠ .undefined ∧ ∀ w, e.tooEarly w = true → .ready w ∉ tr := by
    cases i with
    | main => exact ((sane h).main hs).2.2.2
    | worker w =>
      rcases ((sane h).worker hs).2 with ⟨rfl, -⟩ | ⟨a, rfl, -⟩ <;> simp [StartEvent.tooEarly]
  refine ⟨fun hmem => ?_, (startUp_pool T n AnyStep).run h, fun l r w htr => ?_, fun hmain w => ?_⟩
  · obtain ⟨l, r, htr⟩ := List.append_of_mem hmem
    obtain ⟨s₀, i, s₁, h₀, -, hs, -⟩ := h.at_label htr
    exact (hdefined h₀ hs).1 rfl
  · obtain ⟨s₀, i, s₁, h₀, -, hs, -⟩ := h.at_label htr
    exact (hdefined h₀ hs).2 w (by simp [StartEvent.tooEarly])
  · have hgrow := (sane h).growing w
    have hready := (sane h).waited w (by simp [hmain, StartPc.waited])
    rw [hmain] at hgrow
    obtain ⟨p, hp⟩ := hgrow.ready.mp hready
    refine ⟨hgrow.complete, hready, ?_⟩
    simp [StartUp.pool, RawWorker.pc, hp]

/-- A pool of one; its thread already sleeps when the constructor comes to `outstandingJobs_`. -/
def oneStarted : List (StartEvent .unit 1) × StartUp .unit 1 :=
  (startUp .unit 1).drive (fun _ _ _ => true)
    (List.replicate 6 .main ++ List.replicate 3 (.worker worker₀) ++ List.replicate 7 .main)

theorem start_ready_oneStarted :
    (oneStarted.2.workers 0).complete = some { AsyncWorker.started with queueCond := .asleep } ∧
      (oneStarted.2.workers 0).thread = some (.loops .asleep) := by
  have h : (startUp .unit 1).Run AnyStep oneStarted.1 oneStarted.2 :=
    run_drive (fun _ _ _ _ => trivial) _
  obtain ⟨-, -, -, hready⟩ := start_ready h
  obtain ⟨hcomplete, -, hthread⟩ := hready rfl 0
  exact ⟨hcomplete, hthread⟩

end ServiceLib
