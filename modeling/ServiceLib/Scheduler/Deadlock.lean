import ServiceLib.Pool.Stop
import ServiceLib.Scheduler.Unregister

namespace ServiceLib

open Machine

variable {T : ArgTypes} {n : Nat} {ok : History T n → Sys T n → Tid n × Choice T n → Prop}
  {tr : History T n} {s : Sys T n} {t u c : Tid n}
  {i : Choice T n} {mv : Move T n} {w : Fin n}

inductive Lock (n : Nat)
  | mapping
  | queue (w : Fin n)
  | executing (w : Fin n)

def Sys.ownerOf (s : Sys T n) : Lock n → Option (Tid n)
  | .mapping => s.mem.mappingLock.owner
  | .queue w => (s.worker w).queueLock
  | .executing w => (s.worker w).executingLock

/-- The lock a function takes with its next step. -/
def Frame.wants : Frame T n → Option (Lock n)
  | .checkAndInvoke _ _ _ | .register _ (some _) _ | .unregister _ | .isRegistered _
  | .subscribe _ _ => some .mapping
  | .push w _ _ _ _ | .cancelLock _ w | .stopPoll w => some (.queue w)
  | .cancelScan id w (it :: _) => if it.id = id then some (.executing w) else none
  | _ => none

/-- The lock the run loop of a worker takes with its next step; a worker that sleeps takes
`queueLock_` when it wakes. -/
def WorkerPc.wants (w : Fin n) : WorkerPc T → Option (Lock n)
  | .lock | .asleep | .relock => some (.queue w)
  | .acquire _ => some (.executing w)
  | _ => none

def Sys.wants (s : Sys T n) (t : Tid n) : Option (Lock n) :=
  match s.stack t, t with
  | [], .worker w => (s.pc w).wants w
  | [], .client _ => none
  | f :: _, _ => f.wants

/-- Thread `t` cannot go on before thread `u` lets a lock go; `mappingLock_` is recursive, the
others are not. -/
def Sys.BlockedBy (s : Sys T n) (t u : Tid n) : Prop :=
  ∃ l, s.wants t = some l ∧ s.ownerOf l = some u ∧ (l = .mapping → u ≠ t)

/-- Each of the threads is blocked by one of them. -/
def Sys.Deadlocked (s : Sys T n) (S : Set (Tid n)) : Prop :=
  S.Nonempty ∧ ∀ t ∈ S, ∃ u ∈ S, s.BlockedBy t u

def Sys.free (s : Sys T n) (t : Tid n) : Lock n → Bool
  | .mapping => s.mem.mappingLock.canLock t
  | .queue w => (s.worker w).queueLock.isNone
  | .executing w => (s.worker w).executingLock.isNone

/-- A thread gets past a lock only when the lock is free for it. -/
theorem Moves.takes_free (hm : Moves s t .run mv) {l : Lock n} (hw : s.wants t = some l) :
    s.free t l = true := by
  unfold Sys.wants at hw
  cases hm
  case cancelSkip id w it left rest hs hok =>
    simp only [hs, Frame.wants, Option.ite_none_right_eq_some, Option.some.injEq] at hw
    obtain ⟨hid, rfl⟩ := hw
    simp [Sys.free, (hok hid).1]
  case dequeue w j left ht hs hp hq hc =>
    subst ht
    rcases hp with hp | hp | hp <;> simp only [hs, hp, WorkerPc.wants, Option.some.injEq] at hw <;>
      subst hw <;> simp [Sys.free, hq]
  case sleep w ht hs hp hq hc ha =>
    subst ht
    rcases hp with hp | hp <;> simp only [hs, hp, WorkerPc.wants, Option.some.injEq] at hw <;>
      subst hw <;> simp [Sys.free, hq]
  case pass w ht hs hp hq hc =>
    subst ht
    rcases hp with hp | ⟨hp | hp, -⟩ <;>
      simp only [hs, hp, WorkerPc.wants, Option.some.injEq] at hw <;> subst hw <;>
      simp [Sys.free, hq]
  all_goals
    subst_vars
    simp_all [Frame.wants, WorkerPc.wants]
  all_goals
    subst hw
    simp_all [Sys.free]

/-- A blocked thread has no step. -/
theorem Sys.BlockedBy.no_step (h : s.BlockedBy t u) : s.next t .run = none := by
  obtain ⟨l, hw, hl, hne⟩ := h
  cases hn : s.next t .run with
  | none => rfl
  | some mv =>
    exfalso
    have hfree := (Sys.next_moves hn).takes_free hw
    cases l with
    | mapping =>
      have hdepth := (RecursiveMutex.canLock_iff _ _).mp hfree u (hne rfl)
      have hpos := (RecursiveMutex.owner_eq_some _ _).mp hl
      omega
    | queue w => simp_all [Sys.free, Sys.ownerOf]
    | executing w => simp_all [Sys.free, Sys.ownerOf]

/-- The function goes on to take `mappingLock_`, or `queueLock_` of the worker. -/
def Frame.seeks (w : Fin n) : Frame T n → Bool
  | .checkAndInvoke _ _ _ | .registerFor _ _ (some _) | .register _ (some _) _ | .unregister _
  | .isRegistered _ | .subscribe _ _ => true
  | .push v _ _ _ _ | .doSync v _ _ _ _ => v = w
  | _ => false

/-- By this step the thread comes to take `mappingLock_`, or `queueLock_` of the worker. -/
def Sys.turnsTo (s : Sys T n) (t : Tid n) (i : Choice T n) (w : Fin n) : Bool :=
  match s.stack t, i with
  | .user :: _, .call op => op.enter.seeks w
  | .scan req res it none :: _, .run => n ≤ it && req.strand = "" && res = w
  | .bindStrand req idle :: _, .run => (s.mem.strands req.strand).getD idle = w
  | _, _ => false

/-- The worker runs a job. -/
def Sys.runsJob (s : Sys T n) (w : Fin n) : Bool := (s.worker w).executingLock.isSome

/-- A cancel has locked the queue of the worker and comes to a job of its service yet. -/
def Sys.cancelAhead (s : Sys T n) (w : Fin n) : Bool :=
  match (s.worker w).queueLock with
  | none => false
  | some c =>
    match s.stack c with
    | .cancelScan id _ left :: _ => left.any fun it => it.id = id
    | _ => false

/-- The cancel that locks a queue with a job of its service is not made by the job the worker
runs, and that job does not wait for a lock of the cancel. -/
def LocksClear (s : Sys T n) (t : Tid n) : Bool :=
  match s.stack t with
  | .cancelLock id w :: _ =>
    !((s.worker w).calls.any (fun it => it.id = id) && s.runsJob w &&
      (t = .worker w || (s.stack (.worker w)).head?.any (Frame.seeks w)))
  | _ => true

/-- While a cancel is to wait for the job a worker runs, the job asks for no lock of the cancel. -/
def StaysClear (s : Sys T n) : Tid n × Choice T n → Bool
  | (.worker w, i) => !(s.cancelAhead w && s.runsJob w && s.turnsTo (.worker w) i w)
  | (.client _, _) => true

/-- A cancel that is to wait for a running job is not made by the job, and the job does not wait
for a lock of the cancel. -/
def Clear (s : Sys T n) : Prop :=
  ∀ {c id w left rest}, s.stack c = .cancelScan id w left :: rest → (∃ it ∈ left, it.id = id) →
    s.runsJob w = true → c ≠ .worker w ∧
      ∀ f rest', s.stack (.worker w) = f :: rest' → f.seeks w = false

theorem Frame.seeks_place (req : Request T) (v : Fin n) :
    (Sys.place req v).seeks w = decide (v = w) := by
  unfold Sys.place
  split <;> rfl

theorem Frame.seeks_resting {f : Frame T n} (h : f.resting = true) : f.seeks w = false := by
  cases f <;> first | rfl | simp [Frame.resting] at h

/-- The running job comes to take a lock from a place where it was about to, or by a call, or by
the choice of the worker it schedules on. -/
theorem Moves.seeks_inv (hm : Moves s (.worker w) i mv) {f : Frame T n} {l : List (Frame T n)}
    (hfr : mv.frames = f :: l) (hf : f.seeks w = true) :
    (∃ g rest, s.stack (.worker w) = g :: rest ∧ g.seeks w = true) ∨
      s.turnsTo (.worker w) i w = true := by
  cases hm
  case call ht _ => cases ht
  case callBack op rest hs =>
    obtain ⟨rfl, -⟩ := List.cons.inj hfr
    right
    simpa [Sys.turnsTo, hs] using hf
  case scanPlace req res it rest hs hi hstrand =>
    obtain ⟨rfl, -⟩ := List.cons.inj hfr
    right
    rw [Frame.seeks_place] at hf
    simp_all [Sys.turnsTo]
  case bindStrand req idle rest hs =>
    obtain ⟨rfl, -⟩ := List.cons.inj hfr
    right
    rw [Frame.seeks_place] at hf
    simpa [Sys.turnsTo, hs] using hf
  case registerFor hs => exact .inl ⟨_, _, hs, rfl⟩
  case doSync v _ _ _ _ _ hs =>
    obtain ⟨rfl, -⟩ := List.cons.inj hfr
    exact .inl ⟨_, _, hs, hf⟩
  all_goals
    simp at hfr
  all_goals
    obtain ⟨rfl, -⟩ := hfr
    simp [Frame.seeks] at hf

/-- The scan of a queue starts when the queue is locked, with all its jobs. -/
theorem Moves.scan_inv (hm : Moves s t i mv) {id : String} {left : List (JobContext T)}
    {l : List (Frame T n)} (hfr : mv.frames = .cancelScan id w left :: l) :
    (∀ v o, mv.action.onExecutingLock t v o = o) ∧
      ((∃ rest, s.stack t = .cancelLock id w :: rest ∧ left = (s.worker w).calls) ∨
        ∃ it rest, s.stack t = .cancelScan id w (it :: left) :: rest) := by
  cases hm
  case cancelLock id' w' rest hs hq =>
    simp only [List.cons.injEq, Frame.cancelScan.injEq] at hfr
    obtain ⟨⟨rfl, rfl, hcalls⟩, -⟩ := hfr
    exact ⟨fun _ _ => rfl, .inl ⟨rest, hs, hcalls.symm⟩⟩
  case cancelSkip id' w' it left' rest hs hok =>
    simp only [List.cons.injEq, Frame.cancelScan.injEq] at hfr
    obtain ⟨⟨rfl, rfl, rfl⟩, -⟩ := hfr
    exact ⟨fun _ _ => rfl, .inr ⟨it, rest, hs⟩⟩
  case call op _ _ _ | callBack op _ _ =>
    cases op <;> simp [Op.enter] at hfr
  case scanPlace | bindStrand =>
    simp only [Sys.place] at hfr
    split at hfr <;> simp at hfr
  all_goals simp at hfr

/-- A step of the running job leaves it without a claim on the locks of a cancel. -/
theorem Clear.own_step (hrest : ∀ f ∈ (s.stack (.worker w)).tail, f.resting = true)
    (hm : Moves s (.worker w) i mv) (hturn : s.turnsTo (.worker w) i w = false)
    (h : ∀ f rest, s.stack (.worker w) = f :: rest → f.seeks w = false) {f : Frame T n}
    {rest : List (Frame T n)} (hs : (s.apply (.worker w) mv).stack (.worker w) = f :: rest) :
    f.seeks w = false := by
  rcases Sys.apply_top hrest hs with ⟨hne, -⟩ | ⟨-, l, hfr, -⟩ | ⟨-, -, -, hresting⟩
  · exact absurd rfl hne
  · by_contra hf
    rcases hm.seeks_inv hfr (by simpa using hf) with ⟨g, rest', hs', hg⟩ | hturn'
    · simp [h g rest' hs'] at hg
    · simp [hturn] at hturn'
  · exact Frame.seeks_resting hresting

theorem Clear.step (hrun : (pool T n).Run ok tr s) (h : Clear s) (hm : Moves s t i mv)
    (hlock : LocksClear s t = true) (hstay : StaysClear s (t, i) = true) :
    Clear (s.apply t mv) := by
  intro c id w left rest hs hleft hruns
  have hrest := resting_below hrun
  rcases Sys.apply_top (hrest t) hs with ⟨hct, hs₀⟩ | ⟨rfl, l, hfr, -⟩ | ⟨-, -, -, hresting⟩
  · rcases s.at_loop t w with hw | ⟨rfl, hnil⟩
    · have hruns₀ : s.runsJob w = true := by
        rwa [Sys.runsJob, Sys.apply_executingLock, (hm.executing_frame w hw).1] at hruns
      obtain ⟨hcw, hclear⟩ := h hs₀ hleft hruns₀
      refine ⟨hcw, ?_⟩
      intro f rest' hs'
      by_cases htw : t = .worker w
      · subst htw
        have hlocked : (s.worker w).queueLock = some c :=
          (queue_owner hrun w c).mpr (by rw [hs₀]; rfl)
        have hahead : s.cancelAhead w = true := by
          simpa [Sys.cancelAhead, hlocked, hs₀] using hleft
        have hturn : s.turnsTo (.worker w) i w = false := by
          simpa [StaysClear, hahead, hruns₀] using hstay
        exact Clear.own_step (hrest _) hm hturn hclear hs'
      · rw [Sys.apply_stack_other _ (Ne.symm htw)] at hs'
        exact hclear f rest' hs'
    · refine ⟨hct, ?_⟩
      intro f rest' hs'
      have hturn : s.turnsTo (.worker w) i w = false := by simp [Sys.turnsTo, hnil]
      exact Clear.own_step (hrest _) hm hturn (fun f rest' hs' => by simp [hnil] at hs') hs'
  · obtain ⟨hexec, hscan⟩ := hm.scan_inv hfr
    have hruns₀ : s.runsJob w = true := by
      rwa [Sys.runsJob, Sys.apply_executingLock, hexec] at hruns
    have hclear : c ≠ .worker w ∧
        ∀ f rest', s.stack (.worker w) = f :: rest' → f.seeks w = false := by
      rcases hscan with ⟨rest₀, hs₀, rfl⟩ | ⟨it, rest₀, hs₀⟩
      · have hany : (s.worker w).calls.any (fun it => it.id = id) = true := by simpa using hleft
        rw [LocksClear, hs₀] at hlock
        simp only [hany, hruns₀, Bool.true_and, Bool.not_eq_true', Bool.or_eq_false_iff,
          decide_eq_false_iff_not] at hlock
        refine ⟨hlock.1, ?_⟩
        intro f rest' hs'
        simpa [hs'] using hlock.2
      · obtain ⟨it', hit', hid⟩ := hleft
        exact h hs₀ ⟨it', List.mem_cons_of_mem it hit', hid⟩ hruns₀
    refine ⟨hclear.1, ?_⟩
    intro f rest' hs'
    rw [Sys.apply_stack_other _ (Ne.symm hclear.1)] at hs'
    exact hclear.2 f rest' hs'
  · simp [Frame.resting] at hresting

/-- No client stops the pool. -/
theorem no_stop (h : (pool T n).Run (fun _ _ i => UsesScheduler i) tr s) :
    ∀ t, ∀ f ∈ s.stack t, f.stopping = false := by
  refine pool_invariant (J := fun _ s => ∀ t, ∀ f ∈ s.stack t, f.stopping = false) ?_ ?_ h
  · exact fun t f hf => absurd hf List.not_mem_nil
  · intro tr s t i mv _ ih hok hm u
    have hframes := (hm.outside_stop (ih t) fun op hi => by
      subst hi
      cases op <;> first | rfl | simp [UsesScheduler] at hok).1
    exact Sys.stacks_outside hframes (ih u)

/-- Client code uses the scheduler alone, and no step leads a cancel and a running job to wait for
each other. -/
def KeepsClear (s : Sys T n) (i : Tid n × Choice T n) : Bool :=
  UsesScheduler i && LocksClear s i.1 && StaysClear s i

theorem KeepsClear.usesScheduler (h : (pool T n).Run (fun _ s i => KeepsClear s i) tr s) :
    (pool T n).Run (fun _ _ i => UsesScheduler i) tr s :=
  h.mono fun _ _ _ hok => by
    simp only [KeepsClear, Bool.and_eq_true] at hok
    exact hok.1.1

theorem clear (h : (pool T n).Run (fun _ s i => KeepsClear s i) tr s) : Clear s := by
  refine pool_invariant (J := fun _ s => Clear s) ?_ ?_ h
  · intro c id w left rest hs
    cases hs
  · intro tr s t i mv hrun ih hok hm
    simp only [KeepsClear, Bool.and_eq_true] at hok
    exact ih.step hrun hm hok.1.2 hok.2

/-- A thread that scans a queue owns `mappingLock_`. -/
theorem topScan_owner (h : (pool T n).Run (fun _ _ i => UsesScheduler i) tr s)
    (hscan : topScan (s.stack t) = some w) : s.mem.mappingLock.owner = some t := by
  rcases cancelShape h t with hclean | ⟨id, k, hun⟩
  · cases hs : s.stack t with
    | nil => simp [hs, topScan] at hscan
    | cons f rest =>
      have hf := hclean f (by simp [hs])
      cases f <;> simp_all [topScan, Frame.cancelling]
  · exact hun.owner h

theorem Frame.wants_executing {f : Frame T n} (h : f.wants = some (.executing w)) :
    ∃ id it left, f = .cancelScan id w (it :: left) ∧ it.id = id := by
  unfold Frame.wants at h
  split at h
  case h_9 id v it left =>
    simp only [Option.ite_none_right_eq_some, Option.some.injEq, Lock.executing.injEq] at h
    obtain ⟨hid, rfl⟩ := h
    exact ⟨id, it, left, rfl, hid⟩
  all_goals simp at h

theorem Frame.wants_queue {f : Frame T n} (h : f.wants = some (.queue w)) :
    f.seeks w = true ∨ f.cancelling = true ∨ f.stopping = true := by
  unfold Frame.wants at h
  split at h
  all_goals simp_all [Frame.seeks, Frame.cancelling, Frame.stopping]

theorem Frame.wants_mapping {f : Frame T n} (h : f.wants = some .mapping) :
    f.seeks w = true := by
  unfold Frame.wants at h
  split at h
  all_goals simp_all [Frame.seeks]

/-- Whoever blocks a thread owns `mappingLock_`, or is a worker whose job a cancel waits for. -/
theorem Sys.BlockedBy.cases (hrun : (pool T n).Run (fun _ _ i => UsesScheduler i) tr s)
    (h : s.BlockedBy t u) :
    (s.mem.mappingLock.owner = some u ∧ (s.wants t = some .mapping ∧ u ≠ t ∨
      ∃ w, s.wants t = some (.queue w) ∧ topScan (s.stack u) = some w)) ∨
    ∃ id w it left rest, s.stack t = .cancelScan id w (it :: left) :: rest ∧ it.id = id ∧
      u = .worker w ∧ s.runsJob w = true := by
  obtain ⟨l, hw, hl, hne⟩ := h
  cases l with
  | mapping => exact .inl ⟨hl, .inl ⟨hw, hne rfl⟩⟩
  | queue w =>
    have hscan : topScan (s.stack u) = some w := (queue_owner hrun w u).mp hl
    exact .inl ⟨topScan_owner hrun hscan, .inr ⟨w, hw, hscan⟩⟩
  | executing w =>
    obtain ⟨rfl, hexec⟩ := executing_owner hrun w u hl
    have hruns : s.runsJob w = true := Option.isSome_iff_exists.mpr ⟨_, hl⟩
    unfold Sys.wants at hw
    cases hs : s.stack t with
    | nil =>
      cases t with
      | client k => simp [hs] at hw
      | worker v =>
        simp only [hs] at hw
        cases hp : s.pc v <;> simp_all [WorkerPc.wants, WorkerPc.executes]
    | cons f rest =>
      simp only [hs] at hw
      obtain ⟨id, it, left, rfl, hid⟩ := Frame.wants_executing hw
      exact .inr ⟨id, w, it, left, rest, rfl, hid, rfl, hruns⟩

theorem Sys.wants_top {f : Frame T n} {rest : List (Frame T n)} (hs : s.stack t = f :: rest) :
    s.wants t = f.wants := by
  simp [Sys.wants, hs]

/-- The job a worker runs waits for a lock in a function it has called. -/
theorem Sys.wants_running (hrun : (pool T n).Run ok tr s) (hruns : s.runsJob w = true)
    {l : Lock n} (hw : s.wants (.worker w) = some l) :
    ∃ f rest, s.stack (.worker w) = f :: rest ∧ f.wants = some l := by
  obtain ⟨u, hu⟩ := Option.isSome_iff_exists.mp hruns
  obtain ⟨-, hexec⟩ := executing_owner hrun w u hu
  cases hs : s.stack (.worker w) with
  | nil =>
    simp only [Sys.wants, hs] at hw
    cases hp : s.pc w <;> simp_all [WorkerPc.wants, WorkerPc.executes]
  | cons f rest => exact ⟨f, rest, rfl, Sys.wants_top hs ▸ hw⟩

/-- A thread that scans a queue waits for no queue. -/
theorem topScan_wants {v : Fin n} (hscan : topScan (s.stack t) = some v) :
    s.wants t ≠ some (.queue w) := by
  intro hw
  cases hs : s.stack t with
  | nil => simp [hs, topScan] at hscan
  | cons f rest =>
    rw [hs] at hscan
    cases f <;> simp only [topScan, reduceCtorEq] at hscan
    rw [Sys.wants_top hs] at hw
    unfold Frame.wants at hw
    split at hw <;> simp_all

/-- The job a cancel is to wait for waits for nobody. -/
theorem Clear.unblocked (h : Clear s) (hrun : (pool T n).Run (fun _ _ i => UsesScheduler i) tr s)
    {id : String} {it : JobContext T} {left : List (JobContext T)} {rest : List (Frame T n)}
    (hs : s.stack c = .cancelScan id w (it :: left) :: rest) (hid : it.id = id)
    (hruns : s.runsJob w = true) : ¬s.BlockedBy (.worker w) u := by
  intro hblocked
  obtain ⟨hne, hclear⟩ := h hs ⟨it, List.mem_cons_self, hid⟩ hruns
  have hscan : topScan (s.stack c) = some w := by rw [hs]; rfl
  have howner : s.mem.mappingLock.owner = some c := topScan_owner hrun hscan
  have hother : s.mem.mappingLock.owner ≠ some (.worker w) := by
    rw [howner]
    exact fun heq => hne (Option.some.inj heq)
  rcases hblocked.cases hrun with ⟨ho, hcase⟩ | ⟨id', x, it', left', rest', hs', -⟩
  · obtain rfl : u = c := Option.some.inj (ho.symm.trans howner)
    rcases hcase with ⟨hw, -⟩ | ⟨x, hw, hscan'⟩
    · obtain ⟨f, rest', hs', hf⟩ := Sys.wants_running hrun hruns hw
      have hseeks : f.seeks w = true := Frame.wants_mapping hf
      simp [hclear f rest' hs'] at hseeks
    · obtain rfl : x = w := Option.some.inj (hscan'.symm.trans hscan)
      obtain ⟨f, rest', hs', hf⟩ := Sys.wants_running hrun hruns hw
      have hmem : f ∈ s.stack (.worker x) := by simp [hs']
      rcases Frame.wants_queue hf with hseeks | hcancel | hstop
      · simp [hclear f rest' hs'] at hseeks
      · -- who cancels owns `mappingLock_`, and that is `c`
        apply hother
        rcases cancelShape hrun (.worker x) with hclean | ⟨id', k, hun⟩
        · simp [hclean f hmem] at hcancel
        · exact hun.owner hrun
      · simp [no_stop hrun (.worker x) f hmem] at hstop
  · have hscan' : topScan (s.stack (.worker w)) = some x := by rw [hs']; rfl
    exact hother (topScan_owner hrun hscan')

/-- No set of threads is deadlocked, if no cancel locks a queue while the running job it is to wait
for waits for its locks, and no running job asks for a lock of a cancel that is to wait for it. -/
theorem no_deadlock (h : (pool T n).Run (fun _ s i => KeepsClear s i) tr s) (S : Set (Tid n)) :
    ¬s.Deadlocked S := by
  intro hdead
  obtain ⟨⟨t, ht⟩, hall⟩ := hdead
  have hrun := KeepsClear.usesScheduler h
  -- one of them owns `mappingLock_`
  obtain ⟨m, hm, howner⟩ : ∃ m ∈ S, s.mem.mappingLock.owner = some m := by
    obtain ⟨u, hu, hblocked⟩ := hall t ht
    rcases hblocked.cases hrun with ⟨ho, -⟩ | ⟨id, w, it, left, rest, hs, -⟩
    · exact ⟨u, hu, ho⟩
    · have hscan : topScan (s.stack t) = some w := by rw [hs]; rfl
      exact ⟨t, ht, topScan_owner hrun hscan⟩
  -- the owner can only wait for a running job, and that job for nobody
  obtain ⟨u, hu, hblocked⟩ := hall m hm
  rcases hblocked.cases hrun with ⟨ho, hcase⟩ | ⟨id, w, it, left, rest, hs, hid, rfl, hruns⟩
  · obtain rfl : u = m := Option.some.inj (ho.symm.trans howner)
    rcases hcase with ⟨-, hne⟩ | ⟨w, hw, hscan⟩
    · exact hne rfl
    · exact topScan_wants hscan hw
  · obtain ⟨v, hv, hblocked'⟩ := hall (.worker w) hu
    exact Clear.unblocked (clear h) hrun hs hid hruns hblocked'

/-- Two jobs of "a" are queued, the worker runs the first one, and a client that unregisters "a"
comes to the second one. -/
def cancelWaits : List (Tid 1 × Choice .unit 1) :=
  let c := Tid.client 0
  let call := c.calls (.interfaceCall "a" ⟨true, false, none, ""⟩ ⟨(), ()⟩) 6
  c.calls (.registerInterfaceFor "a" () (some 0)) 3 ++ call ++ call ++
    (Tid.worker worker₀).steps 5 ++ c.calls (.unRegiterInterface "a") 3

def cancelWaitsRun : History .unit 1 × Sys .unit 1 :=
  (pool .unit 1).drive (fun _ s i => KeepsClear s i) cancelWaits

theorem no_deadlock_cancelWaitsRun :
    cancelWaitsRun.2.wants (.client 0) = some (.executing 0) ∧
      ¬cancelWaitsRun.2.Deadlocked {.client 0, .worker 0} := by
  have h : (pool .unit 1).Run (fun _ s i => KeepsClear s i) cancelWaitsRun.1 cancelWaitsRun.2 :=
    run_drive (fun _ _ _ hok => hok) _
  exact ⟨rfl, no_deadlock h _⟩

/-- The running job of "a" asks whether some service is registered. -/
def deadlockRun : History .unit 1 × Sys .unit 1 :=
  (pool .unit 1).drive (fun _ _ i => UsesScheduler i)
    (cancelWaits ++ (Tid.worker worker₀).calls (.isServiceRegistered "b") 0)

/-- The client owns `mappingLock_` and waits for `executingLock_`; its owner waits for
`mappingLock_`. -/
theorem unregister_deadlocks :
    ¬∀ (tr : History .unit 1) (s : Sys .unit 1),
      (pool .unit 1).Run (fun _ _ i => UsesScheduler i) tr s → ∀ S, ¬s.Deadlocked S := by
  intro hclaim
  have h : (pool .unit 1).Run (fun _ _ i => UsesScheduler i) deadlockRun.1 deadlockRun.2 :=
    run_drive (fun _ _ _ hok => hok) _
  have hclient : deadlockRun.2.BlockedBy (.client 0) (.worker 0) :=
    ⟨.executing 0, rfl, rfl, fun heq => by cases heq⟩
  have hworker : deadlockRun.2.BlockedBy (.worker 0) (.client 0) :=
    ⟨.mapping, rfl, rfl, fun _ => by simp⟩
  refine hclaim _ _ h {.client 0, .worker 0} ⟨⟨.client 0, by simp⟩, ?_⟩
  intro t ht
  rcases ht with rfl | rfl
  · exact ⟨.worker 0, by simp, hclient⟩
  · exact ⟨.client 0, by simp, hworker⟩

end ServiceLib
