import ServiceLib.Pool.Ready
import ServiceLib.Pool.Rest
import ServiceLib.Pool.Wakeup
import ServiceLib.Scheduler.Deadlock

namespace ServiceLib

open Machine

variable {T : ArgTypes} {n : Nat} {ok : History T n → Sys T n → Tid n × Choice T n → Prop}
  {tr : History T n} {s : Sys T n} {t u : Tid n} {i : Choice T n} {mv : Move T n} {w : Fin n}
  {f : Frame T n} {rest : List (Frame T n)} {j : JobContext T} {k : Nat}

/-- The memory but for who sleeps on which condition. -/
def Mem.still (m : Mem T n) : Mem T n :=
  { m with
    workers := fun w => { m.workers w with queueCond := .empty }
    syncCalls := fun k => { m.syncCalls k with cond := .empty } }

/-- All a step of a thread depends on. -/
def Sys.seenBy (s : Sys T n) (t : Tid n) : Sys T n :=
  ⟨s.mem.still, s.pc, fun _ => s.stack t, s.result⟩

theorem Sys.next_seenBy (s : Sys T n) (t : Tid n) : s.next t = (s.seenBy t).next t := rfl

theorem Sys.idles_seenBy (s : Sys T n) (t : Tid n) : s.idles t = (s.seenBy t).idles t := rfl

theorem Sys.idles_cases (h : s.idles t = true) :
    (∃ k rest, s.stack t = .syncWait k :: rest ∧ (s.mem.syncCalls k).finished = false) ∨
    (∃ k rest, s.stack t = .syncAsleep k :: rest ∧ (s.mem.syncCalls k).finished = false) ∨
    (∃ w rest, s.stack t = .stopPoll w :: rest ∧ (s.worker w).calls ≠ []) ∨
    ∃ w, t = .worker w ∧ s.stack t = [] ∧ s.pc w = .asleep ∧ (s.worker w).calls = [] ∧
      (s.worker w).active = true := by
  unfold idles at h
  split at h
  · rename_i k rest hs
    exact .inl ⟨k, rest, hs, by simpa using h⟩
  · rename_i k rest hs
    exact .inr (.inl ⟨k, rest, hs, by simpa using h⟩)
  · rename_i w rest hs
    exact .inr (.inr (.inl ⟨w, rest, hs, by simpa using h⟩))
  · rename_i w hs
    split at h
    · rename_i hp
      refine .inr (.inr (.inr ⟨w, rfl, hs, hp, by simpa using h⟩))
    · cases h
  · cases h

theorem Mem.still_onSyncCall (m : Mem T n) (k : Nat) (c : Cond) :
    (m.onSyncCall k fun x => { x with cond := c }).still = m.still := by
  simp only [still, onSyncCall]
  congr 1
  funext l
  by_cases hl : l = k
  · subst hl
    rw [Function.update_self]
  · rw [Function.update_of_ne hl]

theorem Mem.still_onWorker (m : Mem T n) (w : Fin n) (c : Cond) :
    (m.onWorker w fun a => { a with queueCond := c }).still = m.still := by
  simp only [still, onWorker]
  congr 1
  funext v
  by_cases hv : v = w
  · subst hv
    rw [Function.update_self]
  · rw [Function.update_of_ne hv]

/-- A thread that waits changes nothing for the others. -/
theorem Moves.idle_step (hm : Moves s t i mv) (h : s.idles t = true) :
    (s.apply t mv).mem.still = s.mem.still ∧ (s.apply t mv).pc = s.pc ∧
      (s.apply t mv).result = s.result := by
  rcases Sys.idles_cases h with ⟨k, rest, hs, hf⟩ | ⟨k, rest, hs, hf⟩ | ⟨w, rest, hs, hc⟩ |
    ⟨w, rfl, hs, hp, hc, ha⟩
  · obtain rfl := hm.eq_of_frame hs (by simp) (congrArg some (if_neg (by simp [hf])))
    exact ⟨s.mem.still_onSyncCall k .asleep, Sys.setPc_none s t, rfl⟩
  · obtain rfl := hm.eq_of_frame hs (by simp) rfl
    exact ⟨s.mem.still_onSyncCall k .empty, Sys.setPc_none s t, rfl⟩
  · have hnext := Sys.next_frame hm.next_eq hs (by simp)
    simp only [Sys.frameNext, Sys.stopPollNext, List.isEmpty_iff, hc, if_false] at hnext
    split at hnext
    · obtain rfl := Option.some.inj hnext
      exact ⟨rfl, Sys.setPc_none s t, rfl⟩
    · cases hnext
  · have hnext := hm.next_eq
    cases i with
    | run =>
      simp only [Sys.next, hs, Sys.runNext, hp, hc, ha, if_true] at hnext
      split at hnext
      · obtain rfl := Option.some.inj hnext
        refine ⟨s.mem.still_onWorker w .asleep, ?_, rfl⟩
        rw [Sys.apply_pc, Sys.setPc_worker, ← hp, Function.update_eq_self]
      · cases hnext
    | call op | ret b => simp [Sys.next, hs] at hnext

theorem Moves.idle_other (hm : Moves s t i mv) (h : s.idles t = true) (hu : u ≠ t) :
    (s.apply t mv).seenBy u = s.seenBy u := by
  obtain ⟨hmem, hpc, hresult⟩ := hm.idle_step h
  simp only [Sys.seenBy, hmem, hpc, hresult, Sys.apply_stack_other mv hu]

/-- The thread can do more than wait. -/
def Sys.Busy (s : Sys T n) (t : Tid n) : Prop := s.Ready t ∧ s.idles t = false

theorem Moves.busy_kept (hrun : (pool T n).Run ok tr s) (hm : Moves s t i mv)
    (h : s.idles t = true) (hu : s.Busy u) : (s.apply t mv).Busy u := by
  have hne : u ≠ t := by
    rintro rfl
    exact absurd (h.symm.trans hu.2) (by simp)
  have hsame := hm.idle_other h hne
  obtain ⟨⟨hstep, hawake⟩, hidle⟩ := hu
  refine ⟨⟨?_, fun hsleep => hawake (hm.sleeps_other hrun hne hsleep)⟩, ?_⟩
  · rwa [Sys.next_seenBy, hsame, ← Sys.next_seenBy]
  · rwa [Sys.idles_seenBy, hsame, ← Sys.idles_seenBy]

/-- In a fair execution without further calls nobody can do more than wait in the end. -/
theorem Quiet.settles {x : (pool T n).Execution} (hquiet : Quiet x)
    (h : (pool T n).Run AnyStep tr (x.state 0)) (hfair : x.Fair Prod.fst Sys.Ready) :
    ∃ N, ∀ k, N ≤ k → ∀ t, ¬(x.state k).Busy t := by
  obtain ⟨N, hN⟩ := x.comes_to_rest (fun s i => s.idles i.1 = true) (Sys.rank (involved tr))
    (hquiet.rank h)
  refine ⟨N, fun k hk t => ?_⟩
  refine hfair.settles Sys.Busy (fun s t hb => hb.1) ?_ ?_ hk t
  · intro k hk i e he hb
    exact absurd ((hN k hk i e he).symm.trans hb.2) (by simp)
  · intro k hk i e he u hb
    obtain ⟨mv, hm, -, hs⟩ := hquiet.moves he
    rw [hs]
    exact hm.busy_kept (x.run h k) (hN k hk i e he) hb

/-- The loop over the loads stays within the workers. -/
def Frame.inRange : Frame T n → Bool
  | .scan _ _ it (some _) => it < n
  | _ => true

theorem Moves.frames_inRange (hm : Moves s t i mv) : ∀ f ∈ mv.frames, f.inRange = true := by
  cases hm
  case scanRead hi => exact List.forall_mem_singleton.mpr (decide_eq_true hi)
  case call op _ _ _ => exact List.forall_mem_singleton.mpr (by cases op <;> rfl)
  case callBack op _ _ => exact List.all_eq_true.mp (by cases op <;> rfl)
  case scanPlace | bindStrand =>
    exact List.forall_mem_singleton.mpr (by unfold Sys.place; split <;> rfl)
  all_goals exact List.all_eq_true.mp rfl

theorem in_range (h : (pool T n).Run ok tr s) : ∀ t, ∀ f ∈ s.stack t, f.inRange = true := by
  refine pool_invariant (J := fun _ s => ∀ t, ∀ f ∈ s.stack t, f.inRange = true) ?_ ?_ h
  · exact fun t f hf => absurd hf List.not_mem_nil
  · intro tr s t i mv _ ih _ hm u f hf
    rcases Sys.mem_apply_stack hf with ⟨-, hnew⟩ | hold
    · exact hm.frames_inRange f hnew
    · exact ih u f hold

/-- The process ends on the worker's thread: `assert(action)` fails, or an action has thrown. -/
def Sys.Aborts (s : Sys T n) (w : Fin n) : Prop :=
  s.stack (.worker w) = [] ∧ ((∃ j, s.pc w = .action j ∧ j.action = none) ∨
    ∃ j e, s.pc w = .inAction j ∧ s.result (.worker w) = .threw e)

/-- The worker has left its loop, or sleeps and has no job. -/
def Sys.OutOfWork (s : Sys T n) (w : Fin n) : Prop :=
  s.pc w = .exited ∨ s.pc w = .asleep ∧ (s.worker w).calls = []

/-- The thread is outside all functions, and a worker's is out of work. -/
def Sys.Done (s : Sys T n) (t : Tid n) : Prop :=
  s.stack t = [] ∧ ∀ w, t = .worker w → s.OutOfWork w

/-- Why a thread that is not done does not go on. It waits for the flag of its `doSyncJob`, for a
queue to become empty, for the thread of a worker or for a lock; or its process ends, or a callback
has changed the list of watchers it loops over. -/
inductive Sys.HeldUp (s : Sys T n) (t : Tid n) : Prop
  | awaits {k : Nat} {f : Frame T n} {rest : List (Frame T n)} (hs : s.stack t = f :: rest)
      (hf : f.waits = some k) (hunset : (s.mem.syncCalls k).finished = false)
  | polls {w : Fin n} {rest : List (Frame T n)} (hs : s.stack t = .stopPoll w :: rest)
      (hc : (s.worker w).calls ≠ [])
  | joins {w : Fin n} {rest : List (Frame T n)} (hs : s.stack t = .stopJoin w :: rest)
      (hp : s.pc w ≠ .exited)
  | locked {u : Tid n} (hb : s.BlockedBy t u)
  | aborts {w : Fin n} (ht : t = .worker w) (ha : s.Aborts w)
  | disturbed {id : String} {i len : Nat} {rest : List (Frame T n)}
      (hs : s.stack t = .notifyLoop id i len :: rest)
      (hlen : (s.mem.registry.watchers id).length ≠ len)

theorem Sys.locked_mapping (hw : s.wants t = some .mapping)
    (hl : s.mem.mappingLock.canLock t = false) : s.HeldUp t := by
  have hno : ¬∀ u, u ≠ t → s.mem.mappingLock.depth u = 0 := fun h => by
    rw [(RecursiveMutex.canLock_iff _ _).mpr h] at hl
    cases hl
  push Not at hno
  obtain ⟨u, hu, hdepth⟩ := hno
  exact .locked ⟨.mapping, hw, (RecursiveMutex.owner_eq_some _ _).mpr (by omega), fun _ => hu⟩

theorem Sys.locked_queue (hw : s.wants t = some (.queue w))
    (hl : (s.worker w).queueLock ≠ none) : s.HeldUp t := by
  obtain ⟨u, hu⟩ := Option.ne_none_iff_exists'.mp hl
  exact .locked ⟨.queue w, hw, hu, fun h => by cases h⟩

/-- Where a thread inside a function can do no more than wait, something holds it up. -/
theorem heldUp_inside (hrun : (pool T n).Run ok tr s) (hn : 0 < n) (hsettled : ¬s.Busy t)
    (hs : s.stack t = f :: rest) : s.HeldUp t := by
  by_cases hsleep : s.Sleeps t
  · cases hsleep with
    | call hs' hc => exact .awaits hs' rfl (syncAsleep_rightly hrun hs' hc)
    | queue _ hs' _ _ => cases hs.symm.trans hs'
  have hstuck (hidle : s.idles t = false) {i : Choice T n} (hi : ∀ op, i ≠ .call op) :
      s.next t i = none := by
    by_contra hne
    exact hsettled ⟨⟨⟨i, hi, hne⟩, hsleep⟩, hidle⟩
  have hnone (hidle : s.idles t = false) : s.frameNext t f = none := by
    have hrun := hstuck hidle (i := .run) (fun op => by simp)
    cases t <;> simpa only [Sys.next, hs] using hrun
  have hwants : s.wants t = f.wants := Sys.wants_top hs
  have hrange := in_range hrun t f (hs ▸ List.mem_cons_self)
  cases f
  case user =>
    have hret := hstuck (by simp [Sys.idles, hs]) (i := .ret true) (fun op => by simp)
    simp [Sys.next, hs] at hret
  case syncWait k =>
    refine .awaits hs rfl ?_
    by_contra hf
    cases hnone (by simp [Sys.idles, hs, hf])
  case syncAsleep k =>
    refine .awaits hs rfl ?_
    by_contra hf
    cases hnone (by simp [Sys.idles, hs, hf])
  case stopPoll w =>
    by_cases hc : (s.worker w).calls = []
    · refine Sys.locked_queue hwants fun hq => ?_
      have hstop := hnone (by simp [Sys.idles, hs, hc])
      simp [Sys.frameNext, Sys.stopPollNext, hq, hc] at hstop
    · exact .polls hs hc
  case stopJoin w =>
    refine .joins hs fun hp => ?_
    have hstop := hnone (by simp [Sys.idles, hs])
    simp [Sys.frameNext, Sys.stopJoinNext, hp] at hstop
  case notifyLoop id i len =>
    refine .disturbed hs fun hlen => ?_
    have hstop := hnone (by simp [Sys.idles, hs])
    simp only [Sys.frameNext, Sys.notifyLoopNext, hlen, if_true] at hstop
    split at hstop <;> cases hstop
  all_goals have hstop := hnone (by simp [Sys.idles, hs])
  case checkAndInvoke id prop args =>
    refine Sys.locked_mapping hwants (eq_false_of_ne_true fun hl => ?_)
    simp only [Sys.frameNext, Sys.checkAndInvokeNext, hl, if_true] at hstop
    split at hstop
    · cases hstop
    · split at hstop <;> cases hstop
  case register id action typeId =>
    cases action with
    | none => cases hstop
    | some a =>
      refine Sys.locked_mapping hwants (eq_false_of_ne_true fun hl => ?_)
      simp only [Sys.frameNext, Sys.registerNext, hl, if_true] at hstop
      split at hstop <;> cases hstop
  case unregister id =>
    refine Sys.locked_mapping hwants (eq_false_of_ne_true fun hl => ?_)
    simp only [Sys.frameNext, Sys.unregisterNext, hl, if_true] at hstop
    split at hstop <;> cases hstop
  case isRegistered id =>
    refine Sys.locked_mapping hwants (eq_false_of_ne_true fun hl => ?_)
    simp [Sys.frameNext, Sys.isRegisteredNext, hl] at hstop
  case subscribe id cb =>
    refine Sys.locked_mapping hwants (eq_false_of_ne_true fun hl => ?_)
    simp only [Sys.frameNext, Sys.subscribeNext, hl, if_true] at hstop
    split at hstop <;> cases hstop
  case schedule req => simp [Sys.frameNext, Sys.scheduleNext, hn] at hstop
  case scan req res it load =>
    cases load with
    | none =>
      simp only [Sys.frameNext, Sys.scanNext] at hstop
      split at hstop
      · cases hstop
      · split at hstop <;> cases hstop
    | some a => simp [Sys.frameNext, Sys.scanNext, of_decide_eq_true hrange] at hstop
  case push w name call onDone strand =>
    refine Sys.locked_queue hwants fun hq => ?_
    simp [Sys.frameNext, Sys.pushNext, hq] at hstop
  case cancelLock id w =>
    refine Sys.locked_queue hwants fun hq => ?_
    simp [Sys.frameNext, Sys.cancelLockNext, hq] at hstop
  case cancelScan id w left =>
    cases left with
    | nil => cases hstop
    | cons it left =>
      simp only [Sys.frameNext, Sys.cancelScanNext] at hstop
      split at hstop
      · rename_i hwait
        obtain ⟨hid, hbusy⟩ := hwait
        have hguard := guarded hrun w
        have hexec : (s.pc w).executes = true := by
          by_contra hno
          simp [hguard.lock, hguard.flag, hno] at hbusy
        refine .locked (u := .worker w) ⟨.executing w, ?_, ?_, fun h => by cases h⟩
        · rw [hwants]
          exact if_pos hid
        · exact hguard.lock.trans (if_pos hexec)
      · cases hstop
  all_goals cases hstop

/-- Where a worker outside all functions can do no more than wait, it is out of work, or something
holds it up, if nobody is about to notify it. -/
theorem heldUp_loop (hrun : (pool T n).Run ok tr s) (hsettled : ¬s.Busy (.worker w))
    (hnotified : ∀ t rest, s.stack t ≠ .notify w :: rest) (hs : s.stack (.worker w) = []) :
    s.OutOfWork w ∨ s.HeldUp (.worker w) := by
  by_cases hsleep : s.Sleeps (.worker w)
  · cases hsleep with
    | call hs' _ => cases hs.symm.trans hs'
    | queue ht _ hp hc =>
      obtain rfl := Tid.worker.inj ht
      rcases asleep_rightly hrun hp hc with ⟨hempty, -⟩ | ⟨u, rest, hu⟩
      · exact .inl (.inr ⟨hp, hempty⟩)
      · exact absurd hu (hnotified u rest)
  cases hidle : s.idles (.worker w) with
  | true =>
    rcases Sys.idles_cases hidle with ⟨k, rest, hs', -⟩ | ⟨k, rest, hs', -⟩ | ⟨v, rest, hs', -⟩ |
      ⟨v, hv, -, hp, hc, -⟩
    · cases hs.symm.trans hs'
    · cases hs.symm.trans hs'
    · cases hs.symm.trans hs'
    · obtain rfl := Tid.worker.inj hv
      exact .inl (.inr ⟨hp, hc⟩)
  | false =>
    have hnone : s.next (.worker w) .run = none := by
      by_contra hne
      exact hsettled ⟨⟨⟨.run, fun op => by simp, hne⟩, hsleep⟩, hidle⟩
    have hwants : s.wants (.worker w) = (s.pc w).wants w := by simp [Sys.wants, hs]
    have hlock := (guarded hrun w).lock
    simp only [Sys.next, hs, Sys.runNext] at hnone
    cases hp : s.pc w with
    | test =>
      simp only [hp] at hnone
      split at hnone <;> cases hnone
    | lock | asleep =>
      refine .inr (Sys.locked_queue (by rw [hwants, hp]; rfl) fun hq => ?_)
      simp only [hp, hq, if_true] at hnone
      split at hnone
      · cases hnone
      · split at hnone <;> cases hnone
    | relock =>
      refine .inr (Sys.locked_queue (by rw [hwants, hp]; rfl) fun hq => ?_)
      simp only [hp, hq, if_true] at hnone
      split at hnone <;> cases hnone
    | acquire j =>
      rw [hp] at hlock
      simp [hp, hlock, WorkerPc.executes] at hnone
    | action j => exact .inr (.aborts rfl ⟨hs, .inl ⟨j, hp, by simpa [hp] using hnone⟩⟩)
    | inAction j =>
      simp only [hp] at hnone
      split at hnone
      · cases hnone
      · rename_i e he
        exact .inr (.aborts rfl ⟨hs, .inr ⟨j, e, hp, he⟩⟩)
    | onDone j =>
      simp only [hp] at hnone
      split at hnone <;> cases hnone
    | inOnDone j | finish j => simp [hp] at hnone
    | exited => exact .inl (.inl hp)

/-- Who is about to notify a worker can do more than wait. -/
theorem Sys.busy_of_notify (hs : s.stack t = .notify w :: rest) : s.Busy t :=
  ⟨Sys.ready_of_notify hs, by simp [Sys.idles, hs]⟩

/-- Where nobody can do more than wait, each thread is done, or something holds it up. -/
theorem done_or_heldUp (hrun : (pool T n).Run ok tr s) (hn : 0 < n) (hsettled : ∀ t, ¬s.Busy t)
    (t : Tid n) : s.Done t ∨ s.HeldUp t := by
  cases hs : s.stack t with
  | cons f rest => exact .inr (heldUp_inside hrun hn (hsettled t) hs)
  | nil =>
    cases t with
    | client c => exact .inl ⟨hs, fun w h => by cases h⟩
    | worker w =>
      refine (heldUp_loop hrun (hsettled _) (fun u rest hu => ?_) hs).imp
        (fun hout => ⟨hs, fun v hv => ?_⟩) id
      · exact hsettled u (Sys.busy_of_notify hu)
      · exact Tid.worker.inj hv ▸ hout

/-- A client waits for a job that has been cancelled, and another is about to hand one over. -/
def forgottenRun : History .unit 1 × Sys .unit 1 :=
  (pool .unit 1).drive (fun _ _ _ => true)
    (blockOn "a" ++ (Tid.client 1).calls (.cancelJobsFor "a") 5 ++
      (Tid.client 2).calls (.doJob worker₀ "b" (some 1) none) 0)

/-- The other client hands its job over, and the worker executes it. -/
def forgottenScript : List (Tid 1 × Choice .unit 1) :=
  (Tid.client 2).steps 3 ++ (Tid.worker worker₀).steps 5 ++ (Tid.worker worker₀).returns 6

/-- The worker is notified and executes the job; nobody takes a step after that. -/
def forgottenExecution : (pool .unit 1).Execution :=
  .scripted forgottenRun.2 forgottenScript none fun _ _ he => by cases he

theorem forgotten_run : (pool .unit 1).Run AnyStep forgottenRun.1 (forgottenExecution.state 0) :=
  run_drive (fun _ _ _ _ => trivial) _

theorem forgotten_quiet : Quiet forgottenExecution := .scripted rfl rfl

theorem forgotten_end (k : ℕ) (hk : forgottenScript.length ≤ k) :
    forgottenExecution.state k = (pool .unit 1).after forgottenRun.2 forgottenScript :=
  (Execution.scripted_end hk).1

theorem forgotten_threads (t : Tid 1) (h : t ∈ forgottenRun.1.map Prod.fst) :
    t = .client 0 ∨ t = .client 1 ∨ t = .client 2 := by
  have hall : (forgottenRun.1.map Prod.fst).all
      (fun u => u = .client 0 ∨ u = .client 1 ∨ u = .client 2) = true := rfl
  exact of_decide_eq_true (List.all_eq_true.mp hall t h)

theorem forgotten_stack (t : Tid 1) (ht : t ≠ .client 0) :
    ((pool .unit 1).after forgottenRun.2 forgottenScript).stack t = [] := by
  by_cases hin : t ∈ involved forgottenRun.1
  · simp only [involved, Finset.mem_union, List.mem_toFinset, Finset.mem_image] at hin
    rcases hin with hin | ⟨w, -, rfl⟩
    · rcases (forgotten_threads t hin).resolve_left ht with rfl | rfl <;> rfl
    · obtain rfl : w = 0 := Subsingleton.elim w 0
      rfl
  · rw [← forgotten_end 15 (Nat.le_refl 15)]
    exact forgotten_quiet.outside forgotten_run 15 t hin

/-- In the end the client and the worker sleep, and nobody will notify them. -/
theorem forgotten_fair : forgottenExecution.Fair Prod.fst Sys.Ready := by
  refine Execution.scripted_fair fun t ⟨⟨i, hi, hne⟩, hawake⟩ => ?_
  rcases t with (_ | c) | w
  · have hs : ((pool .unit 1).after forgottenRun.2 forgottenScript).stack (.client 0) =
        [.syncAsleep 0] := rfl
    exact absurd (.call hs (by decide)) hawake
  · have hs := forgotten_stack (.client (c + 1)) (by simp)
    cases i with
    | call op => exact absurd rfl (hi op)
    | ret b | run => simp [Sys.next, hs] at hne
  · obtain rfl : w = 0 := Subsingleton.elim w 0
    exact absurd (.queue rfl rfl rfl (by decide)) hawake

end ServiceLib
