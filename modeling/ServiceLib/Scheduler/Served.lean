import ServiceLib.Scheduler.Service

namespace ServiceLib

open Machine

variable {T : ArgTypes} {n : Nat} {σ : Type*} {c : ServiceCall T n σ} {s s₀ : Sys T n}
  {t u : Tid n} {i : Choice T n} {mv : Move T n} {tr m : History T n} {rest : List (Frame T n)}
  {w : Fin n} {j : JobContext T} {k : Nat}
  {ok : History T n → Sys T n → Tid n × Choice T n → Prop}

/-- The worker is between the begin of the action of the job and the end of its `onDone`. -/
def WorkerPc.within (j : JobContext T) : WorkerPc T → Prop
  | .inAction j' | .onDone j' | .inOnDone j' => j' = j
  | _ => False

theorem WorkerPc.within_current {pc : WorkerPc T} (h : pc.within j) : j ∈ pc.current := by
  cases pc <;> simp_all [within, current]

/-- A worker comes to a job by the begin of its action. -/
theorem Moves.within_step (hm : Moves s t i mv) (hno : ¬(s.pc w).within j)
    (h : ((s.apply t mv).pc w).within j) :
    t = .worker w ∧ s.stack t = [] ∧ mv.action = .actionBegan w j ∧
      (s.apply t mv).pc w = .inAction j ∧ ∃ f, j.action = some f ∧ mv.frames = [.invoke f] := by
  rw [Sys.apply_pc] at h ⊢
  rcases s.at_loop t w with hw | ⟨rfl, hs⟩
  · rw [(hm.pc_frame w hw).1] at h
    exact absurd h hno
  · cases hm
    case beginAction v j' f ht _ hp hc =>
      obtain rfl := Tid.worker.inj ht
      have hj : j' = j := by simpa [WorkerPc.within] using h
      subst hj
      exact ⟨rfl, hs, rfl, by simp, f, hc, rfl⟩
    all_goals simp_all [WorkerPc.within]

theorem Moves.loop_next (hm : Moves s (.worker w) i mv) (hs : s.stack (.worker w) = []) :
    s.runNext w = some mv := by
  have hnext := hm.next_eq
  cases i with
  | run => simpa [Sys.next, hs] using hnext
  | call | ret => simp [Sys.next, hs] at hnext

namespace ServiceCall

/-- The job is the one a blocking call of the service makes. -/
structure IsJob (c : ServiceCall T n σ) (j : JobContext T) (k : Nat) : Prop where
  action : ∃ call, j.action = some (.bound call (some c.action) c.args)
  onDone : j.onDone = some (.syncDone (c.onDone.map .client) k)

/-- How far the worker has come with the job of a blocking call: the effects so far, whether it is
in a function of the service, where its thread stands and the last outcome. -/
inductive JobPoint (c : ServiceCall T n σ) (j : JobContext T) (k : Nat) :
    List (Effect T) → Bool → WorkerPc T → List (Frame T n) → Outcome → Prop
  | called {call r} : JobPoint c j k [] false (.inAction j)
      [.invoke (.bound call (some c.action) c.args)] r
  | acting {r} : JobPoint c j k [.acted c.args] true (.inAction j) [.user] r
  | acted : JobPoint c j k [.acted c.args] false (.inAction j) [] (.ret c.answer)
  | between {r} : JobPoint c j k [.acted c.args] false (.onDone j) [] r
  | closing {r} : JobPoint c j k [.acted c.args] false (.inOnDone j)
      [.invoke (.syncDone (c.onDone.map .client) k)] r
  | doneCalled {f r} (hf : c.onDone = some f) : JobPoint c j k [.acted c.args] false
      (.inOnDone j) [.invoke (.client f), .syncFinish k] r
  | doing {r} : JobPoint c j k c.expected true (.inOnDone j) [.user, .syncFinish k] r
  | finishing {r} : JobPoint c j k c.expected false (.inOnDone j) [.syncFinish k] r

theorem JobPoint.within {es : List (Effect T)} {b : Bool} {p : WorkerPc T}
    {l : List (Frame T n)} {r : Outcome} (h : JobPoint c j k es b p l r) : p.within j := by
  cases h <;> rfl

/-- The point the worker has come to in a state with the history of the call. -/
def PointOf (c : ServiceCall T n σ) (w : Fin n) (j : JobContext T) (k : Nat) (m : History T n)
    (s : Sys T n) : Prop :=
  JobPoint c j k (c.effects m) (c.inBody (.worker w) m) (s.pc w) (s.stack (.worker w))
    (s.result (.worker w))

theorem PointOf.step (h : c.PointOf w j k m s) (hj : c.IsJob j k) (hm : Moves s (.worker w) i mv)
    (hanswer : c.inBody (.worker w) m = true → i = .ret (c.after (c.effects m)).1) :
    mv.action = .finished k ∧ c.effects m = c.expected ∧ s.pc w = .inOnDone j ∧
        s.stack (.worker w) = [.syncFinish k] ∨
      mv.action ≠ .finished k ∧
        c.PointOf w j k (m ++ [(.worker w, mv.action)]) (s.apply (.worker w) mv) := by
  unfold PointOf at h ⊢
  rw [effects_snoc, inBody_snoc_self, Sys.apply_stack_self, Sys.apply_pc, Sys.apply_result_self]
  generalize hs : s.stack (.worker w) = l at h ⊢
  generalize hr : s.result (.worker w) = r at h ⊢
  generalize hp : s.pc w = p at h ⊢
  generalize c.effects m = es at h hanswer ⊢
  generalize c.inBody (.worker w) m = b at h hanswer
  cases h with
  | called =>
    obtain rfl := hm.eq_of_frame hs (by simp) rfl
    refine .inr ⟨by simp [Sys.invokeNext], ?_⟩
    simp only [Sys.invokeNext, effect_bound, Sys.setPc_none, hp]
    exact .acting
  | acting =>
    obtain rfl := hanswer rfl
    obtain rfl := returns hs hm
    refine .inr ⟨by simp, ?_⟩
    rw [Sys.setPc_none, hp]
    exact .acted
  | acted =>
    have hnext := hm.loop_next hs
    simp only [Sys.runNext, hp, hr, Option.some.injEq] at hnext
    obtain rfl := hnext
    rw [Sys.setPc_worker, Function.update_self]
    exact .inr ⟨by simp, .between⟩
  | between =>
    have hnext := hm.loop_next hs
    simp only [Sys.runNext, hp, hj.onDone, Option.some.injEq] at hnext
    obtain rfl := hnext
    rw [Sys.setPc_worker, Function.update_self]
    exact .inr ⟨by simp, .closing⟩
  | closing =>
    have hnext := Sys.next_frame hm.next_eq hs (by simp)
    cases hd : c.onDone with
    | none =>
      rw [hd] at hnext
      obtain rfl := Option.some.inj hnext
      have hpoint : JobPoint c j k c.expected false (.inOnDone j) [.syncFinish k] r := .finishing
      rw [expected_none hd] at hpoint
      refine .inr ⟨by simp [Sys.invokeNext], ?_⟩
      simp only [Option.map_none, Sys.invokeNext, Sys.setPc_none, hp]
      exact hpoint
    | some f =>
      rw [hd] at hnext
      obtain rfl := Option.some.inj hnext
      refine .inr ⟨by simp [Sys.invokeNext], ?_⟩
      simp only [Option.map_some, Sys.invokeNext, Sys.setPc_none, hp]
      exact .doneCalled hd
  | @doneCalled f _ hf =>
    obtain rfl := hm.eq_of_frame hs (by simp) rfl
    refine .inr ⟨by simp [Sys.invokeNext], ?_⟩
    simp only [Sys.invokeNext, effect_onDone hf, Sys.setPc_none, hp]
    have hpoint : JobPoint c j k c.expected true (.inOnDone j) [.user, .syncFinish k] r := .doing
    rw [expected_some hf] at hpoint
    exact hpoint
  | doing =>
    obtain rfl := hanswer rfl
    obtain rfl := returns hs hm
    refine .inr ⟨by simp, ?_⟩
    rw [Sys.setPc_none, hp]
    exact (List.append_nil c.expected).symm ▸ .finishing
  | finishing =>
    obtain rfl := hm.eq_of_frame hs (by simp) rfl
    exact .inl ⟨rfl, rfl, rfl, rfl⟩

/-- The job before, in and after its execution. -/
inductive JobCourse (c : ServiceCall T n σ) (w : Fin n) (j : JobContext T) (k : Nat)
    (tr m : History T n) (s : Sys T n) : Prop
  | waiting (hpc : ¬(s.pc w).within j) (he : c.effects m = [])
      (hf : (s.mem.syncCalls k).finished = false)
  | running (h : c.PointOf w j k m s) (hf : (s.mem.syncCalls k).finished = false)
  | finished (hpc : (s.pc w).within j → s.pc w = .inOnDone j ∧ s.stack (.worker w) = [])
      (hbegan : (.worker w, .actionBegan w j) ∈ tr) (he : c.effects m = c.expected)
      (hf : (s.mem.syncCalls k).finished = true)

/-- What a step may do while the caller waits for the job: only the worker that has the job touches
the service, and only the job's closure sets the flag. -/
structure Follows (c : ServiceCall T n σ) (w : Fin n) (j : JobContext T) (k : Nat)
    (tr m : History T n) (s : Sys T n) (u : Tid n) (i : Choice T n) (mv : Move T n) : Prop where
  effect : c.effect mv.action ≠ none → u = .worker w ∧ (s.pc w).within j
  answer : c.inBody u m = true → i = .ret (c.after (c.effects m)).1
  finished : mv.action = .finished k → u = .worker w ∧ s.pc w = .inOnDone j ∧
    s.stack (.worker w) = [.syncFinish k] ∧ (.worker w, .actionBegan w j) ∈ tr
  opened : mv.action ≠ .opened k

theorem flag_step (ho : mv.action ≠ .opened k) (hf : mv.action ≠ .finished k) :
    ((s.apply u mv).mem.syncCalls k).finished = (s.mem.syncCalls k).finished := by
  rw [Sys.apply_mem, Mem.perform_finished]
  cases ha : mv.action with
  | opened l =>
    have hl : k ≠ l := fun h => ho (h ▸ ha)
    simp [hl]
  | finished l =>
    have hl : k ≠ l := fun h => hf (h ▸ ha)
    simp [hl]
  | _ => rfl

/-- A worker begins the action of a job once. -/
theorem not_began_twice (hrun : (pool T n).Run ok tr s) (hok : ok tr s (t, i))
    (hm : Moves s t i mv) (hbegan : (u, .actionBegan w j) ∈ tr) :
    mv.action ≠ .actionBegan w j := by
  intro ha
  have hstep : (pool T n).step s (t, i) = some ((t, .actionBegan w j), s.apply t mv) :=
    ha ▸ hm.step_eq
  have hruns : (Action.actionBegan w j).runsOn w = true := by simp [Action.runsOn]
  have hnd := jobSteps_nodup (hrun.next hok hstep) w
  rw [jobSteps_snoc, if_pos hruns] at hnd
  exact (List.nodup_append.mp hnd).2.2 _ (mem_jobSteps.mpr ⟨hruns, u, hbegan⟩) _
    (List.mem_singleton.mpr rfl) rfl

theorem JobCourse.waiting_step (hj : c.IsJob j k) (hm : Moves s u i mv)
    (hf : c.Follows w j k tr m s u i mv) (hpc : ¬(s.pc w).within j) (he : c.effects m = [])
    (hflag : (s.mem.syncCalls k).finished = false) :
    c.JobCourse w j k (tr ++ [(u, mv.action)]) (m ++ [(u, mv.action)]) (s.apply u mv) := by
  have hnone : c.effect mv.action = none := by
    by_contra heff
    exact hpc (hf.effect heff).2
  have hflag' : ((s.apply u mv).mem.syncCalls k).finished = false := by
    rw [flag_step hf.opened, hflag]
    intro ha
    refine hpc ?_
    rw [(hf.finished ha).2.1]
    rfl
  by_cases hnew : ((s.apply u mv).pc w).within j
  · obtain ⟨rfl, hs, ha, hp, f, hact, hfr⟩ := hm.within_step hpc hnew
    obtain ⟨call, hcall⟩ := hj.action
    obtain rfl := Option.some.inj (hact.symm.trans hcall)
    refine .running ?_ hflag'
    unfold PointOf
    rw [effects_snoc, inBody_snoc_self, hnone, he, hp, Sys.apply_stack_self, hs, hfr]
    exact .called
  · refine .waiting hnew ?_ hflag'
    rw [effects_snoc, hnone, he]
    rfl

theorem JobCourse.running_step (hj : c.IsJob j k) (hm : Moves s u i mv)
    (hf : c.Follows w j k tr m s u i mv) (h : c.PointOf w j k m s)
    (hflag : (s.mem.syncCalls k).finished = false) :
    c.JobCourse w j k (tr ++ [(u, mv.action)]) (m ++ [(u, mv.action)]) (s.apply u mv) := by
  by_cases hu : u = .worker w
  · subst hu
    rcases h.step hj hm hf.answer with ⟨ha, he, hp, hs⟩ | ⟨ha, hpoint⟩
    · obtain ⟨-, -, -, hbegan⟩ := hf.finished ha
      obtain rfl := hm.eq_of_frame hs (by simp) rfl
      refine .finished (fun _ => ⟨?_, ?_⟩) (List.mem_append_left _ hbegan) ?_ ?_
      · rw [Sys.apply_pc, Sys.setPc_none, hp]
      · rw [Sys.apply_stack_self, hs]
        rfl
      · rw [effects_snoc, he]
        exact List.append_nil _
      · rw [Sys.apply_mem, Mem.perform_finished]
        simp
    · exact .running hpoint (by rw [flag_step hf.opened ha, hflag])
  · have hnone : c.effect mv.action = none := by
      by_contra heff
      exact hu (hf.effect heff).1
    have ha : mv.action ≠ .finished k := fun ha => hu (hf.finished ha).1
    refine .running ?_ (by rw [flag_step hf.opened ha, hflag])
    unfold PointOf at h ⊢
    rw [effects_snoc, hnone, inBody_snoc_other c hu, Sys.apply_stack_other mv (Ne.symm hu),
      Sys.apply_result_other (Ne.symm hu), Sys.apply_pc, (hm.pc_frame w fun h => absurd h hu).1]
    simpa using h

theorem JobCourse.finished_step (hrun : (pool T n).Run AnyStep tr s) (hm : Moves s u i mv)
    (hf : c.Follows w j k tr m s u i mv)
    (hpc : (s.pc w).within j → s.pc w = .inOnDone j ∧ s.stack (.worker w) = [])
    (hbegan : (.worker w, .actionBegan w j) ∈ tr) (he : c.effects m = c.expected)
    (hflag : (s.mem.syncCalls k).finished = true) :
    c.JobCourse w j k (tr ++ [(u, mv.action)]) (m ++ [(u, mv.action)]) (s.apply u mv) := by
  have hflag' : ((s.apply u mv).mem.syncCalls k).finished = true := by
    by_cases ha : mv.action = .finished k
    · rw [Sys.apply_mem, Mem.perform_finished, ha]
      simp
    · rw [flag_step hf.opened ha, hflag]
  have hloop (hu : u = .worker w) (hw : (s.pc w).within j) :
      mv = ⟨.onDoneEnded w j, [], none, some (.finish j)⟩ := by
    subst hu
    obtain ⟨hp, hs⟩ := hpc hw
    have hnext := hm.loop_next hs
    simp only [Sys.runNext, hp, Option.some.injEq] at hnext
    exact hnext.symm
  have hnone : c.effect mv.action = none := by
    by_contra heff
    obtain ⟨hu, hw⟩ := hf.effect heff
    rw [hloop hu hw] at heff
    exact heff rfl
  refine .finished (fun hw => ?_) (List.mem_append_left _ hbegan) ?_ hflag'
  · by_cases hold : (s.pc w).within j
    · by_cases hu : u = .worker w
      · obtain rfl := hloop hu hold
        subst hu
        simp [WorkerPc.within] at hw
      · obtain ⟨hp, hs⟩ := hpc hold
        rw [Sys.apply_pc, (hm.pc_frame w fun h => absurd h hu).1,
          Sys.apply_stack_other mv (Ne.symm hu)]
        exact ⟨hp, hs⟩
    · obtain ⟨-, -, ha, -⟩ := hm.within_step hold hw
      exact absurd ha (not_began_twice hrun trivial hm hbegan)
  · rw [effects_snoc, hnone, he]
    exact List.append_nil _

theorem JobCourse.step (h : c.JobCourse w j k tr m s) (hj : c.IsJob j k)
    (hrun : (pool T n).Run AnyStep tr s) (hm : Moves s u i mv)
    (hf : c.Follows w j k tr m s u i mv) :
    c.JobCourse w j k (tr ++ [(u, mv.action)]) (m ++ [(u, mv.action)]) (s.apply u mv) := by
  cases h with
  | waiting hpc he hflag => exact waiting_step hj hm hf hpc he hflag
  | running h hflag => exact running_step hj hm hf h hflag
  | finished hpc hbegan he hflag => exact finished_step hrun hm hf hpc hbegan he hflag

/-- The function objects of a blocking call before `doSyncJob` wraps its `onDone`. -/
structure Hands (c : ServiceCall T n σ) (call onDone : Option (Callable T)) : Prop where
  call : ∃ k, call = some (.bound k (some c.action) c.args)
  onDone : onDone = c.onDone.map .client

/-- The functions a blocking call goes through before it opens its `doSyncJob`. -/
inductive Asks (c : ServiceCall T n σ) : Frame T n → Prop
  | check {prop : CallProperty} (ha : prop.async = true) (hw : prop.waitForDone = true)
      (hd : prop.onCallDone = c.onDone) : Asks c (.checkAndInvoke c.id prop c.args)
  | schedule {req} (h : c.Hands req.action req.onDone) (hw : req.waitForDone = true) :
      Asks c (.schedule req)
  | scan {req res it load} (h : c.Hands req.action req.onDone) (hw : req.waitForDone = true) :
      Asks c (.scan req res it load)
  | bind {req idle} (h : c.Hands req.action req.onDone) (hw : req.waitForDone = true) :
      Asks c (.bindStrand req idle)
  | doSync {w name call onDone strand} (h : c.Hands call onDone) :
      Asks c (.doSync w name call onDone strand)

theorem Asks.place {req : Request T} (h : c.Hands req.action req.onDone)
    (hw : req.waitForDone = true) (w : Fin n) : c.Asks (Sys.place req w) := by
  rw [Sys.place, if_pos hw]
  exact .doSync h

/-- A step on the way to the queue goes on to the next function or opens the `doSyncJob`. -/
theorem Asks.step {f : Frame T n} (h : c.Asks f) (hs : s.stack t = f :: rest) (hm : Moves s t i mv)
    (hreg : s.mem.registry.actionMapping c.id = some (some c.action, c.args.getType)) :
    c.effect mv.action = none ∧ (∀ w, mv.action.pushedOn w = []) ∧
      ((∃ g, mv.frames = [g] ∧ c.Asks g) ∨
        ∃ x : SyncArgs T n, f = x.frame ∧ c.Hands x.call x.onDone ∧
          mv.action = .opened s.mem.fresh) := by
  have hne : f ≠ .user := by
    intro heq
    subst heq
    cases h
  have hnext := Sys.next_frame hm.next_eq hs hne
  cases h with
  | @check prop ha hw hd =>
    simp only [Sys.frameNext, Sys.checkAndInvokeNext, hreg, ha] at hnext
    split at hnext
    · obtain rfl := by simpa using hnext
      exact ⟨rfl, fun w => rfl, .inl ⟨_, rfl, .schedule ⟨⟨_, rfl⟩, by rw [hd]⟩ hw⟩⟩
    · cases hnext
  | schedule h hw =>
    simp only [Sys.frameNext, Sys.scheduleNext] at hnext
    split at hnext
    · obtain rfl := Option.some.inj hnext
      exact ⟨rfl, fun w => rfl, .inl ⟨_, rfl, .scan h hw⟩⟩
    · cases hnext
  | @scan req res it load h hw =>
    cases load with
    | none =>
      simp only [Sys.frameNext, Sys.scanNext] at hnext
      split at hnext
      · obtain rfl := Option.some.inj hnext
        exact ⟨rfl, fun w => rfl, .inl ⟨_, rfl, .scan h hw⟩⟩
      · split at hnext
        · obtain rfl := Option.some.inj hnext
          exact ⟨rfl, fun w => rfl, .inl ⟨_, rfl, .place h hw _⟩⟩
        · obtain rfl := Option.some.inj hnext
          exact ⟨rfl, fun w => rfl, .inl ⟨_, rfl, .bind h hw⟩⟩
    | some a =>
      simp only [Sys.frameNext, Sys.scanNext] at hnext
      split at hnext
      · obtain rfl := Option.some.inj hnext
        exact ⟨rfl, fun w => rfl, .inl ⟨_, rfl, .scan h hw⟩⟩
      · cases hnext
  | bind h hw =>
    obtain rfl := Option.some.inj hnext
    exact ⟨rfl, fun w => rfl, .inl ⟨_, rfl, .place h hw _⟩⟩
  | @doSync w name call onDone strand h =>
    obtain rfl := Option.some.inj hnext
    exact ⟨rfl, fun w => rfl, .inr ⟨⟨w, name, call, onDone, strand⟩, rfl, h, rfl⟩⟩

/-- The functions of the caller from the push to the end of its wait. -/
inductive Waits (w : Fin n) (k : Nat) : List (Frame T n) → Prop
  | notify : Waits w k [.notify w, .syncWait k]
  | increment : Waits w k [.increment w, .syncWait k]
  | wait : Waits w k [.syncWait k]
  | asleep : Waits w k [.syncAsleep k]

/-- A step of the waiting caller. -/
theorem Waits.step {l : List (Frame T n)} (h : Waits w k l) (hs : s.stack t = l ++ rest)
    (hm : Moves s t i mv) :
    c.effect mv.action = none ∧ (∀ w, mv.action.pushedOn w = []) ∧
      mv.action ≠ .finished k ∧ (∀ l, mv.action ≠ .opened l) ∧
      ((∃ l', (s.apply t mv).stack t = l' ++ rest ∧ Waits w k l') ∨
        (s.apply t mv).stack t = rest ∧ (s.mem.syncCalls k).finished = true ∧
          (s.apply t mv).result t = .ret true) := by
  rw [Sys.apply_stack_self]
  cases h with
  | notify =>
    obtain rfl := hm.eq_of_frame hs (by simp) rfl
    rw [hs]
    exact ⟨rfl, fun w => rfl, by simp, by simp, .inl ⟨_, rfl, .increment⟩⟩
  | increment =>
    obtain rfl := hm.eq_of_frame hs (by simp) rfl
    rw [hs]
    exact ⟨rfl, fun w => rfl, by simp, by simp, .inl ⟨_, rfl, .wait⟩⟩
  | wait =>
    have hnext := Sys.next_frame hm.next_eq hs (by simp)
    simp only [Sys.frameNext, Sys.syncWaitNext, Option.some.injEq] at hnext
    rw [hs]
    split at hnext
    · rename_i hf
      obtain rfl := hnext
      exact ⟨rfl, fun w => rfl, by simp, by simp, .inr ⟨rfl, hf, Function.update_self ..⟩⟩
    · obtain rfl := hnext
      exact ⟨rfl, fun w => rfl, by simp, by simp, .inl ⟨_, rfl, .asleep⟩⟩
  | asleep =>
    obtain rfl := hm.eq_of_frame hs (by simp) rfl
    rw [hs]
    exact ⟨rfl, fun w => rfl, by simp, by simp, .inl ⟨_, rfl, .wait⟩⟩

/-- Where a blocking call stands once it has been made. -/
inductive AsyncCourse (c : ServiceCall T n σ) (rest : List (Frame T n)) (tr m : History T n)
    (s : Sys T n) : Prop
  | asking {f : Frame T n} (hs : s.stack c.caller = f :: rest) (hf : c.Asks f)
      (he : c.effects m = [])
      (hb : c.inBody c.caller m = false)
      (hno : ∀ w j strand, (c.caller, .pushed w j strand) ∉ m)
  | opened {x : SyncArgs T n} {k : Nat} {p m' : History T n} (hs : s.stack c.caller =
        .push x.worker x.name x.call (some (.syncDone x.onDone k)) x.strand :: .syncWait k :: rest)
      (hx : c.Hands x.call x.onDone) (hk : k < s.mem.fresh) (hp : m = p ++ m')
      (hphase : SyncPhase x k c.caller tr m' s) (hf : (s.mem.syncCalls k).finished = false)
      (he : c.effects m = []) (hb : c.inBody c.caller m = false)
      (hno : ∀ w j strand, (c.caller, .pushed w j strand) ∉ m)
  | queued {w : Fin n} {j : JobContext T} {k : Nat} (hj : c.IsJob j k)
      (hk : k < s.mem.fresh) (hno : ∀ u, ¬s.AboutToPush u k)
      (honly : ∀ v, ∀ j' ∈ pushedOn v tr, j'.Wakes k → v = w ∧ j' = j)
      (hmine : ∀ v j' strand, (c.caller, .pushed v j' strand) ∈ m → v = w ∧ j' = j)
      (hb : c.inBody c.caller m = false) (hjob : c.JobCourse w j k tr m s)
      (hl : (∃ l, s.stack c.caller = l ++ rest ∧ Waits w k l) ∨ s.stack c.caller = rest ∧
        (s.mem.syncCalls k).finished = true ∧ s.result c.caller = .ret true)

/-- Only a worker that has run a job with the closure sets the flag. -/
theorem finished_current (hrun : (pool T n).Run ok tr s) (hm : Moves s u i mv)
    (ha : mv.action = .finished k) :
    ∃ w j, u = .worker w ∧ s.pc w = .inOnDone j ∧ s.stack u = [.syncFinish k] ∧ j.Wakes k ∧
      j ∈ pushedOn w tr ∧ (u, .actionBegan w j) ∈ tr := by
  obtain ⟨rest', htop⟩ := hm.finished_inv ha
  obtain ⟨w, j, f, d, rfl, hpc, rfl, -, hd, a, seg, done, ho, -, -⟩ := finisher hrun htop
  have hbegan : Action.actionBegan w j ∈ own (.worker w) tr := by simp [ho]
  exact ⟨w, j, rfl, hpc, htop, ⟨d, hd⟩, current_pushed hrun (by simp [hpc, WorkerPc.current]),
    mem_of_own hbegan⟩

theorem AsyncCourse.asking_step {prop : CallProperty} {f : Frame T n}
    (hs : s.stack c.caller = f :: rest) (hf : c.Asks f) (he : c.effects m = [])
    (hb : c.inBody c.caller m = false)
    (hno : ∀ w j strand, (c.caller, .pushed w j strand) ∉ m) (hrun : (pool T n).Run AnyStep tr s)
    (hok : c.Undisturbed prop m s (u, i)) (hm : Moves s u i mv) :
    c.AsyncCourse rest (tr ++ [(u, mv.action)]) (m ++ [(u, mv.action)]) (s.apply u mv) := by
  by_cases hu : u = c.caller
  · subst hu
    obtain ⟨hnone, hpush, hnext⟩ := hf.step hs hm hok.registered
    have he' : c.effects (m ++ [(c.caller, mv.action)]) = [] := by
      rw [effects_snoc, hnone, he]
      rfl
    have hb' : c.inBody c.caller (m ++ [(c.caller, mv.action)]) = false := by
      rw [inBody_snoc_self, hnone]
      rfl
    have hno' := pushed_snoc hno fun _ : c.caller = c.caller => hpush
    rcases hnext with ⟨g, hfr, hg⟩ | ⟨x, rfl, hx, ha⟩
    · refine .asking ?_ hg he' hb' hno'
      rw [Sys.apply_stack_self, hs, hfr]
      rfl
    · have hopen : (pool T n).step s (c.caller, i) =
          some ((c.caller, .opened s.mem.fresh), s.apply c.caller mv) := ha ▸ hm.step_eq
      obtain ⟨-, hphase⟩ := syncPhase hrun hs hopen .start
      refine .opened (hm.doSync_step hs ha).2 hx ?_ (List.append_nil _).symm (ha ▸ hphase) ?_ he'
        hb' hno'
      · rw [Sys.apply_mem, Mem.perform_fresh, ha]
        exact Nat.lt_succ_self _
      · rw [Sys.apply_mem, Mem.perform_finished, ha]
        simp
  · have hnone := hok.effect_none hm hu hno
    refine .asking ((Sys.apply_stack_other mv (Ne.symm hu)).trans hs) hf ?_ ?_
      (pushed_snoc hno fun h => absurd h hu)
    · rw [effects_snoc, hnone, he]
      rfl
    · rw [inBody_snoc_other c hu, hb]

/-- The caller queues its job. -/
theorem AsyncCourse.push_step {x : SyncArgs T n} {p m' : History T n}
    (hs : s.stack c.caller =
      .push x.worker x.name x.call (some (.syncDone x.onDone k)) x.strand :: .syncWait k :: rest)
    (hx : c.Hands x.call x.onDone) (hk : k < (s.apply c.caller mv).mem.fresh) (hp : m = p ++ m')
    (hphase : SyncPhase x k c.caller (tr ++ [(c.caller, mv.action)])
      (m' ++ [(c.caller, mv.action)]) (s.apply c.caller mv))
    (hf : ((s.apply c.caller mv).mem.syncCalls k).finished = false)
    (hunpushed : ∀ w, ∀ j ∈ pushedOn w tr, ¬j.Wakes k) (he : c.effects m = [])
    (hno : ∀ w j strand, (c.caller, .pushed w j strand) ∉ m) (hrun : (pool T n).Run AnyStep tr s)
    (hm : Moves s c.caller i mv) :
    c.AsyncCourse rest (tr ++ [(c.caller, mv.action)]) (m ++ [(c.caller, mv.action)])
      (s.apply c.caller mv) := by
  obtain rfl := hm.push_eq hs
  have hstack : (s.apply c.caller ⟨.pushed x.worker ⟨x.call, some (.syncDone x.onDone k),
      x.name, s.mem.fresh⟩ x.strand, [.notify x.worker], none, none⟩).stack c.caller =
        [.notify x.worker, .syncWait k] ++ rest := by
    rw [Sys.apply_stack_self, hs]
    rfl
  cases hphase with
  | opened hs' => exact absurd (hs'.symm.trans hstack) (by simp)
  | @pushed j hj hmem hno' honly =>
    obtain ⟨-, ha⟩ : c.caller = c.caller ∧ _ = Action.pushed x.worker j x.strand := by
      rcases mem_snoc.mp hmem with hold | hnew
      · exact absurd (hp ▸ List.mem_append_right p hold) (hno x.worker j x.strand)
      · exact hnew
    have hwakes : j.Wakes k := ⟨x.onDone, hj.onDone⟩
    have hwithin : ¬(s.pc x.worker).within j := fun h =>
      hunpushed _ j (current_pushed hrun (WorkerPc.within_current h)) hwakes
    have hnone : c.effects (m ++ [(c.caller, Action.pushed x.worker
        ⟨x.call, some (.syncDone x.onDone k), x.name, s.mem.fresh⟩ x.strand)]) = [] := by
      rw [effects_snoc, he]
      rfl
    refine .queued ⟨?_, ?_⟩ hk hno' honly ?_ (c.inBody_snoc_self m c.caller _)
      (.waiting ?_ hnone hf) (.inl ⟨_, hstack, .notify⟩)
    · obtain ⟨call, hcall⟩ := hx.call
      exact ⟨call, hj.action.trans hcall⟩
    · rw [hj.onDone, hx.onDone]
    · intro v j' strand hmem'
      rcases mem_snoc.mp hmem' with hold | ⟨-, hnew⟩
      · exact absurd hold (hno v j' strand)
      · obtain ⟨rfl, rfl, -⟩ := Action.pushed.inj (hnew.symm.trans ha)
        exact ⟨rfl, rfl⟩
    · rw [Sys.apply_pc, Sys.setPc_none]
      exact hwithin

theorem AsyncCourse.opened_step {prop : CallProperty} {x : SyncArgs T n} {p m' : History T n}
    (hs : s.stack c.caller =
      .push x.worker x.name x.call (some (.syncDone x.onDone k)) x.strand :: .syncWait k :: rest)
    (hx : c.Hands x.call x.onDone) (hk : k < s.mem.fresh) (hp : m = p ++ m')
    (hphase : SyncPhase x k c.caller tr m' s) (hf : (s.mem.syncCalls k).finished = false)
    (he : c.effects m = []) (hb : c.inBody c.caller m = false)
    (hno : ∀ w j strand, (c.caller, .pushed w j strand) ∉ m) (hrun : (pool T n).Run AnyStep tr s)
    (hok : c.Undisturbed prop m s (u, i)) (hm : Moves s u i mv) :
    c.AsyncCourse rest (tr ++ [(u, mv.action)]) (m ++ [(u, mv.action)]) (s.apply u mv) := by
  have hunpushed := hphase.unpushed ⟨_, _, _, _, _, _, hs⟩
  have hphase' := hphase.step hrun hk hm
  have hk' : k < (s.apply u mv).mem.fresh := Nat.lt_of_lt_of_le hk (s.fresh_mono u mv)
  have hp' : m ++ [(u, mv.action)] = p ++ (m' ++ [(u, mv.action)]) := by
    rw [hp, List.append_assoc]
  have hf' : ((s.apply u mv).mem.syncCalls k).finished = false := by
    rw [flag_step, hf]
    · intro ha
      have := hm.opened_inv ha
      omega
    · intro ha
      obtain ⟨w, j, -, -, -, hw, hmem, -⟩ := finished_current hrun hm ha
      exact hunpushed w j hmem hw
  by_cases hu : u = c.caller
  · subst hu
    exact push_step hs hx hk' hp hphase' hf' hunpushed he hno hrun hm
  · have hnone := hok.effect_none hm hu hno
    refine .opened ((Sys.apply_stack_other mv (Ne.symm hu)).trans hs) hx hk' hp' hphase' hf' ?_ ?_
      (pushed_snoc hno fun h => absurd h hu)
    · rw [effects_snoc, hnone, he]
      rfl
    · rw [inBody_snoc_other c hu, hb]

theorem AsyncCourse.queued_step {prop : CallProperty} (hj : c.IsJob j k) (hk : k < s.mem.fresh)
    (hno : ∀ u, ¬s.AboutToPush u k)
    (honly : ∀ v, ∀ j' ∈ pushedOn v tr, j'.Wakes k → v = w ∧ j' = j)
    (hmine : ∀ v j' strand, (c.caller, .pushed v j' strand) ∈ m → v = w ∧ j' = j)
    (hb : c.inBody c.caller m = false) (hjob : c.JobCourse w j k tr m s)
    (hl : (∃ l, s.stack c.caller = l ++ s₀.stack c.caller ∧ Waits w k l) ∨
      s.stack c.caller = s₀.stack c.caller ∧ (s.mem.syncCalls k).finished = true ∧
        s.result c.caller = .ret true)
    (hclient : s₀.AtClient c.caller) (hne : m ≠ []) (hrun : (pool T n).Run AnyStep tr s)
    (hok : c.Undisturbed prop m s (u, i)) (hm : Moves s u i mv) :
    c.AsyncCourse (s₀.stack c.caller) (tr ++ [(u, mv.action)]) (m ++ [(u, mv.action)])
      (s.apply u mv) := by
  have hwaits (hu : u = c.caller) : ∃ l, s.stack u = l ++ s₀.stack c.caller ∧ Waits w k l := by
    rcases hl with hl | ⟨hs, -⟩
    · exact hu ▸ hl
    · exact absurd hs (hok.not_returned hm hu hclient hne hb)
  have hfollows : c.Follows w j k tr m s u i mv := by
    refine ⟨fun heff => ?_, hok.answer, fun ha => ?_, fun ha => ?_⟩
    · rcases hok.alone mv hm.next_eq heff with hu | ⟨v, j', strand, hu, hmem, hpc⟩
      · obtain ⟨l, hs, hl⟩ := hwaits hu
        exact absurd (hl.step hs hm).1 heff
      · obtain ⟨rfl, rfl⟩ := hmine v j' strand hmem
        refine ⟨hu, ?_⟩
        rcases hpc with hpc | hpc <;> rw [hpc] <;> rfl
    · obtain ⟨v, j', rfl, hpc, hs, hw, hmem, hbegan⟩ := finished_current hrun hm ha
      obtain ⟨rfl, rfl⟩ := honly v j' hmem hw
      exact ⟨rfl, hpc, hs, hbegan⟩
    · have := hm.opened_inv ha
      omega
  obtain ⟨hno', honly'⟩ := hm.sealed_step hrun hk hno honly
  have hjob' := hjob.step hj hrun hm hfollows
  have hk' : k < (s.apply u mv).mem.fresh := Nat.lt_of_lt_of_le hk (s.fresh_mono u mv)
  by_cases hu : u = c.caller
  · obtain ⟨l, hs, hl⟩ := hwaits hu
    obtain ⟨hnone, hpush, -, -, hnext⟩ := hl.step (c := c) hs hm
    subst hu
    refine .queued hj hk' hno' honly' ?_ ?_ hjob' ?_
    · intro v j' strand hmem
      rcases mem_snoc.mp hmem with hold | ⟨-, ha⟩
      · exact hmine v j' strand hold
      · have hv := hpush v
        simp [ha] at hv
    · rw [inBody_snoc_self, hnone]
      rfl
    · refine hnext.imp (fun h => h) ?_
      intro hend
      exact ⟨hend.1, hm.finished_stays hk hend.2.1, hend.2.2⟩
  · refine .queued hj hk' hno' honly' ?_ ?_ hjob' ?_
    · intro v j' strand hmem
      rcases mem_snoc.mp hmem with hold | ⟨hu', -⟩
      · exact hmine v j' strand hold
      · exact absurd hu'.symm hu
    · rw [inBody_snoc_other c hu, hb]
    · rw [Sys.apply_stack_other mv (Ne.symm hu), Sys.apply_result_other (Ne.symm hu)]
      refine hl.imp (fun h => h) ?_
      intro hend
      exact ⟨hend.1, hm.finished_stays hk hend.2.1, hend.2.2⟩

theorem AsyncCourse.step {prop : CallProperty} (h : c.AsyncCourse (s₀.stack c.caller) tr m s)
    (hclient : s₀.AtClient c.caller) (hne : m ≠ []) (hrun : (pool T n).Run AnyStep tr s)
    (hok : c.Undisturbed prop m s (u, i)) (hm : Moves s u i mv) :
    c.AsyncCourse (s₀.stack c.caller) (tr ++ [(u, mv.action)]) (m ++ [(u, mv.action)])
      (s.apply u mv) := by
  cases h with
  | asking hs hf he hb hno => exact asking_step hs hf he hb hno hrun hok hm
  | opened hs hx hk hp hphase hf he hb hno =>
    exact opened_step hs hx hk hp hphase hf he hb hno hrun hok hm
  | queued hj hk hno honly hmine hb hjob hl =>
    exact queued_step hj hk hno honly hmine hb hjob hl hclient hne hrun hok hm

end ServiceCall

end ServiceLib
