import ServiceLib.Framework.LockTable
import ServiceLib.Pool.Drain
import ServiceLib.Scheduler.Deadlock

namespace ServiceLib

open Machine

variable {T : ArgTypes} {n : Nat} {ok : History T n → Sys T n → Tid n × Choice T n → Prop}
  {tr : History T n} {s : Sys T n} {t u : Tid n} {i : Choice T n} {mv : Move T n} {w : Fin n}

/-- The end of `unRegiterInterface`, where it still holds `mappingLock_`. -/
def Frame.unregisters : Frame T n → Bool
  | .unregisterExit _ => true
  | _ => false

/-- A function that holds `mappingLock_` while it runs the callback of a subscription. -/
def Frame.runsWatcher : Frame T n → Bool
  | .notifyLoop _ _ _ | .subscribeExit => true
  | _ => false

/-- Nothing but its cancels stands above an `unRegiterInterface`. -/
def CancelsAbove (l : List (Frame T n)) : Prop :=
  l.Pairwise fun f g => g.unregisters = true → f.cancelling = true

theorem Moves.frames_cancelling (hm : Moves s t i mv) {f : Frame T n} {rest : List (Frame T n)}
    (hs : s.stack t = f :: rest) (hf : f.cancelling = true) :
    ∀ g ∈ mv.frames, g.cancelling = true := by
  have htop {g rest'} (h : s.stack t = g :: rest') : g.cancelling = true := by
    obtain ⟨rfl, -⟩ := List.cons.inj (hs.symm.trans h)
    exact hf
  cases hm
  case cancelNext | cancelEnd | cancelLock | cancelSkip | cancelErase | unregisterExit =>
    exact List.all_eq_true.mp rfl
  case call hnil | enterLoop hnil _ _ | leave hnil _ _ | dequeue hnil _ _ _ | sleep hnil _ _ _ _
      | pass hnil _ _ _ | «begin» hnil _ _ | beginAction hnil _ _ | endAction hnil _ _ _
      | beginOnDone hnil _ _ | noOnDone hnil _ _ | endOnDone hnil _ | finish hnil _ =>
    cases hnil.symm.trans hs
  all_goals cases htop ‹s.stack t = _›

theorem Moves.frames_cancelsAbove (hm : Moves s t i mv) : CancelsAbove mv.frames := by
  unfold CancelsAbove
  cases hm
  case call | callBack => simp [Frame.unregisters]
  case unregister => simp [Frame.cancelling]
  all_goals simp [Frame.unregisters]

theorem cancelsAbove (h : (pool T n).Run ok tr s) : ∀ t, CancelsAbove (s.stack t) := by
  refine pool_invariant (J := fun _ s => ∀ t, CancelsAbove (s.stack t)) (fun _ => .nil) ?_ h
  intro tr s t i mv _ ih _ hm u
  by_cases hu : u = t
  · subst hu
    have hstack := ih u
    rw [Sys.apply_stack_self]
    refine List.pairwise_append.mpr ⟨hm.frames_cancelsAbove, hstack.tail, ?_⟩
    intro g hg b hb hexit
    cases hs : s.stack u with
    | nil =>
      rw [hs] at hb
      exact absurd hb List.not_mem_nil
    | cons f rest =>
      rw [hs] at hb hstack
      exact hm.frames_cancelling hs ((List.pairwise_cons.mp hstack).1 b hb hexit) g hg
  · rw [Sys.apply_stack_other _ hu]
    exact ih u

/-- Client code, or what stands between it and the thread of a worker. -/
def Frame.ofCallback : Frame T n → Bool
  | .user | .invoke _ | .syncFinish _ => true
  | _ => false

/-- Every function of the library has been called by client code below it. -/
def CalledByClient : List (Frame T n) → Prop
  | [] => True
  | f :: rest => (f.ofCallback = true ∨ .user ∈ rest) ∧ CalledByClient rest

theorem CalledByClient.append {l rest : List (Frame T n)} (h : CalledByClient rest)
    (hl : ∀ f ∈ l, f.ofCallback = true ∨ .user ∈ rest) : CalledByClient (l ++ rest) := by
  induction l with
  | nil => exact h
  | cons f l ih =>
    obtain ⟨hf, hl⟩ := List.forall_mem_cons.mp hl
    exact ⟨hf.imp_right fun hmem => List.mem_append_right l hmem, ih hl⟩

theorem Moves.frames_ofCallback (hm : Moves s t i mv) {f : Frame T n} {rest : List (Frame T n)}
    (hs : s.stack t = f :: rest) (hf : f.ofCallback = true) :
    (∀ g ∈ mv.frames, g.ofCallback = true) ∨ ∃ op : Op T n, mv.frames = [op.enter, .user] := by
  have htop {g rest'} (h : s.stack t = g :: rest') : g.ofCallback = true := by
    obtain ⟨rfl, -⟩ := List.cons.inj (hs.symm.trans h)
    exact hf
  cases hm
  case callBack op _ _ => exact .inr ⟨op, rfl⟩
  case ret | invokeClient | invokeBound | invokeEmpty | invokeSync | invokeSyncEmpty
      | syncFinish => exact .inl (List.all_eq_true.mp rfl)
  case call hnil | enterLoop hnil _ _ | leave hnil _ _ | dequeue hnil _ _ _ | sleep hnil _ _ _ _
      | pass hnil _ _ _ | «begin» hnil _ _ | beginAction hnil _ _ | endAction hnil _ _ _
      | beginOnDone hnil _ _ | noOnDone hnil _ _ | endOnDone hnil _ | finish hnil _ =>
    cases hnil.symm.trans hs
  all_goals cases htop ‹s.stack t = _›

/-- The run loop of a worker calls function objects alone. -/
theorem Moves.loop_frames (hm : Moves s (.worker w) i mv) (hs : s.stack (.worker w) = []) :
    ∀ g ∈ mv.frames, g.ofCallback = true := by
  cases hm
  case call ht _ => cases ht
  case enterLoop | leave | dequeue | sleep | pass | «begin» | beginAction | endAction | beginOnDone
      | noOnDone | endOnDone | finish => exact List.all_eq_true.mp rfl
  all_goals simp_all

theorem calledByClient (h : (pool T n).Run ok tr s) (w : Fin n) :
    CalledByClient (s.stack (.worker w)) := by
  refine pool_invariant (J := fun _ s => CalledByClient (s.stack (.worker w))) trivial ?_ h
  intro tr s t i mv _ ih _ hm
  by_cases ht : t = .worker w
  · subst ht
    rw [Sys.apply_stack_self]
    cases hs : s.stack (.worker w) with
    | nil =>
      refine CalledByClient.append trivial fun g hg => ?_
      exact .inl (hm.loop_frames hs g hg)
    | cons f rest =>
      rw [hs] at ih
      obtain ⟨hf, hrest⟩ := ih
      by_cases hcb : f.ofCallback = true
      · rcases hm.frames_ofCallback hs hcb with hall | ⟨op, hop⟩
        · exact hrest.append fun g hg => .inl (hall g hg)
        · rw [hop]
          exact ⟨.inr List.mem_cons_self, .inl rfl, hrest⟩
      · exact hrest.append fun g _ => .inr (hf.resolve_left hcb)
  · rw [Sys.apply_stack_other _ (Ne.symm ht)]
    exact ih

/-- What client code may own. An action, an `onDone` or a watcher runs without any `queueLock_`;
only on the thread of a worker it runs under an `executingLock_`, the one of that worker; and it is
under `mappingLock_` once for every callback of a subscription it is called from. -/
theorem client_code_locks (h : (pool T n).Run ok tr s) {rest : List (Frame T n)}
    (hs : s.stack t = .user :: rest) :
    (∀ w, (s.worker w).queueLock ≠ some t) ∧
      (∀ w, (s.worker w).executingLock = some t ↔ t = .worker w) ∧
      s.mem.mappingLock.depth t = rest.countP Frame.runsWatcher := by
  refine ⟨fun w hq => ?_, fun w => ⟨fun he => (executing_owner h w t he).1, ?_⟩, ?_⟩
  · have hscan := (queue_owner h w t).mp hq
    rw [hs] at hscan
    cases hscan
  · rintro rfl
    have hcb := (stack_worker h w).resolve_left (by rw [hs]; exact List.cons_ne_nil _ _)
    have hexec : (s.pc w).executes = true := by
      cases hp : s.pc w <;> simp [hp, WorkerPc.inCallback] at hcb <;> rfl
    rw [(guarded h w).lock, if_pos hexec]
  · have habove := cancelsAbove h t
    rw [hs] at habove
    have hno := (List.pairwise_cons.mp habove).1
    rw [mapping_depth h, Sys.holdCount, hs, List.countP_cons_of_neg (by simp [Frame.holdsMapping])]
    refine List.countP_congr fun f hf => ?_
    have hclean : f.unregisters = false := by
      by_contra hexit
      cases hno f hf (by simpa using hexit)
    cases f <;> first | rfl | cases hclean

/-- A client registers a service and is inside the first of two callbacks that wait for it. -/
def watcherRun : History .unit 1 × Sys .unit 1 :=
  let c := Tid.client 0
  (pool .unit 1).drive (fun _ _ _ => true)
    (c.calls (.subscribeForRegistration "a" 0) 1 ++ c.calls (.subscribeForRegistration "a" 1) 1 ++
      c.calls (.registerInterface "a" (some ⟨(), 2⟩) "v") 3)

theorem client_code_locks_watcherRun : watcherRun.2.mem.mappingLock.depth (.client 0) = 1 := by
  have h : (pool .unit 1).Run AnyStep watcherRun.1 watcherRun.2 :=
    run_drive (fun _ _ _ _ => trivial) _
  have hs : watcherRun.2.stack (.client 0) = [.user, .notifyLoop "a" 1 2] := rfl
  exact (client_code_locks h hs).2.2

def Lock.rank : Lock n → ℕ
  | .mapping => 0
  | .queue _ => 1
  | .executing _ => 2

/-- The owner of `mappingLock_` never waits for it. -/
def Sys.lockTable (s : Sys T n) : LockTable (Tid n) (Lock n) where
  owns t l := s.ownerOf l = some t
  waits t l := s.wants t = some l ∧ (l = .mapping → s.ownerOf .mapping ≠ some t)

theorem Sys.deadlocked_iff {S : Set (Tid n)} : s.Deadlocked S ↔ s.lockTable.Deadlocked S := by
  refine and_congr_right fun _ => forall₂_congr fun t _ => exists_congr fun u => ?_
  refine and_congr_right fun _ => exists_congr fun l => ?_
  constructor
  · rintro ⟨hw, ho, hne⟩
    refine ⟨⟨hw, ?_⟩, ho⟩
    rintro rfl hown
    exact hne rfl (Option.some.inj (ho.symm.trans hown))
  · rintro ⟨⟨hw, hne⟩, ho⟩
    refine ⟨hw, ho, ?_⟩
    rintro rfl rfl
    exact hne rfl ho

/-- The worker runs a job whose client code has called a function that waits for the lock. -/
def Sys.JobWaits (s : Sys T n) (w : Fin n) (l : Lock n) : Prop :=
  (s.pc w).inCallback = true ∧
    ∃ f rest, s.stack (.worker w) = f :: rest ∧ f.wants = some l ∧ .user ∈ rest

/-- All threads take the locks in the order `mappingLock_`, `queueLock_`, `executingLock_`, but for
the jobs, which run under `executingLock_`. -/
theorem locks_inverted (h : (pool T n).Run ok tr s) {l l' : Lock n}
    (hinv : s.lockTable.Inverts Lock.rank t l l') :
    ∃ w, l = .executing w ∧ t = .worker w ∧ s.JobWaits w l' := by
  obtain ⟨ho, ⟨hw, hne⟩, hrank⟩ := hinv
  cases l with
  | mapping =>
    cases l' with
    | mapping => exact absurd ho (hne rfl)
    | queue | executing => simp [Lock.rank] at hrank
  | queue w =>
    have hscan := (queue_owner h w t).mp ho
    cases hs : s.stack t with
    | nil => simp [hs, topScan] at hscan
    | cons f rest =>
      rw [hs] at hscan
      cases f <;> simp only [topScan, reduceCtorEq] at hscan
      rename_i id v left
      rw [Sys.wants_top hs] at hw
      cases left with
      | nil => cases hw
      | cons it left =>
        obtain ⟨-, rfl⟩ : it.id = id ∧ Lock.executing v = l' := by simpa [Frame.wants] using hw
        simp [Lock.rank] at hrank
  | executing w =>
    obtain ⟨rfl, -⟩ := executing_owner h w t ho
    have hruns : s.runsJob w = true := Option.isSome_iff_exists.mpr ⟨_, ho⟩
    obtain ⟨f, rest, hs, hf⟩ := Sys.wants_running h hruns hw
    have hcalled := calledByClient h w
    rw [hs] at hcalled
    refine ⟨w, rfl, rfl, ?_, f, rest, hs, hf, ?_⟩
    · exact (stack_worker h w).resolve_left (by rw [hs]; exact List.cons_ne_nil _ _)
    · refine hcalled.1.resolve_left fun hcb => ?_
      cases f <;> simp [Frame.ofCallback, Frame.wants] at hcb hf

/-- Who waits for the `executingLock_` of a worker that runs a job cancels the jobs of a service. -/
theorem Sys.wants_executing (h : (pool T n).Run ok tr s) (hruns : s.runsJob w = true)
    (hw : s.wants t = some (.executing w)) :
    ∃ id it left rest, s.stack t = .cancelScan id w (it :: left) :: rest ∧ it.id = id := by
  cases hs : s.stack t with
  | nil =>
    obtain ⟨u, hu⟩ := Option.isSome_iff_exists.mp hruns
    obtain ⟨-, hexec⟩ := executing_owner h w u hu
    cases t with
    | client k => simp [Sys.wants, hs] at hw
    | worker v =>
      simp only [Sys.wants, hs] at hw
      cases hp : s.pc v <;> simp_all [WorkerPc.wants, WorkerPc.executes]
  | cons f rest =>
    obtain ⟨id, it, left, rfl, hid⟩ := Frame.wants_executing (Sys.wants_top hs ▸ hw)
    exact ⟨id, it, left, rest, rfl, hid⟩

theorem deadlock_core (h : (pool T n).Run ok tr s) {S : Set (Tid n)} (hS : s.Deadlocked S) :
    ∃ c ∈ S, ∃ w, .worker w ∈ S ∧
      (∃ id it left rest, s.stack c = .cancelScan id w (it :: left) :: rest ∧ it.id = id) ∧
      ∃ l, s.JobWaits w l := by
  have hbound : ∀ l : Lock n, l.rank ≤ 2 := by
    intro l
    cases l <;> simp [Lock.rank]
  obtain ⟨c, hc, u, hu, l, l', ⟨hw, -⟩, hinv⟩ := (Sys.deadlocked_iff.mp hS).inverts hbound
  obtain ⟨w, rfl, rfl, hjob⟩ := locks_inverted h hinv
  have hruns : s.runsJob w = true := Option.isSome_iff_exists.mpr ⟨_, hinv.1⟩
  exact ⟨c, hc, w, hu, Sys.wants_executing h hruns hw, l', hjob⟩

/-- Every deadlock on the locks has the same core: a cancel of the jobs of a service that waits,
with the queue of a worker locked, for the job the worker runs, and that job, whose client code
waits for a lock too. Whoever else owns a lock and waits for another one follows the order
`mappingLock_`, `queueLock_`, `executingLock_`, so that without a cancel no threads can block each
other. -/
theorem deadlock_needs_cancel (h : (pool T n).Run AnyStep tr s) :
    (∀ S, s.Deadlocked S → ∃ c ∈ S, ∃ w, .worker w ∈ S ∧
      (∃ id it left rest, s.stack c = .cancelScan id w (it :: left) :: rest ∧ it.id = id) ∧
      ∃ l, s.JobWaits w l) ∧
    ∀ t l l', s.ownerOf l = some t → s.wants t = some l' →
      (l' = .mapping → s.ownerOf .mapping ≠ some t) →
      l.rank < l'.rank ∨ ∃ w, l = .executing w ∧ t = .worker w ∧ s.JobWaits w l' := by
  refine ⟨fun S hS => deadlock_core h hS, fun t l l' ho hw hne => ?_⟩
  by_cases hrank : l.rank < l'.rank
  · exact .inl hrank
  · exact .inr (locks_inverted h ⟨ho, ⟨hw, hne⟩, Nat.not_lt.mp hrank⟩)

theorem deadlock_needs_cancel_deadlockRun :
    ∃ w, Tid.worker w ∈ ({.client 0, .worker 0} : Set (Tid 1)) ∧
      ∃ l, deadlockRun.2.JobWaits w l := by
  have h : (pool .unit 1).Run AnyStep deadlockRun.1 deadlockRun.2 :=
    run_drive (fun _ _ _ _ => trivial) _
  have hclient : deadlockRun.2.BlockedBy (.client 0) (.worker 0) :=
    ⟨.executing 0, rfl, rfl, fun heq => by cases heq⟩
  have hworker : deadlockRun.2.BlockedBy (.worker 0) (.client 0) :=
    ⟨.mapping, rfl, rfl, fun _ => by simp⟩
  have hdead : deadlockRun.2.Deadlocked {.client 0, .worker 0} := by
    refine ⟨⟨.client 0, .inl rfl⟩, ?_⟩
    rintro t (rfl | rfl)
    · exact ⟨.worker 0, .inr rfl, hclient⟩
    · exact ⟨.client 0, .inl rfl, hworker⟩
  obtain ⟨c, -, w, hw, -, hjob⟩ := (deadlock_needs_cancel h).1 _ hdead
  exact ⟨w, hw, hjob⟩

end ServiceLib
