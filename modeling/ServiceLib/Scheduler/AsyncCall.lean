import ServiceLib.Pool.Response
import ServiceLib.Scheduler.SyncCall

namespace ServiceLib

open Machine

variable {T : ArgTypes} {n : Nat} {tr l m : History T n} {s s₀ s₁ : Sys T n} {t u : Tid n}
  {i : Choice T n} {mv : Move T n} {req : Request T}

/-- The property `asyncCall` makes its calls with. -/
def createAsyncNonBlockProp (onDone : Option ClientFn) (strand : String) : CallProperty :=
  ⟨true, false, onDone, strand⟩

/-- `asyncCall`, with or without an `onDone`. -/
def Op.asyncCall (serviceId : String) (onDone : Option ClientFn) (args : ParamArgs T) : Op T n :=
  .interfaceCall serviceId (createAsyncNonBlockProp onDone "") args

/-- What an accepted call with that property asks the dispatcher for. -/
def asyncRequest (id strand : String) (onDone : Option ClientFn) (k : Nat) (action : CallbackType T)
    (args : ParamArgs T) : Request T :=
  ⟨id, some (.bound k action args), onDone.map .client, false, strand⟩

/-- A job is handed to a worker. -/
def Action.isPush : Action T n → Bool
  | .pushed _ _ _ => true
  | _ => false

/-- The most steps an asynchronous call still takes. -/
def Frame.stepsLeft : Frame T n → ℕ
  | .schedule _ => 2 * n + 4
  | .scan _ _ it none => 2 * (n - it) + 5
  | .scan _ _ it (some _) => 2 * (n - it) + 4
  | .bindStrand _ _ => 4
  | .push _ _ _ _ _ => 3
  | .notify _ => 2
  | .increment _ => 1
  | _ => 0

/-- The dispatcher looks for a worker for the request, or is about to push its job. -/
def Frame.Places (req : Request T) : Frame T n → Prop
  | .schedule r | .bindStrand r _ => r = req
  | .scan r _ it load => r = req ∧ (load ≠ none → it < n)
  | .push _ name call onDone strand =>
    name = req.name ∧ call = req.action ∧ onDone = req.onDone ∧ strand = req.strand
  | _ => False

def Frame.pushesOn (w : Fin n) : Frame T n → Bool
  | .push v _ _ _ _ => v = w
  | _ => false

/-- The job made of a request. -/
def Request.JobOf (req : Request T) (j : JobContext T) : Prop :=
  j.action = req.action ∧ j.onDone = req.onDone ∧ j.id = req.name

/-- How far an asynchronous call has come: its thread's steps so far and its only function. -/
inductive AsyncPath (req : Request T) : List (Action T n) → Frame T n → Prop
  | placing {o f} (hf : f.Places req) (hno : ∀ a ∈ o, a.isPush = false)
      (hlen : o.length + f.stepsLeft ≤ 2 * n + 4) : AsyncPath req o f
  | pushed {o w j} (hj : req.JobOf j) (hno : ∀ a ∈ o, a.isPush = false)
      (hlen : o.length ≤ 2 * n + 1) : AsyncPath req (o ++ [.pushed w j req.strand]) (.notify w)
  | signalled {o w j} (hj : req.JobOf j) (hno : ∀ a ∈ o, a.isPush = false)
      (hlen : o.length ≤ 2 * n + 1) :
      AsyncPath req (o ++ [.pushed w j req.strand, .signalled w]) (.increment w)

/-- The steps of an asynchronous call that has returned: some to choose a worker, then the push of
one job of the request on it, the wake-up and the count. -/
def AsyncReturned (req : Request T) (o : List (Action T n)) : Prop :=
  ∃ p w j, o = p ++ [.pushed w j req.strand, .signalled w, .counted w] ∧ req.JobOf j ∧
    (∀ a ∈ p, a.isPush = false) ∧ p.length ≤ 2 * n + 1

/-- One step of the search for a worker. -/
theorem Frame.Places.step {f : Frame T n} {rest : List (Frame T n)} (h : f.Places req)
    (hwait : req.waitForDone = false) (hs : s.stack t = f :: rest) (hm : Moves s t i mv) :
    (∃ g, mv.frames = [g] ∧ g.Places req ∧ g.stepsLeft + 1 ≤ f.stepsLeft ∧
      mv.action.isPush = false) ∨
    ∃ w j, mv.frames = [.notify w] ∧ mv.action = .pushed w j req.strand ∧ req.JobOf j ∧
      f.stepsLeft = 3 := by
  have hplace (w : Fin n) : Sys.place req w =
      .push w req.name req.action req.onDone req.strand := by simp [Sys.place, hwait]
  have hnext := Sys.next_frame hm.next_eq hs (by rintro rfl; exact h)
  cases f <;> try exact h.elim
  case schedule r =>
    obtain rfl : r = req := h
    simp only [Sys.frameNext, Sys.scheduleNext] at hnext
    split at hnext
    · rename_i hn
      cases hnext
      refine .inl ⟨_, rfl, ⟨rfl, by simp⟩, ?_, rfl⟩
      simp only [Frame.stepsLeft]
      omega
    · cases hnext
  case scan r res it load =>
    obtain ⟨rfl, hload⟩ := h
    cases load with
    | none =>
      simp only [Sys.frameNext, Sys.scanNext] at hnext
      split at hnext
      · rename_i hit
        cases hnext
        exact .inl ⟨_, rfl, ⟨rfl, fun _ => hit⟩, Nat.le_refl _, rfl⟩
      · split at hnext
        · cases hnext
          refine .inl ⟨_, rfl, ?_, ?_, rfl⟩
          · rw [hplace]
            exact ⟨rfl, rfl, rfl, rfl⟩
          · rw [hplace]
            simp only [Frame.stepsLeft]
            omega
        · cases hnext
          refine .inl ⟨_, rfl, rfl, ?_, rfl⟩
          simp only [Frame.stepsLeft]
          omega
    | some a =>
      have hit : it < n := hload (by simp)
      simp only [Sys.frameNext, Sys.scanNext, hit, dif_pos, Option.some.injEq] at hnext
      subst hnext
      refine .inl ⟨_, rfl, ⟨rfl, by simp⟩, ?_, rfl⟩
      simp only [Frame.stepsLeft]
      omega
  case bindStrand r idle =>
    obtain rfl : r = req := h
    simp only [Sys.frameNext, Sys.bindStrandNext, Option.some.injEq] at hnext
    subst hnext
    refine .inl ⟨_, rfl, ?_, ?_, rfl⟩
    · rw [hplace]
      exact ⟨rfl, rfl, rfl, rfl⟩
    · rw [hplace]
      exact Nat.le_refl _
  case push w name call onDone strand =>
    obtain ⟨rfl, rfl, rfl, rfl⟩ := h
    obtain rfl := hm.push_eq hs
    exact .inr ⟨w, _, rfl, rfl, ⟨rfl, rfl, rfl⟩, rfl⟩

theorem AsyncPath.step {o : List (Action T n)} {f : Frame T n} {rest : List (Frame T n)}
    (h : AsyncPath req o f) (hwait : req.waitForDone = false) (hs : s.stack t = f :: rest)
    (hm : Moves s t i mv) :
    (∃ g, mv.frames = [g] ∧ AsyncPath req (o ++ [mv.action]) g) ∨
      mv.frames = [] ∧ AsyncReturned req (o ++ [mv.action]) ∧
        (s.apply t mv).result t = .ret true := by
  cases h with
  | placing hf hno hlen =>
    rcases hf.step hwait hs hm with ⟨g, hfr, hg, hleft, ha⟩ | ⟨w, j, hfr, ha, hj, hleft⟩
    · refine .inl ⟨g, hfr, .placing hg ?_ ?_⟩
      · exact List.forall_mem_append.mpr ⟨hno, List.forall_mem_singleton.mpr ha⟩
      · rw [List.length_append, List.length_singleton]
        omega
    · exact .inl ⟨_, hfr, ha ▸ .pushed hj hno (by omega)⟩
  | pushed hj hno hlen =>
    obtain rfl := hm.eq_of_frame hs (by simp) rfl
    refine .inl ⟨_, rfl, ?_⟩
    rw [List.append_assoc]
    exact .signalled hj hno hlen
  | @signalled p w j hj hno hlen =>
    obtain rfl := hm.eq_of_frame hs (by simp) rfl
    refine .inr ⟨rfl, ⟨p, w, j, ?_, hj, hno, hlen⟩, Sys.apply_result_self⟩
    rw [List.append_assoc]
    rfl

theorem Frame.Places.waits {f : Frame T n} (h : f.Places req) (hn : 0 < n)
    (hnone : s.frameNext t f = none) :
    ∃ w, f.pushesOn w = true ∧ (s.worker w).queueLock ≠ none := by
  cases f <;> try exact h.elim
  case schedule r => simp [Sys.frameNext, Sys.scheduleNext, hn] at hnone
  case scan r res it load =>
    cases load with
    | none =>
      simp only [Sys.frameNext, Sys.scanNext] at hnone
      split at hnone
      · cases hnone
      · split at hnone <;> cases hnone
    | some a => simp [Sys.frameNext, Sys.scanNext, h.2 (by simp)] at hnone
  case bindStrand => cases hnone
  case push w name call onDone strand =>
    simp only [Sys.frameNext, Sys.pushNext] at hnone
    split at hnone
    · cases hnone
    · exact ⟨w, decide_eq_true rfl, ‹_›⟩

theorem AsyncPath.places {o : List (Action T n)} {f : Frame T n} (h : AsyncPath req o f)
    (hnone : s.frameNext t f = none) : f.Places req := by
  cases h with
  | placing hf => exact hf
  | pushed | signalled => cases hnone

/-- The only thing an asynchronous call ever waits for is a cancel that holds the queue it is about
to push on. -/
theorem AsyncPath.waits {o : List (Action T n)} {f : Frame T n} {rest : List (Frame T n)}
    (h : AsyncPath req o f) (hrun : (pool T n).Run AnyStep tr s) (hn : 0 < n)
    (hs : s.stack t = f :: rest) (hnone : s.next t .run = none) :
    ∃ w u id left rest', f.pushesOn w = true ∧ s.stack u = .cancelScan id w left :: rest' := by
  have hframe : s.frameNext t f = none := by
    cases t <;> simpa only [Sys.next, hs] using hnone
  obtain ⟨w, hpush, hw⟩ := (h.places hframe).waits hn hframe
  obtain ⟨u, hu⟩ := Option.ne_none_iff_exists'.mp hw
  obtain ⟨id, left, rest', htop⟩ := topScan_inv ((queue_owner hrun w u).mp hu)
  exact ⟨w, u, id, left, rest', hpush, htop⟩

/-- What has become of an asynchronous call made at the start of the history: it is still going on
above its caller and is held up by nothing but a cancel that holds the queue, or it has returned. -/
def AsyncOutcome (req : Request T) (t : Tid n) (rest : List (Frame T n)) (s₁ : Sys T n)
    (m : History T n) (s : Sys T n) : Prop :=
  (∃ f, s.stack t = f :: rest ∧ AsyncPath req (own t m) f ∧ (s.next t .run = none →
    ∃ w u id left rest', f.pushesOn w = true ∧ s.stack u = .cancelScan id w left :: rest')) ∨
  ∃ p a q s', m = p ++ (t, a) :: q ∧ ((pool T n).startAt s₁).Run AnyStep (p ++ [(t, a)]) s' ∧
    s'.stack t = rest ∧ AsyncReturned req (own t (p ++ [(t, a)])) ∧ s'.result t = .ret true

theorem AsyncOutcome.step {rest : List (Frame T n)} (h : AsyncOutcome req t rest s₁ m s)
    (hrun : ((pool T n).startAt s₁).Run AnyStep m s)
    (hwhole : (pool T n).Run AnyStep tr (s.apply u mv)) (hn : 0 < n)
    (hwait : req.waitForDone = false) (hm : Moves s u i mv) :
    AsyncOutcome req t rest s₁ (m ++ [(u, mv.action)]) (s.apply u mv) := by
  have hgoing {f : Frame T n} (hs : (s.apply u mv).stack t = f :: rest)
      (hpath : AsyncPath req (own t (m ++ [(u, mv.action)])) f) :
      AsyncOutcome req t rest s₁ (m ++ [(u, mv.action)]) (s.apply u mv) :=
    .inl ⟨f, hs, hpath, hpath.waits hwhole hn hs⟩
  rcases h with ⟨f, hs, hpath, -⟩ | ⟨p, a, q, s', rfl, hrun', hs', hret, hres⟩
  · by_cases hu : u = t
    · subst hu
      have hstack : (s.apply u mv).stack u = mv.frames ++ rest := by
        rw [Sys.apply_stack_self, hs, List.tail_cons]
      rcases hpath.step hwait hs hm with ⟨g, hfr, hnext⟩ | ⟨hend, hret, hres⟩
      · rw [hfr] at hstack
        exact hgoing hstack (own_snoc_self u m mv.action ▸ hnext)
      · rw [hend] at hstack
        exact .inr ⟨m, mv.action, [], s.apply u mv, rfl, hrun.next trivial hm.step_eq, hstack,
          own_snoc_self u m mv.action ▸ hret, hres⟩
    · refine hgoing ((Sys.apply_stack_other mv (Ne.symm hu)).trans hs) ?_
      rw [own_snoc_other hu]
      exact hpath
  · exact .inr ⟨p, a, q ++ [(u, mv.action)], s', by simp, hrun', hs', hret, hres⟩

/-- An asynchronous call hands over one job and does not wait for it. Whatever the other threads do,
an accepted call with the property of `asyncCall` pushes one job, which carries the action
registered at its lookup, its arguments and its `onDone`; it returns true after at most `2 * n + 4`
further steps of its thread, and nothing holds it up but a cancel on the queue it pushes on. -/
theorem async_call_once {id strand : String} {onDone : Option ClientFn} {args : ParamArgs T}
    {rest : List (Frame T n)} {k : Nat} (hn : 0 < n) (h₀ : (pool T n).Run AnyStep l s₀)
    (hs : s₀.stack t =
      .checkAndInvoke id (createAsyncNonBlockProp onDone strand) args :: rest)
    (hlook : (pool T n).step s₀ (t, i) = some ((t, .lookedUp k id args), s₁))
    (h : ((pool T n).startAt s₁).Run AnyStep m s) :
    ∃ act, s₀.mem.registry.actionMapping id = some (some act, args.getType) ∧
      AsyncOutcome (asyncRequest id strand onDone k (some act) args) t rest s₁ m s := by
  obtain ⟨mv, hm, he, rfl⟩ := pool_step hlook
  obtain ⟨action, hst, hfr⟩ := hm.lookedUp_goes hs (Prod.mk.inj he).2.symm
  obtain ⟨act, rfl⟩ := stored_nonempty h₀ hst
  refine ⟨act, hst, ?_⟩
  have h₁ := h₀.next trivial hm.step_eq
  refine startAt_invariant (J := fun m s => AsyncOutcome
    (asyncRequest id strand onDone k (some act) args) t rest (s₀.apply t mv) m s) ?_ ?_ h
  · have hstack : (s₀.apply t mv).stack t =
        .schedule (asyncRequest id strand onDone k (some act) args) :: rest := by
      rw [Sys.apply_stack_self, hs, hfr]
      rfl
    have hpath : AsyncPath (n := n) (asyncRequest id strand onDone k (some act) args) []
        (.schedule (asyncRequest id strand onDone k (some act) args)) :=
      .placing rfl (fun a ha => absurd ha List.not_mem_nil) (by simp [Frame.stepsLeft])
    exact .inl ⟨_, hstack, hpath, hpath.waits h₁ hn hstack⟩
  · intro m s u i mv' hrun ih _ hm'
    exact ih.step hrun ((h₁.append hrun).next trivial hm'.step_eq) hn rfl hm'

/-- A client comes to `asyncCall`. -/
def asyncEntered : History .unit 1 × Sys .unit 1 :=
  (pool .unit 1).drive (fun _ _ _ => true)
    ((Tid.client 0).calls (.registerInterfaceFor "a" () (some 0)) 3 ++
      (Tid.client 0).calls (.asyncCall "a" none ⟨(), ()⟩) 0)

def asyncLookedUp : Sys .unit 1 :=
  asyncEntered.2.apply (.client 0) ⟨.lookedUp 0 "a" ⟨(), ()⟩,
    [.schedule (asyncRequest "a" "" none 0 (some ⟨(), 0⟩) ⟨(), ()⟩)], none, none⟩

/-- It returns while another client unregisters the service. -/
def asyncDone : History .unit 1 × Sys .unit 1 :=
  ((pool .unit 1).startAt asyncLookedUp).drive (fun _ _ _ => true)
    ((Tid.client 0).steps 3 ++ (Tid.client 1).calls (.unRegiterInterface "a") 2 ++
      (Tid.client 0).steps 2)

theorem async_call_once_asyncDone : ∃ p a q, asyncDone.1 = p ++ (.client 0, a) :: q ∧
    AsyncReturned (asyncRequest "a" "" none 0 (some ⟨(), 0⟩) ⟨(), ()⟩)
      (own (.client 0) (p ++ [(.client 0, a)])) := by
  have h₀ : (pool .unit 1).Run AnyStep asyncEntered.1 asyncEntered.2 :=
    run_drive (fun _ _ _ _ => trivial) _
  have h : ((pool .unit 1).startAt asyncLookedUp).Run AnyStep asyncDone.1 asyncDone.2 :=
    run_drive (fun _ _ _ _ => trivial) _
  have hs : asyncEntered.2.stack (.client 0) =
      [.checkAndInvoke "a" (createAsyncNonBlockProp none "") ⟨(), ()⟩] := rfl
  have hlook : (pool .unit 1).step asyncEntered.2 (.client 0, .run) =
      some ((.client 0, .lookedUp 0 "a" ⟨(), ()⟩), asyncLookedUp) := rfl
  have hend : asyncDone.2.stack (.client 0) = [] := rfl
  obtain ⟨act, hact, hout⟩ := async_call_once (by decide) h₀ hs hlook h
  have hstored : asyncEntered.2.mem.registry.actionMapping "a" = some (some ⟨(), 0⟩, "v") := rfl
  obtain ⟨hsome, -⟩ := Prod.mk.inj (Option.some.inj (hstored.symm.trans hact))
  obtain rfl := Option.some.inj hsome
  rcases hout with ⟨f, hs', -⟩ | ⟨p, a, q, s', hpq, -, -, hret, -⟩
  · rw [hend] at hs'
    cases hs'
  · exact ⟨p, a, q, hpq, hret⟩

end ServiceLib
