import ServiceLib.Pool.Drain
import ServiceLib.Scheduler.Locks
import ServiceLib.Scheduler.Served

namespace ServiceLib

open Machine

variable {T : ArgTypes} {n : Nat} {σ : Type*} {c : ServiceCall T n σ} {s s₀ s' : Sys T n}
  {t u : Tid n} {i : Choice T n} {mv : Move T n} {m m' : History T n} {rest : List (Frame T n)}
  {w : Fin n} {j : JobContext T} {k : Nat} {prop : CallProperty}

/-- The action changes no registration, stops no worker and locks no queue. -/
structure Action.Keeps (a : Action T n) : Prop where
  registry : ∀ r, a.onRegistry r = r := by intros; rfl
  active : ∀ w b, a.onActive w b = b := by intros; rfl
  queueLock : ∀ t w o, a.onQueueLock t w o = o := by intros; rfl

namespace ServiceCall

/-- Nor does it touch the service. -/
structure Calm (c : ServiceCall T n σ) (a : Action T n) : Prop extends a.Keeps where
  effect : c.effect a = none

/-- A run of the call in which no thread is in a function of the service. -/
structure Rests (c : ServiceCall T n σ) (s₀ : Sys T n) (prop : CallProperty) (m : History T n)
    (s : Sys T n) : Prop where
  run : ((pool T n).startAt s₀).Run (c.Undisturbed prop) m s
  called : m ≠ []
  idle : ∀ u, c.inBody u m = false
  registered : s.mem.registry.actionMapping c.id = some (some c.action, c.args.getType)

theorem idle_snoc (hidle : ∀ v, v ≠ u → c.inBody v m = false) {a : Action T n}
    (ha : c.effect a = none) (v : Tid n) : c.inBody v (m ++ [(u, a)]) = false := by
  by_cases hv : v = u
  · rw [hv, inBody_snoc_self, ha]
    rfl
  · rw [inBody_snoc_other c (Ne.symm hv), hidle v hv]

theorem Rests.start (hclient : s₀.AtClient c.caller) (prop : CallProperty)
    (hreg : s₀.mem.registry.actionMapping c.id = some (some c.action, c.args.getType)) :
    c.Rests s₀ prop [(c.caller, .called (c.op prop))]
      (s₀.onStack c.caller (.checkAndInvoke c.id prop c.args :: s₀.stack c.caller)) := by
  obtain ⟨mv, hm⟩ := hclient.moves (c.op prop)
  obtain ⟨ha, happly⟩ := hm.call_eq
  have hinit : ((pool T n).startAt s₀).Run (c.Undisturbed prop) [] s₀ := .start
  have hok : c.Undisturbed prop [] s₀ (c.caller, .call (c.op prop)) := by
    refine ⟨fun _ => rfl, fun h => absurd rfl h, fun h => absurd h (by simp [inBody, own]), hreg,
      fun _ _ _ => .inl rfl⟩
  have hrun := hinit.next hok hm.step_eq
  rw [ha, happly] at hrun
  exact ⟨hrun, by simp, idle_snoc (m := []) (fun _ _ => rfl) rfl, hreg⟩

theorem Rests.step (h : c.Rests s₀ prop m s) (hm : Moves s u i mv) (hi : u = c.caller → i = .run)
    (hcalm : c.Calm mv.action) :
    c.Rests s₀ prop (m ++ [(u, mv.action)]) (s.apply u mv) := by
  refine ⟨h.run.next ?_ hm.step_eq, by simp,
    idle_snoc (fun v _ => h.idle v) hcalm.effect, ?_⟩
  · refine ⟨fun hm => absurd hm h.called, fun _ hu _ => hi hu, fun hb => ?_, h.registered,
      fun mv' hmv' heff => ?_⟩
    · exact absurd (h.idle u) (by simp [hb])
    · obtain rfl := Option.some.inj (hm.next_eq.symm.trans hmv')
      exact absurd hcalm.effect heff
  · rw [Sys.apply_mem, Mem.perform_registry, hcalm.registry]
    exact h.registered

theorem Rests.goes (h : c.Rests s₀ prop m s) (hg : Goes u s m' s')
    (hcalm : ∀ e ∈ m', c.Calm e.2) : c.Rests s₀ prop (m ++ m') s' := by
  induction hg with
  | start => exact (List.append_nil m).symm ▸ h
  | next _ hm ih =>
    obtain ⟨hold, hnew⟩ := List.forall_mem_append.mp hcalm
    rw [← List.append_assoc]
    exact (ih hold).step hm (fun _ => rfl) (hnew _ (List.mem_singleton.mpr rfl))

/-- The thread may run functions of the service. -/
def Mine (c : ServiceCall T n σ) (m : History T n) (s : Sys T n) (u : Tid n) : Prop :=
  u = c.caller ∨ ∃ w j strand, u = .worker w ∧ (c.caller, .pushed w j strand) ∈ m ∧
    (s.pc w = .inAction j ∨ s.pc w = .inOnDone j)

/-- A function of the service is entered and returns its answer. -/
theorem Rests.body (h : c.Rests s₀ prop m s) (hmine : c.Mine m s u) {a : Action T n}
    {e : Effect T} (hm : Moves s u .run ⟨a, [.user], none, none⟩) (heff : c.effect a = some e)
    (hkeeps : a.Keeps) :
    ∃ b, c.Rests s₀ prop (m ++ [(u, a)] ++ [(u, .returned b)])
      ((s.apply u ⟨a, [.user], none, none⟩).apply u ⟨.returned b, [], some (.ret b), none⟩) := by
  have hrun : ((pool T n).startAt s₀).Run (c.Undisturbed prop) (m ++ [(u, a)])
      (s.apply u ⟨a, [.user], none, none⟩) := by
    refine h.run.next ?_ hm.step_eq
    refine ⟨fun hm => absurd hm h.called, fun _ _ _ => rfl, fun hb => ?_, h.registered,
      fun _ _ _ => hmine⟩
    exact absurd (h.idle u) (by simp [hb])
  have hbody : c.inBody u (m ++ [(u, a)]) = true := by
    rw [inBody_snoc_self, heff]
    rfl
  have hregistered : (s.apply u ⟨a, [.user], none, none⟩).mem.registry.actionMapping c.id =
      some (some c.action, c.args.getType) := by
    rw [Sys.apply_mem, Mem.perform_registry, hkeeps.registry]
    exact h.registered
  let b := (c.after (c.effects (m ++ [(u, a)]))).1
  have hs : (s.apply u ⟨a, [.user], none, none⟩).stack u = .user :: (s.stack u).tail :=
    Sys.apply_stack_self ..
  have hret := Moves.ret b hs
  refine ⟨b, hrun.next ?_ hret.step_eq, by simp,
    idle_snoc (fun v hv => ?_) rfl, ?_⟩
  · refine ⟨fun hm => absurd hm (by simp), fun _ hu hb => ?_, fun _ => rfl, hregistered,
      fun mv' hmv' heff' => ?_⟩
    · have hu : u = c.caller := hu
      rw [← hu, hbody] at hb
      cases hb
    · obtain rfl := Option.some.inj (hret.next_eq.symm.trans hmv')
      exact absurd rfl heff'
  · rw [inBody_snoc_other c (Ne.symm hv), h.idle]
  · rw [Sys.apply_mem, Mem.perform_registry]
    exact hregistered

/-- The call can come to a state where the caller has `l` in progress and the outcome `r`. -/
def Calls (c : ServiceCall T n σ) (s₀ : Sys T n) (prop : CallProperty) (l : List (Frame T n))
    (r : Outcome) : Prop :=
  ∃ m s, c.Rests s₀ prop m s ∧ s.stack c.caller = l ++ s₀.stack c.caller ∧
    s.result c.caller = r

theorem Calls.next {f : Frame T n} {l : List (Frame T n)} {r : Outcome}
    (h : c.Calls s₀ prop (f :: l) r)
    (hm : ∀ s : Sys T n, s.stack c.caller = f :: (l ++ s₀.stack c.caller) →
      s.result c.caller = r → Moves s c.caller .run mv) (hcalm : c.Calm mv.action) :
    c.Calls s₀ prop (mv.frames ++ l) (mv.result.getD r) := by
  obtain ⟨m, s, h, hs, hr⟩ := h
  refine ⟨_, _, h.step (hm s hs hr) (fun _ => rfl) hcalm, ?_, ?_⟩
  · rw [Sys.apply_stack_self, hs, List.append_assoc]
    rfl
  · rw [Sys.apply_result_self, hr]

theorem Calls.body {f : Frame T n} {l : List (Frame T n)} {r : Outcome} {a : Action T n}
    {e : Effect T} (h : c.Calls s₀ prop (f :: l) r)
    (hm : ∀ s : Sys T n, s.stack c.caller = f :: (l ++ s₀.stack c.caller) →
      Moves s c.caller .run ⟨a, [.user], none, none⟩) (heff : c.effect a = some e)
    (hkeeps : a.Keeps) : ∃ b, c.Calls s₀ prop l (.ret b) := by
  obtain ⟨m, s, h, hs, -⟩ := h
  obtain ⟨b, h⟩ := h.body (.inl rfl) (hm s hs) heff hkeeps
  refine ⟨b, _, _, h, ?_, Sys.apply_result_self ..⟩
  rw [Sys.apply_stack_self, Sys.apply_stack_self, hs]
  rfl

end ServiceCall

/-- What decides the next step of a worker: its run loop, the functions in progress on its thread,
their last outcome and its queue. -/
structure WorkerView (T : ArgTypes) (n : Nat) where
  pc : WorkerPc T
  stack : List (Frame T n)
  result : Outcome
  calls : List (JobContext T)

/-- The view after a step of the worker. -/
def WorkerView.after (v : WorkerView T n) (w : Fin n) (mv : Move T n) : WorkerView T n where
  pc := mv.pc.getD v.pc
  stack := mv.frames ++ v.stack.tail
  result := mv.result.getD v.result
  calls := mv.action.onCalls w v.calls

/-- An active worker whose queue nobody has locked shows the view. -/
structure Sys.Shows (s : Sys T n) (w : Fin n) (v : WorkerView T n) : Prop where
  pc : s.pc w = v.pc
  stack : s.stack (.worker w) = v.stack
  result : s.result (.worker w) = v.result
  calls : (s.worker w).calls = v.calls
  active : (s.worker w).active = true
  queueLock : (s.worker w).queueLock = none
  guarded : Guarded s w

theorem Sys.Shows.step {v : WorkerView T n} (h : s.Shows w v) (hm : Moves s (.worker w) i mv)
    (hkeeps : mv.action.Keeps) : (s.apply (.worker w) mv).Shows w (v.after w mv) where
  pc := by
    rw [Sys.apply_pc]
    cases hp : mv.pc <;> simp [WorkerView.after, hp, h.pc]
  stack := by rw [Sys.apply_stack_self, h.stack, WorkerView.after]
  result := by rw [Sys.apply_result_self, h.result, WorkerView.after]
  calls := by rw [Sys.apply_calls, h.calls, WorkerView.after]
  active := by rw [Sys.apply_active, hkeeps.active, h.active]
  queueLock := by rw [Sys.apply_queueLock, hkeeps.queueLock, h.queueLock]
  guarded := h.guarded.step hm

theorem Sys.Shows.free {v : WorkerView T n} (h : s.Shows w v) (hp : v.pc.executes = false) :
    (s.worker w).executingLock = none := by
  rw [h.guarded.lock, h.pc, hp]
  rfl

namespace ServiceCall

/-- A function object that has nothing to do with the service. -/
inductive Harmless (c : ServiceCall T n σ) : Callable T → Prop
  | client {f : ClientFn} (h : c.onDone ≠ some f) : Harmless c (.client f)
  | bound {k : Nat} {a : TypedAction T} {p : ParamArgs T} (h : a.func ≠ c.action.func) :
      Harmless c (.bound k (some a) p)
  | wake {k : Nat} : Harmless c (.syncDone none k)
  | wraps {d : Callable T} {k : Nat} (h : Harmless c d) : Harmless c (.syncDone (some d) k)

/-- A job that has nothing to do with the service. -/
structure HarmlessJob (c : ServiceCall T n σ) (j : JobContext T) : Prop where
  action : ∃ d, j.action = some d ∧ c.Harmless d
  onDone : ∀ d, j.onDone = some d → c.Harmless d

/-- The blocking call can come to a state where the caller waits for the job it has queued and the
worker shows the view. -/
def Comes (c : ServiceCall T n σ) (s₀ : Sys T n) (prop : CallProperty) (w : Fin n)
    (j : JobContext T) (k : Nat) (v : WorkerView T n) : Prop :=
  ∃ m s, c.Rests s₀ prop m s ∧ (∃ strand, (c.caller, .pushed w j strand) ∈ m) ∧
    s.stack c.caller = .syncWait k :: s₀.stack c.caller ∧ s.Shows w v

section

variable {v : WorkerView T n} {d : Callable T} {l : List (Frame T n)} {r : Outcome}
  {js : List (JobContext T)} {p : WorkerPc T} {j' : JobContext T}

theorem Comes.next (h : c.Comes s₀ prop w j k v) (hw : c.caller ≠ .worker w)
    (hm : ∀ s : Sys T n, s.Shows w v → Moves s (.worker w) i mv) (hcalm : c.Calm mv.action) :
    c.Comes s₀ prop w j k (v.after w mv) := by
  obtain ⟨m, s, h, ⟨strand, hmem⟩, hwaits, hshows⟩ := h
  refine ⟨_, _, h.step (hm s hshows) (fun hu => absurd hu.symm hw) hcalm,
    ⟨strand, List.mem_append_left _ hmem⟩, ?_, hshows.step (hm s hshows) hcalm.toKeeps⟩
  rw [Sys.apply_stack_other mv hw]
  exact hwaits

/-- The worker runs a function of the service for the job. -/
theorem Comes.body {f : Frame T n} {a : Action T n} {e : Effect T}
    (h : c.Comes s₀ prop w j k ⟨p, f :: l, r, js⟩) (hw : c.caller ≠ .worker w)
    (hp : p = .inAction j ∨ p = .inOnDone j)
    (hm : ∀ s : Sys T n, s.Shows w ⟨p, f :: l, r, js⟩ →
      Moves s (.worker w) .run ⟨a, [.user], none, none⟩)
    (heff : c.effect a = some e) (hkeeps : a.Keeps) (hcalls : a.onCalls w js = js) :
    ∃ b, c.Comes s₀ prop w j k ⟨p, l, .ret b, js⟩ := by
  obtain ⟨m, s, h, ⟨strand, hmem⟩, hwaits, hshows⟩ := h
  have hmine : c.Mine m s (.worker w) := by
    refine .inr ⟨w, j, strand, rfl, hmem, ?_⟩
    rw [hshows.pc]
    exact hp
  obtain ⟨b, h⟩ := h.body hmine (hm s hshows) heff hkeeps
  have hentered := hshows.step (hm s hshows) hkeeps
  have hreturned := hentered.step (.ret b hentered.stack)
    {}
  refine ⟨b, _, _, h, ⟨strand, List.mem_append_left _ (List.mem_append_left _ hmem)⟩, ?_, ?_⟩
  · rw [Sys.apply_stack_other _ hw, Sys.apply_stack_other _ hw]
    exact hwaits
  · exact hcalls ▸ hreturned

/-- A harmless function object returns. -/
theorem Comes.invoke (hd : c.Harmless d) (hw : c.caller ≠ .worker w)
    (h : c.Comes s₀ prop w j k ⟨p, .invoke d :: l, r, js⟩) :
    ∃ b, c.Comes s₀ prop w j k ⟨p, l, .ret b, js⟩ := by
  induction hd generalizing l r with
  | client hne =>
    have hentered := h.next hw (fun _ hs => .invokeClient hs.stack)
      { effect := if_neg hne }
    exact ⟨true, hentered.next hw (fun _ hs => .ret true hs.stack)
      { effect := rfl }⟩
  | bound hne =>
    have hentered := h.next hw (fun _ hs => .invokeBound hs.stack)
      { effect := if_neg hne }
    exact ⟨true, hentered.next hw (fun _ hs => .ret true hs.stack)
      { effect := rfl }⟩
  | wake =>
    have hfinish := h.next hw (fun _ hs => .invokeSyncEmpty hs.stack) { effect := rfl }
    exact ⟨true, hfinish.next hw (fun _ hs => .syncFinish hs.stack)
      { effect := rfl }⟩
  | wraps _ ih =>
    obtain ⟨b, hfinish⟩ := ih (h.next hw (fun _ hs => .invokeSync hs.stack) { effect := rfl })
    exact ⟨true, hfinish.next hw (fun _ hs => .syncFinish hs.stack)
      { effect := rfl }⟩

theorem Comes.dequeue (hp : p = .lock ∨ p = .asleep ∨ p = .relock) (hw : c.caller ≠ .worker w)
    (h : c.Comes s₀ prop w j k ⟨p, [], r, j' :: js⟩) :
    c.Comes s₀ prop w j k ⟨.acquire j', [], r, js⟩ := by
  have htaken := h.next hw
    (fun _ hs => .dequeue rfl hs.stack (hs.pc.symm ▸ hp) hs.queueLock hs.calls)
    { effect := rfl }
  simpa [WorkerView.after] using htaken

/-- A function of a callback that has nothing to do with the service. -/
inductive Passes (c : ServiceCall T n σ) : Frame T n → Prop
  | user : Passes c .user
  | invoke {d : Callable T} (h : c.Harmless d) : Passes c (.invoke d)
  | syncFinish {k : Nat} : Passes c (.syncFinish k)

end

/-- The worker is not stopped and will come to the next job: it is in no call of the library, and
neither the job it runs nor those in its queue have to do with the service. -/
structure Serves (c : ServiceCall T n σ) (s : Sys T n) (w : Fin n) : Prop where
  active : (s.worker w).active = true
  passes : ∀ f ∈ s.stack (.worker w), c.Passes f
  alive : ∀ j, s.pc w = .inAction j → s.stack (.worker w) = [] →
    ∃ b, s.result (.worker w) = .ret b
  current : ∀ j ∈ (s.pc w).current, c.HarmlessJob j
  queued : ∀ j ∈ (s.worker w).calls, c.HarmlessJob j

end ServiceCall

end ServiceLib
