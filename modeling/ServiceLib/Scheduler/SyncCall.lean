import ServiceLib.Model.Callbacks
import ServiceLib.Scheduler.Dispatch

namespace ServiceLib

open Machine

variable {T : ArgTypes} {n : Nat} {ok : History T n → Sys T n → Tid n × Choice T n → Prop}
  {tr l m : History T n} {s s₀ s₁ : Sys T n} {t : Tid n} {i : Choice T n} {mv : Move T n}

/-- The registry holds no empty action. -/
theorem stored_nonempty (h : (pool T n).Run ok tr s) {id : String} {st : CallbackType T × String}
    (hst : s.mem.registry.actionMapping id = some st) : ∃ act, st.1 = some act := by
  revert id st
  refine pool_invariant (J := fun _ s => ∀ {id st},
    s.mem.registry.actionMapping id = some st → ∃ act, st.1 = some act) ?_ ?_ h
  · intro id st hst
    cases hst
  · intro tr s t i mv _ ih _ hm id st hst
    rw [Sys.apply_mem, Mem.perform_registry] at hst
    cases ha : mv.action with
    | stored id' st' =>
      rw [ha] at hst
      simp only [Action.onRegistry, Registry.store_actionMapping, Function.update_apply] at hst
      split at hst
      · obtain rfl := Option.some.inj hst
        obtain ⟨act, typeId, rest, -, rfl⟩ := hm.stored_inv ha
        exact ⟨act, rfl⟩
      · exact ih hst
    | erased id' =>
      rw [ha] at hst
      simp only [Action.onRegistry, Registry.eraseAction_actionMapping, Function.update_apply]
        at hst
      split at hst
      · cases hst
      · exact ih hst
    | _ => exact ih (by simpa [ha] using hst)

/-- The steps of one whole call of a function object, and what it returned. -/
def Answers (c : Callable T) (seg : List (Action T n)) (b : Bool) : Prop :=
  ∃ e body, c.opening = some e ∧ seg = e :: (body ++ [.returned b]) ∧
    Balanced Action.opens Action.closes body

theorem Answers.runs {c : Callable T} {seg : List (Action T n)} {b : Bool} (h : Answers c seg b) :
    Runs c seg := by
  obtain ⟨e, body, he, hseg, hbody⟩ := h
  exact ⟨e, body, b, he, hseg, hbody⟩

/-- The last step of a function object leaves its answer. -/
theorem InRun.answers {c : Callable T} {e : Action T n} {seg : List (Action T n)}
    {f : List (Frame T n)} {rest : List (Frame T n)} {r : Outcome} (h : InRun c seg f r)
    (hc : c.plain = true) (he : c.opening = some e) (hf : f ≠ []) (hs : s.stack t = f ++ rest)
    (hm : Moves s t i mv) (hend : mv.frames ++ f.tail = []) :
    ∃ b, Answers c (seg ++ [mv.action]) b ∧ (s.apply t mv).result t = .ret b := by
  have hlast := h.step hc hf hs hm
  rw [hend] at hlast
  rcases hlast.ended with ⟨e', body, b, he', hseg, hbody⟩ | ⟨hno, -⟩
  · have ha : mv.action = .returned b := by
      rw [← List.cons_append] at hseg
      exact List.singleton_inj.mp (List.append_inj' hseg rfl).2
    refine ⟨b, ⟨e', body, he', hseg, hbody⟩, ?_⟩
    rw [Sys.apply_result_self]
    cases hm <;> cases ha
    rfl
  · rw [he] at hno
    cases hno

/-- A synchronous call that has returned: the action ran once, then `onDone`, if there is one, ran
once; the two further steps are the tests of `SyncWorker::doJob`. -/
inductive SyncReturned (c : Callable T) : Option ClientFn → List (Action T n) → Bool → Prop
  | plain {seg b} (h : Answers c seg b) : SyncReturned c none (seg ++ [.tau]) b
  | done {f seg dseg b} (h : Answers c seg b) (hd : Runs (.client f) dseg) :
      SyncReturned c (some f) (seg ++ .tau :: (dseg ++ [.tau])) b

/-- How far a synchronous call has come: the caller's steps so far, the functions above the caller
and what the last one ended with. -/
inductive SyncPath (c : Callable T) (onDone : Option ClientFn) :
    List (Action T n) → List (Frame T n) → Outcome → Prop
  | action {seg l r} (h : InRun c seg l r) (hl : l ≠ []) :
      SyncPath c onDone seg (l ++ [.syncOnDone onDone]) r
  | acted {seg b} (h : Answers c seg b) : SyncPath c onDone seg [.syncOnDone onDone] (.ret b)
  | done {f seg b dseg l r} (hf : onDone = some f) (h : Answers c seg b)
      (hd : InRun (.client f) dseg l r) (hl : l ≠ []) :
      SyncPath c onDone (seg ++ .tau :: dseg) (l ++ [.syncReturn (.ret b)]) r
  | back {f seg b dseg r} (hf : onDone = some f) (h : Answers c seg b)
      (hd : Runs (.client f) dseg) :
      SyncPath c onDone (seg ++ .tau :: dseg) [.syncReturn (.ret b)] r

theorem SyncPath.ne_nil {c : Callable T} {onDone : Option ClientFn} {seg : List (Action T n)}
    {f : List (Frame T n)} {r : Outcome} (h : SyncPath c onDone seg f r) : f ≠ [] := by
  cases h <;> simp

/-- One step of the caller takes the call further or lets it return. -/
theorem SyncPath.step {c : Callable T} {e : Action T n} {onDone : Option ClientFn}
    {seg : List (Action T n)} {f rest : List (Frame T n)}
    (h : SyncPath c onDone seg f (s.result t)) (hc : c.plain = true) (he : c.opening = some e)
    (hs : s.stack t = f ++ rest) (hm : Moves s t i mv) :
    SyncPath c onDone (seg ++ [mv.action]) (mv.frames ++ f.tail) ((s.apply t mv).result t) ∨
      mv.frames ++ f.tail = [] ∧ ∃ b, SyncReturned c onDone (seg ++ [mv.action]) b ∧
        (s.apply t mv).result t = .ret b := by
  generalize hr : s.result t = r at h
  cases h with
  | @action _ l _ h hl =>
    rw [List.append_assoc] at hs
    refine .inl ?_
    rw [List.tail_append_of_ne_nil hl, ← List.append_assoc]
    by_cases hend : mv.frames ++ l.tail = []
    · obtain ⟨b, hans, hres⟩ := h.answers hc he hl hs hm hend
      rw [hend, hres]
      exact .acted hans
    · exact .action (h.step hc hl hs hm) hend
  | @acted _ b h =>
    cases onDone with
    | none =>
      have hnext : s.frameNext t (.syncOnDone none) = some ⟨.tau, [], none, none⟩ := by
        simp [Sys.frameNext, Sys.syncOnDoneNext, hr]
      obtain rfl := hm.eq_of_frame hs (by simp) hnext
      exact .inr ⟨rfl, b, .plain h, by rw [Sys.apply_result_self, hr]; rfl⟩
    | some g =>
      have hnext : s.frameNext t (.syncOnDone (some g)) =
          some ⟨.tau, [.invoke (.client g), .syncReturn (.ret b)], none, none⟩ := by
        simp [Sys.frameNext, Sys.syncOnDoneNext, hr]
      obtain rfl := hm.eq_of_frame hs (by simp) hnext
      have hstart : InRun (T := T) (n := n) (.client g) [] [.invoke (.client g)] (.ret b) :=
        .start
      refine .inl ?_
      rw [Sys.apply_result_self, hr]
      exact .done rfl h hstart (by simp)
  | @done g seg b dseg l _ hf h hd hl =>
    rw [List.append_assoc] at hs
    refine .inl ?_
    rw [List.tail_append_of_ne_nil hl, ← List.append_assoc, List.append_assoc seg,
      List.cons_append]
    have hnext := hd.step rfl hl hs hm
    by_cases hend : mv.frames ++ l.tail = []
    · rw [hend] at hnext ⊢
      rcases hnext.ended with hruns | ⟨hno, -⟩
      · exact .back hf h hruns
      · cases hno
    · exact .done hf h hnext hend
  | @back g seg b dseg _ hf h hd =>
    subst hf
    obtain rfl := hm.eq_of_frame hs (by simp) rfl
    refine .inr ⟨rfl, b, ?_, Sys.apply_result_self⟩
    rw [List.append_assoc, List.cons_append]
    exact .done h hd

/-- What has become of a synchronous call made at the start of the history: it is still going on
above its caller, or it has returned at one of the steps. -/
def SyncOutcome (c : Callable T) (onDone : Option ClientFn) (t : Tid n) (rest : List (Frame T n))
    (s₁ : Sys T n) (m : History T n) (s : Sys T n) : Prop :=
  (∃ f, f ≠ [] ∧ s.stack t = f ++ rest ∧ SyncPath c onDone (own t m) f (s.result t)) ∨
    ∃ p a q s' b, m = p ++ (t, a) :: q ∧
      ((pool T n).startAt s₁).Run AnyStep (p ++ [(t, a)]) s' ∧ s'.stack t = rest ∧
      SyncReturned c onDone (own t (p ++ [(t, a)])) b ∧ s'.result t = .ret b

theorem SyncOutcome.step {c : Callable T} {e : Action T n} {onDone : Option ClientFn}
    {rest : List (Frame T n)} (h : SyncOutcome c onDone t rest s₁ m s)
    (hrun : ((pool T n).startAt s₁).Run AnyStep m s) (hc : c.plain = true)
    (he : c.opening = some e) {u : Tid n} (hm : Moves s u i mv) :
    SyncOutcome c onDone t rest s₁ (m ++ [(u, mv.action)]) (s.apply u mv) := by
  rcases h with ⟨f, hf, hs, hpath⟩ | ⟨p, a, q, s', b, rfl, hrun', hs', hret, hres⟩
  · by_cases hu : u = t
    · subst hu
      have hstack : (s.apply u mv).stack u = mv.frames ++ f.tail ++ rest := by
        rw [Sys.apply_stack_self, hs, List.tail_append_of_ne_nil hf, List.append_assoc]
      rcases hpath.step hc he hs hm with hnext | ⟨hend, b, hret, hres⟩
      · exact .inl ⟨_, hnext.ne_nil, hstack, own_snoc_self u m mv.action ▸ hnext⟩
      · rw [hend, List.nil_append] at hstack
        exact .inr ⟨m, mv.action, [], s.apply u mv, b, rfl, hrun.next trivial hm.step_eq, hstack,
          own_snoc_self u m mv.action ▸ hret, hres⟩
    · refine .inl ⟨f, hf, (Sys.apply_stack_other mv (Ne.symm hu)).trans hs, ?_⟩
      rw [own_snoc_other hu, Sys.apply_result_other (Ne.symm hu)]
      exact hpath
  · exact .inr ⟨p, a, q ++ [(u, mv.action)], s', b, by simp, hrun', hs', hret, hres⟩

/-- What an accepted lookup goes on with. -/
theorem Moves.lookedUp_goes {id : String} {prop : CallProperty} {args : ParamArgs T}
    {rest : List (Frame T n)} {k : Nat} (hm : Moves s t i mv)
    (hs : s.stack t = .checkAndInvoke id prop args :: rest)
    (ha : mv.action = .lookedUp k id args) :
    ∃ action, s.mem.registry.actionMapping id = some (action, args.getType) ∧
      mv.frames = if prop.async then
        [.schedule ⟨id, some (.bound k action args), prop.onCallDone.map .client,
          prop.waitForDone, prop.strand⟩]
      else [.invoke (.bound k action args), .syncOnDone prop.onCallDone] := by
  have hnext := Sys.next_frame hm.next_eq hs (by simp)
  simp only [Sys.frameNext, Sys.checkAndInvokeNext] at hnext
  split at hnext
  · split at hnext
    · cases hnext
      cases ha
    · rename_i action storedType hst
      split at hnext
      · cases hnext
        cases ha
      · rename_i hty
        cases hnext
        cases ha
        exact ⟨action, by rw [hst, not_ne_iff.mp hty], rfl⟩
  · cases hnext

/-- A synchronous call is made once, provided that the action does not throw: client code returns in
this machine. Whatever the other threads do, and whatever action and `onDone` call in their turn,
an accepted call with `async == false` runs the action registered at its lookup once and then its
own `onDone`, if there is one, once, both on the thread of the caller, which does nothing else
meanwhile; it returns right after, with what the action returned. -/
theorem sync_call_once {id : String} {prop : CallProperty} {args : ParamArgs T}
    {rest : List (Frame T n)} {k : Nat} (h₀ : (pool T n).Run AnyStep l s₀)
    (hs : s₀.stack t = .checkAndInvoke id prop args :: rest) (hsync : prop.async = false)
    (hlook : (pool T n).step s₀ (t, i) = some ((t, .lookedUp k id args), s₁))
    (h : ((pool T n).startAt s₁).Run AnyStep m s) :
    ∃ act, s₀.mem.registry.actionMapping id = some (some act, args.getType) ∧
      SyncOutcome (.bound k (some act) args) prop.onCallDone t rest s₁ m s := by
  obtain ⟨mv, hm, he, rfl⟩ := pool_step hlook
  have ha : mv.action = .lookedUp k id args := (Prod.mk.inj he).2.symm
  obtain ⟨action, hst, hfr⟩ := hm.lookedUp_goes hs ha
  obtain ⟨act, rfl⟩ := stored_nonempty h₀ hst
  rw [hsync] at hfr
  refine ⟨act, hst, ?_⟩
  refine startAt_invariant (J := fun m s => SyncOutcome (.bound k (some act) args)
    prop.onCallDone t rest (s₀.apply t mv) m s) (.inl ?_) ?_ h
  · refine ⟨[.invoke (.bound k (some act) args), .syncOnDone prop.onCallDone], by simp, ?_,
      .action .start (by simp)⟩
    rw [Sys.apply_stack_self, hs, hfr]
    rfl
  · intro m s u i mv hrun ih _ hm
    exact ih.step hrun rfl rfl hm

/-- A client calls a service synchronously, with `onDone`. -/
def syncEntered : History .unit 1 × Sys .unit 1 :=
  (pool .unit 1).drive (fun _ _ _ => true)
    ((Tid.client 0).calls (.registerInterfaceFor "a" () (some 0)) 3 ++
      (Tid.client 0).calls (.interfaceCall "a" ⟨false, false, some 1, ""⟩ ⟨(), ()⟩) 0)

def syncBegun : Sys .unit 1 :=
  let c := Callable.bound 0 (some ⟨(), 0⟩) ⟨(), ()⟩
  syncEntered.2.apply (.client 0)
    ⟨.lookedUp 0 "a" ⟨(), ()⟩, [.invoke c, .syncOnDone (some 1)], none, none⟩

/-- The action asks whether its service is registered, another client looks on, and all return. -/
def syncDone : History .unit 1 × Sys .unit 1 :=
  let c := Tid.client 0
  ((pool .unit 1).startAt syncBegun).drive (fun _ _ _ => true)
    (c.steps 1 ++ c.calls (.isServiceRegistered "a") 1 ++
      (Tid.client 1).calls (.isServiceRegistered "b") 1 ++ c.returns 2 ++ c.returns 1)

theorem sync_call_once_syncDone : ∃ p a q b, syncDone.1 = p ++ (.client 0, a) :: q ∧
    SyncReturned (.bound 0 (some ⟨(), 0⟩) ⟨(), ()⟩) (some 1)
      (own (.client 0) (p ++ [(.client 0, a)])) b := by
  have h₀ : (pool .unit 1).Run AnyStep syncEntered.1 syncEntered.2 :=
    run_drive (fun _ _ _ _ => trivial) _
  have h : ((pool .unit 1).startAt syncBegun).Run AnyStep syncDone.1 syncDone.2 :=
    run_drive (fun _ _ _ _ => trivial) _
  have hs : syncEntered.2.stack (.client 0) =
      [.checkAndInvoke "a" ⟨false, false, some 1, ""⟩ ⟨(), ()⟩] := rfl
  have hlook : (pool .unit 1).step syncEntered.2 (.client 0, .run) =
      some ((.client 0, .lookedUp 0 "a" ⟨(), ()⟩), syncBegun) := rfl
  have hend : syncDone.2.stack (.client 0) = [] := rfl
  obtain ⟨act, hact, hout⟩ := sync_call_once h₀ hs rfl hlook h
  have hstored : syncEntered.2.mem.registry.actionMapping "a" = some (some ⟨(), 0⟩, "v") := rfl
  obtain ⟨hsome, -⟩ := Prod.mk.inj (Option.some.inj (hstored.symm.trans hact))
  obtain rfl := Option.some.inj hsome
  rcases hout with ⟨f, hf, hs', -⟩ | ⟨p, a, q, s', b, hpq, -, -, hret, -⟩
  · rw [hend, List.append_nil] at hs'
    exact absurd hs'.symm hf
  · exact ⟨p, a, q, b, hpq, hret⟩

end ServiceLib
