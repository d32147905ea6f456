import ServiceLib.Scheduler.Unregister

namespace ServiceLib

open Machine

variable {T : ArgTypes} {n : Nat} {ok : History T n → Sys T n → Tid n × Choice T n → Prop}
  {tr : History T n} {s : Sys T n} {t u : Tid n} {i : Choice T n} {mv : Move T n}

/-- An id stays unregistered until somebody stores an action for it. -/
theorem Action.onRegistry_none {a : Action T n} {r : Registry (CallbackType T × String) ClientFn}
    {id : String} (hr : r.actionMapping id = none) (ha : ∀ st, a ≠ .stored id st) :
    (a.onRegistry r).actionMapping id = none := by
  cases a with
  | stored id' st =>
    have hid : id ≠ id' := by
      intro heq
      subst heq
      exact ha st rfl
    simp [Registry.store_actionMapping, Function.update_of_ne hid, hr]
  | erased id' =>
    by_cases hid : id = id'
    · simp [Registry.eraseAction_actionMapping, hid]
    · simp [Registry.eraseAction_actionMapping, Function.update_of_ne hid, hr]
  | _ => simp [hr]

theorem Moves.stored_canLock (hm : Moves s t i mv) {id : String} {st : CallbackType T × String}
    (ha : mv.action = .stored id st) : s.mem.mappingLock.canLock t = true := by
  cases hm <;> cases ha
  assumption

/-- Nobody stores an action while another thread owns `mappingLock_`. -/
theorem Moves.not_stored (hm : Moves s t i mv) (howner : s.mem.mappingLock.owner = some u)
    (hne : u ≠ t) (id : String) (st : CallbackType T × String) : mv.action ≠ .stored id st := by
  intro ha
  have hdepth := (RecursiveMutex.canLock_iff _ _).mp (hm.stored_canLock ha) u hne
  have hpos := (RecursiveMutex.owner_eq_some _ _).mp howner
  omega

/-- An id that is being unregistered is not registered. -/
theorem unregistering_erased (h : (pool T n).Run (fun _ _ i => UsesScheduler i) tr s)
    {id : String} {k : Nat} (hu : s.Unregistering u id k) :
    s.mem.registry.actionMapping id = none := by
  revert u id k
  refine pool_invariant (J := fun _ s => ∀ {u id k}, s.Unregistering u id k →
    s.mem.registry.actionMapping id = none) ?_ ?_ h
  · intro u id k hu
    exact absurd (fun f hf => absurd hf List.not_mem_nil) hu.not_clean
  · intro tr s t i mv hrun ih hok hm u id k hu
    rw [Sys.apply_mem, Mem.perform_registry]
    rcases hm.unregistering_inv hok (cancelShape hrun t) hu with ⟨k₀, hu₀, hreg⟩ | ⟨-, -, ha⟩
    · by_cases hut : u = t
      · rw [hreg hut]
        exact ih hu₀
      · exact Action.onRegistry_none (ih hu₀) (hm.not_stored (hu₀.owner hrun) hut id)
    · rw [ha]
      simp [Registry.eraseAction_actionMapping]

/-- The id was successfully unregistered and nobody has stored an action for it since. -/
def Gone (tr : History T n) (id : String) : Prop :=
  ∃ l r u, tr = l ++ (u, .unregistered id) :: r ∧ ∀ e ∈ r, ∀ st, e.2 ≠ .stored id st

theorem Gone.snoc_inv {id : String} {a : Action T n} (h : Gone (tr ++ [(t, a)]) id) :
    a = .unregistered id ∨ Gone tr id ∧ ∀ st, a ≠ .stored id st := by
  obtain ⟨l, r, u, htr, hr⟩ := h
  rcases List.eq_nil_or_concat r with rfl | ⟨r', e, rfl⟩
  · obtain ⟨-, he⟩ := List.append_inj' htr rfl
    have ha : a = .unregistered id := by simpa using congrArg (fun l => l.map Prod.snd) he
    exact .inl ha
  · have htr' : tr ++ [(t, a)] = (l ++ (u, .unregistered id) :: r') ++ [e] := by simpa using htr
    obtain ⟨hl, he⟩ := List.append_inj' htr' rfl
    obtain rfl : (t, a) = e := by simpa using he
    refine .inr ⟨⟨l, r', u, hl, fun e he' => hr e (by simp [he'])⟩, ?_⟩
    intro st
    exact hr (t, a) (by simp) st

theorem Moves.unregistered_inv (hm : Moves s t i mv) {id : String}
    (ha : mv.action = .unregistered id) : ∃ rest, s.stack t = .unregisterExit id :: rest := by
  cases hm <;> cases ha
  exact ⟨_, ‹_›⟩

/-- An id that is gone is not registered and nobody is unregistering it. -/
theorem gone_unregistered (h : (pool T n).Run (fun _ _ i => UsesScheduler i) tr s) {id : String}
    (hg : Gone tr id) :
    s.mem.registry.actionMapping id = none ∧ ∀ u k, ¬s.Unregistering u id k := by
  revert id
  refine pool_invariant (J := fun tr s => ∀ {id}, Gone tr id →
    s.mem.registry.actionMapping id = none ∧ ∀ u k, ¬s.Unregistering u id k) ?_ ?_ h
  · intro id hg
    obtain ⟨l, r, u, htr, -⟩ := hg
    simp at htr
  · intro tr s t i mv hrun ih hok hm id hg
    have hshape := cancelShape hrun t
    rw [Sys.apply_mem, Mem.perform_registry]
    rcases hg.snoc_inv with ha | ⟨hg, hst⟩
    · obtain ⟨rest, hstack⟩ := hm.unregistered_inv ha
      obtain ⟨id₀, k₀, hun⟩ : ∃ id k, s.Unregistering t id k := by
        apply hshape.resolve_left
        intro hclean
        have hf := hclean (.unregisterExit id) (by simp [hstack])
        simp [Frame.cancelling] at hf
      obtain ⟨ha₀, -, hclean⟩ | ⟨-, -, hne⟩ := hun.step hm
      · obtain rfl : id = id₀ := Action.unregistered.inj (ha.symm.trans ha₀)
        refine ⟨?_, fun u k hu => ?_⟩
        · rw [ha]
          exact unregistering_erased hrun hun
        · rcases hm.unregistering_inv hok hshape hu with ⟨k₁, hu₁, -⟩ | ⟨-, -, he⟩
          · obtain rfl : u = t :=
              Option.some.inj ((hu₁.owner hrun).symm.trans (hun.owner hrun))
            exact hu.not_clean hclean
          · simp [ha] at he
      · exact absurd ha (hne id)
    · obtain ⟨hnone, hno⟩ := ih hg
      refine ⟨Action.onRegistry_none hnone hst, ?_⟩
      intro u k hu
      rcases hm.unregistering_inv hok hshape hu with ⟨k₁, hu₁, -⟩ | ⟨-, hr, -⟩
      · exact hno u k₁ hu₁
      · simp [Registry.isRegistered, hnone] at hr

/-- An `unRegiterInterface` of the id is in progress and has still to visit the worker. -/
def Sys.pendingCancel (s : Sys T n) (id : String) (w : Fin n) : Bool :=
  match s.mem.mappingLock.owner with
  | none => false
  | some t =>
    match s.stack t with
    | .cancelLoop id' k :: _ => id' = id && k ≤ w
    | .cancelLock id' v :: _ | .cancelScan id' v _ :: _ => id' = id && v ≤ w
    | _ => false

/-- If the step pushes a job, its service is registered or a cancel will still find the job. -/
def PushesLive (s : Sys T n) (t : Tid n) : Bool :=
  match s.stack t with
  | .push w name _ _ _ :: _ => s.mem.registry.isRegistered name || s.pendingCancel name w
  | _ => true

theorem pendingCancel_sound (h : (pool T n).Run (fun _ _ i => UsesScheduler i) tr s)
    {id : String} {w : Fin n} (hp : s.pendingCancel id w = true) :
    ∃ u k, s.Unregistering u id k ∧ k ≤ w := by
  unfold Sys.pendingCancel at hp
  split at hp
  · simp at hp
  · rename_i t _
    rcases cancelShape h t with hclean | ⟨id₀, k₀, hun⟩
    · split at hp
      all_goals
        rename_i hs
        simp_all [Frame.cancelling]
    · have hplace : id₀ = id ∧ k₀ ≤ w := by
        obtain ⟨top, rest, htop, hs, -⟩ := hun
        cases htop <;> simp [hs] at hp
        all_goals exact hp
      exact ⟨t, k₀, hplace.1 ▸ hun, hplace.2⟩

/-- Every queued job belongs to a registered service or to one whose cancel is still to come. -/
def QueuedLive (s : Sys T n) : Prop :=
  ∀ w, ∀ j ∈ (s.worker w).calls, s.mem.registry.isRegistered j.id = true ∨
    ∃ u k, s.Unregistering u j.id k ∧ k ≤ w

/-- A registered service stays so, or its unregistration starts. -/
theorem Moves.registered_step (hm : Moves s t i mv) (hok : UsesScheduler (t, i) = true)
    (hshape : s.CancelShape t) {id : String} (hr : s.mem.registry.isRegistered id = true) :
    (s.apply t mv).mem.registry.isRegistered id = true ∨ (s.apply t mv).Unregistering t id 0 := by
  by_cases ha : mv.action = .erased id
  · rcases hshape with hno | ⟨id₀, k₀, hun⟩
    · rcases hm.enters_cancel hok hno with ⟨-, hne⟩ | ⟨id', -, ha', hun⟩
      · exact absurd ha (hne id)
      · obtain rfl : id = id' := Action.erased.inj (ha.symm.trans ha')
        exact .inr hun
    · rcases hun.step hm with ⟨hu, -, -⟩ | ⟨-, hreg, -⟩
      · simp [ha] at hu
      · refine .inl ?_
        rw [Sys.apply_mem, Mem.perform_registry, hreg]
        exact hr
  · refine .inl ?_
    rw [Sys.apply_mem, Mem.perform_registry]
    cases hact : mv.action with
    | stored id' st =>
      rw [Action.onRegistry, Registry.isRegistered_store, hr, Bool.or_true]
    | erased id' =>
      have hid : id ≠ id' := by
        intro heq
        subst heq
        exact ha hact
      rw [Action.onRegistry, Registry.isRegistered_eraseAction]
      simp [hid, hr]
    | _ => simpa [Registry.isRegistered] using hr

theorem QueuedLive.step (hrun : (pool T n).Run (fun _ _ i => UsesScheduler i) tr s)
    (h : QueuedLive s) (hm : Moves s t i mv) (hok : UsesScheduler (t, i) = true)
    (hpush : PushesLive s t = true) : QueuedLive (s.apply t mv) := by
  intro w j hj
  have hshape := cancelShape hrun t
  have hkeep : s.mem.registry.isRegistered j.id = true ∨
      (∃ u k, s.Unregistering u j.id k ∧ k ≤ w) := by
    rcases Sys.mem_apply_calls hj with hold | ⟨strand, ha⟩
    · exact h w j hold
    · obtain ⟨rest, hs, -⟩ := hm.pushed_inv ha
      rw [PushesLive, hs] at hpush
      simp only [Bool.or_eq_true] at hpush
      exact hpush.imp id fun hp => pendingCancel_sound hrun hp
  rcases hkeep with hr | ⟨u, k, hun, hk⟩
  · rcases hm.registered_step hok hshape hr with hr | hun
    · exact .inl hr
    · exact .inr ⟨t, 0, hun, Nat.zero_le _⟩
  · by_cases hu : u = t
    · subst hu
      rcases hun.step hm with ⟨-, hn, -⟩ | ⟨⟨k', hun', hk'⟩, -, -⟩
      · omega
      · rcases hk' with rfl | hn | ⟨v, js, rfl, rfl, ha⟩
        · exact .inr ⟨u, k', hun', hk⟩
        · omega
        · by_cases hv : w = v
          · rw [Sys.apply_calls, ha] at hj
            simp [hv, AsyncWorker.removeIf, AsyncWorker.cancelPredicate] at hj
          · have hne : (v : Nat) ≠ w := fun heq => hv (Fin.ext heq.symm)
            exact .inr ⟨u, v + 1, hun', by omega⟩
    · exact .inr ⟨u, k, (Sys.unregistering_other hu).mpr hun, hk⟩

theorem usesScheduler
    (h : (pool T n).Run (fun _ s i => UsesScheduler i && PushesLive s i.1) tr s) :
    (pool T n).Run (fun _ _ i => UsesScheduler i) tr s :=
  h.mono fun _ _ _ hok => (Bool.and_eq_true _ _ ▸ hok).1

theorem queuedLive
    (h : (pool T n).Run (fun _ s i => UsesScheduler i && PushesLive s i.1) tr s) :
    QueuedLive s := by
  refine pool_invariant (J := fun _ s => QueuedLive s) ?_ ?_ h
  · exact fun w j hj => absurd hj List.not_mem_nil
  · intro tr s t i mv hrun hq hok hm
    simp only [Bool.and_eq_true] at hok
    exact hq.step (usesScheduler hrun) hm hok.1 hok.2

/-- After a successful `unRegiterInterface` nothing of the service is queued and nothing of it
starts, if no call that looked it up before pushes its job behind the cancel. -/
theorem gone_not_queued
    (h : (pool T n).Run (fun _ s i => UsesScheduler i && PushesLive s i.1) tr s) {id : String} :
    (Gone tr id → ∀ w, ∀ j ∈ (s.worker w).calls, j.id ≠ id) ∧
      ∀ {l r t w j}, tr = l ++ (t, .dequeued w j) :: r → Gone l id → j.id ≠ id := by
  have hqueued {tr : History T n} {s : Sys T n}
      (h : (pool T n).Run (fun _ s i => UsesScheduler i && PushesLive s i.1) tr s)
      (hg : Gone tr id) (w : Fin n) : ∀ j ∈ (s.worker w).calls, j.id ≠ id := by
    intro j hj heq
    subst heq
    obtain ⟨hnone, hno⟩ := gone_unregistered (usesScheduler h) hg
    rcases queuedLive h w j hj with hr | ⟨u, k, hun, -⟩
    · simp [Registry.isRegistered, hnone] at hr
    · exact hno u k hun
  refine ⟨hqueued h, ?_⟩
  intro l r t w j htr hg
  obtain ⟨s₀, i, mv, h₀, -, hm, ha⟩ := pool_at_label h htr
  have hhead := hm.queue_guard
  rw [ha] at hhead
  obtain ⟨left, hcalls⟩ := hhead
  exact hqueued h₀ hg w j (hcalls ▸ List.mem_cons_self)

/-- A client calls "a" and another one unregisters it once the job is queued. -/
def goneRun : History .unit 1 × Sys .unit 1 :=
  (pool .unit 1).drive (fun _ s i => UsesScheduler i && PushesLive s i.1)
    ((Tid.client 0).calls (.registerInterfaceFor "a" () (some 0)) 3 ++
      (Tid.client 0).calls (.interfaceCall "a" ⟨true, false, none, ""⟩ ⟨(), ()⟩) 6 ++
      (Tid.client 1).calls (.unRegiterInterface "a") 7)

theorem gone_not_queued_goneRun :
    pushedOn 0 goneRun.1 ≠ [] ∧ ∀ w, ∀ j ∈ (goneRun.2.worker w).calls, j.id ≠ "a" := by
  have h : (pool .unit 1).Run (fun _ s i => UsesScheduler i && PushesLive s i.1)
      goneRun.1 goneRun.2 := run_drive (fun _ _ _ hok => hok) _
  have hlast : goneRun.1 = goneRun.1.dropLast ++ (.client 1, .unregistered "a") :: [] := rfl
  have hg : Gone goneRun.1 "a" := ⟨_, _, _, hlast, fun e he => absurd he List.not_mem_nil⟩
  have hpushed : (pushedOn 0 goneRun.1).map (·.id) = ["a"] := rfl
  refine ⟨fun hnil => ?_, (gone_not_queued h).1 hg⟩
  simp [hnil] at hpushed

/-- A client has looked "a" up; another one unregisters it before the first one pushes. -/
def latePushRun : History .unit 1 × Sys .unit 1 :=
  (pool .unit 1).drive (fun _ _ i => UsesScheduler i)
    ((Tid.client 0).calls (.registerInterfaceFor "a" () (some 0)) 3 ++
      (Tid.client 0).calls (.interfaceCall "a" ⟨true, false, none, ""⟩ ⟨(), ()⟩) 1 ++
      (Tid.client 1).calls (.unRegiterInterface "a") 6 ++ (Tid.client 0).steps 3)

/-- The job of the removed registration is queued, and will run. -/
theorem late_push_queued :
    ¬∀ (tr : History .unit 1) (s : Sys .unit 1),
      (pool .unit 1).Run (fun _ _ i => UsesScheduler i) tr s →
        ∀ id, Gone tr id → ∀ w, ∀ j ∈ (s.worker w).calls, j.id ≠ id := by
  intro hclaim
  have h : (pool .unit 1).Run (fun _ _ i => UsesScheduler i) latePushRun.1 latePushRun.2 :=
    run_drive (fun _ _ _ hok => hok) _
  have hrest : latePushRun.1.drop 13 = [(.client 0, .tau), (.client 0, .tau),
      (.client 0, .pushed 0 ⟨some (.bound 0 (some ⟨(), 0⟩) ⟨(), ()⟩), none, "a", 1⟩ "")] := rfl
  have hsplit : latePushRun.1 =
      latePushRun.1.take 12 ++ (.client 1, .unregistered "a") :: latePushRun.1.drop 13 := rfl
  have hg : Gone latePushRun.1 "a" := by
    refine ⟨_, _, _, hsplit, ?_⟩
    intro e he st
    simp only [hrest, List.mem_cons, List.not_mem_nil, or_false] at he
    rcases he with rfl | rfl | rfl <;> simp
  have hqueue : (latePushRun.2.worker 0).calls =
      [⟨some (.bound 0 (some ⟨(), 0⟩) ⟨(), ()⟩), none, "a", 1⟩] := rfl
  exact hclaim _ _ h "a" hg 0 _ (hqueue ▸ List.mem_cons_self) rfl

end ServiceLib
