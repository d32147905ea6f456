import ServiceLib.Model.Callbacks
import ServiceLib.Scheduler.Deadlock
import Mathlib.Data.List.Forall2

namespace ServiceLib

open Machine

variable {T : ArgTypes} {n : Nat} {ok : History T n → Sys T n → Tid n × Choice T n → Prop}
  {tr l m : History T n} {s s₀ s₁ : Sys T n} {t u : Tid n} {i : Choice T n} {mv : Move T n}
  {id : String} {ws : List ClientFn}

/-- No other thread is in a section under `mappingLock_`, and one that stands before such a section
has no step: before a lookup, an unregistration, `isServiceRegistered`, a subscription or the
registration of a function that is not empty, whatever comes of it. -/
structure Sys.Excludes (s : Sys T n) (t : Tid n) : Prop where
  outside : ∀ u, u ≠ t → ∀ f ∈ s.stack u, f.holdsMapping = false
  shut : ∀ u, u ≠ t → s.wants u = some .mapping → ∀ i, s.next u i = none

/-- The steps of a run taken while the other threads are kept out. -/
def Excluding (t : Tid n) (_ : History T n) (s : Sys T n) (_ : Tid n × Choice T n) : Prop :=
  s.Excludes t

/-- Client code takes no lock with its own steps. -/
theorem Sys.run_of_wants {lk : Lock n} (hw : s.wants u = some lk) (hn : s.next u i = some mv) :
    i = .run := by
  cases i with
  | run => rfl
  | call op | ret b =>
    simp only [Sys.next] at hn
    split at hn <;> simp_all [Sys.wants, Frame.wants]

theorem Sys.excludes_of_owner (h : (pool T n).Run ok tr s)
    (howner : s.mem.mappingLock.owner = some t) : s.Excludes t := by
  constructor
  · intro u hu f hf
    by_contra hholds
    have hown := mapping_owner h hf (eq_true_of_ne_false hholds)
    exact hu (Option.some.inj (hown.symm.trans howner))
  · intro u hu hw i
    by_contra hne
    obtain ⟨mv, hn⟩ := Option.ne_none_iff_exists'.mp hne
    obtain rfl := Sys.run_of_wants hw hn
    have hblocked : s.BlockedBy u t := ⟨.mapping, hw, howner, fun _ => hu.symm⟩
    exact hne hblocked.no_step

/-- Who is kept out changes nothing in the registry. -/
theorem Sys.Excludes.registry_kept (h : s.Excludes t) (hm : Moves s u i mv) (hu : u ≠ t)
    (r : Registry (CallbackType T × String) ClientFn) : mv.action.onRegistry r = r := by
  have hshut {f : Frame T n} {rest : List (Frame T n)} (hs : s.stack u = f :: rest)
      (hf : f.wants = some .mapping) : False := by
    have hw : s.wants u = some .mapping := (Sys.wants_top hs).trans hf
    cases (h.shut u hu hw i).symm.trans hm.next_eq
  cases hm
  case register hs _ _ | unregister hs _ _ | subscribe hs _ _ => exact (hshut hs rfl).elim
  case notifyEnd hs _ _ => cases h.outside u hu _ (hs ▸ List.mem_cons_self)
  all_goals rfl

/-- The loop that notifies the watchers of the id. -/
def Frame.notifies (id : String) : Frame T n → Bool
  | .notifyLoop id' _ _ => id' = id
  | _ => false

/-- While the id is registered nobody comes to notify its watchers a second time. -/
theorem Moves.frames_notify (hm : Moves s t i mv) (hreg : s.mem.registry.isRegistered id = true)
    {f : Frame T n} {rest : List (Frame T n)} (hs : s.stack t = f :: rest)
    (hf : f.notifies id = false) : ∀ g ∈ mv.frames, g.notifies id = false := by
  have htop {g rest'} (h : s.stack t = g :: rest') : f = g := (List.cons.inj (hs.symm.trans h)).1
  cases hm
  case register id' a typeId rest' h hl hr =>
    have hid : id' ≠ id := fun heq => by simp [heq, hreg] at hr
    simp [Frame.notifies, hid]
  case notifyOne id' j len cb rest' h hlen hi =>
    rw [htop h] at hf
    simpa [Frame.notifies] using hf
  case call op _ _ _ | callBack op _ _ => cases op <;> exact Frame.forall_not rfl
  case scanPlace | bindStrand =>
    unfold Sys.place
    split <;> exact Frame.forall_not rfl
  all_goals exact Frame.forall_not rfl

/-- Client code called from the loop leaves the registration and its watchers as they are, unless it
unregisters the id. -/
theorem Moves.registration_kept (hm : Moves s t i mv)
    (hreg : s.mem.registry.isRegistered id = true) (hw : s.mem.registry.watchers id = ws)
    {f : Frame T n} {rest : List (Frame T n)} (hs : s.stack t = f :: rest)
    (hf : f.notifies id = false) : mv.action = .erased id ∨
      (s.apply t mv).mem.registry.isRegistered id = true ∧
        (s.apply t mv).mem.registry.watchers id = ws := by
  have htop {g rest'} (h : s.stack t = g :: rest') : f = g := (List.cons.inj (hs.symm.trans h)).1
  rw [Sys.apply_mem, Mem.perform_registry]
  cases hm
  case register id' a typeId rest' h hl hr =>
    refine .inr ⟨by simp [Registry.isRegistered_store, hreg], ?_⟩
    simpa [Registry.watchers] using hw
  case unregister id' rest' h hl hr =>
    by_cases hid : id = id'
    · exact .inl (by rw [hid])
    · refine .inr ⟨by simp [Registry.isRegistered_eraseAction, hid, hreg], ?_⟩
      simpa [Registry.watchers] using hw
  case subscribe id' cb rest' h hl hr =>
    have hid : id ≠ id' := fun heq => by simp [← heq, hreg] at hr
    refine .inr ⟨by simpa [Registry.isRegistered] using hreg, ?_⟩
    simpa [Registry.watchers_watch, hid] using hw
  case notifyEnd id' j len rest' h hlen hi =>
    rw [htop h] at hf
    have hid : id ≠ id' := fun heq => by simp [Frame.notifies, heq] at hf
    refine .inr ⟨by simpa [Registry.isRegistered] using hreg, ?_⟩
    simpa [Registry.watchers_eraseWatchers, hid] using hw
  all_goals exact .inr ⟨hreg, hw⟩

/-- The watchers have been called one after another, each of them once; a step of the loop comes
before each. -/
def Notified (ws : List ClientFn) (o : List (Action T n)) : Prop :=
  ∃ segs, List.Forall₂ (fun cb seg => Runs (.client cb) seg) ws segs ∧
    o = segs.flatMap fun seg => .tau :: seg

theorem Notified.snoc {o seg : List (Action T n)} {cb : ClientFn} (h : Notified ws o)
    (hseg : Runs (.client cb) seg) : Notified (ws ++ [cb]) (o ++ .tau :: seg) := by
  obtain ⟨segs, hall, rfl⟩ := h
  exact ⟨segs ++ [seg], List.rel_append hall (.cons hseg .nil), by simp⟩

/-- How far the loop over the watchers has come: the steps of its thread so far and the functions
above the caller. -/
inductive NotifyPath (id : String) (ws : List ClientFn) :
    List (Action T n) → List (Frame T n) → Prop
  | loop {j o} (h : Notified (ws.take j) o) : NotifyPath id ws o [.notifyLoop id j ws.length]
  | inside {j cb o seg l r} (hj : ws[j]? = some cb) (h : Notified (ws.take j) o)
      (hrun : InRun (.client cb) seg l r) (hl : l ≠ [])
      (hno : ∀ f ∈ l, f.notifies id = false) :
      NotifyPath id ws (o ++ .tau :: seg) (l ++ [.notifyLoop id (j + 1) ws.length])

theorem NotifyPath.holds {o : List (Action T n)} {f : List (Frame T n)}
    (h : NotifyPath id ws o f) : ∃ g ∈ f, g.holdsMapping = true := by
  cases h
  · exact ⟨_, List.mem_cons_self, rfl⟩
  · exact ⟨_, List.mem_append_right _ List.mem_cons_self, rfl⟩

/-- The loop keeps the other threads out. -/
theorem NotifyPath.excludes {o : List (Action T n)} {f rest : List (Frame T n)}
    (h : NotifyPath id ws o f) (hrun : (pool T n).Run ok tr s) (hs : s.stack t = f ++ rest) :
    s.Excludes t := by
  obtain ⟨g, hg, hholds⟩ := h.holds
  exact Sys.excludes_of_owner hrun
    (mapping_owner hrun (hs ▸ List.mem_append_left _ hg) hholds)

/-- One step of the thread takes the loop further, unless the watchers are through or one of them
unregisters the id. -/
theorem NotifyPath.step {o : List (Action T n)} {f rest : List (Frame T n)}
    (h : NotifyPath id ws o f) (hs : s.stack t = f ++ rest) (hm : Moves s t i mv)
    (hreg : s.mem.registry.isRegistered id = true) (hw : s.mem.registry.watchers id = ws) :
    mv.action = .erased id ∨
      (mv.action = .notified id ∧ mv.frames ++ f.tail = [] ∧ Notified ws o) ∨
      NotifyPath id ws (o ++ [mv.action]) (mv.frames ++ f.tail) ∧
        (s.apply t mv).mem.registry.isRegistered id = true ∧
        (s.apply t mv).mem.registry.watchers id = ws := by
  cases h with
  | @loop j o h =>
    cases hj : ws[j]? with
    | some cb =>
      have hnext : s.frameNext t (.notifyLoop id j ws.length) =
          some ⟨.tau, [.invoke (.client cb), .notifyLoop id (j + 1) ws.length], none, none⟩ := by
        simp [Sys.frameNext, Sys.notifyLoopNext, hw, hj]
      obtain rfl := hm.eq_of_frame hs (by simp) hnext
      refine .inr (.inr ⟨?_, hreg, hw⟩)
      have hstart : InRun (T := T) (n := n) (.client cb) [] [.invoke (.client cb)] (s.result t) :=
        .start
      exact .inside hj h hstart (by simp) (by simp [Frame.notifies])
    | none =>
      have hnext : s.frameNext t (.notifyLoop id j ws.length) =
          some ⟨.notified id, [], some (.ret true), none⟩ := by
        simp [Sys.frameNext, Sys.notifyLoopNext, hw, hj]
      obtain rfl := hm.eq_of_frame hs (by simp) hnext
      rw [List.take_of_length_le (List.getElem?_eq_none_iff.mp hj)] at h
      exact .inr (.inl ⟨rfl, rfl, h⟩)
  | @inside j cb o seg l r hj h hrun hl hno =>
    rw [List.append_assoc] at hs
    obtain ⟨f, l, rfl⟩ := List.exists_cons_of_ne_nil hl
    obtain ⟨hf, hno⟩ := List.forall_mem_cons.mp hno
    rcases hm.registration_kept hreg hw hs hf with herased | hkept
    · exact .inl herased
    · refine .inr (.inr ⟨?_, hkept⟩)
      have hno' : ∀ g ∈ mv.frames ++ l, g.notifies id = false :=
        List.forall_mem_append.mpr ⟨hm.frames_notify hreg hs hf, hno⟩
      have hnext := hrun.step rfl hl hs hm
      rw [List.tail_cons] at hnext
      rw [List.cons_append, List.tail_cons, ← List.append_assoc, List.append_assoc o,
        List.cons_append]
      by_cases hend : mv.frames ++ l = []
      · rw [hend] at hnext ⊢
        rcases hnext.ended with hruns | ⟨hnone, -⟩
        · refine .loop ?_
          rw [List.take_add_one, hj]
          exact h.snoc hruns
        · cases hnone
      · exact .inside hj h hnext hend hno'

/-- A registration is going on above its caller: the id is registered, its watchers are still all
there, some of them have been called, and the other threads are kept out. -/
structure Notifying (id : String) (ws : List ClientFn) (t : Tid n) (rest : List (Frame T n))
    (m : History T n) (s : Sys T n) : Prop where
  path : ∃ f, s.stack t = f ++ rest ∧ NotifyPath id ws (own t m) f
  registered : s.mem.registry.isRegistered id = true
  watchers : s.mem.registry.watchers id = ws
  alone : s.Excludes t

/-- What has become of a registration: it is going on, it has returned after all watchers, or one of
the watchers has unregistered the id. Up to then the other threads are kept out at every step. -/
def NotifyOutcome (id : String) (ws : List ClientFn) (t : Tid n) (rest : List (Frame T n))
    (s₁ : Sys T n) (m : History T n) (s : Sys T n) : Prop :=
  (((pool T n).startAt s₁).Run (Excluding t) m s ∧ Notifying id ws t rest m s) ∨
    (∃ p q s', m = p ++ (t, .notified id) :: q ∧
      ((pool T n).startAt s₁).Run (Excluding t) (p ++ [(t, .notified id)]) s' ∧
      ((pool T n).startAt s').Run AnyStep q s ∧ s'.stack t = rest ∧ Notified ws (own t p) ∧
      s'.mem.registry.isRegistered id = true ∧ s'.mem.registry.watchers id = []) ∨
    ∃ p q s', m = p ++ (t, .erased id) :: q ∧
      ((pool T n).startAt s₁).Run (Excluding t) p s' ∧
      ((pool T n).startAt s').Run AnyStep ((t, .erased id) :: q) s ∧ Notifying id ws t rest p s'

theorem Notifying.step {rest : List (Frame T n)} (h : Notifying id ws t rest m s)
    (h₀ : (pool T n).Run AnyStep tr s) (hrun : ((pool T n).startAt s₁).Run (Excluding t) m s)
    (hm : Moves s u i mv) :
    NotifyOutcome id ws t rest s₁ (m ++ [(u, mv.action)]) (s.apply u mv) := by
  obtain ⟨⟨f, hs, hpath⟩, hreg, hw, halone⟩ := h
  have hrun' := hrun.next (M := (pool T n).startAt s₁) halone hm.step_eq
  have hlast : ((pool T n).startAt s).Run AnyStep [(u, mv.action)] (s.apply u mv) :=
    Run.start.next trivial hm.step_eq
  by_cases hu : u = t
  · subst hu
    obtain ⟨g, hg, -⟩ := hpath.holds
    have hne : f ≠ [] := List.ne_nil_of_mem hg
    have hstack : (s.apply u mv).stack u = mv.frames ++ f.tail ++ rest := by
      rw [Sys.apply_stack_self, hs, List.tail_append_of_ne_nil hne, List.append_assoc]
    rcases hpath.step hs hm hreg hw with herased | ⟨hend, hnil, hall⟩ | ⟨hnext, hreg', hw'⟩
    · rw [herased] at hlast ⊢
      exact .inr (.inr ⟨m, [], s, rfl, hrun, hlast, ⟨f, hs, hpath⟩, hreg, hw, halone⟩)
    · rw [hnil, List.nil_append] at hstack
      have hregistry := s.mem.perform_registry u mv.action
      rw [hend] at hregistry hrun' ⊢
      refine .inr (.inl ⟨m, [], s.apply u mv, rfl, hrun', .start, hstack, hall, ?_, ?_⟩)
      · rw [Sys.apply_mem, hend, hregistry]
        simpa [Registry.isRegistered] using hreg
      · rw [Sys.apply_mem, hend, hregistry]
        simp [Registry.watchers_eraseWatchers]
    · have hpath' : NotifyPath id ws (own u (m ++ [(u, mv.action)])) (mv.frames ++ f.tail) := by
        rw [own_snoc_self]
        exact hnext
      have halone' := hpath'.excludes (h₀.next trivial hm.step_eq) hstack
      exact .inl ⟨hrun', ⟨_, hstack, hpath'⟩, hreg', hw', halone'⟩
  · have hsame : (s.apply u mv).mem.registry = s.mem.registry := by
      rw [Sys.apply_mem, Mem.perform_registry, halone.registry_kept hm hu]
    have hstack := (Sys.apply_stack_other mv (Ne.symm hu)).trans hs
    have halone' := hpath.excludes (h₀.next trivial hm.step_eq) hstack
    refine .inl ⟨hrun', ⟨f, hstack, ?_⟩, hsame ▸ hreg, hsame ▸ hw, halone'⟩
    rw [own_snoc_other hu]
    exact hpath

/-- Registration is atomic towards other threads and complete towards watchers that return. From the
moment an action is stored, its thread calls every watcher pending for the id once, in the order of
the subscriptions, whatever else those call, and forgets them; up to then no other thread gets into
a section under `mappingLock_`. Client code does not throw here: only a watcher that unregisters the
id itself can end this. -/
theorem register_notifies {action : CallbackType T} {typeId : String} {rest : List (Frame T n)}
    {st : CallbackType T × String} (h₀ : (pool T n).Run AnyStep l s₀)
    (hs : s₀.stack t = .register id action typeId :: rest)
    (hstore : (pool T n).step s₀ (t, i) = some ((t, .stored id st), s₁))
    (h : ((pool T n).startAt s₁).Run AnyStep m s) :
    NotifyOutcome id (s₀.mem.registry.watchers id) t rest s₁ m s := by
  obtain ⟨mv, hm, he, rfl⟩ := pool_step hstore
  have ha : mv.action = .stored id st := (Prod.mk.inj he).2.symm
  have hfr : mv.frames = [.notifyLoop id 0 (s₀.mem.registry.watchers id).length] := by
    cases hm <;> cases ha
    rfl
  have hregistry := s₀.mem.perform_registry t mv.action
  have hrun {m s} (h : ((pool T n).startAt (s₀.apply t mv)).Run AnyStep m s) :
      (pool T n).Run AnyStep (l ++ [(t, mv.action)] ++ m) s :=
    (h₀.next trivial hm.step_eq).append h
  have hstack : (s₀.apply t mv).stack t =
      [.notifyLoop id 0 (s₀.mem.registry.watchers id).length] ++ rest := by
    rw [Sys.apply_stack_self, hs, hfr]
    rfl
  have hpath : NotifyPath (T := T) (n := n) id (s₀.mem.registry.watchers id) []
      [.notifyLoop id 0 (s₀.mem.registry.watchers id).length] := .loop (j := 0) ⟨[], .nil, rfl⟩
  have hstart : Notifying id (s₀.mem.registry.watchers id) t rest [] (s₀.apply t mv) := by
    refine ⟨⟨_, hstack, hpath⟩, ?_, ?_, hpath.excludes (h₀.next trivial hm.step_eq) hstack⟩
    · rw [Sys.apply_mem, hregistry, ha]
      simp [Registry.isRegistered_store]
    · rw [Sys.apply_mem, hregistry, ha]
      simp [Registry.watchers]
  refine startAt_invariant (J := fun m s => NotifyOutcome id (s₀.mem.registry.watchers id) t rest
    (s₀.apply t mv) m s) (.inl ⟨.start, hstart⟩) ?_ h
  intro m s u i mv' hm' ih _ hmv
  rcases ih with ⟨hquiet, hgoing⟩ | ⟨p, q, s', rfl, hp, hq, hback⟩ |
    ⟨p, q, s', rfl, hp, hq, hundone⟩
  · exact hgoing.step (hrun hm') hquiet hmv
  · exact .inr (.inl ⟨p, q ++ [(u, mv'.action)], s', by simp, hp,
      hq.next trivial hmv.step_eq, hback⟩)
  · exact .inr (.inr ⟨p, q ++ [(u, mv'.action)], s', by simp, hp,
      hq.next trivial hmv.step_eq, hundone⟩)

/-- Two watchers wait for a service when a client comes to register it. -/
def watchedEntered : History .unit 1 × Sys .unit 1 :=
  let c := Tid.client 0
  (pool .unit 1).drive (fun _ _ _ => true)
    (c.calls (.subscribeForRegistration "a" 0) 1 ++ c.calls (.subscribeForRegistration "a" 1) 1 ++
      c.calls (.registerInterface "a" (some ⟨(), 2⟩) "v") 0)

def watchedStored : Sys .unit 1 :=
  watchedEntered.2.apply (.client 0)
    ⟨.stored "a" (some ⟨(), 2⟩, "v"), [.notifyLoop "a" 0 2], none, none⟩

/-- The first watcher subscribes once more, which calls it at once; another client's question has to
wait. -/
def watchedDone : History .unit 1 × Sys .unit 1 :=
  let c := Tid.client 0
  ((pool .unit 1).startAt watchedStored).drive (fun _ _ _ => true)
    (c.steps 2 ++ (Tid.client 1).calls (.isServiceRegistered "b") 0 ++
      c.calls (.subscribeForRegistration "a" 3) 2 ++ c.returns 1 ++ c.returns 2 ++
      c.returns 1 ++ (Tid.client 1).steps 1)

theorem register_notifies_watchedDone : ∃ p q,
    watchedDone.1 = p ++ (.client 0, .notified "a") :: q ∧ Notified [0, 1] (own (.client 0) p) := by
  have h₀ : (pool .unit 1).Run AnyStep watchedEntered.1 watchedEntered.2 :=
    run_drive (fun _ _ _ _ => trivial) _
  have h : ((pool .unit 1).startAt watchedStored).Run AnyStep watchedDone.1 watchedDone.2 :=
    run_drive (fun _ _ _ _ => trivial) _
  have hs : watchedEntered.2.stack (.client 0) = [.register "a" (some ⟨(), 2⟩) "v"] := rfl
  have hstore : (pool .unit 1).step watchedEntered.2 (.client 0, .run) =
      some ((.client 0, .stored "a" (some ⟨(), 2⟩, "v")), watchedStored) := rfl
  have hend : watchedDone.2.stack (.client 0) = [] := rfl
  -- no step of the run unregisters anything
  have hkept : watchedDone.1.all (fun e =>
      (e.2.onRegistry ⟨fun _ => some (none, ""), fun _ => none⟩).isRegistered "a") = true := by
    decide
  rcases register_notifies h₀ hs hstore h with ⟨-, hgoing⟩ | ⟨p, q, s', hpq, -, -, -, hall, -⟩ |
    ⟨p, q, s', hpq, -⟩
  · obtain ⟨f, hf, hpath⟩ := hgoing.path
    rw [hend] at hf
    obtain ⟨g, hg, -⟩ := hpath.holds
    rw [(List.append_eq_nil_iff.mp hf.symm).1] at hg
    exact absurd hg List.not_mem_nil
  · exact ⟨p, q, hpq, hall⟩
  · have herased := List.all_eq_true.mp hkept (.client 0, .erased "a") (by rw [hpq]; simp)
    simp [Registry.isRegistered, Registry.eraseAction] at herased

end ServiceLib
