import ServiceLib.Watch.Sound

namespace ServiceLib

open Machine

variable {tr : List WatchEvent} {s s' : WatchState} {i : WatchInput} {e : WatchEvent}
  {id : String}

/-- No callback throws. -/
def NoThrow (s : WatchState) : Bool :=
  match s.focus with
  | .run _ _ (.throw _) => false
  | _ => true

/-- While a loop over an id is in progress and the id is not registered, no callback subscribes for
it or registers it. -/
def NoRejoin (s : WatchState) : Bool :=
  match s.focus with
  | .call (.subscribeForRegistration id _) | .call (.registerInterface id (some _) _) =>
    s.registry.isRegistered id || s.loops.all (·.id ≠ id)
  | _ => true

/-- What an event does to the watchers subscribed for an id since its last registration began. -/
@[simp] def WatchEvent.onJoined (id : String) (subs : List Subscription) :
    WatchEvent → List Subscription
  | .stored id' => if id = id' then [] else subs
  | .watched sub id' => if id = id' then subs ++ [sub] else subs
  | _ => subs

/-- The watchers subscribed for an id since its last registration began. -/
def joined (id : String) (tr : List WatchEvent) : List Subscription :=
  tr.foldl (fun subs e => e.onJoined id subs) []

theorem joined_snoc (id : String) (tr : List WatchEvent) (e : WatchEvent) :
    joined id (tr ++ [e]) = e.onJoined id (joined id tr) := by
  simp [joined]

/-- What a step after the history `tr` owes the loops in progress: their iterators are valid, their
vectors are left alone but for the erasure at a loop's own end, and a watcher that joined during
the loop is pending after it. -/
structure Undisturbed (tr : List WatchEvent) (s : WatchState) (e : WatchEvent) (s' : WatchState) :
    Prop where
  valid : ∀ l ∈ s.loops, l.valid = true
  list : ∀ l ∈ s.loops, s'.registry.notifyMapping l.id = s.registry.notifyMapping l.id ∨
    s.focus = .notify l ∧ e = .registered l.id
  pending : ∀ id, e = .registered id → ∀ sub ∈ joined id tr, sub ∈ s'.registry.watchers id

/-- The loops in progress have valid iterators, are over different vectors and nobody has joined
these since they began. -/
structure Intact (tr : List WatchEvent) (s : WatchState) : Prop where
  valid : ∀ l ∈ s.loops, l.valid = true
  nodup : (s.loops.map (·.id)).Nodup
  joined : ∀ l ∈ s.loops, joined l.id tr = []

namespace Intact

/-- A step that starts no loop and subscribes for none of those in progress. -/
theorem frame (h : Intact tr s)
    (hsub : (s'.loops.map fun l => (l.id, l.valid)).Sublist (s.loops.map fun l => (l.id, l.valid)))
    (he : ∀ l ∈ s.loops, e.onJoined l.id [] = []) : Intact (tr ++ [e]) s' := by
  have hfrom : ∀ l ∈ s'.loops, ∃ l' ∈ s.loops, l'.id = l.id ∧ l'.valid = l.valid := by
    intro l hl
    have hmem := hsub.subset (List.mem_map_of_mem hl)
    simpa using hmem
  refine ⟨fun l hl => ?_, ?_, fun l hl => ?_⟩
  · obtain ⟨l', hl', -, hv⟩ := hfrom l hl
    exact hv ▸ h.valid l' hl'
  · have hids := hsub.map Prod.fst
    simp only [List.map_map] at hids
    exact h.nodup.sublist hids
  · obtain ⟨l', hl', hid, -⟩ := hfrom l hl
    rw [joined_snoc, ← hid, h.joined l' hl', he l' hl']

theorem not_mem_stack (hrejoin : s.registry.isRegistered id || s.loops.all (·.id ≠ id))
    (hr : s.registry.isRegistered id = false) : ∀ l ∈ s.loops, l.id ≠ id := by
  intro l hl
  rw [hr, Bool.false_or] at hrejoin
  simpa using List.all_eq_true.mp hrejoin l hl

theorem step (h : Intact tr s) (hok : NoRejoin s = true) (hm : WatchMoves s i e s') :
    Intact (tr ++ [e]) s' := by
  have hcall {op : WatchOp Watcher} (hf : s.focus = .call op) :
      s.loops = s.stack.flatMap (·.site.loops) := by simp [WatchState.loops, hf, Focus.loops]
  cases hm with
  | call t op hf =>
    refine h.frame ?_ fun _ _ => rfl
    simp [WatchState.loops, hf, Focus.loops]
  | subscribeRun hf _ =>
    refine h.frame ?_ fun _ _ => rfl
    simp [WatchState.loops, hf, Focus.loops, Site.loops]
  | @subscribe id cb hf hr =>
    have hne := not_mem_stack (by simpa [NoRejoin, hf] using hok) hr
    have htouch := WatchState.touch_other (s := { s with
      registry := s.registry.watch id ⟨s.fresh, cb⟩, fresh := s.fresh + 1 }) (hcall hf ▸ hne)
    refine h.frame ?_ fun l hl => by simp [hne l hl]
    rw [htouch, WatchState.back_loops, hcall hf]
  | refuse hf _ | unregister hf _ | unregisterUnknown hf _ | isRegistered hf =>
    refine h.frame ?_ fun _ _ => rfl
    rw [WatchState.back_loops, hcall hf]
  | @register id a typeId hf hr =>
    have hne := not_mem_stack (by simpa [NoRejoin, hf] using hok) hr
    have hloops : WatchState.loops { s with
        registry := s.registry.store id (a, typeId), focus := .notify ⟨id, 0, true⟩ } =
          ⟨id, 0, true⟩ :: s.loops := by simp [WatchState.loops, hf, Focus.loops]
    refine ⟨?_, ?_, ?_⟩
    · rw [hloops]
      exact List.forall_mem_cons.mpr ⟨rfl, h.valid⟩
    · rw [hloops, List.map_cons, List.nodup_cons]
      refine ⟨fun hmem => ?_, h.nodup⟩
      obtain ⟨l, hl, hid⟩ := List.mem_map.mp hmem
      exact hne l hl hid
    · rw [hloops]
      refine List.forall_mem_cons.mpr ⟨by simp [joined_snoc], fun l hl => ?_⟩
      simp [joined_snoc, hne l hl, h.joined l hl]
  | notifyOne hf _ _ =>
    refine h.frame ?_ fun _ _ => rfl
    simp [WatchState.loops, hf, Focus.loops, Site.loops]
  | @notifyEnd l hf _ _ =>
    have hloops : s.loops = l :: s.stack.flatMap (·.site.loops) := by
      simp [WatchState.loops, hf, Focus.loops]
    have hnd := h.nodup
    rw [hloops, List.map_cons, List.nodup_cons] at hnd
    have htouch : WatchState.touch { s with registry := s.registry.eraseWatchers l.id } l.id =
        { s with registry := s.registry.eraseWatchers l.id } :=
      WatchState.touch_other fun l' hl' heq => hnd.1 (List.mem_map.mpr ⟨l', hl', heq⟩)
    refine h.frame ?_ fun _ _ => rfl
    rw [htouch, WatchState.back_loops, hloops]
    exact List.sublist_cons_self ..
  | finishAtOnce hf | finish hf =>
    refine h.frame ?_ fun _ _ => rfl
    simp [WatchState.loops, hf, Focus.loops, Site.loops]
  | throw hf =>
    refine h.frame ?_ fun _ _ => rfl
    rw [WatchState.back_loops]
    exact (List.sublist_append_right _ _).map _
  | nest hf =>
    refine h.frame ?_ fun _ _ => rfl
    simp [WatchState.loops, hf, Focus.loops]
  | subscribeExit hf =>
    refine h.frame ?_ fun _ _ => rfl
    rw [WatchState.back_loops]
    simp [WatchState.loops, hf, Focus.loops]

end Intact

theorem intact (h : watch.Run (fun _ s _ => NoRejoin s) tr s) : Intact tr s := by
  have h0 : Intact [] .init := ⟨fun l hl => absurd hl List.not_mem_nil, List.nodup_nil,
    fun l hl => absurd hl List.not_mem_nil⟩
  refine h.invariant h0 ?_
  intro tr s i e s' _ ih hok hs
  exact ih.step hok (watch_moves hs)

/-- A loop ends only by its own step. -/
theorem WatchMoves.registered_inv (hm : WatchMoves s i (.registered id) s') :
    ∃ l, s.focus = .notify l ∧ l.id = id := by
  cases hm with
  | notifyEnd hf _ _ => exact ⟨_, hf, rfl⟩

/-- A step leaves the vectors of the loops in progress alone, but for a loop's own end. -/
theorem Intact.list (h : Intact tr s) (hok : NoRejoin s = true) (hm : WatchMoves s i e s')
    {l : Loop} (hl : l ∈ s.loops) :
    s'.registry.notifyMapping l.id = s.registry.notifyMapping l.id ∨
      s.focus = .notify l ∧ e = .registered l.id := by
  cases hm with
  | @subscribe id cb hf hr =>
    have hne := Intact.not_mem_stack (by simpa [NoRejoin, hf] using hok) hr l hl
    refine .inl ?_
    rw [WatchState.back_registry]
    exact Function.update_of_ne hne _ _
  | @notifyEnd l₀ hf _ _ =>
    have hloops : s.loops = l₀ :: s.stack.flatMap (·.site.loops) := by
      simp [WatchState.loops, hf, Focus.loops]
    rw [hloops] at hl
    rcases List.mem_cons.mp hl with rfl | hl
    · exact .inr ⟨hf, rfl⟩
    · have hnd := h.nodup
      rw [hloops, List.map_cons, List.nodup_cons] at hnd
      have hne : l.id ≠ l₀.id := fun heq => hnd.1 (heq ▸ List.mem_map_of_mem hl)
      refine .inl ?_
      rw [WatchState.back_registry]
      exact Function.update_of_ne hne _ _
  | unregister =>
    refine .inl ?_
    rw [WatchState.back_registry, Registry.eraseAction_notifyMapping]
  | refuse | unregisterUnknown | isRegistered | throw | subscribeExit =>
    exact .inl (by rw [WatchState.back_registry])
  | _ => exact .inl rfl

/-- No loop in progress is disturbed, if no callback subscribes for the loop's id or registers it
while the id is not registered. -/
theorem loops_undisturbed (h : watch.Run (fun _ s _ => NoRejoin s) tr s) (hok : NoRejoin s = true)
    (hs : watch.step s i = some (e, s')) : Undisturbed tr s e s' where
  valid := (intact h).valid
  list _ hl := (intact h).list hok (watch_moves hs) hl
  pending id he sub hsub := by
    obtain ⟨l, hf, rfl⟩ := (he ▸ watch_moves hs : WatchMoves s i (.registered id) s').registered_inv
    have hl : l ∈ s.loops := by simp [WatchState.loops, hf, Focus.loops]
    rw [(intact h).joined l hl] at hsub
    exact absurd hsub List.not_mem_nil

/-- A watcher of "a" that unregisters "a" and subscribes for `id`. -/
def leavingWatcher (id : String) : Watcher :=
  .call (.unRegiterInterface "a") fun _ => .call (.subscribeForRegistration id .ret) fun _ => .ret

/-- "a" is registered and its watcher is about to subscribe for `id`. -/
def leavingScript (id : String) : List WatchInput :=
  .call 0 (.subscribeForRegistration "a" (leavingWatcher id)) :: .run ::
    .call 0 (.registerInterface "a" (some 0) "v") :: List.replicate 5 .run

def leavingRun : List WatchEvent × WatchState :=
  watch.drive (fun _ s _ => NoRejoin s) (leavingScript "b")

theorem loops_undisturbed_leavingRun :
    leavingRun.2.registry.isRegistered "a" = false ∧ leavingRun.2.loops = [⟨"a", 1, true⟩] ∧
    ∃ e s', watch.step leavingRun.2 .run = some (e, s') ∧
      Undisturbed leavingRun.1 leavingRun.2 e s' := by
  have h : watch.Run (fun _ s _ => NoRejoin s) leavingRun.1 leavingRun.2 :=
    run_drive (fun _ _ _ hok => hok) _
  have hs : watch.step leavingRun.2 .run = some (_, _) := rfl
  exact ⟨rfl, rfl, _, _, hs, loops_undisturbed h rfl hs⟩

def rejoiningRun : List WatchEvent × WatchState :=
  watch.drive (fun _ s _ => NoThrow s) (leavingScript "a")

/-- The watcher subscribes for "a" again, and the vector that the loop goes over grows. -/
theorem loops_disturbed :
    ¬∀ (tr : List WatchEvent) (s : WatchState), watch.Run (fun _ s _ => NoThrow s) tr s →
      ∀ i e s', NoThrow s = true → watch.step s i = some (e, s') → Undisturbed tr s e s' := by
  intro hclaim
  have h : watch.Run (fun _ s _ => NoThrow s) rejoiningRun.1 rejoiningRun.2 :=
    run_drive (fun _ _ _ hok => hok) _
  have hgrows := (hclaim _ _ h .run _ _ rfl rfl).list ⟨"a", 1, true⟩ (List.mem_singleton.mpr rfl)
  rcases hgrows with hsame | ⟨hf, -⟩
  · have hlen := congrArg (fun ws => (ws.getD []).length) hsame
    have htwo : (2 : Nat) = 1 := hlen
    exact absurd htwo (by decide)
  · cases hf

end ServiceLib
