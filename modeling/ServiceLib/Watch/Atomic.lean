import ServiceLib.Watch.Sound

namespace ServiceLib

open Machine

variable {tr evs : List WatchEvent} {s s' s₁ : WatchState} {i : WatchInput} {e : WatchEvent}
  {id key : String} {b k : Nat}

namespace WatchEvent

/-- The event sets or erases `actionMapping_[key]`. -/
def setsAction (key : String) : WatchEvent → Bool
  | .stored id | .erased id => id = key
  | _ => false

/-- The event changes or erases `notifyMapping_[key]`. -/
def setsNotify (key : String) : WatchEvent → Bool
  | .watched _ id | .registered id => id = key
  | _ => false

/-- What an event does to the numbers of the callbacks pending for `key`. -/
@[simp] def onTokens (key : String) (ks : List Nat) : WatchEvent → List Nat
  | .watched sub id => if key = id then ks ++ [sub.token] else ks
  | .registered id => if key = id then [] else ks
  | _ => ks

/-- The call that ends with the event ends by an exception. -/
def raises : WatchEvent → Bool
  | .refused _ | .threw _ _ => true
  | _ => false

end WatchEvent

namespace WatchState

/-- A call made over `b` waiting callbacks is still in progress. -/
def inside (b : Nat) (s : WatchState) : Bool :=
  decide (b ≤ s.stack.length) && match s.focus with
    | .idle => false
    | _ => true

/-- The number of every pending callback has been given out. -/
def Numbered (s : WatchState) : Prop := ∀ id, ∀ k ∈ s.tokens id, k < s.fresh

end WatchState

/-- The call made in `s` is in progress still in the last state; the events are those since. -/
inductive Exec (s : WatchState) : List WatchEvent → WatchState → Prop
  | start : Exec s [] s
  | next {evs s₁ e s₂} (h : Exec s evs s₁) (hs : watch.step s₁ .run = some (e, s₂))
      (hin : s₂.inside s.stack.length = true) : Exec s (evs ++ [e]) s₂

/-- The call made in `s` ends in `s'` by an exception. -/
def Raises (s : WatchState) (evs : List WatchEvent) (s' : WatchState) : Prop :=
  ∃ s₁ e, Exec s evs s₁ ∧ watch.step s₁ .run = some (e, s') ∧
    s'.inside s.stack.length = false ∧ e.raises = true

/-- Both maps are as before a call of `registerInterface`, apart from what its callbacks did. The
first event of a call that comes to run callbacks is its own. -/
structure Atomic (id : String) (s : WatchState) (evs : List WatchEvent) (s' : WatchState) :
    Prop where
  action : ∀ key, (∀ e ∈ evs.tail, e.setsAction key = false) →
    s'.registry.actionMapping key = s.registry.actionMapping key
  notify : ∀ key, (∀ e ∈ evs.tail, e.setsNotify key = false) →
    s'.registry.notifyMapping key = s.registry.notifyMapping key
  once : ∀ k ∈ s.tokens id, .began k ∈ evs → k ∉ s'.tokens id

namespace WatchMoves

theorem action_frame (hm : WatchMoves s i e s') (he : e.setsAction key = false) :
    s'.registry.actionMapping key = s.registry.actionMapping key := by
  cases hm with
  | register =>
    have hne : key ≠ _ := Ne.symm (of_decide_eq_false he)
    exact Function.update_of_ne hne _ _
  | unregister =>
    have hne : key ≠ _ := Ne.symm (of_decide_eq_false he)
    rw [WatchState.back_registry]
    exact Function.update_of_ne hne _ _
  | subscribe | notifyEnd =>
    rw [WatchState.back_registry]
    rfl
  | refuse | unregisterUnknown | isRegistered | throw | subscribeExit =>
    rw [WatchState.back_registry]
  | _ => rfl

theorem notify_frame (hm : WatchMoves s i e s') (he : e.setsNotify key = false) :
    s'.registry.notifyMapping key = s.registry.notifyMapping key := by
  cases hm with
  | subscribe | notifyEnd =>
    have hne : key ≠ _ := Ne.symm (of_decide_eq_false he)
    rw [WatchState.back_registry]
    exact Function.update_of_ne hne _ _
  | unregister =>
    rw [WatchState.back_registry, Registry.eraseAction_notifyMapping]
  | refuse | unregisterUnknown | isRegistered | throw | subscribeExit =>
    rw [WatchState.back_registry]
  | _ => rfl

theorem tokens_step (hm : WatchMoves s i e s') (key : String) :
    s'.tokens key = e.onTokens key (s.tokens key) := by
  cases hm with
  | subscribe =>
    rw [WatchState.back_tokens]
    simp only [WatchState.tokens, WatchState.touch, Registry.watchers_watch, WatchEvent.onTokens]
    split
    · rename_i hk
      simp [hk]
    · rfl
  | notifyEnd =>
    rw [WatchState.back_tokens]
    simp only [WatchState.tokens, WatchState.touch, Registry.watchers_eraseWatchers,
      WatchEvent.onTokens]
    split <;> rfl
  | unregister | refuse | unregisterUnknown | isRegistered | throw | subscribeExit =>
    rw [WatchState.back_tokens]
    rfl
  | _ => rfl

/-- A number is given out once. -/
theorem fresh_step (hm : WatchMoves s i e s') :
    s.fresh ≤ s'.fresh ∧
      ∀ sub id, e = .watched sub id → sub.token = s.fresh ∧ s.fresh < s'.fresh := by
  cases hm with
  | subscribe =>
    refine ⟨?_, fun sub id he => ?_⟩
    · rw [WatchState.back_fresh]
      exact Nat.le_succ _
    · cases he
      rw [WatchState.back_fresh]
      exact ⟨rfl, Nat.lt_succ_self _⟩
  | subscribeRun => exact ⟨Nat.le_succ _, fun _ _ he => (by cases he)⟩
  | unregister | refuse | unregisterUnknown | isRegistered | throw | subscribeExit | notifyEnd =>
    refine ⟨?_, fun _ _ he => (by cases he)⟩
    simp only [WatchState.back_fresh, WatchState.touch, Nat.le_refl]
  | _ => exact ⟨Nat.le_refl _, fun _ _ he => (by cases he)⟩

/-- A callback pending after a step was pending before, if the step ends no registration of the id,
or is new. -/
theorem pending_step (hm : WatchMoves s i e s') (hk : k ∈ s'.tokens id) :
    k ∈ s.tokens id ∧ e ≠ .registered id ∨ k = s.fresh ∧ s.fresh < s'.fresh := by
  rw [hm.tokens_step] at hk
  cases e with
  | watched sub id' =>
    by_cases hid : id = id'
    · have hk' : k ∈ s.tokens id ∨ k = sub.token := by simpa [hid] using hk
      rcases hk' with hk' | rfl
      · exact .inl ⟨hk', by simp⟩
      · exact .inr (hm.fresh_step.2 sub id' rfl)
    · exact .inl ⟨by simpa [hid] using hk, by simp⟩
  | registered id' =>
    by_cases hid : id = id'
    · simp [hid] at hk
    · exact .inl ⟨by simpa [hid] using hk, by simp [Ne.symm hid]⟩
  | _ => exact .inl ⟨hk, by simp⟩

end WatchMoves

/-- What an event leaves of a loop. -/
def Loop.after (e : WatchEvent) (l : Loop) : Loop :=
  match e with
  | .watched _ id | .registered id => l.touch id
  | _ => l

def Activation.after (e : WatchEvent) (a : Activation) : Activation :=
  match e with
  | .watched _ id | .registered id => a.touch id
  | _ => a

theorem Activation.after_loops (e : WatchEvent) (a : Activation) :
    (a.after e).site.loops = a.site.loops.map (·.after e) := by
  obtain ⟨site, k, next⟩ := a
  cases e <;> cases site <;> rfl

theorem Loop.after_id (e : WatchEvent) (l : Loop) : (l.after e).id = l.id := by
  cases e <;> rfl

/-- A loop that an event leaves valid was valid and its vector is not changed. -/
theorem Loop.after_valid {l : Loop} (h : (l.after e).valid = true) :
    l.valid = true ∧ e.setsNotify l.id = false := by
  cases e with
  | watched _ id | registered id =>
    simp only [after, touch, Bool.and_eq_true, Bool.not_eq_true', decide_eq_false_iff_not] at h
    exact ⟨h.1, decide_eq_false (Ne.symm h.2)⟩
  | _ => exact ⟨h, rfl⟩

/-- What a step does to the callbacks that wait: it leaves them, puts one on top or goes back to the
innermost. -/
theorem WatchMoves.control (hm : WatchMoves s .run e s') :
    (s'.stack = s.stack.map (·.after e) ∧ s'.focus ≠ .idle ∧
      ∀ l' ∈ s'.focus.loops, e = .stored l'.id ∨ ∃ l ∈ s.focus.loops, l.id = l'.id) ∨
    (∃ site k op next, s.focus = .run site k (.call op next) ∧ s'.focus = .call op ∧
      s'.stack = ⟨site, k, next⟩ :: s.stack.map (·.after e)) ∨
    ∃ (s₀ : WatchState) (o : Outcome), s' = s₀.back o ∧ s₀.stack = s.stack.map (·.after e) := by
  have hkeep (hid : ∀ a : Activation, a.after e = a) : s.stack.map (·.after e) = s.stack := by
    simp [hid]
  cases hm with
  | subscribe hf hr => exact .inr (.inr ⟨_, _, rfl, rfl⟩)
  | notifyEnd hf hv hi => exact .inr (.inr ⟨_, _, rfl, rfl⟩)
  | refuse | unregister | unregisterUnknown | isRegistered | throw | subscribeExit =>
    exact .inr (.inr ⟨_, _, rfl, (hkeep fun _ => rfl).symm⟩)
  | nest hf => exact .inr (.inl ⟨_, _, _, _, hf, rfl, by rw [hkeep fun _ => rfl]⟩)
  | subscribeRun hf hr =>
    exact .inl ⟨(hkeep fun _ => rfl).symm, nofun, fun l' hl' => absurd hl' List.not_mem_nil⟩
  | register hf hr =>
    refine .inl ⟨(hkeep fun _ => rfl).symm, nofun, fun l' hl' => .inl ?_⟩
    rw [List.mem_singleton.mp hl']
  | @notifyOne l sub hf hv hi =>
    refine .inl ⟨(hkeep fun _ => rfl).symm, nofun, fun l' hl' => .inr ?_⟩
    rw [List.mem_singleton.mp hl']
    exact ⟨l, hf ▸ List.mem_singleton.mpr rfl, rfl⟩
  | finishAtOnce hf =>
    exact .inl ⟨(hkeep fun _ => rfl).symm, nofun, fun l' hl' => absurd hl' List.not_mem_nil⟩
  | finish hf =>
    refine .inl ⟨(hkeep fun _ => rfl).symm, nofun, fun l' hl' => .inr ?_⟩
    rw [List.mem_singleton.mp hl']
    exact ⟨_, hf ▸ List.mem_singleton.mpr rfl, rfl⟩

/-- Where the loop of a call made over `b` waiting callbacks stands, the callback it has called and
what is true of the ids of the loops begun since. -/
inductive Level (b : Nat) (P : String → Prop) (s : WatchState) : Option Nat → Loop → Prop
  | notify {l} (hf : s.focus = .notify l) (hb : s.stack.length = b) : Level b P s none l
  | run {l k code} (hf : s.focus = .run (.notify l) k code) (hb : s.stack.length = b) :
      Level b P s (some k) l
  | below {l k next inner rest} (hf : s.focus ≠ .idle)
      (hs : s.stack = inner ++ ⟨.notify l, k, next⟩ :: rest) (hb : rest.length = b)
      (hp : ∀ l' ∈ s.focus.loops ++ inner.flatMap (·.site.loops), P l'.id) :
      Level b P s (some k) l

theorem WatchState.back_of_inside {s₀ : WatchState} {o : Outcome}
    (h : (s₀.back o).inside b = true) : ∃ a st, s₀.stack = a :: st ∧ b ≤ st.length ∧
      (s₀.back o).stack = st ∧ (s₀.back o).focus = .run a.site a.token (a.next o) := by
  unfold back at h ⊢
  cases hs : s₀.stack with
  | nil => simp [hs, inside] at h
  | cons a st =>
    have hb : b ≤ st.length := by simpa [hs, inside] using h
    exact ⟨a, st, rfl, hb, rfl, rfl⟩

/-- Above the loop of the call a step stays above it or comes back to it. -/
theorem Level.below_step {P Q : String → Prop} {l : Loop} {next : Outcome → Watcher}
    {inner rest : List Activation} (hm : WatchMoves s .run e s')
    (hs : s.stack = inner ++ ⟨.notify l, k, next⟩ :: rest) (hb : rest.length = b)
    (hp : ∀ l' ∈ s.focus.loops ++ inner.flatMap (·.site.loops), P l'.id)
    (hPQ : ∀ id, P id → Q id) (hstored : ∀ id, e = .stored id → Q id)
    (hin : s'.inside b = true) : Level b Q s' (some k) (l.after e) := by
  have hstack : s.stack.map (·.after e) = inner.map (·.after e) ++
      ⟨.notify (l.after e), k, next⟩ :: rest.map (·.after e) := by
    have hact : (Activation.mk (.notify l) k next).after e = ⟨.notify (l.after e), k, next⟩ := by
      cases e <;> rfl
    rw [hs, List.map_append, List.map_cons, hact]
  have hinner : ∀ l' ∈ (inner.map (·.after e)).flatMap (·.site.loops), Q l'.id := by
    intro l' hl'
    obtain ⟨a', ha', hl'⟩ := List.mem_flatMap.mp hl'
    obtain ⟨a, ha, rfl⟩ := List.mem_map.mp ha'
    rw [Activation.after_loops] at hl'
    obtain ⟨l₀, hl₀, rfl⟩ := List.mem_map.mp hl'
    rw [Loop.after_id]
    exact hPQ _ (hp l₀ (List.mem_append_right _ (List.mem_flatMap.mpr ⟨a, ha, hl₀⟩)))
  have hlen : (rest.map (·.after e)).length = b := by rw [List.length_map, hb]
  rcases hm.control with ⟨hs', hf', hl'⟩ | ⟨site, k', op, next', hf, hf', hs'⟩ | ⟨s₀, o, rfl, hs₀⟩
  · refine .below hf' (hs'.trans hstack) hlen fun l' hmem => ?_
    rcases List.mem_append.mp hmem with hmem | hmem
    · rcases hl' l' hmem with he | ⟨l₀, hl₀, hid⟩
      · exact hstored _ he
      · exact hid ▸ hPQ _ (hp l₀ (List.mem_append_left _ hl₀))
    · exact hinner l' hmem
  · have hs₂ : s'.stack = (⟨site, k', next'⟩ :: inner.map (·.after e)) ++
        ⟨.notify (l.after e), k, next⟩ :: rest.map (·.after e) := by
      rw [hs', hstack, List.cons_append]
    refine .below (by simp [hf']) hs₂ hlen fun l' hmem => ?_
    rw [hf', List.flatMap_cons] at hmem
    rcases List.mem_append.mp hmem with hmem | hmem
    · exact absurd hmem List.not_mem_nil
    · rcases List.mem_append.mp hmem with hmem | hmem
      · refine hPQ _ (hp l' (List.mem_append_left _ ?_))
        rw [hf]
        exact hmem
      · exact hinner l' hmem
  · obtain ⟨a, st, hcons, hst, hs', hf'⟩ := WatchState.back_of_inside hin
    rw [hs₀, hstack] at hcons
    cases hi : inner.map (·.after e) with
    | nil =>
      rw [hi, List.nil_append] at hcons
      obtain ⟨rfl, rfl⟩ := List.cons.inj hcons
      exact .run hf' (hs' ▸ hlen)
    | cons a' inner' =>
      rw [hi, List.cons_append] at hcons
      obtain ⟨rfl, rfl⟩ := List.cons.inj hcons
      rw [hi, List.flatMap_cons] at hinner
      exact .below (by simp [hf']) hs' hlen (by simpa [hf', Focus.loops] using hinner)

/-- A call of `registerInterface` made in `s` is in its loop; `mid` are the events since it stored
the action. A loop that ended meanwhile over the same id was begun meanwhile. -/
structure Notifies (s : WatchState) (id : String) (mid : List WatchEvent) (s₁ : WatchState)
    (cur : Option Nat) (l : Loop) : Prop where
  level : Level s.stack.length (fun key => .stored key ∈ mid) s₁ cur l
  sameId : l.id = id
  current : ∀ k ∈ cur, k ∈ s.tokens id ∧ .began k ∈ mid
  list : l.valid = true → s₁.tokens id = s.tokens id
  nested : .registered id ∈ mid → .stored id ∈ mid

/-- A call that ends at the level it was made on is over. -/
theorem not_inside_back {s₀ : WatchState} {o : Outcome} (hb : s₀.stack.length = b) :
    ¬(s₀.back o).inside b = true := by
  intro hin
  obtain ⟨a, st, hs, hle, -⟩ := WatchState.back_of_inside hin
  rw [hs, List.length_cons] at hb
  omega

theorem WatchMoves.notify_inv (hm : WatchMoves s .run e s') {l : Loop} (hf : s.focus = .notify l) :
    (∃ sub, l.valid = true ∧ sub ∈ s.registry.watchers l.id ∧ e = .began sub.token ∧
      s' = { s with focus := .run (.notify { l with index := l.index + 1 }) sub.token sub.code }) ∨
    e = .registered l.id ∧ ∃ (s₀ : WatchState) (o : Outcome), s' = s₀.back o ∧
      s₀.stack.length = s.stack.length := by
  cases hm <;> simp_all
  case notifyOne sub hf hv hi => exact ⟨sub, List.mem_of_getElem? hi, rfl, rfl⟩
  case notifyEnd => exact ⟨_, ⟨_, rfl⟩, by simp [WatchState.touch]⟩

theorem WatchMoves.run_inv (hm : WatchMoves s .run e s') {l : Loop} {code : Watcher}
    (hf : s.focus = .run (.notify l) k code) :
    (e = .ended k ∧ s' = { s with focus := .notify l }) ∨
    (∃ x, e = .threw k x ∧ s' = s.back (.threw x)) ∨
    ∃ op next, e = .tau ∧
      s' = { s with focus := .call op, stack := ⟨.notify l, k, next⟩ :: s.stack } := by
  cases hm <;> simp_all

theorem WatchState.tokens_congr (h : s'.registry.notifyMapping id = s.registry.notifyMapping id) :
    s'.tokens id = s.tokens id := by
  rw [tokens, tokens, Registry.watchers, Registry.watchers, h]

theorem Notifies.step {mid : List WatchEvent} {cur : Option Nat} {l : Loop}
    (h : Notifies s id mid s₁ cur l) (hm : WatchMoves s₁ .run e s')
    (hin : s'.inside s.stack.length = true) :
    ∃ cur' l', Notifies s id (mid ++ [e]) s' cur' l' := by
  obtain ⟨hlevel, hid, hcur, hlist, hnested⟩ := h
  have hmono (ev : WatchEvent) (hmem : ev ∈ mid) : ev ∈ mid ++ [e] := List.mem_append_left _ hmem
  have hother (he : e ≠ .registered id) (hmem : .registered id ∈ mid ++ [e]) :
      .stored id ∈ mid ++ [e] := by
    rcases List.mem_append.mp hmem with hmem | hmem
    · exact hmono _ (hnested hmem)
    · exact absurd (List.mem_singleton.mp hmem).symm he
  cases hlevel with
  | notify hf hb =>
    rcases hm.notify_inv hf with ⟨sub, hv, hmem, rfl, rfl⟩ | ⟨-, s₀, o, rfl, hlen⟩
    · have hsub : sub.token ∈ s.tokens id := by
        rw [← hlist hv, ← hid]
        exact List.mem_map_of_mem hmem
      refine ⟨some sub.token, { l with index := l.index + 1 }, .run rfl hb, hid, ?_, hlist,
        hother (by simp)⟩
      intro k hk
      obtain rfl := Option.some.inj hk
      exact ⟨hsub, List.mem_append_right _ (List.mem_singleton.mpr rfl)⟩
    · exact absurd hin (not_inside_back (hlen.trans hb))
  | @run _ k code hf hb =>
    have hcur' : ∀ k' ∈ some k, k' ∈ s.tokens id ∧ .began k' ∈ mid ++ [e] := fun k' hk =>
      ⟨(hcur k' hk).1, hmono _ (hcur k' hk).2⟩
    rcases hm.run_inv hf with ⟨rfl, rfl⟩ | ⟨x, -, rfl⟩ | ⟨op, next, rfl, rfl⟩
    · exact ⟨none, l, .notify rfl hb, hid, by simp, hlist, hother (by simp)⟩
    · exact absurd hin (not_inside_back hb)
    · refine ⟨some k, l, .below nofun (List.nil_append _).symm hb ?_, hid, hcur', hlist,
        hother (by simp)⟩
      exact fun l' hl' => absurd hl' List.not_mem_nil
  | @below _ k next inner rest hf hs hb hp =>
    have hcur' : ∀ k' ∈ some k, k' ∈ s.tokens id ∧ .began k' ∈ mid ++ [e] := fun k' hk =>
      ⟨(hcur k' hk).1, hmono _ (hcur k' hk).2⟩
    refine ⟨some k, l.after e, Level.below_step hm hs hb hp (fun _ => hmono _) ?_ hin,
      (l.after_id e).trans hid, hcur', fun hv => ?_, fun hmem => ?_⟩
    · intro key he
      exact List.mem_append_right _ (List.mem_singleton.mpr he.symm)
    · obtain ⟨hv, he⟩ := Loop.after_valid hv
      rw [hid] at he
      rw [WatchState.tokens_congr (hm.notify_frame he), hlist hv]
    · by_cases he : e = .registered id
      · cases hm with
        | @notifyEnd l' hf' _ _ =>
          have hl' : l'.id = id := WatchEvent.registered.inj he
          have hfrom := hp l' (List.mem_append_left _ (by simp [hf', Focus.loops]))
          exact hmono _ (hl' ▸ hfrom)
        | _ => cases he
      · exact hother he hmem

theorem WatchState.inside_iff : s.inside b = true ↔ b ≤ s.stack.length ∧ s.focus ≠ .idle := by
  unfold inside
  cases hf : s.focus <;> simp

/-- A call in its loop ends by an exception only if the callback the loop has called throws. -/
theorem Notifies.raises {mid : List WatchEvent} {cur : Option Nat} {l : Loop}
    (h : Notifies s id mid s₁ cur l) (hm : WatchMoves s₁ .run e s')
    (hout : s'.inside s.stack.length = false) (he : e.raises = true) :
    s'.registry = s₁.registry ∧ ∃ k ∈ s.tokens id, .began k ∈ mid := by
  cases h.level with
  | notify hf _ =>
    rcases hm.notify_inv hf with ⟨sub, -, -, rfl, -⟩ | ⟨rfl, -⟩ <;> cases he
  | @run _ k code hf hb =>
    rcases hm.run_inv hf with ⟨rfl, -⟩ | ⟨x, -, rfl⟩ | ⟨op, next, rfl, -⟩
    · cases he
    · exact ⟨WatchState.back_registry _ _, k, h.current k rfl⟩
    · cases he
  | @below _ k next inner rest hf hs hb hp =>
    have hin : s'.inside s.stack.length = true := by
      have hlen : s.stack.length < s₁.stack.length := by
        rw [hs, List.length_append, List.length_cons, hb]
        omega
      rw [WatchState.inside_iff]
      rcases hm.control with ⟨hs', hf', -⟩ | ⟨_, _, _, _, -, hf', hs'⟩ | ⟨s₀, o, rfl, hs₀⟩
      · rw [hs', List.length_map]
        exact ⟨Nat.le_of_lt hlen, hf'⟩
      · rw [hs', List.length_cons, List.length_map, hf']
        exact ⟨by omega, nofun⟩
      · have hlen₀ : s₀.stack.length = s₁.stack.length := by rw [hs₀, List.length_map]
        rw [← hlen₀] at hlen
        unfold WatchState.back
        cases hst : s₀.stack with
        | nil => simp [hst] at hlen
        | cons a st =>
          rw [hst, List.length_cons] at hlen
          exact ⟨by simpa using Nat.le_of_lt_succ hlen, nofun⟩
    rw [hin] at hout
    cases hout

theorem exec_notifies {a : ClientFn} {typeId : String}
    (hf : s.focus = .call (.registerInterface id (some a) typeId))
    (hr : s.registry.isRegistered id = false) (h : Exec s evs s₁) :
    evs = [] ∧ s₁ = s ∨ ∃ mid cur l, evs = .stored id :: mid ∧ Notifies s id mid s₁ cur l := by
  induction h with
  | start => exact .inl ⟨rfl, rfl⟩
  | @next evs s₁ e s₂ _ hs hin ih =>
    have hm := watch_moves hs
    rcases ih with ⟨rfl, rfl⟩ | ⟨mid, cur, l, rfl, hn⟩
    · obtain ⟨rfl, rfl⟩ : e = .stored id ∧ s₂ = { s₁ with
          registry := s₁.registry.store id (a, typeId), focus := .notify ⟨id, 0, true⟩ } := by
        cases hm <;> simp_all
      refine .inr ⟨[], none, ⟨id, 0, true⟩, rfl, .notify rfl rfl, rfl, by simp, fun _ => rfl, ?_⟩
      exact fun hmem => absurd hmem List.not_mem_nil
    · obtain ⟨cur', l', hn'⟩ := hn.step hm hin
      exact .inr ⟨mid ++ [e], cur', l', rfl, hn'⟩

/-- A call that is refused is over. -/
theorem exec_refused {action : Option ClientFn} {typeId : String}
    (hf : s.focus = .call (.registerInterface id action typeId))
    (hr : action = none ∨ s.registry.isRegistered id = true) (h : Exec s evs s₁) :
    evs = [] ∧ s₁ = s := by
  induction h with
  | start => exact ⟨rfl, rfl⟩
  | @next evs s₁ e s₂ _ hs hin ih =>
    obtain ⟨rfl, rfl⟩ := ih
    obtain ⟨o, rfl⟩ : ∃ o, s₂ = s₁.back o := by
      cases watch_moves hs <;> simp_all
    exact absurd hin (not_inside_back rfl)

/-- What holds at the call and is kept by every step holds as long as it is in progress. -/
theorem Exec.invariant {J : List WatchEvent → WatchState → Prop} (h0 : J [] s)
    (hstep : ∀ {evs s₁ e s₂}, J evs s₁ → WatchMoves s₁ .run e s₂ → J (evs ++ [e]) s₂)
    (h : Exec s evs s₁) : J evs s₁ := by
  induction h with
  | start => exact h0
  | next _ hs _ ih => exact hstep ih (watch_moves hs)

/-- What only some events change is as before while none of them occurs. -/
theorem Exec.unchanged {α : Type*} {f : WatchState → α} {p : WatchEvent → Bool}
    (hstep : ∀ {s₁ e s₂}, WatchMoves s₁ .run e s₂ → p e = false → f s₂ = f s₁)
    (h : Exec s evs s₁) (he : ∀ e ∈ evs, p e = false) : f s₁ = f s := by
  revert he
  refine Exec.invariant (J := fun evs s₁ => (∀ e ∈ evs, p e = false) → f s₁ = f s)
    (fun _ => rfl) ?_ h
  intro evs s₁ e s₂ ih hm he
  rw [hstep hm (he e (by simp)), ih fun e he' => he e (List.mem_append_left _ he')]

/-- A callback stays pending until a registration has run to its end. -/
theorem exec_pending (h : Exec s evs s₁) (hno : .registered id ∉ evs) (hk : k ∈ s.tokens id) :
    k ∈ s₁.tokens id := by
  revert hno
  refine Exec.invariant (J := fun evs s₁ => .registered id ∉ evs → k ∈ s₁.tokens id)
    (fun _ => hk) ?_ h
  intro evs s₁ e s₂ ih hm hno
  have hk' := ih fun hmem => hno (List.mem_append_left _ hmem)
  rw [hm.tokens_step]
  cases e with
  | registered id' =>
    have hne : id ≠ id' := fun heq => hno (by simp [heq])
    simpa [hne] using hk'
  | watched sub id' =>
    rw [WatchEvent.onTokens]
    split
    · exact List.mem_append_left _ hk'
    · exact hk'
  | _ => exact hk'

/-- After a registration has run to its end only new callbacks are pending. -/
theorem exec_new (h : Exec s evs s₁) :
    s.fresh ≤ s₁.fresh ∧ (.registered id ∈ evs → ∀ k ∈ s₁.tokens id, s.fresh ≤ k) := by
  refine Exec.invariant (J := fun evs s₁ => s.fresh ≤ s₁.fresh ∧
    (.registered id ∈ evs → ∀ k ∈ s₁.tokens id, s.fresh ≤ k)) ⟨Nat.le_refl _, by simp⟩ ?_ h
  intro evs s₁ e s₂ ih hm
  obtain ⟨hle, hnew⟩ := ih
  refine ⟨Nat.le_trans hle hm.fresh_step.1, fun hmem k hk => ?_⟩
  rcases hm.pending_step hk with ⟨hold, hne⟩ | ⟨rfl, -⟩
  · rcases List.mem_append.mp hmem with hmem | hmem
    · exact hnew hmem k hold
    · exact absurd (List.mem_singleton.mp hmem).symm hne
  · exact hle

/-- A call of `registerInterface` that ends by an exception leaves the maps as they were exactly if
it was refused, or a callback of its loop has registered the id anew and that registration has run
to its end. -/
theorem register_atomic (hn : s.Numbered) {action : Option ClientFn} {typeId : String}
    (hf : s.focus = .call (.registerInterface id action typeId)) (h : Raises s evs s') :
    Atomic id s evs s' ↔
      action = none ∨ s.registry.isRegistered id = true ∨ .registered id ∈ evs := by
  obtain ⟨s₁, e, hexec, hs, hout, he⟩ := h
  have hm := watch_moves hs
  by_cases hrefuse : action = none ∨ s.registry.isRegistered id = true
  · obtain ⟨rfl, rfl⟩ := exec_refused hf hrefuse hexec
    have hreg : s'.registry = s₁.registry := by
      cases hm <;> simp_all
    refine ⟨fun _ => or_assoc.mp (.inl hrefuse), fun _ => ⟨?_, ?_, ?_⟩⟩
    · exact fun key _ => by rw [hreg]
    · exact fun key _ => by rw [hreg]
    · exact fun k _ hmem => absurd hmem List.not_mem_nil
  · rw [not_or] at hrefuse
    obtain ⟨a, rfl⟩ := Option.ne_none_iff_exists'.mp hrefuse.1
    have hr : s.registry.isRegistered id = false := by simpa using hrefuse.2
    rcases exec_notifies hf hr hexec with ⟨rfl, rfl⟩ | ⟨mid, cur, l, rfl, hnot⟩
    · cases hm <;> simp_all [WatchEvent.raises]
    obtain ⟨hreg, k, hk, hbegan⟩ := hnot.raises hm hout he
    have htokens : s'.tokens id = s₁.tokens id := WatchState.tokens_congr (by rw [hreg])
    constructor
    · intro hatomic
      refine .inr (.inr ?_)
      by_contra hno
      have hk' := exec_pending hexec hno hk
      exact hatomic.once k hk (List.mem_cons_of_mem _ hbegan) (htokens ▸ hk')
    · intro hcond
      have hmem : .registered id ∈ mid := by
        rcases hcond with hcond | hcond | hcond
        · cases hcond
        · exact absurd hcond hrefuse.2
        · exact (List.mem_cons.mp hcond).resolve_left nofun
      refine ⟨fun key hkey => ?_, fun key hkey => ?_, fun k hk _ hk' => ?_⟩
      · have hne : id ≠ key := by
          intro heq
          have hset := hkey _ (hnot.nested hmem)
          simp [WatchEvent.setsAction, heq] at hset
        have hstored : WatchEvent.setsAction key (.stored id) = false := decide_eq_false hne
        rw [hreg]
        exact hexec.unchanged (fun hm => hm.action_frame)
          (List.forall_mem_cons.mpr ⟨hstored, hkey⟩)
      · rw [hreg]
        exact hexec.unchanged (fun hm => hm.notify_frame) (List.forall_mem_cons.mpr ⟨rfl, hkey⟩)
      · have hnew := (exec_new hexec).2 (List.mem_cons_of_mem _ hmem) k (htokens ▸ hk')
        exact absurd (hn id k hk) (Nat.not_lt.mpr hnew)

theorem watch_numbered {ok} (h : watch.Run ok tr s) : s.Numbered := by
  refine h.invariant (J := fun _ s => s.Numbered) (fun id k hk => absurd hk List.not_mem_nil) ?_
  intro tr s i e s' _ ih _ hs id k hk
  have hm := watch_moves hs
  rcases hm.pending_step hk with ⟨hold, -⟩ | ⟨rfl, hlt⟩
  · exact Nat.lt_of_lt_of_le (ih id k hold) hm.fresh_step.1
  · exact hlt

/-- The events of the next `k` steps of a call and the state after them, if the call is in progress
that long. -/
def WatchState.advance (s : WatchState) : ℕ → Option (List WatchEvent × WatchState)
  | 0 => some ([], s)
  | k + 1 => (s.advance k).bind fun (evs, s₁) => (watch.step s₁ .run).bind fun (e, s₂) =>
      if s₂.inside s.stack.length then some (evs ++ [e], s₂) else none

theorem exec_advance {k : ℕ} (h : s.advance k = some (evs, s₁)) : Exec s evs s₁ := by
  induction k generalizing evs s₁ with
  | zero =>
    obtain ⟨rfl, rfl⟩ := Prod.mk.inj (Option.some.inj h)
    exact .start
  | succ k ih =>
    obtain ⟨⟨evs', s₂⟩, hk, h⟩ := Option.bind_eq_some_iff.mp h
    obtain ⟨⟨e, s₃⟩, hs, h⟩ := Option.bind_eq_some_iff.mp h
    simp only [Option.ite_none_right_eq_some, Option.some.injEq, Prod.mk.injEq] at h
    obtain ⟨hin, rfl, rfl⟩ := h
    exact (ih hk).next hs hin

/-- A watcher of "a" that, called for the first time, registers "b", registers "a" anew and
throws. -/
def reenteringWatcher : Watcher :=
  .call (.isServiceRegistered "b") fun
    | .ret true => .ret
    | _ => .call (.registerInterface "b" (some 1) "v") fun _ =>
      .call (.unRegiterInterface "a") fun _ =>
        .call (.registerInterface "a" (some 2) "v") fun _ => .throw .badFunctionCall

/-- It waits for "a", and "a" is about to be registered. -/
def reenteredRun : List WatchEvent × WatchState :=
  watch.drive (fun _ _ _ => true)
    [.call 0 (.subscribeForRegistration "a" reenteringWatcher), .run,
      .call 0 (.registerInterface "a" (some 0) "v")]

theorem register_atomic_reenteredRun : ∃ evs s', Raises reenteredRun.2 evs s' ∧
    .began 0 ∈ evs ∧ Atomic "a" reenteredRun.2 evs s' := by
  have h : watch.Run AnyStep reenteredRun.1 reenteredRun.2 :=
    run_drive (fun _ _ _ _ => trivial) _
  have hexec : Exec reenteredRun.2 _ _ := exec_advance (k := 16) rfl
  have hraises : Raises reenteredRun.2 _ _ :=
    ⟨_, .threw 0 .badFunctionCall, hexec, rfl, rfl, rfl⟩
  refine ⟨_, _, hraises, List.mem_of_getElem? (i := 1) rfl, ?_⟩
  refine (register_atomic (watch_numbered h) rfl hraises).mpr (.inr (.inr ?_))
  exact List.mem_of_getElem? (i := 15) rfl

/-- A watcher that throws waits for "a", and "a" is about to be registered. -/
def throwingRun : List WatchEvent × WatchState :=
  watch.drive (fun _ _ _ => true)
    [.call 0 (.subscribeForRegistration "a" (.throw .badFunctionCall)), .run,
      .call 0 (.registerInterface "a" (some 0) "v")]

/-- The action stays in `actionMapping_` and the watcher in `notifyMapping_`. -/
theorem register_not_atomic :
    ¬∀ (tr : List WatchEvent) (s : WatchState), watch.Run AnyStep tr s →
      ∀ id action typeId evs s', s.focus = .call (.registerInterface id action typeId) →
        Raises s evs s' → Atomic id s evs s' := by
  intro hclaim
  have h : watch.Run AnyStep throwingRun.1 throwingRun.2 := run_drive (fun _ _ _ _ => trivial) _
  have hstored : watch.step throwingRun.2 .run = some (.stored "a", _) := rfl
  have hraises : Raises throwingRun.2 [.stored "a", .began 0] _ :=
    ⟨_, .threw 0 .badFunctionCall, .next (.next .start hstored rfl) rfl rfl, rfl, rfl, rfl⟩
  have hatomic := hclaim _ _ h _ _ _ _ _ rfl hraises
  have hsame := hatomic.action "a" (List.forall_mem_singleton.mpr rfl)
  have hsome : some (0, "v") = (none : Option (ClientFn × String)) := hsame
  cases hsome

end ServiceLib
