import ServiceLib.Watch.Machine

namespace ServiceLib

open Machine

variable {tr : List WatchEvent} {s s' : WatchState} {i : WatchInput} {e : WatchEvent} {k : Nat}

def Site.loops : Site → List Loop
  | .subscribe => []
  | .notify l => [l]

def Focus.loops : Focus → List Loop
  | .notify l => [l]
  | .run site _ _ => site.loops
  | _ => []

/-- The callbacks at work, with who called each. -/
def Focus.active : Focus → List (Site × Nat)
  | .run site k _ => [(site, k)]
  | _ => []

namespace WatchState

/-- The notification loops in progress, innermost first. -/
def loops (s : WatchState) : List Loop := s.focus.loops ++ s.stack.flatMap (·.site.loops)

/-- The callbacks in progress, innermost first. -/
def active (s : WatchState) : List (Site × Nat) :=
  s.focus.active ++ s.stack.map fun a => (a.site, a.token)

/-- The numbers of the callbacks pending for an id. -/
def tokens (s : WatchState) (id : String) : List Nat := (s.registry.watchers id).map (·.token)

@[simp] theorem back_registry (s : WatchState) (o : Outcome) :
    (s.back o).registry = s.registry := by
  unfold back
  split <;> rfl

@[simp] theorem back_fresh (s : WatchState) (o : Outcome) : (s.back o).fresh = s.fresh := by
  unfold back
  split <;> rfl

@[simp] theorem back_tokens (s : WatchState) (o : Outcome) : (s.back o).tokens = s.tokens := by
  funext id
  simp [tokens]

@[simp] theorem back_loops (s : WatchState) (o : Outcome) :
    (s.back o).loops = s.stack.flatMap (·.site.loops) := by
  unfold back
  split
  · simp_all [loops, Focus.loops]
  · simp_all [loops, Focus.loops]

@[simp] theorem back_active (s : WatchState) (o : Outcome) :
    (s.back o).active = s.stack.map fun a => (a.site, a.token) := by
  unfold back
  split
  · simp_all [active, Focus.active]
  · simp_all [active, Focus.active]

theorem back_idle (s : WatchState) (o : Outcome) :
    (s.back o).focus = .idle → (s.back o).stack = [] := by
  unfold back
  split
  · exact fun _ => by assumption
  · simp

theorem back_exit (s : WatchState) (o : Outcome) (k : Nat) :
    (s.back o).focus ≠ .subscribeExit k := by
  unfold back
  split <;> simp

theorem back_call (s : WatchState) (o : Outcome) (op : WatchOp Watcher) :
    (s.back o).focus ≠ .call op := by
  unfold back
  split <;> simp

end WatchState

theorem Site.touch_other {id : String} {site : Site} (h : ∀ l ∈ site.loops, l.id ≠ id) :
    site.touch id = site := by
  cases site with
  | subscribe => rfl
  | notify l =>
    have hl : l.id ≠ id := h l List.mem_cons_self
    simp [Site.touch, Loop.touch, hl]

/-- Loops over other vectors keep their iterators. -/
theorem WatchState.touch_other {id : String}
    (h : ∀ l ∈ s.stack.flatMap (·.site.loops), l.id ≠ id) : s.touch id = s := by
  have hstack : s.stack.map (·.touch id) = s.stack := by
    conv_rhs => rw [← List.map_id s.stack]
    apply List.map_congr_left
    intro a ha
    have ha' : a.site.touch id = a.site :=
      Site.touch_other fun l hl => h l (List.mem_flatMap.mpr ⟨a, ha, hl⟩)
    simp [Activation.touch, ha']
  rw [WatchState.touch, hstack]

/-- What a callback may call: it subscribes, asks, or registers an id that is free. -/
def WatchOp.mild (r : Registry (ClientFn × String) Subscription) : WatchOp Watcher → Bool
  | .subscribeForRegistration _ _ | .isServiceRegistered _ => true
  | .registerInterface id action _ => action.isSome && !r.isRegistered id
  | .unRegiterInterface _ => false

/-- Callbacks do not throw and make no other calls; clients call what they like. -/
def Behaves (s : WatchState) : Bool :=
  match s.focus with
  | .run _ _ (.throw _) => false
  | .run _ _ (.call op _) => op.mild s.registry
  | _ => true

/-- The callback has run and is nowhere to be found. -/
def WatchState.Retired (s : WatchState) (k : Nat) : Prop :=
  k < s.fresh ∧ (∀ id, k ∉ s.tokens id) ∧ ∀ a ∈ s.active, a.2 ≠ k

/-- What holds between any two steps if callbacks behave: the loops in progress are over the
vectors of different registered ids, which nobody changes, a registered id has no other vector,
and every callback is in one place. -/
structure Sound (s : WatchState) : Prop where
  idle : s.focus = .idle → s.stack = []
  nested : ∀ op, s.focus = .call op → s.stack = [] ∨ op.mild s.registry = true
  valid : ∀ l ∈ s.loops, l.valid = true ∧ s.registry.isRegistered l.id = true
  single : (s.loops.map (·.id)).Nodup
  quiet : ∀ id, s.registry.isRegistered id = true →
    s.registry.notifyMapping id = none ∨ ∃ l ∈ s.loops, l.id = id
  current : ∀ l k, (Site.notify l, k) ∈ s.active → ∃ p, (s.tokens l.id).take l.index = p ++ [k]
  atOnce : ∀ k id, (Site.subscribe, k) ∈ s.active → k ∉ s.tokens id
  once : (s.active.map (·.2)).Nodup
  sorted : ∀ id, (s.tokens id).Pairwise (· < ·)
  own : ∀ {id id' k}, k ∈ s.tokens id → k ∈ s.tokens id' → id = id'
  pendingBelow : ∀ id, ∀ k ∈ s.tokens id, k < s.fresh
  activeBelow : ∀ a ∈ s.active, a.2 < s.fresh
  exit : ∀ k, s.focus = .subscribeExit k → s.Retired k

theorem active_loop {l : Loop} (h : (Site.notify l, k) ∈ s.active) : l ∈ s.loops := by
  rcases List.mem_append.mp h with h | h
  · refine List.mem_append_left _ ?_
    cases hf : s.focus <;> simp_all [Focus.active, Focus.loops]
    rw [← h.1]
    simp [Site.loops]
  · obtain ⟨a, ha, heq⟩ := List.mem_map.mp h
    refine List.mem_append_right _ (List.mem_flatMap.mpr ⟨a, ha, ?_⟩)
    simp [(Prod.mk.inj heq).1, Site.loops]

namespace Sound

theorem init : Sound .init where
  idle _ := rfl
  nested op h := by cases h
  valid l h := by cases h
  single := List.nodup_nil
  quiet id h := by cases h
  current l k h := by cases h
  atOnce k id h := by cases h
  once := List.nodup_nil
  sorted id := List.Pairwise.nil
  own h := by cases h
  pendingBelow id k h := by cases h
  activeBelow a h := by cases h
  exit k h := by cases h

/-- Steps that leave the maps and the loops alone and start no callback. -/
theorem frame (h : Sound s) (hreg : s'.registry = s.registry) (hfresh : s'.fresh = s.fresh)
    (hloops : s'.loops = s.loops) (hactive : s'.active.Sublist s.active)
    (hidle : s'.focus = .idle → s'.stack = [])
    (hnested : ∀ op, s'.focus = .call op → s'.stack = [] ∨ op.mild s.registry = true)
    (hexit : ∀ k, s'.focus = .subscribeExit k → s'.Retired k) : Sound s' := by
  have htokens : s'.tokens = s.tokens := by
    funext id
    rw [WatchState.tokens, hreg]
    rfl
  constructor
  case idle => exact hidle
  case nested => exact hreg ▸ hnested
  case exit => exact hexit
  case once => exact (hactive.map _).nodup h.once
  case valid => exact hloops ▸ hreg ▸ h.valid
  case single => exact hloops ▸ h.single
  case quiet => exact hloops ▸ hreg ▸ h.quiet
  case current => exact fun l k hk => htokens ▸ h.current l k (hactive.subset hk)
  case atOnce => exact fun k id hk => htokens ▸ h.atOnce k id (hactive.subset hk)
  case sorted => exact htokens ▸ h.sorted
  case own => exact htokens ▸ h.own
  case pendingBelow => exact htokens ▸ hfresh ▸ h.pendingBelow
  case activeBelow => exact fun a ha => hfresh ▸ h.activeBelow a (hactive.subset ha)

/-- The call in progress ends and the maps stay. -/
theorem back (h : Sound s) (hloops : s.focus.loops = []) (o : Outcome) : Sound (s.back o) := by
  refine h.frame (s.back_registry o) (s.back_fresh o) ?_ ?_ (s.back_idle o) ?_ ?_
  · rw [s.back_loops, WatchState.loops, hloops, List.nil_append]
  · rw [s.back_active]
    exact List.sublist_append_right _ _
  · exact fun op hop => absurd hop (s.back_call o op)
  · exact fun k hk => absurd hk (s.back_exit o k)

theorem stack_loops (l : Loop) (hl : l ∈ s.stack.flatMap (·.site.loops)) : l ∈ s.loops :=
  List.mem_append_right _ hl

/-- A callback called by a loop is one of the pending ones. -/
theorem active_pending (h : Sound s) {l : Loop} {k : Nat} (hk : (Site.notify l, k) ∈ s.active) :
    k ∈ (s.tokens l.id).take l.index := by
  obtain ⟨p, hp⟩ := h.current l k hk
  simp [hp]

theorem subscribeRun (h : Sound s) {id : String} {cb : Watcher}
    (hf : s.focus = .call (.subscribeForRegistration id cb)) :
    Sound { s with focus := .run .subscribe s.fresh cb, fresh := s.fresh + 1 } := by
  have hactive (site : Site) (k : Nat) (hk : (site, k) ∈ WatchState.active
      { s with focus := .run .subscribe s.fresh cb, fresh := s.fresh + 1 }) :
      (site = .subscribe ∧ k = s.fresh) ∨ (site, k) ∈ s.active := by
    simpa [WatchState.active, Focus.active, hf] using hk
  constructor
  case idle => intro hidle; cases hidle
  case nested => intro op hop; cases hop
  case exit => intro k hk; cases hk
  case sorted => exact h.sorted
  case own => exact h.own
  case valid => simpa [WatchState.loops, Focus.loops, Site.loops, hf] using h.valid
  case single => simpa [WatchState.loops, Focus.loops, Site.loops, hf] using h.single
  case quiet => simpa [WatchState.loops, Focus.loops, Site.loops, hf] using h.quiet
  case pendingBelow => exact fun id k hk => Nat.lt_succ_of_lt (h.pendingBelow id k hk)
  case current =>
    intro l k hk
    rcases hactive _ _ hk with ⟨hsite, -⟩ | hk
    · cases hsite
    · exact h.current l k hk
  case atOnce =>
    intro k id hk hpending
    rcases hactive _ _ hk with ⟨-, rfl⟩ | hk
    · exact absurd (h.pendingBelow id _ hpending) (Nat.lt_irrefl _)
    · exact h.atOnce k id hk hpending
  case once =>
    have hnew : s.fresh ∉ s.active.map (·.2) := by
      intro hmem
      obtain ⟨a, ha, heq⟩ := List.mem_map.mp hmem
      exact absurd (h.activeBelow a ha) (by omega)
    have honce := List.nodup_cons.mpr ⟨hnew, h.once⟩
    simpa [WatchState.active, Focus.active, hf] using honce
  case activeBelow =>
    intro (site, k) hk
    rcases hactive _ _ hk with ⟨-, rfl⟩ | hk
    · exact Nat.lt_succ_self _
    · exact Nat.lt_succ_of_lt (h.activeBelow _ hk)

/-- No loop is over the vector of an id that is free. -/
theorem free_loops (h : Sound s) {id : String} (hr : s.registry.isRegistered id = false)
    (l : Loop) (hl : l ∈ s.loops) : l.id ≠ id := by
  intro heq
  subst heq
  exact absurd (h.valid l hl).2 (by simp [hr])

theorem touch_free (h : Sound s) {id : String} (hr : s.registry.isRegistered id = false)
    (r : Registry (ClientFn × String) Subscription) (fresh : Nat) :
    WatchState.touch { s with registry := r, fresh := fresh } id =
      { s with registry := r, fresh := fresh } :=
  WatchState.touch_other fun l hl => h.free_loops hr l (stack_loops l hl)

theorem mem_tokens_watch {id id' : String} {sub : Subscription} {k : Nat} {fresh : Nat} :
    k ∈ WatchState.tokens { s with registry := s.registry.watch id sub, fresh := fresh } id' ↔
      k ∈ s.tokens id' ∨ id' = id ∧ k = sub.token := by
  simp only [WatchState.tokens, Registry.watchers_watch]
  by_cases hid : id' = id <;> simp [hid]

/-- A subscription for a free id touches no loop. -/
theorem watch (h : Sound s) {id : String} {cb : Watcher}
    (hf : s.focus = .call (.subscribeForRegistration id cb))
    (hr : s.registry.isRegistered id = false) (o : Outcome) :
    Sound (({ s with registry := s.registry.watch id ⟨s.fresh, cb⟩,
                     fresh := s.fresh + 1 }.touch id).back o) := by
  have hactive : s.active = s.stack.map fun a => (a.site, a.token) := by
    simp [WatchState.active, Focus.active, hf]
  have hloop (l : Loop) (k : Nat) (hk : (Site.notify l, k) ∈ s.active) : l.id ≠ id :=
    h.free_loops hr l (active_loop hk)
  have hsame {id' : String} (hid : id' ≠ id) : WatchState.tokens
      { s with registry := s.registry.watch id ⟨s.fresh, cb⟩, fresh := s.fresh + 1 } id' =
        s.tokens id' := by
    simp [WatchState.tokens, Registry.watchers_watch, hid]
  have hpending {id' : String} {k : Nat} (hk : k ∈ WatchState.tokens
      { s with registry := s.registry.watch id ⟨s.fresh, cb⟩, fresh := s.fresh + 1 } id') :
      k ∈ s.tokens id' ∨ id' = id ∧ k = s.fresh := mem_tokens_watch.mp hk
  rw [h.touch_free hr]
  constructor
  case idle => exact WatchState.back_idle _ o
  case nested => exact fun op hop => absurd hop (WatchState.back_call _ o op)
  case exit => exact fun k hk => absurd hk (WatchState.back_exit _ o k)
  case valid =>
    rw [WatchState.back_loops, WatchState.back_registry]
    exact fun l hl => h.valid l (stack_loops l hl)
  case single =>
    rw [WatchState.back_loops]
    simpa [WatchState.loops, Focus.loops, hf] using h.single
  case quiet =>
    rw [WatchState.back_loops, WatchState.back_registry]
    intro id' hid'
    have hne : id' ≠ id := by
      intro heq
      subst heq
      simp [Registry.isRegistered] at hr hid'
      simp [hr] at hid'
    rcases h.quiet id' hid' with hnone | hloops
    · left
      simp [Registry.watch, Function.update_of_ne hne, hnone]
    · right
      simpa [WatchState.loops, Focus.loops, hf] using hloops
  case current =>
    rw [WatchState.back_active, WatchState.back_tokens]
    intro l k hk
    rw [← hactive] at hk
    rw [hsame (hloop l k hk)]
    exact h.current l k hk
  case atOnce =>
    rw [WatchState.back_active, WatchState.back_tokens]
    intro k id' hk hmem
    rw [← hactive] at hk
    rcases hpending hmem with hmem | ⟨-, rfl⟩
    · exact h.atOnce k id' hk hmem
    · exact absurd (h.activeBelow _ hk) (Nat.lt_irrefl _)
  case once =>
    rw [WatchState.back_active]
    exact hactive ▸ h.once
  case sorted =>
    rw [WatchState.back_tokens]
    intro id'
    by_cases hid : id' = id
    · subst hid
      simp only [WatchState.tokens, Registry.watchers_watch, if_true, List.map_append,
        List.map_cons, List.map_nil]
      refine List.pairwise_append.mpr ⟨h.sorted id', List.pairwise_singleton _ _, ?_⟩
      intro k hk k' hk'
      rw [List.mem_singleton.mp hk']
      exact h.pendingBelow id' k hk
    · rw [hsame hid]
      exact h.sorted id'
  case own =>
    rw [WatchState.back_tokens]
    intro id₁ id₂ k h₁ h₂
    rcases hpending h₁ with hold₁ | ⟨hid₁, hk₁⟩ <;> rcases hpending h₂ with hold₂ | ⟨hid₂, hk₂⟩
    · exact h.own hold₁ hold₂
    · exact absurd (hk₂ ▸ h.pendingBelow _ _ hold₁) (Nat.lt_irrefl _)
    · exact absurd (hk₁ ▸ h.pendingBelow _ _ hold₂) (Nat.lt_irrefl _)
    · exact hid₁.trans hid₂.symm
  case pendingBelow =>
    rw [WatchState.back_tokens, WatchState.back_fresh]
    intro id' k hk
    rcases hpending hk with hk | ⟨-, rfl⟩
    · exact Nat.lt_succ_of_lt (h.pendingBelow id' k hk)
    · exact Nat.lt_succ_self _
  case activeBelow =>
    rw [WatchState.back_active, WatchState.back_fresh]
    exact fun a ha => Nat.lt_succ_of_lt (h.activeBelow a (hactive ▸ ha))

/-- A free id is registered and its loop starts. -/
theorem store (h : Sound s) {id typeId : String} {a : ClientFn}
    (hf : s.focus = .call (.registerInterface id (some a) typeId))
    (hr : s.registry.isRegistered id = false) :
    Sound { s with registry := s.registry.store id (a, typeId),
                   focus := .notify ⟨id, 0, true⟩ } := by
  have hloops : s.loops = s.stack.flatMap (·.site.loops) := by
    simp [WatchState.loops, Focus.loops, hf]
  have hactive : WatchState.active { s with registry := s.registry.store id (a, typeId),
                                            focus := .notify ⟨id, 0, true⟩ } = s.active := by
    simp [WatchState.active, Focus.active, hf]
  have hloops' : WatchState.loops { s with registry := s.registry.store id (a, typeId),
                                           focus := .notify ⟨id, 0, true⟩ } =
      ⟨id, 0, true⟩ :: s.loops := by
    rw [hloops]
    rfl
  constructor
  case idle => intro hidle; cases hidle
  case nested => intro op hop; cases hop
  case exit => intro k hk; cases hk
  case sorted => exact h.sorted
  case own => exact h.own
  case pendingBelow => exact h.pendingBelow
  case current => exact hactive ▸ h.current
  case atOnce => exact hactive ▸ h.atOnce
  case once => exact hactive ▸ h.once
  case activeBelow => exact hactive ▸ h.activeBelow
  case valid =>
    rw [hloops']
    intro l hl
    rw [Registry.isRegistered_store]
    rcases List.mem_cons.mp hl with rfl | hl
    · simp
    · simp [h.valid l hl]
  case single =>
    rw [hloops', List.map_cons]
    refine List.nodup_cons.mpr ⟨fun hmem => ?_, h.single⟩
    obtain ⟨l, hl, rfl⟩ := List.mem_map.mp hmem
    have hreg := (h.valid l hl).2
    simp [hr] at hreg
  case quiet =>
    rw [hloops']
    intro id' hid'
    rw [Registry.isRegistered_store, Bool.or_eq_true, decide_eq_true_iff] at hid'
    rcases hid' with rfl | hid'
    · exact .inr ⟨_, List.mem_cons_self, rfl⟩
    · rcases h.quiet id' hid' with hnone | ⟨l, hl, hid⟩
      · exact .inl hnone
      · exact .inr ⟨l, List.mem_cons_of_mem _ hl, hid⟩

/-- Only a client unregisters, and then no loop is in progress. -/
theorem unregister (h : Sound s) {id : String} (hf : s.focus = .call (.unRegiterInterface id))
    (o : Outcome) : Sound ({ s with registry := s.registry.eraseAction id }.back o) := by
  have hstack : s.stack = [] := (h.nested _ hf).resolve_right (by simp [WatchOp.mild])
  have hloops : s.loops = [] := by simp [WatchState.loops, Focus.loops, hf, hstack]
  have hback : WatchState.back { s with registry := s.registry.eraseAction id } o =
      { s with registry := s.registry.eraseAction id, focus := .idle } := by
    simp [WatchState.back, hstack]
  rw [hback]
  constructor
  case idle => exact fun _ => hstack
  case nested => intro op hop; cases hop
  case exit => intro k hk; cases hk
  case sorted => exact h.sorted
  case own => exact h.own
  case pendingBelow => exact h.pendingBelow
  case valid => simp [WatchState.loops, Focus.loops, hstack]
  case single => simp [WatchState.loops, Focus.loops, hstack]
  case current => simp [WatchState.active, Focus.active, hstack]
  case atOnce => simp [WatchState.active, Focus.active, hstack]
  case once => simp [WatchState.active, Focus.active, hstack]
  case activeBelow => simp [WatchState.active, Focus.active, hstack]
  case quiet =>
    intro id' hid'
    left
    have hreg : s.registry.isRegistered id' = true := by
      rw [Registry.isRegistered_eraseAction, Bool.and_eq_true] at hid'
      exact hid'.2
    simpa [hloops] using h.quiet id' hreg

/-- The other loops in progress are over other vectors. -/
theorem other_loops (h : Sound s) {l : Loop} (hf : s.focus = .notify l) {l' : Loop}
    (hl' : l' ∈ s.stack.flatMap (·.site.loops)) : l'.id ≠ l.id := by
  have hsingle := h.single
  rw [WatchState.loops, hf] at hsingle
  have hnot := (List.nodup_cons.mp hsingle).1
  exact fun heq => hnot (List.mem_map.mpr ⟨l', hl', heq⟩)

theorem touch_end (h : Sound s) {l : Loop} (hf : s.focus = .notify l)
    (r : Registry (ClientFn × String) Subscription) :
    WatchState.touch { s with registry := r } l.id = { s with registry := r } :=
  WatchState.touch_other fun _ hl => h.other_loops hf hl

theorem other_active (h : Sound s) {l l' : Loop} (hf : s.focus = .notify l) {k : Nat}
    (hk : (Site.notify l', k) ∈ s.active) : l'.id ≠ l.id := by
  simp only [WatchState.active, Focus.active, hf, List.nil_append] at hk
  obtain ⟨a, ha, heq⟩ := List.mem_map.mp hk
  refine h.other_loops hf (List.mem_flatMap.mpr ⟨a, ha, ?_⟩)
  simp [(Prod.mk.inj heq).1, Site.loops]

/-- The callback a loop comes to is not at work already. -/
theorem next_inactive (h : Sound s) {l : Loop} {k : Nat} (hf : s.focus = .notify l)
    (hk : k ∈ s.tokens l.id) : ∀ a ∈ s.active, a.2 ≠ k := by
  intro (site, k') ha heq
  subst heq
  cases site with
  | subscribe => exact h.atOnce k' l.id ha hk
  | notify l' =>
    have hpending := List.mem_of_mem_take (h.active_pending ha)
    exact h.other_active hf ha (h.own hpending hk)

theorem notifyOne (h : Sound s) {l : Loop} {sub : Subscription} (hf : s.focus = .notify l)
    (hi : (s.registry.watchers l.id)[l.index]? = some sub) :
    Sound { s with
      focus := .run (.notify { l with index := l.index + 1 }) sub.token sub.code } := by
  have htoken : (s.tokens l.id)[l.index]? = some sub.token := by
    simp [WatchState.tokens, hi]
  have hmem : sub.token ∈ s.tokens l.id := List.mem_of_getElem? htoken
  have hactive (site : Site) (k : Nat) (hk : (site, k) ∈ WatchState.active { s with
      focus := .run (.notify { l with index := l.index + 1 }) sub.token sub.code }) :
      (site = .notify { l with index := l.index + 1 } ∧ k = sub.token) ∨
        (site, k) ∈ s.active := by
    simpa [WatchState.active, Focus.active, hf] using hk
  have hloops := h.valid
  have hsingle := h.single
  have hquiet := h.quiet
  simp only [WatchState.loops, Focus.loops, hf] at hloops hsingle hquiet
  constructor
  case idle => intro hidle; cases hidle
  case nested => intro op hop; cases hop
  case exit => intro k hk; cases hk
  case sorted => exact h.sorted
  case own => exact h.own
  case pendingBelow => exact h.pendingBelow
  case valid => simpa [WatchState.loops, Focus.loops, Site.loops] using hloops
  case single => simpa [WatchState.loops, Focus.loops, Site.loops] using hsingle
  case quiet => simpa [WatchState.loops, Focus.loops, Site.loops] using hquiet
  case current =>
    intro l' k hk
    rcases hactive _ _ hk with ⟨hsite, rfl⟩ | hk
    · obtain rfl := Site.notify.inj hsite
      refine ⟨(s.tokens l.id).take l.index, ?_⟩
      change (s.tokens l.id).take (l.index + 1) = _
      rw [List.take_add_one, htoken]
      rfl
    · exact h.current l' k hk
  case atOnce =>
    intro k id hk hpending
    rcases hactive _ _ hk with ⟨hsite, -⟩ | hk
    · cases hsite
    · exact h.atOnce k id hk hpending
  case once =>
    have hnew : sub.token ∉ s.active.map (·.2) := by
      intro hmem'
      obtain ⟨a, ha, heq⟩ := List.mem_map.mp hmem'
      exact h.next_inactive hf hmem a ha heq
    have honce := List.nodup_cons.mpr ⟨hnew, h.once⟩
    simpa [WatchState.active, Focus.active, hf] using honce
  case activeBelow =>
    intro (site, k) hk
    rcases hactive _ _ hk with ⟨-, rfl⟩ | hk
    · exact h.pendingBelow l.id _ hmem
    · exact h.activeBelow _ hk

theorem notifyEnd (h : Sound s) {l : Loop} (hf : s.focus = .notify l) (o : Outcome) :
    Sound (({ s with registry := s.registry.eraseWatchers l.id }.touch l.id).back o) := by
  have hactive : s.active = s.stack.map fun a => (a.site, a.token) := by
    simp [WatchState.active, Focus.active, hf]
  have hsame {id : String} (hid : id ≠ l.id) :
      WatchState.tokens { s with registry := s.registry.eraseWatchers l.id } id = s.tokens id := by
    simp [WatchState.tokens, Registry.watchers_eraseWatchers, hid]
  have hnil : WatchState.tokens { s with registry := s.registry.eraseWatchers l.id } l.id = [] := by
    simp [WatchState.tokens, Registry.watchers_eraseWatchers]
  have hpending {id : String} {k : Nat}
      (hk : k ∈ WatchState.tokens { s with registry := s.registry.eraseWatchers l.id } id) :
      k ∈ s.tokens id := by
    by_cases hid : id = l.id
    · subst hid
      simp [hnil] at hk
    · rwa [hsame hid] at hk
  rw [h.touch_end hf]
  constructor
  case idle => exact WatchState.back_idle _ o
  case nested => exact fun op hop => absurd hop (WatchState.back_call _ o op)
  case exit => exact fun k hk => absurd hk (WatchState.back_exit _ o k)
  case valid =>
    rw [WatchState.back_loops, WatchState.back_registry]
    exact fun l' hl' => h.valid l' (stack_loops l' hl')
  case single =>
    rw [WatchState.back_loops]
    have hsingle := h.single
    rw [WatchState.loops, hf] at hsingle
    exact (List.nodup_cons.mp hsingle).2
  case quiet =>
    rw [WatchState.back_loops, WatchState.back_registry]
    intro id hid
    by_cases hne : id = l.id
    · left
      simp [Registry.eraseWatchers, hne]
    · rcases h.quiet id hid with hnone | ⟨l', hl', hid'⟩
      · left
        simp [Registry.eraseWatchers, Function.update_of_ne hne, hnone]
      · rw [WatchState.loops, hf] at hl'
        rcases List.mem_cons.mp hl' with rfl | hl'
        · exact absurd hid'.symm hne
        · exact .inr ⟨l', hl', hid'⟩
  case current =>
    rw [WatchState.back_active, WatchState.back_tokens, ← hactive]
    intro l' k hk
    rw [hsame (h.other_active hf hk)]
    exact h.current l' k hk
  case atOnce =>
    rw [WatchState.back_active, WatchState.back_tokens, ← hactive]
    exact fun k id hk hmem => h.atOnce k id hk (hpending hmem)
  case once =>
    rw [WatchState.back_active, ← hactive]
    exact h.once
  case sorted =>
    rw [WatchState.back_tokens]
    intro id
    by_cases hid : id = l.id
    · subst hid
      rw [hnil]
      exact List.Pairwise.nil
    · rw [hsame hid]
      exact h.sorted id
  case own =>
    rw [WatchState.back_tokens]
    exact fun h₁ h₂ => h.own (hpending h₁) (hpending h₂)
  case pendingBelow =>
    rw [WatchState.back_tokens, WatchState.back_fresh]
    exact fun id k hk => h.pendingBelow id k (hpending hk)
  case activeBelow =>
    rw [WatchState.back_active, WatchState.back_fresh, ← hactive]
    exact h.activeBelow

theorem step (h : Sound s) (hm : WatchMoves s i e s') (hb : Behaves s = true) : Sound s' := by
  cases hm with
  | call t op hf =>
    have hstack := h.idle hf
    refine h.frame rfl rfl ?_ ?_ (fun hi => by cases hi) (fun op' _ => .inl hstack)
      (fun k hk => by cases hk)
    · simp [WatchState.loops, Focus.loops, hf]
    · simp [WatchState.active, Focus.active, hf]
  | subscribeRun hf hr => exact h.subscribeRun hf
  | subscribe hf hr => exact h.watch hf hr _
  | refuse hf hr => exact h.back (by rw [hf]; rfl) _
  | register hf hr => exact h.store hf hr
  | unregister hf hr => exact h.unregister hf _
  | unregisterUnknown hf hr => exact h.back (by rw [hf]; rfl) _
  | isRegistered hf => exact h.back (by rw [hf]; rfl) _
  | notifyOne hf hv hi => exact h.notifyOne hf hi
  | notifyEnd hf hv hi => exact h.notifyEnd hf _
  | @finishAtOnce k hf =>
    have hactive : s.active = (.subscribe, k) :: s.stack.map fun a => (a.site, a.token) := by
      simp [WatchState.active, Focus.active, hf]
    refine h.frame rfl rfl ?_ ?_ (fun hi => by cases hi) (fun op' hop => by cases hop) ?_
    · simp [WatchState.loops, Focus.loops, Site.loops, hf]
    · simp [WatchState.active, Focus.active, hf]
    · intro k' hk'
      obtain rfl := Focus.subscribeExit.inj hk'
      have honce := h.once
      rw [hactive, List.map_cons, List.nodup_cons] at honce
      refine ⟨h.activeBelow _ (hactive ▸ List.mem_cons_self), fun id => ?_, fun a ha heq => ?_⟩
      · exact h.atOnce k id (hactive ▸ List.mem_cons_self)
      · exact honce.1 (List.mem_map.mpr ⟨a, ha, heq⟩)
  | finish hf =>
    refine h.frame rfl rfl ?_ ?_ (fun hi => by cases hi) (fun op' hop => by cases hop)
      (fun k hk => by cases hk)
    · simp [WatchState.loops, Focus.loops, Site.loops, hf]
    · simp [WatchState.active, Focus.active, hf]
  | throw hf => simp [Behaves, hf] at hb
  | nest hf =>
    simp only [Behaves, hf] at hb
    refine h.frame rfl rfl ?_ ?_ (fun hi => by cases hi) (fun op' hop => ?_)
      (fun k hk => by cases hk)
    · simp [WatchState.loops, Focus.loops, hf]
    · simp [WatchState.active, Focus.active, hf]
    · obtain rfl := Focus.call.inj hop
      exact .inr hb
  | subscribeExit hf => exact h.back (by rw [hf]; rfl) _

end Sound

theorem sound (h : watch.Run (fun _ s _ => Behaves s) tr s) : Sound s := by
  refine h.invariant (J := fun _ s => Sound s) .init ?_
  intro tr s i e s' _ ih hok hs
  exact ih.step (watch_moves hs) hok

end ServiceLib
