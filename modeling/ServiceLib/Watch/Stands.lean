import ServiceLib.Watch.Life
import ServiceLib.Watch.Sound
import Mathlib.Data.List.Nodup

namespace ServiceLib

open Machine

variable {tr : List WatchEvent} {s s' : WatchState} {i : WatchInput} {e : WatchEvent} {k : Nat}
  {p : Life}

/-- Where a callback is found in each place of its life. -/
def Stands (s : WatchState) (k : Nat) : Life → Prop
  | .unknown => s.fresh ≤ k
  | .pending id => s.registry.isRegistered id = false ∧ k ∈ s.tokens id
  | .notifying id => ∃ l ∈ s.loops, l.id = id ∧ k ∈ (s.tokens id).drop l.index
  | .running id => ∃ l, (Site.notify l, k) ∈ s.active ∧ l.id = id
  | .ran id => (∃ l ∈ s.loops, l.id = id ∧ k ∈ (s.tokens id).take l.index) ∧
      ∀ a ∈ s.active, a.2 ≠ k
  | .runningAtOnce _ => (Site.subscribe, k) ∈ s.active
  | .ranAtOnce _ => s.focus = .subscribeExit k
  | .done _ | .closed _ => s.Retired k ∧ s.focus ≠ .subscribeExit k

namespace Sound

/-- There is one loop over a vector. -/
theorem same_loop (h : Sound s) {l l' : Loop} (hl : l ∈ s.loops) (hl' : l' ∈ s.loops)
    (hid : l.id = l'.id) : l = l' :=
  List.inj_on_of_nodup_map h.single hl hl' hid

theorem take_drop (h : Sound s) {id : String} {m : Nat} (ht : k ∈ (s.tokens id).take m)
    (hd : k ∈ (s.tokens id).drop m) : False := by
  have hnodup : (s.tokens id).Nodup := (h.sorted id).imp fun hlt => Nat.ne_of_lt hlt
  exact List.disjoint_take_drop hnodup (Nat.le_refl m) ht hd

end Sound

/-- The step from `s` to `s'` is not about callback `k`: it waits for the same ids, stands as before
ahead of the loops over them or behind, and is at work for whom it was. -/
structure Untouched (s s' : WatchState) (k : Nat) : Prop where
  fresh : k < s.fresh ↔ k < s'.fresh
  tokens : ∀ id, k ∈ s.tokens id ↔ k ∈ s'.tokens id
  free : ∀ id, k ∈ s.tokens id → s.registry.isRegistered id = false →
    s'.registry.isRegistered id = false
  ahead : ∀ l ∈ s.loops, k ∈ (s.tokens l.id).drop l.index →
    ∃ l' ∈ s'.loops, l'.id = l.id ∧ k ∈ (s'.tokens l.id).drop l'.index
  behind : ∀ l ∈ s.loops, k ∈ (s.tokens l.id).take l.index →
    ∃ l' ∈ s'.loops, l'.id = l.id ∧ k ∈ (s'.tokens l.id).take l'.index
  active : ∀ site, (site, k) ∈ s.active ↔ (site, k) ∈ s'.active
  exit : s.focus ≠ .subscribeExit k
  exit' : s'.focus ≠ .subscribeExit k

namespace Stands

/-- A callback at work stands in the loop or in the subscription that called it. -/
theorem of_active (h : Sound s) (hp : Stands s k p) {site : Site} (ha : (site, k) ∈ s.active) :
    (site = .subscribe ∧ ∃ id, p = .runningAtOnce id) ∨
      ∃ l, site = .notify l ∧ p = .running l.id := by
  have hsite {site' : Site} (ha' : (site', k) ∈ s.active) : site = site' :=
    (Prod.mk.inj (List.inj_on_of_nodup_map h.once ha ha' rfl)).1
  have hloop {l : Loop} (hl : site = .notify l) :
      k ∈ (s.tokens l.id).take l.index ∧ l ∈ s.loops :=
    ⟨h.active_pending (hl ▸ ha), active_loop (hl ▸ ha)⟩
  have honce (hs : site = .subscribe) (id : String) : k ∉ s.tokens id := h.atOnce k id (hs ▸ ha)
  cases p with
  | unknown => exact absurd (h.activeBelow _ ha) (Nat.not_lt.mpr hp)
  | pending id =>
    cases site with
    | subscribe => exact absurd hp.2 (honce rfl id)
    | notify l =>
      obtain ⟨hk, hl⟩ := hloop rfl
      obtain rfl := h.own (List.mem_of_mem_take hk) hp.2
      exact absurd (h.valid l hl).2 (by simp [hp.1])
  | notifying id =>
    obtain ⟨l', hl', rfl, hk'⟩ := hp
    cases site with
    | subscribe => exact absurd (List.mem_of_mem_drop hk') (honce rfl _)
    | notify l =>
      obtain ⟨hk, hl⟩ := hloop rfl
      obtain rfl := h.same_loop hl hl' (h.own (List.mem_of_mem_take hk) (List.mem_of_mem_drop hk'))
      exact (h.take_drop hk hk').elim
  | running id =>
    obtain ⟨l, hl, rfl⟩ := hp
    exact .inr ⟨l, hsite hl, rfl⟩
  | ran id => exact absurd rfl (hp.2 _ ha)
  | done id => exact absurd rfl (hp.1.2.2 _ ha)
  | closed id => exact absurd rfl (hp.1.2.2 _ ha)
  | runningAtOnce id => exact .inl ⟨hsite hp, id, rfl⟩
  | ranAtOnce id => exact absurd rfl ((h.exit k hp).2.2 _ ha)

/-- A callback a loop has still to come to waits for it. -/
theorem of_ahead (h : Sound s) (hp : Stands s k p) {l : Loop} (hf : s.focus = .notify l)
    (hk : k ∈ (s.tokens l.id).drop l.index) : p = .notifying l.id := by
  have hl : l ∈ s.loops := by simp [WatchState.loops, Focus.loops, hf]
  have hpending := List.mem_of_mem_drop hk
  cases p with
  | unknown => exact absurd (h.pendingBelow _ _ hpending) (Nat.not_lt.mpr hp)
  | pending id =>
    obtain rfl := h.own hpending hp.2
    exact absurd (h.valid l hl).2 (by simp [hp.1])
  | notifying id =>
    obtain ⟨l', -, rfl, hk'⟩ := hp
    rw [h.own hpending (List.mem_of_mem_drop hk')]
  | running id =>
    obtain ⟨l', hl', rfl⟩ := hp
    have hk' := List.mem_of_mem_take (h.active_pending hl')
    exact absurd (h.own hk' hpending) (h.other_active hf hl')
  | ran id =>
    obtain ⟨⟨l', hl', rfl, hk'⟩, -⟩ := hp
    obtain rfl := h.same_loop hl' hl (h.own (List.mem_of_mem_take hk') hpending)
    exact (h.take_drop hk' hk).elim
  | done id => exact absurd hpending (hp.1.2.1 _)
  | closed id => exact absurd hpending (hp.1.2.1 _)
  | runningAtOnce id => exact absurd hpending (h.atOnce k _ hp)
  | ranAtOnce id => exact absurd hpending ((h.exit k hp).2.1 _)

/-- A callback whose subscription is about to return has run in it. -/
theorem of_exit (h : Sound s) (hp : Stands s k p) (hf : s.focus = .subscribeExit k) :
    ∃ id, p = .ranAtOnce id := by
  obtain ⟨hlt, htokens, hactive⟩ := h.exit k hf
  cases p with
  | unknown => exact absurd hlt (Nat.not_lt.mpr hp)
  | pending id => exact absurd hp.2 (htokens id)
  | notifying id =>
    obtain ⟨l, -, rfl, hk⟩ := hp
    exact absurd (List.mem_of_mem_drop hk) (htokens _)
  | running id =>
    obtain ⟨l, hl, -⟩ := hp
    exact absurd rfl (hactive _ hl)
  | ran id =>
    obtain ⟨⟨l, -, rfl, hk⟩, -⟩ := hp
    exact absurd (List.mem_of_mem_take hk) (htokens _)
  | done id => exact absurd hf hp.2
  | closed id => exact absurd hf hp.2
  | runningAtOnce id => exact absurd rfl (hactive _ hp)
  | ranAtOnce id => exact ⟨id, rfl⟩

theorem below (h : Sound s) (hp : Stands s k p) (hne : p ≠ .unknown) : k < s.fresh := by
  cases p with
  | unknown => exact absurd rfl hne
  | pending id => exact h.pendingBelow _ _ hp.2
  | notifying id =>
    obtain ⟨l, -, -, hk⟩ := hp
    exact h.pendingBelow _ _ (List.mem_of_mem_drop hk)
  | running id =>
    obtain ⟨l, hl, -⟩ := hp
    exact h.activeBelow _ hl
  | ran id =>
    obtain ⟨⟨l, -, -, hk⟩, -⟩ := hp
    exact h.pendingBelow _ _ (List.mem_of_mem_take hk)
  | done id => exact hp.1.1
  | closed id => exact hp.1.1
  | runningAtOnce id => exact h.activeBelow _ hp
  | ranAtOnce id => exact (h.exit k hp).1

theorem untouched (hp : Stands s k p) (hs : Untouched s s' k) : Stands s' k p := by
  have hactive (ha : ∀ a ∈ s.active, a.2 ≠ k) : ∀ a ∈ s'.active, a.2 ≠ k := by
    intro (site, k') hmem hk
    obtain rfl : k' = k := hk
    exact ha _ ((hs.active site).mpr hmem) rfl
  have hretired (hr : s.Retired k) : s'.Retired k := by
    obtain ⟨hlt, htokens, ha⟩ := hr
    exact ⟨hs.fresh.mp hlt, fun id hmem => htokens id ((hs.tokens id).mpr hmem), hactive ha⟩
  cases p with
  | unknown => exact Nat.not_lt.mp fun hlt => Nat.not_lt.mpr hp (hs.fresh.mpr hlt)
  | pending id =>
    obtain ⟨hr, hk⟩ := hp
    exact ⟨hs.free id hk hr, (hs.tokens id).mp hk⟩
  | notifying id =>
    obtain ⟨l, hl, rfl, hk⟩ := hp
    exact hs.ahead l hl hk
  | running id =>
    obtain ⟨l, hl, hid⟩ := hp
    exact ⟨l, (hs.active _).mp hl, hid⟩
  | ran id =>
    obtain ⟨⟨l, hl, rfl, hk⟩, ha⟩ := hp
    exact ⟨hs.behind l hl hk, hactive ha⟩
  | runningAtOnce id => exact (hs.active _).mp hp
  | ranAtOnce id => exact absurd hp hs.exit
  | done id => exact ⟨hretired hp.1, hs.exit'⟩
  | closed id => exact ⟨hretired hp.1, hs.exit'⟩

/-- Steps that leave the maps, the loops and the callbacks at work alone. -/
theorem frame (hp : Stands s k p) (hreg : s'.registry = s.registry) (hfresh : s'.fresh = s.fresh)
    (hloops : s'.loops = s.loops) (hactive : s'.active = s.active)
    (hf : s.focus ≠ .subscribeExit k) (hf' : s'.focus ≠ .subscribeExit k) : Stands s' k p := by
  have htokens : s'.tokens = s.tokens := by
    funext id
    rw [WatchState.tokens, hreg]
    rfl
  refine hp.untouched ⟨by rw [hfresh], fun id => by rw [htokens], ?_, ?_, ?_, ?_, hf, hf'⟩
  · intro id _ hr
    rw [hreg]
    exact hr
  · intro l hl hk
    exact ⟨l, hloops ▸ hl, rfl, htokens ▸ hk⟩
  · intro l hl hk
    exact ⟨l, hloops ▸ hl, rfl, htokens ▸ hk⟩
  · intro site
    rw [hactive]

/-- What a step does to the life of a callback: nothing, or one step on. -/
def Next (s' : WatchState) (k : Nat) (p : Life) (e : WatchEvent) : Prop :=
  p.Ignores k e ∧ Stands s' k p ∨ ∃ q, p.Advance k e q ∧ Stands s' k q

theorem back (hp : Stands s k p) (hloops : s.focus.loops = []) (hactive : s.focus.active = [])
    (hf : s.focus ≠ .subscribeExit k) (o : Outcome) : Stands (s.back o) k p := by
  refine hp.frame (s.back_registry o) (s.back_fresh o) ?_ ?_ hf (s.back_exit o k)
  · rw [s.back_loops, WatchState.loops, hloops, List.nil_append]
  · rw [s.back_active, WatchState.active, hactive, List.nil_append]

/-- The callback a subscription gives its number to is new. -/
theorem fresh_unknown (h : Sound s) (hp : Stands s s.fresh p) : p = .unknown := by
  by_contra hne
  exact absurd (hp.below h hne) (Nat.lt_irrefl _)

theorem subscribeRun (h : Sound s) (hp : Stands s k p) {id : String} {cb : Watcher}
    (hf : s.focus = .call (.subscribeForRegistration id cb)) :
    Next { s with focus := .run .subscribe s.fresh cb, fresh := s.fresh + 1 } k p
      (.ranAtOnce s.fresh id) := by
  have hloops : WatchState.loops { s with focus := .run .subscribe s.fresh cb,
                                          fresh := s.fresh + 1 } = s.loops := by
    simp [WatchState.loops, Focus.loops, Site.loops, hf]
  have hactive : WatchState.active { s with focus := .run .subscribe s.fresh cb,
                                            fresh := s.fresh + 1 } =
      (.subscribe, s.fresh) :: s.active := by
    simp [WatchState.active, Focus.active, hf]
  by_cases hk : k = s.fresh
  · subst hk
    obtain rfl := hp.fresh_unknown h
    refine .inr ⟨_, .ranAtOnce, ?_⟩
    rw [Stands, hactive]
    exact List.mem_cons_self
  · have hne : (WatchEvent.ranAtOnce s.fresh id).about k = false := by
      simpa [WatchEvent.about] using Ne.symm hk
    refine .inl ⟨p.ignores hne fun _ => rfl, hp.untouched ⟨?_, fun _ => .rfl, fun _ _ hr => hr,
      fun l hl hmem => ⟨l, hloops ▸ hl, rfl, hmem⟩, fun l hl hmem => ⟨l, hloops ▸ hl, rfl, hmem⟩,
      fun site => ?_, by simp [hf], by simp⟩⟩
    · change k < s.fresh ↔ k < s.fresh + 1
      omega
    · simp [hactive, hk]

theorem watch (h : Sound s) (hp : Stands s k p) {id : String} {cb : Watcher}
    (hf : s.focus = .call (.subscribeForRegistration id cb))
    (hr : s.registry.isRegistered id = false) (o : Outcome) :
    Next (({ s with registry := s.registry.watch id ⟨s.fresh, cb⟩,
                    fresh := s.fresh + 1 }.touch id).back o) k p (.watched ⟨s.fresh, cb⟩ id) := by
  have hloops : s.loops = s.stack.flatMap (·.site.loops) := by
    simp [WatchState.loops, Focus.loops, hf]
  have hactive : s.active = s.stack.map fun a => (a.site, a.token) := by
    simp [WatchState.active, Focus.active, hf]
  have hother := h.free_loops hr
  have hsame {id' : String} (hid : id' ≠ id) : WatchState.tokens
      { s with registry := s.registry.watch id ⟨s.fresh, cb⟩, fresh := s.fresh + 1 } id' =
        s.tokens id' := by
    simp [WatchState.tokens, Registry.watchers_watch, hid]
  rw [h.touch_free hr]
  by_cases hk : k = s.fresh
  · subst hk
    obtain rfl := hp.fresh_unknown h
    refine .inr ⟨_, .watched rfl, ?_⟩
    rw [Stands, WatchState.back_registry, WatchState.back_tokens]
    exact ⟨hr, Sound.mem_tokens_watch.mpr (.inr ⟨rfl, rfl⟩)⟩
  · have hne : (WatchEvent.watched ⟨s.fresh, cb⟩ id).about k = false := by
      simpa [WatchEvent.about] using Ne.symm hk
    refine .inl ⟨p.ignores hne fun _ => rfl, hp.untouched ⟨?_, fun id' => ?_, fun id' _ hr' => ?_,
      fun l hl hmem => ⟨l, ?_, rfl, ?_⟩, fun l hl hmem => ⟨l, ?_, rfl, ?_⟩, fun site => ?_,
      by simp [hf], WatchState.back_exit _ o k⟩⟩
    · rw [WatchState.back_fresh]
      change k < s.fresh ↔ k < s.fresh + 1
      omega
    · rw [WatchState.back_tokens, Sound.mem_tokens_watch]
      simp [hk]
    · rw [WatchState.back_registry]
      exact hr'
    · rw [WatchState.back_loops]
      exact hloops ▸ hl
    · rw [WatchState.back_tokens, hsame (hother l hl)]
      exact hmem
    · rw [WatchState.back_loops]
      exact hloops ▸ hl
    · rw [WatchState.back_tokens, hsame (hother l hl)]
      exact hmem
    · rw [WatchState.back_active, hactive]

theorem store (h : Sound s) (hp : Stands s k p) {id typeId : String} {a : ClientFn}
    (hf : s.focus = .call (.registerInterface id (some a) typeId))
    (hr : s.registry.isRegistered id = false) :
    Next { s with registry := s.registry.store id (a, typeId),
                  focus := .notify ⟨id, 0, true⟩ } k p (.stored id) := by
  have hactive : WatchState.active { s with registry := s.registry.store id (a, typeId),
                                            focus := .notify ⟨id, 0, true⟩ } = s.active := by
    simp [WatchState.active, Focus.active, hf]
  have hloops : WatchState.loops { s with registry := s.registry.store id (a, typeId),
                                          focus := .notify ⟨id, 0, true⟩ } =
      ⟨id, 0, true⟩ :: s.loops := by
    simp [WatchState.loops, Focus.loops, hf]
  have hother := h.free_loops hr
  have hexit : s.focus ≠ .subscribeExit k := by simp [hf]
  cases p with
  | pending id' =>
    by_cases hid : id' = id
    · subst hid
      refine .inr ⟨_, .stored, ⟨id', 0, true⟩, ?_, rfl, hp.2⟩
      rw [hloops]
      exact List.mem_cons_self
    · refine .inl ⟨⟨rfl, by simpa [Life.minds] using Ne.symm hid⟩, ?_, hp.2⟩
      rw [Registry.isRegistered_store]
      simp [hid, hp.1]
  | unknown => exact .inl ⟨⟨rfl, rfl⟩, hp⟩
  | notifying id' =>
    obtain ⟨l, hl, rfl, hmem⟩ := hp
    refine .inl ⟨⟨rfl, ?_⟩, l, hloops ▸ List.mem_cons_of_mem _ hl, rfl, hmem⟩
    simpa [Life.minds, WatchEvent.turns] using Ne.symm (hother l hl)
  | running id' =>
    obtain ⟨l, hl, rfl⟩ := hp
    refine .inl ⟨⟨rfl, ?_⟩, l, hactive ▸ hl, rfl⟩
    simpa [Life.minds, WatchEvent.turns] using Ne.symm (hother l (active_loop hl))
  | ran id' =>
    obtain ⟨⟨l, hl, rfl, hmem⟩, ha⟩ := hp
    refine .inl ⟨⟨rfl, ?_⟩, ⟨l, hloops ▸ List.mem_cons_of_mem _ hl, rfl, hmem⟩, hactive ▸ ha⟩
    simpa [Life.minds, WatchEvent.turns] using Ne.symm (hother l hl)
  | runningAtOnce id' =>
    refine .inl ⟨⟨rfl, rfl⟩, ?_⟩
    rw [Stands, hactive]
    exact hp
  | ranAtOnce id' => exact absurd hp hexit
  | done id' | closed id' =>
    refine .inl ⟨⟨rfl, rfl⟩, ⟨hp.1.1, hp.1.2.1, ?_⟩, by simp⟩
    rw [hactive]
    exact hp.1.2.2

theorem unregister (h : Sound s) (hp : Stands s k p) {id : String}
    (hf : s.focus = .call (.unRegiterInterface id)) (o : Outcome) :
    Next ({ s with registry := s.registry.eraseAction id }.back o) k p (.erased id) := by
  have hstack : s.stack = [] := (h.nested _ hf).resolve_right (by simp [WatchOp.mild])
  have hloops : s.loops = [] := by simp [WatchState.loops, Focus.loops, hf, hstack]
  have hactive : s.active = [] := by simp [WatchState.active, Focus.active, hf, hstack]
  cases p with
  | unknown =>
    refine .inl ⟨⟨rfl, rfl⟩, ?_⟩
    rw [Stands, WatchState.back_fresh]
    exact hp
  | pending id' =>
    refine .inl ⟨⟨rfl, rfl⟩, ?_⟩
    rw [Stands, WatchState.back_registry, WatchState.back_tokens]
    refine ⟨?_, hp.2⟩
    rw [Registry.isRegistered_eraseAction, hp.1, Bool.and_false]
  | notifying id' =>
    obtain ⟨l, hl, -⟩ := hp
    simp [hloops] at hl
  | running id' =>
    obtain ⟨l, hl, -⟩ := hp
    simp [hactive] at hl
  | ran id' =>
    obtain ⟨⟨l, hl, -⟩, -⟩ := hp
    simp [hloops] at hl
  | runningAtOnce id' => simp [Stands, hactive] at hp
  | ranAtOnce id' =>
    rw [Stands, hf] at hp
    cases hp
  | done id' | closed id' =>
    refine .inl ⟨⟨rfl, rfl⟩, ⟨?_, ?_, ?_⟩, WatchState.back_exit _ o k⟩
    · rw [WatchState.back_fresh]
      exact hp.1.1
    · rw [WatchState.back_tokens]
      exact hp.1.2.1
    · simp [hstack]

theorem notifyOne (h : Sound s) (hp : Stands s k p) {l : Loop} {sub : Subscription}
    (hf : s.focus = .notify l) (hi : (s.registry.watchers l.id)[l.index]? = some sub) :
    Next { s with
      focus := .run (.notify { l with index := l.index + 1 }) sub.token sub.code } k p
      (.began sub.token) := by
  have htoken : (s.tokens l.id)[l.index]? = some sub.token := by
    simp [WatchState.tokens, hi]
  have hdrop : (s.tokens l.id).drop l.index = sub.token :: (s.tokens l.id).drop (l.index + 1) := by
    obtain ⟨hlt, heq⟩ := List.getElem?_eq_some_iff.mp htoken
    rw [List.drop_eq_getElem_cons hlt, heq]
  have hactive : WatchState.active { s with
      focus := .run (.notify { l with index := l.index + 1 }) sub.token sub.code } =
      (.notify { l with index := l.index + 1 }, sub.token) :: s.active := by
    simp [WatchState.active, Focus.active, hf]
  have hhead : l ∈ s.loops := by simp [WatchState.loops, Focus.loops, hf]
  have hloops : WatchState.loops { s with
      focus := .run (.notify { l with index := l.index + 1 }) sub.token sub.code } =
      { l with index := l.index + 1 } :: s.stack.flatMap (·.site.loops) := rfl
  have hcases {l' : Loop} (hl' : l' ∈ s.loops) :
      l' = l ∨ l' ∈ s.stack.flatMap (·.site.loops) := by
    simpa [WatchState.loops, Focus.loops, hf] using hl'
  by_cases hk : k = sub.token
  · subst hk
    obtain rfl := hp.of_ahead h hf (hdrop ▸ List.mem_cons_self)
    refine .inr ⟨_, .began, { l with index := l.index + 1 }, ?_, rfl⟩
    rw [hactive]
    exact List.mem_cons_self
  · have hne : (WatchEvent.began sub.token).about k = false := by
      simpa [WatchEvent.about] using Ne.symm hk
    refine .inl ⟨p.ignores hne fun _ => rfl, hp.untouched ⟨.rfl, fun _ => .rfl, fun _ _ hr => hr,
      fun l' hl' hmem => ?_, fun l' hl' hmem => ?_, fun site => ?_, by simp [hf], by simp⟩⟩
    · obtain rfl | hl' := hcases hl'
      · refine ⟨_, List.mem_cons_self, rfl, ?_⟩
        rw [hdrop] at hmem
        exact (List.mem_cons.mp hmem).resolve_left hk
      · exact ⟨l', List.mem_cons_of_mem _ hl', rfl, hmem⟩
    · obtain rfl | hl' := hcases hl'
      · exact ⟨_, List.mem_cons_self, rfl, List.take_subset_take_left _ (Nat.le_succ _) hmem⟩
      · exact ⟨l', List.mem_cons_of_mem _ hl', rfl, hmem⟩
    · simp [hactive, hk]

theorem notifyEnd (h : Sound s) (hp : Stands s k p) {l : Loop} (hf : s.focus = .notify l)
    (hi : (s.registry.watchers l.id)[l.index]? = none) (o : Outcome) :
    Next (({ s with registry := s.registry.eraseWatchers l.id }.touch l.id).back o) k p
      (.registered l.id) := by
  have hlen : (s.tokens l.id).length ≤ l.index := by
    simpa [WatchState.tokens] using hi
  have hactive : s.active = s.stack.map fun a => (a.site, a.token) := by
    simp [WatchState.active, Focus.active, hf]
  have hcases {l' : Loop} (hl' : l' ∈ s.loops) :
      l' = l ∨ l' ∈ s.stack.flatMap (·.site.loops) := by
    simpa [WatchState.loops, Focus.loops, hf] using hl'
  have hsame {id : String} (hid : id ≠ l.id) :
      WatchState.tokens { s with registry := s.registry.eraseWatchers l.id } id = s.tokens id := by
    simp [WatchState.tokens, Registry.watchers_eraseWatchers, hid]
  have hpending {id : String} (hk : k ∈
      WatchState.tokens { s with registry := s.registry.eraseWatchers l.id } id) :
      id ≠ l.id ∧ k ∈ s.tokens id := by
    by_cases hid : id = l.id
    · simp [WatchState.tokens, Registry.watchers_eraseWatchers, hid] at hk
    · exact ⟨hid, hsame hid ▸ hk⟩
  rw [h.touch_end hf]
  cases p with
  | unknown =>
    refine .inl ⟨⟨rfl, rfl⟩, ?_⟩
    rw [Stands, WatchState.back_fresh]
    exact hp
  | pending id =>
    have hid : id ≠ l.id := by
      intro heq
      subst heq
      have hreg := (h.valid l (by simp [WatchState.loops, Focus.loops, hf])).2
      simp [hp.1] at hreg
    refine .inl ⟨⟨rfl, rfl⟩, ?_⟩
    rw [Stands, WatchState.back_registry, WatchState.back_tokens, hsame hid]
    exact hp
  | notifying id =>
    obtain ⟨l', hl', rfl, hmem⟩ := hp
    rcases hcases hl' with rfl | hl'
    · rw [List.drop_eq_nil_of_le hlen] at hmem
      exact absurd hmem List.not_mem_nil
    · have hid := h.other_loops hf hl'
      refine .inl ⟨⟨rfl, by simpa [Life.minds, WatchEvent.turns] using Ne.symm hid⟩, ?_⟩
      rw [Stands, WatchState.back_loops, WatchState.back_tokens, hsame hid]
      exact ⟨l', hl', rfl, hmem⟩
  | running id =>
    obtain ⟨l', hl', rfl⟩ := hp
    have hid := h.other_active hf hl'
    refine .inl ⟨⟨rfl, by simpa [Life.minds, WatchEvent.turns] using Ne.symm hid⟩, ?_⟩
    rw [Stands, WatchState.back_active, ← hactive]
    exact ⟨l', hl', rfl⟩
  | ran id =>
    obtain ⟨⟨l', hl', rfl, hmem⟩, ha⟩ := hp
    have hmem' := List.mem_of_mem_take hmem
    rcases hcases hl' with rfl | hl'
    · refine .inr ⟨_, .registered, ⟨?_, ?_, ?_⟩, WatchState.back_exit _ o k⟩
      · rw [WatchState.back_fresh]
        exact h.pendingBelow _ k hmem'
      · rw [WatchState.back_tokens]
        intro id hk
        exact (hpending hk).1 (h.own (hpending hk).2 hmem')
      · rw [WatchState.back_active, ← hactive]
        exact ha
    · have hid := h.other_loops hf hl'
      refine .inl ⟨⟨rfl, by simpa [Life.minds, WatchEvent.turns] using Ne.symm hid⟩, ?_⟩
      rw [Stands, WatchState.back_loops, WatchState.back_tokens, WatchState.back_active,
        hsame hid, ← hactive]
      exact ⟨⟨l', hl', rfl, hmem⟩, ha⟩
  | runningAtOnce id =>
    refine .inl ⟨⟨rfl, rfl⟩, ?_⟩
    rw [Stands, WatchState.back_active, ← hactive]
    exact hp
  | ranAtOnce id =>
    rw [Stands, hf] at hp
    cases hp
  | done id | closed id =>
    refine .inl ⟨⟨rfl, rfl⟩, ⟨?_, ?_, ?_⟩, WatchState.back_exit _ o k⟩
    · rw [WatchState.back_fresh]
      exact hp.1.1
    · rw [WatchState.back_tokens]
      exact fun id hk => hp.1.2.1 id (hpending hk).2
    · rw [WatchState.back_active, ← hactive]
      exact hp.1.2.2

/-- A callback returns to the loop or to the subscription that called it. -/
theorem finish (h : Sound s) (hp : Stands s k p) {site : Site} {k₀ : Nat} {f : Focus}
    (hf : s.focus = .run site k₀ .ret)
    (hto : site = .subscribe ∧ f = .subscribeExit k₀ ∨ ∃ l, site = .notify l ∧ f = .notify l) :
    Next { s with focus := f } k p (.ended k₀) := by
  have hactive : s.active = (site, k₀) :: s.stack.map fun a => (a.site, a.token) := by
    simp [WatchState.active, Focus.active, hf]
  have hactive' : WatchState.active { s with focus := f } =
      s.stack.map fun a => (a.site, a.token) := by
    rcases hto with ⟨-, rfl⟩ | ⟨l, -, rfl⟩ <;> simp [WatchState.active, Focus.active]
  have hloops : WatchState.loops { s with focus := f } = s.loops := by
    rcases hto with ⟨rfl, rfl⟩ | ⟨l, rfl, rfl⟩ <;>
      simp [WatchState.loops, Focus.loops, Site.loops, hf]
  have hhead : (site, k₀) ∈ s.active := hactive ▸ List.mem_cons_self
  have honce := h.once
  rw [hactive, List.map_cons, List.nodup_cons] at honce
  have hgone : ∀ a ∈ s.stack.map fun a => (a.site, a.token), a.2 ≠ k₀ :=
    fun a ha heq => honce.1 (List.mem_map.mpr ⟨a, ha, heq⟩)
  by_cases hk : k = k₀
  · subst hk
    rcases hp.of_active h hhead with ⟨rfl, id, rfl⟩ | ⟨l, rfl, rfl⟩
    · refine .inr ⟨_, .endedAtOnce, ?_⟩
      rcases hto with ⟨-, rfl⟩ | ⟨l, hl, -⟩
      · rfl
      · cases hl
    · refine .inr ⟨_, .ended, ⟨l, ?_, rfl, ?_⟩, ?_⟩
      · rw [hloops]
        exact active_loop hhead
      · exact h.active_pending hhead
      · rw [hactive']
        exact hgone
  · have hne : (WatchEvent.ended k₀).about k = false := by
      simpa [WatchEvent.about] using Ne.symm hk
    refine .inl ⟨p.ignores hne fun _ => rfl, hp.untouched ⟨.rfl, fun _ => .rfl, fun _ _ hr => hr,
      fun l hl hmem => ⟨l, hloops ▸ hl, rfl, hmem⟩, fun l hl hmem => ⟨l, hloops ▸ hl, rfl, hmem⟩,
      fun site' => ?_, by simp [hf], ?_⟩⟩
    · simp [hactive, hactive', hk]
    · obtain ⟨-, rfl⟩ | ⟨l, -, rfl⟩ := hto
      · exact fun heq => hk (Focus.subscribeExit.inj heq).symm
      · simp

theorem subscribeExit (h : Sound s) (hp : Stands s k p) {k₀ : Nat}
    (hf : s.focus = .subscribeExit k₀) (o : Outcome) :
    Next (s.back o) k p (.subscribed k₀) := by
  by_cases hk : k = k₀
  · subst hk
    obtain ⟨id, rfl⟩ := hp.of_exit h hf
    refine .inr ⟨_, .subscribed, ⟨?_, ?_, ?_⟩, s.back_exit o k⟩
    · rw [WatchState.back_fresh]
      exact (h.exit k hf).1
    · rw [WatchState.back_tokens]
      exact (h.exit k hf).2.1
    · have hactive := (h.exit k hf).2.2
      rw [WatchState.back_active]
      simpa [WatchState.active, Focus.active, hf] using hactive
  · have hne : (WatchEvent.subscribed k₀).about k = false := by
      simpa [WatchEvent.about] using Ne.symm hk
    refine .inl ⟨p.ignores hne fun _ => rfl, hp.back (by rw [hf]; rfl) (by rw [hf]; rfl) ?_ o⟩
    rw [hf]
    exact fun heq => hk (Focus.subscribeExit.inj heq).symm

/-- The notifications follow the lives of the callbacks step by step. -/
theorem step (h : Sound s) (hp : Stands s k p) (hm : WatchMoves s i e s')
    (hb : Behaves s = true) : Next s' k p e := by
  have hcall {op : WatchOp Watcher} (hf : s.focus = .call op) (o : Outcome) :
      Stands (s.back o) k p := hp.back (by rw [hf]; rfl) (by rw [hf]; rfl) (by simp [hf]) o
  cases hm with
  | call t op hf =>
    refine .inl ⟨p.ignores rfl fun _ => rfl, hp.frame rfl rfl ?_ ?_ ?_ ?_⟩
    · simp [WatchState.loops, Focus.loops, hf]
    · simp [WatchState.active, Focus.active, hf]
    · simp [hf]
    · simp
  | subscribeRun hf hr => exact hp.subscribeRun h hf
  | subscribe hf hr => exact hp.watch h hf hr _
  | refuse hf hr => exact .inl ⟨p.ignores rfl fun _ => rfl, hcall hf _⟩
  | register hf hr => exact hp.store h hf hr
  | unregister hf hr => exact hp.unregister h hf _
  | unregisterUnknown hf hr => exact .inl ⟨p.ignores rfl fun _ => rfl, hcall hf _⟩
  | isRegistered hf => exact .inl ⟨p.ignores rfl fun _ => rfl, hcall hf _⟩
  | notifyOne hf hv hi => exact hp.notifyOne h hf hi
  | notifyEnd hf hv hi => exact hp.notifyEnd h hf hi _
  | finishAtOnce hf => exact hp.finish h hf (.inl ⟨rfl, rfl⟩)
  | finish hf => exact hp.finish h hf (.inr ⟨_, rfl, rfl⟩)
  | throw hf => simp [Behaves, hf] at hb
  | nest hf =>
    refine .inl ⟨p.ignores rfl fun _ => rfl, hp.frame rfl rfl ?_ ?_ ?_ ?_⟩
    · simp [WatchState.loops, Focus.loops, hf]
    · simp [WatchState.active, Focus.active, hf]
    · simp [hf]
    · simp
  | subscribeExit hf => exact hp.subscribeExit h hf _

end Stands

end ServiceLib
