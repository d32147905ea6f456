import ServiceLib.Watch.Sound
import Mathlib.Logic.Hydra

namespace ServiceLib

open Machine Relation

/-- A program still to run, or what a callback does after the call it waits for. -/
inductive Item
  | code (w : Watcher)
  | rest (next : Outcome → Watcher)

/-- What can come of an item in one step. -/
inductive Item.Below : Item → Item → Prop
  | goesOn (next : Outcome → Watcher) (o : Outcome) : Below (.code (next o)) (.rest next)
  | waits (op : WatchOp Watcher) (next : Outcome → Watcher) :
      Below (.rest next) (.code (.call op next))
  | subscribes (id : String) (cb : Watcher) (next : Outcome → Watcher) :
      Below (.code cb) (.code (.call (.subscribeForRegistration id cb) next))

mutual

theorem Item.acc_code : ∀ w : Watcher, Acc Item.Below (.code w)
  | .ret => .intro _ fun _ h => by cases h
  | .throw _ => .intro _ fun _ h => by cases h
  | .call op next => by
    have hop := Item.acc_op op
    have hrest : Acc Item.Below (.rest next) := by
      refine .intro _ ?_
      intro x h
      cases h with
      | goesOn _ o => exact Item.acc_code (next o)
    refine .intro _ ?_
    intro x h
    cases h with
    | waits => exact hrest
    | subscribes id cb => exact hop id cb rfl

theorem Item.acc_op : ∀ (op : WatchOp Watcher) (id : String) (cb : Watcher),
    op = .subscribeForRegistration id cb → Acc Item.Below (.code cb)
  | .subscribeForRegistration _ cb', id, cb, h => by
    have hcb := Item.acc_code cb'
    cases h
    exact hcb
  | .registerInterface _ _ _, _, _, h => by cases h
  | .unRegiterInterface _, _, _, h => by cases h
  | .isServiceRegistered _, _, _, h => by cases h

end

theorem Item.below_wf : WellFounded Item.Below := by
  refine ⟨?_⟩
  intro x
  cases x with
  | code w => exact Item.acc_code w
  | rest next =>
    refine .intro _ ?_
    intro x h
    cases h with
    | goesOn _ o => exact Item.acc_code (next o)

variable {tr : List WatchEvent} {s s' : WatchState} {i : WatchInput} {e : WatchEvent}
  {ps : List Subscription}

def Focus.items : Focus → Multiset Item
  | .run _ _ w => {.code w}
  | .call (.subscribeForRegistration _ cb) => {.code cb}
  | _ => 0

/-- How many steps lead to the next piece of client code. -/
def Focus.phase : Focus → Nat
  | .call _ => 2
  | .notify _ => 1
  | _ => 0

def codes (ps : List Subscription) : Multiset Item :=
  Multiset.ofList (ps.map fun sub => .code sub.code)

theorem codes_append (ps qs : List Subscription) : codes (ps ++ qs) = codes ps + codes qs := by
  rw [codes, List.map_append, ← Multiset.coe_add]
  rfl

theorem codes_cons (sub : Subscription) (ps : List Subscription) :
    codes (sub :: ps) = {.code sub.code} + codes ps := rfl

def rests (st : List Activation) : Multiset Item := Multiset.ofList (st.map fun a => .rest a.next)

theorem rests_cons (a : Activation) (st : List Activation) :
    rests (a :: st) = {.rest a.next} + rests st := rfl

/-- What client code can still do: the pending callbacks and those at work. -/
def WatchState.work (ps : List Subscription) (s : WatchState) : Multiset Item :=
  codes ps + s.focus.items + rests s.stack

/-- A callback that has returned is done. -/
theorem descends_finish {site : Site} {k : Nat} {f : Focus} (hf : s.focus = .run site k .ret)
    (hitems : f.items = 0) :
    CutExpand Item.Below (WatchState.work ps { s with focus := f }) (s.work ps) := by
  rw [WatchState.work, WatchState.work, hf, hitems]
  exact (cutExpand_add_right _).mpr ((cutExpand_add_left _).mpr cutExpand_zero)

/-- A call leaves the callback it makes known and what is left of the caller. -/
theorem descends_nest {site : Site} {k : Nat} {op : WatchOp Watcher} {next : Outcome → Watcher}
    (hf : s.focus = .run site k (.call op next)) :
    CutExpand Item.Below
      (WatchState.work ps { s with focus := .call op, stack := ⟨site, k, next⟩ :: s.stack })
      (s.work ps) := by
  have hparts : CutExpand Item.Below ((Focus.call op).items + {.rest next})
      {.code (.call op next)} := by
    apply cutExpand_singleton
    intro x hx
    rcases Multiset.mem_add.mp hx with hx | hx
    · cases op with
      | subscribeForRegistration id cb =>
        obtain rfl := Multiset.mem_singleton.mp hx
        exact .subscribes id cb next
      | _ => exact absurd hx (Multiset.notMem_zero x)
    · obtain rfl := Multiset.mem_singleton.mp hx
      exact .waits op next
  have hwork : WatchState.work ps
      { s with focus := .call op, stack := ⟨site, k, next⟩ :: s.stack } =
      codes ps + ((Focus.call op).items + {.rest next}) + rests s.stack := by
    simp only [WatchState.work, rests_cons, add_assoc]
  rw [hwork, WatchState.work, hf]
  exact (cutExpand_add_right _).mpr ((cutExpand_add_left _).mpr hparts)

/-- The list has all the callbacks that have not begun. -/
def Covers (ps : List Subscription) (s : WatchState) : Prop :=
  ∀ id, ∀ sub ∈ s.registry.watchers id,
    (∀ l ∈ s.loops, l.id = id → sub.token ∈ (s.tokens id).drop l.index) → sub ∈ ps

/-- The step brings the call in progress closer to its end, or is its end. -/
def Descends (ps ps' : List Subscription) (s s' : WatchState) : Prop :=
  s'.focus = .idle ∨ CutExpand Item.Below (s'.work ps') (s.work ps) ∨
    s'.work ps' = s.work ps ∧ s'.focus.phase < s.focus.phase

theorem descends_back (ps' : List Subscription) (o : Outcome) (hreg : s'.stack = s.stack)
    (hwork : s.work ps = codes ps' + rests s.stack) : Descends ps ps' s (s'.back o) := by
  cases hs : s'.stack with
  | nil =>
    left
    simp [WatchState.back, hs]
  | cons a st =>
    right
    left
    have hback : (s'.back o).work ps' = (codes ps' + rests st) + {.code (a.next o)} := by
      simp only [WatchState.work, WatchState.back, hs, Focus.items]
      exact add_right_comm _ _ _
    have hrests : rests s.stack = rests st + {.rest a.next} := by
      rw [← hreg, hs, rests_cons, add_comm]
    rw [hback, hwork, hrests, ← add_assoc]
    exact cutExpand_add_single _ (.goesOn a.next o)

namespace Covers

theorem frame (h : Covers ps s) (hreg : s'.registry.notifyMapping = s.registry.notifyMapping)
    (hloops : ∀ l ∈ s.loops, l ∈ s'.loops) : Covers ps s' := by
  have hw : s'.registry.watchers = s.registry.watchers := by
    funext id
    simp [Registry.watchers, hreg]
  have htokens : s'.tokens = s.tokens := by
    funext id
    simp [WatchState.tokens, hw]
  intro id sub hsub hahead
  refine h id sub (hw ▸ hsub) ?_
  intro l hl hid
  exact htokens ▸ hahead l (hloops l hl) hid

theorem back (h : Covers ps s) (hloops : s.focus.loops = []) (o : Outcome) :
    Covers ps (s.back o) := by
  refine h.frame (by rw [s.back_registry]) ?_
  intro l hl
  rw [s.back_loops]
  simpa [WatchState.loops, hloops] using hl

theorem watch (h : Covers ps s) (hsound : Sound s) {id : String} {cb : Watcher}
    (hf : s.focus = .call (.subscribeForRegistration id cb))
    (hr : s.registry.isRegistered id = false) (o : Outcome) :
    Covers (ps ++ [⟨s.fresh, cb⟩])
      (({ s with registry := s.registry.watch id ⟨s.fresh, cb⟩,
                 fresh := s.fresh + 1 }.touch id).back o) := by
  have hloops : s.loops = s.stack.flatMap (·.site.loops) := by
    simp [WatchState.loops, Focus.loops, hf]
  have hother := hsound.free_loops hr
  rw [hsound.touch_free hr]
  intro id' sub hsub hahead
  rw [WatchState.back_registry] at hsub
  rw [WatchState.back_loops, WatchState.back_tokens, ← hloops] at hahead
  simp only [Registry.watchers_watch] at hsub
  by_cases hid : id' = id
  · subst hid
    rw [if_pos rfl] at hsub
    rcases List.mem_append.mp hsub with hsub | hsub
    · refine List.mem_append_left _ (h id' sub hsub fun l hl heq => ?_)
      exact absurd heq (hother l hl)
    · exact List.mem_append_right _ hsub
  · rw [if_neg hid] at hsub
    refine List.mem_append_left _ (h id' sub hsub fun l hl heq => ?_)
    have hmem := hahead l hl heq
    simpa [WatchState.tokens, Registry.watchers_watch, hid] using hmem

/-- The callback the loop comes to begins and leaves the list. -/
theorem notifyOne (h : Covers ps s) (hsound : Sound s) {l : Loop} {sub : Subscription}
    (hf : s.focus = .notify l) (hi : (s.registry.watchers l.id)[l.index]? = some sub) :
    ∃ a b, ps = a ++ sub :: b ∧ Covers (a ++ b)
      { s with focus := .run (.notify { l with index := l.index + 1 }) sub.token sub.code } := by
  have htoken : (s.tokens l.id)[l.index]? = some sub.token := by
    simp [WatchState.tokens, hi]
  have hdrop : (s.tokens l.id).drop l.index = sub.token :: (s.tokens l.id).drop (l.index + 1) := by
    obtain ⟨hlt, heq⟩ := List.getElem?_eq_some_iff.mp htoken
    rw [List.drop_eq_getElem_cons hlt, heq]
  have hnodup : (s.tokens l.id).Nodup := (hsound.sorted l.id).imp fun hlt => Nat.ne_of_lt hlt
  have hloops : s.loops = l :: s.stack.flatMap (·.site.loops) := by
    simp [WatchState.loops, Focus.loops, hf]
  have hmem : sub ∈ ps := by
    refine h l.id sub (List.mem_of_getElem? hi) ?_
    intro l' hl' hid
    rw [hloops] at hl'
    rcases List.mem_cons.mp hl' with rfl | hl'
    · rw [hdrop]
      exact List.mem_cons_self
    · exact absurd hid (hsound.other_loops hf hl')
  obtain ⟨a, b, rfl⟩ := List.append_of_mem hmem
  refine ⟨a, b, rfl, ?_⟩
  intro id sub' hsub' hahead
  have hloops' : WatchState.loops { s with
      focus := .run (.notify { l with index := l.index + 1 }) sub.token sub.code } =
      { l with index := l.index + 1 } :: s.stack.flatMap (·.site.loops) := rfl
  rw [hloops'] at hahead
  have hne : sub' ≠ sub := by
    intro heq
    subst heq
    have hk' : sub'.token ∈ s.tokens id := List.mem_map_of_mem hsub'
    have hid : id = l.id := hsound.own hk' (List.mem_of_getElem? htoken)
    have hlater := hahead { l with index := l.index + 1 } List.mem_cons_self hid.symm
    rw [hid] at hlater
    have hfirst := (hdrop ▸ hnodup.sublist (List.drop_sublist _ _))
    exact (List.nodup_cons.mp hfirst).1 hlater
  have hold : sub' ∈ a ++ sub :: b := by
    refine h id sub' hsub' ?_
    intro l' hl' hid
    rw [hloops] at hl'
    rcases List.mem_cons.mp hl' with rfl | hl'
    · have hlater := hahead { l' with index := l'.index + 1 } List.mem_cons_self hid
      subst hid
      rw [hdrop]
      exact List.mem_cons_of_mem _ hlater
    · exact hahead l' (List.mem_cons_of_mem _ hl') hid
  rcases List.mem_append.mp hold with hin | hin
  · exact List.mem_append_left _ hin
  · exact List.mem_append_right _ ((List.mem_cons.mp hin).resolve_left hne)

theorem notifyEnd (h : Covers ps s) (hsound : Sound s) {l : Loop} (hf : s.focus = .notify l)
    (o : Outcome) :
    Covers ps (({ s with registry := s.registry.eraseWatchers l.id }.touch l.id).back o) := by
  rw [hsound.touch_end hf]
  intro id sub hsub hahead
  rw [WatchState.back_registry] at hsub
  rw [WatchState.back_loops, WatchState.back_tokens] at hahead
  simp only [Registry.watchers_eraseWatchers] at hsub
  by_cases hid : id = l.id
  · simp [hid] at hsub
  · rw [if_neg hid] at hsub
    refine h id sub hsub ?_
    intro l' hl' heq
    rw [WatchState.loops, hf] at hl'
    rcases List.mem_cons.mp hl' with rfl | hl'
    · exact absurd heq.symm hid
    · have hmem := hahead l' hl' heq
      simpa [WatchState.tokens, Registry.watchers_eraseWatchers, hid] using hmem

theorem step (h : Covers ps s) (hsound : Sound s) (hm : WatchMoves s .run e s')
    (hb : Behaves s = true) : ∃ ps', Covers ps' s' ∧ Descends ps ps' s s' := by
  have hcall {op : WatchOp Watcher} (hf : s.focus = .call op)
      (hitems : (Focus.call op).items = 0) (o : Outcome) :
      ∃ ps', Covers ps' (s.back o) ∧ Descends ps ps' s (s.back o) := by
    refine ⟨ps, h.back (by rw [hf]; rfl) o, descends_back ps o rfl ?_⟩
    rw [WatchState.work, hf, hitems, add_zero]
  cases hm with
  | @subscribeRun id cb hf hr =>
    refine ⟨ps, h.frame rfl ?_, .inr (.inr ⟨?_, ?_⟩)⟩
    · simp [WatchState.loops, Focus.loops, Site.loops, hf]
    · simp [WatchState.work, Focus.items, hf]
    · simp [Focus.phase, hf]
  | @subscribe id cb hf hr =>
    refine ⟨_, h.watch hsound hf hr _, ?_⟩
    rw [hsound.touch_free hr]
    refine descends_back _ _ rfl ?_
    rw [WatchState.work, hf, codes_append]
    rfl
  | refuse hf hr => exact hcall hf rfl _
  | register hf hr =>
    refine ⟨ps, h.frame rfl ?_, .inr (.inr ⟨?_, ?_⟩)⟩
    · simp only [WatchState.loops, Focus.loops, hf]
      exact fun l hl => List.mem_cons_of_mem _ hl
    · simp [WatchState.work, Focus.items, hf]
    · simp [Focus.phase, hf]
  | unregister hf hr =>
    refine ⟨ps, ?_, descends_back ps _ rfl ?_⟩
    · refine h.frame (by rw [WatchState.back_registry]; rfl) ?_
      intro l hl
      rw [WatchState.back_loops]
      simpa [WatchState.loops, Focus.loops, hf] using hl
    · rw [WatchState.work, hf]
      simp [Focus.items]
  | unregisterUnknown hf hr => exact hcall hf rfl _
  | isRegistered hf => exact hcall hf rfl _
  | @notifyOne l sub hf hv hi =>
    obtain ⟨a, b, rfl, hcovers⟩ := h.notifyOne hsound hf hi
    refine ⟨a ++ b, hcovers, .inr (.inr ⟨?_, ?_⟩)⟩
    · simp only [WatchState.work, Focus.items, hf, codes_append, codes_cons, add_zero]
      rw [add_assoc (codes a), add_comm (codes b)]
    · simp [Focus.phase, hf]
  | notifyEnd hf hv hi =>
    refine ⟨ps, h.notifyEnd hsound hf _, ?_⟩
    rw [hsound.touch_end hf]
    refine descends_back ps _ rfl ?_
    rw [WatchState.work, hf]
    simp [Focus.items]
  | finishAtOnce hf =>
    refine ⟨ps, h.frame rfl ?_, .inr (.inl (descends_finish hf rfl))⟩
    simp [WatchState.loops, Focus.loops, Site.loops, hf]
  | finish hf =>
    refine ⟨ps, h.frame rfl ?_, .inr (.inl (descends_finish hf rfl))⟩
    simp [WatchState.loops, Focus.loops, Site.loops, hf]
  | throw hf => simp [Behaves, hf] at hb
  | @nest site k op next hf =>
    refine ⟨ps, h.frame rfl ?_, .inr (.inl (descends_nest hf))⟩
    simp [WatchState.loops, Focus.loops, hf]
  | subscribeExit hf =>
    refine ⟨ps, h.back (by rw [hf]; rfl) _, descends_back ps _ rfl ?_⟩
    rw [WatchState.work, hf]
    simp [Focus.items]

end Covers

/-- Some list has the callbacks that have not begun. -/
theorem covered (h : watch.Run (fun _ s _ => Behaves s) tr s) : ∃ ps, Covers ps s := by
  refine h.invariant (J := fun _ s => ∃ ps, Covers ps s) ?_ ?_
  · exact ⟨[], fun id sub hsub => absurd hsub List.not_mem_nil⟩
  · intro tr s i e s' hrun ih hok hs
    obtain ⟨ps, hps⟩ := ih
    have hm := watch_moves hs
    cases hi : i with
    | run =>
      subst hi
      obtain ⟨ps', hps', -⟩ := hps.step (sound hrun) hm hok
      exact ⟨ps', hps'⟩
    | call t op =>
      subst hi
      cases hm with
      | call _ _ hf =>
        refine ⟨ps, hps.frame rfl ?_⟩
        simp [WatchState.loops, Focus.loops, hf]

/-- Something is always left to do until the call in progress has ended. -/
theorem watch_progress (h : Sound s) (hf : s.focus ≠ .idle) :
    ∃ e s', watch.step s .run = some (e, s') := by
  simp only [watch, WatchState.step]
  cases hs : s.focus with
  | idle => exact absurd hs hf
  | call op => exact ⟨_, _, rfl⟩
  | run site k code => exact ⟨_, _, rfl⟩
  | subscribeExit k => exact ⟨_, _, rfl⟩
  | notify l =>
    have hv : l.valid = true :=
      (h.valid l (by simp [WatchState.loops, Focus.loops, hs])).1
    simp only [WatchState.notifySubscribersOnRegistration, hv, if_true]
    split
    · exact ⟨_, _, rfl⟩
    · exact ⟨_, _, rfl⟩

theorem order_wf : WellFounded (Prod.Lex (CutExpand Item.Below) (· < · : Nat → Nat → Prop)) :=
  WellFounded.prod_lex Item.below_wf.cutExpand Nat.lt_wfRel.wf

/-- Every call in progress ends, however the callbacks nest, unless one of them misbehaves. -/
theorem settles (h : watch.Run (fun _ s _ => Behaves s) tr s) :
    ∃ m c, watch.exec (fun _ s _ => Behaves s) (List.replicate m .run) (tr, s) = some c ∧
      (c.2.focus = .idle ∨ Behaves c.2 = false) := by
  obtain ⟨ps, hps⟩ := covered h
  suffices hall : ∀ x : Multiset Item × Nat, ∀ ps tr s, x = (s.work ps, s.focus.phase) →
      watch.Run (fun _ s _ => Behaves s) tr s → Covers ps s →
      ∃ m c, watch.exec (fun _ s _ => Behaves s) (List.replicate m .run) (tr, s) = some c ∧
        (c.2.focus = .idle ∨ Behaves c.2 = false) from hall _ ps tr s rfl h hps
  intro x
  induction x using order_wf.induction with
  | h x ih =>
    intro ps tr s heq hrun hps
    subst heq
    by_cases hidle : s.focus = .idle
    · exact ⟨0, (tr, s), rfl, .inl hidle⟩
    cases hb : Behaves s with
    | false => exact ⟨0, (tr, s), rfl, .inr hb⟩
    | true =>
      have hsound := sound hrun
      obtain ⟨e, s', hs⟩ := watch_progress hsound hidle
      obtain ⟨ps', hps', hless⟩ := hps.step hsound (watch_moves hs) hb
      have hrun' := hrun.next hb hs
      have hexec (is : List WatchInput) :
          watch.exec (fun _ s _ => Behaves s) (.run :: is) (tr, s) =
            watch.exec (fun _ s _ => Behaves s) is (tr ++ [e], s') := by
        simp [Machine.exec, hb, hs]
      have hstep : ∃ m c, watch.exec (fun _ s _ => Behaves s) (List.replicate m .run)
          (tr ++ [e], s') = some c ∧ (c.2.focus = .idle ∨ Behaves c.2 = false) := by
        rcases hless with hidle' | hwork | ⟨hwork, hphase⟩
        · exact ⟨0, (tr ++ [e], s'), rfl, .inl hidle'⟩
        · exact ih _ (.left _ _ hwork) ps' _ _ rfl hrun' hps'
        · refine ih _ ?_ ps' _ _ rfl hrun' hps'
          rw [hwork]
          exact .right _ hphase
      obtain ⟨m, c, hm, hend⟩ := hstep
      exact ⟨m + 1, c, by rw [List.replicate_succ, hexec, hm], hend⟩

end ServiceLib
