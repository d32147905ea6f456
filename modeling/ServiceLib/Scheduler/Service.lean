import ServiceLib.Pool.Awaited
import ServiceLib.Scheduler.Effect

namespace ServiceLib

open Machine

variable {T : ArgTypes} {n : Nat} {σ : Type*} {s s' : Sys T n} {t u : Tid n} {i : Choice T n}
  {mv : Move T n} {m : History T n} {rest : List (Frame T n)} {k : Nat}

/-- One call of a service: its id, the action registered under it with its body, the state of the
service, who calls it with which arguments, and the `onDone`. The functions of the service do not
call the library. -/
structure ServiceCall (T : ArgTypes) (n : Nat) (σ : Type*) where
  id : String
  action : TypedAction T
  body : ParamArgs T → σ → Bool × σ
  state : σ
  caller : Tid n
  args : ParamArgs T
  onDone : Option ClientFn
  done : σ → Bool × σ

/-- What a call does to the service. -/
inductive Effect (T : ArgTypes)
  | acted (p : ParamArgs T)
  | done

namespace ServiceCall

variable (c : ServiceCall T n σ)

/-- The functions of the service are entered by these steps. -/
def effect : Action T n → Option (Effect T)
  | .executed _ (some a) p => if a.func = c.action.func then some (.acted p) else none
  | .entered f => if c.onDone = some f then some .done else none
  | _ => none

def effects (m : History T n) : List (Effect T) := m.filterMap fun e => c.effect e.2

/-- The answer of a function of the service and the state it leaves. -/
def run (y : σ) : Effect T → Bool × σ
  | .acted p => c.body p y
  | .done => c.done y

/-- The last answer and the state of the service after some effects. -/
def after (es : List (Effect T)) : Bool × σ := es.foldl (fun y e => c.run y.2 e) (true, c.state)

/-- The thread is in a function of the service. -/
def inBody (u : Tid n) (m : History T n) : Bool :=
  ((own u m).getLast?).any fun a => (c.effect a).isSome

theorem effects_snoc (m : History T n) (u : Tid n) (a : Action T n) :
    c.effects (m ++ [(u, a)]) = c.effects m ++ (c.effect a).toList := by
  cases h : c.effect a <;> simp [effects, h]

theorem inBody_snoc_self (m : History T n) (u : Tid n) (a : Action T n) :
    c.inBody u (m ++ [(u, a)]) = (c.effect a).isSome := by
  simp [inBody, own_snoc_self]

theorem inBody_snoc_other {u v : Tid n} (hv : v ≠ u) (m : History T n) (a : Action T n) :
    c.inBody u (m ++ [(v, a)]) = c.inBody u m := by
  simp [inBody, own_snoc_other hv]

/-- The call with a given property. -/
def op (prop : CallProperty) : Op T n := .interfaceCall c.id prop c.args

/-- `async == false`. -/
def syncProp (wait : Bool) (strand : String) : CallProperty := ⟨false, wait, c.onDone, strand⟩

/-- `async == true` and `waitForDone == true`. -/
def blockingProp (strand : String) : CallProperty := ⟨true, true, c.onDone, strand⟩

/-- The caller makes the call and nothing else, functions of the service return their answer, and
nobody else is active on the service: it stays registered, and its functions run only for this
call, on the caller's thread or as the job the caller has queued. -/
structure Undisturbed (prop : CallProperty) (m : History T n) (s : Sys T n)
    (i : Tid n × Choice T n) : Prop where
  call : m = [] → i = (c.caller, .call (c.op prop))
  caller : m ≠ [] → i.1 = c.caller → c.inBody c.caller m = false → i.2 = .run
  answer : c.inBody i.1 m = true → i.2 = .ret (c.after (c.effects m)).1
  registered : s.mem.registry.actionMapping c.id = some (some c.action, c.args.getType)
  alone : ∀ mv, s.next i.1 i.2 = some mv → c.effect mv.action ≠ none → i.1 = c.caller ∨
    ∃ w j strand, i.1 = .worker w ∧ (c.caller, .pushed w j strand) ∈ m ∧
      (s.pc w = .inAction j ∨ s.pc w = .inOnDone j)

/-- The call has been made and has returned. -/
structure Completes (s : Sys T n) (prop : CallProperty) (m : History T n) (s' : Sys T n) :
    Prop where
  run : ((pool T n).startAt s).Run (c.Undisturbed prop) m s'
  called : m ≠ []
  returned : s'.stack c.caller = s.stack c.caller

/-- The action once, then `onDone` once if there is one. -/
def expected : List (Effect T) := .acted c.args :: (c.onDone.map fun _ => Effect.done).toList

variable {c}

/-- A thread calls the closure of an `interfaceCall` of the service. -/
theorem effect_bound (k : Nat) :
    c.effect (.executed k (some c.action) c.args) = some (.acted c.args) := by
  simp [effect]

theorem effect_onDone {f : ClientFn} (hf : c.onDone = some f) :
    c.effect (.entered f) = some .done := by
  simp [effect, hf]

/-- A function of the service returns. -/
theorem returns {b : Bool} (hs : s.stack t = .user :: rest) (hm : Moves s t (.ret b) mv) :
    mv = ⟨.returned b, [], some (.ret b), none⟩ := by
  have hnext := hm.next_eq
  simp only [Sys.next, hs, Option.some.injEq] at hnext
  exact hnext.symm

variable (c)

/-- What the action returns. -/
def answer : Bool := (c.body c.args c.state).1

variable {c}

theorem expected_some {f : ClientFn} (hf : c.onDone = some f) :
    c.expected = [.acted c.args, .done] := by
  simp [expected, hf]

theorem expected_none (hf : c.onDone = none) : c.expected = [.acted c.args] := by
  simp [expected, hf]

/-- How far a synchronous call has come: the effects so far, whether the caller is in a function
of the service, its stack over `rest` and its last outcome. -/
inductive SyncPoint (c : ServiceCall T n σ) (rest : List (Frame T n)) :
    List (Effect T) → Bool → List (Frame T n) → Outcome → Prop
  | checking {prop : CallProperty} {r} (ha : prop.async = false)
      (hd : prop.onCallDone = c.onDone) :
      SyncPoint c rest [] false (.checkAndInvoke c.id prop c.args :: rest) r
  | called {k r} : SyncPoint c rest [] false
      (.invoke (.bound k (some c.action) c.args) :: .syncOnDone c.onDone :: rest) r
  | acting {r} : SyncPoint c rest [.acted c.args] true (.user :: .syncOnDone c.onDone :: rest) r
  | acted : SyncPoint c rest [.acted c.args] false (.syncOnDone c.onDone :: rest) (.ret c.answer)
  | doneCalled {f r} (hf : c.onDone = some f) : SyncPoint c rest [.acted c.args] false
      (.invoke (.client f) :: .syncReturn (.ret c.answer) :: rest) r
  | doing {r} : SyncPoint c rest c.expected true
      (.user :: .syncReturn (.ret c.answer) :: rest) r
  | did {r} : SyncPoint c rest c.expected false (.syncReturn (.ret c.answer) :: rest) r
  | returned : SyncPoint c rest c.expected false rest (.ret c.answer)

theorem SyncPoint.step {es : List (Effect T)} {b : Bool}
    (h : SyncPoint c rest es b (s.stack t) (s.result t)) (hm : Moves s t i mv)
    (hreg : s.mem.registry.actionMapping c.id = some (some c.action, c.args.getType))
    (hanswer : b = true → i = .ret (c.after es).1) (hrest : s.stack t ≠ rest) :
    SyncPoint c rest (es ++ (c.effect mv.action).toList) (c.effect mv.action).isSome
      ((s.apply t mv).stack t) ((s.apply t mv).result t) ∧ ∀ w, mv.action.pushedOn w = [] := by
  rw [Sys.apply_stack_self, Sys.apply_result_self]
  generalize hs : s.stack t = l at h hrest ⊢
  generalize hr : s.result t = r at h ⊢
  cases h with
  | @checking prop _ ha hd =>
    have hnext := Sys.next_frame hm.next_eq hs (by simp)
    simp only [Sys.frameNext, Sys.checkAndInvokeNext, hreg, ha] at hnext
    split at hnext
    · obtain rfl := by simpa using hnext
      rw [hd]
      exact ⟨.called, fun w => rfl⟩
    · cases hnext
  | @called k =>
    obtain rfl := hm.eq_of_frame hs (by simp) rfl
    simp only [Sys.invokeNext, effect_bound]
    exact ⟨.acting, fun w => rfl⟩
  | acting =>
    obtain rfl := hanswer rfl
    obtain rfl := returns hs hm
    exact ⟨.acted, fun w => rfl⟩
  | acted =>
    have hnext := Sys.next_frame hm.next_eq hs (by simp)
    simp only [Sys.frameNext, Sys.syncOnDoneNext, hr] at hnext
    cases hd : c.onDone with
    | none =>
      rw [hd] at hnext
      obtain rfl := Option.some.inj hnext
      have hend : SyncPoint c rest c.expected false rest (.ret c.answer) := .returned
      rw [expected_none hd] at hend
      exact ⟨hend, fun w => rfl⟩
    | some f =>
      rw [hd] at hnext
      obtain rfl := Option.some.inj hnext
      exact ⟨.doneCalled hd, fun w => rfl⟩
  | @doneCalled f _ hf =>
    obtain rfl := hm.eq_of_frame hs (by simp) rfl
    have hdone : [Effect.acted c.args] ++ (c.effect (.entered f : Action T n)).toList =
        c.expected := by
      rw [effect_onDone hf, expected_some hf]
      rfl
    have hbody : (c.effect (.entered f : Action T n)).isSome = true := by rw [effect_onDone hf]; rfl
    simp only [Sys.invokeNext, hdone, hbody]
    exact ⟨.doing, fun w => rfl⟩
  | doing =>
    obtain rfl := hanswer rfl
    obtain rfl := returns hs hm
    exact ⟨(List.append_nil c.expected).symm ▸ .did, fun w => rfl⟩
  | did =>
    obtain rfl := hm.eq_of_frame hs (by simp) rfl
    exact ⟨(List.append_nil c.expected).symm ▸ .returned, fun w => rfl⟩
  | returned => exact absurd rfl hrest

/-- A step of another thread does not touch the service while the caller has queued nothing. -/
theorem Undisturbed.effect_none {prop : CallProperty} (h : c.Undisturbed prop m s (u, i))
    (hm : Moves s u i mv) (hu : u ≠ c.caller)
    (hno : ∀ w j strand, (c.caller, .pushed w j strand) ∉ m) : c.effect mv.action = none := by
  by_contra heff
  rcases h.alone mv hm.next_eq heff with hu' | ⟨w, j, strand, -, hmem, -⟩
  · exact hu hu'
  · exact hno w j strand hmem

theorem pushed_snoc (hno : ∀ w j strand, (t, .pushed w j strand) ∉ m)
    (hstep : u = t → ∀ w, mv.action.pushedOn w = []) :
    ∀ w j strand, (t, .pushed w j strand) ∉ m ++ [(u, mv.action)] := by
  intro w j strand hmem
  rcases mem_snoc.mp hmem with hmem | ⟨hu, ha⟩
  · exact hno w j strand hmem
  · have hpush := hstep hu.symm w
    rw [ha] at hpush
    simp at hpush

/-- Where a call has returned, the caller takes no further step of it. -/
theorem Undisturbed.not_returned {prop : CallProperty} {s₀ : Sys T n}
    (h : c.Undisturbed prop m s (u, i)) (hm : Moves s u i mv) (hu : u = c.caller)
    (hclient : s₀.AtClient c.caller) (hne : m ≠ []) (hb : c.inBody c.caller m = false) :
    s.stack c.caller ≠ s₀.stack c.caller := by
  intro hs
  obtain rfl := h.caller hne hu hb
  subst hu
  obtain ⟨mv₀, hcall⟩ := hclient.moves (c.op prop)
  have hnext := hm.next_eq
  rw [hcall.call_rests hs] at hnext
  cases hnext

end ServiceCall

end ServiceLib
