import ServiceLib.Model.Closures

namespace ServiceLib

open Machine

variable {T : ArgTypes} {n : Nat} {ok : History T n → Sys T n → Tid n × Choice T n → Prop}
  {tr : History T n} {s : Sys T n} {t : Tid n} {i : Choice T n} {mv : Move T n}

/-- The registry as a history leaves it. -/
def registryAfter (tr : History T n) : Registry (CallbackType T × String) ClientFn :=
  tr.foldl (fun r e => e.2.onRegistry r) .empty

theorem registry_eq_replay (h : (pool T n).Run ok tr s) : s.mem.registry = registryAfter tr := by
  refine pool_invariant (J := fun tr s => s.mem.registry = registryAfter tr) rfl ?_ h
  intro tr s t i mv _ hr _ hm
  rw [Sys.apply_mem, Mem.perform_registry, hr]
  simp [registryAfter]

/-- No registration is made but by `registerInterfaceFor`. -/
def RegistersTyped : Tid n × Choice T n → Bool
  | (_, .call (.registerInterface _ _ _)) => false
  | _ => true

/-- An action with the name of the type it casts its argument to. -/
def TypedState (st : CallbackType T × String) : Prop :=
  ∃ act, st.1 = some act ∧ st.2 = T.typeName act.actualType

def Frame.RegistersTyped : Frame T n → Prop
  | .register _ (some act) typeId => TypedState (some act, typeId)
  | _ => True

def Frame.registers : Frame T n → Bool
  | .register _ _ _ => true
  | _ => false

/-- What `registerInterfaceFor` hands on and what is stored carries its own type name. -/
structure TypedRegistry (s : Sys T n) : Prop where
  frames : ∀ t, ∀ f ∈ s.stack t, f.RegistersTyped
  stored : ∀ {id st}, s.mem.registry.actionMapping id = some st → TypedState st

theorem Frame.registersTyped_of_not_registers {l : List (Frame T n)}
    (h : l.any Frame.registers = false) : ∀ f ∈ l, f.RegistersTyped := by
  intro f hf
  have hr := Frame.forall_not h f hf
  cases f
  case register => cases hr
  all_goals trivial

theorem Moves.frames_registerTyped (hm : Moves s t i mv) (hok : RegistersTyped (t, i) = true) :
    ∀ f ∈ mv.frames, f.RegistersTyped := by
  cases hm
  case call op _ _ _ | callBack op _ _ =>
    cases op
    case registerInterface => simp [ServiceLib.RegistersTyped] at hok
    all_goals exact Frame.registersTyped_of_not_registers rfl
  case registerFor id tuple f rest _ =>
    exact List.forall_mem_singleton.mpr ⟨_, rfl, rfl⟩
  case scanPlace | bindStrand =>
    unfold Sys.place
    split <;> exact Frame.registersTyped_of_not_registers rfl
  all_goals exact Frame.registersTyped_of_not_registers rfl

theorem Moves.stored_inv (hm : Moves s t i mv) {id : String} {st : CallbackType T × String}
    (ha : mv.action = .stored id st) :
    ∃ act typeId rest, s.stack t = .register id (some act) typeId :: rest ∧
      st = (some act, typeId) := by
  cases hm <;> cases ha
  exact ⟨_, _, _, ‹_›, rfl⟩

theorem TypedRegistry.step (h : TypedRegistry s) (hm : Moves s t i mv)
    (hok : RegistersTyped (t, i) = true) : TypedRegistry (s.apply t mv) := by
  refine ⟨fun u f hf => ?_, fun {id st} hst => ?_⟩
  · rcases Sys.mem_apply_stack hf with ⟨-, hf⟩ | hf
    · exact hm.frames_registerTyped hok f hf
    · exact h.frames u f hf
  · rw [Sys.apply_mem, Mem.perform_registry] at hst
    cases ha : mv.action with
    | stored id' st' =>
      rw [ha] at hst
      simp only [Action.onRegistry, Registry.store_actionMapping, Function.update_apply] at hst
      split at hst
      · obtain rfl := Option.some.inj hst
        obtain ⟨act, typeId, rest, hs, rfl⟩ := hm.stored_inv ha
        have hf : (Frame.register id' (some act) typeId).RegistersTyped :=
          h.frames t _ (hs ▸ List.mem_cons_self)
        exact hf
      · exact h.stored hst
    | erased id' =>
      rw [ha] at hst
      simp only [Action.onRegistry, Registry.eraseAction_actionMapping, Function.update_apply]
        at hst
      split at hst
      · cases hst
      · exact h.stored hst
    | _ => exact h.stored (by simpa [ha] using hst)

theorem typedRegistry (h : (pool T n).Run (fun _ _ i => RegistersTyped i) tr s) :
    TypedRegistry s := by
  refine pool_invariant (J := fun _ s => TypedRegistry s) ?_ ?_ h
  · exact ⟨fun t f hf => absurd hf List.not_mem_nil, fun {id st} hst => (by cases hst)⟩
  · intro tr s t i mv _ ht hok hm
    exact ht.step hm hok

/-- The call with this number looked its id up, found this action there under the type of its
arguments, and passed these arguments on. -/
def LookedUp (tr : History T n) (k : Nat) (a : CallbackType T) (p : ParamArgs T) : Prop :=
  ∃ l₁ l₂ u id, tr = l₁ ++ (u, .lookedUp k id p) :: l₂ ∧
    (registryAfter l₁).actionMapping id = some (a, p.getType) ∧ TypedState (a, p.getType)

theorem LookedUp.mono {k : Nat} {a : CallbackType T} {p : ParamArgs T} (h : LookedUp tr k a p)
    (l : History T n) : LookedUp (tr ++ l) k a p := by
  obtain ⟨l₁, l₂, u, id, rfl, hb, ht⟩ := h
  exact ⟨l₁, l₂ ++ l, u, id, by simp, hb, ht⟩

def lookedUpIn (tr : History T n) : Captured T := ⟨LookedUp tr, fun _ => True⟩

/-- Every closure of an `interfaceCall`, wherever it is, was made by a lookup. -/
theorem closures_lookedUp (h : (pool T n).Run (fun _ _ i => RegistersTyped i) tr s) :
    s.Carries (lookedUpIn tr) := by
  refine pool_invariant (J := fun tr s => s.Carries (lookedUpIn tr)) ?_ ?_ h
  · exact ⟨fun _ _ h => absurd h List.not_mem_nil, fun _ _ h => absurd h List.not_mem_nil,
      fun _ _ h => absurd h List.not_mem_nil⟩
  · intro tr s t i mv hrun hc _ hm
    have hle : (lookedUpIn tr).Le (lookedUpIn (tr ++ [(t, mv.action)])) :=
      ⟨fun k a p hl => LookedUp.mono hl _, fun _ _ => trivial⟩
    refine hc.step hm hle ⟨fun k id args st ha hst hty => ?_, fun _ _ => trivial⟩
    have hst' : s.mem.registry.actionMapping id = some (st.1, args.getType) := by
      rw [hst, hty]
    refine ⟨tr, [], t, id, by rw [ha], registry_eq_replay hrun ▸ hst', ?_⟩
    exact (typedRegistry hrun).stored hst'

theorem Moves.executed_inv (hm : Moves s t i mv) {k : Nat} {a : CallbackType T} {p : ParamArgs T}
    (ha : mv.action = .executed k a p) :
    ∃ rest, s.stack t = .invoke (.bound k a p) :: rest := by
  cases hm <;> cases ha <;> exact ⟨_, ‹_›⟩

theorem Moves.lookedUp_inv (hm : Moves s t i mv) {k : Nat} {id : String} {p : ParamArgs T}
    (ha : mv.action = .lookedUp k id p) : k = s.mem.fresh := by
  cases hm <;> cases ha <;> rfl

theorem lookedUp_below (h : (pool T n).Run ok tr s) :
    ∀ t k id p, (t, .lookedUp k id p) ∈ tr → k < s.mem.fresh := by
  refine pool_invariant (J := fun tr s =>
    ∀ t k id p, (t, .lookedUp k id p) ∈ tr → k < s.mem.fresh) ?_ ?_ h
  · intro t k id p hmem
    exact absurd hmem List.not_mem_nil
  · intro tr s u i mv _ ih _ hm t k id p hmem
    rcases mem_snoc.mp hmem with hmem | ⟨-, ha⟩
    · exact (ih t k id p hmem).trans_le (s.fresh_mono u mv)
    · rw [Sys.apply_mem, Mem.perform_fresh, ha, hm.lookedUp_inv ha]
      exact Nat.lt_succ_self _

/-- The number of a lookup names one call. -/
theorem lookup_unique (h : (pool T n).Run ok tr s) :
    ∀ {t u k id id' p p'}, (t, .lookedUp k id p) ∈ tr → (u, .lookedUp k id' p') ∈ tr →
      id = id' ∧ p = p' := by
  refine pool_invariant (J := fun tr _ => ∀ {t u k id id' p p'},
    (t, .lookedUp k id p) ∈ tr → (u, .lookedUp k id' p') ∈ tr → id = id' ∧ p = p') ?_ ?_ h
  · intro t u k id id' p p' h₁
    exact absurd h₁ List.not_mem_nil
  · intro tr s v i mv hrun ih _ hm t u k id id' p p' h₁ h₂
    have hold := lookedUp_below hrun
    rcases mem_snoc.mp h₁ with h₁ | ⟨-, ha₁⟩ <;> rcases mem_snoc.mp h₂ with h₂ | ⟨-, ha₂⟩
    · exact ih h₁ h₂
    · have hlt := hold _ _ _ _ h₁
      have heq := hm.lookedUp_inv ha₂
      omega
    · have hlt := hold _ _ _ _ h₂
      have heq := hm.lookedUp_inv ha₁
      omega
    · have hsame := ha₁.symm.trans ha₂
      simp only [Action.lookedUp.injEq, true_and] at hsame
      exact hsame

/-- Every action executed is the one the call found at its lookup, it is not empty, it casts its
argument to the type the argument has, and the argument is the call's own. -/
theorem dispatch_type_safe (hinj : Function.Injective T.typeName)
    (h : (pool T n).Run (fun _ _ i => RegistersTyped i) tr s) {l r : History T n} {t : Tid n}
    {k : Nat} {a : CallbackType T} {p : ParamArgs T} (htr : tr = l ++ (t, .executed k a p) :: r) :
    ∃ l₁ l₂ u id act, l = l₁ ++ (u, .lookedUp k id p) :: l₂ ∧
      (registryAfter l₁).actionMapping id = some (a, p.getType) ∧
      a = some act ∧ act.actualType = p.tuple ∧
      ∀ u' id' p', (u', .lookedUp k id' p') ∈ l → id' = id ∧ p' = p := by
  obtain ⟨s₀, i, mv, h₀, -, hm, ha⟩ := pool_at_label h htr
  obtain ⟨rest, hstack⟩ := hm.executed_inv ha
  have hc : (Frame.invoke (.bound k a p)).Carries (lookedUpIn l) :=
    (closures_lookedUp h₀).frames _ _ (hstack ▸ List.mem_cons_self)
  obtain ⟨l₁, l₂, u, id, hl, hb, act, hact, hty⟩ := hc
  refine ⟨l₁, l₂, u, id, act, hl, hb, hact, (hinj hty).symm, ?_⟩
  intro u' id' p' hmem
  have hmem' : (u, .lookedUp k id p) ∈ l := by simp [hl]
  exact lookup_unique h₀ hmem hmem'

/-- Two argument tuples with names of their own. -/
def twoTypes : ArgTypes := ⟨Bool, fun _ => Nat, fun b => if b then "i" else "s"⟩

/-- A call is dequeued under one registration and executed after the id has been registered again
with another action and another type. -/
def reRegisteredRun : History twoTypes 1 × Sys twoTypes 1 :=
  let c := Tid.client 0
  let w := Tid.worker worker₀
  (pool twoTypes 1).drive (fun _ _ i => RegistersTyped i)
    (c.calls (.registerInterfaceFor "a" true (some 0)) 3 ++
      c.calls (.interfaceCall "a" ⟨true, false, none, ""⟩ ⟨true, (7 : Nat)⟩) 6 ++ w.steps 2 ++
      c.calls (.unRegiterInterface "a") 6 ++
      c.calls (.registerInterfaceFor "a" false (some 1)) 3 ++ w.steps 3)

theorem dispatch_type_safe_reRegisteredRun : ∃ l l₁ l₂ u id act,
    reRegisteredRun.1 = l ++
      [(.worker 0, .executed 0 (some ⟨true, 0⟩) ⟨true, (7 : Nat)⟩)] ∧
    l = l₁ ++ (u, .lookedUp 0 id ⟨true, (7 : Nat)⟩) :: l₂ ∧
    (some ⟨true, 0⟩ : CallbackType twoTypes) = some act ∧ act.actualType = true := by
  have hinj : Function.Injective twoTypes.typeName := by
    have hne : ("i" : String) ≠ "s" := by decide
    intro (a : Bool) (b : Bool) hab
    cases a <;> cases b
    · rfl
    · exact absurd hab.symm hne
    · exact absurd hab hne
    · rfl
  have h : (pool twoTypes 1).Run (fun _ _ i => RegistersTyped i) reRegisteredRun.1
      reRegisteredRun.2 := run_drive (fun _ _ _ hok => hok) _
  have hexec : reRegisteredRun.1 = reRegisteredRun.1.dropLast ++
      (.worker 0, .executed 0 (some ⟨true, 0⟩) ⟨true, (7 : Nat)⟩) :: [] := rfl
  obtain ⟨l₁, l₂, u, id, act, hl, -, hact, hty, -⟩ := dispatch_type_safe hinj h hexec
  exact ⟨_, l₁, l₂, u, id, act, hexec, hl, hact, hty⟩

end ServiceLib
