import ServiceLib.Model.History

namespace ServiceLib

variable {T : ArgTypes} {n : Nat}

/-- Two conditions on what a closure carries: `P` on the target, action and arguments of an
`interfaceCall`, `Q` on the number of a `doSyncJob`. -/
structure Captured (T : ArgTypes) where
  P : Nat → CallbackType T → ParamArgs T → Prop
  Q : Nat → Prop

def Callable.Carries (C : Captured T) : Callable T → Prop
  | .client _ => True
  | .bound k a p => C.P k a p
  | .syncDone none k => C.Q k
  | .syncDone (some c) k => c.Carries C ∧ C.Q k

/-- Empty function objects carry nothing. -/
def OptCarries (C : Captured T) (c : Option (Callable T)) : Prop := ∀ x ∈ c, x.Carries C

structure JobContext.Carries (C : Captured T) (j : JobContext T) : Prop where
  action : OptCarries C j.action
  onDone : OptCarries C j.onDone

def Frame.Carries (C : Captured T) : Frame T n → Prop
  | .invoke c => c.Carries C
  | .syncFinish k | .syncWait k | .syncAsleep k => C.Q k
  | .schedule req | .scan req _ _ _ | .bindStrand req _ =>
    OptCarries C req.action ∧ OptCarries C req.onDone
  | .push _ _ call onDone _ | .doSync _ _ call onDone _ =>
    OptCarries C call ∧ OptCarries C onDone
  | _ => True

/-- Every closure in the system meets the conditions. -/
structure Sys.Carries (C : Captured T) (s : Sys T n) : Prop where
  frames : ∀ t, ∀ f ∈ s.stack t, f.Carries C
  queued : ∀ w, ∀ j ∈ (s.worker w).calls, j.Carries C
  running : ∀ w, ∀ j ∈ (s.pc w).current, j.Carries C

/-- One pair of conditions is weaker than another. -/
def Captured.Le (C D : Captured T) : Prop :=
  (∀ k a p, C.P k a p → D.P k a p) ∧ ∀ k, C.Q k → D.Q k

variable {C D : Captured T}

theorem Callable.carries_syncDone (C : Captured T) (o : Option (Callable T)) (k : Nat) :
    (Callable.syncDone o k).Carries C ↔ OptCarries C o ∧ C.Q k := by
  cases o <;> simp [Carries, OptCarries]

theorem Callable.Carries.mono (h : C.Le D) : ∀ {c : Callable T}, c.Carries C → c.Carries D
  | .client _, _ => trivial
  | .bound _ _ _, hc => h.1 _ _ _ hc
  | .syncDone none _, hc => h.2 _ hc
  | .syncDone (some _) _, hc => ⟨hc.1.mono h, h.2 _ hc.2⟩

theorem OptCarries.mono (h : C.Le D) {c : Option (Callable T)} (hc : OptCarries C c) :
    OptCarries D c :=
  fun x hx => (hc x hx).mono h

theorem optCarries_client (C : Captured T) (f : Option ClientFn) :
    OptCarries C (f.map .client) := by
  intro c hc
  obtain ⟨f, -, rfl⟩ := Option.map_eq_some_iff.mp hc
  trivial

theorem JobContext.Carries.mono (h : C.Le D) {j : JobContext T} (hj : j.Carries C) :
    j.Carries D :=
  ⟨hj.action.mono h, hj.onDone.mono h⟩

theorem Frame.Carries.mono (h : C.Le D) {f : Frame T n} (hf : f.Carries C) : f.Carries D := by
  cases f
  case invoke => exact Callable.Carries.mono h hf
  case syncFinish | syncWait | syncAsleep => exact h.2 _ hf
  case schedule | scan | bindStrand | push | doSync => exact ⟨hf.1.mono h, hf.2.mono h⟩
  all_goals trivial

theorem Frame.place_carries (C : Captured T) (req : Request T) (w : Fin n) :
    (Sys.place req w).Carries C ↔ OptCarries C req.action ∧ OptCarries C req.onDone := by
  unfold Sys.place
  split <;> rfl

theorem Frame.enter_carries (C : Captured T) (op : Op T n) : op.enter.Carries C := by
  cases op
  case scheduleJob | doJob | doSyncJob =>
    exact ⟨optCarries_client C _, optCarries_client C _⟩
  all_goals trivial

/-- What a step adds to the closures: the one an accepted lookup makes and the one of a new
`doSyncJob`. -/
structure Move.Captures (C : Captured T) (s : Sys T n) (mv : Move T n) : Prop where
  lookup : ∀ k id args st, mv.action = .lookedUp k id args →
    s.mem.registry.actionMapping id = some st → args.getType = st.2 → C.P k st.1 args
  opened : ∀ k, mv.action = .opened k → C.Q k

variable {s : Sys T n} {t : Tid n} {i : Choice T n} {mv : Move T n}

/-- Closures reach new frames only from old ones, from the job that is run and from the two places
that make them. -/
theorem Moves.frames_carry (hm : Moves s t i mv) (h : s.Carries C) (hle : C.Le D)
    (hnew : mv.Captures D s) : ∀ f ∈ mv.frames, f.Carries D := by
  have hold {f rest} (hs : s.stack t = f :: rest) : f.Carries D :=
    (h.frames t f (hs ▸ List.mem_cons_self)).mono hle
  cases hm
  case call op _ _ _ | callBack op _ _ =>
    exact List.forall_mem_cons.mpr ⟨Frame.enter_carries D op, by simp [Frame.Carries]⟩
  case invokeSync c k rest hs =>
    obtain ⟨hc, hk⟩ := (Callable.carries_syncDone D (some c) k).mp (hold hs)
    simpa [Frame.Carries, OptCarries] using And.intro hc hk
  case invokeSyncEmpty k rest hs =>
    have hk := (Callable.carries_syncDone D none k).mp (hold hs)
    exact List.forall_mem_singleton.mpr hk.2
  case callAsync id prop args rest st hs _ hr hty _ =>
    have hb : (Callable.bound s.mem.fresh st.1 args).Carries D := hnew.lookup _ _ _ _ rfl hr hty
    refine List.forall_mem_singleton.mpr ⟨?_, optCarries_client D _⟩
    simpa [OptCarries] using hb
  case callSync id prop args rest st hs _ hr hty _ =>
    have hb : (Callable.bound s.mem.fresh st.1 args).Carries D := hnew.lookup _ _ _ _ rfl hr hty
    exact List.forall_mem_cons.mpr ⟨hb, by simp [Frame.Carries]⟩
  case schedule hs _ | scanRead hs _ | scanCompare hs _ | scanStrand hs _ _ =>
    have hreq := hold hs
    exact List.forall_mem_singleton.mpr hreq
  case scanPlace req res it rest hs _ _ =>
    have hreq := hold hs
    exact List.forall_mem_singleton.mpr ((Frame.place_carries D req res).mpr hreq)
  case bindStrand req idle rest hs =>
    have hreq := hold hs
    exact List.forall_mem_singleton.mpr ((Frame.place_carries D req _).mpr hreq)
  case doSync w name call onDone strand rest hs =>
    obtain ⟨hcall, hdone⟩ := hold hs
    have hk : D.Q s.mem.fresh := hnew.opened _ rfl
    have hclosure := (Callable.carries_syncDone D onDone s.mem.fresh).mpr ⟨hdone, hk⟩
    refine List.forall_mem_cons.mpr ⟨⟨hcall, ?_⟩, List.forall_mem_singleton.mpr hk⟩
    simpa [OptCarries] using hclosure
  case syncSleep k rest hs _ | syncWake k rest hs =>
    have hk := hold hs
    exact List.forall_mem_singleton.mpr hk
  case beginAction w j c ht _ hp hc =>
    have hj : j.Carries C := h.running w j (by simp [hp, WorkerPc.current])
    exact List.forall_mem_singleton.mpr ((hj.action c hc).mono hle)
  case beginOnDone w j c ht _ hp hc =>
    have hj : j.Carries C := h.running w j (by simp [hp, WorkerPc.current])
    exact List.forall_mem_singleton.mpr ((hj.onDone c hc).mono hle)
  all_goals simp [Frame.Carries, Callable.Carries]

theorem Sys.Carries.step (h : s.Carries C) (hm : Moves s t i mv) (hle : C.Le D)
    (hnew : mv.Captures D s) : (s.apply t mv).Carries D where
  frames u f hf := by
    rcases Sys.mem_apply_stack hf with ⟨-, hf⟩ | hf
    · exact hm.frames_carry h hle hnew f hf
    · exact (h.frames u f hf).mono hle
  queued w j hj := by
    rcases Sys.mem_apply_calls hj with hj | ⟨strand, ha⟩
    · exact (h.queued w j hj).mono hle
    · obtain ⟨rest, hs, -⟩ := hm.pushed_inv ha
      have hf : (Frame.push w j.id j.action j.onDone strand).Carries C :=
        h.frames t _ (hs ▸ List.mem_cons_self)
      exact ⟨hf.1.mono hle, hf.2.mono hle⟩
  running w j hj := by
    rcases hm.current_step hj with hj | hj
    · exact (h.running w j hj).mono hle
    · exact (h.queued w j hj).mono hle

end ServiceLib
