import ServiceLib.Scheduler.Locks

namespace ServiceLib

open Machine

variable {T : ArgTypes} {n : Nat} {ok : History T n → Sys T n → Tid n × Choice T n → Prop}
  {tr : History T n} {s : Sys T n} {t u : Tid n} {i : Choice T n} {mv : Move T n}

/-- Client code calls nothing but the operations of `InterfaceScheduler`. -/
def UsesScheduler : Tid n × Choice T n → Bool
  | (_, .call (.interfaceCall _ _ _)) | (_, .call (.registerInterface _ _ _))
  | (_, .call (.registerInterfaceFor _ _ _)) | (_, .call (.unRegiterInterface _))
  | (_, .call (.isServiceRegistered _)) | (_, .call (.subscribeForRegistration _ _)) => true
  | (_, .call _) => false
  | _ => true

/-- The frames of the locked part of `unRegiterInterface`. -/
def Frame.cancelling : Frame T n → Bool
  | .cancelLoop _ _ | .cancelLock _ _ | .cancelScan _ _ _ | .unregisterExit _ => true
  | _ => false

/-- The frames of a thread that has erased an action and cancels its jobs, with the number of the
workers already visited. -/
inductive CancelTop : String → Nat → List (Frame T n) → Prop
  | loop (id : String) (k : Nat) : CancelTop id k [.cancelLoop id k, .unregisterExit id]
  | lock (id : String) (w : Fin n) :
    CancelTop id w [.cancelLock id w, .cancelLoop id (w + 1), .unregisterExit id]
  | scan (id : String) (w : Fin n) (left : List (JobContext T)) :
    CancelTop id w [.cancelScan id w left, .cancelLoop id (w + 1), .unregisterExit id]
  | exit (id : String) : CancelTop id n [.unregisterExit id]

/-- The thread is unregistering the id and has visited so many workers. -/
def Sys.Unregistering (s : Sys T n) (t : Tid n) (id : String) (k : Nat) : Prop :=
  ∃ top rest, CancelTop id k top ∧ s.stack t = top ++ rest ∧ ∀ f ∈ rest, f.cancelling = false

/-- A thread is outside `unRegiterInterface` or in one place inside it. -/
def Sys.CancelShape (s : Sys T n) (t : Tid n) : Prop :=
  (∀ f ∈ s.stack t, f.cancelling = false) ∨ ∃ id k, s.Unregistering t id k

theorem CancelTop.cons {id : String} {k : Nat} {top : List (Frame T n)} (h : CancelTop id k top) :
    ∃ f l, top = f :: l ∧ f.cancelling = true ∧ .unregisterExit id ∈ top := by
  cases h <;> exact ⟨_, _, rfl, rfl, by simp⟩

theorem Sys.Unregistering.owner (h : (pool T n).Run ok tr s) {id : String} {k : Nat}
    (hu : s.Unregistering t id k) : s.mem.mappingLock.owner = some t := by
  obtain ⟨top, rest, htop, hs, -⟩ := hu
  obtain ⟨-, -, -, -, hexit⟩ := htop.cons
  refine mapping_owner h (f := .unregisterExit id) ?_ rfl
  rw [hs]
  exact List.mem_append_left rest hexit

/-- Outside `unRegiterInterface` the only way in is its erase. -/
theorem Moves.outside_cancel (hm : Moves s t i mv) (hok : UsesScheduler (t, i) = true)
    (hno : ∀ f ∈ s.stack t, f.cancelling = false) :
    ((∀ f ∈ mv.frames, f.cancelling = false) ∧ ∀ id, mv.action ≠ .erased id) ∨
      ∃ id rest, s.stack t = .unregister id :: rest ∧
        s.mem.registry.isRegistered id = true ∧ mv.action = .erased id ∧
        mv.frames = [.cancelLoop id 0, .unregisterExit id] := by
  cases hm
  case unregister id rest hs _ hr => exact .inr ⟨id, rest, hs, hr, rfl, rfl⟩
  case call op _ _ _ | callBack op _ _ =>
    have hop : op.enter.cancelling = false := by
      cases op <;> first | rfl | cases hok
    have huser : (Frame.user : Frame T n).cancelling = false := rfl
    exact .inl ⟨by simp [hop, huser], by simp⟩
  case cancelNext hs _ | cancelEnd hs _ | cancelLock hs _ | cancelSkip hs _ | cancelErase hs
      | unregisterExit hs =>
    have hf := hno _ (hs ▸ List.mem_cons_self)
    simp [Frame.cancelling] at hf
  case scanPlace | bindStrand =>
    refine .inl ⟨?_, by simp⟩
    unfold Sys.place
    split <;> exact Frame.forall_not rfl
  all_goals exact .inl ⟨Frame.forall_not rfl, fun _ ha => by cases ha⟩

/-- A thread inside `unRegiterInterface` goes on there, past one worker by the erase of a cancel,
or returns. -/
theorem CancelTop.next {id : String} {k : Nat} {top rest : List (Frame T n)}
    (htop : CancelTop id k top) (hm : Moves s t i mv) (hs : s.stack t = top ++ rest) :
    (mv.frames ++ (s.stack t).tail = rest ∧ mv.action = .unregistered id ∧ n ≤ k) ∨
    ((∃ k' top', CancelTop id k' top' ∧ mv.frames ++ (s.stack t).tail = top' ++ rest ∧
        (k' = k ∨ n ≤ k ∨
          ∃ w : Fin n, ∃ js, k = w ∧ k' = w + 1 ∧ mv.action = .cancelled w id js)) ∧
      (∀ r, mv.action.onRegistry r = r) ∧ ∀ id', mv.action ≠ .unregistered id') := by
  have hn := hm.next_eq
  cases htop with
  | loop k =>
    have hstep := Sys.next_frame hn hs (by simp)
    simp only [Sys.frameNext, Sys.cancelLoopNext, Option.some.injEq] at hstep
    split at hstep
    · rename_i hk
      subst hstep
      exact .inr ⟨⟨k, _, .lock id ⟨k, hk⟩, by simp [hs], .inl rfl⟩, fun _ => rfl, by simp⟩
    · rename_i hk
      subst hstep
      exact .inr ⟨⟨n, _, .exit id, by simp [hs], .inr (.inl (by omega))⟩, fun _ => rfl, by simp⟩
  | lock w =>
    have hstep := Sys.next_frame hn hs (by simp)
    simp only [Sys.frameNext, Sys.cancelLockNext] at hstep
    split at hstep
    · obtain rfl := Option.some.inj hstep
      exact .inr ⟨⟨w, _, .scan id w (s.worker w).calls, by simp [hs], .inl rfl⟩, fun _ => rfl,
        by simp⟩
    · cases hstep
  | scan w left =>
    have hstep := Sys.next_frame hn hs (by simp)
    cases left with
    | nil =>
      obtain rfl := Option.some.inj hstep
      exact .inr ⟨⟨w + 1, _, .loop id (w + 1), by simp [hs], .inr (.inr ⟨w, _, rfl, rfl, rfl⟩)⟩,
        fun _ => rfl, by simp⟩
    | cons it left =>
      simp only [Sys.frameNext, Sys.cancelScanNext] at hstep
      split at hstep
      · cases hstep
      · obtain rfl := Option.some.inj hstep
        exact .inr ⟨⟨w, _, .scan id w left, by simp [hs], .inl rfl⟩, fun _ => rfl, by simp⟩
  | exit =>
    have hstep := Sys.next_frame hn hs (by simp)
    obtain rfl := Option.some.inj hstep
    exact .inl ⟨by simp [hs], rfl, le_refl n⟩

/-- The frames tell the id and the place. -/
theorem CancelTop.unique {id id' : String} {k k' : Nat} {top top' rest rest' : List (Frame T n)}
    (h : CancelTop id k top) (h' : CancelTop id' k' top') (heq : top ++ rest = top' ++ rest') :
    id = id' ∧ k = k' := by
  cases h <;> cases h' <;> simp_all

theorem Sys.unregistering_other {id : String} {k : Nat} (hu : u ≠ t) :
    (s.apply t mv).Unregistering u id k ↔ s.Unregistering u id k := by
  simp only [Sys.Unregistering, Sys.apply_stack_other _ hu]

/-- Where the thread that unregisters stands after its own step. -/
theorem Sys.Unregistering.step {id : String} {k : Nat} (h : s.Unregistering t id k)
    (hm : Moves s t i mv) :
    (mv.action = .unregistered id ∧ n ≤ k ∧
      ∀ f ∈ (s.apply t mv).stack t, f.cancelling = false) ∨
    ((∃ k', (s.apply t mv).Unregistering t id k' ∧
        (k' = k ∨ n ≤ k ∨
          ∃ w : Fin n, ∃ js, k = w ∧ k' = w + 1 ∧ mv.action = .cancelled w id js)) ∧
      (∀ r, mv.action.onRegistry r = r) ∧ ∀ id', mv.action ≠ .unregistered id') := by
  obtain ⟨top, rest, htop, hs, hrest⟩ := h
  rcases htop.next hm hs with ⟨hstack, ha, hk⟩ | ⟨⟨k', top', htop', hstack, hk⟩, hreg, hne⟩
  · refine .inl ⟨ha, hk, ?_⟩
    rw [Sys.apply_stack_self, hstack]
    exact hrest
  · refine .inr ⟨⟨k', ⟨top', rest, htop', ?_, hrest⟩, hk⟩, hreg, hne⟩
    rw [Sys.apply_stack_self, hstack]

theorem Sys.Unregistering.not_clean {id : String} {k : Nat} (h : s.Unregistering t id k) :
    ¬∀ f ∈ s.stack t, f.cancelling = false := by
  obtain ⟨top, rest, htop, hs, -⟩ := h
  obtain ⟨f, l, rfl, hf, -⟩ := htop.cons
  intro hclean
  have := hclean f (by simp [hs])
  simp [hf] at this

/-- A thread outside `unRegiterInterface` stays outside, or erases an action and starts to
cancel. -/
theorem Moves.enters_cancel (hm : Moves s t i mv) (hok : UsesScheduler (t, i) = true)
    (hno : ∀ f ∈ s.stack t, f.cancelling = false) :
    ((∀ f ∈ (s.apply t mv).stack t, f.cancelling = false) ∧ ∀ id, mv.action ≠ .erased id) ∨
      ∃ id, s.mem.registry.isRegistered id = true ∧ mv.action = .erased id ∧
        (s.apply t mv).Unregistering t id 0 := by
  have htail : ∀ f ∈ (s.stack t).tail, f.cancelling = false :=
    fun f hf => hno f (List.mem_of_mem_tail hf)
  rw [Sys.apply_stack_self]
  rcases hm.outside_cancel hok hno with ⟨hframes, ha⟩ | ⟨id, rest, -, hr, ha, hframes⟩
  · refine .inl ⟨fun f hf => ?_, ha⟩
    rcases List.mem_append.mp hf with hf | hf
    · exact hframes f hf
    · exact htail f hf
  · refine .inr ⟨id, hr, ha, _, _, .loop id 0, ?_, htail⟩
    rw [Sys.apply_stack_self, hframes]

theorem cancelShape (h : (pool T n).Run (fun _ _ i => UsesScheduler i) tr s) :
    ∀ t, s.CancelShape t := by
  refine pool_invariant (J := fun _ s => ∀ t, s.CancelShape t) ?_ ?_ h
  · exact fun t => .inl fun f hf => absurd hf List.not_mem_nil
  · intro tr s t i mv _ ih hok hm u
    by_cases hu : u = t
    · subst hu
      rcases ih u with hno | ⟨id, k, hun⟩
      · rcases hm.enters_cancel hok hno with ⟨hclean, -⟩ | ⟨id, -, -, hun⟩
        · exact .inl hclean
        · exact .inr ⟨id, 0, hun⟩
      · rcases hun.step hm with ⟨-, -, hclean⟩ | ⟨⟨k', hun', -⟩, -⟩
        · exact .inl hclean
        · exact .inr ⟨id, k', hun'⟩
    · rcases ih u with hno | ⟨id, k, hun⟩
      · refine .inl ?_
        rw [Sys.apply_stack_other _ hu]
        exact hno
      · exact .inr ⟨id, k, (Sys.unregistering_other hu).mpr hun⟩

/-- Who unregisters after a step did so before, or has just erased the action. -/
theorem Moves.unregistering_inv (hm : Moves s t i mv) (hok : UsesScheduler (t, i) = true)
    (hshape : s.CancelShape t) {id : String} {k : Nat}
    (h : (s.apply t mv).Unregistering u id k) :
    (∃ k₀, s.Unregistering u id k₀ ∧ (u = t → ∀ r, mv.action.onRegistry r = r)) ∨
      u = t ∧ s.mem.registry.isRegistered id = true ∧ mv.action = .erased id := by
  by_cases hu : u = t
  · subst hu
    rcases hshape with hno | ⟨id₀, k₀, hun⟩
    · rcases hm.enters_cancel hok hno with ⟨hclean, -⟩ | ⟨id₀, hr, ha, hun⟩
      · exact absurd hclean h.not_clean
      · obtain ⟨top, rest, htop, hs, -⟩ := h
        obtain ⟨top', rest', htop', hs', -⟩ := hun
        obtain ⟨rfl, -⟩ := htop.unique htop' (hs.symm.trans hs')
        exact .inr ⟨rfl, hr, ha⟩
    · rcases hun.step hm with ⟨-, -, hclean⟩ | ⟨⟨k', hun', -⟩, hreg, -⟩
      · exact absurd hclean h.not_clean
      · obtain ⟨top, rest, htop, hs, -⟩ := h
        obtain ⟨top', rest', htop', hs', -⟩ := hun'
        obtain ⟨rfl, -⟩ := htop.unique htop' (hs.symm.trans hs')
        exact .inl ⟨k₀, hun, fun _ => hreg⟩
  · exact .inl ⟨k, (Sys.unregistering_other hu).mp h, fun heq => absurd heq hu⟩

end ServiceLib
