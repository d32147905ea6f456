import ServiceLib.Pool.Ran

namespace ServiceLib

open Machine

variable {T : ArgTypes} {n : Nat} {ok : History T n → Sys T n → Tid n × Choice T n → Prop}
  {tr : History T n} {s : Sys T n}

/-- A frame on its way to a push goes to the worker its strand is bound to. -/
def Frame.OnStrand (strands : String → Option (Fin n)) : Frame T n → Prop
  | .push w _ _ _ strand | .doSync w _ _ _ strand => strand ≠ "" → strands strand = some w
  | _ => True

/-- The frame knows the worker it pushes on. -/
def Frame.places : Frame T n → Bool
  | .push _ _ _ _ _ | .doSync _ _ _ _ _ => true
  | _ => false

theorem Frame.onStrand_of_not_places {strands : String → Option (Fin n)} {l : List (Frame T n)}
    (h : l.any Frame.places = false) : ∀ f ∈ l, f.OnStrand strands := by
  intro f hf
  have hp : f.places = false := by simpa using List.any_eq_false.mp h f hf
  cases f
  case push | doSync => cases hp
  all_goals trivial

theorem Frame.place_onStrand (strands : String → Option (Fin n)) (req : Request T) (w : Fin n) :
    (Sys.place req w).OnStrand strands ↔ (req.strand ≠ "" → strands req.strand = some w) := by
  unfold Sys.place
  split <;> rfl

theorem Frame.enter_onStrand (strands : String → Option (Fin n)) (op : Op T n) :
    op.enter.OnStrand strands := by
  cases op <;> simp [Op.enter, OnStrand]

/-- A strand that is bound stays with its worker. -/
theorem Moves.strands_mono {t : Tid n} {i : Choice T n} {mv : Move T n} (h : Moves s t i mv)
    {strand : String} {w : Fin n} (hw : s.mem.strands strand = some w) :
    (s.apply t mv).mem.strands strand = some w := by
  rw [Sys.apply_mem, Mem.perform_strands]
  cases h
  case bindStrand req idle _ _ =>
    by_cases hr : strand = req.strand
    · subst hr
      simp [hw]
    · simp [Function.update_of_ne hr, hw]
  all_goals exact hw

theorem Frame.OnStrand.mono {t : Tid n} {i : Choice T n} {mv : Move T n} (h : Moves s t i mv)
    {f : Frame T n} (hf : f.OnStrand s.mem.strands) : f.OnStrand (s.apply t mv).mem.strands := by
  cases f
  case push | doSync => exact fun hne => h.strands_mono (hf hne)
  all_goals trivial

/-- Every frame on its way to a push and every push so far agree with the strand table. -/
structure StrandBound (tr : History T n) (s : Sys T n) : Prop where
  frames : ∀ t, ∀ f ∈ s.stack t, f.OnStrand s.mem.strands
  pushes : ∀ {t w j strand}, (t, Action.pushed w j strand) ∈ tr → strand ≠ "" →
    s.mem.strands strand = some w

theorem Moves.frames_onStrand {t : Tid n} {i : Choice T n} {mv : Move T n} (hm : Moves s t i mv)
    (h : ∀ f ∈ s.stack t, f.OnStrand s.mem.strands) :
    ∀ f ∈ mv.frames, f.OnStrand (s.apply t mv).mem.strands := by
  cases hm
  case call op _ _ _ | callBack op _ _ =>
    exact List.forall_mem_cons.mpr ⟨Frame.enter_onStrand _ op, by simp [Frame.OnStrand]⟩
  case scanPlace req res _ _ _ _ hstrand =>
    simp [Frame.place_onStrand, hstrand]
  case bindStrand req idle _ _ =>
    simp [Frame.place_onStrand, Mem.perform_strands]
  case doSync w name call onDone strand rest hs =>
    have hw := h _ (hs ▸ List.mem_cons_self)
    simpa [Frame.OnStrand, Mem.perform_strands] using hw
  all_goals exact Frame.onStrand_of_not_places rfl

theorem StrandBound.step {t : Tid n} {i : Choice T n} {mv : Move T n} (h : StrandBound tr s)
    (hm : Moves s t i mv) : StrandBound (tr ++ [(t, mv.action)]) (s.apply t mv) where
  frames u f hf := by
    rcases Sys.mem_apply_stack hf with ⟨rfl, hnew⟩ | hold
    · exact hm.frames_onStrand (h.frames u) f hnew
    · exact (h.frames u f hold).mono hm
  pushes {u w j strand} hp hne := by
    rcases mem_snoc.mp hp with hp | ⟨rfl, ha⟩
    · exact hm.strands_mono (h.pushes hp hne)
    · obtain ⟨rest, hs, _⟩ := hm.pushed_inv ha
      have hf : (Frame.push w j.id j.action j.onDone strand).OnStrand s.mem.strands :=
        h.frames u _ (hs ▸ List.mem_cons_self)
      exact hm.strands_mono (hf hne)

theorem strandBound (h : (pool T n).Run ok tr s) : StrandBound tr s := by
  refine pool_invariant (J := StrandBound) ⟨?_, ?_⟩ ?_ h
  · intro t f hf
    exact absurd hf List.not_mem_nil
  · intro t w j strand hp
    exact absurd hp List.not_mem_nil
  · intro tr s t i mv _ hb _ hm
    exact hb.step hm

/-- The job has run whole on worker `w`, or a cancel removed it there. -/
def Settled (w : Fin n) (j : JobContext T) (tr : History T n) : Prop :=
  j ∈ cancelledOn w tr ∨ Ran w j tr

/-- When a worker begins the action of a job, it has just dequeued that job and finished all it
dequeued before. -/
theorem executes_at_begin (h : (pool T n).Run ok tr s) {w : Fin n} {j : JobContext T}
    {l r : History T n} {t : Tid n} (htr : tr = l ++ (t, .actionBegan w j) :: r) :
    ∃ s₀ js, (pool T n).Run ok l s₀ ∧ Executes w l s₀ js ∧ dequeuedOn w l = js ++ [j] := by
  obtain ⟨s₀, i, mv, h₀, -, hm, ha⟩ := pool_at_label h htr
  obtain ⟨-, -, hpc⟩ := hm.actionBegan_inv ha
  obtain ⟨js, hjs⟩ := executes h₀ w
  refine ⟨s₀, js, h₀, hjs, ?_⟩
  rw [hjs.1, hpc]
  rfl

/-- A job begins on the worker it was pushed on. -/
theorem actionBegan_worker (h : (pool T n).Run ok tr s) {v w : Fin n} {j : JobContext T}
    {l r : History T n} {t : Tid n} (htr : tr = l ++ (t, .actionBegan w j) :: r)
    (hj : j ∈ pushedOn v tr) : w = v := by
  obtain ⟨s₀, js, h₀, -, hd⟩ := executes_at_begin h htr
  obtain ⟨F, hp, htk, -⟩ := tracked h₀ w
  have hjw : j ∈ pushedOn w l := hp ▸ F.taken_sublist.subset (by simp [htk, hd])
  refine (numbered h).apart ?_ hj
  rw [htr, pushedOn_append]
  exact List.mem_append_left _ hjw

/-- When a worker begins the action of a job, the jobs pushed on it before are settled. -/
theorem settled_before (h : (pool T n).Run ok tr s) {w : Fin n} {j₁ j₂ : JobContext T}
    {l r : History T n} {t : Tid n} (htr : tr = l ++ (t, .actionBegan w j₂) :: r)
    (hpush : [j₁, j₂].Sublist (pushedOn w tr)) : Settled w j₁ l := by
  obtain ⟨s₀, js, h₀, hjs, hd⟩ := executes_at_begin h htr
  obtain ⟨F, hp, htk, hrm, -⟩ := tracked h₀ w
  have hj₂ : j₂ ∈ F.taken := by simp [htk, hd]
  have hnd : (pushedOn w tr).Nodup := (numbered h).nodup w
  rw [htr, pushedOn_append] at hpush hnd
  have hbefore : [j₁, j₂].Sublist F.pushed := by
    rw [hp]
    exact pair_sublist_left hnd hpush (hp ▸ F.taken_sublist.subset hj₂)
  have hndl : F.pushed.Nodup := hp ▸ (numbered h₀).nodup w
  rcases F.not_waiting_of_before hndl hbefore hj₂ with hj | hj
  · rw [htk, hd, List.mem_append, List.mem_singleton] at hj
    rcases hj with hj | rfl
    · exact .inr (hjs.ran h₀ hj)
    · simpa using hbefore.nodup hndl
  · exact .inl (hrm ▸ hj)

/-- Strands are sequential: the jobs of a strand all go to one worker, and none begins its action
before the ones pushed earlier have run whole or were cancelled. -/
theorem strand_sequential (h : (pool T n).Run AnyStep tr s) {strand : String}
    (hne : strand ≠ "") :
    (∀ {t₁ t₂ v w j₁ j₂}, (t₁, .pushed v j₁ strand) ∈ tr → (t₂, .pushed w j₂ strand) ∈ tr →
      v = w) ∧
    ∀ {l₁ l₂ l₃ t₁ t₂ v w j₁ j₂}, tr = l₁ ++ (t₁, .pushed v j₁ strand) :: l₂ ++
        (t₂, .pushed w j₂ strand) :: l₃ →
      ∀ {p q t u}, tr = p ++ (t, .actionBegan u j₂) :: q → Settled v j₁ p := by
  have hone : ∀ {t₁ t₂ v w j₁ j₂}, (t₁, .pushed v j₁ strand) ∈ tr →
      (t₂, .pushed w j₂ strand) ∈ tr → v = w := by
    intro t₁ t₂ v w j₁ j₂ h₁ h₂
    have hv := (strandBound h).pushes h₁ hne
    have hw := (strandBound h).pushes h₂ hne
    exact Option.some.inj (hv.symm.trans hw)
  refine ⟨hone, ?_⟩
  intro l₁ l₂ l₃ t₁ t₂ v w j₁ j₂ hpush p q t u hbegin
  obtain rfl : v = w := by
    have h₁ : (t₁, .pushed v j₁ strand) ∈ tr := by simp [hpush]
    have h₂ : (t₂, .pushed w j₂ strand) ∈ tr := by simp [hpush]
    exact hone h₁ h₂
  have horder : [j₁, j₂].Sublist (pushedOn v tr) := by
    rw [hpush, pushedOn_append]
    have h₁ : j₁ ∈ pushedOn v (l₁ ++ (t₁, .pushed v j₁ strand) :: l₂) :=
      mem_pushedOn.mpr ⟨t₁, strand, by simp⟩
    have h₂ : j₂ ∈ pushedOn v ((t₂, .pushed v j₂ strand) :: l₃) :=
      mem_pushedOn.mpr ⟨t₂, strand, by simp⟩
    exact (List.singleton_sublist.mpr h₁).append (List.singleton_sublist.mpr h₂)
  obtain rfl : u = v := actionBegan_worker h hbegin (horder.subset (by simp))
  exact settled_before h hbegin horder

/-- Client 0 schedules two jobs on one strand; worker 0 runs the first and begins the second. -/
def strandRun : History .unit 2 × Sys .unit 2 :=
  let schedule := (Tid.client 0).calls (.scheduleJob "a" (some 0) (some 1) false "s") 8
  let w := Tid.worker worker₀
  (pool .unit 2).drive (fun _ _ _ => true)
    (schedule ++ schedule ++ w.steps 5 ++ w.returns 3 ++ w.returns 5)

theorem strand_sequential_strandRun : ∃ p, strandRun.1 = p ++
      [(.worker 0, .actionBegan 0 ⟨some (.client 0), some (.client 1), "a", 1⟩)] ∧
    Settled 0 ⟨some (.client 0), some (.client 1), "a", 0⟩ p := by
  have h : (pool .unit 2).Run AnyStep strandRun.1 strandRun.2 :=
    run_drive (fun _ _ _ _ => trivial) _
  have hpush : strandRun.1 = strandRun.1.take 6 ++
      (.client 0, .pushed 0 ⟨some (.client 0), some (.client 1), "a", 0⟩ "s") ::
        (strandRun.1.drop 7).take 8 ++
      (.client 0, .pushed 0 ⟨some (.client 0), some (.client 1), "a", 1⟩ "s") ::
        strandRun.1.drop 16 := rfl
  have hbegin : strandRun.1 = strandRun.1.take 32 ++
      [(.worker 0, .actionBegan 0 ⟨some (.client 0), some (.client 1), "a", 1⟩)] := rfl
  have hs : "s" ≠ "" := by decide
  exact ⟨_, hbegin, (strand_sequential h hs).2 hpush hbegin⟩

end ServiceLib
