import ServiceLib.Pool.Conservation
import ServiceLib.Pool.Wakeup

namespace ServiceLib

open Machine

variable {T : ArgTypes} {n : Nat} {ok : History T n → Sys T n → Tid n × Choice T n → Prop}
  {tr : History T n} {s : Sys T n} {t u : Tid n} {i : Choice T n} {mv : Move T n} {w : Fin n}
  {k : Nat}

/-- The action of the job has run from its begin to its end and after it the caller's `onDone`,
the steps `o` being those of the worker's thread. -/
def Completed (w : Fin n) (j : JobContext T) (c : Callable T) (d : Option (Callable T))
    (o : List (Action T n)) : Prop :=
  ∃ a seg done, o = a ++ .actionBegan w j ::
      (seg ++ .actionEnded w j :: .onDoneBegan w j :: .tau :: done) ∧
    Runs c seg ∧ OptRuns d done

theorem InRun.not_finishes {c : Callable T} {seg : List (Action T n)} {l : List (Frame T n)}
    {r : Outcome} (h : InRun c seg l r) (hc : c.plain = true) : ∀ f ∈ l, f.finishes = false := by
  cases h with
  | start =>
    refine List.forall_mem_singleton.mpr ?_
    cases c <;> first | rfl | cases hc
  | inside _ _ _ _ hno => exact hno
  | done | failed => exact fun f hf => absurd hf List.not_mem_nil

theorem Moves.client_call {c : Nat} (hm : Moves s (.client c) i mv)
    (hs : s.stack (.client c) = []) : ∃ op : Op T n, mv.frames = [op.enter] := by
  have hnext := hm.next_eq
  cases i with
  | call op =>
    simp only [Sys.next, hs, Option.some.injEq] at hnext
    exact ⟨op, by rw [← hnext]⟩
  | run | ret => simp [Sys.next, hs] at hnext

/-- The closure of a `doSyncJob` call is run by workers only. -/
theorem client_not_finishes (h : (pool T n).Run ok tr s) (c : Nat) :
    ∀ f ∈ s.stack (.client c), f.finishes = false := by
  refine pool_invariant (J := fun _ s => ∀ f ∈ s.stack (.client c), f.finishes = false) ?_ ?_ h
  · exact fun f hf => absurd hf List.not_mem_nil
  · intro tr s t i mv _ ih _ hm f hf
    rcases Sys.mem_apply_stack hf with ⟨rfl, hnew⟩ | hold
    · cases hs : s.stack (.client c) with
      | nil =>
        obtain ⟨op, hop⟩ := hm.client_call hs
        rw [hop] at hnew
        rw [List.mem_singleton.mp hnew]
        cases op <;> rfl
      | cons g rest =>
        exact hm.frames_finish hs (ih g (hs ▸ List.mem_cons_self)) f hnew
    · exact ih f hold

/-- Whoever sets the flag of a `doSyncJob` call is a worker that has run a job of that call: the
action and then the caller's `onDone`. -/
theorem finisher (h : (pool T n).Run ok tr s) {rest : List (Frame T n)}
    (hs : s.stack t = .syncFinish k :: rest) :
    ∃ w j c d, t = .worker w ∧ s.pc w = .inOnDone j ∧ rest = [] ∧ j.action = some c ∧
      j.onDone = some (.syncDone d k) ∧ Completed w j c d (own t tr) := by
  have hno (hfree : ∀ f ∈ s.stack t, f.finishes = false) : False := by
    have := hfree (.syncFinish k) (hs ▸ List.mem_cons_self)
    cases this
  cases t with
  | client c => exact (hno (client_not_finishes h c)).elim
  | worker w =>
    have hcur := (formed h).running w
    have hprog := progresses h w
    unfold Sys.Progresses at hprog
    generalize hpc : s.pc w = p at hprog hcur
    cases hprog with
    | away _ hl | onDone _ hl => exact absurd (hs.symm.trans hl) (by simp)
    | @inAction j c a seg hc ho h =>
      have hj := hcur j (by simp [WorkerPc.current])
      exact (hno (h.not_finishes (JobContext.formed_action hj hc))).elim
    | inClient _ _ hp _ _ h => exact (hno (h.not_finishes hp)).elim
    | @inSyncDone j c d l a seg last hc hd ho h hlast =>
      have hj := JobContext.formed_onDone (hcur j (by simp [WorkerPc.current])) hd
      rw [hs] at hlast
      generalize hl : Frame.syncFinish k :: rest = stack at hlast
      cases hlast with
      | start => cases hl
      | ended => cases hl
      | @inside c' seg' l' r hd' h' hne =>
        obtain ⟨f, l', rfl⟩ := List.exists_cons_of_ne_nil hne
        obtain ⟨rfl, -⟩ := List.cons.inj hl
        have hplain : c'.plain = true := by
          subst hd'
          cases c' <;> first | rfl | cases hj
        have := h'.not_finishes hplain _ List.mem_cons_self
        cases this
      | finish hd' =>
        obtain ⟨heq, hrest⟩ := List.cons.inj hl
        obtain rfl := Frame.syncFinish.inj heq
        exact ⟨w, j, c, d, rfl, hpc, hrest, hc, hd, a, seg, _, ho, h, hd'⟩

/-- A worker whose `onDone` has returned takes note of that next. -/
theorem onDone_ends {s₀ : Sys T n} {j : JobContext T} (hnil : s₀.stack (.worker w) = [])
    (hp : s₀.pc w = .inOnDone j) (h : ((pool T n).startAt s₀).Run ok tr s) :
    ∀ a ∈ (own (.worker w) tr).head?, a = .onDoneEnded w j := by
  have hinv : own (.worker w) tr = [] ∧ s.stack (.worker w) = [] ∧ s.pc w = .inOnDone j ∨
      (own (.worker w) tr).head? = some (.onDoneEnded w j) := by
    refine startAt_invariant (J := fun tr s =>
      own (.worker w) tr = [] ∧ s.stack (.worker w) = [] ∧ s.pc w = .inOnDone j ∨
        (own (.worker w) tr).head? = some (.onDoneEnded w j)) (.inl ⟨rfl, hnil, hp⟩) ?_ h
    intro tr s t i mv _ ih _ hm
    by_cases ht : t = .worker w
    · subst ht
      rw [own_snoc_self]
      refine .inr ?_
      rcases ih with ⟨hown, hstack, hpc⟩ | hhead
      · have hnext := hm.next_eq
        cases i with
        | run =>
          simp only [Sys.next, hstack, Sys.runNext, hpc, Option.some.injEq] at hnext
          rw [hown, ← hnext]
          rfl
        | call | ret => simp [Sys.next, hstack] at hnext
      · rw [List.head?_append, hhead]
        rfl
    · rw [own_snoc_other ht, Sys.apply_stack_other mv (Ne.symm ht), Sys.apply_pc,
        (hm.pc_frame w fun h => absurd h ht).1]
      exact ih
  intro a ha
  rcases hinv with ⟨hown, -, -⟩ | hhead
  · rw [hown] at ha
    cases ha
  · exact (Option.some.inj (hhead.symm.trans ha)).symm

theorem Moves.finished_inv (hm : Moves s t i mv) (ha : mv.action = .finished k) :
    ∃ rest, s.stack t = .syncFinish k :: rest := by
  cases hm <;> cases ha
  exact ⟨_, ‹_›⟩

theorem Moves.awaited_inv (hm : Moves s t i mv) (ha : mv.action = .awaited k) :
    (∃ rest, s.stack t = .syncWait k :: rest) ∧ (s.mem.syncCalls k).finished = true := by
  cases hm <;> cases ha
  exact ⟨⟨_, ‹_›⟩, ‹_›⟩

/-- Only `doSyncJob` comes to a push of its closure. -/
theorem Moves.aboutToPush_step (hm : Moves s t i mv) (hshape : SyncShape (s.stack t))
    (hrest : ∀ f ∈ (s.stack t).tail, f.resting = true) (h : (s.apply t mv).AboutToPush u k) :
    u ≠ t ∧ s.AboutToPush u k ∨ u = t ∧ mv.action = .opened k := by
  obtain ⟨w, name, call, c, strand, rest, hs⟩ := h
  have hplace {req : Request T} (hreq : req.Plain) {v : Fin n}
      (heq : Sys.place req v = .push w name call (some (.syncDone c k)) strand) : False := by
    unfold Sys.place at heq
    split at heq
    · cases heq
    · exact hreq c k (Frame.push.inj heq).2.2.2.1
  rcases Sys.apply_top hrest hs with ⟨hu, hs⟩ | ⟨rfl, l, hfr, -⟩ | ⟨-, -, -, hf⟩
  · exact .inl ⟨hu, w, name, call, c, strand, rest, hs⟩
  · refine .inr ⟨rfl, ?_⟩
    cases hm
    case doSync => cases hfr; rfl
    case call op _ _ _ | callBack op _ _ =>
      cases op
      case doJob v name' call' onDone => cases onDone <;> cases hfr
      all_goals cases hfr
    case scanPlace hs' _ _ | bindStrand hs' =>
      rw [hs'] at hshape
      exact (hplace hshape (List.cons.inj hfr).1).elim
    all_goals cases hfr
  · cases hf

/-- The number in a closure of a pushed job is used up. -/
theorem pushed_below (h : (pool T n).Run ok tr s) :
    ∀ v, ∀ j ∈ pushedOn v tr, ∀ k, j.Wakes k → k < s.mem.fresh := by
  refine pool_invariant (J := fun tr s => ∀ v, ∀ j ∈ pushedOn v tr, ∀ k, j.Wakes k →
    k < s.mem.fresh) ?_ ?_ h
  · exact fun v j hj => absurd hj List.not_mem_nil
  · intro tr s t i mv hrun ih _ hm v j hj k hk
    refine Nat.lt_of_lt_of_le ?_ (s.fresh_mono t mv)
    obtain ⟨u, strand, hmem⟩ := mem_pushedOn.mp hj
    rcases mem_snoc.mp hmem with hmem | ⟨-, ha⟩
    · exact ih v j (mem_pushedOn.mpr ⟨u, strand, hmem⟩) k hk
    · obtain ⟨rest, hs, -⟩ := hm.pushed_inv ha
      obtain ⟨c, hc⟩ := hk
      have hcarry := (sync_below hrun).frames t _ (hs ▸ List.mem_cons_self)
      exact ((Callable.carries_syncDone _ c k).mp (hcarry.2 _ hc)).2

/-- The arguments of a `doSyncJob` call. -/
structure SyncArgs (T : ArgTypes) (n : Nat) where
  worker : Fin n
  name : String
  call : Option (Callable T)
  onDone : Option (Callable T)
  strand : String

namespace SyncArgs

/-- The thread enters `doSyncJob` with these arguments. -/
def frame (x : SyncArgs T n) : Frame T n := .doSync x.worker x.name x.call x.onDone x.strand

/-- The job is the one that call number `k` makes of its arguments. -/
structure JobOf (x : SyncArgs T n) (k : Nat) (j : JobContext T) : Prop where
  action : j.action = x.call
  onDone : j.onDone = some (.syncDone x.onDone k)
  id : j.id = x.name

end SyncArgs

/-- The job of call `k` is about to be pushed, or has been pushed, `tr` being the whole history and
`m` the part of it since the call. No other job carries its closure. -/
inductive SyncPhase (x : SyncArgs T n) (k : Nat) (t : Tid n) (tr m : History T n) (s : Sys T n) :
    Prop
  | opened {rest} (hs : s.stack t =
        .push x.worker x.name x.call (some (.syncDone x.onDone k)) x.strand :: rest)
      (hothers : ∀ u ≠ t, ¬s.AboutToPush u k)
      (hno : ∀ v, ∀ j ∈ pushedOn v tr, ¬j.Wakes k)
  | pushed {j} (hj : x.JobOf k j) (hmem : (t, .pushed x.worker j x.strand) ∈ m)
      (hno : ∀ u, ¬s.AboutToPush u k)
      (honly : ∀ v, ∀ j' ∈ pushedOn v tr, j'.Wakes k → v = x.worker ∧ j' = j)

variable {x : SyncArgs T n} {l m p q : History T n} {s₀ s₁ s₂ : Sys T n}

/-- A pushed job that carries the closure of call `k` comes from a thread about to push it. -/
theorem Moves.wakes_pushed (hm : Moves s t i mv) {v : Fin n} {j : JobContext T}
    (hj : j ∈ mv.action.pushedOn v) (hk : j.Wakes k) : s.AboutToPush t k := by
  cases ha : mv.action with
  | pushed w j' strand =>
    obtain ⟨rest, hs, -⟩ := hm.pushed_inv ha
    obtain rfl : j = j' := by
      by_cases hv : v = w <;> simp_all
    obtain ⟨c, hc⟩ := hk
    exact ⟨w, j.id, j.action, c, strand, rest, hc ▸ hs⟩
  | _ => simp [ha] at hj

/-- Once the job is pushed no other one can carry its closure. -/
theorem Moves.sealed_step {j : JobContext T} (hrun : (pool T n).Run ok tr s)
    (hk : k < s.mem.fresh) (hm : Moves s u i mv) (hno : ∀ v, ¬s.AboutToPush v k)
    (honly : ∀ v, ∀ j' ∈ pushedOn v tr, j'.Wakes k → v = w ∧ j' = j) :
    (∀ v, ¬(s.apply u mv).AboutToPush v k) ∧
      ∀ v, ∀ j' ∈ pushedOn v (tr ++ [(u, mv.action)]), j'.Wakes k → v = w ∧ j' = j := by
  refine ⟨fun v hv => ?_, fun v j' hj' hw => ?_⟩
  · rcases hm.aboutToPush_step (syncShape hrun u) (resting_below hrun u) hv with ⟨-, hold⟩ | ⟨-, ha⟩
    · exact hno v hold
    · have := hm.opened_inv ha
      omega
  · rw [pushedOn_snoc] at hj'
    rcases List.mem_append.mp hj' with hj' | hj'
    · exact honly v j' hj' hw
    · exact absurd (hm.wakes_pushed hj' hw) (hno u)

theorem SyncPhase.step (h : SyncPhase x k t tr m s) (hrun : (pool T n).Run ok tr s)
    (hk : k < s.mem.fresh) (hm : Moves s u i mv) :
    SyncPhase x k t (tr ++ [(u, mv.action)]) (m ++ [(u, mv.action)]) (s.apply u mv) := by
  have hopened : mv.action ≠ .opened k := fun ha => by
    have := hm.opened_inv ha
    omega
  have habout {v} (hv : (s.apply u mv).AboutToPush v k) : v ≠ u ∧ s.AboutToPush v k :=
    (hm.aboutToPush_step (syncShape hrun u) (resting_below hrun u) hv).resolve_right
      fun h => hopened h.2
  cases h with
  | @opened rest hs hothers hno =>
    by_cases hu : u = t
    · subst hu
      obtain rfl := hm.push_eq hs
      refine .pushed (j := ⟨x.call, some (.syncDone x.onDone k), x.name, s.mem.fresh⟩)
        ⟨rfl, rfl, rfl⟩ (mem_snoc.mpr (.inr ⟨rfl, rfl⟩)) (fun v hv => ?_) (fun v j' hj' hw => ?_)
      · obtain ⟨hne, hv⟩ := habout hv
        exact hothers v hne hv
      · rw [pushedOn_snoc] at hj'
        rcases List.mem_append.mp hj' with hj' | hj'
        · exact absurd hw (hno v j' hj')
        · by_cases hv : v = x.worker <;> simp_all
    · have htop := (Sys.apply_stack_other mv (Ne.symm hu)).trans hs
      refine .opened htop (fun v hv hpush => hothers v hv (habout hpush).2) fun v j hj hw => ?_
      rw [pushedOn_snoc] at hj
      rcases List.mem_append.mp hj with hj | hj
      · exact hno v j hj hw
      · exact hothers u hu (hm.wakes_pushed hj hw)
  | pushed hj hmem hno honly =>
    obtain ⟨hno', honly'⟩ := hm.sealed_step hrun hk hno honly
    exact .pushed hj (List.mem_append_left _ hmem) hno' honly'

/-- Before its push no job carries the closure of the call. -/
theorem SyncPhase.unpushed (h : SyncPhase x k t tr m s) (ht : s.AboutToPush t k) :
    ∀ v, ∀ j ∈ pushedOn v tr, ¬j.Wakes k := by
  cases h with
  | opened _ _ hno => exact hno
  | pushed _ _ hno => exact absurd ht (hno t)

/-- A worker runs only jobs that were pushed on it. -/
theorem current_pushed (h : (pool T n).Run ok tr s) {j : JobContext T}
    (hj : j ∈ (s.pc w).current) : j ∈ pushedOn w tr := by
  obtain ⟨js, hjs⟩ := executes h w
  have htaken : j ∈ dequeuedOn w tr := by
    rw [hjs.1]
    exact List.mem_append_right js hj
  exact located_pushed (p := .dequeued w) h htaken

/-- The first step of a `doSyncJob` call. -/
theorem Moves.doSync_step {rest : List (Frame T n)} (hm : Moves s t i mv)
    (hs : s.stack t = x.frame :: rest) (ha : mv.action = .opened k) :
    k = s.mem.fresh ∧ (s.apply t mv).stack t =
      .push x.worker x.name x.call (some (.syncDone x.onDone k)) x.strand :: .syncWait k ::
        rest := by
  have hk := hm.opened_inv ha
  obtain rfl := hm.eq_of_frame hs (by simp [SyncArgs.frame]) rfl
  refine ⟨hk, ?_⟩
  rw [Sys.apply_stack_self, hs, hk]
  rfl

theorem syncPhase {rest : List (Frame T n)} (h₀ : (pool T n).Run AnyStep l s₀)
    (hs : s₀.stack t = x.frame :: rest)
    (hopen : (pool T n).step s₀ (t, i) = some ((t, .opened k), s₁))
    (h : ((pool T n).startAt s₁).Run AnyStep m s) :
    (pool T n).Run AnyStep (l ++ (t, .opened k) :: m) s ∧
      SyncPhase x k t (l ++ (t, .opened k) :: m) m s := by
  have hrun {m s} (h : ((pool T n).startAt s₁).Run AnyStep m s) :
      (pool T n).Run AnyStep (l ++ (t, .opened k) :: m) s := by
    have := (h₀.next trivial hopen).append h
    rwa [List.append_assoc] at this
  obtain ⟨mv, hm, he, rfl⟩ := pool_step hopen
  have ha : mv.action = .opened k := (Prod.mk.inj he).2.symm
  obtain ⟨hk, hstack⟩ := hm.doSync_step hs ha
  refine ⟨hrun h, ?_⟩
  have hinv : k < s.mem.fresh ∧ SyncPhase x k t (l ++ (t, .opened k) :: m) m s := by
    refine startAt_invariant (J := fun m s => k < s.mem.fresh ∧
      SyncPhase x k t (l ++ (t, .opened k) :: m) m s) ⟨?_, ?_⟩ ?_ h
    · rw [Sys.apply_mem, Mem.perform_fresh, ha, hk]
      exact Nat.lt_succ_self _
    · refine .opened hstack (fun u hu hpush => ?_) (fun v j hj hw => ?_)
      · obtain ⟨w, name, call, c, strand, rest', hs'⟩ := hpush
        rw [Sys.apply_stack_other mv hu] at hs'
        have hcarry := (sync_below h₀).frames u _ (hs' ▸ List.mem_cons_self)
        have hlt : k < s₀.mem.fresh := ((Callable.carries_syncDone _ c k).mp (hcarry.2 _ rfl)).2
        omega
      · rw [pushedOn_append] at hj
        rcases List.mem_append.mp hj with hj | hj
        · have hlt := pushed_below h₀ v j hj k hw
          omega
        · simp [pushedOn] at hj
    · intro m s u i mv h ih _ hm
      have hstep := ih.2.step (hrun h) ih.1 hm
      rw [List.append_assoc, List.cons_append] at hstep
      exact ⟨Nat.lt_of_lt_of_le ih.1 (s.fresh_mono u mv), hstep⟩
  exact hinv.2

/-- The flag of a call is set by a step that says so. -/
theorem finished_by (h : ((pool T n).startAt s₁).Run ok m s)
    (h₁ : (s₁.mem.syncCalls k).finished = false) (hf : (s.mem.syncCalls k).finished = true) :
    ∃ u, (u, .finished k) ∈ m := by
  revert hf
  refine startAt_invariant (J := fun m s => (s.mem.syncCalls k).finished = true →
    ∃ u, (u, .finished k) ∈ m) ?_ ?_ h
  · intro hf
    rw [h₁] at hf
    cases hf
  · intro m s u i mv _ ih _ hm hf
    cases hold : (s.mem.syncCalls k).finished with
    | true =>
      obtain ⟨v, hv⟩ := ih hold
      exact ⟨v, List.mem_append_left _ hv⟩
    | false =>
      refine ⟨u, mem_snoc.mpr (.inr ⟨rfl, ?_⟩)⟩
      rw [Sys.apply_mem, Mem.perform_finished, hold] at hf
      cases ha : mv.action with
      | finished v =>
        by_cases hv : k = v
        · rw [hv]
        · simp [ha, hv] at hf
      | opened v =>
        rw [ha, Action.onFinished] at hf
        split at hf <;> cases hf
      | _ => simp [ha] at hf

/-- Where the flag of the call is set, its job has been run by the worker it was pushed on, and the
closure returns next. -/
theorem completed_at {rest : List (Frame T n)} (h₀ : (pool T n).Run AnyStep l s₀)
    (hs : s₀.stack t = x.frame :: rest)
    (hopen : (pool T n).step s₀ (t, i) = some ((t, .opened k), s₁))
    (h : ((pool T n).startAt s₁).Run AnyStep m s) (hm : m = p ++ (u, .finished k) :: q) :
    ∃ c j, x.call = some c ∧ x.JobOf k j ∧ (t, .pushed x.worker j x.strand) ∈ p ∧
      u = .worker x.worker ∧
      Completed x.worker j c x.onDone (own u (l ++ (t, .opened k) :: p)) ∧
      ∀ a ∈ (own u q).head?, a = .onDoneEnded x.worker j := by
  obtain ⟨s', ⟨u', i'⟩, s'', hp, -, hstep, hafter⟩ := h.split hm
  obtain ⟨mv, hmv, he, rfl⟩ := pool_step hstep
  obtain ⟨rfl, ha⟩ := Prod.mk.inj he
  obtain ⟨rest', htop⟩ := hmv.finished_inv ha.symm
  obtain ⟨hrun, hphase⟩ := syncPhase h₀ hs hopen hp
  obtain ⟨w, j', c, d, rfl, hpc, rfl, hc, hd, hdone⟩ := finisher hrun htop
  have hpushed : j' ∈ pushedOn w (l ++ (t, .opened k) :: p) :=
    current_pushed hrun (by simp [hpc, WorkerPc.current])
  cases hphase with
  | opened _ _ hno => exact absurd ⟨d, hd⟩ (hno w j' hpushed)
  | @pushed j hj hmem _ honly =>
    obtain ⟨rfl, rfl⟩ := honly w j' hpushed ⟨d, hd⟩
    obtain ⟨rfl, -⟩ := Callable.syncDone.inj (Option.some.inj (hd.symm.trans hj.onDone))
    refine ⟨c, _, hj.action.symm.trans hc, hj, hmem, rfl, hdone, ?_⟩
    obtain rfl := hmv.eq_of_frame htop (by simp) rfl
    refine onDone_ends ?_ ?_ hafter
    · rw [Sys.apply_stack_self, htop]
      rfl
    · rw [Sys.apply_pc, Sys.setPc_none]
      exact hpc

/-- The action occurs exactly once in the history. -/
def Once (a : Action T n) (tr : History T n) : Prop :=
  ∃ p u q, tr = p ++ (u, a) :: q ∧ ∀ v, (v, a) ∉ p ∧ (v, a) ∉ q

/-- A step of an execution that occurs, occurs once. -/
theorem once_of_mem (h : (pool T n).Run ok tr s) {a : Action T n} (ha : a.runsOn w = true)
    (hmem : (u, a) ∈ tr) : Once a tr := by
  obtain ⟨p, q, rfl⟩ := List.append_of_mem hmem
  have hsteps : jobSteps w (p ++ (u, a) :: q) = jobSteps w p ++ a :: jobSteps w q := by
    simp [jobSteps, ha]
  have hnd := jobSteps_nodup h w
  rw [hsteps] at hnd
  have hno := (List.nodup_middle.mp hnd).notMem
  rw [List.mem_append, not_or] at hno
  obtain ⟨hp, hq⟩ := hno
  refine ⟨p, u, q, rfl, fun v => ⟨fun hv => hp ?_, fun hv => hq ?_⟩⟩
  · exact mem_jobSteps.mpr ⟨ha, v, hv⟩
  · exact mem_jobSteps.mpr ⟨ha, v, hv⟩

theorem actionBegan_pushed (h : (pool T n).Run ok tr s) {j : JobContext T}
    (hmem : (u, .actionBegan w j) ∈ tr) : j ∈ pushedOn w tr := by
  obtain ⟨js, hjs⟩ := executes h w
  have hstep : .actionBegan w j ∈ jobSteps w tr :=
    mem_jobSteps.mpr ⟨by simp [Action.runsOn], u, hmem⟩
  obtain ⟨j', hj', hexec⟩ := List.mem_flatMap.mp ((jobSteps_initial hjs).subset hstep)
  have hsame : j = j' := by
    rcases mem_execution hexec with ha | ha | ha | ha | ha <;> cases ha
    rfl
  exact located_pushed (p := .dequeued w) h (hsame ▸ hj')

/-- A `doSyncJob` call returns only when its own job is done: one job carries the closure of the
call; the worker it was pushed on has run its action once from begin to end and then the caller's
`onDone`, before the return, and whoever sets the flag of the call is that worker, at that point
and as the last step of the closure. -/
theorem doSyncJob_completes {rest : List (Frame T n)} {i' : Choice T n}
    (h₀ : (pool T n).Run AnyStep l s₀)
    (hs : s₀.stack t = x.frame :: rest)
    (hopen : (pool T n).step s₀ (t, i) = some ((t, .opened k), s₁))
    (h : ((pool T n).startAt s₁).Run AnyStep m s)
    (hret : (pool T n).step s (t, i') = some ((t, .awaited k), s₂)) :
    ∃ c j, x.call = some c ∧ x.JobOf k j ∧ (t, .pushed x.worker j x.strand) ∈ m ∧
      (∀ v, ∀ j' ∈ pushedOn v (l ++ (t, .opened k) :: m), j'.Wakes k → v = x.worker ∧ j' = j) ∧
      Once (.actionBegan x.worker j) (l ++ (t, .opened k) :: m) ∧
      Once (.actionEnded x.worker j) (l ++ (t, .opened k) :: m) ∧
      Once (.onDoneBegan x.worker j) (l ++ (t, .opened k) :: m) ∧
      (∀ v u, (u, .actionBegan v j) ∈ l ++ (t, .opened k) :: m → v = x.worker) ∧
      (∃ u, (u, .finished k) ∈ m) ∧
      ∀ p q u, m = p ++ (u, .finished k) :: q → u = .worker x.worker ∧
        Completed x.worker j c x.onDone (own u (l ++ (t, .opened k) :: p)) ∧
        ∀ a ∈ (own u q).head?, a = .onDoneEnded x.worker j := by
  obtain ⟨mv, hmv, he, -⟩ := pool_step hret
  obtain ⟨⟨rest', htop⟩, hfin⟩ := hmv.awaited_inv (Prod.mk.inj he).2.symm
  obtain ⟨mv₀, -, he₀, rfl⟩ := pool_step hopen
  have hunset : ((s₀.apply t mv₀).mem.syncCalls k).finished = false := by
    rw [Sys.apply_mem, Mem.perform_finished, ← (Prod.mk.inj he₀).2]
    simp
  obtain ⟨u, hu⟩ := finished_by h hunset hfin
  obtain ⟨hrun, hphase⟩ := syncPhase h₀ hs hopen h
  cases hphase with
  | opened hs' => exact absurd (htop.symm.trans hs') (by simp)
  | @pushed j hj hmem _ honly =>
    have hfull {e : Tid n × Action T n} {p q : History T n} (hm : m = p ++ q)
        (he : e ∈ l ++ (t, .opened k) :: p) : e ∈ l ++ (t, .opened k) :: m := by
      rw [hm, ← List.cons_append, ← List.append_assoc]
      exact List.mem_append_left q he
    have hdone {p q u} (hm : m = p ++ (u, .finished k) :: q) :
        u = .worker x.worker ∧ ∃ c, x.call = some c ∧
          Completed x.worker j c x.onDone (own u (l ++ (t, .opened k) :: p)) ∧
          ∀ a ∈ (own u q).head?, a = .onDoneEnded x.worker j := by
      obtain ⟨c, j', hc, hj', hmem', hu, hdone⟩ := completed_at h₀ hs hopen h hm
      have hpushed : j' ∈ pushedOn x.worker (l ++ (t, .opened k) :: m) :=
        mem_pushedOn.mpr
          ⟨t, x.strand, hfull hm (List.mem_append_right _ (List.mem_cons_of_mem _ hmem'))⟩
      obtain ⟨-, rfl⟩ := honly _ j' hpushed ⟨x.onDone, hj'.onDone⟩
      exact ⟨hu, c, hc, hdone⟩
    obtain ⟨p, q, hpq⟩ := List.append_of_mem hu
    obtain ⟨rfl, c, hc, hcompleted, -⟩ := hdone hpq
    have hwakes : j.Wakes k := ⟨x.onDone, hj.onDone⟩
    have honce {a : Action T n} (ha : a.runsOn x.worker = true)
        (hown : a ∈ own (.worker x.worker) (l ++ (t, .opened k) :: p)) :
        Once a (l ++ (t, .opened k) :: m) :=
      once_of_mem hrun ha (hfull hpq (mem_of_own hown))
    obtain ⟨a, seg, done, ho, -, -⟩ := hcompleted
    refine ⟨c, j, hc, hj, hmem, honly, honce (by simp [Action.runsOn]) (by simp [ho]),
      honce (by simp [Action.runsOn]) (by simp [ho]),
      honce (by simp [Action.runsOn]) (by simp [ho]),
      fun v u hv => (honly v j (actionBegan_pushed hrun hv) hwakes).1, ⟨_, hu⟩, ?_⟩
    intro p q u hm
    obtain ⟨hu, c', hc', hdone⟩ := hdone hm
    obtain rfl := Option.some.inj (hc.symm.trans hc')
    exact ⟨hu, hdone⟩

/-- A job of another caller is queued when a client enters `doSyncJob`. -/
def enteredRun : History .unit 1 × Sys .unit 1 :=
  (pool .unit 1).drive (fun _ _ _ => true)
    ((Tid.client 1).calls (.doJob worker₀ "b" (some 2) none) 3 ++
      (Tid.client 0).calls (.doSyncJob worker₀ "a" (some 0) (some 1)) 0)

def servedArgs : SyncArgs .unit 1 := ⟨worker₀, "a", some (.client 0), some (.client 1), ""⟩

def openedState : Sys .unit 1 :=
  enteredRun.2.apply (.client 0)
    (enteredRun.2.doSyncNext worker₀ "a" (some (.client 0)) (some (.client 1)) "")

/-- The worker runs both jobs, and the client wakes up. -/
def servedRun : History .unit 1 × Sys .unit 1 :=
  let c := Tid.client 0
  let w := Tid.worker worker₀
  ((pool .unit 1).startAt openedState).drive (fun _ _ _ => true)
    (c.steps 4 ++ w.steps 5 ++ w.returns 7 ++ w.returns 4 ++ w.returns 1 ++ c.steps 1)

theorem doSyncJob_completes_servedRun :
    ∃ c j, servedArgs.call = some c ∧ servedArgs.JobOf 1 j ∧
      (.client 0, .pushed 0 j "") ∈ servedRun.1 ∧
      Once (.actionBegan 0 j) (enteredRun.1 ++ (.client 0, .opened 1) :: servedRun.1) := by
  have h₀ : (pool .unit 1).Run AnyStep enteredRun.1 enteredRun.2 :=
    run_drive (fun _ _ _ _ => trivial) _
  have h : ((pool .unit 1).startAt openedState).Run AnyStep servedRun.1 servedRun.2 :=
    run_drive (fun _ _ _ _ => trivial) _
  have hs : enteredRun.2.stack (.client 0) = [servedArgs.frame] := rfl
  have hopen : (pool .unit 1).step enteredRun.2 (.client 0, .run) =
      some ((.client 0, .opened 1), openedState) := rfl
  have hret : (pool .unit 1).step servedRun.2 (.client 0, .run) = some ((.client 0, .awaited 1),
      servedRun.2.apply (.client 0) (servedRun.2.syncWaitNext 1)) := rfl
  obtain ⟨c, j, hc, hj, hpushed, -, honce, -⟩ := doSyncJob_completes h₀ hs hopen h hret
  exact ⟨c, j, hc, hj, hpushed, honce⟩

end ServiceLib
