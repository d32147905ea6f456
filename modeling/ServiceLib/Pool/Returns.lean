import ServiceLib.Pool.Hung
import ServiceLib.Pool.Response
import ServiceLib.Pool.Settled
import ServiceLib.Scheduler.LockOrder
import Mathlib.Tactic.IntervalCases

namespace ServiceLib

open Machine

variable {T : ArgTypes} {n : Nat} {ok : History T n → Sys T n → Tid n × Choice T n → Prop}
  {tr : History T n} {s : Sys T n} {t u : Tid n} {i : Choice T n} {mv : Move T n} {w : Fin n}
  {f : Frame T n} {rest : List (Frame T n)} {j : JobContext T} {k : Nat}

/-- The closure of a `doSyncJob` call sets the flag with its last function. -/
theorem InSyncDone.last_finishes {d : Option (Callable T)} {o : List (Action T n)}
    {l : List (Frame T n)} (h : InSyncDone d k o l) (hl : l ≠ []) :
    ∃ f ∈ l.getLast?, f.Finishes k := by
  cases h with
  | start => exact ⟨.invoke (.syncDone d k), by simp, rfl⟩
  | inside | finish => exact ⟨.syncFinish k, by simp, rfl⟩
  | ended => exact absurd rfl hl

/-- A job a worker is running, but for the end of its `onDone`, goes on so or sets the flag of its
call. -/
theorem Moves.serving_live (hrun : (pool T n).Run ok tr s) (hm : Moves s t i mv)
    (hj : j ∈ (s.pc w).serving) (hlive : s.pc w = .inOnDone j → s.stack (.worker w) ≠ [])
    (hk : j.Wakes k) :
    mv.action = .finished k ∨ (s.apply t mv).Live w j := by
  obtain ⟨c, hc⟩ := id hk
  have hserving : j ∈ ((s.apply t mv).pc w).serving := by
    rcases hm.serving_step hj with hstay | hnone | ⟨hp, hs⟩
    · exact hstay
    · simp [hnone] at hc
    · exact absurd hs (hlive hp)
  by_cases hp : (s.apply t mv).pc w = .inOnDone j
  swap
  · exact .inr (.inr ⟨hserving, fun h => absurd h hp⟩)
  by_cases hs : (s.apply t mv).stack (.worker w) = []
  swap
  · exact .inr (.inr ⟨hserving, fun _ => hs⟩)
  refine .inl ?_
  by_cases ht : t = .worker w
  swap
  · rw [Sys.apply_pc, (hm.pc_frame w fun h => absurd h ht).1] at hp
    rw [Sys.apply_stack_other mv (Ne.symm ht)] at hs
    exact absurd hs (hlive hp)
  subst ht
  rw [Sys.apply_stack_self, List.append_eq_nil_iff] at hs
  obtain ⟨hframes, htail⟩ := hs
  rcases s.at_loop (.worker w) w with hw | ⟨-, hnil⟩
  · rw [Sys.apply_pc, (hm.pc_frame w hw).1] at hp
    -- the last function in progress is the one that sets the flag
    have hprog := progresses hrun w
    unfold Sys.Progresses at hprog
    rw [hp] at hprog
    obtain ⟨f, hf, hfin⟩ : ∃ f ∈ (s.stack (.worker w)).getLast?, f.Finishes k := by
      cases hprog with
      | away hp _ => cases hp
      | inClient _ hd hplain _ _ _ =>
        obtain rfl := Option.some.inj (hc.symm.trans hd)
        cases hplain
      | inSyncDone _ hd _ _ hlast =>
        obtain ⟨-, rfl⟩ := Callable.syncDone.inj (Option.some.inj (hc.symm.trans hd))
        exact hlast.last_finishes (hlive hp)
    obtain ⟨g, rest, hs⟩ := List.exists_cons_of_ne_nil (hlive hp)
    obtain rfl : rest = [] := by simpa [hs] using htail
    obtain rfl : g = f := by simpa [hs] using hf
    refine (hm.finishes_step hs hfin).resolve_right ?_
    rintro ⟨g', hg', -⟩
    simp [hframes] at hg'
  · cases hm
    case beginOnDone => cases hframes
    all_goals simp_all

theorem Moves.dequeued_acquires (hm : Moves s t i mv) (hj : j ∈ mv.action.dequeuedOn w) :
    (s.apply t mv).pc w = .acquire j := by
  cases hm
  case dequeue v j' left ht _ _ _ _ =>
    obtain ⟨rfl, rfl⟩ : w = v ∧ j = j' := by
      by_cases hv : w = v <;> simp_all
    simp [ht]
  all_goals exact absurd hj List.not_mem_nil

/-- A job that carries the closure of a call and has been dequeued is still to be finished, or the
flag of the call is set. -/
theorem dequeued_live (h : (pool T n).Run ok tr s) :
    ∀ w, ∀ j ∈ dequeuedOn w tr, ∀ k, j.Wakes k →
      (s.mem.syncCalls k).finished = true ∨ s.Live w j := by
  refine pool_invariant (J := fun tr s => ∀ w, ∀ j ∈ dequeuedOn w tr, ∀ k, j.Wakes k →
    (s.mem.syncCalls k).finished = true ∨ s.Live w j) ?_ ?_ h
  · exact fun w j hj => absurd hj List.not_mem_nil
  · intro tr s t i mv hrun ih _ hm w j hj k hk
    rw [dequeuedOn_snoc] at hj
    rcases List.mem_append.mp hj with hj | hj
    · have hbelow := pushed_below hrun w j (located_pushed (p := .dequeued w) hrun hj) k hk
      rcases ih w j hj k hk with hf | hq | ⟨hserving, hstack⟩
      · exact .inl (hm.finished_stays hbelow hf)
      · have hwaits : Located tr s j (.waiting w) := hq
        exact absurd hj (hwaits.not_dequeued (fun v => by simp) hrun w)
      · rcases hm.serving_live hrun hserving hstack hk with ha | hlive
        · refine .inl ?_
          rw [Sys.apply_mem, Mem.perform_finished, ha]
          simp
        · exact .inr hlive
    · have hp := hm.dequeued_acquires hj
      exact .inr (.inr ⟨by simp [hp, WorkerPc.serving], fun h => by simp [hp] at h⟩)

/-- Who is inside `doSyncJob` is about to push a job that will set its flag, or has done so. -/
theorem waits_pushed (h : (pool T n).Run ok tr s) :
    ∀ t k, s.WaitsIn t k → s.AboutToPush t k ∨ ∃ w, ∃ j ∈ pushedOn w tr, j.Wakes k := by
  refine pool_invariant (J := fun tr s => ∀ t k, s.WaitsIn t k →
    s.AboutToPush t k ∨ ∃ w, ∃ j ∈ pushedOn w tr, j.Wakes k) ?_ ?_ h
  · rintro t k ⟨f, hf, -⟩
    exact absurd hf List.not_mem_nil
  · intro tr s t i mv hrun ih _ hm u k hw
    have hlater (h : ∃ w, ∃ j ∈ pushedOn w tr, j.Wakes k) :
        ∃ w, ∃ j ∈ pushedOn w (tr ++ [(t, mv.action)]), j.Wakes k := by
      obtain ⟨w, j, hj, hk⟩ := h
      exact ⟨w, j, by rw [pushedOn_snoc]; exact List.mem_append_left _ hj, hk⟩
    rcases hm.waits_step hw with hold | ⟨rfl, ha⟩
    · rcases ih u k hold with ⟨w, name, call, c, strand, rest, hs⟩ | hpushed
      · by_cases hu : u = t
        · subst hu
          obtain rfl := hm.push_eq hs
          refine .inr ⟨w, ⟨call, some (.syncDone c k), name, s.mem.fresh⟩, ?_, c, rfl⟩
          rw [pushedOn_snoc]
          exact List.mem_append_right _ (by simp)
        · refine .inl ⟨w, name, call, c, strand, rest, ?_⟩
          rw [Sys.apply_stack_other _ hu, hs]
      · exact .inr (hlater hpushed)
    · cases hm <;> cases ha
      rename_i w name call onDone strand rest hs _
      refine .inl ⟨w, name, call, onDone, strand, .syncWait s.mem.fresh :: rest, ?_⟩
      rw [Sys.apply_stack_self, hs]
      rfl

/-- Where the job of a blocked call is. -/
theorem waker_at (h : (pool T n).Run ok tr s) (hw : s.WaitsIn t k)
    (hpush : ¬s.AboutToPush t k) (hf : (s.mem.syncCalls k).finished = false) :
    ∃ w j, j.Wakes k ∧ (j ∈ cancelledOn w tr ∨ s.Live w j) := by
  obtain ⟨w, j, hj, hk⟩ := (waits_pushed h t k hw).resolve_left hpush
  refine ⟨w, j, hk, ?_⟩
  obtain ⟨p, hp, hloc, -⟩ := located_unique h hj
  cases p with
  | waiting v =>
    obtain rfl : w = v := hp.symm
    exact .inr (.inl hloc)
  | dequeued v =>
    obtain rfl : w = v := hp.symm
    exact .inr ((dequeued_live h w j hloc k hk).resolve_left (by simp [hf]))
  | cancelled v =>
    obtain rfl : w = v := hp.symm
    exact .inl hloc

/-- What calls of services and jobs consist of: no registration, no cancel and no stop. -/
def Frame.serves : Frame T n → Bool
  | .registerFor _ _ _ | .register _ _ _ | .notifyLoop _ _ _ | .unregister _ | .unregisterExit _
  | .subscribe _ _ | .subscribeExit | .cancelLoop _ _ | .cancelLock _ _ | .cancelScan _ _ _
  | .stopLoop _ | .stopCheck _ | .stopPoll _ | .stopJoin _ => false
  | _ => true

theorem Frame.place_serves (req : Request T) (w : Fin n) : (Sys.place req w).serves = true := by
  unfold Sys.place
  split <;> rfl

theorem Moves.frames_serve (hm : Moves s t i mv) (hi : ∀ op, i ≠ .call op)
    (h : ∀ f ∈ s.stack t, f.serves = true) : ∀ f ∈ mv.frames, f.serves = true := by
  have htop {f : Frame T n} {rest} (hs : s.stack t = f :: rest) : f.serves = true :=
    h f (hs ▸ List.mem_cons_self)
  cases hm
  case call op _ _ _ | callBack op _ _ => exact absurd rfl (hi op)
  case scanPlace | bindStrand => exact List.forall_mem_singleton.mpr (Frame.place_serves _ _)
  case register hs _ _ | notifyOne hs _ _ | unregister hs _ _ | registerFor hs
      | subscribeRun hs _ _ | cancelNext hs _ | stopNext hs _ | cancelLock hs _ | cancelSkip hs _
      | stopCheck hs _ | stopWait hs _ _ | deactivate hs _ _ => cases htop hs
  all_goals exact List.all_eq_true.mp rfl

/-- All functions in progress are those of service calls and jobs. -/
def Sys.Serving (s : Sys T n) : Prop := ∀ t, ∀ f ∈ s.stack t, f.serves = true

theorem Sys.Serving.step (h : s.Serving) (hm : Moves s t i mv) (hi : ∀ op, i ≠ .call op) :
    (s.apply t mv).Serving := by
  intro u f hf
  rcases Sys.mem_apply_stack hf with ⟨-, hnew⟩ | hold
  · exact hm.frames_serve hi (h t) f hnew
  · exact h u f hold

theorem Sys.Serving.canLock (h : s.Serving) (hrun : (pool T n).Run ok tr s) (t : Tid n) :
    s.mem.mappingLock.canLock t = true := by
  refine (RecursiveMutex.canLock_iff _ _).mpr fun u _ => ?_
  rw [mapping_depth hrun u, Sys.holdCount, List.countP_eq_zero]
  intro f hf
  have hserves := h u f hf
  cases f <;> first | exact Bool.false_ne_true | cases hserves

theorem Sys.Serving.unlocked (h : s.Serving) (hrun : (pool T n).Run ok tr s) (w : Fin n) :
    (s.worker w).queueLock = none := by
  by_contra hq
  obtain ⟨u, hu⟩ := Option.ne_none_iff_exists'.mp hq
  obtain ⟨id, left, rest, hs⟩ := topScan_inv ((queue_owner hrun w u).mp hu)
  cases h u _ (hs ▸ List.mem_cons_self)

theorem Sys.Serving.unblocked (h : s.Serving) (hrun : (pool T n).Run ok tr s) :
    ¬s.BlockedBy t u := by
  rintro ⟨l, hw, ho, hne⟩
  cases l with
  | mapping =>
    have hzero := (RecursiveMutex.canLock_iff _ _).mp (h.canLock hrun t) u (hne rfl)
    have hpos := (RecursiveMutex.owner_eq_some _ _).mp ho
    omega
  | queue w => cases (h.unlocked hrun w).symm.trans ho
  | executing w =>
    have hruns : s.runsJob w = true := Option.isSome_iff_exists.mpr ⟨u, ho⟩
    obtain ⟨id, it, left, rest, hs, -⟩ := Sys.wants_executing hrun hruns hw
    cases h t _ (hs ▸ List.mem_cons_self)

/-- Where nobody can do more than wait, a thread inside a service call waits for its job. -/
theorem blocked_of_settled (hrun : (pool T n).Run ok tr s) (hserve : s.Serving) (hn : 0 < n)
    (hsettled : ∀ t, ¬s.Busy t) (hs : s.stack t = f :: rest) :
    ∃ k, f.waits = some k ∧ (s.mem.syncCalls k).finished = false := by
  rcases done_or_heldUp hrun hn hsettled t with ⟨hnil, -⟩ | hheld
  · cases hs.symm.trans hnil
  · cases hheld with
    | awaits hs' hf hunset =>
      obtain ⟨rfl, -⟩ := List.cons.inj (hs.symm.trans hs')
      exact ⟨_, hf, hunset⟩
    | polls hs' _ | joins hs' _ | disturbed hs' _ => cases hserve t _ (hs' ▸ List.mem_cons_self)
    | locked hb => exact absurd hb (hserve.unblocked hrun)
    | aborts ht ha =>
      subst ht
      cases hs.symm.trans ha.1

/-- Where nobody can do more than wait, a worker outside all jobs is out of work. -/
theorem outOfWork_of_settled (hrun : (pool T n).Run ok tr s) (hserve : s.Serving) (hn : 0 < n)
    (halive : ¬s.Aborts w) (hsettled : ∀ t, ¬s.Busy t) (hs : s.stack (.worker w) = []) :
    s.OutOfWork w := by
  rcases done_or_heldUp hrun hn hsettled (.worker w) with ⟨-, hout⟩ | hheld
  · exact hout w rfl
  · cases hheld with
    | awaits hs' _ _ | polls hs' _ | joins hs' _ | disturbed hs' _ => cases hs.symm.trans hs'
    | locked hb => exact absurd hb (hserve.unblocked hrun)
    | aborts ht ha =>
      obtain rfl := Tid.worker.inj ht
      exact absurd ha halive

/-- All jobs of a worker that sleeps and has none left are done with. -/
theorem settled_of_asleep (h : (pool T n).Run ok tr s) (hp : s.pc w = .asleep)
    (hc : (s.worker w).calls = []) : ∀ j ∈ pushedOn w tr, Settled w j tr := by
  intro j hj
  obtain ⟨js, hjs⟩ := executes h w
  have htaken : dequeuedOn w tr = js := by
    rw [hjs.1, hp]
    exact List.append_nil js
  rcases taken_or_removed h hj (hc ▸ List.not_mem_nil) with hdone | hremoved
  · exact .inr (hjs.ran h (htaken ▸ hdone))
  · exact .inl hremoved

/-- The call the thread waits in. -/
def Sys.BlockedIn (s : Sys T n) (t : Tid n) (k : Nat) : Prop :=
  ∃ f ∈ (s.stack t).head?, f.waits = some k

/-- Where nobody can do more than wait, the calls that have not returned hang. -/
theorem hung_of_settled (hrun : (pool T n).Run ok tr s) (hserve : s.Serving) (hn : 0 < n)
    (halive : ∀ w, ¬s.Aborts w) (hsettled : ∀ t, ¬s.Busy t) :
    Hung (fun k => ∃ t, s.BlockedIn t k) tr s := by
  rintro k ⟨t, f, hf, hk⟩
  obtain ⟨rest, hs⟩ : ∃ rest, s.stack t = f :: rest := by
    cases hs : s.stack t with
    | nil => simp [hs] at hf
    | cons g rest => exact ⟨rest, by simpa [hs] using hf⟩
  have hw : s.WaitsIn t k := ⟨f, hs ▸ List.mem_cons_self, hk⟩
  obtain ⟨k', hk', hunset⟩ := blocked_of_settled hrun hserve hn hsettled hs
  obtain rfl := Option.some.inj (hk.symm.trans hk')
  have hpush : ¬s.AboutToPush t k := by
    rintro ⟨w, name, call, c, strand, rest', hs'⟩
    obtain ⟨rfl, -⟩ := List.cons.inj (hs.symm.trans hs')
    cases hk
  obtain ⟨w, j, hj, hloc⟩ := waker_at hrun hw hpush hunset
  refine ⟨⟨t, hw⟩, w, j, hj, hloc.imp id fun hlive => ⟨hlive, ?_⟩⟩
  cases hstack : s.stack (.worker w) with
  | nil =>
    rcases outOfWork_of_settled hrun hserve hn (halive w) hsettled hstack with hp | ⟨hp, hc⟩
    · exact .inl hp
    · rcases hlive with hq | ⟨hserving, -⟩
      · rw [hc] at hq
        exact absurd hq List.not_mem_nil
      · rw [hp] at hserving
        exact absurd hserving List.not_mem_nil
  | cons g rest' =>
    obtain ⟨l, hl, -⟩ := blocked_of_settled hrun hserve hn hsettled hstack
    refine .inr ⟨l, ⟨.worker w, g, by simp [hstack], hl⟩, g, ?_, hl⟩
    rw [hstack]
    exact List.mem_cons_self

/-- Whatever can return, returns. In a fair execution in which client code makes no further calls,
each call of a service or of a worker has returned from some moment on, but for those that hang,
which is to say that they never will; and each worker that is not inside such a call has left, or
every job ever handed to it has been executed or cancelled. -/
theorem returns_or_hangs (x : (pool T n).Execution) (h : (pool T n).Run AnyStep tr (x.state 0))
    (hn : 0 < n) (hserve : (x.state 0).Serving) (hquiet : Quiet x)
    (halive : ∀ k w, ¬(x.state k).Aborts w) (hfair : x.Fair Prod.fst Sys.Ready) :
    ∃ N, ∀ k, N ≤ k →
      Hung (fun l => ∃ t, (x.state k).BlockedIn t l) (tr ++ x.trace k) (x.state k) ∧
      (∀ t, (x.state k).stack t ≠ [] → ∃ l, (x.state k).BlockedIn t l) ∧
      ∀ w, (x.state k).stack (.worker w) = [] → (x.state k).pc w = .exited ∨
        (x.state k).pc w = .asleep ∧ ((x.state k).worker w).calls = [] ∧
          ∀ j ∈ pushedOn w (tr ++ x.trace k), Settled w j (tr ++ x.trace k) := by
  obtain ⟨N, hN⟩ := hquiet.settles h hfair
  have hserves (k : ℕ) : (x.state k).Serving := by
    refine x.invariant (J := Sys.Serving) hserve ?_ k (Nat.zero_le k)
    intro k _ i e he ih
    obtain ⟨mv, hm, hi, hs⟩ := hquiet.moves he
    rw [hs]
    exact ih.step hm hi
  refine ⟨N, fun k hk => ⟨?_, fun t ht => ?_, fun w hw => ?_⟩⟩
  · exact hung_of_settled (x.run h k) (hserves k) hn (halive k) (hN k hk)
  · obtain ⟨f, rest, hs⟩ := List.exists_cons_of_ne_nil ht
    obtain ⟨l, hl, -⟩ := blocked_of_settled (x.run h k) (hserves k) hn (hN k hk) hs
    exact ⟨l, f, by simp [hs], hl⟩
  · refine (outOfWork_of_settled (x.run h k) (hserves k) hn (halive k w) (hN k hk) hw).imp id ?_
    exact fun ⟨hp, hc⟩ => ⟨hp, hc, settled_of_asleep (x.run h k) hp hc⟩

theorem returns_or_hangs_forgottenExecution :
    ∃ k, Hung (fun l => ∃ t, (forgottenExecution.state k).BlockedIn t l)
        (forgottenRun.1 ++ forgottenExecution.trace k) (forgottenExecution.state k) ∧
      ∀ j ∈ pushedOn 0 (forgottenRun.1 ++ forgottenExecution.trace k),
        Settled 0 j (forgottenRun.1 ++ forgottenExecution.trace k) := by
  have hserve : (forgottenExecution.state 0).Serving := by
    intro t f hf
    by_cases ht : t ∈ forgottenRun.1.map Prod.fst
    · rcases forgotten_threads t ht with rfl | rfl | rfl
      · obtain rfl := List.mem_singleton.mp hf
        rfl
      · exact absurd hf List.not_mem_nil
      · obtain rfl := List.mem_singleton.mp hf
        rfl
    · have hnone : ∀ e ∈ forgottenRun.1, e.1 ≠ t := by
        rintro e he rfl
        exact ht (List.mem_map_of_mem he)
      rw [stack_of_no_step forgotten_run hnone] at hf
      exact absurd hf List.not_mem_nil
  have halive (k : ℕ) (w : Fin 1) : ¬(forgottenExecution.state k).Aborts w := by
    obtain rfl : w = 0 := Subsingleton.elim w 0
    rintro ⟨-, ⟨j, hp, ha⟩ | ⟨j, e, hp, he⟩⟩
    all_goals
      rcases Nat.lt_or_ge k 15 with hk | hk
      swap
      · rw [forgotten_end k hk] at hp
        cases hp
    · interval_cases k <;> cases hp
      cases ha
    · interval_cases k <;> cases hp <;> cases he
  obtain ⟨N, hN⟩ :=
    returns_or_hangs forgottenExecution forgotten_run (by decide) hserve forgotten_quiet halive
      forgotten_fair
  have hend := forgotten_end (max N 15) (Nat.le_max_right N 15)
  obtain ⟨hhung, -, hout⟩ := hN (max N 15) (Nat.le_max_left N 15)
  refine ⟨max N 15, hhung, ?_⟩
  rcases hout 0 (by rw [hend]; rfl) with hp | ⟨-, -, hsettled⟩
  · rw [hend] at hp
    cases hp
  · exact hsettled

end ServiceLib
