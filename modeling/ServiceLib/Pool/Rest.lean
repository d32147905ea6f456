import ServiceLib.Framework.Execution
import ServiceLib.Model.History
import Mathlib.Algebra.Order.BigOperators.Group.Finset

namespace ServiceLib

open Machine

variable {T : ArgTypes} {n : Nat} {tr : History T n} {s : Sys T n} {t u : Tid n} {i : Choice T n}
  {mv : Move T n} {ts : Finset (Tid n)} {w : Fin n}

/-- An upper bound for the steps from inside a function object to its end. -/
def Callable.cost : Callable T → ℕ
  | .client _ => 1
  | .bound _ _ _ => 1
  | .syncDone none _ => 1
  | .syncDone (some c) _ => c.cost + 2

/-- An upper bound for the steps of calling a function object that may be empty. -/
def callCost : Option (Callable T) → ℕ
  | none => 0
  | some c => c.cost + 1

def Request.cost (req : Request T) : ℕ := 20 + callCost req.action + callCost req.onDone

/-- The steps a waiting job stands for, those of its worker up to the next look at the queue
included. -/
def JobContext.cost (j : JobContext T) : ℕ := 12 + callCost j.action + callCost j.onDone

def WorkerPc.cost (active : Bool) : WorkerPc T → ℕ
  | .acquire j => j.cost
  | .action j => 11 + callCost j.action + callCost j.onDone
  | .inAction j => 10 + callCost j.onDone
  | .onDone j => 9 + callCost j.onDone
  | .inOnDone _ => 8
  | .finish _ => 7
  | .relock => if active then 6 else 2
  | .test => if active then 5 else 1
  | .lock => if active then 4 else 2
  | .asleep => if active then 3 else 2
  | .exited => 0

/-- The steps a function in progress stands for, but those of the loops it opens. -/
def Frame.cost : Frame T n → ℕ
  | .user | .syncFinish _ | .syncReturn _ | .register _ _ _ | .unregisterExit _ | .isRegistered _
  | .subscribeExit | .increment _ | .syncWait _ | .syncAsleep _ | .cancelLock _ _
  | .stopJoin _ => 1
  | .registerFor _ _ _ | .notify _ | .stopPoll _ => 2
  | .invoke c => c.cost + 1
  | .checkAndInvoke _ prop _ => 2 * n + 26 + callCost (T := T) (prop.onCallDone.map .client)
  | .syncOnDone onDone => 2 + callCost (T := T) (onDone.map .client)
  | .notifyLoop _ j len => 4 * (len - j) + 1
  | .unregister _ => 2 * n + 3
  | .subscribe _ _ => 4
  | .schedule req => 2 * n + 1 + req.cost
  | .scan req _ it none => 2 * (n - it) + 2 + req.cost
  | .scan req _ it (some _) => 2 * (n - it) + 1 + req.cost
  | .bindStrand req _ => 1 + req.cost
  | .cancelLoop _ k => 2 * (n - k) + 1
  | .stopLoop k => 5 * (n - k) + 1
  | .push _ _ call onDone _ => 15 + callCost call + callCost onDone
  | .doSync _ _ call onDone _ => 19 + callCost call + callCost onDone
  | .cancelScan _ _ left => left.length + 1
  | .stopCheck _ => 3

/-- The loops a function is still to open, over watchers or over waiting jobs, of which there may be
any number by then. -/
def Frame.loops : Frame T n → ℕ
  | .registerFor _ _ _ | .register _ _ _ | .cancelLock _ _ => 1
  | .unregister _ => n
  | .cancelLoop _ k => n - k
  | _ => 0

/-- What stands before the worker, its queue included. -/
def Sys.workLeft (s : Sys T n) (w : Fin n) : ℕ :=
  (s.pc w).cost (s.worker w).active + ((s.worker w).calls.map JobContext.cost).sum

theorem Sys.workLeft_apply (s : Sys T n) (t : Tid n) (mv : Move T n) (w : Fin n) :
    (s.apply t mv).workLeft w =
      (s.setPc t mv.pc w).cost (mv.action.onActive w (s.worker w).active) +
        ((mv.action.onCalls w (s.worker w).calls).map JobContext.cost).sum := by
  rw [Sys.workLeft, Sys.apply_pc, Sys.apply_active, Sys.apply_calls]

/-- The thread does nothing but wait: for its doSyncJob, for a queue to become empty, for a job. -/
def Sys.idles (s : Sys T n) (t : Tid n) : Bool :=
  match s.stack t, t with
  | .syncWait k :: _, _ => !(s.mem.syncCalls k).finished
  | .syncAsleep k :: _, _ => !(s.mem.syncCalls k).finished
  | .stopPoll w :: _, _ => !(s.worker w).calls.isEmpty
  | [], .worker w =>
    match s.pc w with
    | .asleep => (s.worker w).calls.isEmpty && (s.worker w).active
    | _ => false
  | _, _ => false

/-- The thread sleeps although the flag it waits for is set. -/
def Sys.overslept (s : Sys T n) (t : Tid n) : ℕ :=
  match s.stack t with
  | .syncAsleep k :: _ => (s.mem.syncCalls k).finished.toNat
  | _ => 0

theorem Sys.overslept_other (hu : u ≠ t) (hf : ∀ k b, mv.action.onFinished k b = b) :
    (s.apply t mv).overslept u = s.overslept u := by
  unfold overslept
  rw [apply_stack_other mv hu]
  split
  · rw [apply_mem, Mem.perform_finished, hf]
  · rfl

def loops (l : List (Frame T n)) : ℕ := (l.map Frame.loops).sum

def costs (l : List (Frame T n)) : ℕ := (l.map Frame.cost).sum

/-- What a step does to the work that is left: nothing, or it wakes a thread that has overslept, or
it opens a loop, or it takes a function further, or a worker. -/
inductive Works (s : Sys T n) (t : Tid n) (mv : Move T n) : Prop
  | idle (hs : s.idles t = true) (hl : loops mv.frames = loops ((s.stack t).take 1))
      (hc : costs mv.frames = costs ((s.stack t).take 1))
      (hw : ∀ w, (s.apply t mv).workLeft w = s.workLeft w)
      (hf : ∀ k b, mv.action.onFinished k b = b)
      (ho : (s.apply t mv).overslept t = s.overslept t)
  | wakes (hl : loops mv.frames = loops ((s.stack t).take 1))
      (hc : costs mv.frames = costs ((s.stack t).take 1))
      (hw : ∀ w, (s.apply t mv).workLeft w = s.workLeft w)
      (hf : ∀ k b, mv.action.onFinished k b = b)
      (ho : (s.apply t mv).overslept t < s.overslept t)
  | opens (hl : loops mv.frames < loops ((s.stack t).take 1))
  | frame (hl : loops mv.frames = loops ((s.stack t).take 1))
      (hc : costs mv.frames < costs ((s.stack t).take 1))
      (hw : ∀ w, (s.apply t mv).workLeft w ≤ s.workLeft w)
  | worker (w : Fin n) (hl : loops mv.frames = loops ((s.stack t).take 1))
      (hc : costs mv.frames + (s.apply t mv).workLeft w <
        costs ((s.stack t).take 1) + s.workLeft w)
      (hw : ∀ v ≠ w, (s.apply t mv).workLeft v = s.workLeft v)

theorem WorkerPc.cost_inactive (pc : WorkerPc T) : pc.cost false ≤ pc.cost true := by
  cases pc <;> simp [WorkerPc.cost]

theorem Works.of_frame (hl : loops mv.frames ≤ loops ((s.stack t).take 1))
    (hc : costs mv.frames < costs ((s.stack t).take 1))
    (hw : ∀ w, (s.apply t mv).workLeft w ≤ s.workLeft w) : Works s t mv := by
  rcases hl.lt_or_eq with hlt | heq
  · exact .opens hlt
  · exact .frame heq hc hw

theorem Sys.workLeft_same (s : Sys T n) {w : Fin n} (hpc : s.setPc t mv.pc w = s.pc w)
    (hcalls : ∀ cs, mv.action.onCalls w cs = cs) (hact : ∀ b, mv.action.onActive w b = b) :
    (s.apply t mv).workLeft w = s.workLeft w := by
  rw [workLeft_apply, hpc, hcalls, hact, workLeft]

theorem Frame.place_cost (req : Request T) (w : Fin n) :
    (Sys.place req w).cost ≤ req.cost ∧ (Sys.place req w).loops = 0 := by
  unfold Sys.place
  split <;> simp [Frame.cost, Frame.loops, Request.cost]

theorem Moves.works (hm : Moves s t i mv) (hi : ∀ op, i ≠ .call op) : Works s t mv := by
  have hsame {a : Action T n} {frames : List (Frame T n)} {o : Option Outcome} {w : Fin n}
      (hcalls : ∀ cs, a.onCalls w cs = cs) (hact : ∀ b, a.onActive w b = b) :
      (s.apply t ⟨a, frames, o, none⟩).workLeft w = s.workLeft w :=
    s.workLeft_same (by rw [Sys.setPc_none]) hcalls hact
  cases hm
  case call op _ _ _ | callBack op _ _ => exact absurd rfl (hi op)
  case register hs _ _ | registerEmpty hs | registerTwice hs _ _ | cancelLock hs _ =>
    exact .opens (by simp [loops, hs, Frame.loops])
  case scanPlace req res it rest hs _ _ =>
    obtain ⟨hcost, hloops⟩ := Frame.place_cost req res
    refine .of_frame ?_ ?_ fun w => (hsame (fun _ => rfl) (fun _ => rfl)).le
    · simp [loops, hs, hloops]
    · have hscan : (Frame.scan req res it none).cost = 2 * (n - it) + 2 + req.cost := rfl
      simp only [costs, hs, hscan, List.take_succ_cons, List.take_zero, List.map_cons,
        List.map_nil, List.sum_cons, List.sum_nil]
      omega
  case bindStrand req idle rest hs =>
    obtain ⟨hcost, hloops⟩ := Frame.place_cost req ((s.mem.strands req.strand).getD idle)
    refine .of_frame ?_ ?_ fun w => (hsame (fun _ => rfl) (fun _ => rfl)).le
    · simp [loops, hs, hloops]
    · have hbind : (Frame.bindStrand req idle).cost = 1 + req.cost := rfl
      simp only [costs, hs, hbind, List.take_succ_cons, List.take_zero, List.map_cons,
        List.map_nil, List.sum_cons, List.sum_nil]
      omega
  case notifyOne id k len cb rest hs _ hk =>
    have hlt := (List.getElem?_eq_some_iff.mp hk).1
    refine .of_frame ?_ ?_ fun w => (hsame (fun _ => rfl) (fun _ => rfl)).le
    · simp [loops, hs, Frame.loops]
    · simp [costs, hs, Frame.cost, Callable.cost]
      omega
  case doSync w name call onDone strand rest hs =>
    refine .of_frame ?_ ?_ fun w => (hsame (fun _ => rfl) (fun _ => rfl)).le
    · simp [loops, hs, Frame.loops]
    · cases onDone <;> simp [costs, hs, Frame.cost, callCost, Callable.cost] <;> omega
  case push w name call onDone strand rest hs _ =>
    refine .worker w (by simp [loops, hs, Frame.loops]) ?_ fun v hv => ?_
    · rw [Sys.workLeft_apply]
      simp [costs, hs, Frame.cost, JobContext.cost, Sys.workLeft]
      omega
    · exact s.workLeft_same (by simp) (by simp [hv]) (by simp)
  case syncSleep k rest hs hf =>
    refine .idle (by simp [Sys.idles, hs, hf]) (by simp [loops, hs, Frame.loops])
      (by simp [costs, hs, Frame.cost]) (fun w => hsame (fun _ => rfl) (fun _ => rfl))
      (fun _ _ => rfl) ?_
    simp [Sys.overslept, hs, Mem.perform_finished, hf]
  case syncWake k rest hs =>
    cases hf : (s.mem.syncCalls k).finished with
    | true =>
      refine .wakes (by simp [loops, hs, Frame.loops]) (by simp [costs, hs, Frame.cost])
        (fun w => hsame (fun _ => rfl) (fun _ => rfl)) (fun _ _ => rfl) ?_
      simp [Sys.overslept, hs, hf]
    | false =>
      refine .idle (by simp [Sys.idles, hs, hf]) (by simp [loops, hs, Frame.loops])
        (by simp [costs, hs, Frame.cost]) (fun w => hsame (fun _ => rfl) (fun _ => rfl))
        (fun _ _ => rfl) ?_
      simp [Sys.overslept, hs, hf]
  case stopWait w rest hs _ hc =>
    refine .idle (by simp [Sys.idles, hs, hc]) (by simp [loops, hs, Frame.loops])
      (by simp [costs, hs, Frame.cost]) (fun w => hsame (fun _ => rfl) (fun _ => rfl))
      (fun _ _ => rfl) ?_
    simp [Sys.overslept, hs]
  case deactivate w rest hs _ _ =>
    refine .of_frame (by simp [loops, hs, Frame.loops]) (by simp [costs, hs, Frame.cost])
      fun v => ?_
    rw [Sys.workLeft_apply, Sys.workLeft]
    by_cases hv : v = w
    · cases ha : (s.worker w).active <;> simp [hv, ha, WorkerPc.cost_inactive]
    · simp [hv]
  case cancelErase id w rest hs =>
    refine .of_frame (by simp [loops, hs, Frame.loops]) (by simp [costs, hs, Frame.cost])
      fun v => ?_
    rw [Sys.workLeft_apply, Sys.workLeft]
    by_cases hv : v = w <;> simp [hv, AsyncWorker.removeIf, AsyncWorker.cancelPredicate]
  case enterLoop w ht hs hp ha | leave w ht hs hp ha | «begin» w j ht hs hp ha
      | beginAction w j c ht hs hp ha | endAction w j ht hs hp b ha | beginOnDone w j c ht hs hp ha
      | noOnDone w j ht hs hp ha | endOnDone w j ht hs hp =>
    subst ht
    clear hsame
    refine .worker w ?_ ?_ fun v hv => ?_
    · simp [loops, hs, Frame.loops]
    · rw [Sys.workLeft_apply, Sys.workLeft]
      simp_all [costs, Frame.cost, WorkerPc.cost, JobContext.cost, callCost]
      try omega
    · exact s.workLeft_same (by simp [hv]) (by simp) (by simp)
  case finish w j ht hs hp =>
    subst ht
    refine .worker w (by simp [loops, hs]) ?_ fun v hv => ?_
    · rw [Sys.workLeft_apply, Sys.workLeft]
      cases (s.worker w).active <;> simp [costs, hs, hp, WorkerPc.cost]
    · exact s.workLeft_same (by simp [hv]) (by simp) (by simp)
  case dequeue w j left ht hs hp _ hc =>
    subst ht
    refine .worker w (by simp [loops, hs]) ?_ fun v hv => ?_
    · have hpos : 0 < (s.pc w).cost (s.worker w).active := by
        rcases hp with hp | hp | hp <;> cases (s.worker w).active <;> simp [hp, WorkerPc.cost]
      rw [Sys.workLeft_apply, Sys.workLeft]
      simpa [costs, hs, hc, WorkerPc.cost] using hpos
    · exact s.workLeft_same (by simp [hv]) (by simp [hv]) (by simp)
  case sleep w ht hs hp _ hc ha =>
    subst ht
    have hother (v : Fin n) (hv : v ≠ w) : (s.apply (.worker w)
        ⟨.slept w, [], none, some .asleep⟩).workLeft v = s.workLeft v :=
      s.workLeft_same (by simp [hv]) (by simp) (by simp)
    rcases hp with hp | hp
    · refine .worker w (by simp [loops, hs]) ?_ hother
      rw [Sys.workLeft_apply, Sys.workLeft]
      simp [costs, hs, hp, ha, WorkerPc.cost]
    · refine .idle (by simp [Sys.idles, hs, hp, hc, ha]) (by simp [loops, hs])
        (by simp [costs, hs]) (fun v => ?_) (fun _ _ => rfl) (by simp [Sys.overslept, hs])
      by_cases hv : v = w
      · rw [Sys.workLeft_apply, Sys.workLeft]
        simp [hv, hp]
      · exact hother v hv
  case pass w ht hs hp _ hc =>
    subst ht
    refine .worker w (by simp [loops, hs]) ?_ fun v hv => ?_
    · rw [Sys.workLeft_apply, Sys.workLeft]
      rcases hp with hp | ⟨hp | hp, ha⟩
      · cases (s.worker w).active <;> simp [costs, hs, hp, WorkerPc.cost]
      · simp [costs, hs, hp, ha, WorkerPc.cost]
      · simp [costs, hs, hp, ha, WorkerPc.cost]
    · exact s.workLeft_same (by simp [hv]) (by simp) (by simp)
  all_goals
    refine .of_frame ?_ ?_ fun w => (hsame (fun _ => rfl) (fun _ => rfl)).le
  all_goals
    rw [‹s.stack t = _›]
    simp only [loops, costs, List.take_succ_cons, List.take_zero, List.map_cons, List.map_nil,
      List.sum_cons, List.sum_nil, Frame.loops, Frame.cost, Callable.cost, callCost, Request.cost,
      Option.map_some, List.length_cons]
    try omega

/-- What a step does to a sum over all functions in progress. -/
theorem sum_stack (s : Sys T n) (mv : Move T n) (f : Frame T n → ℕ) (ht : t ∈ ts) :
    ∑ u ∈ ts, (((s.apply t mv).stack u).map f).sum + (((s.stack t).take 1).map f).sum =
      ∑ u ∈ ts, ((s.stack u).map f).sum + (mv.frames.map f).sum := by
  have hother : ∑ u ∈ ts.erase t, (((s.apply t mv).stack u).map f).sum =
      ∑ u ∈ ts.erase t, ((s.stack u).map f).sum :=
    Finset.sum_congr rfl fun u hu => by rw [Sys.apply_stack_other _ (Finset.ne_of_mem_erase hu)]
  have htop : ((s.stack t).map f).sum =
      (((s.stack t).take 1).map f).sum + ((s.stack t).tail.map f).sum := by
    cases s.stack t <;> simp
  rw [← Finset.add_sum_erase _ _ ht, ← Finset.add_sum_erase _ _ ht, hother, Sys.apply_stack_self,
    List.map_append, List.sum_append, htop]
  omega

/-- The loops still to be opened by these threads, then the steps that are left, then the threads
that have overslept. -/
def Sys.rank (ts : Finset (Tid n)) (s : Sys T n) : ℕ ×ₗ ℕ ×ₗ ℕ :=
  toLex (∑ t ∈ ts, loops (s.stack t), toLex
    (∑ t ∈ ts, costs (s.stack t) + ∑ w, s.workLeft w, ∑ t ∈ ts, s.overslept t))

/-- Every step lowers the rank or leaves it and is idle. -/
theorem Works.rank (h : Works s t mv) (ht : t ∈ ts) :
    (s.apply t mv).rank ts < s.rank ts ∨
      (s.apply t mv).rank ts = s.rank ts ∧ s.idles t = true := by
  have hloops := sum_stack s mv Frame.loops ht
  have hcosts := sum_stack s mv Frame.cost ht
  have hslept (hf : ∀ k b, mv.action.onFinished k b = b) :
      ∑ u ∈ ts.erase t, (s.apply t mv).overslept u = ∑ u ∈ ts.erase t, s.overslept u :=
    Finset.sum_congr rfl fun u hu => Sys.overslept_other (Finset.ne_of_mem_erase hu) hf
  simp only [← loops.eq_1, ← costs.eq_1] at hloops hcosts
  simp only [Sys.rank, Prod.Lex.toLex_lt_toLex, EmbeddingLike.apply_eq_iff_eq, Prod.mk.injEq,
    ← Finset.add_sum_erase _ (Sys.overslept _) ht]
  cases h with
  | idle hs hl hc hw hf ho =>
    have hwork : ∑ w, (s.apply t mv).workLeft w = ∑ w, s.workLeft w :=
      Finset.sum_congr rfl fun w _ => hw w
    exact .inr ⟨⟨by omega, by omega, by rw [hslept hf, ho]⟩, hs⟩
  | wakes hl hc hw hf ho =>
    have hwork : ∑ w, (s.apply t mv).workLeft w = ∑ w, s.workLeft w :=
      Finset.sum_congr rfl fun w _ => hw w
    have hrest := hslept hf
    exact .inl (.inr ⟨by omega, .inr ⟨by omega, by omega⟩⟩)
  | opens hl => exact .inl (.inl (by omega))
  | frame hl hc hw =>
    have hwork : ∑ w, (s.apply t mv).workLeft w ≤ ∑ w, s.workLeft w :=
      Finset.sum_le_sum fun w _ => hw w
    exact .inl (.inr ⟨by omega, .inl (by omega)⟩)
  | worker w hl hc hw =>
    have hrest : ∑ v ∈ Finset.univ.erase w, (s.apply t mv).workLeft v =
        ∑ v ∈ Finset.univ.erase w, s.workLeft v :=
      Finset.sum_congr rfl fun v hv => hw v (Finset.ne_of_mem_erase hv)
    rw [← Finset.add_sum_erase _ _ (Finset.mem_univ w),
      ← Finset.add_sum_erase _ s.workLeft (Finset.mem_univ w), hrest]
    exact .inl (.inr ⟨by omega, .inl (by omega)⟩)

/-- A thread outside all functions takes no step without a call, but for the run loops. -/
theorem Moves.thread_mem (hm : Moves s t i mv) (hi : ∀ op, i ≠ .call op)
    (hout : t ∉ ts → s.stack t = []) (hworkers : ∀ w, .worker w ∈ ts) : t ∈ ts := by
  by_contra ht
  have hnext := hm.next_eq
  cases t with
  | worker w => exact ht (hworkers w)
  | client k =>
    cases i with
    | call op => exact hi op rfl
    | ret b | run => simp [Sys.next, hout ht] at hnext

/-- Client code makes no calls. -/
def Quiet (x : (pool T n).Execution) : Prop :=
  ∀ k i e, x.event k = some (i, e) → ∀ op, i.2 ≠ .call op

/-- The threads that are inside a function at the start, and the workers. -/
def involved (tr : History T n) : Finset (Tid n) :=
  (tr.map Prod.fst).toFinset ∪ Finset.univ.image Tid.worker

/-- The step of an execution in which nobody is called any more. -/
theorem Quiet.moves {x : (pool T n).Execution} (hquiet : Quiet x) {k : ℕ} {j : Tid n × Choice T n}
    {e : Tid n × Action T n} (he : x.event k = some (j, e)) :
    ∃ mv, Moves (x.state k) j.1 j.2 mv ∧ (∀ op, j.2 ≠ .call op) ∧
      x.state (k + 1) = (x.state k).apply j.1 mv := by
  obtain ⟨mv, hm, -, hs⟩ := pool_step (x.step k j e he)
  exact ⟨mv, hm, hquiet k j e he, hs⟩

theorem Quiet.outside {x : (pool T n).Execution} (hquiet : Quiet x)
    (h : (pool T n).Run AnyStep tr (x.state 0)) (k : ℕ) :
    ∀ t, t ∉ involved tr → (x.state k).stack t = [] := by
  refine x.invariant (J := fun s => ∀ t, t ∉ involved tr → s.stack t = []) (N := 0) ?_ ?_ k
    (Nat.zero_le k)
  · intro t ht
    refine stack_of_no_step h fun e he heq => ht ?_
    simp only [involved, Finset.mem_union, List.mem_toFinset]
    exact .inl (heq ▸ List.mem_map_of_mem he)
  · intro k _ j e he ih t ht
    obtain ⟨mv, hm, hi, hs⟩ := hquiet.moves he
    have hmem := hm.thread_mem hi (ih _) fun w => by simp [involved]
    have hne : t ≠ j.1 := fun heq => ht (heq ▸ hmem)
    rw [hs, Sys.apply_stack_other mv hne]
    exact ih t ht

theorem Quiet.rank {x : (pool T n).Execution} (hquiet : Quiet x)
    (h : (pool T n).Run AnyStep tr (x.state 0)) (k : ℕ) (j : Tid n × Choice T n)
    (e : Tid n × Action T n) (he : x.event k = some (j, e)) :
    (x.state (k + 1)).rank (involved tr) < (x.state k).rank (involved tr) ∨
      (x.state (k + 1)).rank (involved tr) = (x.state k).rank (involved tr) ∧
        (x.state k).idles j.1 = true := by
  obtain ⟨mv, hm, hi, hs⟩ := hquiet.moves he
  rw [hs]
  refine (hm.works hi).rank (hm.thread_mem hi (hquiet.outside h k _) fun w => ?_)
  simp [involved]

/-- There is no livelock. Once client code makes no further calls, all steps from some point on are
those of threads that wait: of a doSyncJob for its job, of a stop for a queue to become empty, of a
worker for a job. -/
theorem pool_comes_to_rest (x : (pool T n).Execution) (h : (pool T n).Run AnyStep tr (x.state 0))
    (hquiet : Quiet x) :
    ∃ N, ∀ k, N ≤ k → ∀ i e, x.event k = some (i, e) → (x.state k).idles i.1 = true :=
  x.comes_to_rest (fun s i => s.idles i.1 = true) (Sys.rank (involved tr)) (hquiet.rank h)

theorem Sys.sleeps_again (hs : s.stack (.worker w) = []) (hp : s.pc w = .asleep)
    (hc : (s.worker w).queueCond = .asleep) :
    s.apply (.worker w) ⟨.slept w, [], none, some .asleep⟩ = s := by
  have hworker : { s.mem.workers w with queueCond := .asleep } = s.mem.workers w := by
    rw [← hc]
    rfl
  have hmem : s.mem.perform (.worker w) (.slept w) = s.mem := by
    simp only [Mem.perform, Mem.onWorker, hworker, Function.update_eq_self]
  have hstack : Function.update s.stack (.worker w) [] = s.stack := by
    rw [← hs, Function.update_eq_self]
  have hpc : Function.update s.pc w .asleep = s.pc := by
    rw [← hp, Function.update_eq_self]
  simp only [Sys.apply, hmem, hs, Sys.setPc, List.nil_append, List.tail_nil, hstack, hpc]

def Choice.isCall : Choice T n → Bool
  | .call _ => true
  | _ => false

/-- A script without calls is quiet. -/
theorem Quiet.scripted {is : List (Tid n × Choice T n)}
    {tail : Option ((Tid n × Choice T n) × (Tid n × Action T n))}
    {h : ∀ i e, tail = some (i, e) →
      (pool T n).step ((pool T n).after s is) i = some (e, (pool T n).after s is)}
    (hcalls : is.all (fun i => !i.2.isCall) = true)
    (htail : tail.all (fun p => !p.1.2.isCall) = true) : Quiet (.scripted s is tail h) := by
  intro k i e he op hop
  rcases Execution.scripted_input he with hin | rfl
  · have hcall := List.all_eq_true.mp hcalls i hin
    simp [hop, Choice.isCall] at hcall
  · simp [hop, Choice.isCall] at htail

/-- A client is about to hand a job to the worker. -/
def handingRun : History .unit 1 × Sys .unit 1 :=
  (pool .unit 1).drive (fun _ _ _ => true)
    ((Tid.client 0).calls (.doJob worker₀ "a" (some 0) none) 0)

/-- The client hands the job over, and the worker executes it and goes to sleep. -/
def servingScript : List (Tid 1 × Choice .unit 1) :=
  (Tid.client 0).steps 3 ++ (Tid.worker worker₀).steps 5 ++ (Tid.worker worker₀).returns 6

theorem serving_rests (i : Tid 1 × Choice .unit 1) (e : Tid 1 × Action .unit 1)
    (he : some ((.worker 0, .run), (.worker 0, .slept 0)) = some (i, e)) :
    (pool .unit 1).step ((pool .unit 1).after handingRun.2 servingScript) i =
      some (e, (pool .unit 1).after handingRun.2 servingScript) := by
  have hs : ((pool .unit 1).after handingRun.2 servingScript).stack (.worker 0) = [] := rfl
  have hp : ((pool .unit 1).after handingRun.2 servingScript).pc 0 = .asleep := rfl
  have hc : (((pool .unit 1).after handingRun.2 servingScript).worker 0).queueCond = .asleep := rfl
  have hstep : (pool .unit 1).step ((pool .unit 1).after handingRun.2 servingScript)
      (.worker 0, .run) = some ((.worker 0, .slept 0),
        ((pool .unit 1).after handingRun.2 servingScript).apply (.worker 0)
          ⟨.slept 0, [], none, some .asleep⟩) := rfl
  cases he
  rw [hstep, Sys.sleeps_again hs hp hc]

/-- The job is served; from then on the worker wakes up for ever and finds no other. -/
def servingExecution : (pool .unit 1).Execution :=
  .scripted handingRun.2 servingScript (some ((.worker 0, .run), (.worker 0, .slept 0)))
    serving_rests

theorem pool_comes_to_rest_servingExecution :
    (∃ i e, servingExecution.event 0 = some (i, e) ∧
      (servingExecution.state 0).idles i.1 = false) ∧
    ∃ k i e, servingExecution.event k = some (i, e) ∧
      (servingExecution.state k).idles i.1 = true := by
  have h : (pool .unit 1).Run AnyStep handingRun.1 (servingExecution.state 0) :=
    run_drive (fun _ _ _ _ => trivial) _
  have hquiet : Quiet servingExecution := .scripted rfl rfl
  obtain ⟨N, hN⟩ := pool_comes_to_rest servingExecution h hquiet
  have hevent := (Execution.scripted_end (h := serving_rests)
    (Nat.le_max_right N servingScript.length)).2
  refine ⟨⟨_, _, rfl, rfl⟩, max N servingScript.length, _, _, hevent, ?_⟩
  exact hN _ (Nat.le_max_left N servingScript.length) _ _ hevent

end ServiceLib
