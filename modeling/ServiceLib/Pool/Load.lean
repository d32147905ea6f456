import ServiceLib.Model.Stack
import ServiceLib.Pool.Queue
import Mathlib.Data.Int.ModEq
import Mathlib.Data.Set.Card

namespace ServiceLib

open Machine

variable {T : ArgTypes} {n : Nat} {ok : History T n → Sys T n → Tid n × Choice T n → Prop}
  {tr : History T n} {s : Sys T n} {t : Tid n} {i : Choice T n} {mv : Move T n} {w : Fin n}

/-- What an action of thread `t` does to the threads between a push on worker `w` and its
increment. -/
@[simp] def Action.onUncounted (w : Fin n) (t : Tid n) (l : List (Tid n)) :
    Action T n → List (Tid n)
  | .pushed v _ _ => if w = v then t :: l else l
  | .counted v => if w = v then l.erase t else l
  | _ => l

/-- The threads between a push on worker `w` and the increment after it. -/
def uncounted (w : Fin n) (tr : History T n) : List (Tid n) :=
  tr.foldl (fun l e => e.2.onUncounted w e.1 l) []

theorem uncounted_snoc (w : Fin n) (tr : History T n) (t : Tid n) (a : Action T n) :
    uncounted w (tr ++ [(t, a)]) = a.onUncounted w t (uncounted w tr) := by
  simp [uncounted]

/-- The worker whose counter the innermost function has still to increment. -/
def topCount : List (Frame T n) → Option (Fin n)
  | .notify w :: _ | .increment w :: _ => some w
  | _ => none

theorem topCount_resting {l : List (Frame T n)} (h : ∀ f ∈ l, f.resting = true) :
    topCount l = none := by
  cases l with
  | nil => rfl
  | cons f l =>
    have hf := h f List.mem_cons_self
    cases f <;> first | rfl | cases hf

theorem topCount_enter (op : Op T n) (l : List (Frame T n)) : topCount (op.enter :: l) = none := by
  cases op <;> rfl

theorem topCount_place (req : Request T) (w : Fin n) (l : List (Frame T n)) :
    topCount (Sys.place req w :: l) = none := by
  unfold Sys.place
  split <;> rfl

/-- A thread owes an increment from its push on. -/
theorem Moves.topCount_step (hm : Moves s t i mv)
    (hrest : ∀ f ∈ (s.stack t).tail, f.resting = true) :
    (∃ w j strand, mv.action = .pushed w j strand ∧ topCount (s.stack t) = none ∧
      topCount (mv.frames ++ (s.stack t).tail) = some w) ∨
    (∃ w, mv.action = .counted w ∧ topCount (s.stack t) = some w ∧
      topCount (mv.frames ++ (s.stack t).tail) = none) ∨
    (∀ w l, mv.action.onUncounted w t l = l) ∧
      topCount (mv.frames ++ (s.stack t).tail) = topCount (s.stack t) := by
  have htail := topCount_resting hrest
  cases hm
  case push w name call onDone strand rest hs hq =>
    exact .inl ⟨w, _, strand, rfl, by rw [hs]; rfl, rfl⟩
  case notify w rest hs => exact .inr (.inr ⟨fun _ _ => rfl, by rw [hs]; rfl⟩)
  case increment w rest hs => exact .inr (.inl ⟨w, rfl, by rw [hs]; rfl, htail⟩)
  case call op _ _ hs | callBack op _ hs =>
    refine .inr (.inr ⟨fun _ _ => rfl, ?_⟩)
    rw [hs, List.cons_append, topCount_enter]
    rfl
  case scanPlace hs _ _ | bindStrand hs =>
    refine .inr (.inr ⟨fun _ _ => rfl, ?_⟩)
    rw [hs, List.cons_append, topCount_place]
    rfl
  all_goals
    refine .inr (.inr ⟨fun _ _ => rfl, ?_⟩)
    first
      | rw [‹s.stack t = _›]; rfl
      | exact htail.trans (by rw [‹s.stack t = _›]; rfl)

/-- The history and the stacks agree on who owes an increment. -/
structure Owes (w : Fin n) (tr : History T n) (s : Sys T n) : Prop where
  mem : ∀ t, t ∈ uncounted w tr ↔ topCount (s.stack t) = some w
  nodup : (uncounted w tr).Nodup

/-- A step that neither makes nor settles a debt on the worker. -/
theorem Owes.keep (h : Owes w tr s)
    (hsame : mv.action.onUncounted w t (uncounted w tr) = uncounted w tr)
    (hkeep : topCount (mv.frames ++ (s.stack t).tail) = some w ↔ topCount (s.stack t) = some w) :
    Owes w (tr ++ [(t, mv.action)]) (s.apply t mv) := by
  have huncounted : uncounted w (tr ++ [(t, mv.action)]) = uncounted w tr := by
    rw [uncounted_snoc, hsame]
  refine ⟨fun u => ?_, huncounted ▸ h.nodup⟩
  rw [huncounted, h.mem]
  by_cases hu : u = t
  · rw [hu, Sys.apply_stack_self]
    exact hkeep.symm
  · rw [Sys.apply_stack_other _ hu]

theorem Owes.step (h : Owes w tr s) (hm : Moves s t i mv)
    (hrest : ∀ f ∈ (s.stack t).tail, f.resting = true) :
    Owes w (tr ++ [(t, mv.action)]) (s.apply t mv) := by
  rcases hm.topCount_step hrest with ⟨v, j, strand, ha, hbefore, hafter⟩ | ⟨v, ha, hbefore, hafter⟩
    | ⟨hsame, hkeep⟩
  · by_cases hv : w = v
    · subst hv
      have hnew : t ∉ uncounted w tr := by simp [h.mem, hbefore]
      have hpush : uncounted w (tr ++ [(t, mv.action)]) = t :: uncounted w tr := by
        simp [uncounted_snoc, ha]
      refine ⟨fun u => ?_, hpush ▸ List.nodup_cons.mpr ⟨hnew, h.nodup⟩⟩
      rw [hpush, List.mem_cons, h.mem]
      by_cases hu : u = t
      · simp [hu, hafter]
      · simp [hu]
    · exact h.keep (by simp [ha, hv]) (by simp [hbefore, hafter, Ne.symm hv])
  · by_cases hv : w = v
    · subst hv
      have hcount : uncounted w (tr ++ [(t, mv.action)]) = (uncounted w tr).erase t := by
        simp [uncounted_snoc, ha]
      refine ⟨fun u => ?_, hcount ▸ h.nodup.erase t⟩
      rw [hcount, h.nodup.mem_erase_iff, h.mem]
      by_cases hu : u = t
      · simp [hu, hafter]
      · simp [hu]
    · exact h.keep (by simp [ha, hv]) (by simp [hbefore, hafter, Ne.symm hv])
  · exact h.keep (hsame w _) (by rw [hkeep])

theorem owes (h : (pool T n).Run ok tr s) (w : Fin n) : Owes w tr s := by
  refine pool_invariant (J := Owes w) ⟨?_, List.nodup_nil⟩ ?_ h
  · exact fun t => ⟨fun h => absurd h List.not_mem_nil, fun h => (by cases h)⟩
  · intro tr s t i mv hrun ih _ hm
    exact ih.step hm (resting_below hrun t)

/-- The counter and the increments still owed make up the length of the queue, modulo 2^64. -/
def Accounts (w : Fin n) (tr : History T n) (s : Sys T n) : Prop :=
  (s.worker w).outstandingJobs + BitVec.ofNat 64 (uncounted w tr).length =
    BitVec.ofNat 64 (s.worker w).calls.length

/-- No cancel erases the queue of the worker while an increment is owed there. -/
def CountedAtCancels (w : Fin n) (tr : History T n) : Prop :=
  ∀ p q t id js, tr = p ++ (t, .cancelled w id js) :: q → uncounted w p = []

theorem CountedAtCancels.left {l r : History T n} (h : CountedAtCancels w (l ++ r)) :
    CountedAtCancels w l := by
  intro p q t id js hl
  exact h p (q ++ r) t id js (by rw [hl, List.append_assoc, List.cons_append])

theorem Accounts.step (h : Accounts w tr s) (howes : Owes w tr s) (hm : Moves s t i mv)
    (hc : CountedAtCancels w (tr ++ [(t, mv.action)])) :
    Accounts w (tr ++ [(t, mv.action)]) (s.apply t mv) := by
  have hg := hm.queue_guard
  unfold Accounts at h ⊢
  rw [uncounted_snoc, Sys.apply_load, Sys.apply_calls]
  cases ha : mv.action with
  | pushed v j strand =>
    by_cases hv : w = v
    · simp only [hv, Action.onLoad, Action.onUncounted, Action.onCalls, if_true,
        List.length_cons, List.length_append, List.length_nil, BitVec.ofNat_add] at h ⊢
      rw [← h]
      grind
    · simpa [hv] using h
  | counted v =>
    by_cases hv : w = v
    · subst hv
      have hmem : t ∈ uncounted w tr := by
        rw [howes.mem]
        cases hm <;> cases ha
        rename_i hs
        rw [hs]
        rfl
      obtain ⟨m, hm'⟩ : ∃ m, (uncounted w tr).length = m + 1 :=
        Nat.exists_eq_succ_of_ne_zero (List.length_pos_of_mem hmem).ne'
      simp only [Action.onLoad, Action.onUncounted, Action.onCalls, if_true,
        List.length_erase_of_mem hmem]
      rw [hm'] at h ⊢
      rw [← h, BitVec.ofNat_add]
      grind
    · simpa [hv] using h
  | dequeued v j =>
    by_cases hv : w = v
    · rw [ha] at hg
      subst hv
      obtain ⟨left, hl⟩ := hg
      simp only [Action.onLoad, Action.onUncounted, Action.onCalls, if_true, hl, List.tail_cons,
        List.length_cons, BitVec.ofNat_add] at h ⊢
      grind
    · simpa [hv] using h
  | cancelled v id js =>
    by_cases hv : w = v
    · subst hv
      have hnone : uncounted w tr = [] := hc tr [] t id js (by rw [ha])
      simp [hnone]
    · simpa [hv] using h
  | _ => simpa using h

theorem accounts (h : (pool T n).Run ok tr s) (hc : CountedAtCancels w tr) : Accounts w tr s := by
  revert hc
  refine pool_invariant (J := fun tr s => CountedAtCancels w tr → Accounts w tr s) ?_ ?_ h
  · exact fun _ => rfl
  · intro tr s t i mv hrun ih _ hm hc
    exact (ih hc.left).step (owes hrun w) hm hc

/-- If the step erases a queue for a cancel, no increment is owed there. -/
def CancelsCounted (tr : History T n) (s : Sys T n) (t : Tid n) : Bool :=
  match s.stack t with
  | .cancelScan _ w [] :: _ => (uncounted w tr).isEmpty
  | _ => true

theorem countedAtCancels (h : (pool T n).Run (fun tr s i => CancelsCounted tr s i.1) tr s)
    (w : Fin n) : CountedAtCancels w tr := by
  intro p q t id js htr
  obtain ⟨s₀, i, mv, -, hok, hm, ha⟩ := pool_at_label h htr
  obtain ⟨⟨rest, hs⟩, -⟩ := hm.cancelled_inv ha
  simpa [CancelsCounted, hs] using hok

/-- The function works on the queue of the worker. -/
def Frame.onQueue (w : Fin n) : Frame T n → Bool
  | .push v _ _ _ _ | .notify v | .increment v | .cancelLock _ v | .cancelScan _ v _ => v = w
  | _ => false

/-- No thread is inside `doJob` or `cancelJobsFor` of the worker; a dequeue is a single step. -/
def Sys.Quiet (s : Sys T n) (w : Fin n) : Prop := ∀ t, ∀ f ∈ s.stack t, f.onQueue w = false

theorem Sys.Quiet.topCount (h : s.Quiet w) (t : Tid n) : topCount (s.stack t) ≠ some w := by
  have ht := h t
  cases hs : s.stack t with
  | nil => simp [ServiceLib.topCount]
  | cons f rest =>
    have hf := ht f (hs ▸ List.mem_cons_self)
    cases f with
    | notify v | increment v =>
      intro htop
      have hv : v = w := Option.some.inj htop
      simp [Frame.onQueue, hv] at hf
    | _ => exact fun htop => by cases htop

theorem uncounted_eq_nil (h : (pool T n).Run ok tr s)
    (hno : ∀ t, topCount (s.stack t) ≠ some w) : uncounted w tr = [] :=
  List.eq_nil_iff_forall_not_mem.mpr fun t ht => hno t (((owes h w).mem t).mp ht)

/-- When nobody works on the queue the counter is its length, if no cancel has erased the queue
between a push and the increment after it. -/
theorem load_exact (h : (pool T n).Run (fun tr s i => CancelsCounted tr s i.1) tr s)
    (hq : s.Quiet w) :
    (s.worker w).outstandingJobs = BitVec.ofNat 64 (s.worker w).calls.length := by
  have hacc := accounts h (countedAtCancels h w)
  rw [Accounts, uncounted_eq_nil h hq.topCount] at hacc
  simpa using hacc

/-- Two jobs are pushed and counted, one is dequeued, and a cancel drops the other. -/
def countedCancelRun : History .unit 1 × Sys .unit 1 :=
  let c := Tid.client 0
  let doJob := c.calls (.doJob worker₀ "a" (some 0) none) 3
  (pool .unit 1).drive (fun tr s i => CancelsCounted tr s i.1)
    (doJob ++ doJob ++ (Tid.worker worker₀).steps 2 ++ c.calls (.cancelOn worker₀ "b") 3 ++ doJob)

theorem load_exact_countedCancelRun :
    (countedCancelRun.2.worker 0).outstandingJobs =
      BitVec.ofNat 64 (countedCancelRun.2.worker 0).calls.length ∧
    (countedCancelRun.2.worker 0).calls.length = 1 := by
  have h : (pool .unit 1).Run (fun tr s i => CancelsCounted tr s i.1) countedCancelRun.1
      countedCancelRun.2 := run_drive (fun _ _ _ hok => hok) _
  have hstacks : ∀ t ∈ [Tid.client 0, .worker worker₀], countedCancelRun.2.stack t = [] :=
    List.forall_mem_cons.mpr ⟨rfl, List.forall_mem_singleton.mpr rfl⟩
  have hnil : ∀ t, countedCancelRun.2.stack t = [] :=
    stacks_of_steps h (P := fun l => l = []) rfl rfl hstacks
  have hq : countedCancelRun.2.Quiet 0 := fun t f hf =>
    absurd (hnil t ▸ hf) List.not_mem_nil
  exact ⟨load_exact h hq, rfl⟩

/-- A cancel comes between a push and its increment. -/
def driftRun : History .unit 1 × Sys .unit 1 :=
  let c := Tid.client 0
  let d := Tid.client 1
  (pool .unit 1).drive (fun _ _ _ => true)
    (c.calls (.doJob worker₀ "a" (some 0) none) 1 ++ d.calls (.cancelOn worker₀ "b") 3 ++
      c.steps 2)

/-- The queue is empty and the counter is one from then on. -/
theorem load_drifts :
    ¬∀ (tr : History .unit 1) (s : Sys .unit 1), (pool .unit 1).Run AnyStep tr s →
      ∀ w, s.Quiet w →
        (s.worker w).outstandingJobs = BitVec.ofNat 64 (s.worker w).calls.length := by
  intro hclaim
  have h : (pool .unit 1).Run AnyStep driftRun.1 driftRun.2 := run_drive (fun _ _ _ _ => trivial) _
  have hstacks : ∀ t ∈ [Tid.client 0, .client 1], driftRun.2.stack t = [] :=
    List.forall_mem_cons.mpr ⟨rfl, List.forall_mem_singleton.mpr rfl⟩
  have hnil : ∀ t, driftRun.2.stack t = [] :=
    stacks_of_steps h (P := fun l => l = []) rfl rfl hstacks
  have hq : driftRun.2.Quiet 0 := fun t f hf => absurd (hnil t ▸ hf) List.not_mem_nil
  have hone : (driftRun.2.worker 0).outstandingJobs = 1 := rfl
  have hzero : BitVec.ofNat 64 (driftRun.2.worker 0).calls.length = 0 := rfl
  have hdrift := hclaim _ _ h 0 hq
  rw [hone, hzero] at hdrift
  exact absurd hdrift (by decide)

/-- The callers of `doJob` on the worker that have pushed and not yet incremented. -/
def Sys.inFlight (s : Sys T n) (w : Fin n) : Set (Tid n) := {t | topCount (s.stack t) = some w}

theorem Owes.inFlight (h : Owes w tr s) :
    (s.inFlight w).Finite ∧ (s.inFlight w).ncard = (uncounted w tr).length := by
  have heq : s.inFlight w = ((uncounted w tr).toFinset : Set (Tid n)) := by
    ext t
    rw [Finset.mem_coe, List.mem_toFinset, h.mem]
    rfl
  constructor
  · rw [heq]
    exact Finset.finite_toSet _
  · rw [heq, Set.ncard_coe_finset, List.toFinset_card_of_nodup h.nodup]

/-- If the step is the erase of a cancel on the worker, no caller there is between its push and
its increment. -/
def ErasesSettled (w : Fin n) (s : Sys T n) (t : Tid n) : Prop :=
  ∀ id rest, s.stack t = .cancelScan id w [] :: rest → s.inFlight w = ∅

theorem countedAtCancels_settled
    (h : (pool T n).Run (fun _ s i => ErasesSettled w s i.1) tr s) : CountedAtCancels w tr := by
  intro p q t id js htr
  obtain ⟨s₀, i, mv, h₀, hok, hm, ha⟩ := pool_at_label h htr
  obtain ⟨⟨rest, hs⟩, -⟩ := hm.cancelled_inv ha
  have hnone := hok id rest hs
  refine uncounted_eq_nil h₀ fun u hu => ?_
  have hmem : u ∈ s₀.inFlight w := hu
  rw [hnone] at hmem
  exact hmem

/-- At every point the counter is the length of the queue less the callers in flight, modulo 2^64,
if every cancel erases the queue while nobody is in flight there. -/
theorem load_accounted (h : (pool T n).Run (fun _ s i => ErasesSettled w s i.1) tr s) :
    (s.inFlight w).Finite ∧
      ((s.worker w).outstandingJobs.toNat : Int) ≡
        (s.worker w).calls.length - (s.inFlight w).ncard [ZMOD 2 ^ 64] := by
  obtain ⟨hfin, hcard⟩ := (owes h w).inFlight
  refine ⟨hfin, ?_⟩
  have hacc := congrArg BitVec.toNat (accounts h (countedAtCancels_settled h))
  rw [BitVec.toNat_add, BitVec.toNat_ofNat, BitVec.toNat_ofNat] at hacc
  rw [hcard, Int.ModEq]
  omega

theorem CancelsCounted.settled (h : (pool T n).Run (fun tr s i => CancelsCounted tr s i.1) tr s) :
    (pool T n).Run (fun _ s i => ErasesSettled w s i.1) tr s := by
  refine (h.and_of fun h => owes h w).mono ?_
  rintro tr s i ⟨hok, howes⟩ id rest hs
  have hnone : uncounted w tr = [] := by simpa [CancelsCounted, hs] using hok
  ext t
  simp [Sys.inFlight, ← howes.mem, hnone]

/-- A cancel drops a job that has been counted; then the worker dequeues another before its push is
counted. -/
def inFlightRun : History .unit 1 × Sys .unit 1 :=
  let c := Tid.client 0
  (pool .unit 1).drive (fun tr s i => CancelsCounted tr s i.1)
    (c.calls (.doJob worker₀ "a" (some 0) none) 3 ++ c.calls (.cancelOn worker₀ "a") 3 ++
      c.calls (.doJob worker₀ "a" (some 0) none) 1 ++ (Tid.worker worker₀).steps 2)

theorem load_accounted_inFlightRun :
    (2 ^ 64 - 1 : Int) ≡ 0 - (inFlightRun.2.inFlight 0).ncard [ZMOD 2 ^ 64] := by
  have h : (pool .unit 1).Run (fun _ s i => ErasesSettled 0 s i.1) inFlightRun.1 inFlightRun.2 :=
    CancelsCounted.settled (run_drive (fun _ _ _ hok => hok) _)
  have hload : ((inFlightRun.2.worker 0).outstandingJobs.toNat : Int) = 2 ^ 64 - 1 := rfl
  have hcalls : ((inFlightRun.2.worker 0).calls.length : Int) = 0 := rfl
  have hacc := (load_accounted h).2
  rw [hload, hcalls] at hacc
  exact hacc

/-- The worker looks at its queue next. -/
def WorkerPc.looks : WorkerPc T → Bool
  | .lock | .asleep | .relock => true
  | _ => false

/-- If the step dequeues, fewer callers are between a push and its increment there than jobs wait:
one of the waiting jobs has been counted. -/
def DequeuesCounted (tr : History T n) (s : Sys T n) (t : Tid n) : Bool :=
  match s.stack t, t with
  | [], .worker w => !(s.pc w).looks || (s.worker w).calls.isEmpty ||
      (uncounted w tr).length < (s.worker w).calls.length
  | _, _ => true

theorem Moves.dequeued_inv (hm : Moves s t i mv) {j : JobContext T}
    (ha : mv.action = .dequeued w j) :
    t = .worker w ∧ s.stack t = [] ∧ (s.pc w).looks = true ∧ (s.worker w).calls ≠ [] ∧
      mv.pc = some (.acquire j) := by
  cases hm <;> cases ha
  rename_i left hs ht hp _ hc
  refine ⟨ht, hs, ?_, by simp [hc], rfl⟩
  rcases hp with hp | hp | hp <;> rw [hp] <;> rfl

theorem DequeuesCounted.lt (h : DequeuesCounted tr s t = true) (hm : Moves s t i mv)
    {j : JobContext T} (ha : mv.action = .dequeued w j) :
    (uncounted w tr).length < (s.worker w).calls.length := by
  obtain ⟨rfl, hs, hp, hc, -⟩ := hm.dequeued_inv ha
  simpa [DequeuesCounted, hs, hp, hc] using h

/-- No more increments are owed on the worker than jobs wait there. -/
theorem uncounted_le (h : (pool T n).Run (fun tr s i => DequeuesCounted tr s i.1) tr s)
    (hno : ∀ t id js, (t, .cancelled w id js) ∉ tr) :
    (uncounted w tr).length ≤ (s.worker w).calls.length := by
  revert hno
  refine pool_invariant (J := fun tr s => (∀ t id js, (t, .cancelled w id js) ∉ tr) →
    (uncounted w tr).length ≤ (s.worker w).calls.length) ?_ ?_ h
  · exact fun _ => Nat.le_refl 0
  · intro tr s t i mv hrun ih hok hm hno
    have hle := ih fun u id js hmem => hno u id js (List.mem_append_left _ hmem)
    rw [uncounted_snoc, Sys.apply_calls]
    cases ha : mv.action with
    | pushed v j strand =>
      by_cases hv : w = v
      · simpa [hv] using hv ▸ hle
      · simpa [hv] using hle
    | counted v =>
      by_cases hv : w = v
      · have herase := List.length_erase_le (a := t) (l := uncounted w tr)
        simp only [Action.onUncounted, Action.onCalls, hv, if_true] at hle herase ⊢
        omega
      · simpa [hv] using hle
    | dequeued v j =>
      by_cases hv : w = v
      · subst hv
        have hlt := DequeuesCounted.lt hok hm ha
        simp only [Action.onUncounted, Action.onCalls, if_true, List.length_tail]
        omega
      · simpa [hv] using hle
    | cancelled v id js =>
      by_cases hv : w = v
      · exact absurd (mem_snoc.mpr (.inr ⟨rfl, by rw [ha, hv]⟩)) (hno t id js)
      · simpa [hv] using hle
    | _ => simpa using hle

/-- What a worker has dequeued it has finished or has in hand. -/
theorem dequeued_eq (h : (pool T n).Run ok tr s) (w : Fin n) :
    dequeuedOn w tr = endedOn w tr ++ (s.pc w).current := by
  refine pool_invariant (J := fun tr s => dequeuedOn w tr = endedOn w tr ++ (s.pc w).current)
    rfl ?_ h
  intro tr s t i mv _ ih _ hm
  rw [dequeuedOn_snoc, endedOn_snoc, Sys.apply_pc, ih, List.append_assoc, List.append_assoc,
    hm.hands_step]

/-- Without cancels the jobs pushed and not finished are the waiting ones and the one in hand. -/
theorem unfinished_length (h : (pool T n).Run ok tr s)
    (hno : ∀ t id js, (t, .cancelled w id js) ∉ tr) :
    (pushedOn w tr).length =
      (endedOn w tr).length + (s.pc w).current.length + (s.worker w).calls.length := by
  obtain ⟨F, hp, htk, hrm, hq⟩ := tracked h w
  have hnone : cancelledOn w tr = [] := by
    refine List.flatMap_eq_nil_iff.mpr fun (t, a) hmem => ?_
    cases a with
    | cancelled v id js =>
      have hv : w ≠ v := fun hv => hno t id js (hv ▸ hmem)
      simp [hv]
    | _ => rfl
  have hlen := F.parts.length_eq
  rw [hp, htk, hrm, hq, hnone, dequeued_eq h w] at hlen
  simpa [Nat.add_assoc] using hlen

/-- The load is at most the number of unfinished jobs and no decrement meets a zero, if no worker
dequeues ahead of the increments. -/
theorem load_bounded (h : (pool T n).Run (fun tr s i => DequeuesCounted tr s i.1) tr s)
    (hno : ∀ t id js, (t, .cancelled w id js) ∉ tr) (hlt : (pushedOn w tr).length < 2 ^ 64) :
    (s.worker w).getLoad.toNat ≤ (pushedOn w tr).length - (endedOn w tr).length ∧
    ∀ {t i mv j}, DequeuesCounted tr s t = true → Moves s t i mv → mv.action = .dequeued w j →
      (s.worker w).getLoad.toNat ≠ 0 := by
  have hcount : CountedAtCancels w tr := fun p q t id js htr =>
    absurd (htr ▸ List.mem_append_right p List.mem_cons_self) (hno t id js)
  have hacc := accounts h hcount
  have hle := uncounted_le h hno
  have hsum := unfinished_length h hno
  have hload : (s.worker w).getLoad.toNat =
      (s.worker w).calls.length - (uncounted w tr).length := by
    rw [Accounts, BitVec.toNat_eq] at hacc
    simp only [BitVec.toNat_add, BitVec.toNat_ofNat] at hacc
    have hx := (s.worker w).outstandingJobs.isLt
    rw [AsyncWorker.getLoad]
    omega
  refine ⟨by omega, ?_⟩
  intro t i mv j hok hm ha
  have hjob := DequeuesCounted.lt hok hm ha
  omega

/-- The id of the cancel that erases a queue. -/
def Action.cancels : Action T n → Option String
  | .cancelled _ id _ => some id
  | _ => none

theorem not_cancelled (h : tr.filterMap (fun e => e.2.cancels) = []) (t : Tid n) (id : String)
    (js : List (JobContext T)) : (t, .cancelled w id js) ∉ tr := by
  intro hmem
  have hid : id ∈ tr.filterMap (fun e => e.2.cancels) := List.mem_filterMap.mpr ⟨_, hmem, rfl⟩
  rw [h] at hid
  exact absurd hid List.not_mem_nil

/-- A job is counted and taken, and a second one waits. -/
def countedFirstRun : History .unit 1 × Sys .unit 1 :=
  let doJob := (Tid.client 0).calls (.doJob worker₀ "a" (some 0) none) 3
  (pool .unit 1).drive (fun tr s i => DequeuesCounted tr s i.1)
    (doJob ++ (Tid.worker worker₀).steps 2 ++ doJob)

theorem load_bounded_countedFirstRun :
    (countedFirstRun.2.worker 0).getLoad.toNat ≤ 2 ∧
      (countedFirstRun.2.worker 0).getLoad = 1 := by
  have h : (pool .unit 1).Run (fun tr s i => DequeuesCounted tr s i.1) countedFirstRun.1
      countedFirstRun.2 := run_drive (fun _ _ _ hok => hok) _
  have hno : ∀ t id js, (t, .cancelled 0 id js) ∉ countedFirstRun.1 := not_cancelled rfl
  have hlt : (pushedOn 0 countedFirstRun.1).length < 2 ^ 64 := by
    have htwo : (pushedOn 0 countedFirstRun.1).length = 2 := rfl
    omega
  exact ⟨(load_bounded h hno hlt).1, rfl⟩

/-- The worker takes a job before its caller has counted it. -/
def wrapRun : History .unit 1 × Sys .unit 1 :=
  (pool .unit 1).drive (fun _ _ _ => true)
    ((Tid.client 0).calls (.doJob worker₀ "a" (some 0) none) 1 ++ (Tid.worker worker₀).steps 2)

/-- One job is unfinished and the load is the largest number there is. -/
theorem load_wraps :
    ¬∀ (tr : History .unit 1) (s : Sys .unit 1), (pool .unit 1).Run AnyStep tr s →
      ∀ w, (∀ t id js, (t, .cancelled w id js) ∉ tr) → (pushedOn w tr).length < 2 ^ 64 →
        (s.worker w).getLoad.toNat ≤ (pushedOn w tr).length - (endedOn w tr).length := by
  intro hclaim
  have h : (pool .unit 1).Run AnyStep wrapRun.1 wrapRun.2 := run_drive (fun _ _ _ _ => trivial) _
  have hno : ∀ t id js, (t, .cancelled 0 id js) ∉ wrapRun.1 := not_cancelled rfl
  have hpushed : (pushedOn 0 wrapRun.1).length = 1 := rfl
  have hload : (wrapRun.2.worker 0).getLoad = -1 := rfl
  have hbound := hclaim _ _ h 0 hno (by omega)
  rw [hload, hpushed] at hbound
  have hmax : (-1 : SizeT).toNat = 2 ^ 64 - 1 := rfl
  omega

end ServiceLib
