import ServiceLib.Pool.Placement

namespace ServiceLib

open Machine

variable {T : ArgTypes} {n : Nat} {s s' s'' : Sys T n} {t u : Tid n} {i : Choice T n}
  {mv : Move T n} {m m' : History T n} {rest : List (Frame T n)}

/-- A thread goes on by itself. -/
inductive Goes (t : Tid n) (s : Sys T n) : History T n → Sys T n → Prop
  | start : Goes t s [] s
  | next {tr : History T n} {s₁ : Sys T n} {mv : Move T n} (h : Goes t s tr s₁)
      (hm : Moves s₁ t .run mv) : Goes t s (tr ++ [(t, mv.action)]) (s₁.apply t mv)

theorem Goes.trans (h : Goes t s m s') (h' : Goes t s' m' s'') : Goes t s (m ++ m') s'' := by
  induction h' with
  | start => exact (List.append_nil m).symm ▸ h
  | next _ hm ih => exact List.append_assoc m _ _ ▸ ih.next hm

theorem Goes.of_moves (hm : Moves s t .run mv) : Goes t s [(t, mv.action)] (s.apply t mv) :=
  Goes.start.next hm

namespace Sys

/-- The same state with other functions in progress on the thread. -/
def onStack (s : Sys T n) (t : Tid n) (l : List (Frame T n)) : Sys T n :=
  { s with stack := Function.update s.stack t l }

@[simp] theorem onStack_stack (s : Sys T n) (t : Tid n) (l : List (Frame T n)) :
    (s.onStack t l).stack t = l := Function.update_self ..

@[simp] theorem onStack_mem (s : Sys T n) (t : Tid n) (l : List (Frame T n)) :
    (s.onStack t l).mem = s.mem := rfl

/-- A step inside a function that has not returned. -/
theorem onStack_apply (s : Sys T n) (t : Tid n) (f : Frame T n) (a : Action T n)
    (l rest : List (Frame T n)) :
    (s.onStack t (f :: rest)).apply t ⟨a, l, none, none⟩ =
      { s with mem := s.mem.perform t a }.onStack t (l ++ rest) := by
  have hstack : Function.update (Function.update s.stack t (f :: rest)) t
      (l ++ (Function.update s.stack t (f :: rest) t).tail) =
      Function.update s.stack t (l ++ rest) := by
    rw [Function.update_idem, Function.update_self, List.tail_cons]
  unfold apply onStack
  simp only [setPc_none, hstack]

/-- The last step of a function. -/
theorem onStack_apply_result (s : Sys T n) (t : Tid n) (f : Frame T n) (a : Action T n)
    (o : Outcome) (rest : List (Frame T n)) :
    (s.onStack t (f :: rest)).apply t ⟨a, [], some o, none⟩ =
      { s with mem := s.mem.perform t a,
               result := Function.update s.result t o }.onStack t rest := by
  have hstack : Function.update (Function.update s.stack t (f :: rest)) t
      (Function.update s.stack t (f :: rest) t).tail = Function.update s.stack t rest := by
    rw [Function.update_idem, Function.update_self, List.tail_cons]
  unfold apply onStack
  simp only [setPc_none, List.nil_append, hstack]

theorem onStack_self (s : Sys T n) (t : Tid n) {l : List (Frame T n)} (h : s.stack t = l) :
    s.onStack t l = s := by
  unfold onStack
  rw [← h, Function.update_eq_self]

end Sys

/-- The call starts on top of what the thread has in progress. -/
theorem Moves.call_eq {op : Op T n} (hm : Moves s t (.call op) mv) :
    mv.action = .called op ∧ s.apply t mv = s.onStack t (op.enter :: s.stack t) := by
  have happly {l : List (Frame T n)} (hl : l ++ (s.stack t).tail = op.enter :: s.stack t) :
      s.apply t ⟨.called op, l, none, none⟩ = s.onStack t (op.enter :: s.stack t) := by
    unfold Sys.apply Sys.onStack
    simp only [Sys.setPc_none, hl]
    rfl
  cases hm with
  | call _ _ hs => exact ⟨rfl, happly (by simp [hs])⟩
  | callBack _ hs => exact ⟨rfl, happly (by simp [hs])⟩

/-- Client code that may call the library goes on only by a call or a return. -/
theorem Moves.call_rests {op : Op T n} (hm : Moves s t (.call op) mv)
    (hs : s'.stack t = s.stack t) : s'.next t .run = none := by
  cases hm with
  | call _ ht hs₀ =>
    subst ht
    simp only [Sys.next, hs.trans hs₀]
  | callBack _ hs₀ =>
    simp only [Sys.next, hs.trans hs₀]
    rfl

/-- The search of `min_element` ends on the first of the least loaded workers. -/
theorem scan_goes (t : Tid n) (req : Request T) (rest : List (Frame T n)) {res : Fin n} {it : Nat}
    (h : s.Least it res) (hi : it ≤ n) :
    ∃ m v, Goes t (s.onStack t (.scan req res it none :: rest)) m
        (s.onStack t (.scan req v n none :: rest)) ∧
      s.Least n v ∧ ∀ e ∈ m, e = (t, .tau) := by
  induction hk : n - it generalizing res it with
  | zero =>
    obtain rfl : it = n := by omega
    exact ⟨[], res, .start, h, fun e he => absurd he List.not_mem_nil⟩
  | succ k ih =>
    have hlt : it < n := by omega
    obtain ⟨m, v, hgoes, hleast, htau⟩ := ih (h.next hlt) hlt (by omega)
    have hread := Goes.of_moves (Moves.scanRead
      (s.onStack_stack t (.scan req res it none :: rest)) hlt)
    rw [Sys.onStack_apply] at hread
    have hcompare := Goes.of_moves (Moves.scanCompare
      (s.onStack_stack t (.scan req res it (some (s.worker ⟨it, hlt⟩).getLoad) :: rest)) hlt)
    rw [Sys.onStack_apply] at hcompare
    refine ⟨[(t, .tau)] ++ [(t, .tau)] ++ m, v, (hread.trans hcompare).trans hgoes, hleast, ?_⟩
    simpa using htau

/-- The worker `scheduleJob` hands a job to: the one the strand is bound to, or else the first of
the least loaded. -/
inductive Sys.Chosen (s : Sys T n) (strand : String) (w : Fin n) : Prop
  | bound (hne : strand ≠ "") (h : s.mem.strands strand = some w)
  | least (hfree : strand = "" ∨ s.mem.strands strand = none) (h : s.Least n w)

/-- The choice does not look at the counter of jobs and calls. -/
theorem Sys.Chosen.of_fresh {k : Nat} {strand : String} {w : Fin n}
    (h : Sys.Chosen { s with mem := { s.mem with fresh := k } } strand w) : s.Chosen strand w := by
  cases h with
  | bound hne h => exact .bound hne h
  | least hfree h => exact .least hfree ⟨h.seen, h.least, h.first⟩

/-- The first job of a strand binds it. -/
def Mem.bindStrand (m : Mem T n) (strand : String) (w : Fin n) : Mem T n :=
  if strand ≠ "" ∧ m.strands strand = none then
    { m with strands := Function.update m.strands strand (some w) }
  else m

theorem Mem.perform_bound_same {m : Mem T n} {strand : String} {w : Fin n}
    (h : m.strands strand = some w) : m.perform t (.bound strand w) = m := by
  have hsame : Function.update m.strands strand (some w) = m.strands := by
    rw [← h, Function.update_eq_self]
  change { m with strands := Function.update m.strands strand (some w) } = m
  rw [hsame]

/-- The steps of `getWorkerForSchedule`. -/
def Action.chooses : Action T n → Bool
  | .tau | .bound _ _ => true
  | _ => false

/-- `scheduleJob` up to `doJob` or `doSyncJob` on the chosen worker. -/
theorem schedule_goes (h0 : 0 < n) (s : Sys T n) (t : Tid n) (req : Request T)
    (rest : List (Frame T n)) :
    ∃ m w, Goes t (s.onStack t (.schedule req :: rest)) m
        ({ s with mem := s.mem.bindStrand req.strand w }.onStack t (Sys.place req w :: rest)) ∧
      s.Chosen req.strand w ∧ ∀ e ∈ m, e.2.chooses = true := by
  have hstart := Goes.of_moves (Moves.schedule (s.onStack_stack t (.schedule req :: rest)) h0)
  rw [Sys.onStack_apply] at hstart
  obtain ⟨m, v, hscan, hleast, htau⟩ := scan_goes t req rest (s.least_start h0) h0
  have hscan := hstart.trans hscan
  have hchooses : ∀ e ∈ m, e.2.chooses = true := fun e he => by rw [htau e he]; rfl
  have hn : ¬n < n := Nat.lt_irrefl n
  have htop := s.onStack_stack t (.scan req v n none :: rest)
  by_cases hstrand : req.strand = ""
  · have hplace := Goes.of_moves (Moves.scanPlace htop hn hstrand)
    rw [Sys.onStack_apply] at hplace
    refine ⟨[(t, .tau)] ++ m ++ [(t, .tau)], v, ?_, .least (.inl hstrand) hleast, ?_⟩
    · have hmem : s.mem.bindStrand req.strand v = s.mem := by simp [Mem.bindStrand, hstrand]
      rw [hmem]
      exact hscan.trans hplace
    · simpa [or_imp, forall_and, Action.chooses] using hchooses
  · have hplace := Goes.of_moves (Moves.scanStrand htop hn hstrand)
    rw [Sys.onStack_apply] at hplace
    have hbind := Goes.of_moves (Moves.bindStrand (s.onStack_stack t (.bindStrand req v :: rest)))
    rw [Sys.onStack_apply] at hbind
    have hgoes := (hscan.trans hplace).trans hbind
    cases hbound : s.mem.strands req.strand with
    | some w =>
      have hmem : s.mem.bindStrand req.strand w = s.mem := by simp [Mem.bindStrand, hbound]
      rw [Sys.onStack_mem, hbound, Option.getD_some, Mem.perform_bound_same hbound] at hgoes
      refine ⟨[(t, .tau)] ++ m ++ [(t, .tau)] ++ [(t, .bound req.strand w)], w, ?_,
        .bound hstrand hbound, ?_⟩
      · rw [hmem]
        exact hgoes
      · simpa [or_imp, forall_and, Action.chooses] using hchooses
    | none =>
      have hmem : s.mem.bindStrand req.strand v = s.mem.perform t (.bound req.strand v) := by
        simp [Mem.bindStrand, hstrand, hbound, Mem.perform]
      rw [Sys.onStack_mem, hbound, Option.getD_none] at hgoes
      refine ⟨[(t, .tau)] ++ m ++ [(t, .tau)] ++ [(t, .bound req.strand v)], v, ?_,
        .least (.inr hbound) hleast, ?_⟩
      · rw [hmem]
        exact hgoes
      · simpa [or_imp, forall_and, Action.chooses] using hchooses

/-- The thread makes the call and runs alone until it returns. -/
structure Sys.CallsAlone (s : Sys T n) (t : Tid n) (op : Op T n) (m : History T n)
    (s' : Sys T n) : Prop where
  run : ((pool T n).startAt s).Run
    (fun m _ i => i = (t, if m.isEmpty then .call op else .run)) m s'
  called : m ≠ []
  returned : s'.stack t = s.stack t

theorem Goes.callsAlone {op : Op T n} (hcall : Moves s t (.call op) mv)
    (h : Goes t (s.onStack t (op.enter :: s.stack t)) m (s'.onStack t (s.stack t)))
    (hret : s'.stack t = s.stack t) : s.CallsAlone t op ((t, .called op) :: m) s' := by
  refine ⟨?_, List.cons_ne_nil _ _, hret⟩
  rw [← hcall.call_eq.2, Sys.onStack_self s' t hret] at h
  clear hret
  induction h with
  | start =>
    have hinit : ((pool T n).startAt s).Run
        (fun m _ i => i = (t, if m.isEmpty then .call op else .run)) [] s := .start
    have hrun := hinit.next rfl hcall.step_eq
    rwa [hcall.call_eq.1] at hrun
  | next _ hm ih =>
    exact ih.next rfl hm.step_eq

theorem Sys.CallsAlone.unique {op : Op T n} {m' : History T n} (hcall : Moves s t (.call op) mv)
    (h : s.CallsAlone t op m s') (h' : s.CallsAlone t op m' s'') : m = m' ∧ s' = s'' := by
  have hend {m s'} (h : s.CallsAlone t op m s') (i : Tid n × Choice T n)
      (hi : i = (t, if m.isEmpty then .call op else .run)) :
      ((pool T n).startAt s).step s' i = none := by
    have hm : m.isEmpty = false := by simpa using h.called
    rw [hm] at hi
    subst hi
    simp [pool, startAt, hcall.call_rests h.returned]
  exact h.run.unique (fun _ _ _ _ hi hi' => hi.trans hi'.symm) (hend h) h'.run (hend h')

/-- The memory after `doJob`. -/
def Mem.push (m : Mem T n) (w : Fin n) (j : JobContext T) : Mem T n :=
  { m.onWorker w fun a => ((a.pushBack j).notifyAll).increment with fresh := m.fresh + 1 }

/-- The job an accepted call makes: the action applied to the arguments, and the `onDone`. -/
def Sys.jobOf (s : Sys T n) (id : String) (action : CallbackType T) (prop : CallProperty)
    (args : ParamArgs T) : JobContext T :=
  ⟨some (.bound s.mem.fresh action args), prop.onCallDone.map .client, id, s.mem.fresh + 1⟩

def Sys.ends (s : Sys T n) (t : Tid n) (o : Outcome) : Sys T n :=
  { s with result := Function.update s.result t o }

theorem Mem.bindStrand_workers (m : Mem T n) (strand : String) (w : Fin n) :
    (m.bindStrand strand w).workers = m.workers := by
  unfold bindStrand
  split <;> rfl

theorem Mem.bindStrand_fresh (m : Mem T n) (strand : String) (w : Fin n) :
    (m.bindStrand strand w).fresh = m.fresh := by
  unfold bindStrand
  split <;> rfl

/-- The steps of `doJob`. -/
def pushSteps (t : Tid n) (w : Fin n) (j : JobContext T) (strand : String) : History T n :=
  [(t, .pushed w j strand), (t, .signalled w), (t, .counted w)]

theorem push_goes {w : Fin n} {name strand : String} {call onDone : Option (Callable T)}
    (hq : (s.worker w).queueLock = none) (rest : List (Frame T n)) :
    Goes t (s.onStack t (.push w name call onDone strand :: rest))
      (pushSteps t w ⟨call, onDone, name, s.mem.fresh⟩ strand)
      ({ s with mem := s.mem.push w ⟨call, onDone, name, s.mem.fresh⟩ }.ends t
        (.ret true) |>.onStack t rest) := by
  have hpush := Goes.of_moves (Moves.push
    (s.onStack_stack t (.push w name call onDone strand :: rest)) hq)
  have hnotify (s : Sys T n) := Goes.of_moves (Moves.notify
    (s.onStack_stack t (.notify w :: rest)))
  have hcount (s : Sys T n) := Goes.of_moves (Moves.increment
    (s.onStack_stack t (.increment w :: rest)))
  simp only [Sys.onStack_apply] at hpush hnotify
  simp only [Sys.onStack_apply_result] at hcount
  have hgoes := (hpush.trans (hnotify _)).trans (hcount _)
  have hmem (j : JobContext T) : ((s.mem.perform t (.pushed w j strand)).perform t
      (.signalled w)).perform t (.counted w) = s.mem.push w j := by
    simp [Mem.perform, Mem.push, Mem.onWorker]
  rw [hmem] at hgoes
  exact hgoes

/-- The memory after an accepted call: the job at the tail of one queue, one more in the load of that
worker, its sleeper notified, and the strand bound if there is one and it was free. `fresh` has
numbered the call and the job. -/
def Mem.accept (m : Mem T n) (strand : String) (w : Fin n) (j : JobContext T) : Mem T n :=
  { m with
    workers := fun v =>
      if v = w then
        { m.workers w with
          calls := (m.workers w).calls ++ [j]
          outstandingJobs := (m.workers w).outstandingJobs + 1
          queueCond := if (m.workers w).queueCond = .empty then .empty else .notified }
      else m.workers v
    strands := fun key =>
      if key = strand ∧ strand ≠ "" ∧ m.strands strand = none then some w else m.strands key
    fresh := m.fresh + 2 }

theorem Mem.accept_workers (m : Mem T n) (strand : String) (w : Fin n) (j : JobContext T) :
    Function.update m.workers w (((m.workers w).pushBack j).notifyAll).increment =
      (m.accept strand w j).workers := by
  funext v
  by_cases hv : v = w
  · subst hv
    have hcond : (m.workers v).queueCond.notifyAll =
        if (m.workers v).queueCond = .empty then .empty else .notified := by
      cases (m.workers v).queueCond <;> rfl
    simp [accept, AsyncWorker.pushBack, AsyncWorker.notifyAll, AsyncWorker.increment, hcond]
  · simp [accept, hv]

theorem Mem.accept_strands (m : Mem T n) (strand : String) (w : Fin n) (j : JobContext T) :
    (m.bindStrand strand w).strands = (m.accept strand w j).strands := by
  funext key
  unfold bindStrand accept
  split
  · rename_i hfree
    by_cases hkey : key = strand <;> simp [hkey, hfree]
  · rename_i hbound
    simp [hbound]

/-- The steps of the call come to that. -/
theorem Mem.accept_eq (m : Mem T n) (strand : String) (w : Fin n) (j : JobContext T) :
    ({ m with fresh := m.fresh + 1 }.bindStrand strand w).push w j = m.accept strand w j := by
  have hworkers := m.accept_workers strand w j
  have hstrands := m.accept_strands strand w j
  unfold bindStrand at hstrands ⊢
  split at hstrands
  · rename_i hfree
    rw [if_pos hfree]
    simp only [push, onWorker, hworkers, hstrands]
    rfl
  · rename_i hbound
    rw [if_neg hbound]
    simp only [push, onWorker, hworkers, hstrands]
    rfl

/-- The call finds its action under its type and is to be queued. -/
theorem lookup_goes {id : String} {prop : CallProperty} {args : ParamArgs T}
    {action : CallbackType T} (hl : s.mem.mappingLock.canLock t = true)
    (hr : s.mem.registry.actionMapping id = some (action, args.getType))
    (ha : prop.async = true) (rest : List (Frame T n)) :
    Goes t (s.onStack t (.checkAndInvoke id prop args :: rest))
      [(t, .lookedUp s.mem.fresh id args)]
      ({ s with mem := { s.mem with fresh := s.mem.fresh + 1 } }.onStack t
        (.schedule ⟨id, some (.bound s.mem.fresh action args), prop.onCallDone.map .client,
          prop.waitForDone, prop.strand⟩ :: rest)) := by
  have hstep := Goes.of_moves (Moves.callAsync
    (s.onStack_stack t (.checkAndInvoke id prop args :: rest)) hl hr rfl ha)
  rw [Sys.onStack_apply] at hstep
  exact hstep

theorem accepted_goes {id : String} {prop : CallProperty} {args : ParamArgs T}
    {action : CallbackType T} (h0 : 0 < n) (hl : s.mem.mappingLock.canLock t = true)
    (hq : ∀ w, (s.worker w).queueLock = none)
    (hr : s.mem.registry.actionMapping id = some (action, args.getType))
    (ha : prop.async = true) (hw : prop.waitForDone = false) (rest : List (Frame T n)) :
    ∃ m w, s.Chosen prop.strand w ∧
      Goes t (s.onStack t (.checkAndInvoke id prop args :: rest)) m
        ({ s with mem := s.mem.accept prop.strand w (s.jobOf id action prop args) }.ends t
          (.ret true) |>.onStack t rest) := by
  obtain ⟨m, w, hschedule, hchosen, -⟩ := schedule_goes h0
    { s with mem := { s.mem with fresh := s.mem.fresh + 1 } } t
    ⟨id, some (.bound s.mem.fresh action args), prop.onCallDone.map .client, prop.waitForDone,
      prop.strand⟩ rest
  have hgoes := (lookup_goes hl hr ha rest).trans hschedule
  rw [Sys.place, if_neg (by simp [hw])] at hgoes
  let s₁ : Sys T n :=
    { s with mem := { s.mem with fresh := s.mem.fresh + 1 }.bindStrand prop.strand w }
  have hq₁ : (s₁.worker w).queueLock = none := by
    change ((Mem.bindStrand _ prop.strand w).workers w).queueLock = none
    rw [Mem.bindStrand_workers]
    exact hq w
  have hpush := hgoes.trans (push_goes hq₁ rest)
  rw [Mem.bindStrand_fresh, Mem.accept_eq] at hpush
  exact ⟨_, w, hchosen.of_fresh, hpush⟩

/-- The thread sets its outcome before it looks at it. -/
def Tid.unread : Tid n → List (Frame T n) → Bool
  | _, .syncOnDone _ :: _ => false
  | .worker _, [] => false
  | _, _ => true

/-- The states differ at most in an outcome that is not looked at. -/
structure Sys.SameBut (t : Tid n) (s s' : Sys T n) : Prop where
  mem : s.mem = s'.mem
  pc : s.pc = s'.pc
  stack : s.stack = s'.stack
  others : ∀ u, u ≠ t → s.result u = s'.result u
  unread : s.result t = s'.result t ∨ t.unread (s.stack t) = true

/-- The next step of a thread depends on no outcome but its own, and on that only where it is
read. -/
theorem Sys.SameBut.next (h : s.SameBut t s') (u : Tid n) (i : Choice T n) :
    s.next u i = s'.next u i := by
  have hread : s.result u = s'.result u ∨ u.unread (s.stack u) = true := by
    by_cases hu : u = t
    · exact hu ▸ h.unread
    · exact .inl (h.others u hu)
  obtain ⟨mem, pc, stack, result⟩ := s
  obtain ⟨mem', pc', stack', result'⟩ := s'
  obtain ⟨rfl, rfl, rfl, -, -⟩ := h
  cases i with
  | call | ret => rfl
  | run =>
    simp only [Sys.next]
    cases hs : stack u with
    | nil =>
      cases u with
      | client k => rfl
      | worker w =>
        have hres : result (.worker w) = result' (.worker w) :=
          hread.resolve_right (by simp [hs, Tid.unread])
        simp only [Sys.runNext, hres]
        rfl
    | cons f rest =>
      cases f
      case syncOnDone onDone =>
        have hres : result u = result' u := hread.resolve_right (by simp [hs, Tid.unread])
        simp only [Sys.frameNext, Sys.syncOnDoneNext, hres]
      all_goals rfl

theorem Moves.unread_step (hm : Moves s t i mv) (hu : t.unread (s.stack t) = true) :
    mv.result ≠ none ∨ t.unread (mv.frames ++ (s.stack t).tail) = true := by
  cases hm
  case call op _ _ _ | callBack op _ _ =>
    right
    cases op <;> cases t <;> rfl
  case scanPlace | bindStrand =>
    right
    unfold Sys.place
    split <;> cases t <;> rfl
  case syncNoDone hs _ =>
    rw [hs] at hu
    cases t <;> cases hu
  all_goals
    first
      | exact .inl (Option.some_ne_none _)
      | (right; cases t <;> rfl)
      | (rw [‹s.stack t = []›, ‹t = _›] at hu; cases hu)

theorem Sys.SameBut.apply (h : s.SameBut t s') (hm : Moves s u i mv) :
    (s.apply u mv).SameBut t (s'.apply u mv) := by
  refine ⟨?_, ?_, ?_, fun v hv => ?_, ?_⟩
  · rw [Sys.apply_mem, Sys.apply_mem, h.mem]
  · rw [Sys.apply_pc, Sys.apply_pc]
    unfold Sys.setPc
    rw [h.pc]
  · rw [Sys.apply_stack, Sys.apply_stack, h.stack]
  · unfold Sys.apply
    cases mv.result with
    | none => exact h.others v hv
    | some o =>
      by_cases hvu : v = u
      · simp [hvu]
      · simpa [hvu] using h.others v hv
  · by_cases hut : u = t
    · subst hut
      rw [Sys.apply_stack_self]
      rcases h.unread with hres | hun
      · left
        unfold Sys.apply
        cases mv.result with
        | none => exact hres
        | some o => simp
      · rcases hm.unread_step hun with hsome | hun'
        · left
          obtain ⟨o, ho⟩ := Option.ne_none_iff_exists'.mp hsome
          unfold Sys.apply
          simp [ho]
        · exact .inr hun'
    · have hother : (s.apply u mv).result t = s.result t ∧
          (s'.apply u mv).result t = s'.result t := by
        unfold Sys.apply
        cases mv.result <;> simp [Ne.symm hut]
      rw [hother.1, hother.2, Sys.apply_stack_other mv (Ne.symm hut)]
      exact h.unread

/-- What a program can do in one of two such states it can do in the other. -/
theorem Sys.SameBut.run (h : s.SameBut t s') (hrun : ((pool T n).startAt s).Run AnyStep m s'') :
    ∃ s₁, ((pool T n).startAt s').Run AnyStep m s₁ ∧ s''.SameBut t s₁ := by
  refine startAt_invariant (J := fun m s'' => ∃ s₁, ((pool T n).startAt s').Run AnyStep m s₁ ∧
    s''.SameBut t s₁) ⟨s', .start, h⟩ ?_ hrun
  intro m s'' u i mv _ ih _ hm
  obtain ⟨s₁, hrun, hsame⟩ := ih
  have hnext : s₁.next u i = some mv := by rw [← hsame.next, hm.next_eq]
  exact ⟨s₁.apply u mv, hrun.next (i := (u, i)) trivial (by simp [pool, startAt, hnext]),
    hsame.apply hm⟩

/-- The thread is outside the library or in a callback, and may call it. -/
def Sys.AtClient (s : Sys T n) (t : Tid n) : Prop :=
  (∃ k, t = .client k) ∧ s.stack t = [] ∨ ∃ rest, s.stack t = .user :: rest

theorem Sys.AtClient.moves (h : s.AtClient t) (op : Op T n) : ∃ mv, Moves s t (.call op) mv := by
  rcases h with ⟨⟨k, ht⟩, hs⟩ | ⟨rest, hs⟩
  · exact ⟨_, .call op ht hs⟩
  · exact ⟨_, .callBack op hs⟩

theorem Sys.AtClient.unread (h : s.AtClient t) : t.unread (s.stack t) = true := by
  rcases h with ⟨⟨k, rfl⟩, hs⟩ | ⟨rest, hs⟩
  · rw [hs]
    rfl
  · rw [hs]
    cases t <;> rfl

/-- Nobody else is in a section of the library that the thread may want to enter. -/
structure Sys.Unlocked (s : Sys T n) (t : Tid n) : Prop where
  mapping : s.mem.mappingLock.canLock t = true
  queues : ∀ w, (s.worker w).queueLock = none

/-- The call changes nothing but the outcome of its thread. Whatever happens later could happen
without it. -/
structure Sys.Ignores (s : Sys T n) (t : Tid n) (op : Op T n) (o : Outcome) (m : History T n)
    (s' : Sys T n) : Prop where
  history : m = [(t, .called op), (t, .tau)]
  state : s' = s.ends t o
  later : ∀ {tr s₁}, ((pool T n).startAt s').Run AnyStep tr s₁ →
    ∃ s₂, ((pool T n).startAt s).Run AnyStep tr s₂ ∧ s₁.mem = s₂.mem ∧ s₁.pc = s₂.pc ∧
      s₁.stack = s₂.stack

theorem Sys.ends_sameBut (h : s.AtClient t) (o : Outcome) : (s.ends t o).SameBut t s :=
  ⟨rfl, rfl, rfl, fun _ hu => Function.update_of_ne hu .., .inr h.unread⟩

/-- A call that returns at once with its first step. -/
theorem Sys.CallsAlone.ignores {op : Op T n} {o : Outcome} (hclient : s.AtClient t)
    (hstep : Moves (s.onStack t (op.enter :: s.stack t)) t .run ⟨.tau, [], some o, none⟩)
    (h : s.CallsAlone t op m s') : s.Ignores t op o m s' := by
  obtain ⟨mv, hcall⟩ := hclient.moves op
  have hgoes := Goes.of_moves hstep
  rw [Sys.onStack_apply_result] at hgoes
  have hend : s.CallsAlone t op [(t, .called op), (t, .tau)] (s.ends t o) :=
    hgoes.callsAlone hcall rfl
  obtain ⟨rfl, rfl⟩ := h.unique hcall hend
  refine ⟨rfl, rfl, fun hrun => ?_⟩
  obtain ⟨s₂, hrun₂, hsame⟩ := (s.ends_sameBut hclient o).run hrun
  exact ⟨s₂, hrun₂, hsame.mem, hsame.pc, hsame.stack⟩

/-- What a non-blocking asynchronous `interfaceCall` does: an unknown id or another type leaves
everything as it was, and an accepted call adds its job to the queue of one worker. -/
theorem interfaceCall_effect (id : String) (prop : CallProperty) (args : ParamArgs T) (h0 : 0 < n)
    (hclient : s.AtClient t) (hfree : s.Unlocked t) (ha : prop.async = true)
    (hw : prop.waitForDone = false) :
    (∃ m s', s.CallsAlone t (.interfaceCall id prop args) m s') ∧
    ∀ m s', s.CallsAlone t (.interfaceCall id prop args) m s' →
      (s.mem.registry.actionMapping id = none →
        s.Ignores t (.interfaceCall id prop args) (.ret false) m s') ∧
      (∀ st, s.mem.registry.actionMapping id = some st → args.getType ≠ st.2 →
        s.Ignores t (.interfaceCall id prop args) (.threw (.invalidArgument
          ("Expected type: <" ++ st.2 ++ ">, actual:" ++ args.getType))) m s') ∧
      ∀ action, s.mem.registry.actionMapping id = some (action, args.getType) →
        ∃ w, s.Chosen prop.strand w ∧ s' =
          { s with mem := s.mem.accept prop.strand w (s.jobOf id action prop args) }.ends t
            (.ret true) := by
  obtain ⟨mv, hcall⟩ := hclient.moves (.interfaceCall id prop args)
  have htop := s.onStack_stack t (.checkAndInvoke id prop args :: s.stack t)
  have haccept {action : CallbackType T}
      (hr : s.mem.registry.actionMapping id = some (action, args.getType)) :
      ∃ m w, s.Chosen prop.strand w ∧ s.CallsAlone t (.interfaceCall id prop args) m
        ({ s with mem := s.mem.accept prop.strand w (s.jobOf id action prop args) }.ends t
          (.ret true)) := by
    obtain ⟨m, w, hchosen, hgoes⟩ :=
      accepted_goes h0 hfree.mapping hfree.queues hr ha hw (s.stack t)
    exact ⟨_, w, hchosen, hgoes.callsAlone hcall rfl⟩
  have hreject {o : Outcome} (hm : Moves (s.onStack t (.checkAndInvoke id prop args ::
      s.stack t)) t .run ⟨.tau, [], some o, none⟩) :
      ∃ m s', s.CallsAlone t (.interfaceCall id prop args) m s' := by
    have hgoes := Goes.of_moves hm
    rw [Sys.onStack_apply_result] at hgoes
    exact ⟨_, s.ends t o, hgoes.callsAlone hcall rfl⟩
  refine ⟨?_, fun m s' h => ⟨fun hr => ?_, fun st hr hty => ?_, fun action hr => ?_⟩⟩
  · cases hr : s.mem.registry.actionMapping id with
    | none => exact hreject (.callUnknown htop hfree.mapping hr)
    | some st =>
      obtain ⟨action, storedType⟩ := st
      by_cases hty : args.getType = storedType
      · subst hty
        obtain ⟨m, w, -, h⟩ := haccept hr
        exact ⟨m, _, h⟩
      · exact hreject (.callMismatch htop hfree.mapping hr hty)
  · exact h.ignores hclient (.callUnknown htop hfree.mapping hr)
  · exact h.ignores hclient (.callMismatch htop hfree.mapping hr hty)
  · obtain ⟨m', w, hchosen, h'⟩ := haccept hr
    exact ⟨w, hchosen, (h.unique hcall h').2⟩

/-- A service is registered, and the first worker has a job. -/
def loadedRun : History .unit 2 × Sys .unit 2 :=
  (pool .unit 2).drive (fun _ _ _ => true)
    ((Tid.client 0).calls (.registerInterfaceFor "a" () (some 0)) 3 ++
      (Tid.client 0).calls (.doJob worker₀ "b" (some 1) none) 3)

def strandCall : CallProperty := ⟨true, false, some 2, "s"⟩

theorem interfaceCall_effect_loadedRun : ∃ m s' w,
    loadedRun.2.CallsAlone (.client 0) (.interfaceCall "a" strandCall ⟨(), ()⟩) m s' ∧
      loadedRun.2.Chosen "s" w ∧ s' = { loadedRun.2 with
        mem := loadedRun.2.mem.accept "s" w
          (loadedRun.2.jobOf "a" (some ⟨(), 0⟩) strandCall ⟨(), ()⟩) }.ends (.client 0)
            (.ret true) := by
  have hclient : loadedRun.2.AtClient (.client 0) := .inl ⟨⟨0, rfl⟩, rfl⟩
  have hfree : loadedRun.2.Unlocked (.client 0) :=
    ⟨rfl, Fin.forall_fin_two.mpr ⟨rfl, rfl⟩⟩
  have hr : loadedRun.2.mem.registry.actionMapping "a" =
      some (some ⟨(), 0⟩, (⟨(), ()⟩ : ParamArgs .unit).getType) := rfl
  obtain ⟨⟨m, s', h⟩, heffect⟩ :=
    interfaceCall_effect "a" strandCall ⟨(), ()⟩ Nat.two_pos hclient hfree rfl rfl
  obtain ⟨w, hchosen, hs'⟩ := (heffect m s' h).2.2 _ hr
  exact ⟨m, s', w, h, hchosen, hs'⟩

end ServiceLib
