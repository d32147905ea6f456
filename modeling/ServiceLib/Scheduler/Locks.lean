import ServiceLib.Model.Stack

namespace ServiceLib

variable {T : ArgTypes} {n : Nat} {ok : History T n → Sys T n → Tid n × Choice T n → Prop}
  {tr : History T n} {s : Sys T n} {t u : Tid n} {i : Choice T n} {mv : Move T n} {w : Fin n}

/-- The function holds `mappingLock_` once. -/
def Frame.holdsMapping : Frame T n → Bool
  | .notifyLoop _ _ _ | .unregisterExit _ | .subscribeExit => true
  | _ => false

def Sys.holdCount (s : Sys T n) (t : Tid n) : Nat := (s.stack t).countP Frame.holdsMapping

theorem Op.enter_holdsMapping (op : Op T n) : op.enter.holdsMapping = false := by
  cases op <;> rfl

theorem Frame.place_holdsMapping (req : Request T) (w : Fin n) :
    (Sys.place req w).holdsMapping = false := by
  unfold Sys.place
  split <;> rfl

/-- A step takes `mappingLock_` with the function that holds it, lets it go with its end, or leaves
both alone. -/
theorem Moves.holds_step (hm : Moves s t i mv) :
    (s.mem.mappingLock.canLock t = true ∧ (∀ l, mv.action.onMappingLock t l = l.lock t) ∧
      (mv.frames ++ (s.stack t).tail).countP Frame.holdsMapping = s.holdCount t + 1) ∨
    ((∀ l, mv.action.onMappingLock t l = l.unlock) ∧
      (mv.frames ++ (s.stack t).tail).countP Frame.holdsMapping + 1 = s.holdCount t) ∨
    (∀ l, mv.action.onMappingLock t l = l) ∧
      (mv.frames ++ (s.stack t).tail).countP Frame.holdsMapping = s.holdCount t := by
  unfold Sys.holdCount
  cases hm
  case register hs hl _ | unregister hs hl _ | subscribeRun hs hl _ =>
    refine .inl ⟨hl, fun _ => rfl, ?_⟩
    simp [hs, List.countP_cons, Frame.holdsMapping]
  case notifyEnd hs _ _ | unregisterExit hs | subscribeExit hs =>
    refine .inr (.inl ⟨fun _ => rfl, ?_⟩)
    simp [hs, List.countP_cons, Frame.holdsMapping]
  case call op _ _ hs | callBack op _ hs =>
    refine .inr (.inr ⟨fun _ => rfl, ?_⟩)
    rw [hs, List.cons_append, List.countP_cons, Op.enter_holdsMapping]
    rfl
  case scanPlace hs _ _ | bindStrand hs =>
    refine .inr (.inr ⟨fun _ => rfl, ?_⟩)
    rw [hs, List.cons_append, List.countP_cons, Frame.place_holdsMapping]
    rfl
  all_goals
    refine .inr (.inr ⟨fun _ => rfl, ?_⟩)
    rw [‹s.stack t = _›]
    rfl

/-- What a step of a thread changes about its own holds is what it does to the mutex. -/
theorem Moves.holdCount_step (hm : Moves s t i mv)
    (h : ∀ u, s.mem.mappingLock.depth u = s.holdCount u) (u : Tid n) :
    (s.apply t mv).mem.mappingLock.depth u = (s.apply t mv).holdCount u := by
  rw [Sys.apply_mem, Mem.perform_mappingLock, Sys.holdCount, Sys.apply_stack,
    Function.update_apply]
  rcases hm.holds_step with ⟨hl, hlock, hcount⟩ | ⟨hunlock, hcount⟩ | ⟨hkeep, hcount⟩
  · rw [hlock, RecursiveMutex.depth_lock _ _ _ hl, h u]
    split
    · rename_i hu
      rw [hcount, hu]
    · rfl
  · have hpos : 0 < s.mem.mappingLock.depth t := by
      rw [h t, ← hcount]
      exact Nat.succ_pos _
    rw [hunlock, RecursiveMutex.depth_unlock _ _ _ hpos, h u]
    split
    · rename_i hu
      rw [hu, ← hcount, Nat.add_sub_cancel]
    · rfl
  · rw [hkeep, h u]
    split
    · rename_i hu
      rw [hcount, hu]
    · rfl

/-- The depth of `mappingLock_` is the number of functions that hold it. -/
theorem mapping_depth (h : (pool T n).Run ok tr s) :
    ∀ t, s.mem.mappingLock.depth t = s.holdCount t := by
  refine pool_invariant (J := fun _ s => ∀ t, s.mem.mappingLock.depth t = s.holdCount t) ?_ ?_ h
  · exact fun t => rfl
  · intro tr s t i mv _ hd _ hm
    exact hm.holdCount_step hd

/-- A thread with a function that holds `mappingLock_` owns it. -/
theorem mapping_owner (h : (pool T n).Run ok tr s) {f : Frame T n} (hf : f ∈ s.stack t)
    (hold : f.holdsMapping = true) : s.mem.mappingLock.owner = some t := by
  rw [RecursiveMutex.owner_eq_some, mapping_depth h]
  exact List.countP_pos_iff.mpr ⟨f, hf, hold⟩

/-- The worker whose queue the innermost function has locked for a cancel. -/
def topScan : List (Frame T n) → Option (Fin n)
  | .cancelScan _ w _ :: _ => some w
  | _ => none

theorem topScan_resting {l : List (Frame T n)} (h : ∀ f ∈ l, f.resting = true) :
    topScan l = none := by
  cases l with
  | nil => rfl
  | cons f l =>
    have hf := h f List.mem_cons_self
    cases f <;> first | rfl | cases hf

theorem topScan_enter (op : Op T n) (l : List (Frame T n)) : topScan (op.enter :: l) = none := by
  cases op <;> rfl

theorem topScan_place (req : Request T) (w : Fin n) (l : List (Frame T n)) :
    topScan (Sys.place req w :: l) = none := by
  unfold Sys.place
  split <;> rfl

/-- `queueLock_` is taken and let go together with the frame that stands for the locked section. -/
theorem Moves.topScan_step (hm : Moves s t i mv)
    (hrest : ∀ f ∈ (s.stack t).tail, f.resting = true) :
    (∃ w, mv.action = .queueLocked w ∧ (s.worker w).queueLock = none ∧
      topScan (s.stack t) = none ∧ topScan (mv.frames ++ (s.stack t).tail) = some w) ∨
    (∃ w id js, mv.action = .cancelled w id js ∧ topScan (s.stack t) = some w ∧
      topScan (mv.frames ++ (s.stack t).tail) = none) ∨
    (∀ w o, mv.action.onQueueLock t w o = o) ∧
      topScan (mv.frames ++ (s.stack t).tail) = topScan (s.stack t) := by
  have htail := topScan_resting hrest
  cases hm
  case cancelLock id w rest hs hq =>
    exact .inl ⟨w, rfl, hq, by rw [hs]; rfl, rfl⟩
  case cancelErase id w rest hs =>
    exact .inr (.inl ⟨w, id, _, rfl, by rw [hs]; rfl, htail⟩)
  case cancelSkip hs _ =>
    exact .inr (.inr ⟨fun _ _ => rfl, by rw [hs]; rfl⟩)
  case call op _ _ hs | callBack op _ hs =>
    refine .inr (.inr ⟨fun _ _ => rfl, ?_⟩)
    rw [hs, List.cons_append, topScan_enter]
    rfl
  case scanPlace hs _ _ | bindStrand hs =>
    refine .inr (.inr ⟨fun _ _ => rfl, ?_⟩)
    rw [hs, List.cons_append, topScan_place]
    rfl
  all_goals
    refine .inr (.inr ⟨fun _ _ => rfl, ?_⟩)
    first
      | rw [‹s.stack t = _›]; rfl
      | exact htail.trans (by rw [‹s.stack t = _›]; rfl)

/-- A thread owns the `queueLock_` of a worker between two steps just while it cancels there. -/
theorem queue_owner (h : (pool T n).Run ok tr s) :
    ∀ w u, (s.worker w).queueLock = some u ↔ topScan (s.stack u) = some w := by
  refine pool_invariant (J := fun _ s =>
    ∀ w u, (s.worker w).queueLock = some u ↔ topScan (s.stack u) = some w) ?_ ?_ h
  · exact fun w u => ⟨fun h => (by cases h), fun h => (by cases h)⟩
  · intro tr s t i mv hrun ih _ hm w u
    rw [Sys.apply_queueLock, Sys.apply_stack, Function.update_apply]
    have hw := ih w u
    rcases hm.topScan_step (resting_below hrun t) with ⟨v, ha, hfree, hbefore, hafter⟩
      | ⟨v, id, js, ha, hbefore, hafter⟩ | ⟨hsame, htop⟩
    · rw [ha]
      by_cases hu : u = t
      · subst hu
        by_cases hv : w = v
        · simp [hv, hafter]
        · simp [hv, Ne.symm hv, hw, hbefore, hafter]
      · by_cases hv : w = v
        · subst hv
          simp [hu, Ne.symm hu, ← hw, hfree]
        · simp [hu, hv, hw]
    · rw [ha]
      have hlock := (ih v t).mpr hbefore
      by_cases hu : u = t
      · subst hu
        by_cases hv : w = v
        · simp [hv, hafter]
        · simp [hv, Ne.symm hv, hw, hbefore, hafter]
      · by_cases hv : w = v
        · subst hv
          simp [hu, Ne.symm hu, ← hw, hlock]
        · simp [hu, hv, hw]
    · rw [hsame]
      by_cases hu : u = t
      · subst hu
        simp [hw, htop]
      · simp [hu, hw]

/-- The thread holds `executingLock_` of its worker. -/
def WorkerPc.executes : WorkerPc T → Bool
  | .action _ | .inAction _ | .onDone _ | .inOnDone _ | .finish _ => true
  | _ => false

/-- The thread of the worker holds `executingLock_` and has set `executing_` just while it runs a
job. -/
structure Guarded (s : Sys T n) (w : Fin n) : Prop where
  flag : (s.worker w).executing = (s.pc w).executes
  lock : (s.worker w).executingLock = if (s.pc w).executes then some (.worker w) else none

/-- `executingLock_` and `executing_` of a worker change only by steps of its run loop. -/
theorem Moves.executing_frame (hm : Moves s t i mv) (w : Fin n)
    (hw : t = .worker w → s.stack t ≠ []) :
    (∀ o, mv.action.onExecutingLock t w o = o) ∧ ∀ b, mv.action.onExecuting w b = b := by
  cases hm
  case «begin» v _ ht hs _ _ | finish v _ ht hs _ =>
    have hv : w ≠ v := fun h => hw (h ▸ ht) hs
    simp [hv]
  all_goals exact ⟨fun _ => rfl, fun _ => rfl⟩

theorem Guarded.step (h : Guarded s w) (hm : Moves s t i mv) : Guarded (s.apply t mv) w := by
  obtain ⟨hflag, hlock⟩ := h
  rcases s.at_loop t w with hw | ⟨rfl, hstack⟩
  · have hpc : (s.apply t mv).pc w = s.pc w := (hm.pc_frame w hw).1
    obtain ⟨hl, he⟩ := hm.executing_frame w hw
    refine ⟨?_, ?_⟩
    · rw [Sys.apply_executing, he, hpc, hflag]
    · rw [Sys.apply_executingLock, hl, hpc, hlock]
  · have hfields (a : Action T n) (hl : a.onExecutingLock (.worker w) w
          (s.worker w).executingLock = if (s.setPc (.worker w) mv.pc w).executes then
            some (.worker w) else none)
        (he : a.onExecuting w (s.worker w).executing = (s.setPc (.worker w) mv.pc w).executes)
        (ha : mv.action = a) : Guarded (s.apply (.worker w) mv) w := by
      subst ha
      exact ⟨(Sys.apply_executing ..).trans he, (Sys.apply_executingLock ..).trans hl⟩
    cases hm
    case dequeue v _ _ ht _ hp _ _ =>
      obtain rfl := Tid.worker.inj ht
      refine hfields _ ?_ ?_ rfl <;> rcases hp with hp | hp | hp <;>
        simp [hflag, hlock, hp, WorkerPc.executes]
    case sleep v ht _ hp _ _ _ =>
      obtain rfl := Tid.worker.inj ht
      refine hfields _ ?_ ?_ rfl <;> rcases hp with hp | hp <;>
        simp [hflag, hlock, hp, WorkerPc.executes]
    case pass v ht _ hp _ _ =>
      obtain rfl := Tid.worker.inj ht
      refine hfields _ ?_ ?_ rfl <;> rcases hp with hp | ⟨hp | hp, -⟩ <;>
        simp [hflag, hlock, hp, WorkerPc.executes]
    case «begin» v j ht _ _ _ | finish v j ht _ _ =>
      obtain rfl := Tid.worker.inj ht
      refine hfields _ ?_ ?_ rfl <;> simp [WorkerPc.executes]
    case enterLoop v ht _ hp _ | leave v ht _ hp _ | beginAction v _ _ ht _ hp _
        | endAction v _ ht _ hp _ _ | beginOnDone v _ _ ht _ hp _ | noOnDone v _ ht _ hp _
        | endOnDone v _ ht _ hp =>
      obtain rfl := Tid.worker.inj ht
      refine hfields _ ?_ ?_ rfl <;> simp [hflag, hlock, hp, WorkerPc.executes]
    all_goals simp_all

theorem guarded (h : (pool T n).Run ok tr s) (w : Fin n) : Guarded s w := by
  refine pool_invariant (J := fun _ s => Guarded s w) ⟨rfl, rfl⟩ ?_ h
  intro tr s t i mv _ ih _ hm
  exact ih.step hm

/-- Only a worker's own thread ever owns its `executingLock_`, and only while it runs a job. -/
theorem executing_owner (h : (pool T n).Run ok tr s) :
    ∀ w u, (s.worker w).executingLock = some u → u = .worker w ∧ (s.pc w).executes = true := by
  intro w u hl
  rw [(guarded h w).lock] at hl
  split at hl
  · rename_i hexec
    exact ⟨(Option.some.inj hl).symm, hexec⟩
  · cases hl

end ServiceLib
