import ServiceLib.Model.Closures
import ServiceLib.Model.Stack

namespace ServiceLib

variable {T : ArgTypes} {n : Nat} {ok : History T n → Sys T n → Tid n × Choice T n → Prop}
  {tr : History T n} {s : Sys T n} {t u : Tid n} {i : Choice T n} {mv : Move T n} {k : Nat}

/-- A `doSyncJob` takes a new number. -/
theorem Moves.opened_inv (hm : Moves s t i mv) (ha : mv.action = .opened k) :
    k = s.mem.fresh := by
  cases hm <;> cases ha
  rfl

def belowFresh (s : Sys T n) : Captured T := ⟨fun _ _ _ => True, fun k => k < s.mem.fresh⟩

/-- The numbers of all `doSyncJob` calls in progress are used up. -/
theorem sync_below (h : (pool T n).Run ok tr s) : s.Carries (belowFresh s) := by
  refine pool_invariant (J := fun _ s => s.Carries (belowFresh s)) ?_ ?_ h
  · exact ⟨fun _ _ h => absurd h List.not_mem_nil, fun _ _ h => absurd h List.not_mem_nil,
      fun _ _ h => absurd h List.not_mem_nil⟩
  · intro tr s t i mv _ hc _ hm
    have hle : (belowFresh s).Le (belowFresh (s.apply t mv)) :=
      ⟨fun _ _ _ _ => trivial, fun k hk => hk.trans_le (s.fresh_mono t mv)⟩
    refine hc.step hm hle ⟨fun _ _ _ _ _ _ _ => trivial, ?_⟩
    intro k ha
    change k < (s.apply t mv).mem.fresh
    rw [hm.opened_inv ha, Sys.apply_mem, Mem.perform_fresh, ha]
    exact Nat.lt_succ_self _

theorem JobContext.Wakes.below {j : JobContext T} {k : Nat} (hj : j.Carries (belowFresh s))
    (hk : j.Wakes k) : k < s.mem.fresh := by
  obtain ⟨c, hc⟩ := hk
  exact ((Callable.carries_syncDone _ c k).mp (hj.onDone _ hc)).2

/-- The `doSyncJob` call a frame belongs to. -/
def Frame.waits : Frame T n → Option Nat
  | .syncWait k | .syncAsleep k => some k
  | _ => none

/-- The thread is inside the `doSyncJob` with this number, past its push or about to push. -/
def Sys.WaitsIn (s : Sys T n) (t : Tid n) (k : Nat) : Prop := ∃ f ∈ s.stack t, f.waits = some k

theorem Sys.WaitsIn.below (h : (pool T n).Run ok tr s) (hw : s.WaitsIn t k) :
    k < s.mem.fresh := by
  obtain ⟨f, hf, hk⟩ := hw
  have hc := (sync_below h).frames t f hf
  cases f <;> simp only [Frame.waits, reduceCtorEq, Option.some.injEq] at hk
  · exact hk ▸ hc
  · exact hk ▸ hc

theorem Frame.of_not_waiting {P : Prop} {l : List (Frame T n)}
    (h : l.any (fun f => f.waits.isSome) = false) : ∀ f ∈ l, f.waits = some k → P := by
  intro f hf hk
  have hno := Frame.forall_not h f hf
  simp [hk] at hno

/-- The frames a step adds wait in a call the thread waited in before, or in a new one. -/
theorem Moves.frames_wait (hm : Moves s t i mv) :
    ∀ f ∈ mv.frames, f.waits = some k → s.WaitsIn t k ∨ mv.action = .opened k := by
  cases hm
  case doSync w name call onDone strand rest hs =>
    refine List.forall_mem_cons.mpr ⟨by simp [Frame.waits], List.forall_mem_singleton.mpr ?_⟩
    exact fun hk => .inr (congrArg Action.opened (Option.some.inj hk))
  case syncSleep l rest hs _ =>
    exact List.forall_mem_singleton.mpr fun hk => .inl ⟨.syncWait l, by simp [hs], hk⟩
  case syncWake l rest hs =>
    exact List.forall_mem_singleton.mpr fun hk => .inl ⟨.syncAsleep l, by simp [hs], hk⟩
  case call op _ _ _ | callBack op _ _ =>
    cases op <;> exact Frame.of_not_waiting rfl
  case scanPlace | bindStrand =>
    unfold Sys.place
    split <;> exact Frame.of_not_waiting rfl
  all_goals exact Frame.of_not_waiting rfl

theorem Moves.waits_step (hm : Moves s t i mv) (h : (s.apply t mv).WaitsIn u k) :
    s.WaitsIn u k ∨ u = t ∧ mv.action = .opened k := by
  obtain ⟨f, hf, hk⟩ := h
  rcases Sys.mem_apply_stack hf with ⟨rfl, hnew⟩ | hold
  · exact (hm.frames_wait f hnew hk).imp id fun ha => ⟨rfl, ha⟩
  · exact .inl ⟨f, hold, hk⟩

/-- No two threads are inside the same `doSyncJob`. -/
theorem waits_unique (h : (pool T n).Run ok tr s) {t u : Tid n} {k : Nat} (ht : s.WaitsIn t k)
    (hu : s.WaitsIn u k) : t = u := by
  revert t u k
  refine pool_invariant
    (J := fun _ s => ∀ {t u k}, s.WaitsIn t k → s.WaitsIn u k → t = u) ?_ ?_ h
  · intro t u k ht _
    obtain ⟨f, hf, -⟩ := ht
    exact absurd hf List.not_mem_nil
  · intro tr s v i mv hrun ih _ hm t u k ht hu
    rcases hm.waits_step ht with ht' | ⟨rfl, ha⟩
    · rcases hm.waits_step hu with hu' | ⟨rfl, ha⟩
      · exact ih ht' hu'
      · exact absurd (ht'.below hrun) (by simp [hm.opened_inv ha])
    · rcases hm.waits_step hu with hu' | ⟨rfl, -⟩
      · exact absurd (hu'.below hrun) (by simp [hm.opened_inv ha])
      · rfl

/-- The `onDone` of a request is the caller's, not yet a closure of `doSyncJob`. -/
def Request.Plain (req : Request T) : Prop := ∀ c k, req.onDone ≠ some (.syncDone c k)

/-- Only `doSyncJob` pushes a job that wakes somebody, and it waits right after the push. -/
def SyncShape : List (Frame T n) → Prop
  | .push _ _ _ (some (.syncDone _ k)) _ :: rest => ∃ l, rest = .syncWait k :: l
  | .schedule req :: _ | .scan req _ _ _ :: _ | .bindStrand req _ :: _ => req.Plain
  | _ => True

theorem SyncShape.of_resting {f : Frame T n} (hf : f.resting = true) (rest : List (Frame T n)) :
    SyncShape (f :: rest) := by
  cases f <;> trivial

theorem SyncShape.client (name : String) (action : Option (Callable T)) (f : Option ClientFn)
    (wait : Bool) (strand : String) :
    Request.Plain (T := T) ⟨name, action, f.map .client, wait, strand⟩ := by
  intro c k
  cases f <;> simp

theorem SyncShape.place {req : Request T} (h : req.Plain) (w : Fin n) (rest : List (Frame T n)) :
    SyncShape (Sys.place req w :: rest) := by
  unfold Sys.place
  split
  · trivial
  · unfold SyncShape
    split <;> simp_all [Request.Plain]

/-- The frames that take the place of the innermost one keep the shape. -/
theorem Moves.frames_syncShape (hm : Moves s t i mv) (h : SyncShape (s.stack t))
    (hne : mv.frames ≠ []) : SyncShape (mv.frames ++ (s.stack t).tail) := by
  cases hm
  case call op _ _ _ | callBack op _ _ =>
    cases op
    case scheduleJob name action onDone wait strand => exact SyncShape.client _ _ onDone _ _
    case doJob w name call onDone => cases onDone <;> trivial
    all_goals trivial
  case callAsync id prop args rest st hs _ _ _ _ => exact SyncShape.client _ _ prop.onCallDone _ _
  case schedule hs _ | scanRead hs _ | scanCompare hs _ | scanStrand hs _ _ =>
    rw [hs] at h
    exact h
  case scanPlace req res it rest hs _ _ =>
    rw [hs] at h
    exact SyncShape.place h res _
  case bindStrand req idle rest hs =>
    rw [hs] at h
    exact SyncShape.place h _ _
  case doSync w name call onDone strand rest hs => exact ⟨_, rfl⟩
  all_goals trivial

theorem syncShape (h : (pool T n).Run ok tr s) : ∀ t, SyncShape (s.stack t) := by
  refine top_invariant (P := fun _ => SyncShape) (fun _ => trivial) ?_ ?_ h
  · intro t f rest hf
    exact .of_resting hf rest
  · intro tr s t i mv _ _ hm hshape hne
    exact hm.frames_syncShape hshape hne

end ServiceLib
