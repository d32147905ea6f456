import ServiceLib.Pool.Blocking

namespace ServiceLib

open Machine

variable {T : ArgTypes} {n : Nat} {ok : History T n → Sys T n → Tid n × Choice T n → Prop}
  {tr : History T n} {s : Sys T n} {t : Tid n} {i : Choice T n} {mv : Move T n}

/-- Blocking calls have their worker chosen by load, on no strand. -/
def BlocksOnNoStrand : Choice T n → Bool
  | .call (.interfaceCall _ prop _) => !prop.async || !prop.waitForDone || prop.strand = ""
  | .call (.scheduleJob _ _ _ wait strand) => !wait || strand = ""
  | .call (.doSyncJob _ _ _ _) => false
  | _ => true

/-- In the last comparison of loads for a blocking call of a running job, its own worker loses: if
it is the least loaded one so far, the last one has a smaller load, and if it is the last one, its
load is not smaller than that of the least loaded one so far. -/
def PrefersAnother (s : Sys T n) (t : Tid n) : Bool :=
  match t, s.stack t with
  | .worker w, .scan req res it (some load) :: _ =>
    !(req.waitForDone && it + 1 = n) ||
      (res ≠ w || load < (s.worker w).getLoad) && (it ≠ w || !(load < (s.worker res).getLoad))
  | _, _ => true

/-- A blocking request names no strand. -/
def Request.OnNoStrand (req : Request T) : Prop := req.waitForDone = true → req.strand = ""

/-- On the thread of worker `w`, the scan for a blocking call ends at another worker, and the job
that is to wake the thread goes there. -/
def PlacedAway (w : Fin n) : List (Frame T n) → Prop
  | .checkAndInvoke _ prop _ :: _ =>
    prop.async = true → prop.waitForDone = true → prop.strand = ""
  | .schedule req :: _ => req.OnNoStrand
  | .scan req res it load :: _ =>
    req.OnNoStrand ∧ (load = none → ¬it < n → req.waitForDone = true → res ≠ w)
  | .bindStrand req _ :: _ => req.waitForDone = false
  | .doSync v _ _ _ _ :: _ | .push v _ _ (some (.syncDone _ _)) _ :: _ => v ≠ w
  | _ => True

theorem PlacedAway.of_resting {w : Fin n} {f : Frame T n} (hf : f.resting = true)
    (rest : List (Frame T n)) : PlacedAway w (f :: rest) := by
  cases f <;> trivial

theorem PlacedAway.enter {w : Fin n} {op : Op T n}
    (hop : BlocksOnNoStrand (.call op : Choice T n) = true) (rest : List (Frame T n)) :
    PlacedAway w (op.enter :: rest) := by
  cases op with
  | interfaceCall id prop args =>
    intro ha hw
    simpa [BlocksOnNoStrand, ha, hw] using hop
  | scheduleJob name action onDone wait strand =>
    intro hw
    obtain rfl : wait = true := hw
    simpa [BlocksOnNoStrand] using hop
  | doJob v name call onDone => cases onDone <;> trivial
  | doSyncJob v name call onDone => cases hop
  | _ => trivial

theorem PlacedAway.place {w v : Fin n} {req : Request T} (hplain : req.Plain)
    (hv : req.waitForDone = true → v ≠ w) (rest : List (Frame T n)) :
    PlacedAway w (Sys.place req v :: rest) := by
  unfold Sys.place
  split
  · rename_i hw
    exact hv hw
  · cases hd : req.onDone with
    | none => trivial
    | some c =>
      cases c with
      | syncDone c k => exact absurd hd (hplain c k)
      | _ => trivial

/-- The worker that loses the last comparison is not the one chosen. -/
theorem prefersAnother_chosen {w res : Fin n} {req : Request T} {it : Nat} {load : SizeT}
    {rest : List (Frame T n)} (hok : PrefersAnother s (.worker w) = true)
    (hs : s.stack (.worker w) = .scan req res it (some load) :: rest) (hi : it < n)
    (hw : req.waitForDone = true) (hlast : it + 1 = n) :
    (if load < (s.worker res).getLoad then ⟨it, hi⟩ else res) ≠ w := by
  have hbeaten : (res = w → load < (s.worker w).getLoad) ∧
      (it = w → ¬load < (s.worker res).getLoad) := by
    simpa [PrefersAnother, hs, hw, hlast, or_iff_not_imp_left] using hok
  split
  · rename_i hless
    intro heq
    subst heq
    exact hbeaten.2 rfl hless
  · rename_i hless
    intro heq
    subst heq
    exact hless (hbeaten.1 rfl)

theorem Moves.frames_placedAway {w : Fin n} (hm : Moves s (.worker w) i mv) (hn : 1 < n)
    (hi : BlocksOnNoStrand i = true) (hok : PrefersAnother s (.worker w) = true)
    (hsync : SyncShape (s.stack (.worker w))) (h : PlacedAway w (s.stack (.worker w)))
    (hne : mv.frames ≠ []) : PlacedAway w (mv.frames ++ (s.stack (.worker w)).tail) := by
  cases hm
  case call op _ _ _ | callBack op _ _ => exact .enter hi _
  case callAsync id prop args rest st hs _ _ _ ha =>
    rw [hs] at h
    exact h ha
  case schedule hs _ =>
    rw [hs] at h
    exact ⟨h, fun _ hlast => absurd hn hlast⟩
  case scanRead hs _ =>
    rw [hs] at h
    exact ⟨h.1, nofun⟩
  case scanCompare req res it load rest hs hit =>
    rw [hs] at h
    refine ⟨h.1, fun _ hlast hw => ?_⟩
    have hend : it + 1 = n := by omega
    exact prefersAnother_chosen hok hs hit hw hend
  case scanPlace req res it rest hs hit _ =>
    rw [hs] at h hsync
    exact .place hsync (h.2 rfl hit) _
  case scanStrand req res it rest hs _ hstrand =>
    rw [hs] at h
    exact Bool.eq_false_iff.mpr fun hw => hstrand (h.1 hw)
  case bindStrand req idle rest hs =>
    rw [hs] at h hsync
    exact .place hsync (fun hw => absurd (h.symm.trans hw) (by decide)) _
  case doSync v name call onDone strand rest hs =>
    rw [hs] at h
    exact h
  all_goals trivial

theorem placedAway
    (h : (pool T n).Run (fun _ s i => BlocksOnNoStrand i.2 && PrefersAnother s i.1) tr s)
    (hn : 1 < n) (w : Fin n) : PlacedAway w (s.stack (.worker w)) := by
  refine top_invariant (P := fun t st => ∀ w, t = .worker w → PlacedAway w st)
    (fun _ _ _ => trivial) ?_ ?_ h (.worker w) w rfl
  · intro t f rest hf w _
    exact .of_resting hf rest
  · intro tr s t i mv hrun hok hm hplaced hne w ht
    subst ht
    simp only [Bool.and_eq_true] at hok
    exact hm.frames_placedAway hn hok.1 hok.2 (syncShape hrun _) (hplaced w rfl) hne

/-- A job that wakes somebody is never in the queue of the worker it is to wake. -/
def Away (s : Sys T n) : Prop :=
  ∀ w, ∀ j ∈ (s.worker w).calls, ∀ k, j.Wakes k → ¬s.WaitsIn (.worker w) k

theorem Away.step (hrun : (pool T n).Run ok tr s) (h : Away s) (hm : Moves s t i mv)
    (hplaced : ∀ w, PlacedAway w (s.stack (.worker w))) : Away (s.apply t mv) := by
  intro w j hj k hk hw
  have hwaits : s.WaitsIn (.worker w) k ∨ mv.action = .opened k :=
    (hm.waits_step hw).imp id And.right
  rcases Sys.mem_apply_calls hj with hj | ⟨strand, ha⟩
  · have hbelow : k < s.mem.fresh := hk.below ((sync_below hrun).queued w j hj)
    rcases hwaits with hwaits | ha
    · exact h w j hj k hk hwaits
    · exact absurd (hm.opened_inv ha) (by omega)
  · obtain ⟨rest, hs, -⟩ := hm.pushed_inv ha
    obtain ⟨c, hc⟩ := hk
    have hshape := syncShape hrun t
    rw [hs, hc] at hshape
    obtain ⟨l, rfl⟩ := hshape
    have ht : s.WaitsIn t k := ⟨.syncWait k, by simp [hs], rfl⟩
    have hwt : s.WaitsIn (.worker w) k := hwaits.resolve_right (by simp [ha])
    obtain rfl : t = .worker w := waits_unique hrun ht hwt
    have haway := hplaced w
    rw [hs, hc] at haway
    exact haway rfl

theorem away
    (h : (pool T n).Run (fun _ s i => BlocksOnNoStrand i.2 && PrefersAnother s i.1) tr s)
    (hn : 1 < n) : Away s := by
  refine pool_invariant (J := fun _ s => Away s) ?_ ?_ h
  · intro w j hj
    exact absurd hj List.not_mem_nil
  · intro tr s t i mv hrun hw _ hm
    exact hw.step hrun hm (placedAway hrun hn)

end ServiceLib
