import ServiceLib.Framework.Greedy
import ServiceLib.Pool.Placement

namespace ServiceLib

open Machine

variable {T : ArgTypes} {n : Nat} {tr : History T n} {s s₀ s' : Sys T n} {t : Tid n}
  {i : Choice T n} {mv : Move T n} {w : Fin n}

/-- The loads `min_element` compares. -/
def Sys.loads (s : Sys T n) (w : Fin n) : ℕ := (s.worker w).getLoad.toNat

theorem Sys.Least.firstLeast (h : s.Least n w) : FirstLeast s.loads w :=
  ⟨fun v => h.least v v.isLt, h.first⟩

theorem Sys.Least.congr {it : Nat} (h : s.Least it w)
    (hload : ∀ v, (s'.worker v).getLoad = (s.worker v).getLoad) : s'.Least it w := by
  refine ⟨h.seen, fun v hv => ?_, fun v hv => ?_⟩
  · rw [hload, hload]
    exact h.least v hv
  · rw [hload, hload]
    exact h.first v hv

theorem ScanPoint.congr {req : Request T} {rest l : List (Frame T n)} (h : ScanPoint s req rest l)
    (hload : ∀ v, (s'.worker v).getLoad = (s.worker v).getLoad) : ScanPoint s' req rest l := by
  cases h with
  | schedule => exact .schedule
  | read h hi => exact .read (h.congr hload) hi
  | @compare it res h hi =>
    rw [← hload]
    exact .compare (h.congr hload) hi
  | place h => exact .place (h.congr hload)

/-- The function lies between the entry of `scheduleJob` and the end of `doJob`. -/
def Frame.placing : Frame T n → Bool
  | .schedule _ | .scan _ _ _ _ | .bindStrand _ _ | .doSync _ _ _ _ _ | .push _ _ _ _ _
  | .notify _ | .increment _ => true
  | _ => false

theorem Frame.not_placing_of_resting {f : Frame T n} (h : f.resting = true) :
    f.placing = false := by
  cases f <;> first | rfl | cases h

/-- No job is being scheduled. -/
def Sys.NonePlacing (s : Sys T n) : Prop := ∀ t, ∀ f ∈ s.stack t, f.placing = false

/-- The step belongs to a sequence of jobs scheduled one after another without a strand: nothing
leaves a queue, a job is given to the dispatcher only when no other is being scheduled, and no
counter overflows. -/
structure InSequence (s : Sys T n) (t : Tid n) (mv : Move T n) : Prop where
  noDequeue : ∀ w j, mv.action ≠ .dequeued w j
  noCancel : ∀ w id js, mv.action ≠ .cancelled w id js
  turn : ∀ f ∈ mv.frames, f.placing = true → (∃ g ∈ s.stack t, g.placing = true) ∨
    s.NonePlacing ∧ ∃ req, f = .schedule req ∧ req.strand = ""
  room : ∀ w, mv.action = .counted w → s.loads w + 1 < 2 ^ 64

def Sequential (s : Sys T n) (i : Tid n × Choice T n) : Prop :=
  ∀ mv, Moves s i.1 i.2 mv → InSequence s i.1 mv

def Action.pushedTo : Action T n → List (Fin n)
  | .pushed w _ _ => [w]
  | _ => []

def Action.countedAt : Action T n → List (Fin n)
  | .counted w => [w]
  | _ => []

/-- The workers the jobs were pushed on, in order. -/
def pushTargets (tr : History T n) : List (Fin n) := tr.flatMap fun e => e.2.pushedTo

/-- The workers the jobs were counted at, in order. -/
def countTargets (tr : History T n) : List (Fin n) := tr.flatMap fun e => e.2.countedAt

theorem pushTargets_snoc (tr : History T n) (t : Tid n) (a : Action T n) :
    pushTargets (tr ++ [(t, a)]) = pushTargets tr ++ a.pushedTo := by
  simp [pushTargets]

theorem countTargets_snoc (tr : History T n) (t : Tid n) (a : Action T n) :
    countTargets (tr ++ [(t, a)]) = countTargets tr ++ a.countedAt := by
  simp [countTargets]

theorem Action.countedAt_eq_nil {a : Action T n} (hc : ∀ w, a ≠ .counted w) :
    a.countedAt = [] := by
  cases a <;> first | rfl | exact absurd rfl (hc _)

/-- The loads change only where a job is counted. -/
theorem InSequence.load (h : InSequence s t mv) (hno : ∀ w, mv.action ≠ .counted w) (v : Fin n) :
    ((s.apply t mv).worker v).getLoad = (s.worker v).getLoad := by
  rw [AsyncWorker.getLoad, Sys.apply_load]
  cases ha : mv.action with
  | counted w => exact absurd ha (hno w)
  | dequeued w j => exact absurd ha (h.noDequeue w j)
  | cancelled w id js => exact absurd ha (h.noCancel w id js)
  | _ => rfl

theorem InSequence.loads_counted (h : InSequence s t mv) (ha : mv.action = .counted w) :
    (s.apply t mv).loads = bump s.loads w := by
  have hroom := h.room w ha
  funext v
  rw [Sys.loads, AsyncWorker.getLoad, Sys.apply_load, ha]
  by_cases hv : v = w
  · subst hv
    rw [bump_self, Action.onLoad, if_pos rfl, BitVec.toNat_add]
    exact Nat.mod_eq_of_lt hroom
  · rw [bump_of_ne hv, Action.onLoad, if_neg hv]
    rfl

/-- Only a thread that is scheduling a job pushes and counts. -/
theorem Moves.counts_placing (hm : Moves s t i mv) (hno : ∀ f ∈ s.stack t, f.placing = false) :
    mv.action.pushedTo = [] ∧ mv.action.countedAt = [] ∧ ∀ w, mv.action ≠ .counted w := by
  cases hm
  case push hs _ | increment hs =>
    have hplacing := hno _ (hs ▸ List.mem_cons_self)
    cases hplacing
  all_goals exact ⟨rfl, rfl, fun w => by simp⟩

/-- Where the thread stands that is scheduling a job, and the worker it has pushed it on. -/
inductive Placer (s : Sys T n) (t : Tid n) : Option (Fin n) → Prop
  | scan {req rest} (hstrand : req.strand = "") (h : ScanPoint s req rest (s.stack t))
      (hrest : ∀ f ∈ rest, f.placing = false) : Placer s t none
  | push {w name call onDone strand rest}
      (hs : s.stack t = .push w name call onDone strand :: rest) (h : s.Least n w)
      (hrest : ∀ f ∈ rest, f.placing = false) : Placer s t none
  | notify {w rest} (hs : s.stack t = .notify w :: rest) (h : s.Least n w)
      (hrest : ∀ f ∈ rest, f.placing = false) : Placer s t (some w)
  | increment {w rest} (hs : s.stack t = .increment w :: rest) (h : s.Least n w)
      (hrest : ∀ f ∈ rest, f.placing = false) : Placer s t (some w)

/-- Other threads leave the scheduling thread where it is. -/
theorem Placer.congr {o : Option (Fin n)} (h : Placer s t o)
    (hload : ∀ v, (s'.worker v).getLoad = (s.worker v).getLoad)
    (hstack : s'.stack t = s.stack t) : Placer s' t o := by
  cases h with
  | scan hstrand h hrest => exact .scan hstrand (hstack ▸ h.congr hload) hrest
  | push hs h hrest => exact .push (hstack.trans hs) (h.congr hload) hrest
  | notify hs h hrest => exact .notify (hstack.trans hs) (h.congr hload) hrest
  | increment hs h hrest => exact .increment (hstack.trans hs) (h.congr hload) hrest

/-- What one step of the scheduling thread does: it goes on, pushes on the first of the least
loaded workers, or counts the job there and is done. -/
inductive PlacerStep (s s' : Sys T n) (t : Tid n) (a : Action T n) : Option (Fin n) → Prop
  | goesOn {o} (h : Placer s' t o) (hp : a.pushedTo = []) (hc : ∀ w, a ≠ .counted w) :
      PlacerStep s s' t a o
  | pushes {v} (h : Placer s' t (some v)) (hp : a.pushedTo = [v]) (hc : ∀ w, a ≠ .counted w) :
      PlacerStep s s' t a none
  | counts {v} (h : ∀ f ∈ s'.stack t, f.placing = false) (hv : s.Least n v)
      (ha : a = .counted v) : PlacerStep s s' t a (some v)

/-- The search for a worker touches nothing. -/
theorem Moves.scanning_tau (hm : Moves s t i mv) {f : Frame T n} {l : List (Frame T n)}
    (hs : s.stack t = f :: l) (hf : f.scanning = true) : mv.action = .tau := by
  have hne : f ≠ .user := by
    intro heq
    simp [heq, Frame.scanning] at hf
  have hnext := Sys.next_frame hm.next_eq hs hne
  cases f with
  | schedule req =>
    simp only [Sys.frameNext, Sys.scheduleNext] at hnext
    split at hnext <;> cases hnext
    rfl
  | scan req res it load =>
    obtain _ | a := load <;> simp only [Sys.frameNext, Sys.scanNext] at hnext
    · split at hnext
      · cases hnext
        rfl
      · split at hnext <;> cases hnext <;> rfl
    · split at hnext <;> cases hnext
      rfl
  | _ => cases hf

theorem Placer.scan_step {req : Request T} {rest l : List (Frame T n)} {f : Frame T n}
    (hstrand : req.strand = "") (h : ScanPoint s req rest (s.stack t))
    (hrest : ∀ f ∈ rest, f.placing = false) (hs : s.stack t = f :: l) (hf : f.scanning = true)
    (hm : Moves s t i mv) (hseq : InSequence s t mv) :
    PlacerStep s (s.apply t mv) t mv.action none := by
  have ha := hm.scanning_tau hs hf
  have hc : ∀ w, mv.action ≠ .counted w := by simp [ha]
  have hnext := (h.step rfl hstrand hs hf hm).1
  exact .goesOn (.scan hstrand (hnext.congr (hseq.load hc)) hrest) (by rw [ha]; rfl) hc

theorem Placer.push_step {name strand : String} {call onDone : Option (Callable T)}
    {rest : List (Frame T n)} (hs : s.stack t = .push w name call onDone strand :: rest)
    (h : s.Least n w) (hrest : ∀ f ∈ rest, f.placing = false) (hm : Moves s t i mv)
    (hseq : InSequence s t mv) : PlacerStep s (s.apply t mv) t mv.action none := by
  obtain rfl := hm.push_eq hs
  have hstack := Sys.apply_stack_self s t
    ⟨.pushed w ⟨call, onDone, name, s.mem.fresh⟩ strand, [.notify w], none, none⟩
  rw [hs] at hstack
  exact .pushes (.notify hstack (h.congr (hseq.load (by simp))) hrest) rfl (by simp)

theorem Placer.step {o : Option (Fin n)} (h : Placer s t o) (hm : Moves s t i mv)
    (hseq : InSequence s t mv) : PlacerStep s (s.apply t mv) t mv.action o := by
  cases h with
  | @scan req rest hstrand h hrest =>
    generalize hl : s.stack t = l at h
    cases h with
    | schedule => exact scan_step hstrand (hl ▸ .schedule) hrest hl rfl hm hseq
    | read h hi => exact scan_step hstrand (hl ▸ .read h hi) hrest hl rfl hm hseq
    | compare h hi => exact scan_step hstrand (hl ▸ .compare h hi) hrest hl rfl hm hseq
    | @place v h =>
      unfold Sys.place at hl
      split at hl
      · obtain rfl := hm.eq_of_frame hl (by simp) rfl
        have hstack := Sys.apply_stack_self s t (s.doSyncNext v req.name req.action req.onDone
          req.strand)
        rw [hl] at hstack
        refine .goesOn (.push hstack (h.congr (hseq.load (by simp [Sys.doSyncNext]))) ?_) rfl
          (by simp [Sys.doSyncNext])
        exact List.forall_mem_cons.mpr ⟨rfl, hrest⟩
      · exact push_step hl h hrest hm hseq
  | push hs h hrest => exact push_step hs h hrest hm hseq
  | @notify v rest hs h hrest =>
    obtain rfl := hm.eq_of_frame hs (by simp) rfl
    have hstack := Sys.apply_stack_self s t ⟨.signalled v, [.increment v], none, none⟩
    rw [hs] at hstack
    exact .goesOn (.increment hstack (h.congr (hseq.load (by simp))) hrest) rfl (by simp)
  | @increment v rest hs h hrest =>
    obtain rfl := hm.eq_of_frame hs (by simp) rfl
    refine .counts ?_ h rfl
    rw [Sys.apply_stack_self, hs]
    exact hrest

/-- The loads after the jobs counted so far; at most one more is being scheduled. -/
inductive Sequence (s₀ : Sys T n) (tr : History T n) (s : Sys T n) : Prop
  | idle (hg : Greedy s₀.loads (countTargets tr) s.loads) (hnone : s.NonePlacing)
      (hp : pushTargets tr = countTargets tr)
  | busy {t o} (hg : Greedy s₀.loads (countTargets tr) s.loads) (ht : Placer s t o)
      (hothers : ∀ u ≠ t, ∀ f ∈ s.stack u, f.placing = false)
      (hp : pushTargets tr = countTargets tr ++ o.toList)

/-- A thread that is not scheduling a job starts to, if it may, or changes no load. -/
theorem InSequence.starts (hseq : InSequence s t mv) (hm : Moves s t i mv)
    (hno : ∀ f ∈ s.stack t, f.placing = false) :
    (∀ f ∈ (s.apply t mv).stack t, f.placing = false) ∨
      s.NonePlacing ∧ Placer (s.apply t mv) t none := by
  rw [Sys.apply_stack_self]
  have htail : ∀ f ∈ (s.stack t).tail, f.placing = false :=
    fun f hf => hno f (List.mem_of_mem_tail hf)
  cases hfr : mv.frames with
  | nil => exact .inl htail
  | cons f l =>
    have hl : ∀ g ∈ l ++ (s.stack t).tail, g.placing = false := by
      intro g hg
      rcases List.mem_append.mp hg with hg | hg
      · exact Frame.not_placing_of_resting (hm.frames_resting g (by simpa [hfr] using hg))
      · exact htail g hg
    cases hf : f.placing with
    | false => exact .inl (List.forall_mem_cons.mpr ⟨hf, hl⟩)
    | true =>
      rcases hseq.turn f (by simp [hfr]) hf with ⟨g, hg, hplacing⟩ | ⟨hnone, req, rfl, hstrand⟩
      · exact absurd hplacing (by simp [hno g hg])
      · refine .inr ⟨hnone, .scan hstrand ?_ hl⟩
        rw [Sys.apply_stack_self, hfr]
        exact .schedule

theorem Placer.exists_placing {o : Option (Fin n)} (h : Placer s t o) :
    ∃ f ∈ s.stack t, f.placing = true := by
  cases h with
  | @scan req rest hstrand h hrest =>
    generalize s.stack t = l at h
    cases h with
    | place h =>
      refine ⟨_, List.mem_cons_self, ?_⟩
      unfold Sys.place
      split <;> rfl
    | _ => exact ⟨_, List.mem_cons_self, rfl⟩
  | push hs | notify hs | increment hs => exact ⟨_, hs ▸ List.mem_cons_self, rfl⟩

theorem Sequence.step (h : Sequence s₀ tr s) (hm : Moves s t i mv) (hseq : InSequence s t mv) :
    Sequence s₀ (tr ++ [(t, mv.action)]) (s.apply t mv) := by
  have hcount := countTargets_snoc tr t mv.action
  have hpush := pushTargets_snoc tr t mv.action
  have hcountNone (hc : ∀ w, mv.action ≠ .counted w) :
      countTargets (tr ++ [(t, mv.action)]) = countTargets tr := by
    rw [hcount, Action.countedAt_eq_nil hc, List.append_nil]
  have hsame (hc : ∀ w, mv.action ≠ .counted w)
      (hg : Greedy s₀.loads (countTargets tr) s.loads) :
      Greedy s₀.loads (countTargets (tr ++ [(t, mv.action)])) (s.apply t mv).loads := by
    have hload : (s.apply t mv).loads = s.loads :=
      funext fun v => congrArg BitVec.toNat (hseq.load hc v)
    rw [hcountNone hc, hload]
    exact hg
  cases h with
  | idle hg hnone hp =>
    obtain ⟨hno, -, hc⟩ := hm.counts_placing (hnone t)
    rw [hno, List.append_nil] at hpush
    rcases hseq.starts hm (hnone t) with hstack | ⟨-, hplacer⟩
    · refine .idle (hsame hc hg) (fun u f hf => ?_) (by rw [hpush, hcountNone hc, hp])
      by_cases hu : u = t
      · exact hstack f (hu ▸ hf)
      · exact hnone u f (Sys.apply_stack_other mv hu ▸ hf)
    · refine .busy (hsame hc hg) hplacer (fun u hu f hf => ?_)
        (by rw [hpush, hcountNone hc, hp]; exact (List.append_nil _).symm)
      exact hnone u f (Sys.apply_stack_other mv hu ▸ hf)
  | @busy u o hg hu hothers hp =>
    by_cases htu : t = u
    · subst htu
      have hothers' : ∀ v ≠ t, ∀ f ∈ (s.apply t mv).stack v, f.placing = false := by
        intro v hv f hf
        exact hothers v hv f (Sys.apply_stack_other mv hv ▸ hf)
      cases hu.step hm hseq with
      | goesOn h hno hc =>
        rw [hno, List.append_nil] at hpush
        exact .busy (hsame hc hg) h hothers' (by rw [hpush, hcountNone hc, hp])
      | @pushes v h hone hc =>
        rw [hone] at hpush
        refine .busy (hsame hc hg) h hothers' ?_
        rw [hpush, hcountNone hc, hp]
        simp
      | @counts v h hv ha =>
        have hone : mv.action.countedAt = [v] := by rw [ha]; rfl
        have hno : mv.action.pushedTo = [] := by rw [ha]; rfl
        rw [hone] at hcount
        rw [hno, List.append_nil] at hpush
        refine .idle ?_ (fun x f hf => ?_) (by rw [hpush, hcount, hp]; rfl)
        · rw [hcount, hseq.loads_counted ha]
          exact .place hg hv.firstLeast
        · by_cases hx : x = t
          · exact h f (hx ▸ hf)
          · exact hothers' x hx f hf
    · obtain ⟨hno, -, hc⟩ := hm.counts_placing (hothers t htu)
      rw [hno, List.append_nil] at hpush
      have hplacer : Placer (s.apply t mv) u o :=
        hu.congr (hseq.load hc) (Sys.apply_stack_other mv (Ne.symm htu))
      rcases hseq.starts hm (hothers t htu) with hstack | ⟨hnone, -⟩
      · refine .busy (hsame hc hg) hplacer (fun v hv f hf => ?_) (by rw [hpush, hcountNone hc, hp])
        by_cases hvt : v = t
        · exact hstack f (hvt ▸ hf)
        · exact hothers v hv f (Sys.apply_stack_other mv hvt ▸ hf)
      · obtain ⟨f, hf, hplacing⟩ := hu.exists_placing
        exact absurd hplacing (by simp [hnone u f hf])

theorem sequence (h₀ : s₀.NonePlacing)
    (h : ((pool T n).startAt s₀).Run (fun _ s i => Sequential s i) tr s) :
    Sequence s₀ tr s := by
  refine startAt_invariant (J := Sequence s₀) (.idle .start h₀ rfl) ?_ h
  intro tr s t i mv _ ih hok hm
  exact ih.step hm (hok mv hm)

/-- The job being scheduled continues the sequence of those counted. -/
theorem Sequence.exists_greedy (h : Sequence s₀ tr s) :
    ∃ L, Greedy s₀.loads (pushTargets tr) L := by
  cases h with
  | idle hg hnone hp => exact ⟨_, hp ▸ hg⟩
  | @busy u o hg hu hothers hp =>
    rw [hp]
    cases hu with
    | scan | push => exact ⟨_, (List.append_nil (countTargets tr)).symm ▸ hg⟩
    | notify _ hw | increment _ hw => exact ⟨_, .place hg hw.firstLeast⟩

/-- Jobs scheduled one after another from any state in which none is being scheduled: the gap
between the loads never exceeds the larger of the one at the start and one, it is at most one as
soon as the deficit at the start has been made up, and from equal loads the workers are taken in
turn. -/
theorem placement_balances (h₀ : s₀.NonePlacing)
    (h : ((pool T n).startAt s₀).Run (fun _ s i => Sequential s i) tr s) :
    gap s.loads ≤ max (gap s₀.loads) 1 ∧
    (deficit s₀.loads ≤ (countTargets tr).length → gap s.loads ≤ 1) ∧
    ∀ c, (∀ w, s₀.loads w = c) →
      ∀ (j : ℕ) (hj : j < (pushTargets tr).length), ((pushTargets tr)[j] : ℕ) = j % n := by
  have hseq := sequence h₀ h
  have hg : Greedy s₀.loads (countTargets tr) s.loads := by cases hseq <;> assumption
  refine ⟨hg.gap_le, hg.balanced, fun c hc => ?_⟩
  obtain ⟨L, hL⟩ := hseq.exists_greedy
  exact hL.getElem_eq hc

/-- Only thread `c` takes steps: it calls `scheduleJob` without a strand, or goes on in the call. -/
def schedules (c : Tid n) (s : Sys T n) : Tid n × Choice T n → Bool
  | (t, .call (.scheduleJob _ _ _ _ strand)) => t = c && (s.stack c).isEmpty && strand = ""
  | (t, .run) => t = c && (s.stack c).head?.any Frame.placing &&
      (List.finRange n).all fun w => s.loads w + 1 < 2 ^ 64
  | _ => false

theorem schedules_thread {c : Tid n} (hok : schedules c s (t, i) = true) : t = c := by
  cases i with
  | call op => cases op <;> simp_all [schedules]
  | run => simp_all [schedules]
  | ret b => cases hok

theorem schedules_inSequence {c : Tid n} (hothers : ∀ u ≠ c, s.stack u = [])
    (hok : schedules c s (t, i) = true) (hm : Moves s t i mv) : InSequence s t mv := by
  obtain rfl := schedules_thread hok
  cases i with
  | call op =>
    cases op with
    | scheduleJob name action onDone wait strand =>
      simp only [schedules, decide_true, Bool.true_and, Bool.and_eq_true, List.isEmpty_iff,
        decide_eq_true_eq] at hok
      obtain ⟨hnil, rfl⟩ := hok
      have hnone : s.NonePlacing := by
        intro u f hf
        have hu : s.stack u = [] := by
          by_cases hu : u = t
          · rw [hu, hnil]
          · exact hothers u hu
        exact absurd (hu ▸ hf) List.not_mem_nil
      cases hm with
      | call =>
        refine ⟨by simp, by simp, fun f hf _ => .inr ⟨hnone, ?_⟩, by simp⟩
        exact ⟨_, List.mem_singleton.mp hf, rfl⟩
      | callBack _ hs => rw [hnil] at hs; cases hs
    | _ => cases hok
  | run =>
    simp only [schedules, decide_true, Bool.true_and, Bool.and_eq_true, List.all_eq_true,
      List.mem_finRange, true_implies, decide_eq_true_eq, Option.any_eq_true] at hok
    obtain ⟨⟨f, htop, hplacing⟩, hroom⟩ := hok
    refine ⟨fun w j ha => ?_, fun w id js ha => ?_, fun _ _ _ => .inl ⟨f, ?_, hplacing⟩,
      fun w _ => hroom w⟩
    · simp [(hm.dequeued_inv ha).2.1] at htop
    · obtain ⟨⟨rest, hs⟩, -⟩ := hm.cancelled_inv ha
      obtain rfl : Frame.cancelScan id w [] = f := by simpa [hs] using htop
      cases hplacing
    · exact List.mem_of_head? htop
  | ret b => cases hok

/-- Two jobs are handed to the first of two workers. -/
def unevenRun : History .unit 2 × Sys .unit 2 :=
  let doJob := (Tid.client 0).calls (.doJob worker₀ "a" (some 0) none) 3
  (pool .unit 2).drive (fun _ _ i => i.1 = .client 0) (doJob ++ doJob)

/-- Three more go to the dispatcher, one after another. -/
def evenRun : History .unit 2 × Sys .unit 2 :=
  let scheduleJob := (Tid.client 0).calls (.scheduleJob "a" (some 0) none false "") 7
  ((pool .unit 2).startAt unevenRun.2).drive (fun _ s i => schedules (.client 0) s i)
    (scheduleJob ++ scheduleJob ++ scheduleJob)

theorem placement_balances_evenRun :
    gap unevenRun.2.loads = 2 ∧ deficit unevenRun.2.loads = 2 ∧
      countTargets evenRun.1 = [1, 1, 0] ∧ gap evenRun.2.loads ≤ 1 := by
  have h₁ : (pool .unit 2).Run (fun _ _ i => i.1 = .client 0) unevenRun.1 unevenRun.2 :=
    run_drive (fun _ _ _ hok => of_decide_eq_true hok) _
  have h₂ : ((pool .unit 2).startAt unevenRun.2).Run
      (fun _ s i => schedules (.client 0) s i = true) evenRun.1 evenRun.2 :=
    run_drive (fun _ _ _ hok => hok) _
  have hclient : ∀ t ∈ [Tid.client 0], unevenRun.2.stack t = [] :=
    List.forall_mem_singleton.mpr rfl
  have hnil : ∀ t, unevenRun.2.stack t = [] :=
    stacks_of_steps h₁ (P := fun l => l = []) rfl rfl hclient
  have hothers {tr : History .unit 2} {s : Sys .unit 2}
      (h : ((pool .unit 2).startAt unevenRun.2).Run
        (fun _ s i => schedules (.client 0) s i = true) tr s) :
      ∀ u ≠ Tid.client 0, s.stack u = [] := by
    refine startAt_invariant (J := fun _ s => ∀ u ≠ Tid.client 0, s.stack u = []) ?_ ?_ h
    · exact fun u _ => hnil u
    · intro tr s t i mv _ ih hok _ u hu
      rw [Sys.apply_stack_other mv (schedules_thread hok ▸ hu)]
      exact ih u hu
  have hseq : ((pool .unit 2).startAt unevenRun.2).Run (fun _ s i => Sequential s i) evenRun.1
      evenRun.2 :=
    (h₂.and_of hothers).mono fun _ _ _ h _ hm => schedules_inSequence h.2 h.1 hm
  have hnone : unevenRun.2.NonePlacing := fun t f hf => absurd (hnil t ▸ hf) List.not_mem_nil
  have hgap : gap unevenRun.2.loads = 2 := by decide +kernel
  have hdef : deficit unevenRun.2.loads = 2 := by decide +kernel
  have hcount : countTargets evenRun.1 = [1, 1, 0] := by decide +kernel
  refine ⟨hgap, hdef, hcount, (placement_balances hnone hseq).2.1 ?_⟩
  rw [hdef, hcount]
  decide

end ServiceLib
