import ServiceLib.Model.Callbacks
import ServiceLib.Pool.RunLoop

namespace ServiceLib

open Machine

variable {T : ArgTypes} {n : Nat} {ok : History T n → Sys T n → Tid n × Choice T n → Prop}
  {tr : History T n} {s : Sys T n} {t : Tid n} {i : Choice T n} {mv : Move T n} {w : Fin n}
  {j : JobContext T}

/-- The worker's thread is not between the begin of an action and the end of the `onDone`. -/
def WorkerPc.away : WorkerPc T → Bool
  | .inAction _ | .onDone _ | .inOnDone _ => false
  | _ => true

/-- What the thread of worker `w` has done since it began the action of its current job: `o` are
its steps, `l` the functions in progress on it, `r` what the last one ended with. -/
inductive Progress (w : Fin n) (o : List (Action T n)) (l : List (Frame T n)) (r : Outcome) :
    WorkerPc T → Prop
  | away {p} (hp : p.away = true) (hl : l = []) : Progress w o l r p
  | inAction {j c a seg} (hc : j.action = some c) (ho : o = a ++ .actionBegan w j :: seg)
      (h : InRun c seg l r) : Progress w o l r (.inAction j)
  | onDone {j c a seg} (hc : j.action = some c) (hl : l = [])
      (ho : o = a ++ .actionBegan w j :: (seg ++ [.actionEnded w j])) (h : Runs c seg) :
      Progress w o l r (.onDone j)
  | inClient {j c d a seg rest} (hc : j.action = some c) (hd : j.onDone = some d)
      (hp : d.plain = true)
      (ho : o = a ++ .actionBegan w j :: (seg ++ .actionEnded w j :: .onDoneBegan w j :: rest))
      (h : Runs c seg) (hrest : InRun d rest l r) : Progress w o l r (.inOnDone j)
  | inSyncDone {j c d k a seg rest} (hc : j.action = some c)
      (hd : j.onDone = some (.syncDone d k))
      (ho : o = a ++ .actionBegan w j :: (seg ++ .actionEnded w j :: .onDoneBegan w j :: rest))
      (h : Runs c seg) (hrest : InSyncDone d k rest l) : Progress w o l r (.inOnDone j)

/-- The progress of worker `w` in a state with its history. -/
def Sys.Progresses (s : Sys T n) (w : Fin n) (tr : History T n) : Prop :=
  Progress w (own (.worker w) tr) (s.stack (.worker w)) (s.result (.worker w)) (s.pc w)

theorem JobContext.formed_action {j : JobContext T} (h : j.formed = true) {c : Callable T}
    (hc : j.action = some c) : c.plain = true := by
  simp only [formed, hc, Option.all_some, Bool.and_eq_true] at h
  exact h.1

theorem JobContext.formed_onDone {j : JobContext T} (h : j.formed = true) {c : Callable T}
    (hc : j.onDone = some c) : c.closure = true := by
  simp only [formed, hc, Option.all_some, Bool.and_eq_true] at h
  exact h.2

/-- A step inside a callback of the worker. -/
theorem Sys.Progresses.inside (h : s.Progresses w tr) (hf : s.Formed)
    (hm : Moves s (.worker w) i mv) (hne : s.stack (.worker w) ≠ []) :
    (s.apply (.worker w) mv).Progresses w (tr ++ [(.worker w, mv.action)]) := by
  have hpc := (hm.pc_frame w fun _ => hne).1
  have hcur : ∀ j ∈ (s.pc w).current, j.formed = true := hf.running w
  unfold Progresses at h ⊢
  rw [own_snoc_self, Sys.apply_stack_self, Sys.apply_pc, hpc]
  generalize s.pc w = p at h hcur ⊢
  cases h with
  | away _ hl | onDone _ hl => exact absurd hl hne
  | @inAction j c a seg hc ho h =>
    have hplain := JobContext.formed_action (hcur j (by simp [WorkerPc.current])) hc
    refine .inAction hc (a := a) ?_ (h.step hplain hne (List.append_nil _).symm hm)
    rw [ho, List.append_assoc, List.cons_append]
  | @inClient j c d a seg rest hc hd hp ho h hrest =>
    refine .inClient hc hd hp (a := a) ?_ h (hrest.step hp hne (List.append_nil _).symm hm)
    rw [ho]
    simp
  | @inSyncDone j c d k a seg rest hc hd ho h hrest =>
    have hclosure := JobContext.formed_onDone (hcur j (by simp [WorkerPc.current])) hd
    refine .inSyncDone hc hd (a := a) ?_ h (hrest.step hclosure hne rfl hm)
    rw [ho]
    simp

/-- A step of the run loop of the worker. -/
theorem Sys.Progresses.loop (h : s.Progresses w tr) (hf : s.Formed)
    (hm : Moves s (.worker w) i mv) (hnil : s.stack (.worker w) = []) :
    (s.apply (.worker w) mv).Progresses w (tr ++ [(.worker w, mv.action)]) := by
  have hstack : (s.apply (.worker w) mv).stack (.worker w) = mv.frames := by
    rw [Sys.apply_stack_self, hnil, List.tail_nil, List.append_nil]
  unfold Progresses at h ⊢
  rw [own_snoc_self, hstack, Sys.apply_pc]
  cases hm
  case beginAction v j c ht _ hp hc =>
    obtain rfl := Tid.worker.inj ht
    rw [Sys.setPc_worker, Function.update_self]
    exact .inAction hc rfl .start
  case endAction v j ht _ hp b hr =>
    obtain rfl := Tid.worker.inj ht
    rw [Sys.setPc_worker, Function.update_self]
    rw [hp, hnil, hr] at h
    cases h with
    | away hp _ => cases hp
    | @inAction _ c a seg hc ho h =>
      rcases h.ended with hruns | ⟨-, e, he⟩
      · refine .onDone hc rfl (a := a) ?_ hruns
        rw [ho, List.append_assoc, List.cons_append]
      · cases he
  case beginOnDone v j c ht _ hp hc =>
    obtain rfl := Tid.worker.inj ht
    have hclosure := JobContext.formed_onDone (hf.running w j (by simp [hp, WorkerPc.current])) hc
    rw [Sys.setPc_worker, Function.update_self]
    rw [hp] at h
    cases h with
    | away hp _ => cases hp
    | @onDone _ c' a seg hc' hl ho h =>
      have hbegun : own (.worker w) tr ++ [.onDoneBegan w j] =
          a ++ .actionBegan w j :: (seg ++ .actionEnded w j :: .onDoneBegan w j :: []) := by
        rw [ho]
        simp
      cases c with
      | client f => exact .inClient hc' hc rfl hbegun h .start
      | bound => cases hclosure
      | syncDone d k => exact .inSyncDone hc' hc hbegun h .start
  case enterLoop v ht _ hp _ | leave v ht _ hp _ | dequeue v _ _ ht _ hp _ _
      | sleep v ht _ hp _ _ _ | pass v ht _ hp _ _ | «begin» v _ ht _ hp _
      | noOnDone v _ ht _ hp _ | endOnDone v _ ht _ hp | finish v _ ht _ hp =>
    obtain rfl := Tid.worker.inj ht
    rw [Sys.setPc_worker, Function.update_self]
    exact .away rfl rfl
  all_goals simp_all

theorem progresses (h : (pool T n).Run ok tr s) (w : Fin n) : s.Progresses w tr := by
  refine pool_invariant (J := fun tr s => s.Progresses w tr) (.away rfl rfl) ?_ h
  intro tr s t i mv hrun ih _ hm
  by_cases ht : t = .worker w
  · subst ht
    by_cases hnil : s.stack (.worker w) = []
    · exact ih.loop (formed hrun) hm hnil
    · exact ih.inside (formed hrun) hm hnil
  · have hpc := (hm.pc_frame w fun h => absurd h ht).1
    unfold Sys.Progresses
    rw [own_snoc_other ht, Sys.apply_stack_other mv (Ne.symm ht),
      Sys.apply_result_other (Ne.symm ht), Sys.apply_pc, hpc]
    exact ih

/-- Worker `w` has run the job: among the steps of its thread are the begin of the action, one run
of its function object and its end, and right after that the same of the `onDone`, if there is
one. -/
def Ran (w : Fin n) (j : JobContext T) (tr : History T n) : Prop :=
  ∃ c a seg rest, j.action = some c ∧ Runs c seg ∧
    own (.worker w) tr = a ++ .actionBegan w j :: (seg ++ .actionEnded w j :: rest) ∧
    ∀ d ∈ j.onDone, ∃ done rest', DoneRuns d done ∧
      rest = .onDoneBegan w j :: (done ++ .onDoneEnded w j :: rest')

theorem Ran.ended (h : Ran w j tr) : (.worker w, .actionEnded w j) ∈ tr := by
  obtain ⟨c, a, seg, rest, -, -, ho, -⟩ := h
  exact mem_of_own (by simp [ho])

theorem Moves.actionEnded_inv (hm : Moves s t i mv) (ha : mv.action = .actionEnded w j) :
    t = .worker w ∧ s.stack t = [] ∧ s.pc w = .inAction j ∧ ∃ b, s.result t = .ret b := by
  cases hm <;> cases ha
  subst_vars
  exact ⟨rfl, ‹_›, ‹_›, _, ‹_›⟩

theorem Moves.onDoneEnded_inv (hm : Moves s t i mv) (ha : mv.action = .onDoneEnded w j) :
    t = .worker w ∧ s.stack t = [] ∧ s.pc w = .inOnDone j := by
  cases hm <;> cases ha
  exact ⟨‹_›, ‹_›, ‹_›⟩

/-- Where an action has ended, its function object has been run once since the begin. -/
theorem action_ran (h : (pool T n).Run ok tr s) (he : (t, .actionEnded w j) ∈ tr) :
    ∃ c a seg rest, j.action = some c ∧ Runs c seg ∧
      own (.worker w) tr = a ++ .actionBegan w j :: (seg ++ .actionEnded w j :: rest) := by
  obtain ⟨l, r, rfl⟩ := List.append_of_mem he
  obtain ⟨s₀, i, mv, h₀, -, hm, ha⟩ := pool_at_label h rfl
  obtain ⟨rfl, hs, hp, b, hr⟩ := hm.actionEnded_inv ha
  have hprog := progresses h₀ w
  unfold Sys.Progresses at hprog
  rw [hp, hs, hr] at hprog
  cases hprog with
  | away hp _ => cases hp
  | @inAction _ c a seg hc ho hrun =>
    rcases hrun.ended with hruns | ⟨-, e, he⟩
    · refine ⟨c, a, seg, own (.worker w) r, hc, hruns, ?_⟩
      rw [own_append_cons, ho, List.append_assoc, List.cons_append]
    · cases he

/-- Where an `onDone` has ended, action and `onDone` have been run once since the begin. -/
theorem onDone_ran (h : (pool T n).Run ok tr s) (he : (t, .onDoneEnded w j) ∈ tr) :
    Ran w j tr := by
  obtain ⟨l, r, rfl⟩ := List.append_of_mem he
  obtain ⟨s₀, i, mv, h₀, -, hm, ha⟩ := pool_at_label h rfl
  obtain ⟨rfl, hs, hp⟩ := hm.onDoneEnded_inv ha
  have hcur := (formed h₀).running w j (by simp [hp, WorkerPc.current])
  have hprog := progresses h₀ w
  unfold Sys.Progresses at hprog
  rw [hp, hs] at hprog
  have hran {c d a seg done} (hc : j.action = some c) (hd : j.onDone = some d)
      (ho : own (.worker w) l = a ++ .actionBegan w j ::
        (seg ++ .actionEnded w j :: .onDoneBegan w j :: done))
      (hruns : Runs c seg) (hdone : DoneRuns d done) :
      Ran w j (l ++ (.worker w, .onDoneEnded w j) :: r) := by
    refine ⟨c, a, seg, .onDoneBegan w j :: (done ++ .onDoneEnded w j :: own (.worker w) r), hc,
      hruns, ?_, fun d' hd' => ?_⟩
    · rw [own_append_cons, ho]
      simp
    · obtain rfl := Option.some.inj (hd.symm.trans hd')
      exact ⟨done, _, hdone, rfl⟩
  cases hprog with
  | away hp _ => cases hp
  | @inClient _ c d a seg done hc hd hplain ho hruns hdone =>
    have hclosure := JobContext.formed_onDone hcur hd
    refine hran hc hd ho hruns ?_
    cases d with
    | client f => exact hdone.ended.resolve_right fun hno => by cases hno.1
    | bound => cases hclosure
    | syncDone => cases hplain
  | inSyncDone hc hd ho hruns hdone => exact hran hc hd ho hruns (hdone.runs rfl)

/-- Whose action has ended, and whose `onDone` if there is one, has been run. -/
theorem ran_of_ended (h : (pool T n).Run ok tr s) (ha : (t, .actionEnded w j) ∈ tr)
    (hd : j.onDone.isSome → (t, .onDoneEnded w j) ∈ tr) : Ran w j tr := by
  cases hj : j.onDone with
  | some d => exact onDone_ran h (hd (by simp [hj]))
  | none =>
    obtain ⟨c, a, seg, rest, hc, hruns, ho⟩ := action_ran h ha
    exact ⟨c, a, seg, rest, hc, hruns, ho, by simp [hj]⟩

/-- All jobs a worker has finished have been run. -/
theorem Executes.ran (h : (pool T n).Run ok tr s) {js : List (JobContext T)}
    (hjs : Executes w tr s js) (hj : j ∈ js) : Ran w j tr := by
  have hstep : ∀ a ∈ execution w j, a.runsOn w → (.worker w, a) ∈ tr := by
    intro a ha hr
    have hmem : a ∈ jobSteps w tr := by
      rw [hjs.2.1]
      exact List.mem_append_left _ (List.mem_flatMap.mpr ⟨j, hj, ha⟩)
    obtain ⟨-, t, ht⟩ := mem_jobSteps.mp hmem
    exact job_thread h ht hr ▸ ht
  refine ran_of_ended h (hstep _ (by simp [execution]) (by simp [Action.runsOn])) ?_
  intro hd
  exact hstep _ (by simp [execution, hd]) (by simp [Action.runsOn])

end ServiceLib
