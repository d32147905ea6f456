import ServiceLib.Framework.Refinement
import ServiceLib.Framework.Servers
import ServiceLib.Pool.Leaving
import ServiceLib.Pool.Strand

namespace ServiceLib

open Machine

variable {T : ArgTypes} {n : Nat} {ok : History T n → Sys T n → Tid n × Choice T n → Prop}
  {tr : History T n} {s : Sys T n} {t : Tid n} {i : Choice T n} {mv : Move T n}

/-- What an action is to somebody who sees queues, running jobs and strands only. -/
def Action.event : Action T n → Option (ServerEvent (Fin n) String (JobContext T))
  | .bound strand w => some (.bind strand w)
  | .pushed w j strand => some (.submit w j (if strand = "" then none else some strand))
  | .dequeued w j => some (.start w j)
  | .ended w j => some (.finish w j)
  | .cancelled w id _ => some (.drop w (AsyncWorker.cancelPredicate id))
  | .deactivated w => some (.close w)
  | .left w => some (.leave w)
  | _ => none

/-- The workers of the pool as servers. -/
def Sys.servers (s : Sys T n) : Servers (Fin n) String (JobContext T) where
  queue w := (s.worker w).calls
  running w := (s.pc w).current.head?
  bound := s.mem.strands
  closed w := (s.worker w).active = false
  gone w := s.pc w = .exited

theorem WorkerPc.length_current (p : WorkerPc T) : p.current.length ≤ 1 := by
  cases p <;> simp [current]

/-- A worker has nothing in its hands when it dequeues a job, and nothing after it has finished
one. -/
theorem Moves.running_step (hm : Moves s t i mv) (w : Fin n) :
    (s.apply t mv).servers.running w =
      (mv.action.event.elim s.servers s.servers.after).running w := by
  have hhands := hm.hands_step w
  have hold := (s.pc w).length_current
  have hnew := (s.setPc t mv.pc w).length_current
  have hkeep (hd : mv.action.dequeuedOn w = []) (he : mv.action.endedOn w = []) :
      (s.setPc t mv.pc w).current = (s.pc w).current := by
    rw [hd, he, List.append_nil, List.nil_append] at hhands
    exact hhands.symm
  change (s.setPc t mv.pc w).current.head? = _
  cases ha : mv.action with
  | dequeued v j =>
    by_cases hv : w = v
    · subst hv
      have htake : (s.pc w).current ++ [j] = (s.setPc t mv.pc w).current := by
        simpa [ha] using hhands
      have hempty : (s.pc w).current = [] := by
        rw [← htake, List.length_append, List.length_singleton] at hnew
        exact List.length_eq_zero_iff.mp (by omega)
      simp [← htake, hempty, Action.event, Servers.after]
    · rw [hkeep (by simp [ha, hv]) (by simp [ha])]
      simp [Action.event, Servers.after, Sys.servers, hv]
  | ended v j =>
    by_cases hv : w = v
    · subst hv
      have hgive : (s.pc w).current = j :: (s.setPc t mv.pc w).current := by
        simpa [ha] using hhands
      have hempty : (s.setPc t mv.pc w).current = [] := by
        rw [hgive, List.length_cons] at hold
        exact List.length_eq_zero_iff.mp (by omega)
      simp [hempty, Action.event, Servers.after]
    · rw [hkeep (by simp [ha]) (by simp [ha, hv])]
      simp [Action.event, Servers.after, Sys.servers, hv]
  | _ =>
    rw [hkeep (by simp [ha]) (by simp [ha])]
    rfl

theorem Moves.left_inv (hm : Moves s t i mv) {w : Fin n} (ha : mv.action = .left w) :
    t = .worker w ∧ s.pc w = .test ∧ (s.worker w).active = false ∧ mv.pc = some .exited := by
  cases hm <;> cases ha
  exact ⟨‹_›, ‹_›, ‹_›, rfl⟩

theorem Moves.gone_step (hm : Moves s t i mv) (w : Fin n) :
    (s.apply t mv).pc w = .exited ↔ s.pc w = .exited ∨ mv.action = .left w := by
  constructor
  · intro hp
    rcases hm.exits_from_test hp with hp | ⟨-, ha, -, -⟩
    · exact .inl hp
    · exact .inr ha
  · intro h
    rcases h with hp | ha
    · exact hm.exited_stays hp
    · obtain ⟨rfl, -, -, hpc⟩ := hm.left_inv ha
      rw [Sys.apply_pc, hpc]
      exact Function.update_self ..

theorem Sys.servers_queue (t : Tid n) (mv : Move T n) (w : Fin n) :
    (s.apply t mv).servers.queue w =
      (mv.action.event.elim s.servers s.servers.after).queue w := by
  change ((s.apply t mv).worker w).calls = _
  rw [Sys.apply_calls]
  cases mv.action <;>
    simp [Action.event, Servers.after, Sys.servers, Function.update_apply, AsyncWorker.removeIf]
  all_goals split <;> simp_all

/-- Each step of the pool is at most one event of the servers. -/
theorem Moves.servers_step (hm : Moves s t i mv) :
    (s.apply t mv).servers = mv.action.event.elim s.servers s.servers.after := by
  ext w x
  · rw [Sys.servers_queue]
  · rw [hm.running_step]
  · change (s.mem.perform t mv.action).strands w = some x ↔ _
    rw [Mem.perform_strands]
    cases mv.action <;> rfl
  · change ((s.apply t mv).worker w).active = false ↔ _
    rw [Sys.apply_active]
    cases mv.action <;>
      simp [Action.event, Servers.after, Sys.servers, Function.update_apply]
  · change (s.apply t mv).pc w = .exited ↔ _
    rw [hm.gone_step]
    cases mv.action <;>
      simp [Action.event, Servers.after, Sys.servers, Function.update_apply]
    tauto

theorem Moves.dequeued_free (hm : Moves s t i mv) {w : Fin n} {j : JobContext T}
    (ha : mv.action = .dequeued w j) : (s.pc w).current = [] ∧ s.pc w ≠ .exited := by
  cases hm <;> cases ha
  rename_i left ht hs hp hq hc
  rcases hp with hp | hp | hp <;> simp [hp, WorkerPc.current]

theorem Moves.ended_hand (hm : Moves s t i mv) {w : Fin n} {j : JobContext T}
    (ha : mv.action = .ended w j) : s.pc w = .finish j := by
  cases hm <;> cases ha
  assumption

theorem Moves.bound_inv (hm : Moves s t i mv) {w : Fin n} {strand : String}
    (ha : mv.action = .bound strand w) : ∀ v ∈ s.mem.strands strand, v = w := by
  cases hm <;> cases ha
  intro v hv
  rw [Option.mem_def.mp hv, Option.getD_some]

/-- Each event of the pool is one the servers admit. -/
theorem Moves.event_admitted (hrun : (pool T n).Run ok tr s) (hm : Moves s t i mv)
    {e : ServerEvent (Fin n) String (JobContext T)} (he : mv.action.event = some e) :
    s.servers.Admits e := by
  have hguard := hm.queue_guard
  cases ha : mv.action <;> rw [ha] at he hguard <;> cases he
  case bound strand w => exact hm.bound_inv ha
  case pushed w j strand =>
    obtain ⟨rest, hs, -⟩ := hm.pushed_inv ha
    have hf : (Frame.push w j.id j.action j.onDone strand).OnStrand s.mem.strands :=
      (strandBound hrun).frames t _ (hs ▸ List.mem_cons_self)
    intro k hk
    by_cases hne : strand = ""
    · simp [hne] at hk
    · obtain rfl : strand = k := by simpa [hne] using hk
      exact hf hne
  case dequeued w j =>
    obtain ⟨left, hc⟩ := hguard
    obtain ⟨hnil, hne⟩ := hm.dequeued_free ha
    refine ⟨?_, hne, ?_⟩
    · simp [Sys.servers, hnil]
    · simp [Sys.servers, hc]
  case ended w j => simp [Servers.Admits, Sys.servers, hm.ended_hand ha, WorkerPc.current]
  case cancelled w id js => trivial
  case deactivated w => exact hm.deactivated_inv ha
  case left w =>
    obtain ⟨-, hpc, hact, -⟩ := hm.left_inv ha
    exact ⟨hact, by simp [Sys.servers, hpc, WorkerPc.current]⟩

/-- The events of a history of the pool. -/
def events (tr : History T n) : List (ServerEvent (Fin n) String (JobContext T)) :=
  tr.filterMap fun e => e.2.event

theorem pool_servers (T : ArgTypes) (n : Nat)
    (ok : History T n → Sys T n → Tid n × Choice T n → Prop) :
    Refines (pool T n) (Servers.machine (Fin n) String (JobContext T)) ok (fun e => e.2.event)
      Sys.servers where
  init := by
    ext <;> simp [pool, Sys.init, Sys.servers, Servers.machine, Servers.init, Sys.worker, Mem.init,
      AsyncWorker.started, WorkerPc.current]
  hidden {tr s i e s'} _ _ hs he := by
    obtain ⟨mv, hm, rfl, rfl⟩ := pool_step hs
    have hnone : mv.action.event = none := he
    rw [hm.servers_step, hnone]
    rfl
  shown {tr s i e s' e'} hrun _ hs he := by
    obtain ⟨mv, hm, rfl, rfl⟩ := pool_step hs
    have hsome : mv.action.event = some e' := he
    refine ⟨e', ?_⟩
    rw [Servers.step_eq (hm.event_admitted hrun hsome), hm.servers_step, hsome]
    rfl

/-- The pool is a set of servers: in every interleaving, what its threads do to queues, running
jobs and strands is a run of the abstract servers that ends in what the state of the pool shows. -/
theorem pool_refines_servers (h : (pool T n).Run AnyStep tr s) :
    (Servers.machine (Fin n) String (JobContext T)).Run AnyStep (events tr) s.servers :=
  (pool_servers T n AnyStep).run h

theorem pool_refines_servers_strandRun :
    strandRun.2.servers.running 0 = some ⟨some (.client 0), some (.client 1), "a", 1⟩ ∧
      (Servers.machine (Fin 2) String (JobContext .unit)).Run AnyStep (events strandRun.1)
        strandRun.2.servers :=
  ⟨rfl, pool_refines_servers (run_drive (fun _ _ _ _ => trivial) _)⟩

end ServiceLib
