import ServiceLib.Pool.Balance
import Mathlib.Algebra.BigOperators.Fin
import Mathlib.Data.Int.ModEq
import Mathlib.Data.List.ReduceOption

namespace ServiceLib

open Machine

variable {T : ArgTypes} {n : Nat} {s₀ s : Sys T n} {t : Tid n} {i : Choice T n} {mv : Move T n}
  {m : List (Option (Tid n × Action T n))}

/-- A call of `AsyncDispatcher::getStatistics` beside the threads of the pool, with the index of the
worker its loop comes to next. -/
structure Statistics (T : ArgTypes) (n : Nat) where
  sys : Sys T n
  asyncWorksCnt : SizeT
  totalLoad : SizeT
  index : ℕ

namespace Statistics

/-- The head of the function, called in some state of the pool. -/
def enter (s₀ : Sys T n) : Statistics T n := ⟨s₀, BitVec.ofNat 64 n, 0, 0⟩

/-- One round of the loop: a worker's load is read at once and added. -/
def getStatisticsNext (c : Statistics T n) : Option (Statistics T n) :=
  if h : c.index < n then
    some { c with totalLoad := c.totalLoad + (c.sys.worker ⟨c.index, h⟩).getLoad,
                  index := c.index + 1 }
  else none

/-- A step of the caller, or of any thread of the pool. -/
def step (c : Statistics T n) : Option (Tid n × Choice T n) →
    Option (Option (Tid n × Action T n) × Statistics T n)
  | none => c.getStatisticsNext.map fun c' => (none, c')
  | some i => ((pool T n).step c.sys i).map fun (e, s) => (some e, { c with sys := s })

end Statistics

/-- `getStatistics` and the pool, interleaved step by step. -/
def statistics (s₀ : Sys T n) :
    Machine (Statistics T n) (Option (Tid n × Choice T n)) (Option (Tid n × Action T n)) :=
  ⟨.enter s₀, Statistics.step⟩

/-- The load of the worker at the start, with every increment and decrement since. -/
def loadSince (s₀ : Sys T n) (m : History T n) (w : Fin n) : ℤ :=
  (s₀.worker w).getLoad.toNat + (countTargets m).count w - (dequeuedOn w m).length

/-- The number a worker contributes lies between these two at every moment of the call. -/
def Sys.LoadBetween (s₀ : Sys T n) (m : History T n) (w : Fin n) (d : ℤ) : Prop :=
  (s₀.worker w).getLoad.toNat - (dequeuedOn w m).length ≤ d ∧
    d ≤ (s₀.worker w).getLoad.toNat + (countTargets m).count w

/-- A cancel is the only step that sets a load anew. -/
def Action.erasesQueue : Action T n → Bool
  | .cancelled _ _ _ => true
  | _ => false

theorem toNat_add_modEq (x y : SizeT) :
    ((x + y).toNat : ℤ) ≡ x.toNat + y.toNat [ZMOD 2 ^ 64] := by
  rw [BitVec.toNat_add, Int.ModEq]
  omega

theorem toNat_sub_one_modEq (x : SizeT) : ((x - 1).toNat : ℤ) ≡ x.toNat - 1 [ZMOD 2 ^ 64] := by
  have hone : (1 : SizeT).toNat = 1 := rfl
  rw [BitVec.toNat_sub, hone, Int.ModEq]
  omega

/-- A step changes a load by what it counts and what it takes, if it does not end a cancel. -/
theorem Sys.load_step (s₀ : Sys T n) {s : Sys T n} (hno : mv.action.erasesQueue = false)
    {m : History T n} {w : Fin n}
    (h : ((s.worker w).getLoad.toNat : ℤ) ≡ loadSince s₀ m w [ZMOD 2 ^ 64]) :
    (((s.apply t mv).worker w).getLoad.toNat : ℤ) ≡ loadSince s₀ (m ++ [(t, mv.action)]) w
      [ZMOD 2 ^ 64] := by
  rw [AsyncWorker.getLoad] at h
  rw [AsyncWorker.getLoad, Sys.apply_load, loadSince, countTargets_snoc, dequeuedOn_snoc,
    List.count_append, List.length_append]
  cases ha : mv.action with
  | counted v =>
    by_cases hw : w = v
    · subst hw
      have hadd := (toNat_add_modEq (s.worker w).outstandingJobs 1).trans (h.add_right 1)
      simpa [Action.countedAt, loadSince, add_assoc, add_sub_right_comm] using hadd
    · simpa [Action.countedAt, hw, Ne.symm hw, loadSince] using h
  | dequeued v j =>
    by_cases hw : w = v
    · subst hw
      have hsub := (toNat_sub_one_modEq (s.worker w).outstandingJobs).trans (h.sub_right 1)
      simpa [Action.countedAt, loadSince, sub_sub] using hsub
    · simpa [Action.countedAt, hw, loadSince] using h
  | cancelled v id js => simp [ha, Action.erasesQueue] at hno
  | _ => simpa [Action.countedAt, loadSince] using h

theorem loadSince_between {p m : History T n} (h : p <+: m) (w : Fin n) :
    s₀.LoadBetween m w (loadSince s₀ p w) := by
  obtain ⟨q, rfl⟩ := h
  unfold Sys.LoadBetween loadSince
  have hcounted : (countTargets (p ++ q)).count w =
      (countTargets p).count w + (countTargets q).count w := by
    rw [countTargets, List.flatMap_append, List.count_append, ← countTargets, ← countTargets]
  rw [hcounted, dequeuedOn_append, List.length_append]
  omega

/-- The loop has read some workers, each of them as it stood at a moment of the call. -/
structure Reads (s₀ : Sys T n) (m : List (Option (Tid n × Action T n))) (c : Statistics T n) :
    Prop where
  run : ((pool T n).startAt s₀).Run AnyStep m.reduceOption c.sys
  size : c.asyncWorksCnt = BitVec.ofNat 64 n
  loads : ∀ w, ((c.sys.worker w).getLoad.toNat : ℤ) ≡ loadSince s₀ m.reduceOption w [ZMOD 2 ^ 64]
  total : ∃ d : Fin n → ℤ, (c.totalLoad.toNat : ℤ) ≡ ∑ w, d w [ZMOD 2 ^ 64] ∧
    (∀ w : Fin n, (w : ℕ) < c.index → ∃ p, p <+: m.reduceOption ∧ d w = loadSince s₀ p w) ∧
    ∀ w : Fin n, c.index ≤ w → d w = 0

theorem Reads.start : Reads s₀ [] (.enter s₀) where
  run := .start
  size := rfl
  loads w := by simp [loadSince, countTargets, dequeuedOn, Statistics.enter]
  total := ⟨fun _ => 0, by simp [Statistics.enter], fun w hw => absurd hw (Nat.not_lt_zero w),
    fun _ _ => rfl⟩

theorem sum_update_zero {d : Fin n → ℤ} {v : Fin n} (h : d v = 0) (x : ℤ) :
    ∑ w, Function.update d v x w = ∑ w, d w + x := by
  rw [Finset.sum_update_of_mem (Finset.mem_univ v), ← Finset.sum_sdiff (Finset.subset_univ {v}),
    Finset.sum_singleton, h, add_zero, add_comm]

/-- A round of the loop reads one worker more. -/
theorem Reads.read {c c' : Statistics T n} (h : Reads s₀ m c)
    (hc : c.getStatisticsNext = some c') : Reads s₀ (m ++ [none]) c' := by
  have hm : (m ++ [none]).reduceOption = m.reduceOption := by
    simp [List.reduceOption_append]
  unfold Statistics.getStatisticsNext at hc
  split at hc
  · rename_i hlt
    cases hc
    obtain ⟨d, htotal, hread, hnot⟩ := h.total
    refine ⟨hm ▸ h.run, h.size, hm ▸ h.loads,
      Function.update d ⟨c.index, hlt⟩ (loadSince s₀ m.reduceOption ⟨c.index, hlt⟩), ?_, ?_, ?_⟩
    · rw [sum_update_zero (hnot _ le_rfl)]
      exact (toNat_add_modEq _ _).trans (htotal.add (h.loads _))
    · intro w hw
      rw [hm]
      by_cases heq : w = ⟨c.index, hlt⟩
      · subst heq
        exact ⟨_, List.prefix_rfl, Function.update_self ..⟩
      · rw [Function.update_of_ne heq]
        refine hread w ?_
        have hne : (w : ℕ) ≠ c.index := fun h => heq (Fin.ext h)
        simp only at hw
        omega
    · intro w hw
      have hne : w ≠ ⟨c.index, hlt⟩ := by
        rintro rfl
        simp only at hw
        omega
      rw [Function.update_of_ne hne]
      exact hnot w (by simp only at hw; omega)
  · cases hc

/-- What the threads of the pool do meanwhile changes nothing that has been read. -/
theorem Reads.pool {c : Statistics T n} (h : Reads s₀ m c) (hm : Moves c.sys t i mv)
    (hno : mv.action.erasesQueue = false) :
    Reads s₀ (m ++ [some (t, mv.action)]) { c with sys := c.sys.apply t mv } := by
  have hsnoc : (m ++ [some (t, mv.action)]).reduceOption = m.reduceOption ++ [(t, mv.action)] := by
    simp [List.reduceOption_append]
  refine ⟨?_, h.size, ?_, ?_⟩
  · rw [hsnoc]
    exact h.run.next trivial hm.step_eq
  · intro w
    rw [hsnoc]
    exact Sys.load_step s₀ hno (h.loads w)
  · obtain ⟨d, htotal, hread, hnot⟩ := h.total
    refine ⟨d, htotal, fun w hw => ?_, hnot⟩
    obtain ⟨p, hp, hd⟩ := hread w hw
    exact ⟨p, hsnoc ▸ hp.trans (List.prefix_append _ _), hd⟩

/-- A call of `getStatistics` disturbs nobody and gives the size of the pool and, modulo 2^64, a sum
with one load for each worker: the load the worker had at some moment of the call, so that it is off
from the one at the start by no more than what is counted and what is taken there meanwhile. The
call must not overlap the end of a cancel, which sets a load anew. -/
theorem getStatistics_between {c : Statistics T n} (h : (statistics s₀).Run AnyStep m c)
    (hno : ∀ e ∈ m.reduceOption, e.2.erasesQueue = false) (hend : c.getStatisticsNext = none) :
    ((pool T n).startAt s₀).Run AnyStep m.reduceOption c.sys ∧
      c.asyncWorksCnt = BitVec.ofNat 64 n ∧
      ∃ d : Fin n → ℤ, (c.totalLoad.toNat : ℤ) ≡ ∑ w, d w [ZMOD 2 ^ 64] ∧
        ∀ w, (∃ p, p <+: m.reduceOption ∧ d w = loadSince s₀ p w) ∧
          s₀.LoadBetween m.reduceOption w (d w) := by
  have hreads : Reads s₀ m c := by
    revert hno
    refine h.invariant (J := fun m c => (∀ e ∈ m.reduceOption, e.2.erasesQueue = false) →
      Reads s₀ m c) (fun _ => .start) ?_
    intro m c j e c' _ ih _ hs hno
    have hno₀ : ∀ e ∈ m.reduceOption, e.2.erasesQueue = false := fun x hx =>
      hno x (by rw [List.reduceOption_append]; exact List.mem_append_left _ hx)
    cases j with
    | none =>
      obtain ⟨c'', hc, hc'⟩ := Option.map_eq_some_iff.mp hs
      cases hc'
      exact (ih hno₀).read hc
    | some j =>
      obtain ⟨⟨a, s'⟩, hs', hc'⟩ := Option.map_eq_some_iff.mp hs
      cases hc'
      obtain ⟨mv, hm, rfl, rfl⟩ := pool_step hs'
      refine (ih hno₀).pool hm (hno (j.1, mv.action) ?_)
      rw [List.reduceOption_append]
      exact List.mem_append_right _ (by simp)
  obtain ⟨d, htotal, hread, -⟩ := hreads.total
  refine ⟨hreads.run, hreads.size, d, htotal, fun w => ?_⟩
  have hall : (w : ℕ) < c.index := by
    unfold Statistics.getStatisticsNext at hend
    split at hend
    · cases hend
    · have hw := w.isLt
      omega
  obtain ⟨p, hp, hd⟩ := hread w hall
  exact ⟨⟨p, hp, hd⟩, hd ▸ loadSince_between hp w⟩

/-- A job is pushed on the second worker when the first one has been read. -/
def statisticsRun : List (Option (Tid 2 × Action .unit 2)) × Statistics .unit 2 :=
  (statistics .init).drive (fun _ _ _ => true)
    (none :: ((Tid.client 0).calls (.doJob worker₁ "a" none none) 3).map some ++ [none])

theorem getStatistics_between_statisticsRun : statisticsRun.2.totalLoad = 1 ∧
    ∃ d : Fin 2 → ℤ, 1 ≡ ∑ w, d w [ZMOD 2 ^ 64] ∧
      ∀ w, Sys.LoadBetween .init statisticsRun.1.reduceOption w (d w) := by
  have h : (statistics .init).Run AnyStep statisticsRun.1 statisticsRun.2 :=
    run_drive (fun _ _ _ _ => trivial) _
  have hnone : statisticsRun.1.reduceOption.all (fun e => !e.2.erasesQueue) = true := rfl
  have hno : ∀ e ∈ statisticsRun.1.reduceOption, e.2.erasesQueue = false := by
    simpa using List.all_eq_true.mp hnone
  obtain ⟨-, -, d, htotal, hd⟩ := getStatistics_between h hno rfl
  exact ⟨rfl, d, htotal, fun w => (hd w).2⟩

end ServiceLib
