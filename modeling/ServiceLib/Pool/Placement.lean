import ServiceLib.Pool.Load
import Mathlib.Data.Fintype.Card

namespace ServiceLib

open Machine

variable {T : ArgTypes} {n : Nat} {ok : History T n → Sys T n → Tid n × Choice T n → Prop}
  {tr : History T n} {s s' : Sys T n} {t : Tid n} {w : Fin n} {req : Request T}
  {rest : List (Frame T n)}

/-- The first of the least loaded among the workers before position `it`. -/
structure Sys.Least (s : Sys T n) (it : Nat) (res : Fin n) : Prop where
  seen : res < it
  least : ∀ v : Fin n, v < it → (s.worker res).getLoad.toNat ≤ (s.worker v).getLoad.toNat
  first : ∀ v < res, (s.worker res).getLoad.toNat < (s.worker v).getLoad.toNat

/-- One comparison of `min_element`. -/
theorem Sys.Least.next {it : Nat} {res : Fin n} (h : s.Least it res) (hi : it < n) :
    s.Least (it + 1)
      (if (s.worker ⟨it, hi⟩).getLoad < (s.worker res).getLoad then ⟨it, hi⟩ else res) := by
  obtain ⟨hseen, hleast, hfirst⟩ := h
  have hcases (v : Fin n) (hv : v < it + 1) : v < it ∨ v = ⟨it, hi⟩ := by
    rcases Nat.lt_succ_iff_lt_or_eq.mp hv with hv | hv
    · exact .inl hv
    · exact .inr (Fin.ext hv)
  split
  · rename_i hlt
    have hlt' := BitVec.lt_def.mp hlt
    refine ⟨Nat.lt_succ_self it, fun v hv => ?_, fun v hv => ?_⟩
    · rcases hcases v hv with hv | rfl
      · exact (hlt'.trans_le (hleast v hv)).le
      · exact le_rfl
    · exact hlt'.trans_le (hleast v hv)
  · rename_i hge
    have hge' := Nat.not_lt.mp fun h => hge (BitVec.lt_def.mpr h)
    refine ⟨Nat.lt_succ_of_lt hseen, fun v hv => ?_, hfirst⟩
    rcases hcases v hv with hv | rfl
    · exact hleast v hv
    · exact hge'

/-- The frames of `getWorkerForSchedule` up to the end of `min_element`. -/
def Frame.scanning : Frame T n → Bool
  | .schedule _ | .scan _ _ _ _ => true
  | _ => false

/-- The states a thread comes to while it alone runs a `scheduleJob` call without a strand, up to
the choice of the worker. -/
inductive Scans (s : Sys T n) (t : Tid n) : Sys T n → Prop
  | call {name action onDone wait mv}
      (hm : Moves s t (.call (.scheduleJob name action onDone wait "")) mv) :
      Scans s t (s.apply t mv)
  | next {s' f rest mv} (h : Scans s t s') (hs : s'.stack t = f :: rest)
      (hf : f.scanning = true) (hm : Moves s' t .run mv) : Scans s t (s'.apply t mv)

/-- The call ends its search on worker `w`, where it goes on to `doJob` or `doSyncJob`. -/
def Places (s : Sys T n) (t : Tid n) (w : Fin n) : Prop :=
  ∃ s' req rest, Scans s t s' ∧ s'.stack t = Sys.place req w :: rest

/-- Where such a call stands. -/
inductive ScanPoint (s : Sys T n) (req : Request T) (rest : List (Frame T n)) :
    List (Frame T n) → Prop
  | schedule : ScanPoint s req rest (.schedule req :: rest)
  | read {it res} (h : s.Least it res) (hi : it ≤ n) :
      ScanPoint s req rest (.scan req res it none :: rest)
  | compare {it res} (h : s.Least it res) (hi : it < n) :
      ScanPoint s req rest (.scan req res it (some (s.worker ⟨it, hi⟩).getLoad) :: rest)
  | place {v} (h : s.Least n v) : ScanPoint s req rest (Sys.place req v :: rest)

theorem Sys.least_start (h0 : 0 < n) : s.Least 1 ⟨0, h0⟩ := by
  refine ⟨Nat.one_pos, fun v hv => ?_, fun v hv => absurd hv (Nat.not_lt_zero _)⟩
  have hv0 : v = ⟨0, h0⟩ := Fin.ext (Nat.lt_one_iff.mp hv)
  exact hv0 ▸ le_rfl

theorem ScanPoint.step (hp : ScanPoint s req rest (s'.stack t)) (hmem : s'.mem = s.mem)
    (hstrand : req.strand = "") {f : Frame T n} {l : List (Frame T n)} {i : Choice T n}
    {mv : Move T n} (hs : s'.stack t = f :: l) (hf : f.scanning = true) (hm : Moves s' t i mv) :
    ScanPoint s req rest ((s'.apply t mv).stack t) ∧ (s'.apply t mv).mem = s.mem := by
  have hne : f ≠ .user := by
    intro heq
    simp [heq, Frame.scanning] at hf
  have hstep := Sys.next_frame hm.next_eq hs hne
  have hworker (w : Fin n) : s'.worker w = s.worker w := congrFun (congrArg Mem.workers hmem) w
  rw [Sys.apply_stack_self, hs, List.tail_cons, Sys.apply_mem]
  rw [hs] at hp
  cases hp with
  | schedule =>
    simp only [Sys.frameNext, Sys.scheduleNext] at hstep
    split at hstep
    · rename_i h0
      obtain rfl := Option.some.inj hstep
      exact ⟨.read (Sys.least_start h0) h0, hmem⟩
    · cases hstep
  | @read it res h hi =>
    simp only [Sys.frameNext, Sys.scanNext, hworker, hstrand, if_true] at hstep
    split at hstep
    · rename_i hlt
      obtain rfl := Option.some.inj hstep
      exact ⟨.compare h hlt, hmem⟩
    · rename_i hge
      obtain rfl : it = n := by omega
      obtain rfl := Option.some.inj hstep
      exact ⟨.place h, hmem⟩
  | @compare it res h hi =>
    simp only [Sys.frameNext, Sys.scanNext, hworker, dif_pos hi] at hstep
    obtain rfl := Option.some.inj hstep
    exact ⟨.read (h.next hi) hi, hmem⟩
  | place =>
    unfold Sys.place at hf
    split at hf <;> simp [Frame.scanning] at hf

theorem Scans.point (h : Scans s t s') :
    (∃ req rest, req.strand = "" ∧ ScanPoint s req rest (s'.stack t)) ∧ s'.mem = s.mem := by
  induction h with
  | @call name action onDone wait mv hm =>
    refine ⟨⟨⟨name, action.map .client, onDone.map .client, wait, ""⟩,
      mv.frames.tail ++ (s.stack t).tail, rfl, ?_⟩, ?_⟩
    · rw [Sys.apply_stack_self]
      cases hm <;> exact .schedule
    · cases hm <;> rfl
  | next _ hs hf hm ih =>
    obtain ⟨⟨req, rest, hstrand, hp⟩, hmem⟩ := ih
    obtain ⟨hp', hmem'⟩ := hp.step hmem hstrand hs hf hm
    exact ⟨⟨req, rest, hstrand, hp'⟩, hmem'⟩

theorem Sys.place_inj {req req' : Request T} {w w' : Fin n}
    (h : Sys.place req w = Sys.place req' w') : w = w' := by
  unfold Sys.place at h
  split at h <;> split at h <;> simp_all

theorem Sys.place_scanning (req : Request T) (w : Fin n) :
    (Sys.place req w).scanning = false := by
  unfold Sys.place
  split <;> rfl

/-- A call made in this state ends on the worker with the least load in it. -/
theorem Places.least (h : Places s t w) : s.Least n w := by
  obtain ⟨s', req, rest, hscan, hs⟩ := h
  obtain ⟨⟨req', rest', -, hp⟩, -⟩ := hscan.point
  generalize hl : s'.stack t = l at hp
  have hplace := Sys.place_scanning req w
  cases hp with
  | place h =>
    obtain ⟨heq, -⟩ := List.cons.inj (hl.symm.trans hs)
    exact Sys.place_inj heq ▸ h
  | _ =>
    obtain ⟨heq, -⟩ := List.cons.inj (hl.symm.trans hs)
    rw [← heq] at hplace
    cases hplace

theorem Scans.goes_on (h : Scans s t s') {f : Frame T n} {mv : Move T n}
    (hs : s'.stack t = f :: rest) (hf : f.scanning = true) (hm : Moves s' t .run mv) :
    ∃ s₁, Scans s t s₁ ∧ s₁.stack t = mv.frames ++ rest :=
  ⟨_, h.next hs hf hm, by rw [Sys.apply_stack_self, hs, List.tail_cons]⟩

theorem Scans.places (h : Scans s t s') {res : Fin n} {it : Nat}
    (hs : s'.stack t = .scan req res it none :: rest) (hstrand : req.strand = "") (hi : it ≤ n) :
    ∃ w, Places s t w := by
  induction hk : n - it generalizing s' res it with
  | zero =>
    have hend : ¬it < n := by omega
    obtain ⟨s₁, h₁, hs₁⟩ := h.goes_on hs rfl (.scanPlace hs hend hstrand)
    exact ⟨res, s₁, req, rest, h₁, hs₁⟩
  | succ k ih =>
    have hlt : it < n := by omega
    obtain ⟨s₁, h₁, hs₁⟩ := h.goes_on hs rfl (.scanRead hs hlt)
    obtain ⟨s₂, h₂, hs₂⟩ := h₁.goes_on hs₁ rfl (.scanCompare hs₁ hlt)
    exact ih h₂ hs₂ hlt (by omega)

/-- The jobs a worker has in its queue or in hand. -/
def Sys.unfinished (s : Sys T n) (w : Fin n) : List (JobContext T) :=
  (s.worker w).calls ++ (s.pc w).current

/-- No thread is between a push and its increment. -/
def Sys.Counted (s : Sys T n) : Prop := ∀ t, topCount (s.stack t) = none

/-- A worker whose counter does not show its unfinished job comes after an idle one. -/
def Sys.IdleFirst (s : Sys T n) : Prop :=
  ∀ v, s.unfinished v ≠ [] → (s.worker v).getLoad = 0 → ∃ u < v, s.unfinished u = []

theorem load_idle (h : (pool T n).Run (fun tr s i => CancelsCounted tr s i.1) tr s)
    (hc : s.Counted) (hw : s.unfinished w = []) : (s.worker w).getLoad = 0 := by
  have hacc := accounts h (countedAtCancels h w)
  have hnone : uncounted w tr = [] := uncounted_eq_nil h fun t => by simp [hc t]
  have hcalls : (s.worker w).calls = [] := (List.append_eq_nil_iff.mp hw).1
  rw [Accounts, hnone, hcalls] at hacc
  simpa [AsyncWorker.getLoad] using hacc

/-- The first of the least loaded workers is idle exactly if idle ones come first. -/
theorem Sys.Least.idle_iff (h : (pool T n).Run (fun tr s i => CancelsCounted tr s i.1) tr s)
    (hc : s.Counted) {u : Fin n} (hu : s.unfinished u = []) (hw : s.Least n w) :
    s.IdleFirst ↔ s.unfinished w = [] := by
  have hload : (s.worker w).getLoad = 0 := by
    have hle := hw.least u u.isLt
    rw [load_idle h hc hu] at hle
    exact BitVec.eq_of_toNat_eq (Nat.le_zero.mp hle)
  constructor
  · intro hfirst
    by_contra hbusy
    obtain ⟨v, hv, hidle⟩ := hfirst w hbusy hload
    have hlt := hw.first v hv
    rw [load_idle h hc hidle] at hlt
    exact Nat.not_lt_zero _ hlt
  · intro hidle v hbusy hzero
    have hne : v ≠ w := fun heq => hbusy (heq ▸ hidle)
    refine ⟨w, lt_of_le_of_ne (Fin.not_lt.mp fun hv => ?_) hne.symm, hidle⟩
    have hlt := hw.first v hv
    rw [hzero] at hlt
    exact Nat.not_lt_zero _ hlt

/-- Jobs scheduled one after another on an idle pool, none of which has finished when the next call
is made: the histories and states before the calls, the workers chosen and the jobs. -/
structure Batch (k : Nat) (tr : Fin k → History T n) (s : Fin k → Sys T n) (w : Fin k → Fin n)
    (j : Fin k → JobContext T) : Prop where
  run : ∀ i, (pool T n).Run (fun tr s i => CancelsCounted tr s i.1) (tr i) (s i)
  ordered : ∀ i i', i ≤ i' → tr i <+: tr i'
  counted : ∀ i, (s i).Counted
  placed : ∀ i, ∃ t, Places (s i) t (w i)
  held : ∀ i, ∀ i' < i, j i' ∈ (s i).unfinished (w i')
  others : ∀ i v, ∀ x ∈ (s i).unfinished v, ∃ i' < i, w i' = v ∧ x = j i'

/-- Fewer calls than workers leave a worker idle. -/
theorem Batch.exists_idle {k : Nat} {tr : Fin k → History T n} {s : Fin k → Sys T n}
    {w : Fin k → Fin n} {j : Fin k → JobContext T} (h : Batch k tr s w j) (hk : k ≤ n) (i : Fin k) :
    ∃ u, (s i).unfinished u = [] := by
  by_contra hbusy
  rw [not_exists] at hbusy
  have hsource (u : Fin n) : ∃ i' < i, w i' = u := by
    obtain ⟨x, hx⟩ := List.exists_mem_of_ne_nil _ (hbusy u)
    obtain ⟨i', hi', hw, -⟩ := h.others i u x hx
    exact ⟨i', hi', hw⟩
  choose f hf hw using hsource
  let g (u : Fin n) : Fin i := ⟨f u, hf u⟩
  have hinj : Function.Injective g := fun u v huv => by
    rw [← hw u, ← hw v, Fin.ext (Fin.mk.inj huv)]
  have hcard : n ≤ i := by simpa using Fintype.card_le_of_injective g hinj
  have hi := i.isLt
  omega

theorem Batch.injective {k : Nat} {tr : Fin k → History T n} {s : Fin k → Sys T n}
    {w : Fin k → Fin n} {j : Fin k → JobContext T} (h : Batch k tr s w j) (hk : k ≤ n)
    (hfirst : ∀ i, (s i).IdleFirst) : Function.Injective w := by
  have hne (i i' : Fin k) (hi : i' < i) : w i' ≠ w i := by
    intro heq
    obtain ⟨u, hu⟩ := h.exists_idle hk i
    obtain ⟨t, ht⟩ := h.placed i
    have hidle := (ht.least.idle_iff (h.run i) (h.counted i) hu).mp (hfirst i)
    have hheld := h.held i i' hi
    rw [heq, hidle] at hheld
    exact absurd hheld List.not_mem_nil
  intro i i' heq
  rcases lt_trichotomy i i' with hi | rfl | hi
  · exact absurd heq (hne i' i hi)
  · rfl
  · exact absurd heq.symm (hne i i' hi)

end ServiceLib
