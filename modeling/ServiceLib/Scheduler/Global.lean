import ServiceLib.Framework.Transition
import Mathlib.Logic.Function.Basic

namespace ServiceLib

open Machine

/-- What `createScheduler` makes: the scheduler of the tests or a plain `InterfaceScheduler`. -/
inductive SchedulerKind
  | test
  | plain
  deriving DecidableEq

/-- The static variables of `Helper.cpp`. Scheduler objects are known by their number, `fresh` is
the number of the next one, and the mutex field holds the owner. -/
structure GlobalMem where
  theScheduler : Option Nat
  created : Bool
  sharedMutex : Option Nat
  defaultForTesting : Bool
  fresh : Nat

inductive GlobalOp
  | getGlobalScheduler
  | releaseGlobalScheduler
  | setGlobalSchedulerAsMocked (mocked : Bool)
  deriving DecidableEq

/-- Where a thread stands; `outside` is client code. -/
inductive GlobalPc
  | outside
  | getTest
  | getLock
  | getCreate
  | getAssign (k : Nat)
  | getMark
  | getUnlock
  | getReturn
  | releaseTest
  | releaseLock
  | releaseDelete
  | releaseClear
  | releaseMark
  | releaseUnlock
  | setMocked (mocked : Bool)
  deriving DecidableEq

inductive GlobalEvent
  | called (op : GlobalOp)
  | tau
  | locked
  | constructed (k : Nat) (kind : SchedulerKind)
  | deleted (k : Option Nat)
  | returned (r : Option Nat)
  deriving DecidableEq

structure GlobalState where
  mem : GlobalMem
  pc : Nat → GlobalPc

inductive GlobalChoice
  | call (op : GlobalOp)
  | run

def GlobalMem.init : GlobalMem := ⟨none, false, none, false, 0⟩

/-- The lambda of `getGlobalScheduler`. -/
def GlobalMem.createScheduler (m : GlobalMem) : SchedulerKind :=
  if m.defaultForTesting then .test else .plain

def GlobalOp.enter : GlobalOp → GlobalPc
  | .getGlobalScheduler => .getTest
  | .releaseGlobalScheduler => .releaseTest
  | .setGlobalSchedulerAsMocked mocked => .setMocked mocked

/-- One step of a thread inside a function of `Helper.cpp`. -/
def GlobalMem.next (m : GlobalMem) (t : Nat) :
    GlobalPc → Option (GlobalEvent × GlobalMem × GlobalPc)
  | .outside => none
  | .getTest => some (.tau, m, if m.created then .getReturn else .getLock)
  | .getLock =>
    if m.sharedMutex = none then some (.locked, { m with sharedMutex := some t }, .getCreate)
    else none
  -- `created` is not looked at again under the lock
  | .getCreate =>
    some (.constructed m.fresh m.createScheduler, { m with fresh := m.fresh + 1 },
      .getAssign m.fresh)
  | .getAssign k => some (.tau, { m with theScheduler := some k }, .getMark)
  | .getMark => some (.tau, { m with created := true }, .getUnlock)
  | .getUnlock => some (.tau, { m with sharedMutex := none }, .getReturn)
  | .getReturn => some (.returned m.theScheduler, m, .outside)
  | .releaseTest => some (.tau, m, if m.created then .releaseLock else .outside)
  | .releaseLock =>
    if m.sharedMutex = none then some (.locked, { m with sharedMutex := some t }, .releaseDelete)
    else none
  | .releaseDelete => some (.deleted m.theScheduler, m, .releaseClear)
  | .releaseClear => some (.tau, { m with theScheduler := none }, .releaseMark)
  | .releaseMark => some (.tau, { m with created := false }, .releaseUnlock)
  | .releaseUnlock => some (.tau, { m with sharedMutex := none }, .outside)
  | .setMocked mocked => some (.tau, { m with defaultForTesting := mocked }, .outside)

/-- Any number of threads that call the functions of `Helper.cpp`, interleaved step by step. -/
def globalScheduler : Machine GlobalState (Nat × GlobalChoice) (Nat × GlobalEvent) where
  init := ⟨.init, fun _ => .outside⟩
  step s i :=
    match i.2 with
    | .call op =>
      if s.pc i.1 = .outside then
        some ((i.1, .called op), { s with pc := Function.update s.pc i.1 op.enter })
      else none
    | .run => (s.mem.next i.1 (s.pc i.1)).map fun (e, m, p) =>
        ((i.1, e), ⟨m, Function.update s.pc i.1 p⟩)

variable {tr : List (Nat × GlobalEvent)} {s s' : GlobalState} {t : Nat} {c : GlobalChoice}
  {e : Nat × GlobalEvent}

/-- A step is a call from outside or a step inside a function. -/
theorem globalScheduler_step (h : globalScheduler.step s (t, c) = some (e, s')) :
    (∃ op, c = .call op ∧ s.pc t = .outside ∧ e = (t, .called op) ∧
      s' = { s with pc := Function.update s.pc t op.enter }) ∨
    (c = .run ∧ ∃ ev m p, s.mem.next t (s.pc t) = some (ev, m, p) ∧ e = (t, ev) ∧
      s' = ⟨m, Function.update s.pc t p⟩) := by
  cases c with
  | call op =>
    simp only [globalScheduler] at h
    split at h
    · rename_i hpc
      obtain ⟨rfl, rfl⟩ := Prod.mk.inj (Option.some.inj h)
      exact .inl ⟨op, rfl, hpc, rfl, rfl⟩
    · cases h
  | run =>
    obtain ⟨⟨ev, m, p⟩, hn, he⟩ := Option.map_eq_some_iff.mp h
    obtain ⟨rfl, rfl⟩ := Prod.mk.inj he
    exact .inr ⟨rfl, ev, m, p, hn, rfl, rfl⟩

/-- The scheduler objects made so far, oldest first. -/
def constructions (tr : List (Nat × GlobalEvent)) : List Nat :=
  tr.filterMap fun e =>
    match e.2 with
    | .constructed k _ => some k
    | _ => none

/-- The references `getGlobalScheduler` has returned so far. -/
def references (tr : List (Nat × GlobalEvent)) : List (Option Nat) :=
  tr.filterMap fun e =>
    match e.2 with
    | .returned r => some r
    | _ => none

def NoRelease : Nat × GlobalChoice → Bool
  | (_, .call .releaseGlobalScheduler) => false
  | _ => true

/-- A thread that takes `sharedMutex` to create a scheduler finds that there is none yet. -/
def LocksFirst (s : GlobalState) (t : Nat) : Bool :=
  match s.pc t with
  | .getLock => !s.mem.created
  | _ => true

abbrev OneCreator (s : GlobalState) (i : Nat × GlobalChoice) : Bool :=
  NoRelease i && LocksFirst s i.1

/-- The thread is not past `sharedMutex` in a call of `getGlobalScheduler`. -/
def GlobalPc.early : GlobalPc → Bool
  | .outside | .getTest | .getLock | .setMocked _ => true
  | _ => false

/-- The thread is about to leave `getGlobalScheduler` with a scheduler in place. -/
def GlobalPc.late : GlobalPc → Bool
  | .getUnlock | .getReturn => true
  | _ => false

/-- How far the one thread in the critical section has come. -/
inductive Creating (tr : List (Nat × GlobalEvent)) (s : GlobalState) (t : Nat) : Prop
  | create (hc : constructions tr = []) (hp : s.pc t = .getCreate)
  | assign (k : Nat) (hc : constructions tr = [k]) (hp : s.pc t = .getAssign k)
  | mark (k : Nat) (hc : constructions tr = [k]) (hp : s.pc t = .getMark)
      (hs : s.mem.theScheduler = some k)

/-- The life of the global scheduler as long as nobody releases it. -/
inductive GlobalPhase (tr : List (Nat × GlobalEvent)) (s : GlobalState) : Prop
  | before (hc : constructions tr = []) (hr : references tr = []) (hm : s.mem.created = false)
      (hpc : ∀ u, (s.pc u).early = true)
  | creating (t : Nat) (hat : Creating tr s t) (hr : references tr = [])
      (hm : s.mem.created = false) (hl : s.mem.sharedMutex = some t)
      (hpc : ∀ u, u ≠ t → (s.pc u).early = true)
  | made (k : Nat) (hc : constructions tr = [k]) (hr : ∀ r ∈ references tr, r = some k)
      (hm : s.mem.created = true) (hs : s.mem.theScheduler = some k)
      (hpc : ∀ u, (s.pc u).early = true ∨ (s.pc u).late = true)

@[simp] def GlobalEvent.constructs : GlobalEvent → List Nat
  | .constructed k _ => [k]
  | _ => []

@[simp] theorem constructions_snoc (tr : List (Nat × GlobalEvent)) (e : Nat × GlobalEvent) :
    constructions (tr ++ [e]) = constructions tr ++ e.2.constructs := by
  obtain ⟨t, ev⟩ := e
  cases ev <;> simp [constructions]

@[simp] theorem references_snoc (tr : List (Nat × GlobalEvent)) (t : Nat) (ev : GlobalEvent) :
    references (tr ++ [(t, ev)]) = references tr ++
      match ev with
      | .returned r => [r]
      | _ => [] := by
  cases ev <;> simp [references]

/-- What a thread that is not past the mutex can do. -/
theorem GlobalMem.next_early {m m' : GlobalMem} {p p' : GlobalPc} {ev : GlobalEvent}
    (h : m.next t p = some (ev, m', p')) (hp : p.early = true) :
    (p = .getLock ∧ m.sharedMutex = none ∧ ev = .locked ∧ p' = .getCreate ∧
      m' = { m with sharedMutex := some t }) ∨
    (ev = .tau ∧ m'.theScheduler = m.theScheduler ∧ m'.created = m.created ∧
      m'.sharedMutex = m.sharedMutex ∧ (p'.early = true ∨ m.created = true ∧ p' = .getReturn)) := by
  cases p <;> simp only [GlobalPc.early, Bool.false_eq_true] at hp
  case outside => cases h
  case getTest =>
    obtain ⟨rfl, rfl, rfl⟩ : GlobalEvent.tau = ev ∧ m = m' ∧ _ = p' := by
      simpa [GlobalMem.next] using h
    refine .inr ⟨rfl, rfl, rfl, rfl, ?_⟩
    by_cases hm : m.created = true
    · exact .inr ⟨hm, if_pos hm⟩
    · exact .inl (by simp [hm, GlobalPc.early])
  case getLock =>
    simp only [GlobalMem.next] at h
    split at h
    · rename_i hl
      cases h
      exact .inl ⟨rfl, hl, rfl, rfl, rfl⟩
    · cases h
  case setMocked mocked =>
    cases h
    exact .inr ⟨rfl, rfl, rfl, rfl, .inl rfl⟩

/-- What holds of the program counter of every thread holds after one of them moves, if it holds
of the new place. -/
theorem pcs_update {P : Nat → GlobalPc → Prop} {pc : Nat → GlobalPc} {p : GlobalPc}
    (h : ∀ u, P u (pc u)) (hp : P t p) (u : Nat) : P u (Function.update pc t p u) := by
  by_cases hu : u = t
  · subst hu
    rwa [Function.update_self]
  · rw [Function.update_of_ne hu]
    exact h u

theorem Creating.other {m : GlobalMem} {pc : Nat → GlobalPc} {u : Nat} {ev : GlobalEvent}
    (h : Creating tr s u) (hpc : pc u = s.pc u) (hs : m.theScheduler = s.mem.theScheduler)
    (hev : ev = .tau ∨ ∃ op, ev = .called op) : Creating (tr ++ [(t, ev)]) ⟨m, pc⟩ u := by
  have hsame : constructions (tr ++ [(t, ev)]) = constructions tr := by
    rcases hev with rfl | ⟨op, rfl⟩ <;> simp
  cases h with
  | create hc hp => exact .create (hsame.trans hc) (hpc.trans hp)
  | assign k hc hp => exact .assign k (hsame.trans hc) (hpc.trans hp)
  | mark k hc hp hs' => exact .mark k (hsame.trans hc) (hpc.trans hp) (hs.trans hs')

/-- A thread moves from one place outside the critical section to another. -/
theorem GlobalPhase.early_step (h : GlobalPhase tr s) {m : GlobalMem} {p : GlobalPc}
    {ev : GlobalEvent} (hev : ev = .tau ∨ ∃ op, ev = .called op)
    (hs : m.theScheduler = s.mem.theScheduler) (hm : m.created = s.mem.created)
    (hl : m.sharedMutex = s.mem.sharedMutex) (hfrom : (s.pc t).early = true)
    (hto : p.early = true ∨ s.mem.created = true ∧ p = .getReturn) :
    GlobalPhase (tr ++ [(t, ev)]) ⟨m, Function.update s.pc t p⟩ := by
  have hcs : constructions (tr ++ [(t, ev)]) = constructions tr := by
    rcases hev with rfl | ⟨op, rfl⟩ <;> simp
  have hrs : references (tr ++ [(t, ev)]) = references tr := by
    rcases hev with rfl | ⟨op, rfl⟩ <;> simp
  have hearly (hno : s.mem.created = false) : p.early = true := by
    rcases hto with hp | ⟨hyes, -⟩
    · exact hp
    · simp [hno] at hyes
  cases h with
  | before hc hr hm' hpc =>
    refine .before (hcs.trans hc) (hrs.trans hr) (hm.trans hm') ?_
    exact pcs_update (P := fun _ q => q.early = true) hpc (hearly hm')
  | creating u hat hr hm' hl' hpc =>
    have hu : u ≠ t := by
      intro heq
      subst heq
      cases hat with
      | create _ hp | assign _ _ hp | mark _ _ hp _ => simp [hp, GlobalPc.early] at hfrom
    refine .creating u (hat.other (Function.update_of_ne hu _ _) hs hev) (hrs.trans hr)
      (hm.trans hm') (hl.trans hl') ?_
    exact pcs_update (P := fun v q => v ≠ u → q.early = true) hpc fun _ => hearly hm'
  | made k hc hr hm' hs' hpc =>
    refine .made k (hcs.trans hc) (hrs ▸ hr) (hm.trans hm') (hs.trans hs') ?_
    refine pcs_update (P := fun _ q => q.early = true ∨ q.late = true) hpc ?_
    rcases hto with hp | ⟨-, rfl⟩
    · exact .inl hp
    · exact .inr rfl

/-- The thread in the critical section goes on there. -/
theorem Creating.step (h : Creating tr s t) (hr : references tr = [])
    (hm : s.mem.created = false) (hl : s.mem.sharedMutex = some t)
    (hpc : ∀ u, u ≠ t → (s.pc u).early = true) {m : GlobalMem} {p : GlobalPc} {ev : GlobalEvent}
    (hn : s.mem.next t (s.pc t) = some (ev, m, p)) :
    GlobalPhase (tr ++ [(t, ev)]) ⟨m, Function.update s.pc t p⟩ := by
  have hothers : ∀ u, u ≠ t → (Function.update s.pc t p u).early = true := fun u hu => by
    rw [Function.update_of_ne hu]
    exact hpc u hu
  have hself : Function.update s.pc t p t = p := Function.update_self ..
  cases h with
  | create hc hp =>
    rw [hp] at hn
    obtain ⟨rfl, rfl, rfl⟩ : GlobalEvent.constructed _ _ = ev ∧ _ = m ∧ _ = p := by
      simpa [GlobalMem.next] using hn
    exact .creating t (.assign s.mem.fresh (by simp [hc]) hself) (by simp [hr]) hm hl hothers
  | assign k hc hp =>
    rw [hp] at hn
    obtain ⟨rfl, rfl, rfl⟩ : GlobalEvent.tau = ev ∧ _ = m ∧ _ = p := by
      simpa [GlobalMem.next] using hn
    exact .creating t (.mark k (by simp [hc]) hself rfl) (by simp [hr]) hm hl hothers
  | mark k hc hp hs =>
    rw [hp] at hn
    obtain ⟨rfl, rfl, rfl⟩ : GlobalEvent.tau = ev ∧ _ = m ∧ _ = p := by
      simpa [GlobalMem.next] using hn
    refine .made k (by simp [hc]) (by simp [hr]) rfl hs fun u => ?_
    by_cases hu : u = t
    · subst hu
      exact .inr (congrArg GlobalPc.late hself)
    · exact .inl (hothers u hu)

theorem GlobalPhase.step (h : GlobalPhase tr s) (hok : OneCreator s (t, c) = true)
    (hs : globalScheduler.step s (t, c) = some (e, s')) : GlobalPhase (tr ++ [e]) s' := by
  simp only [OneCreator, Bool.and_eq_true] at hok
  rcases globalScheduler_step hs with ⟨op, rfl, hpc, rfl, rfl⟩ | ⟨rfl, ev, m, p, hn, rfl, rfl⟩
  · have henter : op.enter.early = true := by
      cases op
      case releaseGlobalScheduler => simp [NoRelease] at hok
      all_goals rfl
    exact h.early_step (.inr ⟨op, rfl⟩) rfl rfl rfl (by rw [hpc]; rfl) (.inl henter)
  by_cases hearly : (s.pc t).early = true
  · rcases GlobalMem.next_early hn hearly with ⟨hp, hfree, rfl, rfl, rfl⟩ | ⟨rfl, hs', hm, hl, hto⟩
    · have hno : s.mem.created = false := by simpa [LocksFirst, hp] using hok.2
      cases h with
      | before hc hr hm hpc =>
        refine .creating t (.create (by simpa using hc) (Function.update_self ..))
          (by simpa using hr) hm rfl fun u hu => ?_
        have hsame : Function.update s.pc t .getCreate u = s.pc u := Function.update_of_ne hu _ _
        exact (congrArg GlobalPc.early hsame).trans (hpc u)
      | creating u _ _ _ hl _ => simp [hfree] at hl
      | made k _ _ hm _ _ => simp [hno] at hm
    · exact h.early_step (.inl rfl) hs' hm hl hearly hto
  · cases h with
    | before _ _ _ hpc => exact absurd (hpc t) hearly
    | creating u hat hr hm hl hpc =>
      have hu : u = t := by
        by_contra hne
        exact hearly (hpc t (Ne.symm hne))
      subst hu
      exact hat.step hr hm hl hpc hn
    | made k hc hr hm hs' hpc =>
      have hlate : (s.pc t).late = true := (hpc t).resolve_left hearly
      cases hp : s.pc t <;> simp only [hp, GlobalPc.late, Bool.false_eq_true] at hlate
      case getUnlock =>
        rw [hp] at hn
        obtain ⟨rfl, rfl, rfl⟩ : GlobalEvent.tau = ev ∧ _ = m ∧ _ = p := by
          simpa [GlobalMem.next] using hn
        refine .made k (by simpa using hc) (by simpa using hr) hm hs' ?_
        exact pcs_update (P := fun _ q => q.early = true ∨ q.late = true) hpc (.inr rfl)
      case getReturn =>
        rw [hp] at hn
        obtain ⟨rfl, rfl, rfl⟩ : GlobalEvent.returned _ = ev ∧ _ = m ∧ _ = p := by
          simpa [GlobalMem.next] using hn
        refine .made k (by simpa using hc) ?_ hm hs' ?_
        · intro r hmem
          rw [references_snoc, hs'] at hmem
          rcases List.mem_append.mp hmem with hmem | hmem
          · exact hr r hmem
          · exact List.mem_singleton.mp hmem
        · exact pcs_update (P := fun _ q => q.early = true ∨ q.late = true) hpc (.inl rfl)

theorem globalPhase (h : globalScheduler.Run (fun _ s i => OneCreator s i) tr s) :
    GlobalPhase tr s := by
  refine h.invariant (.before rfl rfl rfl fun _ => rfl) ?_
  intro tr s i e s' _ hphase hok hs
  exact hphase.step hok hs

/-- Without a release at most one scheduler is made and every call returns it, if no thread takes
the mutex to create a scheduler where there already is one. -/
theorem global_scheduler_unique (h : globalScheduler.Run (fun _ s i => OneCreator s i) tr s) :
    (constructions tr).length ≤ 1 ∧
      ∀ r ∈ references tr, ∃ k, r = some k ∧ constructions tr = [k] := by
  cases globalPhase h with
  | before hc hr _ _ => simp [hc, hr]
  | creating _ hat hr _ _ _ =>
    cases hat with
    | create hc _ => simp [hc, hr]
    | assign k hc _ | mark k hc _ _ => simp [hc, hr]
  | made k hc hr _ _ _ =>
    refine ⟨by simp [hc], fun r hmem => ⟨k, hr r hmem, hc⟩⟩

/-- Thread `t` calls `getGlobalScheduler` and takes `k` steps in it. -/
def getsGlobal (t k : Nat) : List (Nat × GlobalChoice) :=
  (t, .call .getGlobalScheduler) :: List.replicate k (t, .run)

/-- Two threads, the second one after the first has made the scheduler. -/
def globalRun : List (Nat × GlobalEvent) × GlobalState :=
  globalScheduler.drive (fun _ s i => OneCreator s i)
    (getsGlobal 0 6 ++ getsGlobal 1 2 ++ List.replicate 1 (0, .run))

theorem global_scheduler_unique_globalRun :
    references globalRun.1 = [some 0, some 0] ∧ (constructions globalRun.1).length ≤ 1 := by
  have h : globalScheduler.Run (fun _ s i => OneCreator s i) globalRun.1 globalRun.2 :=
    run_drive (fun _ _ _ hok => hok) _
  exact ⟨rfl, (global_scheduler_unique h).1⟩

/-- Two threads read `created` before either has created anything. -/
def racingRun : List (Nat × GlobalEvent) × GlobalState :=
  globalScheduler.drive (fun _ _ i => NoRelease i)
    (getsGlobal 0 1 ++ getsGlobal 1 1 ++ List.replicate 6 (0, .run) ++ List.replicate 6 (1, .run))

/-- The second thread makes a scheduler of its own, and the two calls return different ones. -/
theorem global_scheduler_twice :
    ¬∀ (tr : List (Nat × GlobalEvent)) (s : GlobalState),
      globalScheduler.Run (fun _ _ i => NoRelease i) tr s →
        (constructions tr).length ≤ 1 ∧
          ∀ r ∈ references tr, ∃ k, r = some k ∧ constructions tr = [k] := by
  intro hclaim
  have h : globalScheduler.Run (fun _ _ i => NoRelease i) racingRun.1 racingRun.2 :=
    run_drive (fun _ _ _ hok => hok) _
  have htwo : (constructions racingRun.1).length = 2 := rfl
  have hone := (hclaim _ _ h).1
  omega

end ServiceLib
