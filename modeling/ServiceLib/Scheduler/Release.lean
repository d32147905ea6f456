import ServiceLib.Scheduler.Global

namespace ServiceLib

open Machine

variable {ok : List (Nat × GlobalEvent) → GlobalState → Nat × GlobalChoice → Prop}
  {tr : List (Nat × GlobalEvent)} {s s' : GlobalState} {t : Nat} {c : GlobalChoice}
  {e : Nat × GlobalEvent} {ev : GlobalEvent} {m m' : GlobalMem} {p p' : GlobalPc} {d : List Nat}

/-- The thread holds `sharedMutex`. -/
def GlobalPc.inside : GlobalPc → Bool
  | .getCreate | .getAssign _ | .getMark | .getUnlock | .releaseDelete | .releaseClear
  | .releaseMark | .releaseUnlock => true
  | _ => false

def GlobalEvent.deletes : GlobalEvent → List Nat
  | .deleted (some k) => [k]
  | _ => []

/-- The scheduler objects deleted so far, oldest first. -/
def deletions (tr : List (Nat × GlobalEvent)) : List Nat := tr.flatMap fun e => e.2.deletes

@[simp] theorem deletions_snoc (tr : List (Nat × GlobalEvent)) (e : Nat × GlobalEvent) :
    deletions (tr ++ [e]) = deletions tr ++ e.2.deletes := by
  simp [deletions]

/-- Where the thread that holds `sharedMutex` stands, if there is one. -/
def GlobalState.holder (s : GlobalState) : Option GlobalPc := s.mem.sharedMutex.map s.pc

/-- The mutex is held by the one thread that is in a critical section. -/
def Exclusive (s : GlobalState) : Prop :=
  ∀ t, (s.pc t).inside = true ↔ s.mem.sharedMutex = some t

/-- The step changes nothing that the critical sections protect. -/
structure LeavesAlone (m m' : GlobalMem) (ev : GlobalEvent) : Prop where
  deletes : ev.deletes = []
  constructs : ev.constructs = []
  theScheduler : m'.theScheduler = m.theScheduler
  created : m'.created = m.created
  fresh : m'.fresh = m.fresh

/-- What a step outside the critical sections can do. -/
theorem GlobalMem.next_outside (h : m.next t p = some (ev, m', p')) (hp : p.inside = false) :
    LeavesAlone m m' ev ∧
      ((m'.sharedMutex = m.sharedMutex ∧ p'.inside = false) ∨
        m.sharedMutex = none ∧ m'.sharedMutex = some t ∧
          (p = .getLock ∧ p' = .getCreate ∨ p = .releaseLock ∧ p' = .releaseDelete)) := by
  cases p <;> simp only [GlobalPc.inside, reduceCtorEq] at hp
  case getTest | releaseTest =>
    simp only [GlobalMem.next, Option.some.injEq, Prod.mk.injEq] at h
    obtain ⟨rfl, rfl, rfl⟩ := h
    refine ⟨⟨rfl, rfl, rfl, rfl, rfl⟩, .inl ⟨rfl, ?_⟩⟩
    split <;> rfl
  case getLock | releaseLock =>
    simp only [GlobalMem.next] at h
    split at h
    · rename_i hl
      cases h
      exact ⟨⟨rfl, rfl, rfl, rfl, rfl⟩, .inr ⟨hl, rfl, by simp⟩⟩
    · cases h
  all_goals
    cases h <;> exact ⟨⟨rfl, rfl, rfl, rfl, rfl⟩, .inl ⟨rfl, rfl⟩⟩

/-- The owner of the mutex keeps it until it leaves its critical section. -/
theorem GlobalMem.next_inside (h : m.next t p = some (ev, m', p')) (hp : p.inside = true) :
    m'.sharedMutex = if p'.inside then m.sharedMutex else none := by
  cases p <;> simp only [GlobalPc.inside, reduceCtorEq] at hp
  all_goals
    cases h
    rfl

theorem Exclusive.holder (h : Exclusive s) (ht : (s.pc t).inside = true) :
    s.holder = some (s.pc t) := by
  rw [GlobalState.holder, (h t).mp ht]
  rfl

/-- A step of a thread that is and stays outside keeps the holder and its place. -/
theorem Exclusive.outside (h : Exclusive s) (ht : (s.pc t).inside = false)
    (hp : p.inside = false) (hm : m.sharedMutex = s.mem.sharedMutex) :
    Exclusive ⟨m, Function.update s.pc t p⟩ ∧
      GlobalState.holder ⟨m, Function.update s.pc t p⟩ = s.holder := by
  have hne {u : Nat} (hu : s.mem.sharedMutex = some u) : u ≠ t := by
    rintro rfl
    rw [(h u).mpr hu] at ht
    cases ht
  constructor
  · intro u
    change (Function.update s.pc t p u).inside = true ↔ m.sharedMutex = some u
    rw [hm]
    by_cases hu : u = t
    · subst hu
      rw [Function.update_self, hp]
      exact ⟨fun hin => (by cases hin), fun hu => absurd rfl (hne hu)⟩
    · rw [Function.update_of_ne hu]
      exact h u
  · unfold GlobalState.holder
    rw [hm]
    cases hu : s.mem.sharedMutex with
    | none => rfl
    | some u => exact congrArg some (Function.update_of_ne (hne hu) ..)

/-- The thread that gets the mutex, or has it, is the only one inside while it has it. -/
theorem Exclusive.entered (h : ∀ u, u ≠ t → (s.pc u).inside = false)
    (hm : m.sharedMutex = if p.inside then some t else none) :
    Exclusive ⟨m, Function.update s.pc t p⟩ ∧
      GlobalState.holder ⟨m, Function.update s.pc t p⟩ = if p.inside then some p else none := by
  constructor
  · intro u
    change (Function.update s.pc t p u).inside = true ↔ m.sharedMutex = some u
    rw [hm]
    by_cases hu : u = t
    · subst hu
      rw [Function.update_self]
      cases p.inside <;> simp
    · rw [Function.update_of_ne hu, h u hu]
      cases p.inside <;> simp [Ne.symm hu]
  · unfold GlobalState.holder
    rw [hm]
    cases p.inside with
    | false => rfl
    | true => exact congrArg some (Function.update_self ..)

/-- Every step is one of the thread in a critical section, or one outside that leaves all alone and
may enter a critical section. -/
theorem Exclusive.step (h : Exclusive s) (hs : globalScheduler.step s (t, c) = some (e, s')) :
    Exclusive s' ∧
      (LeavesAlone s.mem s'.mem e.2 ∧ (s'.holder = s.holder ∨ s.holder = none ∧
        (s.pc t = .getLock ∧ s'.holder = some .getCreate ∨
          s.pc t = .releaseLock ∧ s'.holder = some .releaseDelete)) ∨
      ∃ p p', s.holder = some p ∧ s.mem.next t p = some (e.2, s'.mem, p') ∧
        p.inside = true ∧ s'.holder = if p'.inside then some p' else none) := by
  have hothers (hfree : s.mem.sharedMutex = none ∨ s.mem.sharedMutex = some t) (u) (hu : u ≠ t) :
      (s.pc u).inside = false := by
    refine Bool.eq_false_iff.mpr fun hin => ?_
    have howner := (h u).mp hin
    rcases hfree with hfree | hfree
    · rw [hfree] at howner
      cases howner
    · exact hu (Option.some.inj (howner.symm.trans hfree))
  rcases globalScheduler_step hs with ⟨op, rfl, hpc, rfl, rfl⟩ | ⟨rfl, ev, m, p, hn, rfl, rfl⟩
  · obtain ⟨hx, hh⟩ := h.outside (p := op.enter) (by rw [hpc]; rfl) (by cases op <;> rfl) rfl
    exact ⟨hx, .inl ⟨⟨rfl, rfl, rfl, rfl, rfl⟩, .inl hh⟩⟩
  · cases hin : (s.pc t).inside with
    | true =>
      have howner := (h t).mp hin
      have hm := GlobalMem.next_inside hn hin
      rw [howner] at hm
      obtain ⟨hx, hh⟩ := Exclusive.entered (hothers (.inr howner)) hm
      exact ⟨hx, .inr ⟨s.pc t, p, h.holder hin, hn, hin, hh⟩⟩
    | false =>
      obtain ⟨hsame, ⟨hm, hp⟩ | ⟨hfree, hm, hto⟩⟩ := GlobalMem.next_outside hn hin
      · obtain ⟨hx, hh⟩ := h.outside hin hp hm
        exact ⟨hx, .inl ⟨hsame, .inl hh⟩⟩
      · have hpin : p.inside = true := by
          rcases hto with ⟨-, rfl⟩ | ⟨-, rfl⟩ <;> rfl
        obtain ⟨hx, hh⟩ := Exclusive.entered (p := p) (hothers (.inl hfree)) (by rw [hm, hpin]; rfl)
        rw [hpin, if_pos rfl] at hh
        refine ⟨hx, .inl ⟨hsame, .inr ⟨congrArg (Option.map s.pc) hfree, ?_⟩⟩⟩
        rcases hto with ⟨hfrom, rfl⟩ | ⟨hfrom, rfl⟩
        · exact .inl ⟨hfrom, hh⟩
        · exact .inr ⟨hfrom, hh⟩

theorem exclusive (h : globalScheduler.Run ok tr s) : Exclusive s := by
  refine h.invariant (J := fun _ s => Exclusive s) ?_ ?_
  · exact fun t => ⟨fun hin => (by cases hin), fun ho => (by cases ho)⟩
  · intro tr s i e s' _ ih _ hs
    exact (ih.step (t := i.1) (c := i.2) hs).1

/-- What the memory and the place `p` of the holder say about the objects made so far: `m.fresh` of
them, those in `d` deleted. -/
structure Coherent (m : GlobalMem) (d : List Nat) (p : Option GlobalPc) : Prop where
  nodup : d.Nodup
  old : ∀ k ∈ d, k < m.fresh
  current : ∀ k ∈ m.theScheduler, k < m.fresh ∧ (k ∈ d → p = some .releaseClear)
  transit : ∀ k, p = some (.getAssign k) → k < m.fresh ∧ k ∉ d
  made : m.created = true → m.theScheduler ≠ none ∨ p = some .releaseMark
  marked : p = some .getMark ∨ p = some .getUnlock → m.theScheduler ≠ none

/-- `delete theScheduler` deletes an object that has not been deleted, or nothing. -/
theorem Coherent.delete (h : Coherent m d (some .releaseDelete)) :
    Coherent m (d ++ (GlobalEvent.deleted m.theScheduler).deletes) (some .releaseClear) := by
  obtain ⟨hnodup, hold, hcurrent, -, hmade, -⟩ := h
  have hkept : m.created = true → m.theScheduler ≠ none ∨ some GlobalPc.releaseClear =
      some .releaseMark := fun hc => (hmade hc).imp id fun hp => by cases hp
  cases hs : m.theScheduler with
  | none =>
    simp only [GlobalEvent.deletes, List.append_nil]
    exact ⟨hnodup, hold, by simp [hs], by simp, hkept, by simp⟩
  | some k =>
    obtain ⟨hlt, hdead⟩ := hcurrent k hs
    have hlive : k ∉ d := fun hk => by cases hdead hk
    simp only [GlobalEvent.deletes]
    refine ⟨?_, ?_, ?_, by simp, hkept, by simp⟩
    · refine List.nodup_append.mpr ⟨hnodup, by simp, ?_⟩
      rintro a ha b hb rfl
      exact hlive (List.mem_singleton.mp hb ▸ ha)
    · exact List.forall_mem_append.mpr ⟨hold, List.forall_mem_singleton.mpr hlt⟩
    · rintro k' hk'
      obtain rfl := Option.some.inj (hs.symm.trans hk')
      exact ⟨hlt, fun _ => rfl⟩

/-- A step in a critical section keeps the objects coherent. -/
theorem Coherent.inside (h : Coherent m d (some p)) (hn : m.next t p = some (ev, m', p'))
    (hp : p.inside = true) :
    Coherent m' (d ++ ev.deletes) (if p'.inside then some p' else none) := by
  cases p <;> simp only [GlobalPc.inside, reduceCtorEq] at hp
  case releaseDelete =>
    cases hn
    exact h.delete
  all_goals
    obtain ⟨hnodup, hold, hcurrent, htransit, hmade, hmarked⟩ := h
    cases hn
    constructor <;> simp only [GlobalEvent.deletes, List.append_nil, GlobalPc.inside] <;> grind

theorem Coherent.alone (h : Coherent m d none) (hm : LeavesAlone m m' ev)
    (hp : p = .getCreate ∨ p = .releaseDelete) : Coherent m' (d ++ ev.deletes) (some p) := by
  obtain ⟨hnodup, hold, hcurrent, -, hmade, -⟩ := h
  obtain ⟨hd, -, hs, hc, hf⟩ := hm
  rw [hd, List.append_nil]
  refine ⟨hnodup, hf ▸ hold, ?_, ?_, ?_, ?_⟩
  · intro k hk
    obtain ⟨hlt, hdead⟩ := hcurrent k (hs ▸ hk)
    exact ⟨hf ▸ hlt, fun hkd => by cases hdead hkd⟩
  · rcases hp with rfl | rfl <;> simp
  · intro hcreated
    refine .inl (hs ▸ (hmade (hc ▸ hcreated)).resolve_right (by simp))
  · rcases hp with rfl | rfl <;> simp

theorem Coherent.same {h : Option GlobalPc} (hcoherent : Coherent m d h)
    (hm : LeavesAlone m m' ev) : Coherent m' (d ++ ev.deletes) h := by
  obtain ⟨hnodup, hold, hcurrent, htransit, hmade, hmarked⟩ := hcoherent
  obtain ⟨hd, -, hs, hc, hf⟩ := hm
  rw [hd, List.append_nil]
  exact ⟨hnodup, hf ▸ hold, hs ▸ hf ▸ hcurrent, hf ▸ htransit, hs ▸ hc ▸ hmade, hs ▸ hmarked⟩

theorem coherent (h : globalScheduler.Run ok tr s) : Coherent s.mem (deletions tr) s.holder := by
  refine h.invariant (J := fun tr s => Coherent s.mem (deletions tr) s.holder) ?_ ?_
  · exact ⟨List.nodup_nil, fun k hk => (by cases hk), fun k hk => (by cases hk),
      fun k hk => (by cases hk), fun hc => (by cases hc),
      fun hp => (by rcases hp with hp | hp <;> cases hp)⟩
  · intro tr s i e s' hrun ih _ hs
    rw [deletions_snoc]
    obtain ⟨hsame, hh | ⟨hfree, ⟨-, hh⟩ | ⟨-, hh⟩⟩⟩ | ⟨p, p', hp, hn, hin, hh⟩ :=
      ((exclusive hrun).step (t := i.1) (c := i.2) hs).2
    · exact hh ▸ ih.same hsame
    · exact hh ▸ (hfree ▸ ih).alone hsame (.inl rfl)
    · exact hh ▸ (hfree ▸ ih).alone hsame (.inr rfl)
    · exact hh ▸ (hp ▸ ih).inside hn hin

/-- Objects are numbered in the order they are made. -/
theorem constructions_range (h : globalScheduler.Run ok tr s) :
    constructions tr = List.range s.mem.fresh := by
  refine h.invariant (J := fun tr s => constructions tr = List.range s.mem.fresh) rfl ?_
  intro tr s i e s' hrun ih _ hs
  rw [constructions_snoc, ih]
  obtain ⟨hsame, -⟩ | ⟨p, p', hp, hn, hin, -⟩ := ((exclusive hrun).step (t := i.1) (c := i.2) hs).2
  · rw [hsame.constructs, hsame.fresh, List.append_nil]
  · generalize e.2 = ev at hn
    generalize s'.mem = m' at hn ⊢
    cases p <;> simp only [GlobalPc.inside, reduceCtorEq] at hin
    case getCreate =>
      cases hn
      exact List.range_succ.symm
    all_goals
      cases hn
      exact List.append_nil _

/-- Releasing is safe in every interleaving of any number of threads: no scheduler object is deleted
twice, only objects that were made are deleted, the critical sections exclude each other, and
`theScheduler` points to a deleted object only between the `delete` of a release and the assignment
after it. -/
theorem release_deletes_once (h : globalScheduler.Run AnyStep tr s) :
    (deletions tr).Nodup ∧ (∀ k ∈ deletions tr, k ∈ constructions tr) ∧
      (∀ t u, (s.pc t).inside = true → (s.pc u).inside = true → t = u) ∧
      ∀ k, s.mem.theScheduler = some k → k ∈ constructions tr ∧
        (k ∈ deletions tr → ∃ t, s.pc t = .releaseClear) := by
  have hcoherent := coherent h
  have hx := exclusive h
  have hmade {k : Nat} (hk : k < s.mem.fresh) : k ∈ constructions tr := by
    rw [constructions_range h]
    exact List.mem_range.mpr hk
  refine ⟨hcoherent.nodup, fun k hk => hmade (hcoherent.old k hk), ?_, ?_⟩
  · intro t u ht hu
    exact Option.some.inj (((hx t).mp ht).symm.trans ((hx u).mp hu))
  · intro k hk
    obtain ⟨hlt, hdead⟩ := hcoherent.current k hk
    refine ⟨hmade hlt, fun hd => ?_⟩
    obtain ⟨t, -, ht⟩ := Option.map_eq_some_iff.mp (hdead hd)
    exact ⟨t, ht⟩

/-- Thread `t` calls `releaseGlobalScheduler` and takes `k` steps in it. -/
def releasesGlobal (t k : Nat) : List (Nat × GlobalChoice) :=
  (t, .call .releaseGlobalScheduler) :: List.replicate k (t, .run)

/-- Two threads read `created` before either has released the scheduler. -/
def twiceReleased : List (Nat × GlobalEvent) × GlobalState :=
  globalScheduler.drive (fun _ _ _ => true)
    (getsGlobal 0 7 ++ releasesGlobal 1 1 ++ releasesGlobal 2 1 ++ List.replicate 5 (1, .run) ++
      List.replicate 5 (2, .run))

theorem release_deletes_once_twiceReleased :
    (2, .deleted none) ∈ twiceReleased.1 ∧ (deletions twiceReleased.1).Nodup := by
  have h : globalScheduler.Run AnyStep twiceReleased.1 twiceReleased.2 :=
    run_drive (fun _ _ _ _ => trivial) _
  exact ⟨by decide, (release_deletes_once h).1⟩

/-- The place of the holder tells which object there is: `x` is the last one made, if it has not
been deleted. -/
def Kept (m : GlobalMem) (x : Option Nat) : Option GlobalPc → Prop
  | none | some .releaseDelete => m.theScheduler = x ∧ (m.created = true ↔ x ≠ none)
  | some .getCreate | some .releaseUnlock =>
    m.theScheduler = none ∧ m.created = false ∧ x = none
  | some (.getAssign k) => m.theScheduler = none ∧ x = some k
  | some .getMark => m.theScheduler = x ∧ x ≠ none
  | some .getUnlock => m.theScheduler = x ∧ m.created = true ∧ x ≠ none
  | some .releaseClear => x = none
  | some .releaseMark => m.theScheduler = none ∧ x = none
  | some _ => True

/-- All objects have been deleted, but for the last one made. -/
def Ledger (m : GlobalMem) (c d : List Nat) (h : Option GlobalPc) : Prop :=
  ∃ x : Option Nat, c = d ++ x.toList ∧ Kept m x h

theorem Ledger.inside {c : List Nat} (h : Ledger m c d (some p))
    (hn : m.next t p = some (ev, m', p')) (hp : p.inside = true) :
    Ledger m' (c ++ ev.constructs) (d ++ ev.deletes) (if p'.inside then some p' else none) := by
  obtain ⟨x, rfl, hkept⟩ := h
  cases p <;> simp only [GlobalPc.inside, reduceCtorEq] at hp
  case getCreate =>
    obtain ⟨hs, hc, rfl⟩ := hkept
    cases hn
    exact ⟨some m.fresh, by simp [GlobalEvent.constructs, GlobalEvent.deletes], hs, rfl⟩
  case releaseDelete =>
    obtain ⟨rfl, -⟩ := hkept
    cases hn
    refine ⟨none, ?_, rfl⟩
    cases m.theScheduler <;> simp [GlobalEvent.constructs, GlobalEvent.deletes]
  all_goals
    cases hn
    refine ⟨x, by simp [GlobalEvent.constructs, GlobalEvent.deletes], ?_⟩
    simp_all [Kept, GlobalPc.inside]

theorem Kept.same {x : Option Nat} {h : Option GlobalPc} (hkept : Kept m x h)
    (hm : LeavesAlone m m' ev) : Kept m' x h := by
  unfold Kept at hkept ⊢
  rw [hm.theScheduler, hm.created]
  exact hkept

/-- A thread enters a critical section; where it is to make a scheduler, there is none. -/
theorem Kept.enter {x : Option Nat} (hkept : Kept m x none)
    (hp : p = .getCreate ∧ m.created = false ∨ p = .releaseDelete) : Kept m x (some p) := by
  rcases hp with ⟨rfl, hc⟩ | rfl
  · obtain ⟨hs, hx⟩ := hkept
    have hnone : x = none := by
      by_contra hne
      rw [hx.mpr hne] at hc
      cases hc
    exact ⟨hs.trans hnone, hc, hnone⟩
  · exact hkept

theorem Ledger.alone {c : List Nat} {h h' : Option GlobalPc} (hl : Ledger m c d h)
    (hm : LeavesAlone m m' ev) (hkept : ∀ x, Kept m x h → Kept m x h') :
    Ledger m' (c ++ ev.constructs) (d ++ ev.deletes) h' := by
  obtain ⟨x, hx, hk⟩ := hl
  rw [hm.constructs, hm.deletes, List.append_nil, List.append_nil]
  exact ⟨x, hx, (hkept x hk).same hm⟩

theorem ledger (h : globalScheduler.Run (fun _ s i => LocksFirst s i.1) tr s) :
    Ledger s.mem (constructions tr) (deletions tr) s.holder := by
  refine h.invariant
    (J := fun tr s => Ledger s.mem (constructions tr) (deletions tr) s.holder) ?_ ?_
  · exact ⟨none, rfl, rfl, ⟨fun hc => (by cases hc), fun hne => absurd rfl hne⟩⟩
  · intro tr s i e s' hrun ih hok hs
    rw [constructions_snoc, deletions_snoc]
    obtain ⟨hsame, hh | ⟨hfree, ⟨hpc, hh⟩ | ⟨-, hh⟩⟩⟩ | ⟨p, p', hp, hn, hin, hh⟩ :=
      ((exclusive hrun).step (t := i.1) (c := i.2) hs).2
    · exact hh ▸ ih.alone hsame fun _ hk => hk
    · have hc : s.mem.created = false := by simpa [LocksFirst, hpc] using hok
      exact hh ▸ (hfree ▸ ih).alone hsame fun _ hk => hk.enter (.inl ⟨rfl, hc⟩)
    · exact hh ▸ (hfree ▸ ih).alone hsame fun _ hk => hk.enter (.inr rfl)
    · exact hh ▸ (hp ▸ ih).inside hn hin

/-- Where the one scheduler that is left is: `theScheduler` points to it, or the thread that has
made it is about to assign it. -/
def GlobalState.Has (s : GlobalState) (k : Nat) : Prop :=
  s.mem.theScheduler = some k ∨ ∃ t, s.pc t = .getAssign k

/-- `theScheduler` points to nothing, or a release is about to clear it. -/
def GlobalState.HasNone (s : GlobalState) : Prop :=
  s.mem.theScheduler = none ∨ ∃ t, s.pc t = .releaseClear

theorem Kept.has {x : Option Nat} (hx : Exclusive s) (h : Kept s.mem x s.holder) :
    match x with
    | none => s.HasNone
    | some k => s.Has k := by
  cases hm : s.mem.sharedMutex with
  | none =>
    have hh : s.holder = none := by rw [GlobalState.holder, hm]; rfl
    rw [hh] at h
    cases x <;> exact .inl h.1
  | some t =>
    have hin := (hx t).mpr hm
    rw [hx.holder hin] at h
    cases hp : s.pc t <;> rw [hp] at h hin <;> simp only [GlobalPc.inside, reduceCtorEq] at hin
    case getAssign k =>
      obtain ⟨-, rfl⟩ := h
      exact .inr ⟨t, hp⟩
    case releaseClear =>
      obtain rfl : x = none := h
      exact .inr ⟨t, hp⟩
    case getCreate | releaseUnlock =>
      obtain ⟨hs, -, rfl⟩ := h
      exact .inl hs
    case releaseMark =>
      obtain ⟨hs, rfl⟩ := h
      exact .inl hs
    all_goals cases x <;> exact .inl h.1

/-- No scheduler is lost: if no thread makes a scheduler where there already is one, then with any
number of releases every scheduler ever made has been deleted, in the order they were made, but for
at most the last one, and that one is at hand: `theScheduler` points to it, or the thread that has
made it holds it. -/
theorem release_loses_none (h : globalScheduler.Run (fun _ s i => LocksFirst s i.1) tr s) :
    constructions tr = deletions tr ∧ s.HasNone ∨
      ∃ k, constructions tr = deletions tr ++ [k] ∧ s.Has k := by
  obtain ⟨x, hx, hkept⟩ := ledger h
  have hhas := hkept.has (exclusive h)
  cases x with
  | none => exact .inl ⟨hx.trans (List.append_nil _), hhas⟩
  | some k => exact .inr ⟨k, hx, hhas⟩

/-- The scheduler is made, released and made again. -/
def remadeRun : List (Nat × GlobalEvent) × GlobalState :=
  globalScheduler.drive (fun _ s i => LocksFirst s i.1)
    (getsGlobal 0 7 ++ releasesGlobal 1 6 ++ getsGlobal 1 7)

theorem release_loses_none_remadeRun : deletions remadeRun.1 = [0] ∧
    ∃ k, constructions remadeRun.1 = deletions remadeRun.1 ++ [k] ∧ remadeRun.2.Has k := by
  have h : globalScheduler.Run (fun _ s i => LocksFirst s i.1) remadeRun.1 remadeRun.2 :=
    run_drive (fun _ _ _ hok => hok) _
  have htwo : constructions remadeRun.1 ≠ deletions remadeRun.1 := by decide
  exact ⟨rfl, (release_loses_none h).resolve_left fun hnone => htwo hnone.1⟩

/-- The thread is in a call of `getGlobalScheduler`. -/
def GlobalPc.gets : GlobalPc → Bool
  | .getTest | .getLock | .getCreate | .getAssign _ | .getMark | .getUnlock | .getReturn => true
  | _ => false

/-- The thread is in a call of `releaseGlobalScheduler`. -/
def GlobalPc.releases : GlobalPc → Bool
  | .releaseTest | .releaseLock | .releaseDelete | .releaseClear | .releaseMark
  | .releaseUnlock => true
  | _ => false

/-- No release is called while a thread asks for the scheduler, and none asks during a release. -/
structure Apart (s : GlobalState) (c : GlobalChoice) : Prop where
  release : c = .call .releaseGlobalScheduler → ∀ u, (s.pc u).gets = false
  get : c = .call .getGlobalScheduler → ∀ u, (s.pc u).releases = false

/-- A thread stays in the function it has called. -/
theorem GlobalMem.next_kind (h : m.next t p = some (ev, m', p')) :
    (p'.gets = true → p.gets = true) ∧ (p'.releases = true → p.releases = true) := by
  cases p
  case getTest | releaseTest =>
    simp only [GlobalMem.next, Option.some.injEq, Prod.mk.injEq] at h
    obtain ⟨-, -, rfl⟩ := h
    split <;> simp [GlobalPc.gets, GlobalPc.releases]
  case getLock | releaseLock =>
    simp only [GlobalMem.next] at h
    split at h <;> cases h
    simp [GlobalPc.gets, GlobalPc.releases]
  all_goals
    cases h <;> simp [GlobalPc.gets, GlobalPc.releases]

/-- Only a release takes the scheduler away. -/
theorem GlobalMem.next_scheduler (h : m.next t p = some (ev, m', p'))
    (hp : p.releases = false) (hs : m.theScheduler ≠ none) : m'.theScheduler ≠ none := by
  cases p <;> simp only [GlobalPc.releases, reduceCtorEq] at hp
  case getTest =>
    simp only [GlobalMem.next, Option.some.injEq, Prod.mk.injEq] at h
    obtain ⟨-, rfl, -⟩ := h
    exact hs
  case getLock =>
    simp only [GlobalMem.next] at h
    split at h <;> cases h
    exact hs
  all_goals
    cases h <;> simp [hs]

/-- A thread comes to the end of `getGlobalScheduler` after it has made a scheduler, or where it
has found `created` true. -/
theorem GlobalMem.next_returns (h : m.next t p = some (ev, m', .getReturn)) :
    m'.theScheduler = m.theScheduler ∧
      (p = .getUnlock ∨ p = .getTest ∧ m.created = true) := by
  cases p
  case getTest =>
    simp only [GlobalMem.next, Option.some.injEq, Prod.mk.injEq] at h
    obtain ⟨-, rfl, hp⟩ := h
    split at hp
    · exact ⟨rfl, .inr ⟨rfl, ‹_›⟩⟩
    · cases hp
  case releaseTest =>
    simp only [GlobalMem.next, Option.some.injEq, Prod.mk.injEq] at h
    obtain ⟨-, -, hp⟩ := h
    split at hp <;> cases hp
  case getUnlock =>
    cases h
    exact ⟨rfl, .inl rfl⟩
  case getLock | releaseLock =>
    simp only [GlobalMem.next] at h
    split at h <;> cases h
  all_goals cases h

theorem GlobalMem.next_returned {o : Option Nat}
    (h : m.next t p = some (.returned o, m', p')) : p = .getReturn ∧ o = m.theScheduler := by
  cases p
  case getReturn =>
    cases h
    exact ⟨rfl, rfl⟩
  case getTest | releaseTest => simp [GlobalMem.next] at h
  case getLock | releaseLock =>
    simp only [GlobalMem.next] at h
    split at h <;> cases h
  all_goals cases h

/-- Calls of the two functions do not overlap, and whoever is about to return a reference finds a
scheduler. -/
structure Parted (s : GlobalState) : Prop where
  apart : ∀ t u, (s.pc t).gets = true → (s.pc u).releases = false
  scheduler : ∀ t, s.pc t = .getReturn → s.mem.theScheduler ≠ none

/-- A thread goes to a place where what it does is apart from what the others do. -/
theorem Parted.move (h : Parted s) (hgets : p.gets = true → ∀ u, (s.pc u).releases = false)
    (hreleases : p.releases = true → ∀ u, (s.pc u).gets = false) (u v : Nat)
    (hu : (Function.update s.pc t p u).gets = true) :
    (Function.update s.pc t p v).releases = false := by
  rw [Function.update_apply] at hu ⊢
  split at hu
  · split
    · cases p <;> first | rfl | cases hu
    · exact hgets hu v
  · split
    · refine Bool.eq_false_iff.mpr fun hp => ?_
      rw [hreleases hp u] at hu
      cases hu
    · exact h.apart u v hu

/-- A thread that comes to return a reference finds a scheduler. -/
theorem Parted.returns (h : Parted s) (hrun : globalScheduler.Run ok tr s)
    (hn : s.mem.next t (s.pc t) = some (ev, m, .getReturn)) : m.theScheduler ≠ none := by
  have hcoherent := coherent hrun
  obtain ⟨hs, hfrom | ⟨hfrom, hc⟩⟩ := GlobalMem.next_returns hn
  · rw [hs]
    refine hcoherent.marked (.inr ?_)
    rw [(exclusive hrun).holder (t := t) (by rw [hfrom]; rfl), hfrom]
  · rw [hs]
    refine (hcoherent.made hc).resolve_right fun hhold => ?_
    obtain ⟨u, -, hu⟩ := Option.map_eq_some_iff.mp hhold
    have hno := h.apart t u (by rw [hfrom]; rfl)
    rw [hu] at hno
    cases hno

theorem Parted.step (h : Parted s) (hrun : globalScheduler.Run ok tr s) (hok : Apart s c)
    (hs : globalScheduler.step s (t, c) = some (e, s')) : Parted s' := by
  rcases globalScheduler_step hs with ⟨op, rfl, hpc, rfl, rfl⟩ | ⟨rfl, ev, m, p, hn, rfl, rfl⟩
  · refine ⟨h.move (fun hp => ?_) (fun hp => ?_), fun u hu => ?_⟩
    · cases op <;> first | exact hok.get rfl | cases hp
    · cases op <;> first | exact hok.release rfl | cases hp
    · refine h.scheduler u ?_
      have hne : u ≠ t := by
        rintro rfl
        change Function.update s.pc u op.enter u = .getReturn at hu
        rw [Function.update_self] at hu
        cases op <;> cases hu
      exact (Function.update_of_ne hne ..).symm.trans hu
  · obtain ⟨hgets, hreleases⟩ := GlobalMem.next_kind hn
    refine ⟨h.move (fun hp u => h.apart t u (hgets hp)) (fun hp u => ?_), fun u hu => ?_⟩
    · refine Bool.eq_false_iff.mpr fun hu => ?_
      have hno := h.apart u t hu
      rw [hreleases hp] at hno
      cases hno
    · change Function.update s.pc t p u = .getReturn at hu
      rw [Function.update_apply] at hu
      split at hu
      · subst hu
        exact h.returns hrun hn
      · exact GlobalMem.next_scheduler hn (h.apart u t (by rw [hu]; rfl)) (h.scheduler u hu)

theorem parted (h : globalScheduler.Run (fun _ s i => Apart s i.2) tr s) : Parted s := by
  refine h.invariant (J := fun _ s => Parted s) ?_ ?_
  · exact ⟨fun t u ht => (by cases ht), fun t ht => (by cases ht)⟩
  · intro tr s i e s' hrun ih hok hs
    exact ih.step hrun hok hs

/-- Where releases and calls of `getGlobalScheduler` do not overlap, every call returns a scheduler
that has been made and has not been deleted. -/
theorem references_alive (h : globalScheduler.Run (fun _ s i => Apart s i.2) tr s)
    {l r : List (Nat × GlobalEvent)} {o : Option Nat} (htr : tr = l ++ (t, .returned o) :: r) :
    ∃ k, o = some k ∧ k ∈ constructions l ∧ k ∉ deletions l := by
  obtain ⟨s₀, ⟨u, c⟩, s₁, h₀, -, hs, -⟩ := h.at_label htr
  obtain ⟨hpc, rfl⟩ : s₀.pc u = .getReturn ∧ o = s₀.mem.theScheduler := by
    rcases globalScheduler_step hs with ⟨op, -, -, he, -⟩ | ⟨-, ev, m, p, hn, he, -⟩
    · cases (Prod.mk.inj he).2
    · rw [← (Prod.mk.inj he).2] at hn
      exact GlobalMem.next_returned hn
  have hpart := parted h₀
  obtain ⟨k, hk⟩ := Option.ne_none_iff_exists'.mp (hpart.scheduler u hpc)
  obtain ⟨hlt, hdead⟩ := (coherent h₀).current k hk
  refine ⟨k, hk, ?_, fun hd => ?_⟩
  · rw [constructions_range h₀]
    exact List.mem_range.mpr hlt
  · obtain ⟨v, -, hv⟩ := Option.map_eq_some_iff.mp (hdead hd)
    have hno := hpart.apart u v (by rw [hpc]; rfl)
    rw [hv] at hno
    cases hno

/-- Only threads 0 and 1 take steps, and neither calls one of the two functions while the other is
inside the other one. -/
def TwoThreads (s : GlobalState) : Nat × GlobalChoice → Bool
  | (t, .call .getGlobalScheduler) => t < 2 && !(s.pc 0).releases && !(s.pc 1).releases
  | (t, .call .releaseGlobalScheduler) => t < 2 && !(s.pc 0).gets && !(s.pc 1).gets
  | (t, _) => t < 2

theorem TwoThreads.apart (h : globalScheduler.Run (fun _ s i => TwoThreads s i) tr s) :
    globalScheduler.Run (fun _ s i => Apart s i.2) tr s := by
  have hidle {tr s} (h : globalScheduler.Run (fun _ s i => TwoThreads s i) tr s) :
      ∀ u, 2 ≤ u → s.pc u = .outside := by
    refine h.invariant (J := fun _ s => ∀ u, 2 ≤ u → s.pc u = .outside) (fun _ _ => rfl) ?_
    rintro tr s ⟨t, c⟩ e s' - ih hok hs u hu
    have ht : t < 2 := by
      rcases c with (_ | _ | _) | _ <;> simp_all [TwoThreads]
    have hne : u ≠ t := by omega
    rcases globalScheduler_step hs with ⟨op, -, -, -, rfl⟩ | ⟨-, ev, m, p, -, -, rfl⟩ <;>
      exact (Function.update_of_ne hne ..).trans (ih u hu)
  refine (h.and_of hidle).mono ?_
  rintro tr s ⟨t, c⟩ ⟨hok, hidle⟩
  constructor
  · rintro rfl u
    simp only [TwoThreads, Bool.and_eq_true, Bool.not_eq_true'] at hok
    rcases u with _ | _ | u
    · exact hok.1.2
    · exact hok.2
    · rw [hidle _ (by omega)]
      rfl
  · rintro rfl u
    simp only [TwoThreads, Bool.and_eq_true, Bool.not_eq_true'] at hok
    rcases u with _ | _ | u
    · exact hok.1.2
    · exact hok.2
    · rw [hidle _ (by omega)]
      rfl

/-- Two threads both make a scheduler and return the second one, which is released; the next call
makes a third. -/
def againRun : List (Nat × GlobalEvent) × GlobalState :=
  globalScheduler.drive (fun _ s i => TwoThreads s i)
    (getsGlobal 0 1 ++ getsGlobal 1 1 ++ List.replicate 5 (0, .run) ++ List.replicate 6 (1, .run) ++
      List.replicate 1 (0, .run) ++ releasesGlobal 1 6 ++ getsGlobal 0 7)

theorem references_alive_againRun : ∃ k, references againRun.1 = [some 1, some 1, some k] ∧
    k ∈ constructions againRun.1.dropLast ∧ k ∉ deletions againRun.1.dropLast := by
  have h : globalScheduler.Run (fun _ s i => Apart s i.2) againRun.1 againRun.2 :=
    TwoThreads.apart (run_drive (fun _ _ _ hok => hok) _)
  have htr : againRun.1 = againRun.1.dropLast ++ (0, .returned (some 2)) :: [] := rfl
  obtain ⟨k, hk, hmade, halive⟩ := references_alive h htr
  obtain rfl := Option.some.inj hk
  exact ⟨2, rfl, hmade, halive⟩

end ServiceLib
