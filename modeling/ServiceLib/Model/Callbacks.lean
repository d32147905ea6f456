import ServiceLib.Framework.Nesting
import ServiceLib.Model.Stack

namespace ServiceLib

variable {T : ArgTypes} {n : Nat} {ok : History T n → Sys T n → Tid n × Choice T n → Prop}
  {tr : History T n} {s : Sys T n} {t : Tid n} {i : Choice T n} {mv : Move T n}

/-- The steps of one thread, oldest first. -/
def own (t : Tid n) (tr : History T n) : List (Action T n) :=
  tr.flatMap fun e => if e.1 = t then [e.2] else []

theorem own_snoc (t u : Tid n) (tr : History T n) (a : Action T n) :
    own t (tr ++ [(u, a)]) = own t tr ++ if u = t then [a] else [] := by
  simp [own]

theorem own_snoc_self (t : Tid n) (tr : History T n) (a : Action T n) :
    own t (tr ++ [(t, a)]) = own t tr ++ [a] := by
  rw [own_snoc, if_pos rfl]

theorem own_snoc_other {t u : Tid n} (hu : u ≠ t) (tr : History T n) (a : Action T n) :
    own t (tr ++ [(u, a)]) = own t tr := by
  rw [own_snoc, if_neg hu, List.append_nil]

theorem own_append_cons (t : Tid n) (l r : History T n) (a : Action T n) :
    own t (l ++ (t, a) :: r) = own t l ++ a :: own t r := by
  simp [own]

theorem mem_of_own {a : Action T n} (h : a ∈ own t tr) : (t, a) ∈ tr := by
  obtain ⟨⟨u, b⟩, hmem, hb⟩ := List.mem_flatMap.mp h
  split at hb
  · rename_i hu
    obtain rfl := List.mem_singleton.mp hb
    exact hu ▸ hmem
  · exact absurd hb List.not_mem_nil

/-- Client code is entered. -/
def Action.opens : Action T n → Bool
  | .entered _ | .executed _ (some _) _ => true
  | _ => false

/-- Client code returns. -/
def Action.closes : Action T n → Bool
  | .returned _ => true
  | _ => false

def Frame.isUser : Frame T n → Bool
  | .user => true
  | _ => false

/-- The calls of client code in progress. -/
def users (l : List (Frame T n)) : ℕ := l.countP Frame.isUser

theorem users_append (l k : List (Frame T n)) : users (l ++ k) = users l + users k :=
  List.countP_append

/-- A thread enters client code with an opening and leaves it with a closing step. -/
theorem Moves.users_step (hm : Moves s t i mv) {f : Frame T n} {rest : List (Frame T n)}
    (hs : s.stack t = f :: rest) :
    users mv.frames + mv.action.closes.toNat = users [f] + mv.action.opens.toNat := by
  have htop {g rest'} (h : s.stack t = g :: rest') : f = g := (List.cons.inj (hs.symm.trans h)).1
  cases hm
  case callBack op rest' h =>
    rw [htop h]
    cases op <;> rfl
  case scanPlace h _ _ | bindStrand h =>
    rw [htop h]
    unfold Sys.place
    split <;> rfl
  all_goals
    first
      | rw [htop ‹_›]; rfl
      | simp_all

/-- The function has to set the flag of a `doSyncJob` call. -/
def Frame.finishes : Frame T n → Bool
  | .invoke (.syncDone _ _) | .syncFinish _ => true
  | _ => false

/-- Only the closure of `doSyncJob` leaves something to do on its flag. -/
theorem Moves.frames_finish (hm : Moves s t i mv) {f : Frame T n} {rest : List (Frame T n)}
    (hs : s.stack t = f :: rest) (hf : f.finishes = false) :
    ∀ g ∈ mv.frames, g.finishes = false := by
  have htop {g rest'} (h : s.stack t = g :: rest') : f = g := (List.cons.inj (hs.symm.trans h)).1
  cases hm
  case invokeSync h | invokeSyncEmpty h =>
    rw [htop h] at hf
    cases hf
  case call op _ _ _ | callBack op _ _ => cases op <;> exact Frame.forall_not rfl
  case scanPlace | bindStrand =>
    unfold Sys.place
    split <;> exact Frame.forall_not rfl
  all_goals
    first
      | exact Frame.forall_not rfl
      | simp_all

/-- A function object that is not the closure of a `doSyncJob`. -/
def Callable.plain : Callable T → Bool
  | .syncDone _ _ => false
  | _ => true

def Callable.isClient : Callable T → Bool
  | .client _ => true
  | _ => false

/-- What a job can have as `onDone`: the caller's, or the closure of `doSyncJob` around it. -/
def Callable.closure : Callable T → Bool
  | .client _ => true
  | .bound _ _ _ => false
  | .syncDone d _ => d.all isClient

theorem all_client {p : Callable T → Bool} (hp : ∀ f, p (.client f) = true)
    (f : Option ClientFn) : (f.map Callable.client).all p = true := by
  cases f <;> simp [hp]

def Request.formed (req : Request T) : Bool :=
  req.action.all Callable.plain && req.onDone.all Callable.isClient

/-- The function holds its function objects as they come from the caller; only `doSyncJob` wraps
one, and only once. -/
def Frame.formed : Frame T n → Bool
  | .schedule req | .scan req _ _ _ | .bindStrand req _ => req.formed
  | .doSync _ _ call onDone _ => call.all Callable.plain && onDone.all Callable.isClient
  | .push _ _ call onDone _ => call.all Callable.plain && onDone.all Callable.closure
  | _ => true

def JobContext.formed (j : JobContext T) : Bool :=
  j.action.all Callable.plain && j.onDone.all Callable.closure

structure Sys.Formed (s : Sys T n) : Prop where
  frames : ∀ t, ∀ f ∈ s.stack t, f.formed = true
  queued : ∀ w, ∀ j ∈ (s.worker w).calls, j.formed = true
  running : ∀ w, ∀ j ∈ (s.pc w).current, j.formed = true

theorem Request.formed_place {req : Request T} (h : req.formed = true) (w : Fin n) :
    (Sys.place req w).formed = true := by
  unfold Sys.place
  split
  · exact h
  · simp only [formed, Bool.and_eq_true] at h
    simp only [Frame.formed, Bool.and_eq_true]
    refine ⟨h.1, ?_⟩
    cases hd : req.onDone with
    | none => rfl
    | some c =>
      cases c with
      | client f => rfl
      | _ => simp [hd, Callable.isClient] at h

theorem Op.enter_formed (op : Op T n) : op.enter.formed = true := by
  have hplain := all_client (T := T) (p := Callable.plain) fun _ => rfl
  have hclient := all_client (T := T) (p := Callable.isClient) fun _ => rfl
  have hclosure := all_client (T := T) (p := Callable.closure) fun _ => rfl
  cases op
  case scheduleJob name action onDone wait strand =>
    exact Bool.and_eq_true_iff.mpr ⟨hplain action, hclient onDone⟩
  case doJob w name call onDone =>
    exact Bool.and_eq_true_iff.mpr ⟨hplain call, hclosure onDone⟩
  case doSyncJob w name call onDone =>
    exact Bool.and_eq_true_iff.mpr ⟨hplain call, hclient onDone⟩
  all_goals rfl

theorem Moves.frames_formed (hm : Moves s t i mv) (h : s.Formed) :
    ∀ f ∈ mv.frames, f.formed = true := by
  have hold {f rest} (hs : s.stack t = f :: rest) : f.formed = true :=
    h.frames t f (hs ▸ List.mem_cons_self)
  cases hm
  case call op _ _ _ | callBack op _ _ =>
    exact List.forall_mem_cons.mpr ⟨op.enter_formed, List.all_eq_true.mp rfl⟩
  case callAsync =>
    have hclient := all_client (T := T) (p := Callable.isClient) fun _ => rfl
    exact List.forall_mem_singleton.mpr (Bool.and_eq_true_iff.mpr ⟨rfl, hclient _⟩)
  case schedule hs _ | scanRead hs _ | scanCompare hs _ | scanStrand hs _ _ =>
    have hreq := hold hs
    exact List.forall_mem_singleton.mpr hreq
  case scanPlace hs _ _ | bindStrand hs =>
    have hreq := hold hs
    exact List.forall_mem_singleton.mpr (Request.formed_place hreq _)
  case doSync hs =>
    have hcall := hold hs
    exact List.forall_mem_cons.mpr ⟨hcall, List.forall_mem_singleton.mpr rfl⟩
  all_goals exact List.all_eq_true.mp rfl

theorem formed (h : (pool T n).Run ok tr s) : s.Formed := by
  refine pool_invariant (J := fun _ s => s.Formed) ?_ ?_ h
  · exact ⟨fun _ _ h => absurd h List.not_mem_nil, fun _ _ h => absurd h List.not_mem_nil,
      fun _ _ h => absurd h List.not_mem_nil⟩
  · intro tr s t i mv _ ih _ hm
    refine ⟨fun u f hf => ?_, fun w j hj => ?_, fun w j hj => ?_⟩
    · rcases Sys.mem_apply_stack hf with ⟨-, hf⟩ | hf
      · exact hm.frames_formed ih f hf
      · exact ih.frames u f hf
    · rcases Sys.mem_apply_calls hj with hj | ⟨strand, ha⟩
      · exact ih.queued w j hj
      · obtain ⟨rest, hs, -⟩ := hm.pushed_inv ha
        have hf := ih.frames t _ (hs ▸ List.mem_cons_self)
        exact hf
    · rcases hm.current_step hj with hj | hj
      · exact ih.running w j hj
      · exact ih.queued w j hj

/-- The step by which the client code of a function object is entered. -/
def Callable.opening : Callable T → Option (Action T n)
  | .client f => some (.entered f)
  | .bound k (some a) p => some (.executed k (some a) p)
  | _ => none

/-- The steps of a thread from entering the function object to its return, once: the client code
in it may call the library, and whatever client code that enters has returned too. -/
def Runs (c : Callable T) (seg : List (Action T n)) : Prop :=
  ∃ e body b, c.opening = some e ∧ seg = e :: (body ++ [.returned b]) ∧
    Balanced Action.opens Action.closes body

/-- An empty function object is not run. -/
def OptRuns : Option (Callable T) → List (Action T n) → Prop
  | none, seg => seg = []
  | some c, seg => Runs c seg

/-- How far a thread has come with one call of a function object: the steps so far, the functions
still in progress above the caller, and what the last one ended with. -/
inductive InRun (c : Callable T) : List (Action T n) → List (Frame T n) → Outcome → Prop
  | start {r} : InRun c [] [.invoke c] r
  | inside {e body l r d} (he : c.opening = some e) (hlast : l.getLast? = some .user)
      (hd : users l = d + 1) (hbody : Nested Action.opens Action.closes d body)
      (hno : ∀ f ∈ l, f.finishes = false) : InRun c (e :: body) l r
  | done {seg r} (h : Runs c seg) : InRun c seg [] r
  | failed {seg e} (hc : c.opening (n := n) = none) : InRun c seg [] (.threw e)

theorem Sys.apply_result_other {u : Tid n} (hu : u ≠ t) :
    (s.apply t mv).result u = s.result u := by
  unfold apply
  cases mv.result <;> simp [hu]

theorem Sys.apply_result_self : (s.apply t mv).result t = mv.result.getD (s.result t) := by
  unfold apply
  cases mv.result <;> simp

/-- Calling a function object enters its client code, or fails at once if there is none. -/
theorem InRun.enter {c : Callable T} {rest : List (Frame T n)} (hc : c.plain = true)
    (hs : s.stack t = .invoke c :: rest) (hm : Moves s t i mv) :
    InRun c [mv.action] mv.frames ((s.apply t mv).result t) := by
  obtain rfl := hm.eq_of_frame hs (by simp) rfl
  rcases c with f | ⟨k, _ | a, p⟩ | ⟨d, k⟩
  · exact .inside rfl rfl rfl .nil (Frame.forall_not rfl)
  · have hres : (s.apply t (Sys.invokeNext (.bound k none p))).result t =
        .threw .badFunctionCall := Function.update_self ..
    rw [hres]
    exact .failed rfl
  · exact .inside rfl rfl rfl .nil (Frame.forall_not rfl)
  · cases hc

/-- Client code calls the library and stays below, or returns. -/
theorem Moves.user_frames (hm : Moves s t i mv) {rest : List (Frame T n)}
    (hs : s.stack t = .user :: rest) : mv.frames = [] ∨ mv.frames.getLast? = some .user := by
  cases hm
  case callBack => exact .inr rfl
  case ret => exact .inl rfl
  all_goals simp_all

theorem InRun.step {c : Callable T} {seg : List (Action T n)} {l rest : List (Frame T n)}
    {r : Outcome} (h : InRun c seg l r) (hc : c.plain = true) (hl : l ≠ [])
    (hs : s.stack t = l ++ rest) (hm : Moves s t i mv) :
    InRun c (seg ++ [mv.action]) (mv.frames ++ l.tail) ((s.apply t mv).result t) := by
  cases h with
  | start =>
    rw [List.tail_cons, List.append_nil]
    exact .enter hc hs hm
  | done | failed => exact absurd rfl hl
  | @inside e body _ _ d he hlast hd hbody hno =>
    obtain ⟨f, l, rfl⟩ := List.exists_cons_of_ne_nil hl
    have hstep := hm.users_step hs
    have hsplit : users (f :: l) = users [f] + users l := users_append [f] l
    have hnew : users (mv.frames ++ l) = users mv.frames + users l := users_append _ _
    have hno' : ∀ g ∈ mv.frames ++ l, g.finishes = false := by
      obtain ⟨hf, hl'⟩ := List.forall_mem_cons.mp hno
      exact List.forall_mem_append.mpr ⟨hm.frames_finish hs hf, hl'⟩
    rw [List.tail_cons, List.cons_append]
    by_cases hend : mv.frames ++ l = []
    · -- the last frame returned: the thread was in the client code of the object itself
      rw [hend] at hnew ⊢
      have hzero : users ([] : List (Frame T n)) = 0 := rfl
      cases ha : mv.action with
      | returned b =>
        rw [ha] at hstep
        have hone : users mv.frames + 1 = users [f] := hstep
        obtain rfl : d = 0 := by omega
        exact .done ⟨e, body, b, he, rfl, hbody⟩
      | _ =>
        simp only [ha, Action.closes, Bool.toNat_false] at hstep
        omega
    · have hlast' : (mv.frames ++ l).getLast? = some .user := by
        cases l with
        | nil =>
          obtain rfl : f = .user := by simpa using hlast
          have hne : mv.frames ≠ [] := by simpa using hend
          rw [List.append_nil]
          exact (hm.user_frames hs).resolve_left hne
        | cons g l =>
          rw [List.getLast?_append_cons]
          simpa using hlast
      have hpos : 0 < users (mv.frames ++ l) :=
        List.countP_pos_iff.mpr ⟨.user, List.mem_of_getLast? hlast', rfl⟩
      obtain ⟨d', hd'⟩ := Nat.exists_eq_succ_of_ne_zero hpos.ne'
      exact .inside he hlast' hd' (hbody.snoc (by omega)) hno'

theorem InRun.ended {c : Callable T} {seg : List (Action T n)} {r : Outcome}
    (h : InRun c seg [] r) : Runs c seg ∨ c.opening (n := n) = none ∧ ∃ e, r = .threw e := by
  cases h with
  | inside _ hlast => cases hlast
  | done h => exact .inl h
  | failed hc => exact .inr ⟨hc, _, rfl⟩

/-- The steps of an `onDone` from its begin to its return: the closure of a `doSyncJob` call runs the
caller's `onDone` and sets the flag of the call. -/
def DoneRuns : Callable T → List (Action T n) → Prop
  | .syncDone d k, seg => ∃ body, seg = .tau :: (body ++ [.finished k]) ∧ OptRuns d body
  | c, seg => Runs c seg

/-- How far the closure of the `doSyncJob` call `k` around `d` has come. -/
inductive InSyncDone (d : Option (Callable T)) (k : Nat) :
    List (Action T n) → List (Frame T n) → Prop
  | start : InSyncDone d k [] [.invoke (.syncDone d k)]
  | inside {c seg l r} (hd : d = some c) (h : InRun c seg l r) (hl : l ≠ []) :
      InSyncDone d k (.tau :: seg) (l ++ [.syncFinish k])
  | finish {seg} (h : OptRuns d seg) : InSyncDone d k (.tau :: seg) [.syncFinish k]
  | ended {seg} (h : DoneRuns (.syncDone d k) seg) : InSyncDone d k seg []

theorem InSyncDone.runs {d : Option (Callable T)} {k : Nat} {seg : List (Action T n)}
    {l : List (Frame T n)} (h : InSyncDone d k seg l) (hl : l = []) :
    DoneRuns (.syncDone d k) seg := by
  cases h with
  | start | finish => cases hl
  | inside _ _ hne => exact absurd (List.append_eq_nil_iff.mp hl).1 hne
  | ended h => exact h

theorem InSyncDone.step {d : Option (Callable T)} {k : Nat} {seg : List (Action T n)}
    {l : List (Frame T n)} (h : InSyncDone d k seg l) (hd : d.all Callable.isClient = true)
    (hl : l ≠ []) (hs : s.stack t = l) (hm : Moves s t i mv) :
    InSyncDone d k (seg ++ [mv.action]) (mv.frames ++ l.tail) := by
  have hplain {c} (hc : d = some c) : c.plain = true ∧ ∃ e, c.opening (n := n) = some e := by
    subst hc
    cases c <;> first | exact ⟨rfl, _, rfl⟩ | cases hd
  cases h with
  | start =>
    obtain rfl := hm.eq_of_frame hs (by simp) rfl
    cases d with
    | none => exact .finish rfl
    | some c => exact .inside rfl (.start (r := .ret true)) (by simp)
  | @inside c seg l r hc h hl' =>
    obtain ⟨hp, e, he⟩ := hplain hc
    have hnext := h.step hp hl' hs hm
    rw [List.tail_append_of_ne_nil hl', ← List.append_assoc, List.cons_append]
    by_cases hend : mv.frames ++ l.tail = []
    · rw [hend] at hnext ⊢
      rcases hnext.ended with hr | ⟨hno, -⟩
      · exact .finish (hc ▸ hr)
      · exact absurd he (by simp [hno])
    · exact .inside hc hnext hend
  | finish h =>
    obtain rfl := hm.eq_of_frame hs (by simp) rfl
    exact .ended ⟨_, rfl, h⟩
  | ended => exact absurd rfl hl

end ServiceLib
