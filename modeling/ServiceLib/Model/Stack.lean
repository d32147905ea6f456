import ServiceLib.Model.History

namespace ServiceLib

variable {T : ArgTypes} {n : Nat} {ok : History T n → Sys T n → Tid n × Choice T n → Prop}
  {tr : History T n} {s : Sys T n} {t : Tid n} {i : Choice T n} {mv : Move T n}

/-- A function that waits for one it has called; it holds what it holds and wants no lock. -/
def Frame.resting : Frame T n → Bool
  | .user | .syncFinish _ | .syncOnDone _ | .syncReturn _ | .notifyLoop _ _ _ | .unregisterExit _
  | .subscribeExit | .cancelLoop _ _ | .stopLoop _ | .syncWait _ => true
  | _ => false

theorem Moves.frames_resting (hm : Moves s t i mv) : ∀ f ∈ mv.frames.tail, f.resting = true := by
  cases hm <;> exact List.all_eq_true.mp rfl

/-- Only the innermost function of a thread is at work. -/
theorem resting_below (h : (pool T n).Run ok tr s) :
    ∀ t, ∀ f ∈ (s.stack t).tail, f.resting = true := by
  refine pool_invariant (J := fun _ s => ∀ t, ∀ f ∈ (s.stack t).tail, f.resting = true) ?_ ?_ h
  · intro t f hf
    exact absurd hf List.not_mem_nil
  · intro tr s t i mv _ hrest _ hm u f hf
    rw [Sys.apply_stack, Function.update_apply] at hf
    split at hf
    · rename_i hu
      have hbelow := hrest t
      cases hfr : mv.frames with
      | nil =>
        rw [hfr, List.nil_append] at hf
        exact hbelow f (List.mem_of_mem_tail hf)
      | cons g l =>
        rw [hfr, List.cons_append, List.tail_cons] at hf
        rcases List.mem_append.mp hf with hf | hf
        · exact hm.frames_resting f (by simpa [hfr] using hf)
        · exact hbelow f hf
    · exact hrest u f hf

/-- Where the innermost frame of a thread after a step comes from. -/
theorem Sys.apply_top (hrest : ∀ f ∈ (s.stack t).tail, f.resting = true) {u : Tid n}
    {f : Frame T n} {rest : List (Frame T n)} (hs : (s.apply t mv).stack u = f :: rest) :
    (u ≠ t ∧ s.stack u = f :: rest) ∨
      (u = t ∧ ∃ l, mv.frames = f :: l ∧ rest = l ++ (s.stack t).tail) ∨
      (u = t ∧ mv.frames = [] ∧ (s.stack t).tail = f :: rest ∧ f.resting = true) := by
  rw [Sys.apply_stack, Function.update_apply] at hs
  split at hs
  · rename_i hu
    cases hfr : mv.frames with
    | nil =>
      rw [hfr, List.nil_append] at hs
      exact .inr (.inr ⟨hu, rfl, hs, hrest f (hs ▸ List.mem_cons_self)⟩)
    | cons g l =>
      rw [hfr, List.cons_append] at hs
      obtain ⟨rfl, hl⟩ := List.cons.inj hs
      exact .inr (.inl ⟨hu, l, rfl, hl.symm⟩)
  · rename_i hu
    exact .inl ⟨hu, hs⟩

/-- What is true of every resting frame and of the frames each step puts on top holds of the
innermost frame of every thread. -/
theorem top_invariant {P : Tid n → List (Frame T n) → Prop} (hnil : ∀ t, P t [])
    (hresting : ∀ t f rest, f.resting = true → P t (f :: rest))
    (hstep : ∀ {tr s t i mv}, (pool T n).Run ok tr s → ok tr s (t, i) → Moves s t i mv →
      P t (s.stack t) → mv.frames ≠ [] → P t (mv.frames ++ (s.stack t).tail))
    (h : (pool T n).Run ok tr s) : ∀ t, P t (s.stack t) := by
  refine pool_invariant (J := fun _ s => ∀ t, P t (s.stack t)) hnil ?_ h
  intro tr s t i mv hrun ih hok hm u
  by_cases hu : u = t
  · subst hu
    rw [Sys.apply_stack_self]
    by_cases hne : mv.frames = []
    · rw [hne, List.nil_append]
      cases htail : (s.stack u).tail with
      | nil => exact hnil u
      | cons f rest =>
        have hf : f.resting = true := resting_below hrun u f (htail ▸ List.mem_cons_self)
        exact hresting u f rest hf
    · exact hstep hrun hok hm (ih u) hne
  · rw [Sys.apply_stack_other _ hu]
    exact ih u

end ServiceLib
