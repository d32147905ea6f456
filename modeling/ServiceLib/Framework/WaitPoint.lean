import ServiceLib.Framework.Transition

namespace ServiceLib

/-- A place where threads wait on a condition variable: whether somebody sleeps there whom no
`notify_all` has reached, whether the predicate of the wait holds, and whether a thread has still
to execute the `notify_all` it owes for a change of the predicate. -/
structure WaitPoint (σ : Type*) where
  asleep : σ → Prop
  ready : σ → Prop
  owed : σ → Prop

namespace WaitPoint

variable {σ ι ε : Type*} {W : WaitPoint σ} {s s' : σ}

/-- Whoever sleeps does so rightly, or will be notified. -/
def Sound (W : WaitPoint σ) (s : σ) : Prop := W.asleep s → ¬W.ready s ∨ W.owed s

/-- What a step can do at the place: send somebody to sleep who has found the predicate false,
leave nobody asleep unnotified, or leave the sleepers alone and owe a `notify_all` for what makes
the predicate true. -/
inductive Step (W : WaitPoint σ) (s s' : σ) : Prop
  | sleeps (h : ¬W.ready s')
  | wakes (h : ¬W.asleep s')
  | keeps (ha : W.asleep s' → W.asleep s) (hr : W.ready s' → W.ready s ∨ W.owed s')
      (ho : W.owed s → W.owed s')

theorem Sound.step (h : W.Sound s) (hs : W.Step s s') : W.Sound s' := by
  intro hasleep
  cases hs with
  | sleeps hno => exact .inl hno
  | wakes hno => exact absurd hasleep hno
  | keeps ha hr ho =>
    rcases h (ha hasleep) with hno | howed
    · by_cases hready : W.ready s'
      · exact .inr ((hr hready).resolve_left hno)
      · exact .inl hready
    · exact .inr (ho howed)

/-- A machine all of whose steps keep to that loses no wake-up. -/
theorem sound_of_run {M : Machine σ ι ε} {ok : List ε → σ → ι → Prop} (h0 : W.Sound M.init)
    (hstep : ∀ {tr s i e s'}, M.Run ok tr s → ok tr s i → M.step s i = some (e, s') →
      W.Step s s')
    {tr : List ε} (h : M.Run ok tr s) : W.Sound s := by
  refine h.invariant (J := fun _ s => W.Sound s) h0 ?_
  intro tr s i e s' hrun ih hok hs
  exact ih.step (hstep hrun hok hs)

end WaitPoint

end ServiceLib
