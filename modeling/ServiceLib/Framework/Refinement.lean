import ServiceLib.Framework.Transition

namespace ServiceLib

namespace Machine

variable {σ ι ε σ' ι' ε' σ'' ι'' ε'' : Type*} {M : Machine σ ι ε} {A : Machine σ' ι' ε'}
  {B : Machine σ'' ι'' ε''} {ok : List ε → σ → ι → Prop} {f : ε → Option ε'} {abs : σ → σ'}

/-- Machine `A` is an abstraction of `M`: each state of `M` shows one of `A`, and each step of `M`
is one of `A` with the label `f` gives it, or none where `f` hides it. -/
structure Refines (M : Machine σ ι ε) (A : Machine σ' ι' ε') (ok : List ε → σ → ι → Prop)
    (f : ε → Option ε') (abs : σ → σ') : Prop where
  init : abs M.init = A.init
  hidden : ∀ {tr s i e s'}, M.Run ok tr s → ok tr s i → M.step s i = some (e, s') →
    f e = none → abs s' = abs s
  shown : ∀ {tr s i e s' e'}, M.Run ok tr s → ok tr s i → M.step s i = some (e, s') →
    f e = some e' → ∃ i', A.step (abs s) i' = some (e', abs s')

/-- One step of `M`, seen as zero or one step of `A` at the end of a run of `A`. -/
theorem Refines.snoc (h : Refines M A ok f abs) {a : σ'} {tr m : List ε} {s s' : σ} {i : ι} {e : ε}
    (hrun : M.Run ok tr s) (hok : ok tr s i) (hs : M.step s i = some (e, s'))
    (ha : (A.startAt a).Run AnyStep (m.filterMap f) (abs s)) :
    (A.startAt a).Run AnyStep ((m ++ [e]).filterMap f) (abs s') := by
  rw [List.filterMap_append]
  cases he : f e with
  | none =>
    rw [h.hidden hrun hok hs he]
    simpa [he] using ha
  | some e' =>
    obtain ⟨i', hi'⟩ := h.shown hrun hok hs he
    simpa [he] using ha.next trivial hi'

/-- What a run of `M` shows from some point on is a run of `A` from what it showed there. -/
theorem Refines.run_from (h : Refines M A ok f abs) {l m : List ε} {s₀ s : σ}
    (h₀ : M.Run ok l s₀) (hm : (M.startAt s₀).Run (fun tr s i => ok (l ++ tr) s i) m s) :
    (A.startAt (abs s₀)).Run AnyStep (m.filterMap f) (abs s) := by
  induction hm with
  | start => exact .start
  | next hm hok hs ih => exact h.snoc (h₀.append hm) hok hs ih

/-- What a run of `M` shows is a run of `A`. -/
theorem Refines.run (h : Refines M A ok f abs) {tr : List ε} {s : σ} (hr : M.Run ok tr s) :
    A.Run AnyStep (tr.filterMap f) (abs s) := by
  have hfrom : (A.startAt (abs M.init)).Run AnyStep (tr.filterMap f) (abs s) :=
    h.run_from .start hr
  rw [h.init] at hfrom
  exact hfrom

end Machine

end ServiceLib
