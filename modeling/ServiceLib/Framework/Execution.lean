import ServiceLib.Framework.Transition
import Mathlib.Data.Prod.Lex
import Mathlib.Order.OrderIsoNat

namespace ServiceLib.Machine

variable {σ ι ε θ : Type*} {M : Machine σ ι ε}

/-- An endless observation of the machine: at each moment it takes a step or stays as it is, as it
does for ever once nobody can go on. -/
structure Execution (M : Machine σ ι ε) where
  state : ℕ → σ
  event : ℕ → Option (ι × ε)
  step : ∀ k i e, event k = some (i, e) → M.step (state k) i = some (e, state (k + 1))
  rest : ∀ k, event k = none → state (k + 1) = state k

namespace Execution

/-- The labels of the steps taken before a moment, oldest first. -/
def trace (x : M.Execution) : ℕ → List ε
  | 0 => []
  | k + 1 => x.trace k ++ ((x.event k).map Prod.snd).toList

variable (x : M.Execution)

/-- What an execution does up to any moment is a run of the machine. -/
theorem run {tr : List ε} (h : M.Run AnyStep tr (x.state 0)) (k : ℕ) :
    M.Run AnyStep (tr ++ x.trace k) (x.state k) := by
  induction k with
  | zero => rwa [trace, List.append_nil]
  | succ k ih =>
    rw [trace]
    cases he : x.event k with
    | none => simpa [x.rest k he] using ih
    | some ie =>
      obtain ⟨i, e⟩ := ie
      have hnext := ih.next trivial (x.step k i e he)
      simpa [List.append_assoc] using hnext

/-- What holds at the start and is kept by every step of the execution holds at every moment. -/
theorem invariant {J : σ → Prop} {N : ℕ} (h0 : J (x.state N))
    (hstep : ∀ k, N ≤ k → ∀ i e, x.event k = some (i, e) → J (x.state k) → J (x.state (k + 1))) :
    ∀ k, N ≤ k → J (x.state k) := by
  intro k hk
  induction hk with
  | refl => exact h0
  | @step k hk ih =>
    cases he : x.event k with
    | none => rwa [x.rest k he]
    | some ie => exact hstep k hk ie.1 ie.2 he ih

/-- Where every step lowers a rank or keeps it and is idle, all steps are idle from some moment
on. -/
theorem comes_to_rest {α : Type*} [PartialOrder α] [WellFoundedLT α] (idle : σ → ι → Prop)
    (rank : σ → α) (hrank : ∀ k i e, x.event k = some (i, e) →
      rank (x.state (k + 1)) < rank (x.state k) ∨
        rank (x.state (k + 1)) = rank (x.state k) ∧ idle (x.state k) i) :
    ∃ N, ∀ k, N ≤ k → ∀ i e, x.event k = some (i, e) → idle (x.state k) i := by
  have hanti : Antitone fun k => rank (x.state k) := by
    refine antitone_nat_of_succ_le fun k => ?_
    cases he : x.event k with
    | none => rw [x.rest k he]
    | some ie =>
      rcases hrank k ie.1 ie.2 he with hlt | ⟨heq, -⟩
      · exact hlt.le
      · exact heq.le
  let f : ℕ →o αᵒᵈ := ⟨fun k => OrderDual.toDual (rank (x.state k)), hanti.dual_right⟩
  obtain ⟨N, hN⟩ := WellFoundedGT.monotone_chain_condition f
  refine ⟨N, fun k hk i e he => ?_⟩
  have hconst : rank (x.state k) = rank (x.state (k + 1)) :=
    OrderDual.toDual.injective ((hN k hk).symm.trans (hN (k + 1) (by omega)))
  rcases hrank k i e he with hlt | ⟨-, hidle⟩
  · exact absurd hlt (by rw [hconst]; exact lt_irrefl _)
  · exact hidle

/-- No agent that is ready to take a step is passed over for ever. -/
def Fair (agent : ι → θ) (ready : σ → θ → Prop) : Prop :=
  ∀ a k, ∃ m, k ≤ m ∧
    (¬ready (x.state m) a ∨ ∃ i e, x.event m = some (i, e) ∧ agent i = a)

/-- In a fair execution in which from some moment on no agent with something to do takes a step, and
none of them is disturbed by the others, nobody has anything to do. -/
theorem Fair.settles {x : M.Execution} {agent : ι → θ} {ready : σ → θ → Prop}
    (hfair : x.Fair agent ready) (busy : σ → θ → Prop) {N : ℕ}
    (hready : ∀ s a, busy s a → ready s a)
    (hidle : ∀ k, N ≤ k → ∀ i e, x.event k = some (i, e) → ¬busy (x.state k) (agent i))
    (hkept : ∀ k, N ≤ k → ∀ i e, x.event k = some (i, e) → ∀ a, busy (x.state k) a →
      busy (x.state (k + 1)) a) {k : ℕ} (hk : N ≤ k) (a : θ) : ¬busy (x.state k) a := by
  intro hbusy
  have hstays := x.invariant (J := fun s => busy s a) hbusy fun m hm i e he =>
    hkept m (hk.trans hm) i e he a
  obtain ⟨m, hm, hno | ⟨i, e, he, rfl⟩⟩ := hfair a k
  · exact hno (hready _ a (hstays m hm))
  · exact hidle m (hk.trans hm) i e he (hstays m hm)

end Execution

variable (M)

/-- Where a list of inputs takes the machine; an input it refuses changes nothing. -/
def after (s : σ) (is : List ι) : σ := is.foldl (fun s i => ((M.step s i).map Prod.snd).getD s) s

variable {M}

theorem after_snoc (s : σ) (is : List ι) (i : ι) :
    M.after s (is ++ [i]) = ((M.step (M.after s is) i).map Prod.snd).getD (M.after s is) := by
  simp [after]

namespace Execution

variable {s : σ} {is : List ι} {tail : Option (ι × ε)}

/-- The machine takes the inputs of a list and then one that leaves it as it is, for ever, or no
more. -/
def scripted (s : σ) (is : List ι) (tail : Option (ι × ε))
    (h : ∀ i e, tail = some (i, e) → M.step (M.after s is) i = some (e, M.after s is)) :
    M.Execution where
  state k := M.after s (is.take k)
  event k :=
    match is[k]? with
    | some i => (M.step (M.after s (is.take k)) i).map fun p => (i, p.1)
    | none => tail
  step k i e he := by
    rw [List.take_add_one]
    cases hi : is[k]? with
    | some i' =>
      rw [hi] at he
      obtain ⟨⟨e', s'⟩, hs, heq⟩ := Option.map_eq_some_iff.mp he
      obtain ⟨rfl, rfl⟩ := Prod.mk.inj heq
      rw [Option.toList_some, after_snoc, hs]
      rfl
    | none =>
      rw [hi] at he
      have hlen := List.getElem?_eq_none_iff.mp hi
      rw [Option.toList_none, List.append_nil, List.take_of_length_le hlen]
      exact h i e he
  rest k he := by
    rw [List.take_add_one]
    cases hi : is[k]? with
    | some i' =>
      rw [hi] at he
      rw [Option.toList_some, after_snoc, Option.map_eq_none_iff.mp he]
      rfl
    | none => rw [Option.toList_none, List.append_nil]

variable {h : ∀ i e, tail = some (i, e) → M.step (M.after s is) i = some (e, M.after s is)}

theorem scripted_end {k : ℕ} (hk : is.length ≤ k) :
    (scripted s is tail h).state k = M.after s is ∧ (scripted s is tail h).event k = tail := by
  refine ⟨congrArg (M.after s) (List.take_of_length_le hk), ?_⟩
  simp [scripted, List.getElem?_eq_none_iff.mpr hk]

theorem scripted_input {k : ℕ} {i : ι} {e : ε} (he : (scripted s is tail h).event k = some (i, e)) :
    i ∈ is ∨ tail = some (i, e) := by
  cases hi : is[k]? with
  | some i' =>
    simp only [scripted, hi, Option.map_eq_some_iff, Prod.mk.injEq] at he
    obtain ⟨-, -, rfl, -⟩ := he
    exact .inl (List.mem_of_getElem? hi)
  | none =>
    simp only [scripted, hi] at he
    exact .inr he

/-- A script is fair if nobody is ready at its end but who takes steps there for ever. -/
theorem scripted_fair {agent : ι → θ} {ready : σ → θ → Prop}
    (hend : ∀ a, ready (M.after s is) a → ∃ i e, tail = some (i, e) ∧ agent i = a) :
    (scripted s is tail h).Fair agent ready := by
  intro a k
  obtain ⟨hstate, hevent⟩ := scripted_end (h := h) (Nat.le_max_right k is.length)
  refine ⟨max k is.length, Nat.le_max_left k is.length, ?_⟩
  rw [hstate, hevent]
  by_cases ha : ready (M.after s is) a
  · exact .inr (hend a ha)
  · exact .inl ha

end Execution

end ServiceLib.Machine
