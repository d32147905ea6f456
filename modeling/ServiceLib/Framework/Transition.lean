import Mathlib.Data.List.Basic

namespace ServiceLib

/-- A machine reads one input a step, answers with a label and may refuse (`none`). -/
structure Machine (σ ι ε : Type*) where
  init : σ
  step : σ → ι → Option (ε × σ)

namespace Machine

variable {σ ι ε : Type*} (M : Machine σ ι ε)

/-- Runs whose steps all meet `ok`, with the labels emitted so far, oldest first.
The condition reads the history, the state before the step and the input. -/
inductive Run (ok : List ε → σ → ι → Prop) : List ε → σ → Prop
  | start : Run ok [] M.init
  | next {tr : List ε} {s s' : σ} {i : ι} {e : ε} (h : Run ok tr s) (hok : ok tr s i)
      (hs : M.step s i = some (e, s')) : Run ok (tr ++ [e]) s'

/-- Every interleaving, with no condition on the steps. -/
abbrev AnyStep (_ : List ε) (_ : σ) (_ : ι) : Prop := True

/-- The machine started in another state. -/
def startAt (s : σ) : Machine σ ι ε := ⟨s, M.step⟩

variable {M} {ok ok' : List ε → σ → ι → Prop}

/-- What holds at the start and is kept by every admitted step holds along every run. -/
theorem Run.invariant {J : List ε → σ → Prop} (h0 : J [] M.init)
    (hstep : ∀ {tr s i e s'}, M.Run ok tr s → J tr s → ok tr s i → M.step s i = some (e, s') →
      J (tr ++ [e]) s')
    {tr : List ε} {s : σ} (h : M.Run ok tr s) : J tr s := by
  induction h with
  | start => exact h0
  | next h hok hs ih => exact hstep h ih hok hs

theorem Run.mono (himp : ∀ tr s i, ok tr s i → ok' tr s i) {tr : List ε} {s : σ}
    (h : M.Run ok tr s) : M.Run ok' tr s := by
  induction h with
  | start => exact .start
  | next _ hok hs ih => exact .next ih (himp _ _ _ hok) hs

theorem Run.any {tr : List ε} {s : σ} (h : M.Run ok tr s) : M.Run AnyStep tr s :=
  h.mono fun _ _ _ _ => trivial

/-- The step of a run that emitted a given label, with the run up to it and the run from there. -/
theorem Run.split {tr : List ε} {s : σ} (h : M.Run ok tr s) {l r : List ε} {e : ε}
    (htr : tr = l ++ e :: r) :
    ∃ s₀ i s₁, M.Run ok l s₀ ∧ ok l s₀ i ∧ M.step s₀ i = some (e, s₁) ∧
      (M.startAt s₁).Run (fun tr s i => ok (l ++ e :: tr) s i) r s := by
  induction h generalizing r with
  | start => simp at htr
  | @next tr s s' i e' h hok hs ih =>
    rcases List.eq_nil_or_concat r with rfl | ⟨r', x, rfl⟩
    · obtain ⟨rfl, he⟩ := List.append_inj' htr rfl
      obtain rfl : e' = e := by simpa using he
      exact ⟨s, i, s', h, hok, hs, .start⟩
    · have h' : tr ++ [e'] = (l ++ e :: r') ++ [x] := by simpa using htr
      obtain ⟨rfl, hx⟩ := List.append_inj' h' rfl
      obtain rfl : e' = x := by simpa using hx
      obtain ⟨s₀, j, s₁, h₀, hok₀, hs₀, h₁⟩ := ih rfl
      rw [List.concat_eq_append]
      exact ⟨s₀, j, s₁, h₀, hok₀, hs₀, h₁.next hok hs⟩

/-- The step of a run that emitted a given label, with the run up to it. -/
theorem Run.at_label {tr : List ε} {s : σ} (h : M.Run ok tr s) {l r : List ε} {e : ε}
    (htr : tr = l ++ e :: r) :
    ∃ s₀ i s₁, M.Run ok l s₀ ∧ ok l s₀ i ∧ M.step s₀ i = some (e, s₁) ∧
      M.Run ok (l ++ [e]) s₁ := by
  obtain ⟨s₀, i, s₁, h₀, hok, hs, -⟩ := h.split htr
  exact ⟨s₀, i, s₁, h₀, hok, hs, h₀.next hok hs⟩

/-- Every prefix of a history is the history of some state of the run. -/
theorem Run.prefix {tr : List ε} {s : σ} (h : M.Run ok tr s) {l r : List ε}
    (htr : tr = l ++ r) : ∃ s₀, M.Run ok l s₀ := by
  cases r with
  | nil => exact ⟨s, by simpa [htr] using h⟩
  | cons e r =>
    obtain ⟨s₀, _, _, h₀, _⟩ := h.at_label htr
    exact ⟨s₀, h₀⟩

/-- The last step of a run. -/
theorem Run.last {l : List ε} {e : ε} {s : σ} (h : M.Run ok (l ++ [e]) s) :
    ∃ s₀ i, M.Run ok l s₀ ∧ ok l s₀ i ∧ M.step s₀ i = some (e, s) := by
  generalize htr : l ++ [e] = tr at h
  cases h with
  | start => simp at htr
  | @next tr s₀ _ i e' h hok hs =>
    obtain ⟨rfl, he⟩ := List.append_inj' htr rfl
    obtain rfl : e = e' := by simpa using he
    exact ⟨s₀, i, h, hok, hs⟩

/-- What holds at some point of a run and is kept by every admitted step holds from there on. -/
theorem Run.since {J : List ε → σ → Prop} {l r : List ε} (h0 : ∀ {s}, M.Run ok l s → J l s)
    (hstep : ∀ {tr s i e s'}, M.Run ok tr s → J tr s → ok tr s i → M.step s i = some (e, s') →
      J (tr ++ [e]) s')
    {tr : List ε} {s : σ} (h : M.Run ok tr s) (htr : tr = l ++ r) : J tr s := by
  induction h generalizing r with
  | start =>
    obtain ⟨rfl, rfl⟩ := List.append_eq_nil_iff.mp htr.symm
    exact h0 .start
  | @next tr s s' i e h hok hs ih =>
    rcases List.eq_nil_or_concat r with rfl | ⟨r', x, rfl⟩
    · obtain rfl : tr ++ [e] = l := by simpa using htr
      exact h0 (h.next hok hs)
    · have h' : tr ++ [e] = (l ++ r') ++ [x] := by simpa using htr
      exact hstep h (ih (List.append_inj' h' rfl).1) hok hs

theorem Run.and_of {J : List ε → σ → Prop} (hJ : ∀ {tr s}, M.Run ok tr s → J tr s) {tr : List ε}
    {s : σ} (h : M.Run ok tr s) : M.Run (fun tr s i => ok tr s i ∧ J tr s) tr s := by
  induction h with
  | start => exact .start
  | next h hok hs ih => exact .next ih ⟨hok, hJ h⟩ hs

/-- Where the history leaves one input, runs of one length are the same run. -/
theorem Run.eq_of_length (hdet : ∀ tr s i i', ok tr s i → ok tr s i' → i = i') {tr tr' : List ε}
    {s s' : σ} (h : M.Run ok tr s) (h' : M.Run ok tr' s') (hlen : tr.length = tr'.length) :
    tr = tr' ∧ s = s' := by
  induction h generalizing tr' s' with
  | start =>
    cases h' with
    | start => exact ⟨rfl, rfl⟩
    | next => simp at hlen
  | @next tr s s₁ i e h hok hs ih =>
    cases h' with
    | start => simp at hlen
    | @next tr' s' s₁' i' e' h' hok' hs' =>
      obtain ⟨rfl, rfl⟩ := ih h' (by simpa using hlen)
      obtain rfl := hdet _ _ _ _ hok hok'
      obtain ⟨rfl, rfl⟩ := Prod.mk.inj (Option.some.inj (hs.symm.trans hs'))
      exact ⟨rfl, rfl⟩

/-- Where the history leaves one input, the run that can go no further is the only one. -/
theorem Run.unique (hdet : ∀ tr s i i', ok tr s i → ok tr s i' → i = i') {tr tr' : List ε}
    {s s' : σ} (h : M.Run ok tr s) (hend : ∀ i, ok tr s i → M.step s i = none)
    (h' : M.Run ok tr' s') (hend' : ∀ i, ok tr' s' i → M.step s' i = none) :
    tr = tr' ∧ s = s' := by
  have hle {tr tr' : List ε} {s s' : σ} (h : M.Run ok tr s) (h' : M.Run ok tr' s')
      (hend : ∀ i, ok tr s i → M.step s i = none) : tr'.length ≤ tr.length := by
    induction h' with
    | start => exact Nat.zero_le _
    | @next tr' s' s₁ i e h' hok hs ih =>
      by_contra hlt
      have hlen : tr.length = tr'.length := by
        simp only [List.length_append, List.length_singleton] at hlt
        omega
      obtain ⟨rfl, rfl⟩ := h.eq_of_length hdet h' hlen
      rw [hend i hok] at hs
      cases hs
  exact h.eq_of_length hdet h' (Nat.le_antisymm (hle h' h hend') (hle h h' hend))

/-- A run goes on from the state it has come to. -/
theorem Run.append {l m : List ε} {s₀ s : σ} (h₀ : M.Run ok l s₀)
    (h : (M.startAt s₀).Run (fun tr s i => ok (l ++ tr) s i) m s) : M.Run ok (l ++ m) s := by
  induction h with
  | start => exact (List.append_nil l).symm ▸ h₀
  | next _ hok hs ih => exact List.append_assoc l _ _ ▸ .next ih hok hs

variable (M)

/-- The run driven by a list of inputs, if the check admits and the machine accepts each. -/
def exec (check : List ε → σ → ι → Bool) : List ι → List ε × σ → Option (List ε × σ)
  | [], c => some c
  | i :: is, c =>
    if check c.1 c.2 i then
      (M.step c.2 i).bind fun (e, s) => exec check is (c.1 ++ [e], s)
    else none

variable {M}

theorem Run.exec {check : List ε → σ → ι → Bool} (hcheck : ∀ tr s i, check tr s i → ok tr s i)
    {is : List ι} {c c' : List ε × σ} (h : M.Run ok c.1 c.2) (he : M.exec check is c = some c') :
    M.Run ok c'.1 c'.2 := by
  induction is generalizing c with
  | nil =>
    obtain rfl : c = c' := by simpa [Machine.exec] using he
    exact h
  | cons i is ih =>
    rw [Machine.exec] at he
    split at he
    · rename_i hok
      obtain ⟨⟨e, s⟩, hs, hr⟩ := Option.bind_eq_some_iff.mp he
      exact ih (c := (c.1 ++ [e], s)) (h.next (hcheck _ _ _ hok) hs) hr
    · simp at he

variable (M)

/-- Where a list of inputs drives the machine, or the start if one of them is refused. -/
def drive (check : List ε → σ → ι → Bool) (is : List ι) : List ε × σ :=
  (M.exec check is ([], M.init)).getD ([], M.init)

variable {M}

theorem run_drive {check : List ε → σ → ι → Bool} (hcheck : ∀ tr s i, check tr s i → ok tr s i)
    (is : List ι) : M.Run ok (M.drive check is).1 (M.drive check is).2 := by
  unfold drive
  cases he : M.exec check is ([], M.init) with
  | none => exact .start
  | some c => exact Run.exec (c := ([], M.init)) hcheck .start he

end Machine

end ServiceLib
