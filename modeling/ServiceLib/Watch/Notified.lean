import ServiceLib.Watch.Settles
import ServiceLib.Watch.Stands

namespace ServiceLib

open Machine

variable {tr l r : List WatchEvent} {s s' : WatchState} {i : WatchInput} {e : WatchEvent} {k : Nat}
  {p : Life} {sub sub' : Subscription} {id id' : String}

/-- The callback has not run, and its id has not been registered since the subscription. -/
def Waiting (sub : Subscription) (id : String) (tr : List WatchEvent) : Prop :=
  ∃ l r, tr = l ++ .watched sub id :: r ∧ Silent sub.token l ∧ Silent sub.token r ∧ Unstored id r

/-- The id a pending callback was subscribed for. -/
def Life.watchedFor : Life → Option String
  | .pending id | .notifying id | .running id | .ran id | .done id => some id
  | _ => none

def Life.calledFor : Life → Option String
  | .runningAtOnce id | .ranAtOnce id | .closed id => some id
  | _ => none

theorem Silent.not_mem (h : Silent k tr) (he : e.about k = true) : e ∉ tr := by
  intro hmem
  simp [h e hmem] at he

/-- A step of a callback is not in a part of the history where it is silent. -/
theorem Silent.before {a : WatchEvent} (hr : Silent k r) (he : e.about k = true)
    (hmem : e ∈ l ++ a :: r) : e ∈ l ∨ e = a := by
  rcases List.mem_append.mp hmem with hmem | hmem
  · exact .inl hmem
  · exact .inr ((List.mem_cons.mp hmem).resolve_right (hr.not_mem he))

namespace Course

theorem watched (h : Course k p tr) (hmem : .watched sub id ∈ tr) (hk : sub.token = k) :
    p.watchedFor = some id := by
  have he : (WatchEvent.watched sub id).about k = true := by simp [WatchEvent.about, hk]
  induction h with
  | unknown hl => exact absurd hmem (hl.not_mem he)
  | pending hl _ hr _ =>
    obtain ⟨-, rfl⟩ := WatchEvent.watched.inj ((hr.before he hmem).resolve_left (hl.not_mem he))
    rfl
  | runningAtOnce hl hr => cases (hr.before he hmem).resolve_left (hl.not_mem he)
  | notifying _ hr _ ih | running _ hr _ ih | ran _ hr _ ih | done _ hr ih | ranAtOnce _ hr ih
  | closed _ hr ih => exact ih ((hr.before he hmem).resolve_right (by simp))

theorem watched_unique (h : Course k p tr) (hmem : .watched sub id ∈ tr) (hk : sub.token = k)
    (hmem' : .watched sub' id' ∈ tr) (hk' : sub'.token = k) : sub = sub' ∧ id = id' := by
  have he : (WatchEvent.watched sub id).about k = true := by simp [WatchEvent.about, hk]
  have he' : (WatchEvent.watched sub' id').about k = true := by simp [WatchEvent.about, hk']
  induction h with
  | unknown hl => exact absurd hmem (hl.not_mem he)
  | pending hl _ hr _ =>
    have heq := (hr.before he hmem).resolve_left (hl.not_mem he)
    have heq' := (hr.before he' hmem').resolve_left (hl.not_mem he')
    exact WatchEvent.watched.inj (heq.trans heq'.symm)
  | runningAtOnce hl hr => cases (hr.before he hmem).resolve_left (hl.not_mem he)
  | notifying _ hr _ ih | running _ hr _ ih | ran _ hr _ ih | done _ hr ih | ranAtOnce _ hr ih
  | closed _ hr ih =>
    exact ih ((hr.before he hmem).resolve_right (by simp))
      ((hr.before he' hmem').resolve_right (by simp))

theorem called (h : Course k p tr) (hmem : .ranAtOnce k id ∈ tr) : p.calledFor = some id := by
  have he : (WatchEvent.ranAtOnce k id).about k = true := by simp [WatchEvent.about]
  induction h with
  | unknown hl => exact absurd hmem (hl.not_mem he)
  | pending hl _ hr _ => cases (hr.before he hmem).resolve_left (hl.not_mem he)
  | runningAtOnce hl hr =>
    obtain ⟨-, rfl⟩ := WatchEvent.ranAtOnce.inj ((hr.before he hmem).resolve_left (hl.not_mem he))
    rfl
  | notifying _ hr _ ih | running _ hr _ ih | ran _ hr _ ih | done _ hr ih | ranAtOnce _ hr ih
  | closed _ hr ih => exact ih ((hr.before he hmem).resolve_right (by simp))

theorem waiting (h : Course k (.pending id) tr) (hmem : .watched sub id ∈ tr)
    (hk : sub.token = k) : Waiting sub id tr := by
  have hunique (sub' : Subscription) (hmem' : .watched sub' id ∈ tr) (hk' : sub'.token = k) :
      sub = sub' := (h.watched_unique hmem hk hmem' hk').1
  cases h with
  | @pending l sub' _ r hl hk' hr hid =>
    obtain rfl := hunique sub' (by simp) hk'
    subst hk
    exact ⟨l, r, rfl, hl, hr, hid⟩

theorem ended (h : Course k p tr) (hp : p = .ran id ∨ p = .done id) : .ended k ∈ tr := by
  rcases hp with rfl | rfl
  · cases h
    simp
  · cases h with
    | done h hr =>
      cases h
      simp

end Course

/-- Between two operations no callback is at work. -/
theorem Stands.between (h : Sound s) (hp : Stands s k p) (hf : s.focus = .idle) :
    p = .unknown ∨ (∃ id, p = .pending id) ∨ (∃ id, p = .done id) ∨ ∃ id, p = .closed id := by
  have hstack := h.idle hf
  have hloops : s.loops = [] := by simp [WatchState.loops, Focus.loops, hf, hstack]
  have hactive : s.active = [] := by simp [WatchState.active, Focus.active, hf, hstack]
  cases p with
  | unknown => exact .inl rfl
  | pending id => exact .inr (.inl ⟨id, rfl⟩)
  | done id => exact .inr (.inr (.inl ⟨id, rfl⟩))
  | closed id => exact .inr (.inr (.inr ⟨id, rfl⟩))
  | notifying id =>
    obtain ⟨l, hl, -⟩ := hp
    simp [hloops] at hl
  | running id =>
    obtain ⟨l, hl, -⟩ := hp
    simp [hactive] at hl
  | ran id =>
    obtain ⟨⟨l, hl, -⟩, -⟩ := hp
    simp [hloops] at hl
  | runningAtOnce id => simp [Stands, hactive] at hp
  | ranAtOnce id =>
    rw [Stands, hf] at hp
    cases hp

theorem WatchMoves.began_inv (hm : WatchMoves s i (.began k) s') :
    ∃ l, s.focus = .notify l ∧ (s.tokens l.id)[l.index]? = some k := by
  cases hm with
  | @notifyOne l sub hf hv hi => exact ⟨l, hf, by simp [WatchState.tokens, hi]⟩

end ServiceLib
