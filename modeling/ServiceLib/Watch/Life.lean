import ServiceLib.Watch.Machine

namespace ServiceLib

/-- The event is a step of callback `k`. -/
def WatchEvent.about (k : Nat) : WatchEvent → Bool
  | .watched sub _ => sub.token = k
  | .ranAtOnce k' _ | .began k' | .ended k' | .subscribed k' | .threw k' _ => k' = k
  | _ => false

/-- The event opens or closes a registration of `id`. -/
def WatchEvent.turns (id : String) : WatchEvent → Bool
  | .stored id' | .registered id' | .erased id' => id' = id
  | _ => false

/-- Callback `k` does nothing. -/
def Silent (k : Nat) (tr : List WatchEvent) : Prop := ∀ e ∈ tr, e.about k = false

/-- `id` stays as it is, registered or not. -/
def Calm (id : String) (tr : List WatchEvent) : Prop := ∀ e ∈ tr, e.turns id = false

def Unstored (id : String) (tr : List WatchEvent) : Prop := ∀ e ∈ tr, e ≠ .stored id

/-- What becomes of a callback, by the id it was subscribed for. -/
inductive Life
  | unknown
  | pending (id : String)
  | notifying (id : String)
  | running (id : String)
  | ran (id : String)
  | done (id : String)
  | runningAtOnce (id : String)
  | ranAtOnce (id : String)
  | closed (id : String)

/-- The life of a callback: it waits for the first registration of its id and runs in it, or runs
at once in its subscription. -/
inductive Life.Advance (k : Nat) : Life → WatchEvent → Life → Prop
  | watched {sub : Subscription} {id : String} (hk : sub.token = k) :
      Advance k .unknown (.watched sub id) (.pending id)
  | stored {id} : Advance k (.pending id) (.stored id) (.notifying id)
  | began {id} : Advance k (.notifying id) (.began k) (.running id)
  | ended {id} : Advance k (.running id) (.ended k) (.ran id)
  | registered {id} : Advance k (.ran id) (.registered id) (.done id)
  | ranAtOnce {id} : Advance k .unknown (.ranAtOnce k id) (.runningAtOnce id)
  | endedAtOnce {id} : Advance k (.runningAtOnce id) (.ended k) (.ranAtOnce id)
  | subscribed {id} : Advance k (.ranAtOnce id) (.subscribed k) (.closed id)

/-- The events of others that may not come in a place of the life of a callback. -/
def Life.minds (e : WatchEvent) : Life → Bool
  | .pending id =>
    match e with
    | .stored id' => id' = id
    | _ => false
  | .notifying id | .running id | .ran id => e.turns id
  | _ => false

def Life.Ignores (k : Nat) (p : Life) (e : WatchEvent) : Prop :=
  e.about k = false ∧ p.minds e = false

theorem Life.ignores {k : Nat} (p : Life) {e : WatchEvent} (hk : e.about k = false)
    (hid : ∀ id, e.turns id = false) : p.Ignores k e := by
  refine ⟨hk, ?_⟩
  cases p with
  | pending id =>
    have ht := hid id
    cases e <;> simp_all [Life.minds, WatchEvent.turns]
  | notifying id | running id | ran id => exact hid id
  | _ => rfl

/-- The histories along which a callback gets to a place in its life. -/
inductive Course (k : Nat) : Life → List WatchEvent → Prop
  | unknown {l} (hl : Silent k l) : Course k .unknown l
  | pending {l sub id r} (hl : Silent k l) (hk : sub.token = k) (hr : Silent k r)
      (hid : Unstored id r) : Course k (.pending id) (l ++ .watched sub id :: r)
  | notifying {l id r} (hl : Course k (.pending id) l) (hr : Silent k r) (hid : Calm id r) :
      Course k (.notifying id) (l ++ .stored id :: r)
  | running {l id r} (hl : Course k (.notifying id) l) (hr : Silent k r) (hid : Calm id r) :
      Course k (.running id) (l ++ .began k :: r)
  | ran {l id r} (hl : Course k (.running id) l) (hr : Silent k r) (hid : Calm id r) :
      Course k (.ran id) (l ++ .ended k :: r)
  | done {l id r} (hl : Course k (.ran id) l) (hr : Silent k r) :
      Course k (.done id) (l ++ .registered id :: r)
  | runningAtOnce {l id r} (hl : Silent k l) (hr : Silent k r) :
      Course k (.runningAtOnce id) (l ++ .ranAtOnce k id :: r)
  | ranAtOnce {l id r} (hl : Course k (.runningAtOnce id) l) (hr : Silent k r) :
      Course k (.ranAtOnce id) (l ++ .ended k :: r)
  | closed {l id r} (hl : Course k (.ranAtOnce id) l) (hr : Silent k r) :
      Course k (.closed id) (l ++ .subscribed k :: r)

variable {k : Nat} {id : String} {e : WatchEvent} {l tr : List WatchEvent}

theorem Silent.snoc (h : Silent k tr) (he : e.about k = false) : Silent k (tr ++ [e]) := by
  intro e' he'
  rcases List.mem_append.mp he' with he' | he'
  · exact h e' he'
  · exact List.mem_singleton.mp he' ▸ he

theorem Calm.snoc (h : Calm id tr) (he : e.turns id = false) : Calm id (tr ++ [e]) := by
  intro e' he'
  rcases List.mem_append.mp he' with he' | he'
  · exact h e' he'
  · exact List.mem_singleton.mp he' ▸ he

theorem Unstored.snoc (h : Unstored id tr) (he : e ≠ .stored id) : Unstored id (tr ++ [e]) := by
  intro e' he'
  rcases List.mem_append.mp he' with he' | he'
  · exact h e' he'
  · exact List.mem_singleton.mp he' ▸ he

theorem Silent.nil : Silent k [] := fun _ h => absurd h List.not_mem_nil

theorem Calm.nil : Calm id [] := fun _ h => absurd h List.not_mem_nil

theorem Unstored.nil : Unstored id [] := fun _ h => absurd h List.not_mem_nil

namespace Course

variable {p q : Life}

theorem advance (h : Course k p l) (ha : Life.Advance k p e q) : Course k q (l ++ [e]) := by
  cases ha with
  | watched hk =>
    cases h with
    | unknown hl => exact .pending hl hk .nil .nil
  | stored => exact .notifying h .nil .nil
  | began => exact .running h .nil .nil
  | ended => exact .ran h .nil .nil
  | registered => exact .done h .nil
  | ranAtOnce =>
    cases h with
    | unknown hl => exact .runningAtOnce hl .nil
  | endedAtOnce => exact .ranAtOnce h .nil
  | subscribed => exact .closed h .nil

end Course

end ServiceLib
