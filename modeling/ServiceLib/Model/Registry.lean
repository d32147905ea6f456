import Mathlib.Logic.Function.Basic

namespace ServiceLib

/-- The two maps of `InterfaceScheduler`, over any type of actions and of watchers. -/
structure Registry (α ω : Type) where
  actionMapping : String → Option α
  notifyMapping : String → Option (List ω)

namespace Registry

variable {α ω : Type} (r : Registry α ω)

def empty : Registry α ω := ⟨fun _ => none, fun _ => none⟩

def isRegistered (id : String) : Bool := (r.actionMapping id).isSome

/-- `actionMapping_[idStr] = {action, typeId}`. -/
def store (id : String) (a : α) : Registry α ω :=
  { r with actionMapping := Function.update r.actionMapping id (some a) }

/-- `actionMapping_.erase(idStr)`. -/
def eraseAction (id : String) : Registry α ω :=
  { r with actionMapping := Function.update r.actionMapping id none }

/-- `notifyMapping_[idStr]`, the empty list where there is no entry. -/
def watchers (id : String) : List ω := (r.notifyMapping id).getD []

/-- `notifyMapping_[idStr].push_back(cb)`. -/
def watch (id : String) (cb : ω) : Registry α ω :=
  { r with notifyMapping := Function.update r.notifyMapping id (some (r.watchers id ++ [cb])) }

/-- `notifyMapping_.erase(idStr)`. -/
def eraseWatchers (id : String) : Registry α ω :=
  { r with notifyMapping := Function.update r.notifyMapping id none }

@[simp] theorem store_notifyMapping (id : String) (a : α) :
    (r.store id a).notifyMapping = r.notifyMapping := rfl

@[simp] theorem eraseAction_notifyMapping (id : String) :
    (r.eraseAction id).notifyMapping = r.notifyMapping := rfl

@[simp] theorem watch_actionMapping (id : String) (cb : ω) :
    (r.watch id cb).actionMapping = r.actionMapping := rfl

@[simp] theorem eraseWatchers_actionMapping (id : String) :
    (r.eraseWatchers id).actionMapping = r.actionMapping := rfl

theorem store_actionMapping (id : String) (a : α) :
    (r.store id a).actionMapping = Function.update r.actionMapping id (some a) := rfl

theorem eraseAction_actionMapping (id : String) :
    (r.eraseAction id).actionMapping = Function.update r.actionMapping id none := rfl

theorem watchers_watch (id id' : String) (cb : ω) :
    (r.watch id cb).watchers id' = if id' = id then r.watchers id ++ [cb] else r.watchers id' := by
  by_cases h : id' = id <;> simp [watchers, watch, h]

theorem watchers_eraseWatchers (id id' : String) :
    (r.eraseWatchers id).watchers id' = if id' = id then [] else r.watchers id' := by
  by_cases h : id' = id <;> simp [watchers, eraseWatchers, h]

theorem isRegistered_store (id id' : String) (a : α) :
    (r.store id a).isRegistered id' = (decide (id' = id) || r.isRegistered id') := by
  by_cases h : id' = id <;> simp [isRegistered, store_actionMapping, h]

theorem isRegistered_eraseAction (id id' : String) :
    (r.eraseAction id).isRegistered id' = (!decide (id' = id) && r.isRegistered id') := by
  by_cases h : id' = id <;> simp [isRegistered, eraseAction_actionMapping, h]

end Registry

end ServiceLib
