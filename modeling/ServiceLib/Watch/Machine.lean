import ServiceLib.Framework.Transition
import ServiceLib.Model.ArgDefs
import ServiceLib.Model.Registry

namespace ServiceLib

/-- The calls of `InterfaceScheduler` that work on its two maps, over any type of callbacks. -/
inductive WatchOp (ω : Type)
  | subscribeForRegistration (id : String) (cb : ω)
  | registerInterface (id : String) (action : Option ClientFn) (typeId : String)
  | unRegiterInterface (id : String)
  | isServiceRegistered (id : String)

/-- A callback of a client as a finite program: it returns, throws, or makes a call and goes on
with what the call ended with, an exception it catches included. -/
inductive Watcher
  | ret
  | throw (e : Exn)
  | call (op : WatchOp Watcher) (next : Outcome → Watcher)

/-- An element of `notifyMapping_`. The number tells equal callbacks apart. -/
structure Subscription where
  token : Nat
  code : Watcher

/-- The loop of `notifySubscribersOnRegistration`: the index it comes to next, and whether its
iterators are valid still. -/
structure Loop where
  id : String
  index : Nat
  valid : Bool

/-- Who has called a callback. -/
inductive Site
  | subscribe
  | notify (l : Loop)

/-- What is at work; `idle` is the only place where `mappingLock_` is free. -/
inductive Focus
  | idle
  | call (op : WatchOp Watcher)
  | notify (l : Loop)
  | run (site : Site) (k : Nat) (code : Watcher)
  | subscribeExit (k : Nat)

/-- A callback that waits for a call it has made. -/
structure Activation where
  site : Site
  token : Nat
  next : Outcome → Watcher

inductive WatchEvent
  | called (t : Nat) (op : WatchOp Watcher)
  | tau
  | refused (id : String)
  | watched (sub : Subscription) (id : String)
  | ranAtOnce (k : Nat) (id : String)
  | subscribed (k : Nat)
  | stored (id : String)
  | began (k : Nat)
  | ended (k : Nat)
  | threw (k : Nat) (e : Exn)
  | registered (id : String)
  | erased (id : String)

/-- A top-level call by some thread, or one step of the call in progress. -/
inductive WatchInput
  | call (t : Nat) (op : WatchOp Watcher)
  | run

/-- A change of the vector of `id` leaves the iterators of a loop over it invalid. -/
def Loop.touch (id : String) (l : Loop) : Loop := { l with valid := l.valid && !(l.id = id) }

def Site.touch (id : String) : Site → Site
  | .subscribe => .subscribe
  | .notify l => .notify (l.touch id)

def Activation.touch (id : String) (a : Activation) : Activation :=
  { a with site := a.site.touch id }

structure WatchState where
  registry : Registry (ClientFn × String) Subscription
  focus : Focus
  stack : List Activation
  fresh : Nat

namespace WatchState

variable (s : WatchState)

def init : WatchState := ⟨.empty, .idle, [], 0⟩

/-- A call ends: the callback that made it goes on, or the lock is released. -/
def back (o : Outcome) : WatchState :=
  match s.stack with
  | [] => { s with focus := .idle }
  | a :: st => { s with focus := .run a.site a.token (a.next o), stack := st }

def touch (id : String) : WatchState := { s with stack := s.stack.map (·.touch id) }

def subscribeForRegistration (id : String) (cb : Watcher) : WatchEvent × WatchState :=
  if s.registry.isRegistered id then
    (.ranAtOnce s.fresh id, { s with focus := .run .subscribe s.fresh cb, fresh := s.fresh + 1 })
  else
    let sub : Subscription := ⟨s.fresh, cb⟩
    (.watched sub id, ({ s with registry := s.registry.watch id sub,
                                fresh := s.fresh + 1 }.touch id).back (.ret true))

def registerInterface (id : String) (action : Option ClientFn) (typeId : String) :
    WatchEvent × WatchState :=
  match action with
  | none => (.refused id, s.back (.threw (.invalidArgument
      ("Empty function provided as callback, name=" ++ id))))
  | some a =>
    if s.registry.isRegistered id then
      (.refused id, s.back (.threw (.logicError
        ("Duplicated registration for " ++ id ++ " - unregister firstly"))))
    else
      (.stored id, { s with registry := s.registry.store id (a, typeId),
                            focus := .notify ⟨id, 0, true⟩ })

/-- `cancelJobsFor` works on the pool alone and is left out. -/
def unRegiterInterface (id : String) : WatchEvent × WatchState :=
  if s.registry.isRegistered id then
    (.erased id, { s with registry := s.registry.eraseAction id }.back (.ret true))
  else (.tau, s.back (.ret true))

def perform : WatchOp Watcher → WatchEvent × WatchState
  | .subscribeForRegistration id cb => s.subscribeForRegistration id cb
  | .registerInterface id action typeId => s.registerInterface id action typeId
  | .unRegiterInterface id => s.unRegiterInterface id
  | .isServiceRegistered id => (.tau, s.back (.ret (s.registry.isRegistered id)))

/-- The head of the loop. Going on with an invalid iterator has no defined behaviour in the source
and no step here. -/
def notifySubscribersOnRegistration (l : Loop) : Option (WatchEvent × WatchState) :=
  if l.valid then
    match (s.registry.watchers l.id)[l.index]? with
    | some sub => some (.began sub.token,
        { s with focus := .run (.notify { l with index := l.index + 1 }) sub.token sub.code })
    | none => some (.registered l.id,
        ({ s with registry := s.registry.eraseWatchers l.id }.touch l.id).back (.ret true))
  else none

/-- One step of a callback; an exception ends the function that called it as well. -/
def runCode (site : Site) (k : Nat) : Watcher → WatchEvent × WatchState
  | .ret => (.ended k,
      match site with
      | .subscribe => { s with focus := .subscribeExit k }
      | .notify l => { s with focus := .notify l })
  | .throw e => (.threw k e, s.back (.threw e))
  | .call op next => (.tau, { s with focus := .call op, stack := ⟨site, k, next⟩ :: s.stack })

def step : WatchInput → Option (WatchEvent × WatchState)
  | .call t op =>
    match s.focus with
    | .idle => some (.called t op, { s with focus := .call op })
    | _ => none
  | .run =>
    match s.focus with
    | .idle => none
    | .call op => some (s.perform op)
    | .notify l => s.notifySubscribersOnRegistration l
    | .run site k code => some (s.runCode site k code)
    | .subscribeExit k => some (.subscribed k, s.back (.ret true))

end WatchState

/-- The operations on the two maps, each run to its end under `mappingLock_` with the callbacks it
calls and the calls these make. -/
def watch : Machine WatchState WatchInput WatchEvent := ⟨.init, WatchState.step⟩

/-- Everything one step can do, a constructor for each branch of the source. -/
inductive WatchMoves (s : WatchState) : WatchInput → WatchEvent → WatchState → Prop
  | call (t : Nat) (op : WatchOp Watcher) (hf : s.focus = .idle) :
      WatchMoves s (.call t op) (.called t op) { s with focus := .call op }
  | subscribeRun {id cb} (hf : s.focus = .call (.subscribeForRegistration id cb))
      (hr : s.registry.isRegistered id = true) :
      WatchMoves s .run (.ranAtOnce s.fresh id)
        { s with focus := .run .subscribe s.fresh cb, fresh := s.fresh + 1 }
  | subscribe {id cb} (hf : s.focus = .call (.subscribeForRegistration id cb))
      (hr : s.registry.isRegistered id = false) :
      WatchMoves s .run (.watched ⟨s.fresh, cb⟩ id)
        (({ s with registry := s.registry.watch id ⟨s.fresh, cb⟩,
                   fresh := s.fresh + 1 }.touch id).back (.ret true))
  | refuse {id a typeId e} (hf : s.focus = .call (.registerInterface id a typeId))
      (hr : a = none ∨ s.registry.isRegistered id = true) :
      WatchMoves s .run (.refused id) (s.back (.threw e))
  | register {id a typeId} (hf : s.focus = .call (.registerInterface id (some a) typeId))
      (hr : s.registry.isRegistered id = false) :
      WatchMoves s .run (.stored id)
        { s with registry := s.registry.store id (a, typeId), focus := .notify ⟨id, 0, true⟩ }
  | unregister {id} (hf : s.focus = .call (.unRegiterInterface id))
      (hr : s.registry.isRegistered id = true) :
      WatchMoves s .run (.erased id)
        ({ s with registry := s.registry.eraseAction id }.back (.ret true))
  | unregisterUnknown {id} (hf : s.focus = .call (.unRegiterInterface id))
      (hr : s.registry.isRegistered id = false) :
      WatchMoves s .run .tau (s.back (.ret true))
  | isRegistered {id} (hf : s.focus = .call (.isServiceRegistered id)) :
      WatchMoves s .run .tau (s.back (.ret (s.registry.isRegistered id)))
  | notifyOne {l sub} (hf : s.focus = .notify l) (hv : l.valid = true)
      (hi : (s.registry.watchers l.id)[l.index]? = some sub) :
      WatchMoves s .run (.began sub.token)
        { s with focus := .run (.notify { l with index := l.index + 1 }) sub.token sub.code }
  | notifyEnd {l} (hf : s.focus = .notify l) (hv : l.valid = true)
      (hi : (s.registry.watchers l.id)[l.index]? = none) :
      WatchMoves s .run (.registered l.id)
        (({ s with registry := s.registry.eraseWatchers l.id }.touch l.id).back (.ret true))
  | finishAtOnce {k} (hf : s.focus = .run .subscribe k .ret) :
      WatchMoves s .run (.ended k) { s with focus := .subscribeExit k }
  | finish {l k} (hf : s.focus = .run (.notify l) k .ret) :
      WatchMoves s .run (.ended k) { s with focus := .notify l }
  | throw {site k e} (hf : s.focus = .run site k (.throw e)) :
      WatchMoves s .run (.threw k e) (s.back (.threw e))
  | nest {site k op next} (hf : s.focus = .run site k (.call op next)) :
      WatchMoves s .run .tau { s with focus := .call op, stack := ⟨site, k, next⟩ :: s.stack }
  | subscribeExit {k} (hf : s.focus = .subscribeExit k) :
      WatchMoves s .run (.subscribed k) (s.back (.ret true))

theorem watch_moves {s s' : WatchState} {i : WatchInput} {e : WatchEvent}
    (h : watch.step s i = some (e, s')) : WatchMoves s i e s' := by
  cases i with
  | call t op =>
    simp only [watch, WatchState.step] at h
    split at h
    · rename_i hf
      cases h
      exact .call t op hf
    · cases h
  | run =>
    simp only [watch, WatchState.step] at h
    split at h
    case h_1 => cases h
    case h_2 op hf =>
      cases op with
      | subscribeForRegistration id cb =>
        simp only [WatchState.perform, WatchState.subscribeForRegistration] at h
        split at h
        · rename_i hr
          cases h
          exact .subscribeRun hf hr
        · rename_i hr
          cases h
          exact .subscribe hf (by simpa using hr)
      | registerInterface id action typeId =>
        simp only [WatchState.perform, WatchState.registerInterface] at h
        split at h
        · cases h
          exact .refuse hf (.inl rfl)
        · split at h
          · rename_i hr
            cases h
            exact .refuse hf (.inr hr)
          · rename_i hr
            cases h
            exact .register hf (by simpa using hr)
      | unRegiterInterface id =>
        simp only [WatchState.perform, WatchState.unRegiterInterface] at h
        split at h
        · rename_i hr
          cases h
          exact .unregister hf hr
        · rename_i hr
          cases h
          exact .unregisterUnknown hf (by simpa using hr)
      | isServiceRegistered id =>
        cases h
        exact .isRegistered hf
    case h_3 l hf =>
      simp only [WatchState.notifySubscribersOnRegistration] at h
      split at h
      · rename_i hv
        split at h
        · rename_i hi
          cases h
          exact .notifyOne hf hv hi
        · rename_i hi
          cases h
          exact .notifyEnd hf hv hi
      · cases h
    case h_4 site k code hf =>
      cases code with
      | ret =>
        cases site <;> cases h
        · exact .finishAtOnce hf
        · exact .finish hf
      | throw e =>
        cases h
        exact .throw hf
      | call op next =>
        cases h
        exact .nest hf
    case h_5 k hf =>
      cases h
      exact .subscribeExit hf

end ServiceLib
