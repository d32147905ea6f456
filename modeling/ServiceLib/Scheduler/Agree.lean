import ServiceLib.Scheduler.Completion

namespace ServiceLib

open Machine

variable {T : ArgTypes} {n : Nat} {σ : Type*} {c : ServiceCall T n σ} {s : Sys T n}
  {strand strand' : String} {wait : Bool}

namespace ServiceCall

/-- A started scheduler with the service registered, a caller that may call it, and nobody else
active on the service: every worker the call may be queued on serves, and the caller is not in a
job of that worker. -/
structure Quiet (c : ServiceCall T n σ) (s : Sys T n) (strand : String) : Prop where
  reached : ∃ l, (pool T n).Run AnyStep l s
  workers : 0 < n
  client : s.AtClient c.caller
  unlocked : s.Unlocked c.caller
  registered : s.mem.registry.actionMapping c.id = some (some c.action, c.args.getType)
  serves : ∀ w, s.Chosen strand w → c.Serves s w ∧ c.caller ≠ .worker w

/-- The synchronous and the blocking asynchronous call both return, and however they do they have
the same effects, leave the service in the same state and end with the same result. -/
structure Agrees (c : ServiceCall T n σ) (s : Sys T n) (wait : Bool) (strand strand' : String) :
    Prop where
  sync : ∃ m s', c.Completes s (c.syncProp wait strand) m s'
  async : ∃ m s', c.Completes s (c.blockingProp strand') m s'
  effects : ∀ {m₁ s₁ m₂ s₂}, c.Completes s (c.syncProp wait strand) m₁ s₁ →
    c.Completes s (c.blockingProp strand') m₂ s₂ →
    c.effects m₁ = c.expected ∧ c.effects m₂ = c.expected
  state : ∀ {m₁ s₁ m₂ s₂}, c.Completes s (c.syncProp wait strand) m₁ s₁ →
    c.Completes s (c.blockingProp strand') m₂ s₂ →
    (c.after (c.effects m₁)).2 = (c.after (c.effects m₂)).2
  result : ∀ {m₁ s₁ m₂ s₂}, c.Completes s (c.syncProp wait strand) m₁ s₁ →
    c.Completes s (c.blockingProp strand') m₂ s₂ → s₁.result c.caller = s₂.result c.caller

end ServiceCall

end ServiceLib
