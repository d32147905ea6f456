import Mathlib.Logic.Function.Basic

namespace ServiceLib

/-- The argument tuples of the client program, with the text of `typeid(...).name()` for each. -/
structure ArgTypes where
  Tuple : Type
  Value : Tuple → Type
  typeName : Tuple → String

/-- The client program with the empty argument tuple only. -/
def ArgTypes.unit : ArgTypes := ⟨Unit, fun _ => Unit, fun _ => "v"⟩

/-- `ParamArgs<Args...>`; the library passes it on as a plain `ParaArgsBase`. -/
structure ParamArgs (T : ArgTypes) where
  tuple : T.Tuple
  parameters : T.Value tuple

def ParamArgs.getType {T : ArgTypes} (p : ParamArgs T) : String := T.typeName p.tuple

/-- A function object of the client, known by its number; its body is client code. -/
abbrev ClientFn := Nat

/-- The lambda made by `registerInterfaceFor<Args...>`: it casts its argument to `ActualType`
without a check and passes it to `func`. -/
structure TypedAction (T : ArgTypes) where
  actualType : T.Tuple
  func : ClientFn

/-- `std::function<bool(const ParaArgsBase&)>`, empty or with a target. -/
abbrev CallbackType (T : ArgTypes) := Option (TypedAction T)

/-- The targets a `std::function<bool()>` can have in the library. The number in `bound` names
the `interfaceCall`, the one in `syncDone` the `doSyncJob` that made the closure. -/
inductive Callable (T : ArgTypes)
  | client (f : ClientFn)
  | bound (call : Nat) (action : CallbackType T) (param : ParamArgs T)
  | syncDone (onDone : Option (Callable T)) (call : Nat)

structure CallProperty where
  async : Bool
  waitForDone : Bool
  onCallDone : Option ClientFn
  strand : String

inductive Exn
  | invalidArgument (what : String)
  | logicError (what : String)
  | badFunctionCall
  deriving DecidableEq

/-- How a function of the library or a callback ends. -/
inductive Outcome
  | ret (b : Bool)
  | threw (e : Exn)
  deriving DecidableEq

end ServiceLib
