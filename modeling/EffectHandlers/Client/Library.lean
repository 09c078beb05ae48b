import EffectHandlers.Client.Actor
import EffectHandlers.Client.Delimited
import EffectHandlers.Client.Fallback
import EffectHandlers.Client.Fuel
import EffectHandlers.Client.Generator
import EffectHandlers.Client.MutableState
import EffectHandlers.Client.Promise
import EffectHandlers.Client.RoundRobin
import EffectHandlers.Client.Sink
import EffectHandlers.Client.Transaction
/-!
# The library of client programs

All handlers and procedures of the client programs by name, and the cells of a fresh thread.
-/

namespace EffectHandlers.Client

/-- The handlers of all client programs. -/
def handlers : List (String × HandlerType Content) :=
  MutableState.handlers ++ Generator.handlers ++ Fallback.handlers ++ Fuel.handlers
    ++ RoundRobin.handlers ++ Actor.handlers ++ Promise.handlers ++ Delimited.handlers
    ++ Transaction.handlers ++ Sink.handlers

/-- The procedures of all client programs. -/
def procedures : List (String × (Value → Task Value)) := Fuel.procedures ++ Sink.procedures

/-- A handler type that declares nothing. -/
def noHandler : HandlerType Content where
  answer := "()"
  clauses := []

/-- The library with these handlers and procedures. -/
def libraryOf (handlers : List (String × HandlerType Content))
    (procedures : List (String × (Value → Task Value))) : Library Content where
  handlerType name := (handlers.lookup name).getD noHandler
  procedure name arg :=
    match procedures.lookup name with
    | some p => (p arg).toComp
    | none => .done .unit

/-- The library of the client programs alone. -/
def library : Library Content := libraryOf handlers procedures

/-- What the cells of a fresh thread hold: the transcript, the queues of threads and of
asynchronous computations, and the random choices. -/
def cells : List Content := [.value (.text ""), .list [], .list [], .draws none]

end EffectHandlers.Client
