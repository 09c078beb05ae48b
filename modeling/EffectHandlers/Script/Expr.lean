import EffectHandlers.Chain.Modifier
import EffectHandlers.Client.Demo
/-!
# Scripts

A small language over the whole interface of the runtime and of the client programs. Every
expression has a number as its value; blocks are lists of expressions with the value of the last.
Handler types, references, slots and queues have names.
-/

namespace EffectHandlers.Script

/-- Operations on two numbers. -/
inductive Arith where
  | add
  | sub
  | mul
  | remainder
  | less
  | equal
  deriving DecidableEq

/-- Where a resumption is kept. -/
inductive Slot where
  /-- In the scope of the running code. -/
  | own
  /-- Under a name that all code shares. -/
  | named (name : String)
  deriving DecidableEq

/-- A command as an expression sends it. -/
structure Sending where
  command : String
  /-- The handler type that is to serve the command, for static dispatch. -/
  handlerType : Option String := none
  /-- The notice of the command's end. -/
  tag : Option String := none
  deriving DecidableEq

/-- What a `handle` or `wrap` installs. -/
structure Spec where
  handlerType : String
  /-- The name under which a new instance is dropped. -/
  name : Option String := none
  /-- The name of an instance that several installations share. -/
  share : Option String := none
  /-- The name under which the body stores the reference to its installation. -/
  reference : Option String := none
  deriving DecidableEq

/-- What can be asked for without an argument. -/
inductive Question where
  | depth
  | inFiber
  | pooled
  | pending
  | fresh
  deriving DecidableEq

/-- What can be looked at as a whole. -/
inductive Picture where
  | snapshot
  | listing
  | tally
  | report
  /-- The listing, on standard error. -/
  | printed
  deriving DecidableEq

/-- An expression. -/
inductive Expr where
  | int (n : Int)
  | var (x : String)
  | assign (x : String) (e : Expr)
  | global (x : String)
  | setGlobal (x : String) (e : Expr)
  /-- The state of the handler instance. -/
  | state
  | setState (e : Expr)
  | arith (op : Arith) (a b : Expr)
  | sequence (es : List Expr)
  | cond (c : Expr) (yes no : List Expr)
  | repeatTimes (n : Expr) (x : String) (body : List Expr)
  | whileNonzero (c : Expr) (body : List Expr)
  | call (function : String) (e : Expr)
  | log (text : String) (es : List Expr)
  | guarded (text : String) (body : List Expr)
  | panic (text : String)
  | catching (body : List Expr)
  | invoke (s : Sending) (e : Expr)
  | invokeLabel (s : Sending) (label e : Expr)
  | invokeAt (s : Sending) (reference : String) (e : Expr)
  | find (command reference : String)
  | findLabel (label : Expr) (reference : String)
  | handle (spec : Spec) (label state : Option Expr) (body : List Expr)
  | resume (slot : Slot) (e : Expr)
  | tail (slot : Slot) (e : Expr)
  | valid (slot : Slot)
  | describe (slot : Slot)
  | drop (slot : Slot)
  | move (source target : Slot)
  /-- Put the resumption under a name from where nothing discards it. -/
  | setFree (slot : Slot) (name : String)
  | takeBack (name : String) (slot : Slot)
  | function (slot : Slot) (answer : String) (body : List Expr)
  | wrap (slot : Slot) (spec : Spec) (answer : String) (state : Option Expr) (body : List Expr)
  | push (queue : String) (slot : Slot)
  | pop (queue : String) (slot : Slot)
  | queueLength (queue : String)
  | unshare (name : String)
  | unreference (name : String)
  | ask (q : Question)
  | look (p : Picture)
  | issued (e : Expr)
  | installed (reference : String)
  | lookAt (reference : String)
  | pushFrame (label : Expr) (name : String) (clauses : List (String × Modifier))
  | popFrame
  | stateful (e : Expr) (body : List Expr)
  | lambda (e : Expr) (body : List Expr)
  | get
  | put (e : Expr)
  | withDefault (e : Expr) (body : List Expr)
  | error
  | product (xs : List Int)
  | bounded (e : Expr) (body : List Expr)
  | measure (body : List Expr)
  | consume (e : Expr)
  | fuelFib (e : Expr)
  | transaction (body : List Expr)
  | track (x : String) (e : Expr)
  | tracked (x : String)
  | rollback
  | reset (body : List Expr)
  | shift (k : String) (body : List Expr)
  | callContinuation (k : String) (e : Expr)
  | dropContinuation (k : String)
  | generator (g : String) (body : List Expr)
  | yield (e : Expr)
  | next (g : String)
  | dropGenerator (g : String)
  | logger (sink : String) (body : List Expr)
  | logFib (e : Expr)
  | readSink (sink : String)
  | emit (text : String)
  | emitLine (text : String)
  | capture (body : List Expr)
  | actors (body : List Expr)
  | self (mailbox : String)
  | spawn (mailbox : String) (body : List Expr)
  | send (mailbox : String) (e : Expr)
  | receive
  | receiveFrom (mailbox : String)
  | actorYield
  | asyncSpawn (future : String) (body : List Expr)
  | await (future : String)
  | futureValue (future : String)
  | futureReady (future : String)
  | asyncYield
  | threadYield
  | threadFork (body : List Expr)
  | demo (d : Demo)

/-- The declaration of a clause and its code. -/
structure ClauseDef where
  command : String
  modifier : Modifier
  body : List Expr

/-- A handler type: its clauses in the order of declaration, and the return clause. -/
structure TypeDef where
  name : String
  answer : String
  clauses : List ClauseDef := []
  onReturn : Option (List Expr) := none

/-- A script with the handler types and functions that it uses. -/
structure Program where
  types : List TypeDef := []
  functions : List (String × List Expr) := []
  main : List Expr

end EffectHandlers.Script
