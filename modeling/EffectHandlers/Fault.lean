/-!
# Faults

A fault is a misuse of dispatch or resumption that ends the program, or one of the few failures
that are reported to the caller. Each names its cause; the wording is in `Fault.message`.
-/

namespace EffectHandlers

/-- What can go wrong while handlers are installed, commands dispatched and resumptions used. -/
inductive Fault where
  /-- No installed handler declares the command. -/
  | noHandler (command : String)
  /-- An invocation by label found no installation with the label. -/
  | labelNotFound (label : Int) (command : String)
  /-- A search by label found no installation. -/
  | noSuchLabel (label : Int)
  /-- The designated installation does not declare the command. -/
  | labelDoesNotHandle (label : Int) (handler command : String)
  /-- The designated installation is of another handler type. -/
  | handlerMismatch (expected found : String)
  /-- The referenced installation is not on the chain. -/
  | staleReference (label : Int) (handler : String)
  /-- A resumption was resumed that holds no continuation. -/
  | resumeEmpty
  /-- A tail resume was requested while another one was waiting. -/
  | tailSlotOccupied
  /-- The waiting tail resume does not answer with the expected type. -/
  | tailResumeMismatch (expected : String)
  /-- Control came back to an invocation whose continuation was discarded. -/
  | malformedNoResume (command : String)
  /-- Label 0 and the retired label cannot be given to an installation. -/
  | reservedLabel (label : Int)
  /-- A negative label that was never handed out. -/
  | unissuedLabel (label : Int)
  /-- A command had to suspend where no fiber was running. -/
  | notInFiber (command : String)
  /-- A handler type declares a command twice. -/
  | duplicateClause (handler command : String)
  /-- The settings were already in use when they were to be set. -/
  | alreadyConfigured
  /-- No memory for a fiber's stack. -/
  | stackAllocation (text : String)
  /-- A broken invariant of the runtime itself. -/
  | internal (text : String)
  deriving DecidableEq

namespace Fault

/-- The text that reports a fault. -/
def message : Fault → String
  | noHandler command => "no handler for command " ++ command
  | labelNotFound label command =>
    "no handler with label " ++ toString label ++ " (invoking command " ++ command ++ ")"
  | noSuchLabel label => "no handler with label " ++ toString label
  | labelDoesNotHandle label handler command =>
    "handler " ++ handler ++ " with label " ++ toString label ++ " does not handle command "
      ++ command
  | handlerMismatch expected found =>
    "static dispatch expected handler " ++ expected ++ " but found " ++ found
  | staleReference label handler =>
    "handler reference " ++ toString label ++ ":" ++ handler
      ++ " is not installed on the metastack"
  | resumeEmpty => "resuming an empty resumption"
  | tailSlotOccupied => "tail-resume requested while another is still pending"
  | tailResumeMismatch expected => "pending tail-resume does not answer with " ++ expected
  | malformedNoResume command => "malformed no_resume handler for command " ++ command
  | reservedLabel label => "label " ++ toString label ++ " is reserved by the runtime"
  | unissuedLabel label =>
    "label " ++ toString label
      ++ " was not issued by fresh_label; explicit labels must be positive"
  | notInFiber command =>
    "command " ++ command ++ " cannot suspend: no fiber is running on this thread"
  | duplicateClause handler command =>
    "handler " ++ handler ++ " declares command " ++ command ++ " more than once"
  | alreadyConfigured => "runtime configuration is already fixed"
  | stackAllocation text => "fiber stack allocation failed: " ++ text
  | internal text => "internal error: " ++ text

end Fault

end EffectHandlers
