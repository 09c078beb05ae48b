/-!
# Clause modifiers

A handler declares for each of its commands how the command's clause is entered. The modifier
says whether the continuation is captured and what becomes of it.
-/

namespace EffectHandlers

/-- How a declared clause is dispatched. -/
inductive Modifier where
  /-- The continuation is captured and the clause gets a resumption. -/
  | resumptive
  /-- As `resumptive`, but the clause does not keep its installation alive. -/
  | noManage
  /-- The continuation is captured and discarded before the clause runs. -/
  | noResume
  /-- The clause runs in place, like a function call. -/
  | plain
  deriving DecidableEq

namespace Modifier

/-- The mark a listing puts behind the name of a command. -/
def mark : Modifier → String
  | resumptive => ""
  | noManage => "(no_manage)"
  | noResume => "(no_resume)"
  | plain => "(plain)"

/-- The name of the modifier as trace events and clause listings show it. -/
def name : Modifier → String
  | resumptive => "Resumptive"
  | noManage => "NoManage"
  | noResume => "NoResume"
  | plain => "Plain"

end Modifier

end EffectHandlers
