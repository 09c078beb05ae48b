import EffectHandlers.Bounce.Program
import EffectHandlers.Fiber.Script
import EffectHandlers.Main
import EffectHandlers.Proofs.Abandoning
import EffectHandlers.Proofs.Agreement
import EffectHandlers.Proofs.Allotting
import EffectHandlers.Proofs.Deciding
import EffectHandlers.Proofs.Delivery
import EffectHandlers.Proofs.Designation
import EffectHandlers.Proofs.Discarding
import EffectHandlers.Proofs.Echoing
import EffectHandlers.Proofs.Fibonacci
import EffectHandlers.Proofs.Frugality
import EffectHandlers.Proofs.Generating
import EffectHandlers.Proofs.Identity
import EffectHandlers.Proofs.Independence
import EffectHandlers.Proofs.Issuing
import EffectHandlers.Proofs.Labels
import EffectHandlers.Proofs.Lasting
import EffectHandlers.Proofs.LifeCycle
import EffectHandlers.Proofs.Nesting
import EffectHandlers.Proofs.Outstanding
import EffectHandlers.Proofs.Overriding
import EffectHandlers.Proofs.Overtaking
import EffectHandlers.Proofs.Passing
import EffectHandlers.Proofs.Pending
import EffectHandlers.Proofs.Pinning
import EffectHandlers.Proofs.PlainState
import EffectHandlers.Proofs.Products
import EffectHandlers.Proofs.Rounds
import EffectHandlers.Proofs.Schedules
import EffectHandlers.Proofs.Scheduling
import EffectHandlers.Proofs.Sessions
import EffectHandlers.Proofs.Sparing
import EffectHandlers.Proofs.Stepping
import EffectHandlers.Proofs.TailLoops
import EffectHandlers.Proofs.TailSlot
import EffectHandlers.Proofs.TakingTurns
import EffectHandlers.Proofs.Targets
import EffectHandlers.Proofs.TypedSearch
import EffectHandlers.Proofs.Undoing
import EffectHandlers.Proofs.Untroubled
import EffectHandlers.Proofs.Wakeups
import EffectHandlers.Script.Meaning
import EffectHandlers.Session.Counting
import EffectHandlers.Session.Setup
