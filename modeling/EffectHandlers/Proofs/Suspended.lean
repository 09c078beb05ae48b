import EffectHandlers.Proofs.Drivers
import EffectHandlers.Proofs.Orderly
/-!
# Suspended code

What the stack of a fiber looks like while it is running, waiting or parked, and how parked
fibers belong together: an invoker that waits for its result, below it the fiber of the driver
that passed the request on, and so on down to the fiber that was cut off. Such a tower of fibers
is what a captured continuation goes on with.
-/

namespace EffectHandlers

variable {ω : Type}

/-- An activation that takes a value and goes on by itself, with orderly code. -/
def Activation.Inner : Activation ω → Prop
  | bind next => ∀ v, (next v).Orderly
  | owning _ => True
  | catching next => ∀ r, (next r).Orderly
  | looping body next => (∀ v, (body v).Orderly) ∧ ∀ v, (next v).Orderly
  | inPlace .. => True
  | _ => False

/-- An activation whose value is an answer for the loop below it. -/
def Activation.Answers : Activation ω → Prop
  | clause .. => True
  | returning .. => True
  | calling _ => True
  | _ => False

/-- Code that can be given a value, all the way down. -/
inductive Ready : List (Activation ω) → Prop
  | nil : Ready []
  | inner {a S} (ha : a.Inner) (hS : Ready S) : Ready (a :: S)
  | answers {a S} (ha : a.Answers) (hS : Ready S) : Ready (a :: .stepping :: S)

/-- Code whose topmost loop waits for the fiber of an installation's body. -/
def Driving (i : InstallationId) (f : FiberId) (code : List (Activation ω)) : Prop :=
  ∃ S, code = .driving i f :: .stepping :: S ∧ Ready S

/-- Every piece of waiting code drives the fiber that it waits for, and native code waits last. -/
inductive Waiters : Option FiberId → List (Resumer (List (Activation ω))) → Prop
  | native : Waiters none []
  | fiber {i f cur rs code} (hcode : Driving i f code) (hrest : Waiters cur rs) :
      Waiters (some f) (⟨f, cur, code⟩ :: rs)

/-- A parked fiber with the fibers parked on top of it. -/
inductive Tower (ω : Type) where
  /-- The fiber of an invoker. -/
  | invoker (fiber : FiberId) (i : InstallationId) (exchange : ExchangeId) (modifier : Modifier)
      (command : String) (rest : List (Activation ω))
  /-- The fiber of a driver that waits for the fiber above. -/
  | driver (fiber : FiberId) (i : InstallationId) (above : Tower ω) (rest : List (Activation ω))

namespace Tower

/-- The fiber at the bottom. -/
def root : Tower ω → FiberId
  | invoker fiber .. => fiber
  | driver fiber .. => fiber

/-- What the fiber at the bottom goes on with. -/
def stack : Tower ω → List (Activation ω)
  | invoker _ i exchange modifier command rest => .sending i exchange modifier command :: rest
  | driver _ i above rest => .driving i above.root :: .stepping :: rest

/-- All fibers with their stacks, from the bottom up. -/
def entries : Tower ω → List (FiberId × List (Activation ω))
  | t@(invoker ..) => [(t.root, t.stack)]
  | t@(driver _ _ above _) => (t.root, t.stack) :: above.entries

/-- The tower without its lowest fiber, if there is any fiber above that. -/
def rest : Tower ω → List (Tower ω)
  | invoker .. => []
  | driver _ _ above _ => [above]

/-- The code of all fibers, the invoker's first. -/
def code : Tower ω → List (Activation ω)
  | t@(invoker ..) => t.stack
  | t@(driver _ _ above _) => above.code ++ t.stack

/-- The exchange that the invoker waits for. -/
def exchange : Tower ω → ExchangeId
  | invoker _ _ exchange .. => exchange
  | driver _ _ above _ => above.exchange

/-- How the invoker's clause is entered. -/
def modifier : Tower ω → Modifier
  | invoker _ _ _ modifier .. => modifier
  | driver _ _ above _ => above.modifier

/-- The code behind every fiber's wait can be given a value. -/
def Ready : Tower ω → Prop
  | invoker _ _ _ _ _ rest => EffectHandlers.Ready rest
  | driver _ _ above rest => above.Ready ∧ EffectHandlers.Ready rest

theorem entries_eq (t : Tower ω) : t.entries = (t.root, t.stack) :: t.rest.flatMap entries := by
  cases t <;> simp [entries, rest]

theorem code_eq (t : Tower ω) : t.code = t.rest.flatMap code ++ t.stack := by
  cases t <;> simp [code, rest]

/-- The fibers above the lowest one are as ready as all of them. -/
theorem Ready.rest {t : Tower ω} (h : t.Ready) : ∀ t' ∈ t.rest, t'.Ready := by
  cases t with
  | invoker => simp [Tower.rest]
  | driver f i above S => simpa [Tower.rest] using h.1

end Tower

/-- A captured continuation together with the fibers that it goes on with. -/
structure Kept (ω : Type) where
  answer : String
  segment : Segment
  tower : Tower ω

/-- The continuation. -/
def Kept.cont (k : Kept ω) : Cont ω :=
  .captured k.answer k.tower.root k.segment k.tower.exchange

/-- The installations that the code of a continuation drives, and the one that its resumer will
drive. -/
def Kept.installations (k : Kept ω) : List InstallationId :=
  drivers k.tower.code ++ [k.segment.lowest]

/-- The segment of a captured continuation holds what its code leaves exposed. -/
structure Kept.Fits (c : Chain) (k : Kept ω) : Prop where
  lowest : k.segment.lowest ∈ exposed [k.segment.lowest] k.tower.code
  linked : c.Linked (some k.segment.top) (exposed [k.segment.lowest] k.tower.code) none
  hides : Hides c [k.segment.lowest] k.tower.code

/-- Links of other installations do not matter to a captured continuation. -/
theorem Kept.Fits.congr {c c' : Chain} {k : Kept ω}
    (hsame : ∀ i ∈ k.installations, (c'.get i).below = (c.get i).below) (h : k.Fits c) :
    k.Fits c' where
  lowest := h.lowest
  linked := h.linked.congr fun i hi => hsame i ((exposed_sublist _ _).subset hi)
  hides := h.hides.congr hsame

end EffectHandlers
