import EffectHandlers.Proofs.Asides
import EffectHandlers.Proofs.Numbers
import EffectHandlers.Proofs.Pooling
/-!
# The stacks of a thread's fibers

Every body of an installation runs on a fiber of its own. Its stack is given back when the body
returns; a panic that gets out of it frees the stack, and so does whatever releases the fiber while
it is parked, which may be a step of another fiber that is unwound.
-/

namespace EffectHandlers

namespace Machine

variable {ω : Type} {Γ : Library ω}

/-- What a thread knows about stacks. -/
def stackState (m : Machine ω) : StackState :=
  ⟨m.fibers.live, m.pool.pooled, m.counters.fibersCreated, m.counters.stacksReused⟩

/-- What an installation does to stacks: a fiber for its body is made, or is refused a stack, if
the label and the handler type are accepted. -/
def installEvents (Γ : Library ω) (m : Machine ω) (i : Installing) : List StackEvent :=
  match m.chooseLabel i.label with
  | (.error _, _) => []
  | (.ok _, m) =>
  match m.declare i.handlerType (Γ.handlerType i.handlerType) with
  | (.error _, _) => []
  | (.ok (), m) =>
  match m.acquireStack with
  | (.error _, _) => [.refused]
  | (.ok (), m) => [.made m.fibers.parked.next]

/-- What the next step does to the stacks of fibers. -/
def stackEvents (Γ : Library ω) (m : Machine ω) : List StackEvent :=
  match m.releasing, m.control, m.stack, m.fibers.resumers with
  | .fiber f :: _, _, _, _ => ((m.fibers.drop? f).map fun _ => .dropped f).toList
  | [], .eval (.handle i _ next), _, _ => (m.push (.bind next)).installEvents Γ i
  | [], .ret _, [], r :: _ => [.finished r.fiber]
  | [], .unwind _, [], r :: _ => [.dropped r.fiber]
  | _, _, _, _ => []

/-- All that stacks are counted by. -/
def stackParts (m : Machine ω) :
    Fibers (List (Activation ω)) × Nat × Settings × Nat × Nat :=
  (m.fibers, m.pool.pooled, m.pool.settings.use.1, m.counters.fibersCreated,
    m.counters.stacksReused)

/-- Some steps do what these events do, under settings that stay. -/
structure Handles (m : Machine ω) (es : List StackEvent) (m' : Machine ω) : Prop where
  tidy : m.fibers.Tidy → m'.fibers.Tidy
  turns : m.fibers.Tidy → m.stackState.Turns m.pool.settings.use.1 es m'.stackState
  settings : m'.pool.settings.use.1 = m.pool.settings.use.1

variable {m m' m'' : Machine ω} {es es' : List StackEvent}

/-- Nothing happens to stacks. -/
theorem Handles.of_parts (h : m'.stackParts = m.stackParts) : m.Handles [] m' := by
  simp only [stackParts, Prod.mk.injEq] at h
  obtain ⟨hfibers, hpooled, hsettings, hcreated, hreused⟩ := h
  refine ⟨fun htidy => hfibers ▸ htidy, fun _ => ?_, hsettings⟩
  simp only [stackState, hfibers, hpooled, hcreated, hreused]
  exact .nil

theorem Handles.trans (h : m.Handles es m') (h' : m'.Handles es' m'') :
    m.Handles (es ++ es') m'' where
  tidy := fun htidy => h'.tidy (h.tidy htidy)
  turns := fun htidy => (h.turns htidy).trans (h.settings ▸ h'.turns (h.tidy htidy))
  settings := h'.settings.trans h.settings

theorem Handles.trans_nil (h : m.Handles es m') (h' : m'.Handles [] m'') : m.Handles es m'' :=
  List.append_nil es ▸ h.trans h'

/-- Nothing happens to stacks before these steps. -/
theorem Handles.after (h : m'.stackParts = m.stackParts) (h' : m'.Handles es m'') :
    m.Handles es m'' := (Handles.of_parts h).trans h'

/-! ### Asking for a stack -/

/-- Asking in vain for a stack changes the settings of the pool at most. -/
theorem exists_of_acquireStack_error {why : StackPool.Failure}
    (h : m.acquireStack = (.error why, m')) :
    ∃ journal, m.pool.acquire.1 = .failed why ∧
      m' = { m with pool := m.pool.acquire.2.1, journal } := by
  obtain ⟨journal, hwarn⟩ := { m with pool := m.pool.acquire.2.1 }.exists_warn_eq
    m.pool.acquire.2.2
  refine ⟨journal, ?_⟩
  simp only [acquireStack, hwarn] at h
  split at h
  · rename_i houtcome
    obtain ⟨hwhy, rfl⟩ := Prod.mk.inj h
    exact ⟨houtcome.trans (congrArg _ (Except.error.inj hwhy)), rfl⟩
  · cases h
  · cases h

/-- A stack is taken from the pool, which is counted, or it is a fresh one. -/
theorem exists_of_acquireStack_ok (h : m.acquireStack = (.ok (), m')) :
    ∃ journal,
      (m.pool.acquire.1 = .reused ∧ m' = ({ m with
        pool := m.pool.acquire.2.1, journal }.bump .stacksReused).bump .fibersCreated) ∨
      (m.pool.acquire.1 = .fresh ∧ m' = { m with
        pool := m.pool.acquire.2.1, journal }.bump .fibersCreated) := by
  obtain ⟨journal, hwarn⟩ := { m with pool := m.pool.acquire.2.1 }.exists_warn_eq
    m.pool.acquire.2.2
  refine ⟨journal, ?_⟩
  simp only [acquireStack, hwarn] at h
  split at h
  · cases h
  · exact .inr ⟨‹_›, (Prod.mk.inj h).2.symm⟩
  · exact .inl ⟨‹_›, (Prod.mk.inj h).2.symm⟩

/-! ### Steps that leave stacks alone -/

theorem stackParts_warn (m : Machine ω) (ws : List SettingsWarning) :
    (m.warn ws).stackParts = m.stackParts := by
  obtain ⟨journal, hwarn⟩ := m.exists_warn_eq ws
  rw [hwarn]
  rfl

theorem stackParts_reportLines (m : Machine ω) : m.reportLines.2.stackParts = m.stackParts := by
  refine (stackParts_warn { m with pool := { m.pool with
    settings := m.pool.settings.use.2.1 } } _).trans ?_
  simp only [stackParts, SettingsSlot.use_use]

theorem stackParts_view (m : Machine ω) (v : View) : (m.view v).stackParts = m.stackParts := by
  cases v with
  | report => exact m.stackParts_reportLines
  | _ => rfl

theorem stackParts_print (m : Machine ω) (p : Printout) :
    (m.print p).stackParts = m.stackParts := by
  cases p with
  | report => exact m.stackParts_reportLines
  | _ => rfl

theorem stackParts_chooseLabel (m : Machine ω) (label : Option Int) :
    (m.chooseLabel label).2.stackParts = m.stackParts := by
  cases label <;> rfl

theorem stackParts_declare (m : Machine ω) (name : String) (h : HandlerType ω) :
    (m.declare name h).2.stackParts = m.stackParts := by
  obtain ⟨declared, journal, hdeclare⟩ := m.exists_declare_eq name h
  rw [hdeclare]
  rfl

theorem stackParts_arm {r : ResumptionId} {v : Value} {k : Cont ω} (h : m.arm r v = some (k, m')) :
    m'.stackParts = m.stackParts := by
  obtain ⟨k', hk, heq⟩ := Option.map_eq_some_iff.mp h
  cases k' <;> obtain ⟨rfl, rfl⟩ := Prod.mk.inj heq <;> rfl

theorem stackParts_takeCommand {e : ExchangeId} {command : Command}
    (h : m.takeCommand e = some (command, m')) : m'.stackParts = m.stackParts := by
  obtain ⟨y, -, h⟩ := Option.bind_eq_some_iff.mp h
  obtain ⟨command, -, h⟩ := Option.bind_eq_some_iff.mp h
  obtain ⟨rfl, rfl⟩ := Prod.mk.inj (Option.some.inj h)
  rfl

theorem stackParts_runClause (m : Machine ω) (handler : CellId) (answer : String) (f : FiberId)
    (segment : Segment) (e : ExchangeId) (command : Command) (code : ClauseCode ω) :
    (m.runClause handler answer f segment e command code).stackParts = m.stackParts := by
  cases code <;>
    simp only [runClause, stackParts, goOn, release, push, trace, record, bump, Tally.bump,
      Tally.add]

namespace Handles

/-- A parked fiber goes on. -/
theorem enter (h : m.Handles es m') (i : InstallationId) (f : FiberId) :
    m.Handles es (m'.enter i f) := by
  refine h.trans_nil ?_
  unfold Machine.enter
  split
  · rename_i hresume
    refine ⟨fun htidy => htidy.resume hresume, fun _ => ?_, rfl⟩
    simp only [stackState, Fibers.live_resume hresume]
    exact .nil
  · exact .of_parts rfl

/-- A fiber is refused a stack. -/
theorem refused {why : StackPool.Failure} (h : m.acquireStack = (.error why, m')) :
    m.Handles [.refused] m' := by
  obtain ⟨journal, hfailed, rfl⟩ := exists_of_acquireStack_error h
  have hturn := StackPool.turn_of_failed hfailed m.fibers.live m.counters.fibersCreated
    m.counters.stacksReused
  exact ⟨id, fun _ => hturn.turns, m.pool.use_acquire⟩

/-- A fiber is made. -/
theorem made {m₁ : Machine ω} (h : m.acquireStack = (.ok (), m₁)) (code : List (Activation ω))
    (hfibers : m'.fibers = (m₁.fibers.create code).2) (hpool : m'.pool = m₁.pool)
    (hcreated : m'.counters.fibersCreated = m₁.counters.fibersCreated)
    (hreused : m'.counters.stacksReused = m₁.counters.stacksReused) :
    m.Handles [.made m₁.fibers.parked.next] m' := by
  have hstate : m'.stackState = ⟨m₁.fibers.parked.next ::ₘ m₁.fibers.live, m₁.pool.pooled,
      m₁.counters.fibersCreated, m₁.counters.stacksReused⟩ := by
    rw [← Fibers.live_create m₁.fibers code]
    simp only [stackState, hfibers, hpool, hcreated, hreused]
  obtain ⟨journal, ⟨houtcome, rfl⟩ | ⟨houtcome, rfl⟩⟩ := exists_of_acquireStack_ok h
  · refine ⟨fun htidy => hfibers ▸ htidy.create code, fun htidy => ?_, hpool ▸ m.pool.use_acquire⟩
    have hturn := StackPool.turn_of_reused houtcome htidy.next_notMem m.counters.fibersCreated
      m.counters.stacksReused
    exact hstate ▸ hturn.turns
  · refine ⟨fun htidy => hfibers ▸ htidy.create code, fun htidy => ?_, hpool ▸ m.pool.use_acquire⟩
    have hturn := StackPool.turn_of_fresh houtcome htidy.next_notMem m.counters.fibersCreated
      m.counters.stacksReused
    exact hstate ▸ hturn.turns

theorem install (i : Installing) (body : ReferenceId → Comp ω) :
    m.Handles (m.installEvents Γ i) (m.install Γ i body) := by
  unfold Machine.install installEvents
  have h₁ := m.stackParts_chooseLabel i.label
  generalize m.chooseLabel i.label = chosen at h₁
  obtain ⟨_ | label, m₁⟩ := chosen
  · exact .of_parts h₁
  have h₂ := (m₁.stackParts_declare i.handlerType (Γ.handlerType i.handlerType)).trans h₁
  simp only
  generalize m₁.declare i.handlerType (Γ.handlerType i.handlerType) = declared at h₂
  obtain ⟨_ | _, m₂⟩ := declared
  · exact .of_parts h₂
  have hprepared : m.Handles [] m₂ := .of_parts h₂
  simp only
  obtain ⟨result, m₃, hacquire⟩ : ∃ result m₃, m₂.acquireStack = (result, m₃) := ⟨_, _, rfl⟩
  rw [hacquire]
  cases result with
  | error why => cases why <;> exact (hprepared.trans (refused hacquire)).trans_nil (.of_parts rfl)
  | ok _ =>
    refine enter ?_ _ _
    exact hprepared.trans (made hacquire _ rfl rfl rfl rfl)

theorem sendInPlace (i : InstallationId) (entry : Nat) (command : Command) :
    m.Handles [] (m.sendInPlace Γ i entry command) := by
  unfold Machine.sendInPlace
  split
  · simp only
    split
    · exact .of_parts rfl
    · simp only [takeCommand, bump, hold, retain, Store.insert_fst, Store.find?_insert_self,
        Option.bind_eq_bind, Option.bind_some, Store.modify_insert, Option.pure_def]
      exact .of_parts rfl
  · exact .of_parts rfl

theorem settle (answer : String) (v : Value) (kept : List Holding) :
    m.Handles [] (m.settle answer v kept) := by
  unfold Machine.settle
  split
  · exact .of_parts rfl
  · simp only
    split <;> exact .of_parts rfl

theorem finish (i : InstallationId) (v : Value) : m.Handles [] (m.finish Γ i v) := by
  unfold Machine.finish
  split
  · exact .of_parts rfl
  · simp only
    split <;> exact .of_parts rfl

/-- A fiber that ends, with a value or by a panic, hands control back. -/
theorem ended {r : Resumer (List (Activation ω))} {rs : List (Resumer (List (Activation ω)))}
    {e : StackEvent} (hresumers : m.fibers.resumers = r :: rs)
    (hfibers : m'.fibers = { m.fibers with current := r.current, resumers := rs })
    (hsettings : m'.pool.settings.use.1 = m.pool.settings.use.1)
    (hturn : m.stackState.Turn m.pool.settings.use.1 e m'.stackState) : m.Handles [e] m' where
  tidy := fun htidy => hfibers ▸ htidy.finish hresumers
  turns := fun _ => hturn.turns
  settings := hsettings

theorem give (v : Value) (hcontrol : m.control = .ret v) (hreleasing : m.releasing = []) :
    m.Handles (m.stackEvents Γ) (m.give Γ v) := by
  unfold Machine.give
  split
  · rename_i hstack
    cases hresumers : m.fibers.resumers with
    | nil =>
      simp only [stackEvents, hreleasing, hcontrol, hstack, hresumers, Machine.handBack,
        Fibers.handBack?, Option.map_none]
      exact .of_parts rfl
    | cons r rs =>
      simp only [stackEvents, hreleasing, hcontrol, hstack, hresumers, Machine.handBack,
        Fibers.handBack?, Option.map_some]
      refine trans_nil ?_ (.of_parts (stackParts_warn _ _))
      exact ended hresumers rfl m.pool.use_giveBack (.finishes (Fibers.live_finish hresumers))
  · rename_i a S hstack
    have hevents : m.stackEvents Γ = [] := by
      simp only [stackEvents, hreleasing, hcontrol, hstack]
    have hless : ({ m with stack := S } : Machine ω).stackParts = m.stackParts := rfl
    rw [hevents]
    cases a with
    | driving i f => exact .after hless (finish i v)
    | returning i answer => exact .after hless (settle answer v _)
    | calling answer => exact .after hless (settle answer v _)
    | looping body next =>
      simp only
      split <;> exact .of_parts rfl
    | _ => exact .of_parts rfl

theorem deliver (s : Step (Cont ω) Value) : m.Handles [] (m.deliver s) := by
  unfold Machine.deliver
  split
  · split
    · exact .of_parts rfl
    · rename_i k
      cases k with
      | captured answer f segment e =>
        refine enter ?_ _ _
        exact .of_parts rfl
      | function answer f arg => cases arg <;> exact .of_parts rfl
  · exact .of_parts rfl

theorem wake : m.Handles [] m.wake := by
  unfold Machine.wake
  split
  · exact .of_parts rfl
  · refine enter ?_ _ _
    exact .of_parts rfl
  · split
    · exact .of_parts rfl
    · split <;> exact .of_parts rfl
  · exact .of_parts rfl

/-- The running fiber is parked. -/
theorem suspended {S stack : List (Activation ω)} {fs : Fibers (List (Activation ω))}
    (hsuspend : m.fibers.suspend? stack = some (S, fs)) (hfibers : m'.fibers = fs)
    (hpool : m'.pool = m.pool) (hcounters : m'.counters = m.counters) : m.Handles [] m' where
  tidy := fun htidy => hfibers ▸ (htidy.suspend hsuspend).1
  turns := fun htidy => by
    simp only [stackState, hfibers, hpool, hcounters, (htidy.suspend hsuspend).2]
    exact .nil
  settings := by rw [hpool]

theorem capture (i : InstallationId) (f : FiberId) (r : Request) :
    m.Handles [] (m.capture Γ i f r) := by
  unfold Machine.capture
  split
  · exact .of_parts rfl
  · exact .of_parts rfl
  · split
    · exact .of_parts rfl
    · simp only
      split
      · split <;> exact .of_parts rfl
      · rename_i htaken
        refine .of_parts ((stackParts_runClause _ _ _ _ _ _ _ _).trans ?_)
        refine (stackParts_takeCommand htaken).trans ?_
        split <;> rfl

theorem forward (r : Request) : m.Handles [] (m.forward Γ r) := by
  unfold Machine.forward
  split
  · exact .of_parts rfl
  · rename_i hsuspend
    simp only
    split
    · split
      · refine trans_nil ?_ (capture _ _ r)
        exact suspended hsuspend rfl rfl rfl
      · exact suspended hsuspend rfl rfl rfl
    · exact suspended hsuspend rfl rfl rfl

theorem unwind (message : String) (hcontrol : m.control = .unwind message)
    (hreleasing : m.releasing = []) : m.Handles (m.stackEvents Γ) (m.unwind message) := by
  unfold Machine.unwind
  split
  · rename_i hstack
    cases hresumers : m.fibers.resumers with
    | nil =>
      simp only [stackEvents, hreleasing, hcontrol, hstack, hresumers, Machine.handBack,
        Fibers.handBack?, Option.map_none]
      exact .of_parts rfl
    | cons r rs =>
      simp only [stackEvents, hreleasing, hcontrol, hstack, hresumers, Machine.handBack,
        Fibers.handBack?, Option.map_some]
      exact ended hresumers rfl rfl (.drops (Fibers.live_finish hresumers))
  · rename_i hstack
    simp only [stackEvents, hreleasing, hcontrol, hstack]
    exact .of_parts rfl
  · rename_i hstack
    simp only [stackEvents, hreleasing, hcontrol, hstack]
    exact .of_parts rfl

variable [Contents ω]

/-- Operations that install nothing do nothing to stacks. -/
theorem evaluated {c : Comp ω} (hother : ∀ i body next, c ≠ .handle i body next) :
    m.Handles [] (m.eval Γ c) := by
  cases c with
  | handle i body next => exact absurd rfl (hother i body next)
  | retain o next => cases o <;> exact .of_parts rfl
  | apply f arg next =>
    simp only [Machine.eval, applyClosure]
    split <;> exact .of_parts rfl
  | invoke target command next =>
    simp only [Machine.eval]
    split
    · exact .of_parts rfl
    · simp only [Machine.send]
      split
      · have hpushed : (m.push (.bind next)).stackParts = m.stackParts := rfl
        exact .after hpushed (sendInPlace _ _ _)
      · exact .of_parts rfl
  | find search next =>
    simp only [Machine.eval]
    split <;> exact .of_parts rfl
  | copy r next =>
    simp only [Machine.eval]
    split <;> exact .of_parts rfl
  | function answer f next =>
    simp only [Machine.eval]
    split <;> exact .of_parts rfl
  | take r next =>
    simp only [Machine.eval]
    split <;> exact .of_parts rfl
  | resume r v next =>
    simp only [Machine.eval, Machine.resume]
    split
    · exact .of_parts rfl
    · rename_i harm
      have hsame := stackParts_arm harm
      exact .of_parts hsame
  | tailResume r v next =>
    simp only [Machine.eval, Machine.tailResume]
    split
    · exact .of_parts rfl
    · rename_i harm
      have hsame := stackParts_arm harm
      split <;> exact .of_parts hsame
  | ask q next =>
    obtain ⟨nextLabel, hanswer⟩ := m.exists_answer_eq q
    simp only [Machine.eval, hanswer]
    exact .of_parts rfl
  | view v next => exact .of_parts (m.stackParts_view v)
  | print p next => exact .of_parts (m.stackParts_print p)
  | popBare next =>
    simp only [Machine.eval]
    split <;> exact .of_parts rfl
  | _ => exact .of_parts rfl

theorem eval {c : Comp ω} (hcontrol : m.control = .eval c) (hreleasing : m.releasing = []) :
    m.Handles (m.stackEvents Γ) (m.eval Γ c) := by
  cases c with
  | handle i body next =>
    have hevents : m.stackEvents Γ = (m.push (.bind next)).installEvents Γ i := by
      simp only [stackEvents, hreleasing, hcontrol]
    have hpushed : (m.push (.bind next)).stackParts = m.stackParts := rfl
    rw [hevents]
    exact .after hpushed (install i body)
  | _ =>
    have hevents : m.stackEvents Γ = [] := by simp only [stackEvents, hreleasing, hcontrol]
    rw [hevents]
    exact evaluated nofun

/-- Whatever is released, stacks are concerned only if it is a fiber. -/
theorem releaseOne {x : Holding} {hs : List Holding} (hreleasing : m.releasing = x :: hs) :
    m.Handles (m.stackEvents Γ) ({ m with releasing := hs }.releaseOne x) := by
  cases x with
  | fiber f =>
    simp only [stackEvents, hreleasing, Machine.releaseOne]
    cases hdrop : m.fibers.drop? f with
    | none => exact .of_parts rfl
    | some r =>
      obtain ⟨S, fs⟩ := r
      exact
        { tidy := fun htidy => htidy.drop hdrop
          turns := fun _ => (StackState.Turn.drops (Fibers.live_drop hdrop)).turns
          settings := rfl }
  | asset o =>
    simp only [stackEvents, hreleasing]
    cases o with
    | cell c =>
      simp only [Machine.releaseOne, releaseAsset, releaseCell]
      split
      · exact .of_parts rfl
      · split <;> exact .of_parts rfl
    | notice n => exact .of_parts rfl
    | _ =>
      simp only [Machine.releaseOne, releaseAsset]
      split <;> exact .of_parts rfl
  | installation i =>
    simp only [stackEvents, hreleasing, Machine.releaseOne, releaseInstallation]
    split
    · exact .of_parts rfl
    · split <;> exact .of_parts rfl
  | exchange e =>
    simp only [stackEvents, hreleasing, Machine.releaseOne]
    split <;> exact .of_parts rfl

/-- A step does what its events do. -/
theorem step (m : Machine ω) : m.Handles (m.stackEvents Γ) (m.step Γ) := by
  unfold Machine.step
  split
  · exact releaseOne ‹_›
  · rename_i hreleasing
    split
    · exact eval ‹_› hreleasing
    · exact give _ ‹_› hreleasing
    · rename_i hcontrol
      simp only [stackEvents, hreleasing, hcontrol]
      exact deliver _
    · rename_i hcontrol
      simp only [stackEvents, hreleasing, hcontrol]
      exact settle _ _ _
    · rename_i hcontrol
      simp only [stackEvents, hreleasing, hcontrol]
      exact forward _
    · rename_i hcontrol
      simp only [stackEvents, hreleasing, hcontrol]
      exact wake
    · exact unwind _ ‹_› hreleasing
    · rename_i hcontrol
      simp only [stackEvents, hreleasing, hcontrol]
      exact .of_parts rfl
    · rename_i hcontrol
      simp only [stackEvents, hreleasing, hcontrol]
      exact .of_parts rfl

end Handles

/-! ### Refusals and runs -/

/-- An installation that is refused a stack has got that far. -/
theorem exists_of_refused {i : Installing} (h : .refused ∈ m.installEvents Γ i) :
    ∃ label m₁ m₂ why m₃, m.chooseLabel i.label = (.ok label, m₁) ∧
      m₁.declare i.handlerType (Γ.handlerType i.handlerType) = (.ok (), m₂) ∧
      m₂.acquireStack = (.error why, m₃) := by
  unfold installEvents at h
  split at h
  · simp at h
  · rename_i hlabel
    split at h
    · simp at h
    · rename_i hdeclare
      split at h
      · exact ⟨_, _, _, _, _, hlabel, hdeclare, ‹_›⟩
      · simp at h

variable [Contents ω]

/-- An installation that is refused a stack for its fiber changes no counter, no fiber, no pooled
stack, and nothing on the chain but the number that the next label gets. -/
theorem keeps_of_refused (h : .refused ∈ m.stackEvents Γ) :
    (m.step Γ).counters = m.counters ∧ (m.step Γ).pool.pooled = m.pool.pooled ∧
      (m.step Γ).fibers = m.fibers ∧
      ∃ nextLabel, (m.step Γ).chain = { m.chain with nextLabel } := by
  unfold stackEvents at h
  split at h
  · simp at h
  · rename_i i body next hreleasing hcontrol
    obtain ⟨label, m₁, m₂, why, m₃, hlabel, hdeclare, hacquire⟩ := exists_of_refused h
    obtain ⟨nextLabel, hchosen⟩ := (m.push (.bind next)).exists_chooseLabel_eq i.label
    obtain ⟨declared, journal, hdeclared⟩ :=
      m₁.exists_declare_eq i.handlerType (Γ.handlerType i.handlerType)
    obtain ⟨journal', hfailed, hrefused⟩ := exists_of_acquireStack_error hacquire
    have hpooled := StackPool.pooled_of_failed hfailed
    rw [hlabel] at hchosen
    rw [hdeclare] at hdeclared
    simp only at hchosen hdeclared
    subst hchosen hdeclared hrefused
    simp only [step, hreleasing, hcontrol, eval, install, hlabel, hdeclare, hacquire]
    cases why <;> exact ⟨rfl, hpooled, rfl, nextLabel, rfl⟩
  all_goals simp at h

/-- What a thread knows about stacks after so many steps, and the events of its next step. -/
def stackRun (Γ : Library ω) (settings : SettingsSlot) (cells : List ω) (statics : List Owned)
    (main : Comp ω) : StackRun := fun n =>
  some ((run Γ n (start settings cells statics main)).stackState,
    (run Γ n (start settings cells statics main)).stackEvents Γ)

/-- A run keeps fibers tidy and its settings. -/
theorem run_tidy (Γ : Library ω) (settings : SettingsSlot) (cells : List ω)
    (statics : List Owned) (main : Comp ω) (n : Nat) :
    (run Γ n (start settings cells statics main)).fibers.Tidy ∧
      (run Γ n (start settings cells statics main)).pool.settings.use.1 = settings.use.1 := by
  induction n with
  | zero =>
    refine ⟨?_, rfl⟩
    exact
      { wellFormed := Store.wellFormed_empty
        parked := .refl _
        distinct := List.nodup_nil
        issued := fun _ h => nomatch h
        named := rfl }
  | succ n ih =>
    have hstep := Handles.step (Γ := Γ) (run Γ n (start settings cells statics main))
    rw [run_succ]
    exact ⟨hstep.tidy ih.1, hstep.settings.trans ih.2⟩

/-- The stacks of every thread are accounted for. -/
theorem accounted (Γ : Library ω) (settings : SettingsSlot) (cells : List ω)
    (statics : List Owned) (main : Comp ω) :
    (stackRun Γ settings cells statics main).Accounted settings.use.1 := by
  refine StackRun.accounted ⟨_, rfl⟩ fun {n s' es'} h => ⟨_, _, rfl, ?_⟩
  obtain ⟨rfl, -⟩ := Prod.mk.inj (Option.some.inj h)
  obtain ⟨htidy, hsettings⟩ := run_tidy Γ settings cells statics main n
  rw [run_succ, ← hsettings]
  exact (Handles.step _).turns htidy

end Machine

/-- What it means that no stack is lost or used twice under these settings, whatever is done with
fibers. -/
structure StacksAccountedFor (settings : SettingsSlot) : Prop where
  /-- Scripts may make, resume, park, finish and drop fibers in any order. -/
  scripts : ∀ main, (FiberScript.State.stackRun settings main).Accounted settings.use.1
  /-- Programs may install and unwind handlers and drop continuations in any order. -/
  threads : ∀ {ω : Type} [Contents ω] (Γ : Library ω) (cells : List ω) (statics : List Owned)
    (main : Comp ω), (Machine.stackRun Γ settings cells statics main).Accounted settings.use.1
  /-- A script that is refused a stack keeps its counters, its pool and its fibers. -/
  refusedScript : ∀ {s s' : FiberScript.State}, .refused ∈ s.stackEvents →
    (s.step = .ok s' ∨ ∃ outcome, s.step = .error (outcome, s')) →
    s'.counters = s.counters ∧ s'.pool.pooled = s.pool.pooled ∧ s'.fibers = s.fibers ∧
      s'.table = s.table
  /-- A thread that is refused a stack keeps its counters, its pool, its fibers and its chain; a
  label that was handed out before is not handed out again. -/
  refusedThread : ∀ {ω : Type} [Contents ω] {Γ : Library ω} {m : Machine ω},
    .refused ∈ m.stackEvents Γ →
    (m.step Γ).counters = m.counters ∧ (m.step Γ).pool.pooled = m.pool.pooled ∧
      (m.step Γ).fibers = m.fibers ∧ ∃ nextLabel, (m.step Γ).chain = { m.chain with nextLabel }

/-- **Stacks are accounted for**, whatever settings a process has. -/
theorem stacks_accounted_for (settings : SettingsSlot) : StacksAccountedFor settings where
  scripts main := FiberScript.State.accounted settings main
  threads Γ cells statics main := Machine.accounted Γ settings cells statics main
  refusedScript h hstep := FiberScript.State.keeps_of_refused h hstep
  refusedThread h := Machine.keeps_of_refused h

end EffectHandlers
