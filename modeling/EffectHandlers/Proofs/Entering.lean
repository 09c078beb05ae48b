import EffectHandlers.Proofs.Accounts
/-!
# What one step enters into the accounts

`Does` lists what a step of a thread does to continuations and exchanges. It holds of all programs,
also of those that panic. What is true of commands and results along a run follows from the list,
without another look at the single operations.
-/

namespace EffectHandlers

variable {ω : Type} {Γ : Library ω} {m m' m₀ : Machine ω} {S : List (Activation ω)}

namespace Machine

/-- The next step evaluates this operation. -/
def Evaluates (m : Machine ω) (c : Comp ω) : Prop := m.releasing = [] ∧ m.control = .eval c

/-- The next step sends a command to the clause that lookup has found, with a new exchange. The
result is for the code that follows. -/
def Sends (m : Machine ω) (e : ExchangeId) (command : Command) (i : InstallationId)
    (position : Nat) (next : Value → Comp ω) : Prop :=
  ∃ target, m.Evaluates (.invoke target command next) ∧
    m.chain.dispatch m.referent command.name target = .ok (i, position) ∧ e = m.exchanges.next

/-- The next step hands a request to a driver. -/
def Hands (m : Machine ω) (r : Request) : Prop := m.releasing = [] ∧ m.control = .request r

variable [Contents ω]

/-- The next step starts the code of a clause, which gets the payload of the command and owns what
the command owns. -/
def StartsCode (Γ : Library ω) (m : Machine ω) (i : InstallationId) (position : Nat)
    (command : Command) (code : ClauseCode ω) : Prop :=
  m.codeAt Γ i position = some code ∧
    (m.step Γ).control =
      .eval (code.body (m.chain.get i).handler command.payload m.resumptions.next) ∧
    ∃ os S, (m.step Γ).stack = .owning (os ++ command.owned) :: S

/-- The next step starts the clause for the command that was sent with an exchange: a plain clause
at once, any other clause when the request has come down to the driver of its installation. -/
def Starts (Γ : Library ω) (m : Machine ω) (e : ExchangeId) (command : Command)
    (i : InstallationId) (position : Nat) : Prop :=
  ∃ code, m.StartsCode Γ i position command code ∧
    if code.modifier = .plain then ∃ next, m.Sends e command i position next
    else ∃ name y, m.Hands ⟨i, position, e, name⟩ ∧ m.exchanges.find? e = some y ∧
      y.command = some command

/-- The next step gives code that waits at an exchange its result. -/
def Returns (Γ : Library ω) (m : Machine ω) (w : Wait ω) (v : Value) : Prop :=
  m.releasing = [] ∧ (∃ a, m.stack = a :: w.below ∧ a.wait? = some (w.exchange, w.inPlace)) ∧
    (if w.inPlace then m.control = .ret v else m.control = .wake) ∧
    (m.step Γ).control = .ret v ∧ (m.step Γ).stack = w.below

/-- A step that enters nothing, and does not put a request on its way. -/
structure Idles (m m' : Machine ω) : Prop where
  fades : m.accounts.Fades m'.accounts
  request : m'.control.request? = none ∨ m.releasing ≠ []

end Machine

/-- What a step does to the accounts. -/
inductive Does [Contents ω] (Γ : Library ω) (m m' : Machine ω) : Prop
  | idles (h : m.Idles m') (hdeals : m.dealing? = none) (hsends : ∀ e command i position next,
      ¬ m.Sends e command i position next) (hhands : ∀ r, ¬ m.Hands r)
  | deals {d} (hm : m.dealing? = some d) (h : (d.enter m.accounts).Fades m'.accounts)
      (hrequest : m'.control.request? = none ∨ m.releasing ≠ [])
  /-- The command is left in a new exchange, and the request for it is under way. -/
  | sends {e command i position next} (hm : m.Sends e command i position next)
      (hhands : m'.Hands ⟨i, position, e, command.name⟩)
      (h : m'.accounts = { m.accounts with
        exchanges := (m.exchanges.insert { command := some command }).2
        waits := ⟨e, false, .bind next :: m.stack⟩ :: m.waits })
  /-- The command is taken at once by a plain clause. -/
  | performs {e command i position next} (hm : m.Sends e command i position next)
      (hstarts : m.Starts Γ e command i position)
      (h : m'.accounts = { m.accounts with
        exchanges := (m.exchanges.insert { command := none }).2
        waits := ⟨e, true, .bind next :: m.stack⟩ :: m.waits })
  /-- The plain clause has no code. -/
  | refuses {e command i position next f} (hm : m.Sends e command i position next)
      (hcontrol : m'.control = .fault f) (hf : f.isInternal) (h : m.accounts.Fades m'.accounts)
  /-- The command is left in a new exchange, and the invoker panics. -/
  | panics {e command i position next} (hm : m.Sends e command i position next)
      (hcontrol : m'.control = .unwind Machine.splitFailed)
      (h : m'.accounts = { m.accounts with
        exchanges := (m.exchanges.insert { command := some command }).2 })
  /-- The request goes to the next driver. -/
  | passes {r} (hm : m.Hands r) (hhands : m'.Hands r)
      (hresumers : m'.fibers.resumers.length < m.fibers.resumers.length)
      (hexchanges : m'.exchanges = m.exchanges) (h : m.accounts.Fades m'.accounts)
  /-- There is no driver for the request, or no code. -/
  | fails {r} (hm : m.Hands r)
      (hcontrol : (∃ f, m'.control = .fault f ∧ f.isInternal) ∨
        m'.control = .unwind Machine.splitFailed)
      (h : m.accounts.Fades m'.accounts)
  /-- There is no command for the request. -/
  | misses {r f} (hm : m.Hands r) (hcontrol : m'.control = .fault f)
      (htaken : (m.exchanges.find? r.exchange).bind (·.command) = none)
  /-- A clause starts that gets the continuation. -/
  | captures {r command code k} (hm : m.Hands r)
      (hstarts : m.Starts Γ r.exchange command r.target r.entry)
      (hcode : m.codeAt Γ r.target r.entry = some code) (htakes : code.takes = true)
      (hk : k.exchange? = some r.exchange)
      (h : Accounts.Fades { m.accounts with
        exchanges := m.exchanges.modify r.exchange fun x => { x with command := none }
        resumptions := (m.resumptions.insert k).2
        captures := m.counters.captures + 1 } m'.accounts)
  /-- A clause starts for which the continuation is discarded. -/
  | abandons {r command code} (hm : m.Hands r)
      (hstarts : m.Starts Γ r.exchange command r.target r.entry)
      (hcode : m.codeAt Γ r.target r.entry = some code) (htakes : code.takes = false)
      (h : Accounts.Fades { m.accounts with
        exchanges := m.exchanges.modify r.exchange fun x => { x with command := none }
        captures := m.counters.captures + 1
        discarded := m.counters.discarded + 1 } m'.accounts)
  /-- An invoker that was parked gets its result. -/
  | returns {w v y} (hm : m.Returns Γ w v) (hw : w.inPlace = false)
      (hy : m.exchanges.find? w.exchange = some y) (hv : y.result = some v)
      (h : Accounts.Fades { m.accounts with
        exchanges := m.exchanges.modify w.exchange fun x => { x with result := none } } m'.accounts)

namespace Machine

/-- Sending deals with no resumption. -/
theorem Sends.dealing?_eq_none {e : ExchangeId} {command : Command} {i : InstallationId}
    {position : Nat} {next : Value → Comp ω} (h : m.Sends e command i position next) :
    m.dealing? = none := by
  obtain ⟨target, ⟨hreleasing, hcontrol⟩, -⟩ := h
  simp [dealing?, hreleasing, hcontrol]

/-- Handing a request on deals with no resumption. -/
theorem Hands.dealing?_eq_none {r : Request} (h : m.Hands r) : m.dealing? = none := by
  simp [dealing?, h.1, h.2]

/-- Returning deals with no resumption. -/
theorem Returns.dealing?_eq_none [Contents ω] {w : Wait ω} {v : Value} (h : m.Returns Γ w v) :
    m.dealing? = none := by
  obtain ⟨hreleasing, -, hcontrol, -⟩ := h
  split at hcontrol <;> simp [dealing?, hreleasing, hcontrol]

end Machine

/-! ### Steps that enter nothing -/

namespace Machine.Idles

/-- Giving up waits and resumed continuations enters nothing. -/
theorem less (h : m₀.accounts.Fades m.accounts) (hresumptions : m'.resumptions = m.resumptions)
    (hexchanges : m'.exchanges = m.exchanges) (harmed : m'.armed.Sublist m.armed)
    (hwaits : m'.waits.Subperm m.waits) (hcounters : m'.counters = m.counters)
    (hrequest : m'.control.request? = none ∨ m₀.releasing ≠ []) : m₀.Idles m' where
  fades :=
    { resumptions := h.resumptions.imp hresumptions.trans hresumptions.trans
      exchanges := h.exchanges.imp hexchanges.trans fun ⟨e, he⟩ => ⟨e, hexchanges.trans he⟩
      armed := harmed.trans h.armed
      waits := hwaits.trans h.waits
      captures := (congrArg Tally.captures hcounters).trans h.captures
      resumes := (congrArg Tally.resumes hcounters).trans h.resumes
      tailResumes := (congrArg Tally.tailResumes hcounters).trans h.tailResumes
      discarded := (congrArg Tally.discarded hcounters).trans h.discarded }
  request := hrequest

/-- A step that touches neither continuations nor exchanges, and puts nothing under way. -/
theorem quiet (hresumptions : m'.resumptions = m.resumptions)
    (hexchanges : m'.exchanges = m.exchanges) (hpending : m'.pending = m.pending)
    (hconts : m'.control.conts = []) (hwaits : m'.waits.Subperm m.waits)
    (hcounters : m'.counters = m.counters) (hrequest : m'.control.request? = none) :
    m.Idles m' := by
  refine less (.refl _) hresumptions hexchanges ?_ hwaits hcounters (.inl hrequest)
  show (m'.pending.toList ++ _).Sublist (m.pending.toList ++ _)
  rw [hpending, hconts]
  exact (List.nil_sublist _).append_left _

/-- A quiet step that only works on top of the running code. -/
theorem onTop (hresumptions : m'.resumptions = m.resumptions)
    (hexchanges : m'.exchanges = m.exchanges) (hpending : m'.pending = m.pending)
    (hfibers : m'.fibers = m.fibers) (hconts : m'.control.conts = [])
    (hstack : (waitsIn m'.stack).Subperm (waitsIn m.stack))
    (hcounters : m'.counters = m.counters) (hrequest : m'.control.request? = none) :
    m.Idles m' := by
  refine quiet hresumptions hexchanges hpending hconts ?_ hcounters hrequest
  rw [Machine.waits, Machine.waits, hfibers]
  exact (List.subperm_append_right _).mpr hstack

/-- What differs from a quiet step on top of the running code in what does not matter. -/
theorem beside {c : Control ω}
    (h : m'.traffic = ({ m with stack := S, control := c } : Machine ω).traffic)
    (hS : waitsIn S = waitsIn m.stack) (hconts : c.conts = []) (hrequest : c.request? = none) :
    m.Idles m' := by
  have hidles : m.Idles { m with stack := S, control := c } :=
    onTop rfl rfl rfl rfl hconts (hS ▸ .refl _) rfl hrequest
  obtain ⟨haccounts, -, -, hcontrol⟩ := of_traffic h
  exact ⟨haccounts ▸ hidles.fades, hcontrol ▸ hidles.request⟩

theorem warn (h : m₀.Idles m) (ws : List SettingsWarning) : m₀.Idles (m.warn ws) := by
  obtain ⟨haccounts, -, -, hcontrol⟩ := of_traffic (m.traffic_warn ws)
  exact ⟨haccounts ▸ h.fades, hcontrol ▸ h.request⟩

/-- A fault touches nothing. -/
theorem fault {f : Fault} (h : m₀.accounts.Fades m.accounts) : m₀.Idles (m.goOn (.fault f)) :=
  less h rfl rfl ((List.nil_sublist _).append_left _) (.refl _) rfl (.inl rfl)

/-- Entering a fiber puts the running code under it. -/
theorem enter {i : InstallationId} {f : FiberId} (h : m₀.accounts.Fades m.accounts) :
    m₀.Idles (m.enter i f) := by
  unfold Machine.enter
  split
  · rename_i code fs hresume
    refine less h rfl rfl ((List.nil_sublist _).append_left _) ?_ rfl (.inl rfl)
    have hperm := Fibers.waits_resume hresume
    rw [waitsIn_of_wait? rfl] at hperm
    exact hperm.subperm
  · exact fault h

/-- Settling hands over the answer, or the continuation that waits. -/
theorem settle {answer : String} {v : Value} {kept : List Holding}
    (h : m₀.accounts.Fades m.accounts) : m₀.Idles (m.settle answer v kept) := by
  unfold Machine.settle
  split
  · exact less h rfl rfl ((List.nil_sublist _).append_left _) (.refl _) rfl (.inl rfl)
  · rename_i k hk
    -- the continuation moves from the slot to the loop
    have hk' : m.armed = k :: m.control.conts := by simp [Machine.armed, hk]
    split
    · refine less h rfl rfl ?_ (.refl _) rfl (.inl rfl)
      rw [hk']
      exact (List.nil_sublist _).cons_cons k
    · refine less h rfl rfl ?_ (.refl _) rfl (.inl rfl)
      exact List.nil_sublist _

theorem finish {i : InstallationId} {v : Value} (h : m₀.accounts.Fades m.accounts) :
    m₀.Idles (m.finish Γ i v) := by
  unfold Machine.finish
  split
  · exact fault h
  · split
    · exact fault h
    · refine less h rfl rfl ((List.nil_sublist _).append_left _) ?_ rfl (.inl rfl)
      exact .refl _

theorem give {v : Value} (hcontrol : m.control = .ret v) : m.Idles (m.give Γ v) := by
  have hrequest : m.control.request? = none := by rw [hcontrol]; rfl
  have hconts : m.control.conts = [] := by rw [hcontrol]; rfl
  unfold Machine.give
  split
  · rename_i hstack
    split
    · exact quiet rfl rfl rfl rfl (.refl _) rfl rfl
    · rename_i m' hback
      simp only [Machine.handBack, Option.map_eq_some_iff] at hback
      obtain ⟨⟨code, fs⟩, hback, rfl⟩ := hback
      refine warn ?_ _
      refine quiet rfl rfl rfl rfl ?_ rfl rfl
      rw [Machine.waits, Machine.waits, Fibers.waits_handBack hback, hstack]
      exact .refl _
  · rename_i a S hstack
    -- what is on top of the stack is taken off
    have hless : ({ m with stack := S } : Machine ω).waits.Subperm m.waits := by
      rw [Machine.waits, Machine.waits, hstack]
      exact (List.subperm_append_right _).mpr (waitsIn_subperm a S)
    have hfades : m.accounts.Fades ({ m with stack := S } : Machine ω).accounts :=
      { Accounts.Fades.refl m.accounts with waits := hless }
    cases a with
    | bind next | catching next => exact quiet rfl rfl rfl rfl hless rfl rfl
    | owning os | inPlace i handler hidden e => exact quiet rfl rfl rfl hconts hless rfl hrequest
    | clause keep answer => exact quiet rfl rfl rfl rfl hless rfl rfl
    | looping body next =>
      simp only
      split <;> exact quiet rfl rfl rfl rfl hless rfl rfl
    | driving i f => exact finish hfades
    | returning i answer | calling answer => exact settle hfades
    | start body | stepping | sending i e modifier command => exact fault hfades

theorem deliver {s : Step (Cont ω) Value} (hcontrol : m.control = .deliver s) :
    m.Idles (m.deliver s) := by
  unfold Machine.deliver
  split
  · rename_i S hstack
    split
    · refine onTop rfl rfl rfl rfl rfl ?_ rfl rfl
      rw [hstack]
      exact waitsIn_subperm _ _
    · rename_i k
      unfold Machine.stepCont
      split
      · exact enter (.refl _)
      · split
        · exact onTop rfl rfl rfl rfl rfl (.refl _) rfl rfl
        · exact fault (.refl _)
  · exact fault (.refl _)

theorem unwind {message : String} (hcontrol : m.control = .unwind message) :
    m.Idles (m.unwind message) := by
  have hrequest : m.control.request? = none := by rw [hcontrol]; rfl
  have hconts : m.control.conts = [] := by rw [hcontrol]; rfl
  unfold Machine.unwind
  split
  · rename_i hstack
    unfold Machine.handBack
    cases hback : m.fibers.handBack? with
    | none => exact quiet rfl rfl rfl rfl (.refl _) rfl rfl
    | some x =>
      obtain ⟨code, fs⟩ := x
      refine quiet rfl rfl rfl rfl ?_ rfl rfl
      rw [Machine.waits, Machine.waits, Fibers.waits_handBack hback, hstack]
      exact .refl _
  · rename_i next S hstack
    refine onTop rfl rfl rfl rfl rfl ?_ rfl rfl
    rw [hstack]
    exact waitsIn_subperm _ _
  · rename_i a S hstack
    refine onTop rfl rfl rfl rfl hconts ?_ rfl hrequest
    rw [hstack]
    exact waitsIn_subperm _ _

theorem exit {f : Fault} : m.Idles (m.exit f) :=
  less (.refl _) rfl rfl (List.nil_sublist _) (.refl _) rfl (.inl rfl)

/-- A new body runs on a new fiber. -/
theorem install (h : m.traffic = ({ m₀ with stack := S } : Machine ω).traffic)
    (hS : waitsIn S = waitsIn m₀.stack) (i : Installing) (body : ReferenceId → Comp ω) :
    m₀.Idles (m.install Γ i body) := by
  have hfades : ∀ m' : Machine ω, m'.traffic = ({ m₀ with stack := S } : Machine ω).traffic →
      m₀.accounts.Fades m'.accounts := by
    intro m' h'
    rw [(of_traffic h').1]
    exact { Accounts.Fades.refl m₀.accounts with
      waits := by
        show (waitsIn S ++ m₀.fibers.waits).Subperm (waitsIn m₀.stack ++ m₀.fibers.waits)
        rw [hS] }
  unfold Machine.install
  have h₁ := (Machine.traffic_chooseLabel m i.label).trans h
  generalize m.chooseLabel i.label = chosen at h₁
  obtain ⟨_ | label, m₁⟩ := chosen
  · exact fault (hfades _ h₁)
  have h₂ := (Machine.traffic_declare m₁ i.handlerType (Γ.handlerType i.handlerType)).trans h₁
  simp only
  generalize m₁.declare i.handlerType (Γ.handlerType i.handlerType) = declared at h₂
  obtain ⟨_ | _, m₂⟩ := declared
  · exact fault (hfades _ h₂)
  have h₃ := (Machine.traffic_acquireStack m₂).trans h₂
  simp only
  generalize m₂.acquireStack = acquired at h₃
  obtain ⟨why | _, m₃⟩ := acquired
  · cases why with
    | outOfMemory => exact fault (hfades _ h₃)
    | overflow =>
      exact less (hfades _ h₃) rfl rfl ((List.nil_sublist _).append_left _) (.refl _) rfl (.inl rfl)
  · -- the new fiber has not started
    refine enter ?_
    have hfades₃ := hfades _ h₃
    refine { hfades₃ with waits := .trans (.refl _) hfades₃.waits }

end Machine.Idles

/-! ### Sending -/

namespace Does

variable [Contents ω] {e : ExchangeId} {command : Command} {i : InstallationId} {position : Nat}
  {next : Value → Comp ω}

/-- A plain clause starts where its command was sent, unless something is wrong. -/
theorem sendInPlace (hm : m.Sends e command i position next)
    (hstep : m.step Γ = (m.push (.bind next)).sendInPlace Γ i position command) :
    Does Γ m (m.step Γ) := by
  obtain ⟨target, ⟨hreleasing, hcontrol⟩, hfound, rfl⟩ := id hm
  have harmed := Machine.armed_of_eval hcontrol
  have hcodeAt : (m.push (.bind next)).codeAt Γ i position = m.codeAt Γ i position := rfl
  unfold Machine.sendInPlace at hstep
  simp only [hcodeAt] at hstep
  split at hstep
  · rename_i run hcode
    split at hstep
    · refine .panics hm (by rw [hstep]; rfl) ?_
      rw [hstep]
      refine Accounts.ext rfl rfl ?_ rfl rfl rfl rfl rfl
      exact (List.append_nil _).trans harmed.symm
    · rename_i hidden chain hsplit
      simp only [Machine.takeCommand, Machine.bump, Machine.hold, Machine.retain, Machine.push,
        Store.insert_fst, Store.find?_insert_self, Option.bind_eq_bind, Option.bind_some,
        Store.modify_insert, Option.pure_def] at hstep
      refine .performs hm ⟨.plain run, ⟨hcode, ?_, [], ?_⟩, next, hm⟩ ?_
      · rw [hstep]
        rfl
      · rw [hstep]
        exact ⟨_, rfl⟩
      · rw [hstep]
        refine Accounts.ext rfl rfl ?_ rfl rfl rfl rfl rfl
        exact (List.append_nil _).trans harmed.symm
  · refine .refuses hm (f := .internal
      ("plain clause for " ++ command.name ++ " has no plain entry point")) (by rw [hstep]; rfl)
      rfl ?_
    rw [hstep]
    exact (Machine.Idles.fault (.refl m.accounts)).fades

/-- A command that is sent to a clause. -/
theorem send (hm : m.Sends e command i position next) : Does Γ m (m.step Γ) := by
  obtain ⟨target, ⟨hreleasing, hcontrol⟩, hfound, rfl⟩ := id hm
  have hstep : m.step Γ = (m.push (.bind next)).send Γ i position command := by
    simp only [Machine.step, hreleasing, hcontrol, Machine.eval, hfound]
  unfold Machine.send at hstep
  simp only at hstep
  split at hstep
  · exact sendInPlace hm hstep
  · refine .sends hm ?_ ?_
    · rw [hstep]
      exact ⟨hreleasing, rfl⟩
    · rw [hstep]
      refine Accounts.ext rfl rfl ?_ rfl rfl rfl rfl rfl
      exact (List.append_nil _).trans (Machine.armed_of_eval hcontrol).symm

end Does

/-! ### Captures -/

namespace Machine

variable {r : Request} {i : InstallationId} {f : FiberId} {code : ClauseCode ω}
  {segment : Segment} {c' : Chain}

/-- What a capture counts, where everything that it looks for is there. -/
theorem counters_capture {y : Exchange} {command : Command}
    (hcode : m.codeAt Γ i r.entry = some code) (hplain : code.modifier ≠ .plain)
    (hsplit : m.chain.split i = .ok (segment, c')) (hy : m.exchanges.find? r.exchange = some y)
    (hcommand : y.command = some command) :
    (m.capture Γ i f r).counters = if code.takes then m.counters.bump .captures
      else (m.counters.bump .captures).bump .discarded := by
  unfold capture
  simp only [hcode]
  cases code with
  | plain run => exact absurd rfl hplain
  | resumptive run | noResume run =>
    simp only [hsplit, hold, bump, trace, record, Option.pure_def, ClauseCode.modifier,
      takeCommand, hy, hcommand, Option.bind_eq_bind, Option.bind_some, reduceCtorEq, if_false]
    rfl
  | noManage run =>
    simp only [hsplit, hold, bump, trace, record, Option.pure_def, ClauseCode.modifier,
      takeCommand, hy, hcommand, Option.bind_eq_bind, Option.bind_some, if_true, release]
    rfl

/-- Without a command in the exchange, a capture is a fault. -/
theorem control_capture_of_taken (hcode : m.codeAt Γ i r.entry = some code)
    (hplain : code.modifier ≠ .plain) (hsplit : m.chain.split i = .ok (segment, c'))
    (htaken : (m.exchanges.find? r.exchange).bind (·.command) = none) :
    (m.capture Γ i f r).control = .fault (deliveredTwice r.command) := by
  have htaken' : ∀ m' : Machine ω, m'.exchanges = m.exchanges →
      m'.takeCommand r.exchange = none := by
    intro m' hm'
    unfold takeCommand
    rw [hm']
    cases hy : m.exchanges.find? r.exchange with
    | none => rfl
    | some y =>
      have hcommand : y.command = none := by simpa [hy] using htaken
      simp [hcommand]
  unfold capture
  simp only [hcode]
  cases code with
  | plain run => exact absurd rfl hplain
  | resumptive run | noResume run =>
    simp only [hsplit, ClauseCode.modifier, reduceCtorEq, if_false]
    rw [htaken']
    all_goals rfl
  | noManage run =>
    simp only [hsplit, ClauseCode.modifier, if_true]
    rw [htaken']
    all_goals rfl

end Machine

namespace Does

variable [Contents ω] {r : Request} {f : FiberId}

/-- The driver of the target runs the clause for a request, unless something is wrong. -/
theorem capture {fs : Fibers (List (Activation ω))} (hm : m.Hands r)
    (hstep : m.step Γ = ({ m with fibers := fs, stack := S } : Machine ω).capture Γ r.target f r)
    (hwaits : (waitsIn S ++ fs.waits).Subperm m.waits) : Does Γ m (m.step Γ) := by
  obtain ⟨hreleasing, hcontrol⟩ := id hm
  have harmed : m.armed = m.pending.toList := by simp [Machine.armed, hcontrol, Control.conts]
  generalize hm₁ : ({ m with fibers := fs, stack := S } : Machine ω) = m₁ at hstep
  have hsame : m₁.chain = m.chain ∧ m₁.exchanges = m.exchanges ∧
      m₁.resumptions = m.resumptions ∧ m₁.counters = m.counters := by
    subst hm₁
    exact ⟨rfl, rfl, rfl, rfl⟩
  obtain ⟨hchain, hexchanges, hresumptions, hcounters₁⟩ := hsame
  have hfades : m.accounts.Fades m₁.accounts := by
    subst hm₁
    exact { Accounts.Fades.refl m.accounts with waits := hwaits }
  have hcodeAt : m₁.codeAt Γ r.target r.entry = m.codeAt Γ r.target r.entry := by
    simp only [Machine.codeAt, hchain]
  by_cases hplain : ∀ code, m.codeAt Γ r.target r.entry = some code → code.modifier = .plain
  · have hfault : ∃ f, m.step Γ = m₁.goOn (.fault f) ∧ f.isInternal := by
      rw [hstep]
      unfold Machine.capture
      cases hcode : m.codeAt Γ r.target r.entry with
      | none => exact ⟨.internal _, by simp only [hcodeAt, hcode]; rfl, rfl⟩
      | some code =>
        cases code with
        | plain run => exact ⟨.internal _, by simp only [hcodeAt, hcode]; rfl, rfl⟩
        | _ => cases hplain _ hcode
    obtain ⟨f, hfault, hf⟩ := hfault
    rw [hfault]
    exact .fails hm (.inl ⟨f, rfl, hf⟩) (Machine.Idles.fault hfades).fades
  push Not at hplain
  obtain ⟨code, hcode, hplain⟩ := hplain
  cases hsplit : m₁.chain.split r.target with
  | error why =>
    have heq : m.step Γ = (m₁.release [.fiber f, .installation r.target]).goOn
        (.unwind Machine.splitFailed) := by
      rw [hstep]
      unfold Machine.capture
      simp only [hcodeAt, hcode]
      cases code with
      | plain run => exact absurd rfl hplain
      | _ => simp only [hsplit]
    have hidles : m.Idles ((m₁.release [.fiber f, .installation r.target]).goOn
        (.unwind Machine.splitFailed)) :=
      .less hfades rfl rfl ((List.nil_sublist _).append_left _) (.refl _) rfl (.inl rfl)
    rw [heq]
    exact .fails hm (.inr rfl) hidles.fades
  | ok x =>
    obtain ⟨segment, c'⟩ := x
    cases htaken : (m₁.exchanges.find? r.exchange).bind (·.command) with
    | none =>
      exact .misses hm
        (hstep ▸ Machine.control_capture_of_taken (hcodeAt ▸ hcode) hplain hsplit htaken)
        (hexchanges ▸ htaken)
    | some command =>
      obtain ⟨y, hy, hcommand⟩ := Option.bind_eq_some_iff.mp htaken
      obtain ⟨counters, events, -, -, heq⟩ := Machine.capture_eq (f := f) (hcodeAt ▸ hcode)
        hplain hsplit hy hcommand
      have hcounters := Machine.counters_capture (f := f) (hcodeAt ▸ hcode) hplain hsplit hy
        hcommand
      rw [heq] at hcounters hstep
      have hstarts : m.Starts Γ r.exchange command r.target r.entry := by
        refine ⟨code, ⟨hcode, ?_, ?_⟩, ?_⟩
        · rw [hstep, hchain, hresumptions]
        · rw [hstep]
          exact ⟨_, _, rfl⟩
        · rw [if_neg hplain]
          exact ⟨r.command, y, hm, hexchanges ▸ hy, hcommand⟩
      have hgone : (m.step Γ).waits.Subperm m.waits ∧ (m.step Γ).armed.Sublist m.armed := by
        rw [hstep]
        subst hm₁
        refine ⟨hwaits, ?_⟩
        show (m.pending.toList ++ []).Sublist m.armed
        rw [harmed, List.append_nil]
      have hexchanges' : (m.step Γ).exchanges =
          m.exchanges.modify r.exchange fun x => { x with command := none } := by
        rw [hstep, hexchanges]
      cases htakes : code.takes with
      | true =>
        have hcounters' : (m.step Γ).counters = m.counters.bump .captures := by
          rw [hstep, hcounters, htakes, if_pos rfl, hcounters₁]
        have hresumptions' : (m.step Γ).resumptions = (m.resumptions.insert (.captured
            (Γ.handlerType (m₁.chain.get r.target).handlerType).answer f segment
              r.exchange)).2 := by
          rw [hstep, ← hresumptions]
          simp only [htakes, if_true]
        refine .captures hm hstarts hcode htakes rfl
          ⟨.inl hresumptions', .inl hexchanges', hgone.2, hgone.1, ?_, ?_, ?_, ?_⟩
        all_goals
          simp only [Machine.accounts, hcounters']
          rfl
      | false =>
        have hcounters' : (m.step Γ).counters = (m.counters.bump .captures).bump .discarded := by
          rw [hstep, hcounters, htakes, if_neg Bool.false_ne_true, hcounters₁]
        have hresumptions' : (m.step Γ).resumptions = m.resumptions := by
          rw [hstep, ← hresumptions]
          simp only [htakes, Bool.false_eq_true, if_false]
        refine .abandons hm hstarts hcode htakes
          ⟨.inl hresumptions', .inl hexchanges', hgone.2, hgone.1, ?_, ?_, ?_, ?_⟩
        all_goals
          simp only [Machine.accounts, hcounters']
          rfl

/-- A request is passed on, or the clause for its command starts. -/
theorem forward (hm : m.Hands r) : Does Γ m (m.step Γ) := by
  obtain ⟨hreleasing, hcontrol⟩ := id hm
  have harmed : m.armed = m.pending.toList := by simp [Machine.armed, hcontrol, Control.conts]
  have hstep : m.step Γ = m.forward Γ r := by simp only [Machine.step, hreleasing, hcontrol]
  unfold Machine.forward at hstep
  cases hsuspend : m.fibers.suspend? m.stack with
  | none =>
    rw [hsuspend] at hstep
    rw [hstep]
    exact .fails hm (.inl ⟨_, rfl, rfl⟩) (Machine.Idles.fault (.refl m.accounts)).fades
  | some x =>
    obtain ⟨code, fs⟩ := x
    simp only [hsuspend] at hstep
    have hwaits : (waitsIn code ++ fs.waits).Subperm m.waits :=
      (Fibers.waits_suspend hsuspend).subperm
    have hfades : ∀ control : Control ω, control.conts = [] → m.accounts.Fades
        ({ m with fibers := fs, stack := code, control } : Machine ω).accounts := by
      intro control hconts
      refine { Accounts.Fades.refl m.accounts with waits := hwaits, armed := ?_ }
      show (m.pending.toList ++ control.conts).Sublist m.armed
      rw [harmed, hconts, List.append_nil]
    have hresumers := Fibers.length_resumers_suspend hsuspend
    cases code with
    | nil =>
      rw [hstep]
      exact .fails hm (.inl ⟨_, rfl, rfl⟩) (hfades _ rfl)
    | cons a rest =>
      cases a
      case driving i f =>
        simp only at hstep
        split at hstep
        · rename_i htarget
          subst htarget
          exact capture hm hstep hwaits
        · rw [hstep]
          exact .passes hm ⟨hreleasing, rfl⟩ hresumers rfl (hfades _ rfl)
      all_goals
        rw [hstep]
        exact .fails hm (.inl ⟨_, rfl, rfl⟩) (hfades _ rfl)

/-! ### Every step -/

/-- Going on after the running fiber was resumed. -/
theorem wake (hreleasing : m.releasing = []) (hcontrol : m.control = .wake) :
    Does Γ m (m.step Γ) := by
  have hidles : m.Idles (m.step Γ) → Does Γ m (m.step Γ) := fun h =>
    .idles h (by simp [Machine.dealing?, hreleasing, hcontrol])
      (fun e command i position next hm => by
        obtain ⟨target, hm, -⟩ := hm
        exact absurd (hm.2.symm.trans hcontrol) (by simp))
      fun r hm => absurd (hm.2.symm.trans hcontrol) (by simp)
  have hstep : m.step Γ = m.wake := by simp only [Machine.step, hreleasing, hcontrol]
  unfold Machine.wake at hstep
  split at hstep
  · rename_i body S hstack
    refine hidles (hstep ▸ .onTop rfl rfl rfl rfl rfl ?_ rfl rfl)
    rw [hstack]
    exact waitsIn_subperm _ _
  · rename_i i f S hstack
    refine hidles (hstep ▸ .enter ?_)
    refine { Accounts.Fades.refl m.accounts with waits := ?_ }
    show (waitsIn S ++ m.fibers.waits).Subperm (waitsIn m.stack ++ m.fibers.waits)
    rw [hstack]
    exact .refl _
  · rename_i i e modifier command S hstack
    split at hstep
    · exact hidles (hstep ▸ .fault (.refl _))
    · split at hstep
      · rename_i v hv
        obtain ⟨y, hy, hresult⟩ := Option.bind_eq_some_iff.mp hv
        refine .returns (w := ⟨e, false, S⟩) (v := v)
          ⟨hreleasing, ⟨_, hstack, rfl⟩, hcontrol, ?_, ?_⟩ rfl hy hresult ?_
        · rw [hstep]
          rfl
        · rw [hstep]
          rfl
        · rw [hstep]
          refine ⟨.inl rfl, .inl rfl, (List.nil_sublist _).append_left _, ?_, rfl, rfl, rfl, rfl⟩
          show (waitsIn S ++ m.fibers.waits).Subperm (waitsIn m.stack ++ m.fibers.waits)
          rw [hstack]
          exact (List.subperm_append_right _).mpr (waitsIn_subperm _ _)
      · exact hidles (hstep ▸ .fault (.refl _))
  · exact hidles (hstep ▸ .fault (.refl _))

end Does

namespace Machine.Idles

variable [Contents ω]

/-- An operation that neither sends a command nor deals with a resumption. -/
theorem eval {c : Comp ω} (hm : m.Evaluates c) (hd : m.dealing? = none)
    (hc : ∀ target command next, c ≠ .invoke target command next) : m.Idles (m.eval Γ c) := by
  obtain ⟨hreleasing, hcontrol⟩ := id hm
  have hunusable : ∀ c', m.Idles (m.unusable.2.goOn (.eval c')) := by
    intro c'
    exact ⟨⟨.inr rfl, .inl rfl, (List.nil_sublist _).append_left _, .refl _, rfl, rfl, rfl, rfl⟩,
      .inl rfl⟩
  unfold Machine.dealing? at hd
  rw [hreleasing, hcontrol] at hd
  cases c with
  | invoke target command next => exact absurd rfl (hc target command next)
  | handle i body next =>
    exact .install (S := .bind next :: m.stack) rfl (waitsIn_of_wait? rfl _) i body
  | done v => exact .beside (c := .ret v) rfl rfl rfl rfl
  | panic message => exact .beside (c := .unwind message) rfl rfl rfl rfl
  | record e next => exact .beside (c := .eval next) rfl rfl rfl rfl
  | alloc content next => exact .beside (c := .eval (next _)) rfl rfl rfl rfl
  | read cell next => exact .beside (c := .eval (next _)) rfl rfl rfl rfl
  | write cell content next => exact .beside (c := .eval next) rfl rfl rfl rfl
  | retain o next =>
    exact .beside (c := .eval next) (congrArg (·.goOn (.eval next)) (m.traffic_retain o)) rfl rfl rfl
  | release os next => exact .beside (c := .eval next) rfl rfl rfl rfl
  | closure owned body next => exact .beside (c := .eval (next _)) rfl rfl rfl rfl
  | scope os body next =>
    exact .beside (c := .eval body) rfl ((waitsIn_of_wait? (a := .owning os) rfl _).trans
      (waitsIn_of_wait? (a := .bind next) rfl _)) rfl rfl
  | catching body next =>
    exact .beside (c := .eval body) rfl (waitsIn_of_wait? (a := .catching next) rfl _) rfl rfl
  | loop seed body next =>
    exact .beside (c := .eval (body seed)) rfl (waitsIn_of_wait? (a := .looping body next) rfl _)
      rfl rfl
  | call procedure arg next =>
    exact .beside (c := .eval (Γ.procedure procedure arg)) rfl
      (waitsIn_of_wait? (a := .bind next) rfl _) rfl rfl
  | apply f arg next =>
    simp only [Machine.eval, Machine.applyClosure]
    split
    · exact .beside (c := .eval _) rfl (waitsIn_of_wait? (a := .bind next) rfl _) rfl rfl
    · exact .beside (c := .ret _) rfl (waitsIn_of_wait? (a := .bind next) rfl _) rfl rfl
  | find search next =>
    simp only [Machine.eval]
    split
    · exact .fault (.refl _)
    · exact .beside (c := .eval _) rfl rfl rfl rfl
  | copy r next =>
    simp only [Machine.eval]
    split <;> exact .beside (c := .eval _) rfl rfl rfl rfl
  | function answer f next =>
    simp only [Option.map_eq_none_iff] at hd
    simp only [Machine.eval, hd]
    exact hunusable _
  | take r next =>
    simp only [Option.map_eq_none_iff] at hd
    simp only [Machine.eval, hd]
    exact hunusable _
  | resume r v next =>
    simp only [Option.map_eq_none_iff] at hd
    simp only [Machine.eval, Machine.resume, Machine.arm, Machine.push, hd, Option.map_none]
    exact .beside (c := .fault _) rfl (waitsIn_of_wait? (a := .bind next) rfl _) rfl rfl
  | tailResume r v next =>
    simp only [Option.map_eq_none_iff] at hd
    simp only [Machine.eval, Machine.tailResume, Machine.arm, hd, Option.map_none]
    exact .fault (.refl _)
  | ask q next =>
    exact .beside (c := .eval (next (m.answer q).1))
      (congrArg (·.goOn (.eval (next (m.answer q).1))) (m.traffic_answer q)) rfl rfl rfl
  | view v next =>
    exact .beside (c := .eval next) (congrArg (·.goOn (.eval next)) (m.traffic_view v)) rfl rfl rfl
  | print p next =>
    exact .beside (c := .eval next) (congrArg (·.goOn (.eval next)) (m.traffic_print p)) rfl rfl rfl
  | pushBare label name clauses next => exact .beside (c := .eval next) rfl rfl rfl rfl
  | popBare next =>
    simp only [Machine.eval]
    split
    · exact .fault (.refl _)
    · exact .beside (c := .eval _) rfl rfl rfl rfl

/-- Releasing enters nothing, except where a continuation is discarded. -/
theorem releaseOne {x : Holding} {hs : List Holding} (h : m.releasing = x :: hs)
    (hd : m.dealing? = none) : m.Idles (({ m with releasing := hs } : Machine ω).releaseOne x) := by
  have hne : m.releasing ≠ [] := by simp [h]
  have hless : ∀ m' : Machine ω, m'.resumptions = m.resumptions → m'.exchanges = m.exchanges →
      m'.armed = m.armed → m'.waits.Subperm m.waits → m'.counters = m.counters → m.Idles m' :=
    fun m' h1 h2 h3 h4 h5 => less (.refl _) h1 h2 (h3 ▸ .refl _) h4 h5 (.inr hne)
  cases x with
  | asset o =>
    cases o with
    | resumption r =>
      simp only [dealing?, h, Option.map_eq_none_iff] at hd
      simp only [Machine.releaseOne, releaseAsset, hd]
      exact hless _ rfl rfl rfl (.refl _) rfl
    | cell c =>
      simp only [Machine.releaseOne, releaseAsset, releaseCell]
      split
      · exact hless _ rfl rfl rfl (.refl _) rfl
      · split <;> exact hless _ rfl rfl rfl (.refl _) rfl
    | notice n => exact hless _ rfl rfl rfl (.refl _) rfl
    | _ =>
      simp only [Machine.releaseOne, releaseAsset]
      split <;> exact hless _ rfl rfl rfl (.refl _) rfl
  | installation i =>
    simp only [Machine.releaseOne, releaseInstallation]
    split
    · exact hless _ rfl rfl rfl (.refl _) rfl
    · split <;> exact hless _ rfl rfl rfl (.refl _) rfl
  | fiber f =>
    simp only [Machine.releaseOne]
    split
    · exact hless _ rfl rfl rfl (.refl _) rfl
    · rename_i S fs hdrop
      obtain ⟨S', hS, heq⟩ := Option.map_eq_some_iff.mp hdrop
      obtain ⟨rfl, rfl⟩ := Prod.mk.inj heq
      refine hless _ rfl rfl rfl ?_ rfl
      -- the code of the fiber is lost
      have hperm := (Fibers.waits_erase hS).append_left (waitsIn m.stack)
      refine List.Subperm.trans (List.Sublist.subperm ?_) hperm.symm.subperm
      exact (List.sublist_append_right _ _).append_left _
  | exchange e =>
    simp only [Machine.releaseOne]
    split
    · exact hless _ rfl rfl rfl (.refl _) rfl
    · exact ⟨⟨.inl rfl, .inr ⟨e, rfl⟩, .refl _, .refl _, rfl, rfl, rfl, rfl⟩, .inr hne⟩

end Machine.Idles

/-- What every step does. -/
theorem Machine.step_does [Contents ω] (Γ : Library ω) (m : Machine ω) : Does Γ m (m.step Γ) := by
  cases hd : m.dealing? with
  | some d => exact .deals hd (step_deals hd).1 (step_deals hd).2
  | none =>
  cases hreleasing : m.releasing with
  | cons x hs =>
    refine .idles ?_ hd (fun e command i position next hm => ?_) fun r hm => ?_
    · rw [step_releasing hreleasing]
      exact .releaseOne hreleasing hd
    · obtain ⟨target, hm, -⟩ := hm
      exact absurd (hm.1.symm.trans hreleasing) (by simp)
    · exact absurd (hm.1.symm.trans hreleasing) (by simp)
  | nil =>
    have hidles : m.Idles (m.step Γ) → (∀ target command next i position,
        m.control = .eval (.invoke target command next) →
          m.chain.dispatch m.referent command.name target ≠ .ok (i, position)) →
        m.control.request? = none → Does Γ m (m.step Γ) := by
      intro h hsends hhands
      refine .idles h hd (fun e command i position next hm => ?_) fun r hm => ?_
      · obtain ⟨target, hm, hfound, -⟩ := hm
        exact hsends target command next i position hm.2 hfound
      · rw [hm.2] at hhands
        cases hhands
    cases hcontrol : m.control with
    | eval c =>
      by_cases hc : ∀ target command next, c ≠ .invoke target command next
      · refine hidles ?_ (fun target command next i position heq => ?_) (by rw [hcontrol]; rfl)
        · simp only [step, hreleasing, hcontrol]
          exact .eval ⟨hreleasing, hcontrol⟩ hd hc
        · cases hcontrol.symm.trans heq
          exact absurd rfl (hc target command next)
      · push Not at hc
        obtain ⟨target, command, next, rfl⟩ := hc
        cases hfound : m.chain.dispatch m.referent command.name target with
        | ok found => exact .send ⟨target, ⟨hreleasing, hcontrol⟩, hfound, rfl⟩
        | error f =>
          refine hidles ?_ (fun target' command' next' i position heq => ?_)
            (by rw [hcontrol]; rfl)
          · simp only [step, hreleasing, hcontrol, eval, hfound]
            exact .fault (.refl _)
          · cases hcontrol.symm.trans heq
            simp [hfound]
    | request r => exact .forward ⟨hreleasing, hcontrol⟩
    | wake => exact .wake hreleasing hcontrol
    | _ =>
      refine hidles ?_ (by simp [hcontrol]) (by rw [hcontrol]; rfl)
      simp only [step, hreleasing, hcontrol]
      first
        | exact .give hcontrol
        | exact .deliver hcontrol
        | exact .settle (.refl _)
        | exact .unwind hcontrol
        | exact .exit
        | exact ⟨.refl _, .inl (by rw [hcontrol]; rfl)⟩

end EffectHandlers
