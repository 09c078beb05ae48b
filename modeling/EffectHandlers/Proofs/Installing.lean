import EffectHandlers.Proofs.Calm
import EffectHandlers.Proofs.Dispatched
/-!
# Installing and sending keep states sound

## Installing keeps states sound

A new installation goes on top of the chain, and its driver waits for the fiber of the body. All
that can go wrong is the program's choice of a label or of clauses, or that there is no memory.
-/

namespace EffectHandlers

variable {ω : Type} {Γ : Library ω} {m m' : Machine ω} {l : Layout ω}

/-- Warnings go into the journal only. -/
theorem Machine.agrees_warn (m : Machine ω) (ws : List SettingsWarning) : Agrees m (m.warn ws) := by
  unfold Machine.warn
  induction ws generalizing m with
  | nil => rfl
  | cons w ws ih => exact ih (m.trace (.warning w))

namespace Sound

/-- Handing out a label does not move installations. -/
theorem relabel (h : Sound Γ m l) (n : Int) :
    Sound Γ { m with chain := { m.chain with nextLabel := n } } l := by
  obtain ⟨front, lifted, kept, dropped⟩ := l
  have htip := h.tip
  simp only at htip
  exact
    { h with
      tip := by
        cases htip with
        | eval hc hx hs => exact .eval hc hx hs
        | ret hc hs => exact .ret hc hs
        | returned hc hs => exact .returned hc hs
        | deliver hc hs hS => exact .deliver hc hs hS
        | settle hc hs hS => exact .settle hc hs hS
        | start hc hs hb hS => exact .start hc hs hb hS
        | wake hw => exact .wake { hw with }
        | request hr => exact .request { hr with }
      placed := h.placed.congr h.placed.wellFormed h.placed.positive rfl h.placed.bottom
        (fun _ _ => rfl) h.placed.found
      regular := { h.regular with } }

/-- Asking for a stack touches nothing that matters, and its size is never too large. -/
theorem acquireStack (h : Sound Γ m l) :
    Sound Γ m.acquireStack.2 l ∧ m.acquireStack.2.control = m.control ∧
      m.acquireStack.2.stack = m.stack ∧ m.acquireStack.2.releasing = m.releasing ∧
      (m.acquireStack.1 = .ok () ∨ m.acquireStack.1 = .error .outOfMemory) := by
  have hsize := h.regular.stackSize
  have hwarn := Machine.agrees_warn { m with pool := m.pool.acquire.2.1 } m.pool.acquire.2.2
  have hpool : Agrees m { m with pool := m.pool.acquire.2.1 } := by
    simp only [Agrees, Machine.calm, StackPool.use_acquire]
  have hsound : Sound Γ ({ m with pool := m.pool.acquire.2.1 }.warn m.pool.acquire.2.2) l :=
    (h.agrees hpool).agrees hwarn
  have hno : m.pool.acquire.1 ≠ .failed .overflow := by
    unfold StackPool.acquire StackPool.allocate
    unfold Machine.stackSize at hsize
    split
    · simp
    · simp only
      split
      · omega
      · split <;> simp
  unfold Machine.acquireStack
  generalize m.pool.acquire = acquired at hwarn hsound hno
  obtain ⟨outcome, pool, warnings⟩ := acquired
  cases outcome with
  | reused =>
    exact ⟨hsound.agrees rfl, hwarn.control, hwarn.stack, hwarn.releasing, .inl rfl⟩
  | fresh => exact ⟨hsound.agrees rfl, hwarn.control, hwarn.stack, hwarn.releasing, .inl rfl⟩
  | failed why =>
    cases why with
    | overflow => exact absurd rfl hno
    | outOfMemory => exact ⟨hsound, hwarn.control, hwarn.stack, hwarn.releasing, .inr rfl⟩

/-- The state in which the body of a new installation starts. -/
theorem started (x : Installation) (h : Sound Γ m l) (hfront : l.front = m.stack) (hlifted : l.lifted = [])
    (hready : Ready m.stack) (hconts : m.control.conts = [])
    (hbelow : x.below = none) (hshares : x.shares = 3)
    (hclauses : x.clauses = (Γ.handlerType x.handlerType).entries) {body : Comp ω}
    (hbody : body.Orderly) (os : List Owned) {fs : Fibers (List (Activation ω))}
    (hfs : (m.fibers.create [.start body, .owning os]).2.resume?
        (m.fibers.create [.start body, .owning os]).1
        (.driving m.chain.installations.next m.fibers.parked.next :: .stepping :: m.stack) =
      some ([.start body, .owning os], fs)) :
    Sound Γ { m with
      chain := (m.chain.create x).2.push m.chain.installations.next
      references := (m.references.insert m.chain.installations.next).2
      fibers := fs
      stack := [.start body, .owning os]
      control := .wake } { l with front := [.start body, .owning os] } := by
  obtain ⟨front, lifted, kept, dropped⟩ := l
  obtain rfl : front = m.stack := hfront
  obtain rfl : lifted = [] := hlifted
  have hdriving : Driving m.chain.installations.next m.fibers.parked.next
      (.driving m.chain.installations.next m.fibers.parked.next :: .stepping :: m.stack) :=
    ⟨m.stack, rfl, hready⟩
  obtain ⟨fs', hresume, -, hresumers, hparks⟩ := h.parks.start [.start body, .owning os] hdriving
  obtain rfl : fs' = fs := by simpa using hresume.symm.trans hfs
  generalize hm' : ({ m with
    chain := (m.chain.create x).2.push m.chain.installations.next
    references := (m.references.insert m.chain.installations.next).2
    fibers := fs'
    stack := [.start body, .owning os]
    control := .wake } : Machine ω) = m'
  have hwaiting : m'.waiting =
      .driving m.chain.installations.next m.fibers.parked.next :: .stepping :: m.stack ++
        m.waiting := by
    subst hm'
    simp only [Machine.waiting, hresumers, List.flatMap_cons]
  have hconts' : m'.conts = m.conts := by
    subst hm'
    simp only [Machine.conts, Machine.armed, hconts]
    rfl
  have hreferences : m'.references.entries =
      (m.references.next, m.chain.installations.next) :: m.references.entries := by
    subst hm'
    rfl
  have hreleasing : m'.releasing = m.releasing := by subst hm'; rfl
  have hcount : ∀ y : Holding, y.isAsset = false →
      ((⟨[.start body, .owning os], [], kept, dropped⟩ : Layout ω).ledger m').count y =
        ((⟨m.stack, [], kept, dropped⟩ : Layout ω).ledger m).count y +
          [Holding.fiber m.fibers.parked.next, .installation m.chain.installations.next,
            .installation m.chain.installations.next].count y := by
    intro y hy
    rw [Layout.count_ledger, Layout.count_ledger, hwaiting, hconts', hreferences, hreleasing]
    simp only [Layout.towers, List.flatMap_cons, List.flatMap_append, List.flatMap_nil,
      List.append_nil, Activation.owned, List.count_append, count_map_asset hy, List.count_cons,
      List.count_nil, List.map_cons, List.cons_append, List.nil_append]
    omega
  subst hm'
  exact
    { tip := .start rfl rfl hbody (.inner trivial .nil)
      placed := by
        rw [hwaiting]
        refine (h.placed.install x m.fibers.parked.next).of_skeleton ?_
        simp [skeleton_cons, Activation.isInert]
      parks := hparks
      captured := hconts' ▸ h.captured
      ready := h.ready
      resumable := h.resumable
      dropping := h.dropping
      covers := h.covers.install h.placed.wellFormed hbelow fun j => by
        rw [hcount _ rfl, hshares]
        by_cases hj : j = m.chain.installations.next
        · subst hj
          simp
        · simp [hj, Ne.symm hj]
      heldOnce := h.heldOnce.mono fun e => by
        rw [hcount _ rfl]
        simp
      armed := by
        have harmed := h.armed
        rw [Machine.armed, hconts] at harmed
        exact harmed
      regular :=
        { h.regular with
          conts := hconts' ▸ h.regular.conts
          declares := (h.regular.declares.create hclauses).relink ⟨rfl⟩ } }

end Sound

/-- Declaring a handler type at its first use touches nothing that matters. -/
theorem Machine.agrees_declare (m : Machine ω) (name : String) (x : HandlerType ω) :
    Agrees m (m.declare name x).2 ∧ ∀ f, (m.declare name x).1 = .error f → f.isInternal = false := by
  unfold Machine.declare
  split
  · exact ⟨rfl, by simp⟩
  · split
    · refine ⟨rfl, fun f hf => ?_⟩
      cases hf
      rfl
    · exact ⟨rfl, by simp⟩

theorem Chain.checkLabel_eq_error {c : Chain} {label : Int} {f : Fault}
    (h : c.checkLabel label = .error f) : f.isInternal = false := by
  unfold Chain.checkLabel at h
  split at h
  · cases h
    rfl
  · split at h <;> cases h
    rfl

/-- Choosing a label touches nothing that matters. -/
theorem Sound.chooseLabel (h : Sound Γ m l) (label : Option Int) :
    Sound Γ (m.chooseLabel label).2 l ∧ (m.chooseLabel label).2.control = m.control ∧
      (m.chooseLabel label).2.stack = m.stack ∧
      ∀ f, (m.chooseLabel label).1 = .error f → f.isInternal = false := by
  cases label with
  | none => exact ⟨h.relabel _, rfl, rfl, by simp [Machine.chooseLabel]⟩
  | some label =>
    refine ⟨h, rfl, rfl, fun f hf => ?_⟩
    simp only [Machine.chooseLabel] at hf
    cases hcheck : m.chain.checkLabel label with
    | error g =>
      rw [hcheck] at hf
      cases hf
      exact Chain.checkLabel_eq_error hcheck
    | ok u =>
      rw [hcheck] at hf
      cases hf

/-- Installing leads to a good state. -/
theorem Sound.install (h : Sound Γ m l) (hfront : l.front = m.stack) (hlifted : l.lifted = [])
    (hready : Ready m.stack) (hconts : m.control.conts = []) (i : Installing)
    {body : ReferenceId → Comp ω} (hbody : ∀ r, (body r).Orderly) :
    Good Γ (m.install Γ i body) := by
  unfold Machine.install
  obtain ⟨hsound₁, hcontrol₁, hstack₁, hlabel⟩ := h.chooseLabel i.label
  generalize m.chooseLabel i.label = chosen at hsound₁ hcontrol₁ hstack₁ hlabel
  obtain ⟨choice, m₁⟩ := chosen
  cases choice with
  | error f => exact .fault rfl (hlabel f rfl)
  | ok label =>
  obtain ⟨hsame₂, hdeclared⟩ := m₁.agrees_declare i.handlerType (Γ.handlerType i.handlerType)
  generalize hdecl : m₁.declare i.handlerType (Γ.handlerType i.handlerType) = declared
    at hsame₂ hdeclared
  obtain ⟨declaration, m₂⟩ := declared
  simp only at hsame₂ hdeclared hsound₁ hcontrol₁ hstack₁ ⊢
  simp only [hdecl]
  cases declaration with
  | error f => exact .fault rfl (hdeclared f rfl)
  | ok u =>
  obtain ⟨hsound₃, hcontrol₃, hstack₃, -, hmemory⟩ := (hsound₁.agrees hsame₂).acquireStack
  generalize hacq : m₂.acquireStack = acquired at hsound₃ hcontrol₃ hstack₃ hmemory
  obtain ⟨acquisition, m₃⟩ := acquired
  simp only at hsound₃ hcontrol₃ hstack₃ hmemory ⊢
  rcases hmemory with rfl | rfl
  · have hstack : m₃.stack = m.stack := hstack₃.trans (hsame₂.stack.trans hstack₁)
    have hcontrol : m₃.control = m.control := hcontrol₃.trans (hsame₂.control.trans hcontrol₁)
    simp only [hacq]
    have hdriving : Driving m₃.chain.installations.next m₃.fibers.parked.next
        (.driving m₃.chain.installations.next m₃.fibers.parked.next :: .stepping :: m₃.stack) :=
      ⟨m₃.stack, rfl, hstack ▸ hready⟩
    obtain ⟨fs, hfs, -⟩ := hsound₃.parks.start [.start (body m₃.references.next),
      .owning (i.owned ++ [.reference m₃.references.next])] hdriving
    have hstarted := hsound₃.started
      { label, below := none, handler := i.handler, handlerType := i.handlerType,
        name := i.handlerType, clauses := (Γ.handlerType i.handlerType).entries, shares := 3 }
      (hfront.trans hstack.symm) hlifted (hstack ▸ hready) (hcontrol ▸ hconts) rfl rfl rfl
      (hbody m₃.references.next) (i.owned ++ [.reference m₃.references.next]) hfs
    have henter : ∀ m' : Machine ω, m'.fibers = (m₃.fibers.create [.start (body m₃.references.next),
        .owning (i.owned ++ [.reference m₃.references.next])]).2 →
        m'.stack = .stepping :: m₃.stack →
        m'.enter m₃.chain.installations.next m₃.fibers.parked.next = { m' with
          fibers := fs
          stack := [.start (body m₃.references.next),
            .owning (i.owned ++ [.reference m₃.references.next])]
          control := .wake } := by
      intro m' hfibers hstack'
      unfold Machine.enter
      rw [hfibers, hstack']
      simp only [show m₃.fibers.parked.next = (m₃.fibers.create [.start (body m₃.references.next),
        .owning (i.owned ++ [.reference m₃.references.next])]).1 from rfl] at hfs ⊢
      rw [hfs]
    refine .sound _ (hstarted.agrees ?_)
    change Agrees _ (Machine.enter _ m₃.chain.installations.next m₃.fibers.parked.next)
    rw [henter _ rfl rfl]
    rfl
  · simp only [hacq]
    exact .fault rfl rfl

end EffectHandlers

/-!
## Sending keeps states sound

A command that is sent goes to a live installation whose driver is blocked: a plain clause runs
where the command was sent, any other clause waits for the request to come down to the driver.
-/

namespace EffectHandlers

variable {ω : Type} {Γ : Library ω} {m m' : Machine ω} {l : Layout ω} {i : InstallationId}
  {entry : Nat} {command : Command}

/-- The code of a clause depends on what the installation declares only. -/
theorem Machine.codeAt_congr (hclauses : (m'.chain.get i).clauses = (m.chain.get i).clauses)
    (htype : (m'.chain.get i).handlerType = (m.chain.get i).handlerType) (entry : Nat) :
    m'.codeAt Γ i entry = m.codeAt Γ i entry := by
  simp only [Machine.codeAt, hclauses, htype]

/-- More shares of an installation do not change what is declared. -/
theorem Machine.codeAt_hold (i j : InstallationId) (entry : Nat) :
    Machine.codeAt Γ { m with chain := m.chain.modify i fun a => { a with shares := a.shares + 1 } }
      j entry = m.codeAt Γ j entry :=
  Machine.codeAt_congr
    (Chain.get_modify_congr Installation.clauses (fun a => { a with shares := a.shares + 1 })
      fun _ => rfl)
    (Chain.get_modify_congr Installation.handlerType (fun a => { a with shares := a.shares + 1 })
      fun _ => rfl)
    entry

/-- Ready code drives nothing. -/
theorem Ready.drivers_eq {S : List (Activation ω)} (h : Ready S) : drivers S = [] := by
  induction h with
  | nil => rfl
  | @inner a S ha _ ih => cases a <;> simp_all [drivers_cons, Activation.driver?, Activation.Inner]
  | @answers a S ha _ ih =>
    cases a <;> simp_all [drivers_cons, Activation.driver?, Activation.Answers]

/-- Where somebody drives, a fiber is running. -/
theorem Waiters.current_isSome {cur : Option FiberId}
    {rs : List (Resumer (List (Activation ω)))} (h : Waiters cur rs)
    (hi : i ∈ drivers (rs.flatMap (·.code))) : ∃ f, cur = some f := by
  cases h with
  | native => simp at hi
  | fiber => exact ⟨_, rfl⟩

namespace Sound

/-- A live installation is driven by code that waits. -/
theorem driver_waits (h : Sound Γ m l) (hfront : l.front = m.stack) (hready : Ready m.stack)
    (hi : i ∈ m.chain.live) :
    i ∈ exposed [] (m.stack ++ m.waiting) ∧ i ∈ drivers m.waiting ∧
      (∃ f, m.fibers.current = some f) ∧ i ≠ 0 ∧ (m.chain.installations.find? i).isSome := by
  have hplaced := h.placed
  rw [hfront] at hplaced
  rw [hplaced.reads.live_eq] at hi
  have hdriver : i ∈ drivers m.waiting := by
    have := (exposed_sublist [] (m.stack ++ m.waiting)).subset hi
    simpa [drivers_append, hready.drivers_eq] using this
  exact ⟨hi, hdriver, h.parks.waiters.current_isSome hdriver, hplaced.reads.ne_zero hi,
    hplaced.found i (Placed.exposed_subset _ _ hi)⟩

/-- A request starts at the invoker. -/
theorem requested (h : Sound Γ m l) (hfront : l.front = m.stack) (hlifted : l.lifted = [])
    (hready : Ready m.stack) (hconts : m.control.conts = []) (hreleasing : m.releasing = [])
    (hlive : i ∈ m.chain.live) {code : ClauseCode ω} (hcode : m.codeAt Γ i entry = some code)
    (hplain : code.modifier ≠ .plain) :
    ∃ l', Sound Γ { m with
      chain := m.chain.modify i fun a => { a with shares := a.shares + 1 }
      exchanges := (m.exchanges.insert { command := some command }).2
      stack := .sending i m.exchanges.next code.modifier command.name :: m.stack
      control := .request ⟨i, entry, m.exchanges.next, command.name⟩ } l' := by
  obtain ⟨front, lifted, kept, dropped⟩ := l
  obtain rfl : front = m.stack := hfront
  obtain rfl : lifted = [] := hlifted
  obtain ⟨hexposed, hdriver, ⟨f, hcurrent⟩, -, hfound⟩ := h.driver_waits rfl hready hlive
  let t : Tower ω := .invoker f i m.exchanges.next code.modifier command.name m.stack
  refine ⟨⟨t.code, t.rest, kept, dropped⟩, ?_⟩
  generalize hm' : ({ m with
    chain := m.chain.modify i fun a => { a with shares := a.shares + 1 }
    exchanges := (m.exchanges.insert { command := some command }).2
    stack := .sending i m.exchanges.next code.modifier command.name :: m.stack
    control := .request ⟨i, entry, m.exchanges.next, command.name⟩ } : Machine ω) = m'
  have hwaiting : m'.waiting = m.waiting := by subst hm'; rfl
  have hconts' : m'.conts = m.conts := by
    subst hm'
    simp only [Machine.conts, Machine.armed, hconts]
    rfl
  have hcount : ∀ x : Holding, ((⟨t.code, t.rest, kept, dropped⟩ : Layout ω).ledger m').count x =
      ((⟨m.stack, [], kept, dropped⟩ : Layout ω).ledger m).count x +
        [Holding.exchange m.exchanges.next, .installation i].count x := by
    intro x
    have hreferences : m'.references = m.references := by subst hm'; rfl
    have hreleasing' : m'.releasing = m.releasing := by subst hm'; rfl
    rw [Layout.count_ledger, Layout.count_ledger, hwaiting, hconts', hreferences, hreleasing']
    simp only [t, Tower.code, Tower.stack, Layout.towers, List.flatMap_cons, Activation.owned,
      List.count_append]
    omega
  have hcode' : m'.codeAt Γ i entry = some code := by
    rw [← hcode]
    subst hm'
    exact Machine.codeAt_hold i i entry
  have hplaced : Placed m.chain (t.code ++ m.waiting) kept := h.placed.of_code rfl rfl id
  subst hm'
  exact
    { tip := .request
        { control := rfl
          releasing := hreleasing
          stack := rfl
          current := hcurrent
          ready := hready
          exchange := rfl
          code := ⟨code, hcode', hplain, rfl⟩
          command := ⟨_, Store.find?_insert_self _ _, rfl⟩
          driver := hdriver
          live := hexposed }
      placed := hplaced.modify _ (fun _ => rfl) (.inr fun _ => rfl)
      parks := h.parks
      captured := hconts' ▸ h.captured
      ready := h.ready
      resumable := h.resumable
      dropping := h.dropping
      covers := h.covers.hold hfound fun j => by
        rw [hcount]
        by_cases hj : j = i
        · simp [hj]
        · simp [hj, Ne.symm hj]
      heldOnce := h.heldOnce.insert _ h.regular.exchanges fun e => by
        rw [hcount]
        by_cases he : e = m.exchanges.next
        · simp [he]
        · simp [he, Ne.symm he]
      armed := by
        intro k hk
        have harmed := h.armed
        rw [Machine.armed, hconts] at harmed
        have hold := harmed k hk
        cases k with
        | function answer f arg => exact hold
        | captured answer f seg e =>
          obtain ⟨y, hy, hresult⟩ := hold
          have hne : e ≠ m.exchanges.next := Nat.ne_of_lt (Store.lt_next h.regular.exchanges hy)
          exact ⟨y, by simp [Store.find?_insert, hne, hy], hresult⟩
      regular :=
        { h.regular with
          exchanges := Store.wellFormed_insert h.regular.exchanges _
          conts := hconts' ▸ h.regular.conts
          declares := h.regular.declares.modify _ (fun _ => rfl) fun _ => rfl } }

/-- The state in which a plain clause starts. -/
theorem hidden (h : Sound Γ m l) (hfront : l.front = m.stack) (hlifted : l.lifted = [])
    (hready : Ready m.stack) (hconts : m.control.conts = []) (hlive : i ∈ m.chain.live)
    {body : Comp ω} (hbody : body.Orderly) (handler : CellId) (y : Exchange) (os : List Owned) :
    ∃ c' l', (m.chain.modify i fun a => { a with shares := a.shares + 1 }).split i =
        .ok (⟨m.chain.top, i⟩, c') ∧
      Sound Γ { m with
        chain := c'.modify i fun a => { a with shares := a.shares + 1 }
        exchanges := (m.exchanges.insert y).2
        stack := .owning os :: .inPlace i handler ⟨m.chain.top, i⟩ m.exchanges.next :: m.stack
        control := .eval body } l' := by
  obtain ⟨front, lifted, kept, dropped⟩ := l
  obtain rfl : front = m.stack := hfront
  obtain rfl : lifted = [] := hlifted
  obtain ⟨hexposed, -, -, -, hfound⟩ := h.driver_waits rfl hready hlive
  have hheld := h.placed.modify (i := i) (fun a => { a with shares := a.shares + 1 })
    (fun _ => rfl) (.inr fun _ => rfl)
  obtain ⟨c', hsplit, hrelinks, -, hbelow, hplaced⟩ :=
    hheld.hide handler m.exchanges.next hexposed
  refine ⟨c', ⟨.owning os :: .inPlace i handler ⟨m.chain.top, i⟩ m.exchanges.next :: m.stack, [],
    kept, dropped⟩, hsplit, ?_⟩
  generalize hm' : ({ m with
    chain := c'.modify i fun a => { a with shares := a.shares + 1 }
    exchanges := (m.exchanges.insert y).2
    stack := .owning os :: .inPlace i handler ⟨m.chain.top, i⟩ m.exchanges.next :: m.stack
    control := .eval body } : Machine ω) = m'
  have hwaiting : m'.waiting = m.waiting := by subst hm'; rfl
  have hconts' : m'.conts = m.conts := by
    subst hm'
    simp only [Machine.conts, Machine.armed, hconts]
    rfl
  -- the clause holds its installation, and the segment that it hides
  let L := (⟨m.stack, [], kept, dropped⟩ : Layout ω).ledger m
  have hcount : ∀ x : Holding, x.isAsset = false → ((⟨m'.stack, [], kept, dropped⟩ :
      Layout ω).ledger m').count x = L.count x +
        [Holding.exchange m.exchanges.next, .installation i, .installation m.chain.top,
          .installation i].count x := by
    intro x hx
    have hreferences : m'.references = m.references := by subst hm'; rfl
    have hreleasing' : m'.releasing = m.releasing := by subst hm'; rfl
    have hstack : m'.stack =
        .owning os :: .inPlace i handler ⟨m.chain.top, i⟩ m.exchanges.next :: m.stack := by
      subst hm'
      rfl
    have hasset : ((Holding.asset (.cell handler)) == x) = false := by
      cases x <;> simp_all [Holding.isAsset]
    simp only [L]
    rw [Layout.count_ledger, Layout.count_ledger, hwaiting, hconts', hreferences, hreleasing',
      hstack]
    simp only [Layout.towers, List.flatMap_cons, Activation.owned, Segment.owned, List.count_append,
      count_map_asset hx, List.count_cons, List.count_nil, hasset, Bool.false_eq_true, if_false]
    omega
  have hcovers₁ : (m.chain.modify i fun a => { a with shares := a.shares + 1 }).Covers
      (.installation i :: L) := h.covers.hold hfound fun j => by
    by_cases hj : j = i
    · simp [hj, L]
    · simp [hj, Ne.symm hj, L]
  have hcovers₂ : c'.Covers (.installation m.chain.top :: .installation i :: L) :=
    hcovers₁.split hrelinks hbelow fun j => by
      by_cases hj : m.chain.top = j
      · simp [hj]
      · simp [hj]
  have hfound' : (c'.installations.find? i).isSome := hcovers₂.found (by simp)
  have hdeclares := ((h.regular.declares.modify (i := i)
    (fun a => { a with shares := a.shares + 1 }) (fun _ => rfl) fun _ => rfl).relink
      hrelinks).modify (i := i) (fun a => { a with shares := a.shares + 1 }) (fun _ => rfl)
        fun _ => rfl
  have hplaced' : Placed c' (.owning os :: .inPlace i handler ⟨m.chain.top, i⟩ m.exchanges.next ::
      m.stack ++ m.waiting) kept := hplaced.of_code rfl rfl id
  subst hm'
  exact
    { tip := .eval rfl hbody (.inner trivial (.inner trivial hready))
      placed := hplaced'.modify _ (fun _ => rfl) (.inr fun _ => rfl)
      parks := h.parks
      captured := hconts' ▸ h.captured
      ready := h.ready
      resumable := h.resumable
      dropping := h.dropping
      covers := hcovers₂.hold hfound' fun j => by
        rw [hcount _ rfl]
        by_cases hj : j = i
        · simp [hj, List.count_cons]
          omega
        · simp [hj, Ne.symm hj, List.count_cons]
      heldOnce := h.heldOnce.insert _ h.regular.exchanges fun e => by
        rw [hcount _ rfl]
        by_cases he : e = m.exchanges.next
        · simp [he, L]
        · simp [he, Ne.symm he, L]
      armed := by
        intro k hk
        have harmed := h.armed
        rw [Machine.armed, hconts] at harmed
        have hold := harmed k hk
        cases k with
        | function answer f arg => exact hold
        | captured answer f seg e =>
          obtain ⟨y', hy, hresult⟩ := hold
          have hne : e ≠ m.exchanges.next := Nat.ne_of_lt (Store.lt_next h.regular.exchanges hy)
          exact ⟨y', by simp [Store.find?_insert, hne, hy], hresult⟩
      regular :=
        { h.regular with
          exchanges := Store.wellFormed_insert h.regular.exchanges _
          conts := hconts' ▸ h.regular.conts
          declares := hdeclares } }

end Sound

/-- The code of a clause in an orderly library is orderly. -/
theorem Library.Orderly.codeAt (hΓ : Γ.Orderly) {code : ClauseCode ω}
    (hcode : m.codeAt Γ i entry = some code) : code.Orderly := by
  obtain ⟨-, clause, -, -, hclause, rfl⟩ := Machine.exists_clause_of_codeAt hcode
  exact hΓ.clauses _ clause (List.mem_of_getElem? hclause)

/-- Sending to a live installation that declares the command leads to a good state. -/
theorem Sound.send (h : Sound Γ m l) (hΓ : Γ.Orderly) (hfront : l.front = m.stack)
    (hlifted : l.lifted = []) (hready : Ready m.stack) (hconts : m.control.conts = [])
    (hreleasing : m.releasing = []) (hlive : i ∈ m.chain.live)
    (hclause : (m.chain.get i).clauseFor? command.name = some entry) :
    Good Γ (m.send Γ i entry command) := by
  obtain ⟨-, -, -, hzero, hfound⟩ := h.driver_waits hfront hready hlive
  obtain ⟨a, ha⟩ := Option.isSome_iff_exists.mp hfound
  obtain ⟨e, hentry⟩ := Installation.getElem?_of_clauseFor? hclause
  obtain ⟨code, hcode, hcodeModifier, -⟩ := h.regular.declares.codeAt hzero ha hentry
  have hmodifier : ((m.chain.get i).clauses[entry]?).map ClauseEntry.modifier =
      some code.modifier := by rw [hentry, Option.map_some, hcodeModifier]
  have horderly := hΓ.codeAt hcode
  by_cases hplain : code.modifier = .plain
  · obtain ⟨run, rfl⟩ : ∃ run, code = .plain run := by
      cases code <;> simp_all [ClauseCode.modifier]
    obtain ⟨c', l', hsplit, hsound⟩ := h.hidden hfront hlifted hready hconts hlive
      (horderly (m.chain.get i).handler command.payload) (m.chain.get i).handler
      { command := none } command.owned
    have hsend : m.send Γ i entry command = m.sendInPlace Γ i entry command := by
      simp [Machine.send, hmodifier, hplain]
    rw [hsend]
    unfold Machine.sendInPlace
    simp only [hcode, Machine.hold, Machine.retain, hsplit, Machine.takeCommand, Machine.bump,
      Store.insert_fst, Store.find?_insert_self, Option.bind_eq_bind, Option.bind_some,
      Store.modify_insert]
    exact .sound l' (hsound.agrees rfl)
  · obtain ⟨l', hsound⟩ := h.requested hfront hlifted hready hconts hreleasing hlive hcode hplain
    unfold Machine.send
    simp only [hmodifier]
    split
    · rename_i heq
      exact absurd (by simpa using heq) hplain
    · exact .sound l' (hsound.agrees rfl)

end EffectHandlers
