import EffectHandlers.Proofs.Careful
import EffectHandlers.Proofs.Hoarding
/-!
# Threads in which everything lingers

A thread beside one that has all of its entries, and keeps those that the first one releases. Whatever the
operations of a thread find in its tables, they find in the other one, so they do the same to both.
-/

namespace EffectHandlers.Machine

variable {ω : Type} {Γ : Library ω} {gone gone' : Holding → Prop} {m l : Machine ω}

/-- The second thread runs the same code as the first one, and has all that the first one has. What it has
besides is gone from the first one. -/
structure Hoarded (gone : Holding → Prop) (m l : Machine ω) : Prop where
  chain : m.chain.Hoarded l.chain
  fibers : m.fibers.Hoarded (fun f => gone (.fiber f)) l.fibers
  cells : m.cells.Shadows (fun c => gone (.asset (.cell c))) (fun x y => y.content = x.content) l.cells
  closures : m.closures.Shadows (fun f => gone (.asset (.closure f))) (fun x y => y = x) l.closures
  references : m.references.Shadows (fun r => gone (.asset (.reference r))) (fun i j => j = i)
    l.references
  exchanges : m.exchanges.Shadows (fun e => gone (.exchange e)) (fun x y => y = x) l.exchanges
  resumptions : m.resumptions.Shadows (fun r => gone (.asset (.resumption r))) (fun k κ => κ = k)
    l.resumptions
  pending : l.pending = m.pending
  declared : l.declared = m.declared
  pool : l.pool = m.pool
  actions : l.actions = m.actions
  stack : l.stack = m.stack
  control : l.control = m.control

namespace Hoarded

/-- A thread has what it has. -/
theorem refl [Contents ω] (hm : m.Filed) (htidy : m.fibers.Tidy) : m.Hoarded gone m where
  chain := ⟨rfl, rfl, .refl hm.installations fun _ => rfl⟩
  fibers := ⟨rfl, rfl, .refl hm.parked fun _ => rfl, htidy, htidy⟩
  cells := .refl hm.cells fun _ => rfl
  closures := .refl hm.closures fun _ => rfl
  references := .refl hm.references fun _ => rfl
  exchanges := .refl hm.exchanges fun _ => rfl
  resumptions := .refl hm.resumptions fun _ => rfl
  pending := rfl
  declared := rfl
  pool := rfl
  actions := rfl
  stack := rfl
  control := rfl

/-- More may be gone. -/
theorem mono (h : m.Hoarded gone l) (hgone : ∀ x, gone x → gone' x) : m.Hoarded gone' l :=
  { h with
    fibers := h.fibers.mono fun _ => hgone _
    cells := h.cells.mono (fun _ => hgone _) fun _ _ _ _ => id
    closures := h.closures.mono (fun _ => hgone _) fun _ _ _ _ => id
    references := h.references.mono (fun _ => hgone _) fun _ _ _ _ => id
    exchanges := h.exchanges.mono (fun _ => hgone _) fun _ _ _ _ => id
    resumptions := h.resumptions.mono (fun _ => hgone _) fun _ _ _ _ => id }

/-! ### Small changes -/

theorem goOn (h : m.Hoarded gone l) (c : Control ω) : (m.goOn c).Hoarded gone (l.goOn c) :=
  { h with control := rfl }

theorem push (h : m.Hoarded gone l) (a : Activation ω) : (m.push a).Hoarded gone (l.push a) :=
  { h with stack := congrArg (a :: ·) h.stack }

theorem pop (h : m.Hoarded gone l) (S : List (Activation ω)) :
    ({ m with stack := S } : Machine ω).Hoarded gone { l with stack := S } :=
  { h with stack := rfl }

/-- What is to be released does not matter. -/
theorem release (h : m.Hoarded gone l) (hs hs' : List Holding) :
    (m.release hs).Hoarded gone (l.release hs') := { h with }

theorem releaseIf (h : m.Hoarded gone l) (p : Prop) [Decidable p] (hs : List Holding) :
    (if p then m.release hs else m).Hoarded gone (if p then l.release hs else l) := by
  split
  · exact h.release _ _
  · exact h

theorem bump (h : m.Hoarded gone l) (c c' : Counter) : (m.bump c).Hoarded gone (l.bump c') :=
  { h with }

theorem record (h : m.Hoarded gone l) (e : Event) : (m.record e).Hoarded gone (l.record e) :=
  { h with
    actions := by
      rw [actions_record, actions_record, h.actions] }

/-- Events that are not actions do not matter. -/
theorem recordQuiet (h : m.Hoarded gone l) {e e' : Event} (he : e.isAction = false)
    (he' : e'.isAction = false) : (m.record e).Hoarded gone (l.record e') :=
  { h with
    actions := by
      rw [actions_record, actions_record, he, he']
      exact h.actions }

/-- Nor do trace events. -/
theorem traced (h : m.Hoarded gone l) (e e' : TraceEvent) (he : (Event.trace e).isAction = false)
    (he' : (Event.trace e').isAction = false) : (m.trace e).Hoarded gone (l.trace e') :=
  h.recordQuiet he he'

theorem warn (h : m.Hoarded gone l) (ws : List SettingsWarning) :
    (m.warn ws).Hoarded gone (l.warn ws) := by
  unfold Machine.warn
  induction ws generalizing m l with
  | nil => exact h
  | cons w ws ih => exact ih (h.recordQuiet rfl rfl)

theorem withChain {c d : Chain} (h : m.Hoarded gone l) (hchain : c.Hoarded d) :
    ({ m with chain := c } : Machine ω).Hoarded gone { l with chain := d } :=
  { h with chain := hchain }

theorem withPool (h : m.Hoarded gone l) (pool : StackPool) :
    ({ m with pool } : Machine ω).Hoarded gone { l with pool } :=
  { h with pool := rfl }

theorem hold (h : m.Hoarded gone l) (i : InstallationId) : (m.hold i).Hoarded gone (l.hold i) :=
  h.withChain (h.chain.modify i fun _ _ hab => hab)

theorem retain (h : m.Hoarded gone l) (o : Owned) : (m.retain o).Hoarded gone (l.retain o) := by
  cases o with
  | cell c =>
    exact
      { h with
        cells := h.cells.modify (fun s => { s with shares := s.shares + 1 })
          (fun s => { s with shares := s.shares + 1 }) fun _ _ hab => hab }
  | _ => exact h

/-- A new reference gets the same number. -/
theorem refer (h : m.Hoarded gone l) (i : InstallationId) :
    (l.references.insert i).1 = (m.references.insert i).1 ∧
      ({ m with references := (m.references.insert i).2 } : Machine ω).Hoarded gone
        { l with references := (l.references.insert i).2 } :=
  ⟨h.references.next, { h with references := h.references.insert rfl }⟩

/-! ### What is read -/

/-- A cell that is not gone has the same content. -/
theorem content_eq [Contents ω] (h : m.Hoarded gone l) {c : CellId} (hc : ¬ gone (.asset (.cell c))) :
    l.content c = m.content c := by
  rcases h.cells.find? hc with ⟨hx, hy⟩ | ⟨x, y, hx, hy, hxy⟩
  · simp [content, hx, hy]
  · simp [content, hx, hy, hxy]

theorem referent_eq (h : m.Hoarded gone l) {r : ReferenceId} (hr : ¬ gone (.asset (.reference r))) :
    l.referent r = m.referent r := by
  rcases h.references.find? hr with ⟨hi, hj⟩ | ⟨i, j, hi, hj, rfl⟩ <;> simp [referent, hi, hj]

theorem codeAt_eq (h : m.Hoarded gone l) {i : InstallationId}
    (hi : m.chain.installations.contains i) (entry : Nat) : l.codeAt Γ i entry = m.codeAt Γ i entry := by
  have hclauses := h.chain.read hi Installation.clauses fun _ => rfl
  have htype := h.chain.read hi Installation.handlerType fun _ => rfl
  simp only [codeAt, hclauses, htype]

/-- A command is taken out of both exchanges, or of none. -/
theorem takeCommand (h : m.Hoarded gone l) {e : ExchangeId}
    (he : gone (.exchange e) → m.exchanges.contains e) :
    (m.takeCommand e = none ∧ l.takeCommand e = none) ∨
      ∃ command m' l', m.takeCommand e = some (command, m') ∧ l.takeCommand e = some (command, l') ∧
        m'.Hoarded gone l' := by
  unfold Machine.takeCommand
  rcases h.exchanges.find?_of_imp he with ⟨hx, hy⟩ | ⟨x, y, hx, hy, rfl⟩
  · exact .inl ⟨by simp [hx], by simp [hy]⟩
  · rw [hx, hy]
    cases hcommand : y.command with
    | none => exact .inl ⟨by simp [hcommand], by simp [hcommand]⟩
    | some command =>
      refine .inr ⟨command, _, _, by simp [hcommand]; rfl, by simp [hcommand]; rfl, ?_⟩
      exact
        { h with
          exchanges := h.exchanges.modify (fun x => { x with command := none })
            (fun x => { x with command := none }) fun _ _ hab => by rw [hab] }

/-! ### Installing -/

theorem chooseLabel (h : m.Hoarded gone l) (label : Option Int) :
    (l.chooseLabel label).1 = (m.chooseLabel label).1 ∧
      (m.chooseLabel label).2.Hoarded gone (l.chooseLabel label).2 := by
  cases label with
  | none =>
    obtain ⟨hlabel, hchain⟩ := h.chain.freshLabel
    exact ⟨congrArg Except.ok hlabel, h.withChain hchain⟩
  | some label => exact ⟨by simp only [Machine.chooseLabel, h.chain.checkLabel_eq], h⟩

theorem declare (h : m.Hoarded gone l) (name : String) (t : HandlerType ω) :
    (l.declare name t).1 = (m.declare name t).1 ∧
      (m.declare name t).2.Hoarded gone (l.declare name t).2 := by
  unfold Machine.declare
  rw [h.declared]
  split
  · exact ⟨rfl, h⟩
  · split
    · exact ⟨rfl, h⟩
    · refine ⟨rfl, recordQuiet (m := { m with declared := name :: m.declared })
        (l := { l with declared := name :: m.declared }) ?_ rfl rfl⟩
      exact { h with declared := rfl }

theorem acquireStack (h : m.Hoarded gone l) :
    l.acquireStack.1 = m.acquireStack.1 ∧ m.acquireStack.2.Hoarded gone l.acquireStack.2 := by
  unfold Machine.acquireStack
  rw [h.pool]
  generalize m.pool.acquire = acquired
  obtain ⟨outcome, pool, warnings⟩ := acquired
  have hwarn := (h.withPool pool).warn warnings
  cases outcome with
  | failed why => exact ⟨rfl, hwarn⟩
  | fresh => exact ⟨rfl, hwarn.bump _ _⟩
  | reused => exact ⟨rfl, (hwarn.bump _ _).bump _ _⟩

/-- A fiber is entered in both threads. -/
theorem enter (h : m.Hoarded gone l) (i : InstallationId) {f : FiberId}
    (hf : gone (.fiber f) → m.fibers.parked.contains f) : (m.enter i f).Hoarded gone (l.enter i f) := by
  unfold Machine.enter
  rw [h.stack]
  rcases h.fibers.resume hf (.driving i f :: m.stack) with ⟨hm, hl⟩ | ⟨S, fs, gs, hm, hl, hfibers⟩
  · rw [hm, hl]
    exact h.goOn _
  · rw [hm, hl]
    exact { h with fibers := hfibers, stack := rfl, control := rfl }

/-- A new installation is put on both chains, with a reference to it and a fiber for its body. -/
theorem create (h : m.Hoarded gone l) (x : Installation) (code : List (Activation ω)) :
    Hoarded gone
      { m with
        chain := (m.chain.create x).2.push m.chain.installations.next
        references := (m.references.insert m.chain.installations.next).2
        fibers := (m.fibers.create code).2 }
      { l with
        chain := (l.chain.create x).2.push m.chain.installations.next
        references := (l.references.insert m.chain.installations.next).2
        fibers := (l.fibers.create code).2 } :=
  { h with
    chain := (h.chain.create x).2.push _
    references := h.references.insert rfl
    fibers := (h.fibers.create code).2 }

theorem install (h : m.Hoarded gone l) (i : Installing) (body : ReferenceId → Comp ω) :
    (m.install Γ i body).Hoarded gone (l.install Γ i body) := by
  unfold Machine.install
  obtain ⟨hlabel, h⟩ := h.chooseLabel i.label
  generalize m.chooseLabel i.label = x at h hlabel ⊢
  generalize l.chooseLabel i.label = y at h hlabel ⊢
  obtain ⟨result, m⟩ := x
  obtain ⟨result', l⟩ := y
  obtain rfl : result' = result := hlabel
  cases result' with
  | error f => exact h.goOn _
  | ok label =>
    dsimp only at h ⊢
    obtain ⟨hdeclare, h⟩ := h.declare i.handlerType (Γ.handlerType i.handlerType)
    generalize m.declare i.handlerType (Γ.handlerType i.handlerType) = x at h hdeclare ⊢
    generalize l.declare i.handlerType (Γ.handlerType i.handlerType) = y at h hdeclare ⊢
    obtain ⟨result, m⟩ := x
    obtain ⟨result', l⟩ := y
    obtain rfl : result' = result := hdeclare
    cases result' with
    | error f => exact h.goOn _
    | ok =>
      dsimp only at h ⊢
      obtain ⟨hstack, h⟩ := h.acquireStack
      generalize m.acquireStack = x at h hstack ⊢
      generalize l.acquireStack = y at h hstack ⊢
      obtain ⟨result, m⟩ := x
      obtain ⟨result', l⟩ := y
      obtain rfl : result' = result := hstack
      cases result' with
      | error why =>
        cases why with
        | outOfMemory => exact h.goOn _
        | overflow => exact (h.release _ _).goOn _
      | ok =>
        dsimp only at h
        have hmade := h.create
          { label, below := none, handler := i.handler, handlerType := i.handlerType,
            name := i.handlerType, clauses := (Γ.handlerType i.handlerType).entries, shares := 3 }
          [.start (body m.references.next), .owning (i.owned ++ [.reference m.references.next])]
        have hentered := (((hmade.bump .handles .handles).traced
          (.installed label i.handlerType) (.installed label i.handlerType) rfl rfl).push
            .stepping).enter m.chain.installations.next (f := m.fibers.parked.next) fun _ => by
              show (m.fibers.parked.insert _).2.contains m.fibers.parked.next
              simp [Store.contains]
        simp only [Chain.create, Store.insert, Fibers.create, h.chain.installations.next,
          h.references.next, h.fibers.parked.next] at hentered ⊢
        exact hentered

/-! ### Commands -/

/-- A new exchange gets the same number. -/
theorem exchange (h : m.Hoarded gone l) (y : Exchange) :
    (l.exchanges.insert y).1 = (m.exchanges.insert y).1 ∧
      ({ m with exchanges := (m.exchanges.insert y).2 } : Machine ω).Hoarded gone
        { l with exchanges := (l.exchanges.insert y).2 } :=
  ⟨h.exchanges.next, { h with exchanges := h.exchanges.insert rfl }⟩

theorem sendInPlace (h : m.Hoarded gone l) (hw : m.chain.Whole) {i : InstallationId}
    (hi : m.chain.installations.contains i) (entry : Nat) (command : Command) :
    (m.sendInPlace Γ i entry command).Hoarded gone (l.sendInPlace Γ i entry command) := by
  unfold Machine.sendInPlace
  rw [h.codeAt_eq hi, h.chain.read hi Installation.handler fun _ => rfl]
  split
  · rename_i code _
    dsimp only
    generalize (m.chain.get i).handler = handler
    have hheld := (h.hold i).retain (.cell handler)
    have hwhole : ((m.hold i).retain (.cell handler)).chain.Whole := hw.modify i fun _ => rfl
    generalize (m.hold i).retain (.cell handler) = m₁ at hheld hwhole ⊢
    generalize (l.hold i).retain (.cell handler) = l₁ at hheld ⊢
    obtain ⟨he, h⟩ := hheld.exchange { command := some command }
    have hfound : (m₁.exchanges.insert { command := some command }).2.contains
        (m₁.exchanges.insert { command := some command }).1 := by
      simp [Store.contains]
    generalize m₁.exchanges.insert { command := some command } = x at he h hfound ⊢
    generalize l₁.exchanges.insert { command := some command } = y at he h ⊢
    obtain ⟨e, es⟩ := x
    obtain ⟨e', es'⟩ := y
    obtain rfl : e' = e := he
    dsimp only at h hfound ⊢
    rcases hheld.chain.split hwhole i with ⟨_, _, hm, hl⟩ | ⟨s, c, d, hm, hl, hchain⟩
    · rw [hm, hl]
      exact (h.release _ _).goOn _
    · rw [hm, hl]
      dsimp only
      rcases (((h.withChain hchain).hold i).bump .plainDispatches .plainDispatches).takeCommand
        (e := e') fun _ => hfound with ⟨hm, hl⟩ | ⟨command, m₂, l₂, hm, hl, h⟩
      · rw [hm, hl]
        exact (((h.withChain hchain).hold i).bump _ _).goOn _
      · rw [hm, hl]
        exact ((h.push _).push _).goOn _
  · exact h.goOn _

theorem send (h : m.Hoarded gone l) (hw : m.chain.Whole) {i : InstallationId}
    (hi : m.chain.installations.contains i) (entry : Nat) (command : Command) :
    (m.send Γ i entry command).Hoarded gone (l.send Γ i entry command) := by
  unfold Machine.send
  have hclauses : (l.chain.get i).clauses = (m.chain.get i).clauses :=
    h.chain.read hi Installation.clauses fun _ => rfl
  have hlabel : (l.chain.get i).label = (m.chain.get i).label :=
    h.chain.read hi Installation.label fun _ => rfl
  have hname : (l.chain.get i).name = (m.chain.get i).name :=
    h.chain.read hi Installation.name fun _ => rfl
  simp only [hclauses, hlabel, hname]
  split
  · exact h.sendInPlace hw hi entry command
  · obtain ⟨he, h⟩ := (h.hold i).exchange { command := some command }
    generalize (m.hold i).exchanges.insert { command := some command } = x at he h ⊢
    generalize (l.hold i).exchanges.insert { command := some command } = y at he h ⊢
    obtain ⟨e, es⟩ := x
    obtain ⟨e', es'⟩ := y
    obtain rfl : e' = e := he
    exact ((h.recordQuiet rfl rfl).push _).goOn _

theorem runClause (h : m.Hoarded gone l) (handler : CellId) (answer : String) (f : FiberId) (s : Segment)
    (e : ExchangeId) (command : Command) (code : ClauseCode ω) :
    (m.runClause handler answer f s e command code).Hoarded gone
      (l.runClause handler answer f s e command code) := by
  have htaken : ∀ code : CellId → Value → ResumptionId → Comp ω,
      (m.runClause handler answer f s e command (.resumptive code)).Hoarded gone
        (l.runClause handler answer f s e command (.resumptive code)) := by
    intro code
    simp only [Machine.runClause, Store.insert_fst, h.resumptions.next]
    refine Hoarded.goOn (Hoarded.push ?_ _) _
    exact { h with resumptions := h.resumptions.insert rfl }
  have hleft : ∀ code : CellId → Value → Comp ω,
      (m.runClause handler answer f s e command (.noResume code)).Hoarded gone
        (l.runClause handler answer f s e command (.noResume code)) := fun code =>
    (((h.bump _ _).recordQuiet rfl rfl).push _).release _ _ |>.goOn _
  cases code with
  | resumptive code => exact htaken code
  | noManage code => exact htaken code
  | noResume code => exact hleft code
  | plain code => exact hleft code

theorem capture (h : m.Hoarded gone l) (hw : m.chain.Whole) {i : InstallationId}
    (hi : m.chain.installations.contains i) (f : FiberId) {r : Request}
    (hr : m.exchanges.contains r.exchange) :
    (m.capture Γ i f r).Hoarded gone (l.capture Γ i f r) := by
  unfold Machine.capture
  rw [h.codeAt_eq hi]
  have hname : (l.chain.get i).name = (m.chain.get i).name :=
    h.chain.read hi Installation.name fun _ => rfl
  have htype : (l.chain.get i).handlerType = (m.chain.get i).handlerType :=
    h.chain.read hi Installation.handlerType fun _ => rfl
  have hhandler : (l.chain.get i).handler = (m.chain.get i).handler :=
    h.chain.read hi Installation.handler fun _ => rfl
  simp only [hname, htype, hhandler]
  split
  · exact h.goOn _
  · exact h.goOn _
  · rename_i code _ _
    rcases h.chain.split hw i with ⟨_, _, hm, hl⟩ | ⟨s, c, d, hm, hl, hchain⟩
    · rw [hm, hl]
      exact (h.release _ _).goOn _
    · rw [hm, hl]
      dsimp only
      have hcut := (((h.withChain hchain).hold i).bump .captures .captures).traced
        (.captured (m.chain.get i).label (m.chain.get i).name (c.segmentLength s) code.modifier)
        (.captured (l.chain.get i).label (m.chain.get i).name (d.segmentLength s) code.modifier) rfl rfl
      have hfound := hcut.releaseIf (code.modifier = .noManage) [.installation i] |>.takeCommand
        (e := r.exchange) fun _ => by split <;> exact hr
      rcases hfound with ⟨hm, hl⟩ | ⟨command, m₂, l₂, hm, hl, h⟩
      · simp only [hm, hl]
        exact (hcut.releaseIf _ _).goOn _
      · simp only [hm, hl]
        exact (h.push _).runClause _ _ _ _ _ _ _

/-! ### Answers -/

theorem finish (h : m.Hoarded gone l) (hw : m.chain.Whole) {i : InstallationId}
    (hi : m.chain.installations.contains i) (v : Value) :
    (m.finish Γ i v).Hoarded gone (l.finish Γ i v) := by
  unfold Machine.finish
  rcases h.chain.pop hw.top with ⟨hm, hl⟩ | ⟨c, d, hm, hl, hchain⟩
  · rw [hm, hl]
    exact h.goOn _
  · rw [hm, hl]
    dsimp only
    have hkeeps : ∀ {j}, m.chain.installations.contains j → c.installations.contains j := by
      intro j hj
      obtain ⟨b, -, heq⟩ := Option.map_eq_some_iff.mp hm
      obtain ⟨-, rfl⟩ := Prod.mk.inj heq
      exact (Machine.contains_modify _ _ _ _).trans hj
    have hname : (d.get i).name = (c.get i).name :=
      hchain.read (hkeeps hi) Installation.name fun _ => rfl
    have hname' : (d.get m.chain.top).name = (c.get m.chain.top).name :=
      hchain.read (hkeeps hw.top) Installation.name fun _ => rfl
    have htype : (d.get i).handlerType = (c.get i).handlerType :=
      hchain.read (hkeeps hi) Installation.handlerType fun _ => rfl
    have hhandler : (d.get i).handler = (c.get i).handler :=
      hchain.read (hkeeps hi) Installation.handler fun _ => rfl
    simp only [hname, hname', htype, hhandler]
    split
    · exact (h.withChain hchain).goOn _
    · refine Hoarded.goOn (Hoarded.push ?_ _) _
      exact ((h.withChain hchain).recordQuiet rfl rfl).withChain (hchain.retire i)

theorem settle (h : m.Hoarded gone l) (answer : String) (v : Value) (kept : List Holding) :
    (m.settle answer v kept).Hoarded gone (l.settle answer v kept) := by
  unfold Machine.settle
  rw [h.pending]
  split
  · exact (h.release _ _).goOn _
  · have hnone : ({ m with pending := none } : Machine ω).Hoarded gone { l with pending := none } :=
      { h with pending := rfl }
    dsimp only
    split
    · exact (hnone.release _ _).goOn _
    · exact hnone.goOn _

/-! ### Continuations -/

/-- The same continuation is taken out. -/
theorem arm (h : m.Hoarded gone l) {r : ResumptionId} (hr : ¬ gone (.asset (.resumption r))) (v : Value) :
    (m.arm r v = none ∧ l.arm r v = none) ∨
      ∃ k m' l', m.arm r v = some (k, m') ∧ l.arm r v = some (k, l') ∧ m'.Hoarded gone l' := by
  unfold Machine.arm
  rcases h.resumptions.find? hr with ⟨hm, hl⟩ | ⟨k, κ, hm, hl, rfl⟩
  · exact .inl ⟨by rw [hm]; rfl, by rw [hl]; rfl⟩
  · rw [hm, hl]
    have hgone : ({ m with resumptions := m.resumptions.erase r } : Machine ω).Hoarded gone
        { l with resumptions := l.resumptions.erase r } :=
      { h with resumptions := h.resumptions.erase }
    cases κ with
    | captured answer f s e =>
      refine .inr ⟨_, _, _, rfl, rfl, ?_⟩
      exact
        { hgone with
          exchanges := h.exchanges.modify (fun x => { x with result := some v })
            (fun x => { x with result := some v }) fun _ _ hab => by rw [hab] }
    | function answer f arg => exact .inr ⟨_, _, _, rfl, rfl, hgone⟩

theorem stepCont (h : m.Hoarded gone l) {k : Cont ω}
    (hk : ∀ f, .fiber f ∈ k.owned → gone (.fiber f) → m.fibers.parked.contains f) :
    (m.stepCont k).Hoarded gone (l.stepCont k) := by
  cases k with
  | captured answer f s e =>
    refine Hoarded.enter ?_ s.lowest (hk f (by simp [Cont.owned]))
    exact (h.recordQuiet rfl rfl).withChain (h.chain.splice s)
  | function answer f arg =>
    simp only [Machine.stepCont]
    split
    · exact (h.push _).goOn _
    · exact h.goOn _

theorem resume (h : m.Hoarded gone l) {r : ResumptionId} (hr : ¬ gone (.asset (.resumption r)))
    (v : Value) : (m.resume r v).Hoarded gone (l.resume r v) := by
  unfold Machine.resume
  rcases h.arm hr v with ⟨hm, hl⟩ | ⟨k, m', l', hm, hl, h'⟩
  · rw [hm, hl]
    exact h.goOn _
  · rw [hm, hl]
    exact ((h'.bump _ _).push _).goOn _

theorem tailResume (h : m.Hoarded gone l) {r : ResumptionId} (hr : ¬ gone (.asset (.resumption r)))
    (v : Value) (next : Comp ω) : (m.tailResume r v next).Hoarded gone (l.tailResume r v next) := by
  unfold Machine.tailResume
  rcases h.arm hr v with ⟨hm, hl⟩ | ⟨k, m', l', hm, hl, h'⟩
  · rw [hm, hl]
    exact h.goOn _
  · rw [hm, hl]
    have hpending : (l'.bump .tailResumes).pending = (m'.bump .tailResumes).pending := h'.pending
    simp only [hpending]
    split
    · refine Hoarded.goOn ?_ _
      exact { h'.bump .tailResumes .tailResumes with pending := rfl }
    · exact ((h'.bump _ _).release _ _).goOn _

theorem applyClosure (h : m.Hoarded gone l) {f : ClosureId} (hf : ¬ gone (.asset (.closure f)))
    (arg : Value) : (m.applyClosure f arg).Hoarded gone (l.applyClosure f arg) := by
  unfold Machine.applyClosure
  rcases h.closures.find? hf with ⟨hm, hl⟩ | ⟨k, κ, hm, hl, rfl⟩
  · rw [hm, hl]
    exact h.goOn _
  · rw [hm, hl]
    refine Hoarded.goOn ?_ _
    exact { h with closures := h.closures.erase }

theorem unusable (h : m.Hoarded gone l) :
    l.unusable.1 = m.unusable.1 ∧ m.unusable.2.Hoarded gone l.unusable.2 :=
  ⟨h.resumptions.next, { h with resumptions := h.resumptions.skip }⟩

/-! ### Views -/

theorem reportLines (h : m.Hoarded gone l) :
    m.reportLines.2.Hoarded gone l.reportLines.2 := by
  unfold Machine.reportLines
  rw [h.pool]
  generalize m.pool.settings.use = used
  obtain ⟨settings, slot, warnings⟩ := used
  exact (h.withPool { m.pool with settings := slot }).warn warnings

theorem view (h : m.Hoarded gone l) (v : View) : (m.view v).Hoarded gone (l.view v) := by
  cases v with
  | report =>
    have hlines := h.reportLines
    unfold Machine.view
    generalize m.reportLines = x at hlines ⊢
    generalize l.reportLines = y at hlines ⊢
    exact hlines.recordQuiet rfl rfl
  | _ => exact h.recordQuiet rfl rfl

/-- What is printed does not matter. -/
theorem print (h : m.Hoarded gone l) (p : Printout) : (m.print p).Hoarded gone (l.print p) := by
  cases p with
  | report =>
    have hlines := h.reportLines
    unfold Machine.print
    generalize m.reportLines = x at hlines ⊢
    generalize l.reportLines = y at hlines ⊢
    exact { hlines with }
  | _ => exact { h with }

/-! ### Operations -/

/-- The same question gets the same answer. -/
theorem answer (h : m.Hoarded gone l) (hw : m.chain.Whole) (q : Query)
    (huses : ∀ o ∈ q.uses, ¬ gone (.asset o))
    (hreferent : ∀ r, m.chain.installations.contains (m.referent r)) :
    (l.answer q).1 = (m.answer q).1 ∧ (m.answer q).2.Hoarded gone (l.answer q).2 := by
  cases q with
  | depth => exact ⟨by simp only [Machine.answer, h.chain.depth_eq hw], h⟩
  | inFiber => exact ⟨by simp only [Machine.answer, h.fibers.current], h⟩
  | pooledStacks => exact ⟨by simp only [Machine.answer, h.pool], h⟩
  | isPending => exact ⟨by simp only [Machine.answer, h.pending], h⟩
  | freshLabel =>
    obtain ⟨hlabel, hchain⟩ := h.chain.freshLabel
    exact ⟨congrArg Value.int hlabel, h.withChain hchain⟩
  | isIssued label =>
    exact ⟨by simp only [Machine.answer, Chain.isIssued, h.chain.nextLabel], h⟩
  | isInstalled r =>
    have hr := h.referent_eq (r := r) (huses _ (by simp [Query.uses]))
    exact ⟨by simp only [Machine.answer, hr, h.chain.isInstalled_eq hw (hreferent r)], h⟩
  | labelOf r =>
    have hr := h.referent_eq (r := r) (huses _ (by simp [Query.uses]))
    have hlabel : (l.chain.get (m.referent r)).label = (m.chain.get (m.referent r)).label :=
      h.chain.read (hreferent r) Installation.label fun _ => rfl
    exact ⟨by simp only [Machine.answer, hr, hlabel], h⟩
  | isValid r =>
    have hr := h.resumptions.contains_eq (huses (.resumption r) (by simp [Query.uses]))
    exact ⟨by simp only [Machine.answer, hr], h⟩

/-- The same reference is copied. -/
theorem copy [Contents ω] (h : m.Hoarded gone l) {r : ReferenceId} (hr : ¬ gone (.asset (.reference r)))
    (next : ReferenceId → Comp ω) :
    (m.eval Γ (.copy r next)).Hoarded gone (l.eval Γ (.copy r next)) := by
  simp only [Machine.eval]
  rcases h.references.find? hr with
    ⟨hm, hl⟩ | ⟨i, j, hm, hl, rfl⟩
  · rw [hm, hl, h.references.next]
    refine Hoarded.goOn ?_ _
    exact { h with references := h.references.next ▸ h.references.skip }
  · rw [hm, hl]
    simp only [Store.insert_fst, h.references.next]
    exact ((h.refer j).2.hold j).goOn _

/-- A resumption is made of the same closure. -/
theorem function [Contents ω] (h : m.Hoarded gone l) {f : ClosureId} (hf : ¬ gone (.asset (.closure f)))
    (answer : String) (next : ResumptionId → Comp ω) :
    (m.eval Γ (.function answer f next)).Hoarded gone (l.eval Γ (.function answer f next)) := by
  simp only [Machine.eval]
  rcases h.closures.find? hf with
    ⟨hm, hl⟩ | ⟨k, κ, hm, hl, rfl⟩
  · rw [hm, hl]
    obtain ⟨hid, hskip⟩ := h.unusable
    simp only [hid]
    exact hskip.goOn _
  · rw [hm, hl]
    simp only [Store.insert_fst, h.resumptions.next]
    refine Hoarded.goOn ?_ _
    exact { h with closures := h.closures.erase, resumptions := h.resumptions.insert rfl }

/-- The same continuation is moved to a new resumption. -/
theorem take [Contents ω] (h : m.Hoarded gone l) {r : ResumptionId} (hr : ¬ gone (.asset (.resumption r)))
    (next : ResumptionId → Comp ω) :
    (m.eval Γ (.take r next)).Hoarded gone (l.eval Γ (.take r next)) := by
  simp only [Machine.eval]
  rcases h.resumptions.find? hr with
    ⟨hm, hl⟩ | ⟨k, κ, hm, hl, rfl⟩
  · rw [hm, hl]
    obtain ⟨hid, hskip⟩ := h.unusable
    simp only [hid]
    exact hskip.goOn _
  · rw [hm, hl]
    have hnext : (l.resumptions.erase r).next = (m.resumptions.erase r).next := h.resumptions.next
    simp only [Store.insert_fst, hnext]
    refine Hoarded.goOn ?_ _
    exact { h with resumptions := h.resumptions.erase.insert rfl }

theorem popBare [Contents ω] (h : m.Hoarded gone l) (hw : m.chain.Whole) (next : Int → Comp ω) :
    (m.eval Γ (.popBare next)).Hoarded gone (l.eval Γ (.popBare next)) := by
  simp only [Machine.eval]
  rcases h.chain.pop hw.top with ⟨hm, hl⟩ | ⟨c, d, hm, hl, hchain⟩
  · rw [hm, hl]
    exact h.goOn _
  · have hfound : c.installations.contains m.chain.top := Chain.contains_of_pop? hm ▸ hw.top
    have hlabel : (d.get m.chain.top).label = (c.get m.chain.top).label :=
      hchain.read hfound Installation.label fun _ => rfl
    rw [hm, hl]
    simp only [hlabel]
    exact ((h.withChain hchain).release _ _).goOn _

/-- The same operation does the same, if it uses nothing that is gone. -/
theorem eval [Contents ω] (h : m.Hoarded gone l) (hw : m.chain.Whole) (c : Comp ω)
    (huses : ∀ o ∈ c.uses, ¬ gone (.asset o))
    (hreferent : ∀ r, m.chain.installations.contains (m.referent r)) :
    (m.eval Γ c).Hoarded gone (l.eval Γ c) := by
  cases c with
  | done v => exact h.goOn _
  | panic message => exact h.goOn _
  | record e next => exact (h.record e).goOn _
  | alloc content next =>
    simp only [Machine.eval, Store.insert_fst, h.cells.next]
    refine Hoarded.goOn ?_ _
    exact { h with cells := h.cells.insert rfl }
  | read c next =>
    simp only [Machine.eval, h.content_eq (huses (.cell c) (by simp [Comp.uses]))]
    exact h.goOn _
  | write c content next =>
    refine Hoarded.goOn ?_ _
    exact
      { h with
        cells := h.cells.modify (fun s => { s with content }) (fun s => { s with content })
          fun _ _ _ => rfl }
  | retain o next => exact (h.retain o).goOn _
  | release os next => exact (h.release _ _).goOn _
  | scope os body next => exact ((h.push _).push _).goOn _
  | catching body next => exact (h.push _).goOn _
  | loop seed body next => exact (h.push _).goOn _
  | call procedure arg next => exact (h.push _).goOn _
  | closure owned body next =>
    simp only [Machine.eval, Store.insert_fst, h.closures.next]
    refine Hoarded.goOn ?_ _
    exact { h with closures := h.closures.insert rfl }
  | apply f arg next => exact (h.push _).applyClosure (huses _ (by simp [Comp.uses])) arg
  | handle i body next => exact (h.push _).install i body
  | invoke target command next =>
    have hdispatch : l.chain.dispatch l.referent command.name target =
        m.chain.dispatch m.referent command.name target :=
      h.chain.dispatch_eq hw command.name fun r hr => ⟨h.referent_eq (huses _ hr), hreferent r⟩
    simp only [Machine.eval, hdispatch]
    cases hfound : m.chain.dispatch m.referent command.name target with
    | error f => exact h.goOn _
    | ok found =>
      obtain ⟨i, entry⟩ := found
      exact (h.push _).send hw (Chain.contains_of_isLive (Chain.isLive_of_dispatch hfound)) entry command
  | find search next =>
    simp only [Machine.eval, h.chain.locate_eq hw]
    cases m.chain.locate search with
    | error f => exact h.goOn _
    | ok i =>
      simp only [Store.insert_fst, h.references.next]
      exact ((h.refer i).2.hold i).goOn _
  | copy r next => exact h.copy (huses _ (by simp [Comp.uses])) next
  | function answer f next => exact h.function (huses _ (by simp [Comp.uses])) answer next
  | take r next => exact h.take (huses _ (by simp [Comp.uses])) next
  | resume r v next => exact (h.push _).resume (huses _ (by simp [Comp.uses])) v
  | tailResume r v next => exact h.tailResume (huses _ (by simp [Comp.uses])) v next
  | ask q next =>
    obtain ⟨hanswer, hasked⟩ := h.answer hw q huses hreferent
    simp only [Machine.eval, hanswer]
    exact hasked.goOn _
  | view v next => exact (h.view v).goOn _
  | print p next => exact (h.print p).goOn _
  | pushBare label name clauses next =>
    obtain ⟨hid, hchain⟩ := h.chain.create
      { Installation.bottom with label, name, clauses := clauses.map fun c => ⟨c.1, c.1, c.2, .missing⟩ }
    simp only [Machine.eval, hid]
    exact (h.withChain (hchain.push _)).goOn _
  | popBare next => exact h.popBare hw next

/-! ### Control -/

theorem handBack (h : m.Hoarded gone l) (c : Control ω) :
    (m.handBack c = none ∧ l.handBack c = none) ∨
      ∃ m' l', m.handBack c = some m' ∧ l.handBack c = some l' ∧ m'.Hoarded gone l' := by
  unfold Machine.handBack
  rcases h.fibers.handBack with ⟨hm, hl⟩ | ⟨S, fs, gs, hm, hl, hfibers⟩
  · exact .inl ⟨by rw [hm]; rfl, by rw [hl]; rfl⟩
  · rw [hm, hl]
    exact .inr ⟨_, _, rfl, rfl, { h with fibers := hfibers, stack := rfl, control := rfl }⟩

theorem give (h : m.Hoarded gone l) (hw : m.chain.Whole)
    (hdriven : ∀ i f, .driving i f ∈ m.stack → m.chain.installations.contains i) (v : Value) :
    (m.give Γ v).Hoarded gone (l.give Γ v) := by
  unfold Machine.give
  rw [h.stack]
  cases hstack : m.stack with
  | nil =>
    rcases h.handBack (.ret v) with ⟨hm, hl⟩ | ⟨m', l', hm, hl, h'⟩
    · simp only [hm, hl]
      exact h.goOn _
    · simp only [hm, hl, h'.pool]
      generalize m'.pool.giveBack = given
      obtain ⟨pool, warnings⟩ := given
      exact (h'.withPool pool).warn warnings
  | cons a S =>
    have hpop := h.pop S
    cases a with
    | bind next => exact hpop.goOn _
    | owning os => exact hpop.release _ _
    | catching next => exact hpop.goOn _
    | looping body next =>
      simp only
      split
      · exact (hpop.push _).goOn _
      · exact hpop.goOn _
      · exact hpop.goOn _
    | driving i f => exact hpop.finish hw (hdriven i f (hstack ▸ List.mem_cons_self)) v
    | clause keep answer => exact (hpop.release _ _).goOn _
    | returning i answer => exact hpop.settle answer v _
    | calling answer => exact hpop.settle answer v _
    | inPlace i handler hidden e => exact (hpop.withChain (h.chain.splice hidden)).release _ _
    | start body => exact hpop.goOn _
    | stepping => exact hpop.goOn _
    | sending i e modifier command => exact hpop.goOn _

theorem deliver (h : m.Hoarded gone l) (s : Step (Cont ω) Value)
    (hk : ∀ k f, s = .tail k → .fiber f ∈ k.owned → gone (.fiber f) → m.fibers.parked.contains f) :
    (m.deliver s).Hoarded gone (l.deliver s) := by
  unfold Machine.deliver
  rw [h.stack]
  split
  · cases s with
    | done v => exact { h with stack := rfl, control := rfl }
    | tail k => exact h.stepCont fun f => hk k f rfl
  · exact h.goOn _

theorem wake (h : m.Hoarded gone l)
    (hfibers : ∀ i f, .driving i f ∈ m.stack → gone (.fiber f) → m.fibers.parked.contains f)
    (hexchanges : ∀ i e modifier command, .sending i e modifier command ∈ m.stack → gone (.exchange e) →
      m.exchanges.contains e) :
    m.wake.Hoarded gone l.wake := by
  unfold Machine.wake
  rw [h.stack]
  cases hstack : m.stack with
  | nil => exact h.goOn _
  | cons a S =>
    cases a with
    | start body => exact { h with stack := rfl, control := rfl }
    | driving i f => exact (h.pop S).enter i (hfibers i f (hstack ▸ List.mem_cons_self))
    | sending i e modifier command =>
      simp only
      split
      · exact h.goOn _
      · rcases h.exchanges.find?_of_imp (hexchanges i e modifier command (hstack ▸ List.mem_cons_self)) with
          ⟨hm, hl⟩ | ⟨y, z, hm, hl, rfl⟩
        · rw [hm, hl]
          exact h.goOn _
        · rw [hm, hl]
          simp only [Option.bind_some]
          split
          · refine release ?_ _ _
            exact
              { h with
                exchanges := h.exchanges.modify (fun x => { x with result := none })
                  (fun x => { x with result := none }) fun _ _ hab => by rw [hab]
                stack := rfl
                control := rfl }
          · exact h.goOn _
    | _ => exact h.goOn _

/-- What gets control when the running fiber parks has waited for it. -/
theorem mem_waiting_of_suspend {S : List (Activation ω)} {fs : Fibers (List (Activation ω))}
    {a : Activation ω} (hsuspend : m.fibers.suspend? m.stack = some (S, fs)) (ha : a ∈ S) :
    a ∈ m.waiting := by
  obtain ⟨f, -, hsuspend⟩ := Option.bind_eq_some_iff.mp hsuspend
  unfold Fibers.handBack? at hsuspend
  split at hsuspend
  · cases hsuspend
  · rename_i r rest hresumers
    obtain ⟨rfl, -⟩ := Prod.mk.inj (Option.some.inj hsuspend)
    have hresumers' : m.fibers.resumers = r :: rest := hresumers
    simp only [waiting, hresumers', List.flatMap_cons, List.mem_append]
    exact .inl ha

theorem forward (h : m.Hoarded gone l) (hw : m.chain.Whole) {r : Request}
    (hr : m.exchanges.contains r.exchange)
    (hdriven : ∀ i f, .driving i f ∈ m.waiting → m.chain.installations.contains i) :
    (m.forward Γ r).Hoarded gone (l.forward Γ r) := by
  unfold Machine.forward
  rw [h.stack]
  rcases h.fibers.suspend m.stack with ⟨hm, hl⟩ | ⟨S, fs, gs, hm, hl, hfibers⟩
  · rw [hm, hl]
    exact h.goOn _
  · rw [hm, hl]
    have h' : ({ m with fibers := fs } : Machine ω).Hoarded gone { l with fibers := gs } :=
      { h with fibers := hfibers }
    dsimp only
    split
    · rename_i i f rest
      split
      · refine (h'.pop rest).capture hw (hdriven i f ?_) f hr
        exact mem_waiting_of_suspend hm List.mem_cons_self
      · exact { h' with stack := rfl, control := rfl }
    · exact { h' with stack := rfl, control := rfl }

theorem unwind (h : m.Hoarded gone l) (message : String) :
    (m.unwind message).Hoarded gone (l.unwind message) := by
  unfold Machine.unwind
  rw [h.stack]
  split
  · rcases h.handBack (.unwind message) with ⟨hm, hl⟩ | ⟨m', l', hm, hl, h'⟩
    · rw [hm, hl]
      exact h.goOn _
    · rw [hm, hl]
      exact h'
  · exact { h with stack := rfl, control := rfl }
  · exact (h.pop _).release _ _

theorem exit (h : m.Hoarded gone l) (hw : m.chain.Whole) (f : Fault) :
    (m.exit f).Hoarded gone (l.exit f) := by
  unfold Machine.exit
  simp only [h.chain.listing_eq hw]
  refine Hoarded.goOn (release (recordQuiet ?_ rfl rfl) _ _) _
  exact { h with pending := rfl }

end Hoarded

end EffectHandlers.Machine
