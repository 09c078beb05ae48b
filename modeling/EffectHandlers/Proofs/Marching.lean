import EffectHandlers.Proofs.Absence
import EffectHandlers.Proofs.Allotting
import EffectHandlers.Proofs.Draining
import EffectHandlers.Proofs.Stride
/-!
# Threads that fail, and threads abreast

## Threads that fail, and what every thread keeps

A thread whose code is unwound, with nothing in it that stops panics, will not finish; nor will one with
a fault. What every thread keeps, whatever it runs, is collected here too.
-/

namespace EffectHandlers

variable {ω : Type}

/-- Whether this stops panics. -/
def Activation.catches : Activation ω → Bool
  | catching _ => true
  | _ => false

namespace Machine

/-- A thread that does not come to a value any more. -/
inductive Failing (m : Machine ω) : Prop
  | fault {f} (hcontrol : m.control = .fault f)
  | unwind {message} (hcontrol : m.control = .unwind message)
    (hcode : ∀ a ∈ m.stack ++ m.waiting, a.catches = false)
  | halted {o} (hcontrol : m.control = .halted o) (ho : ∀ v, o ≠ .finished v)

variable [Contents ω] {Γ : Library ω} {m : Machine ω}

theorem Failing.releaseOne (h : m.Failing) (x : Holding) : (m.releaseOne x).Failing := by
  have hcontrol := releaseOne_control m x
  obtain ⟨hstack, hresumers, -⟩ := releaseOne_same m x
  cases h with
  | fault h => exact .fault (hcontrol.trans h)
  | unwind h hcode =>
    refine .unwind (hcontrol.trans h) ?_
    rwa [hstack, waiting, hresumers]
  | halted h ho => exact .halted (hcontrol.trans h) ho

theorem Failing.step (h : m.Failing) : (m.step Γ).Failing := by
  cases hreleasing : m.releasing with
  | cons x hs =>
    rw [step_releasing hreleasing]
    refine Failing.releaseOne ?_ x
    cases h with
    | fault h => exact .fault h
    | unwind h hcode => exact .unwind h hcode
    | halted h ho => exact .halted h ho
  | nil =>
    cases h with
    | @fault f h =>
      have hhalts : (m.step Γ).control = .halted (.fatal f m.chain.listing) := by
        simp only [Machine.step, hreleasing, h]
        rfl
      exact .halted hhalts fun _ heq => by cases heq
    | halted h ho => exact (step_halted h hreleasing).symm ▸ Failing.halted h ho
    | @unwind message h hcode =>
      have hstep : m.step Γ = m.unwind message := by simp only [Machine.step, hreleasing, h]
      rw [hstep, Machine.unwind]
      cases hstack : m.stack with
      | nil =>
        cases hresumers : m.fibers.resumers with
        | nil =>
          simp only [handBack, Fibers.handBack?, hresumers, Option.map_none, Option.getD_none]
          exact .halted (o := .panicked _) rfl fun _ heq => by cases heq
        | cons r rs =>
          simp only [handBack, Fibers.handBack?, hresumers, Option.map_some, Option.getD_some]
          refine .unwind rfl fun a ha => hcode a ?_
          rw [hstack, waiting, hresumers]
          exact ha
      | cons a S =>
        have ha : a.catches = false := hcode a (by rw [hstack]; exact List.mem_cons_self)
        have hrest : ({ m with stack := S } : Machine ω).Failing :=
          .unwind h fun b hb => hcode b (by
            rw [hstack]
            exact List.mem_cons_of_mem _ hb)
        cases a with
        | catching => cases ha
        | _ =>
          cases hrest with
          | fault hf => cases h.symm.trans hf
          | unwind hu hcode' => exact .unwind hu hcode'
          | halted hh => cases h.symm.trans hh

theorem Failing.run (h : m.Failing) (n : Nat) : (run Γ n m).Failing := by
  induction n with
  | zero => exact h
  | succ n ih => exact run_succ n m ▸ ih.step

omit [Contents ω] in
/-- A failing thread has not finished. -/
theorem Failing.not_finished (h : m.Failing) (v : Value) : m.control ≠ .halted (.finished v) := by
  intro hv
  cases h with
  | fault h => cases h.symm.trans hv
  | unwind h => cases h.symm.trans hv
  | halted h ho => exact ho v (Control.halted.inj (h.symm.trans hv))

/-! ### What every thread keeps -/

/-- What is true of the tables, the chain and the fibers of every thread. -/
structure Ordinary (m : Machine ω) : Prop where
  orders : m.Orders
  filed : m.Filed
  fibers : m.fibers.Tidy

theorem ordinary_run (settings : SettingsSlot) (cells : List ω) (statics : List Owned)
    (main : Comp ω) (n : Nat) : (run Γ n (start settings cells statics main)).Ordinary := by
  have horders := (orders_start settings cells statics main).run (Γ := Γ) n
  have hfibers := (run_tidy Γ settings cells statics main n).1
  have hages := run_ages (Γ := Γ) n (start settings cells statics main)
  have htidy := (tidy_start settings cells statics main).run (Γ := Γ) n
  exact
    { orders := horders
      fibers := hfibers
      filed :=
        { cells := horders.counts.cells
          installations := horders.counts.installations
          references := hages.references.wellFormed ⟨.nil, nofun⟩
          closures := hages.closures.wellFormed Store.wellFormed_empty
          resumptions := htidy.accounts.resumptions
          parked := hfibers.wellFormed
          exchanges := htidy.accounts.exchanges } }

/-- The bottom of the chain is not released, since the chain has its only share. -/
theorem Orders.keeps_bottom (h : m.Orders) (hfatal : m.control.isFatal = false)
    (hbottom : m.chain.installations.find? 0 = some Installation.bottom) (hs : List Holding) :
    m.releasing ≠ .installation 0 :: hs := by
  intro hreleasing
  obtain ⟨live, cuts, hlays⟩ := h.laid hfatal
  -- the link or the top that ends the chain holds the bottom
  have hlinked : m.chain.Linked (some m.chain.top) (live ++ [0]) none := by
    refine Chain.linked_append.mpr ⟨_, hlays.arranged.linked, rfl, ?_⟩
    exact Chain.below_bottom hlays.arranged.bottom
  have hlink : 0 < m.shelved.count (.installation 0) + m.anchors.count (.installation 0) := by
    rcases hlinked.first_or_below (List.mem_append_right _ List.mem_cons_self) with
      htop | ⟨j, hj, hbelow⟩
    · have hanchor : .installation 0 ∈ m.anchors := by
        simp [anchors, hfatal, Option.some.inj htop]
      have := List.count_pos_iff.mpr hanchor
      omega
    · obtain ⟨a, ha⟩ : ∃ a, m.chain.installations.find? j = some a := by
        cases ha : m.chain.installations.find? j with
        | none => simp [Chain.get, ha, Installation.bottom] at hbelow
        | some a => exact ⟨a, rfl⟩
      have ha' : a.below = some 0 := by simpa [Chain.get, ha] using hbelow
      have := shelved_of_installation ha (x := .installation 0)
        (by simp [Installation.owned, ha'])
      omega
  have hspare := h.spare 0
  have hshares : m.shares (.installation 0) = 1 := Store.sharesOf_eq hbottom
  have hcount : 0 < m.releasing.count (.installation 0) := by
    rw [hreleasing, List.count_cons_self]
    exact Nat.succ_pos _
  rw [Machine.spare, hshares, holders] at hspare
  omega

end Machine

end EffectHandlers

/-!
## Threads abreast do the same

Two threads that are the same under other numbers take the same step, unless the first one fails. So they
stay the same until what they have to do comes to its end.
-/

namespace EffectHandlers.Rerun

section

variable (σ : Rerun) (rest : Comp Content → Comp Content → Prop)

/-- Two threads are the same under other numbers. -/
structure Abreast (m m' : Machine Content) : Prop where
  tables : σ.MapsTables rest m m'
  running : σ.MapsRunning rest m m'

/-- The threads stay the same, unless the first one fails. -/
def Goes (m m' : Machine Content) : Prop := σ.Abreast rest m m' ∨ m.Failing

/-- Two threads are the same apart from how they go on, at a spot where no tail resume waits. -/
structure Poised (base : Role) (spot : Spot) (m m' : Machine Content) : Prop where
  tables : σ.MapsTables rest m m'
  stack : σ.MapsStack rest base spot m.stack m'.stack
  waiting : σ.MapsWaiting rest base m.fibers.resumers m'.fibers.resumers
  pending : m.pending = none
  pending' : m'.pending = none

end

variable {σ : Rerun} {rest : Comp Content → Comp Content → Prop} {m m' m₁ m₁' : Machine Content}
  {base : Role} {spot : Spot} {ℓ : Role} {Γ Γ' : Library Content}

/-- Nothing stops panics. -/
theorem MapsStack.uncaught {S S' : List (Activation Content)} (h : σ.MapsStack rest base spot S S') :
    ∀ a ∈ S, a.catches = false := by
  induction h with
  | nil => exact nofun
  | _ => exact List.forall_mem_cons.mpr ⟨rfl, by assumption⟩

theorem MapsWaiting.uncaught {rs rs' : List (Resumer (List (Activation Content)))}
    (h : σ.MapsWaiting rest base rs rs') : ∀ a ∈ rs.flatMap (·.code), a.catches = false := by
  induction h with
  | nil => exact nofun
  | cons _ _ hcode _ ih =>
    intro a ha
    rcases List.mem_append.mp ha with ha | ha
    · exact hcode.uncaught a ha
    · exact ih a ha

/-- Without a resumer, the code of the thread itself is running. -/
theorem MapsWaiting.nil_of_outer {rs rs' : List (Resumer (List (Activation Content)))}
    (h : σ.MapsWaiting rest .outer rs rs') : rs = [] ∧ rs' = [] := by
  cases h
  exact ⟨rfl, rfl⟩

/-- What the thread itself is to do, it does without anything on the stack. -/
theorem MapsStack.nil_of_outer {S S' : List (Activation Content)}
    (h : σ.MapsStack rest base (.code .outer) S S') : S = [] ∧ S' = [] ∧ base = .outer := by
  cases h with
  | nil => exact ⟨rfl, rfl, rfl⟩
  | owning hℓ => exact absurd rfl hℓ

theorem Abreast.not_fatal (h : σ.Abreast rest m m') :
    m.control.isFatal = false ∧ m'.control.isFatal = false := by
  obtain ⟨base, spot, -, -, hcontrol⟩ := h.running
  generalize m.pending = k at hcontrol
  generalize m'.pending = k' at hcontrol
  generalize m.control = c at hcontrol
  generalize m'.control = c' at hcontrol
  cases hcontrol <;> exact ⟨rfl, rfl⟩

namespace Poised

theorem running (h : σ.Poised rest base spot m m') {c c' : Control Content}
    (hc : σ.MapsControl rest spot none none c c') : σ.MapsRunning rest (m.goOn c) (m'.goOn c') := by
  refine ⟨base, spot, h.stack, h.waiting, ?_⟩
  show σ.MapsControl rest spot m.pending m'.pending c c'
  rw [h.pending, h.pending']
  exact hc

theorem goOn (h : σ.Poised rest base spot m m') {c c' : Control Content}
    (hc : σ.MapsControl rest spot none none c c') : σ.Abreast rest (m.goOn c) (m'.goOn c') :=
  ⟨{ h.tables with }, h.running hc⟩

theorem eval (h : σ.Poised rest base (.code ℓ) m m') {c c' : Comp Content}
    (hc : σ.MapsCode rest ℓ c c') : σ.Abreast rest (m.goOn (.eval c)) (m'.goOn (.eval c')) :=
  h.goOn (.eval hc)

theorem ret (h : σ.Poised rest base (.code .inner) m m') {v v' : Value} (hv : σ.MapsValue v v') :
    σ.Abreast rest (m.goOn (.ret v)) (m'.goOn (.ret v')) := h.goOn (.ret hv)

theorem release (h : σ.Poised rest base spot m m') {hs hs' : List Holding}
    (hhs : σ.MapsHoldings hs hs') : σ.Poised rest base spot (m.release hs) (m'.release hs') :=
  { h with tables := h.tables.release hhs }

theorem discard (h : σ.Poised rest base spot m m') {os os' : List Owned}
    (hos : σ.MapsOwneds os os') : σ.Poised rest base spot (m.discard os) (m'.discard os') :=
  h.release hos.holdings

theorem trace (h : σ.Poised rest base spot m m') (e e' : TraceEvent) :
    σ.Poised rest base spot (m.trace e) (m'.trace e') :=
  { h with tables := h.tables.trace e e' }

theorem bump (h : σ.Poised rest base spot m m') (c : Counter) :
    σ.Poised rest base spot (m.bump c) (m'.bump c) :=
  { h with tables := { h.tables with } }

/-- Something is put on top of the code. -/
theorem push {spot' : Spot} (h : σ.Poised rest base spot m m') {a a' : Activation Content}
    (ha : ∀ S S', σ.MapsStack rest base spot S S' → σ.MapsStack rest base spot' (a :: S) (a' :: S')) :
    σ.Poised rest base spot' (m.push a) (m'.push a') :=
  { h with
    tables := { h.tables with }
    stack := ha _ _ h.stack }

theorem bind (h : σ.Poised rest base (.code ℓ) m m') {n n' : Value → Comp Content}
    (hn : ∀ v v', σ.MapsValue v v' → σ.MapsCode rest ℓ (n v) (n' v')) :
    σ.Poised rest base (.code .inner) (m.push (.bind n)) (m'.push (.bind n')) :=
  h.push fun _ _ => .bind hn

theorem hold (h : σ.Poised rest base spot m m') {i i' : InstallationId}
    (hi : σ.MapsInstallation i i') : σ.Poised rest base spot (m.hold i) (m'.hold i') :=
  { h with
    tables := h.tables.modifyInstallation hi fun ha =>
      { ha with shares := congrArg (· + 1) ha.shares } }

theorem chain (h : σ.Poised rest base spot m m') {c c' : Chain} (hc : σ.MapsChain c c') :
    σ.Poised rest base spot { m with chain := c } { m' with chain := c' } :=
  { h with tables := { h.tables with chain := hc } }

theorem failing_fault (f : Fault) : (m.goOn (.fault f)).Failing := .fault rfl

/-- Nothing stops panics. -/
theorem uncaught (h : σ.Poised rest base spot m m') :
    ∀ a ∈ m.stack ++ m.waiting, a.catches = false :=
  List.forall_mem_append.mpr ⟨h.stack.uncaught, h.waiting.uncaught⟩

/-- When code is unwound, the thread fails. -/
theorem failing_unwind (h : σ.Poised rest base spot m m') (message : String) :
    (m.goOn (.unwind message)).Failing := .unwind rfl h.uncaught

/-! ### Fibers -/

/-- Control goes back to the driver that waits for the running fiber. -/
theorem handBack (h : σ.Poised rest .inner spot m m') :
    ∃ S S' fs fs', m.fibers.handBack? = some (S, fs) ∧ m'.fibers.handBack? = some (S', fs') ∧
      ∃ base, σ.Poised rest base .drive { m with fibers := fs, stack := S }
        { m' with fibers := fs', stack := S' } := by
  have hwaiting := h.waiting
  generalize hrs : m.fibers.resumers = rs at hwaiting
  generalize hrs' : m'.fibers.resumers = rs' at hwaiting
  cases hwaiting with
  | @cons base r r' rs rs' hf hcurrent hcode hwaiting =>
    refine ⟨r.code, r'.code, { m.fibers with current := r.current, resumers := rs },
      { m'.fibers with current := r'.current, resumers := rs' }, ?_, ?_, base, ?_⟩
    · simp only [Fibers.handBack?, hrs]
    · simp only [Fibers.handBack?, hrs']
    · exact
        { tables := { h.tables with current := hcurrent }
          stack := hcode
          waiting := hwaiting
          pending := h.pending
          pending' := h.pending' }

/-- A fiber is resumed for an installation. -/
theorem enter (h : σ.Poised rest base .step m m') (hm : m.fibers.parked.WellFormed)
    (hm' : m'.fibers.parked.WellFormed) {i i' : InstallationId} {f f' : FiberId}
    (hi : σ.MapsInstallation i i') (hf : σ.MapsFiber f f') :
    σ.Goes rest (m.enter i f) (m'.enter i' f') := by
  cases hS : m.fibers.parked.find? f with
  | none =>
    refine .inr ?_
    simp only [Machine.enter, Fibers.resume?, hS, Option.map_none]
    exact failing_fault _
  | some S =>
    obtain ⟨S', hS', spot, hspot, hstack⟩ := h.tables.parked.exists_find? hf hS
    refine .inl ?_
    simp only [Machine.enter, Fibers.resume?, hS, hS', Option.map_some]
    refine ⟨{ h.tables with
      parked := h.tables.parked.erase hm hm' hf
      current := .some hf }, .inner, spot, hstack, ?_, ?_⟩
    · exact .cons hf h.tables.current (.driving hi hf h.stack) h.waiting
    · show σ.MapsControl rest spot m.pending m'.pending .wake .wake
      rw [h.pending, h.pending']
      exact .wake hspot

/-- The running fiber is parked. -/
theorem suspend (h : σ.Poised rest base spot m m')
    (hspot : spot = .drive ∨ spot = .wake) {S : List (Activation Content)}
    {fs : Fibers (List (Activation Content))} (hsuspend : m.fibers.suspend? m.stack = some (S, fs)) :
    ∃ S' fs', m'.fibers.suspend? m'.stack = some (S', fs') ∧
      ∃ base, σ.Poised rest base .drive { m with fibers := fs, stack := S }
        { m' with fibers := fs', stack := S' } := by
  have hcurrent := h.tables.current
  have hwaiting := h.waiting
  unfold Fibers.suspend? at hsuspend ⊢
  generalize hid : m.fibers.current = current at hcurrent hsuspend
  generalize hid' : m'.fibers.current = current' at hcurrent ⊢
  cases hcurrent with
  | none => cases hsuspend
  | @some f f' hf =>
    generalize hrs : m.fibers.resumers = rs at hwaiting
    generalize hrs' : m'.fibers.resumers = rs' at hwaiting
    cases hwaiting with
    | nil => simp [Fibers.handBack?, hrs] at hsuspend
    | @cons base r r' rs rs' hg hcurrent hcode hwaiting =>
      simp only [Option.bind_some, Fibers.handBack?, hrs, Option.some.injEq, Prod.mk.injEq] at hsuspend
      obtain ⟨rfl, rfl⟩ := hsuspend
      refine ⟨_, _, rfl, base, ?_⟩
      exact
        { tables := { h.tables with
            current := hcurrent
            parked := h.tables.parked.put hf ⟨spot, hspot, h.stack⟩ }
          stack := hcode
          waiting := hwaiting
          pending := h.pending
          pending' := h.pending' }

/-! ### Sending commands -/

/-- The same clause is found in both libraries. -/
theorem codeAt (h : σ.Poised rest base spot m m') (hΓ : σ.MapsLibrary rest Γ Γ')
    {i i' : InstallationId} (hi : σ.MapsInstallation i i') (entry : Nat) :
    Option.Rel (σ.MapsClause rest) (m.codeAt Γ i entry) (m'.codeAt Γ' i' entry) := by
  rcases h.tables.chain.get hi with hmaps | ⟨hbottom, hbottom'⟩
  · have hclauses := (hΓ.handlers _ hmaps.used).clauses
    unfold Machine.codeAt
    rw [hmaps.clauses, hmaps.handlerType]
    cases (m.chain.get i).clauses[entry]? with
    | none => exact .none
    | some e =>
      simp only [Option.bind_eq_bind, Option.bind_some]
      split
      · exact .none
      · have hentry := List.forall₂_iff_get.mp hclauses
        by_cases hlt : entry < (Γ.handlerType (m.chain.get i).handlerType).clauses.length
        · have hlt' := hentry.1 ▸ hlt
          rw [List.getElem?_eq_getElem hlt, List.getElem?_eq_getElem hlt']
          exact .some (hentry.2 entry hlt hlt').2
        · rw [List.getElem?_eq_none (Nat.le_of_not_lt hlt),
            List.getElem?_eq_none (hentry.1 ▸ Nat.le_of_not_lt hlt)]
          exact .none
  · simp only [Machine.codeAt, hbottom, hbottom']
    exact .none

/-- The same command is taken out of both exchanges. -/
theorem takeCommand (h : σ.Poised rest base spot m m') {e e' : ExchangeId}
    (he : σ.MapsExchange e e') {command : Command} (htake : m.takeCommand e = some (command, m₁)) :
    ∃ command' m₁', m'.takeCommand e' = some (command', m₁') ∧ σ.MapsCommand command command' ∧
      σ.Poised rest base spot m₁ m₁' := by
  obtain ⟨x, hx, htake⟩ := Option.bind_eq_some_iff.mp htake
  obtain ⟨c, hc, htake⟩ := Option.bind_eq_some_iff.mp htake
  obtain ⟨rfl, rfl⟩ := Prod.mk.inj (Option.some.inj htake)
  obtain ⟨x', hx', hmaps⟩ := h.tables.exchanges.exists_find? he hx
  have hcommand := hmaps.command
  rw [hc] at hcommand
  cases hc' : x'.command with
  | none =>
    rw [hc'] at hcommand
    cases hcommand
  | some c' =>
    rw [hc'] at hcommand
    cases hcommand with
    | some hcommand =>
      have hexchanges := h.tables.exchanges.modify he (f := fun x => { x with command := none })
        (g := fun x => { x with command := none }) fun hy => { hy with command := .none }
      exact ⟨c', { m' with exchanges := m'.exchanges.modify e' fun x => { x with command := none } },
        by simp [Machine.takeCommand, hx', hc'], hcommand,
        { h with tables := { h.tables with exchanges := hexchanges } }⟩

/-- The same clause runs. -/
theorem runClause (h : σ.Poised rest base (.code .answer) m m') {handler handler' : CellId}
    {f f' : FiberId} {s s' : Segment} {e e' : ExchangeId} {command command' : Command}
    {code code' : ClauseCode Content} (hhandler : σ.MapsCell handler handler') (answer : String)
    (hf : σ.MapsFiber f f') (hs : σ.MapsSegment s s') (he : σ.MapsExchange e e')
    (hcommand : σ.MapsCommand command command') (hcode : σ.MapsClause rest code code') :
    σ.Abreast rest (m.runClause handler answer f s e command code)
      (m'.runClause handler' answer f' s' e' command' code') := by
  have htakes : ∀ {c c' : ResumptionId → Comp Content},
      (∀ r r', σ.MapsResumption r r' → σ.MapsCode rest .answer (c r) (c' r')) →
      σ.Abreast rest
        (({ m with resumptions := (m.resumptions.insert (.captured answer f s e)).2 }.push
          (.owning (.resumption (m.resumptions.insert (.captured answer f s e)).1 :: command.owned))).goOn
            (.eval (c (m.resumptions.insert (.captured answer f s e)).1)))
        (({ m' with resumptions := (m'.resumptions.insert (.captured answer f' s' e')).2 }.push
          (.owning (.resumption (m'.resumptions.insert (.captured answer f' s' e')).1 ::
            command'.owned))).goOn
              (.eval (c' (m'.resumptions.insert (.captured answer f' s' e')).1))) := by
    intro c c' hc
    have hr := h.tables.resumptions.later
    have hkept : σ.Poised rest base (.code .answer)
        { m with resumptions := (m.resumptions.insert (.captured answer f s e)).2 }
        { m' with resumptions := (m'.resumptions.insert (.captured answer f' s' e')).2 } :=
      { h with tables := { h.tables with
        resumptions := h.tables.resumptions.insert (.captured answer hf hs he) } }
    exact (hkept.push fun _ _ => .owning nofun (.cons (.resumption hr) hcommand.owned)).eval
      (hc _ _ hr)
  cases hcode with
  | resumptive hrun =>
    exact htakes fun r r' hr => hrun _ _ _ _ _ _ hhandler hcommand.payload hr
  | noManage hrun =>
    exact htakes fun r r' hr => hrun _ _ _ _ _ _ hhandler hcommand.payload hr
  | noResume hrun =>
    have hpushed := ((h.bump .discarded).trace (.discardingFor command.name)
      (.discardingFor command'.name)).push fun _ _ => .owning nofun hcommand.owned
    exact (hpushed.release (.cons (.fiber hf) hs.owned)).eval (hrun _ _ _ _ hhandler hcommand.payload)

/-- The command is taken out, and the clause runs for its installation. -/
theorem answerFor (h : σ.Poised rest base .step m m') {keep keep' : Option InstallationId}
    (hkeep : Option.Rel σ.MapsInstallation keep keep') {handler handler' : CellId}
    {f f' : FiberId} {s s' : Segment} {e e' : ExchangeId} {command : Command}
    {code code' : ClauseCode Content} (hhandler : σ.MapsCell handler handler') (answer : String)
    (hf : σ.MapsFiber f f') (hs : σ.MapsSegment s s') (he : σ.MapsExchange e e')
    (hcode : σ.MapsClause rest code code') (htake : m.takeCommand e = some (command, m₁)) :
    ∃ command' m₁', m'.takeCommand e' = some (command', m₁') ∧
      σ.Goes rest ((m₁.push (.clause keep answer)).runClause handler answer f s e command code)
        ((m₁'.push (.clause keep' answer)).runClause handler' answer f' s' e' command' code') := by
  obtain ⟨c', m₁', htake', hcommand, hpoised⟩ := h.takeCommand he htake
  exact ⟨c', m₁', htake', .inl ((hpoised.push fun _ _ => .clause answer hkeep).runClause hhandler
    answer hf hs he hcommand hcode)⟩

/-- The continuation is captured for the same clause. -/
theorem capture (h : σ.Poised rest base .step m m') (hΓ : σ.MapsLibrary rest Γ Γ')
    {is is' : List InstallationId} (hr : m.chain.Reads is) (hr' : m'.chain.Reads is')
    {i i' : InstallationId} {f f' : FiberId} {r r' : Request} (hi : σ.MapsInstallation i i')
    (hf : σ.MapsFiber f f') (hrequest : σ.MapsRequest r r') :
    σ.Goes rest (m.capture Γ i f r) (m'.capture Γ' i' f' r') := by
  have hcodeAt := h.codeAt hΓ hi r.entry
  rcases h.tables.chain.get hi with hmaps | ⟨hbottom, -⟩
  case inr =>
    have hnone : m.codeAt Γ i r.entry = none := by simp [Machine.codeAt, hbottom, Installation.bottom]
    refine .inr ?_
    rw [Machine.capture, hnone]
    exact failing_fault _
  have hanswer : (Γ'.handlerType (m'.chain.get i').handlerType).answer =
      (Γ.handlerType (m.chain.get i).handlerType).answer :=
    hmaps.handlerType ▸ (hΓ.handlers _ hmaps.used).answer
  unfold Machine.capture
  rw [hrequest.entry, hrequest.command]
  generalize m.codeAt Γ i r.entry = x at hcodeAt
  generalize m'.codeAt Γ' i' r.entry = x' at hcodeAt
  cases hcodeAt with
  | none => exact .inr (failing_fault _)
  | @some code code' hcode =>
    cases hsplit : m.chain.split i with
    | error why =>
      refine .inr ?_
      have hfails := (h.release (.cons (.fiber hf) (.cons (.of_installation hi) .nil))).failing_unwind
        Machine.splitFailed
      cases hcode <;> exact hfails
    | ok cut =>
      obtain ⟨s, c⟩ := cut
      obtain ⟨s', c', hsplit', hs, hc⟩ := h.tables.chain.split hr hr' hi hsplit
      have hcut := fun modifier => (((h.chain hc).hold hi).bump .captures).trace
        (.captured (m.chain.get i).label (m.chain.get i).name (c.segmentLength s) modifier)
        (.captured (m'.chain.get i').label (m'.chain.get i').name (c'.segmentLength s') modifier)
      let answer := (Γ.handlerType (m.chain.get i).handlerType).answer
      cases hcode with
      | resumptive hrun =>
        simp only [hsplit', hanswer, ClauseCode.modifier, reduceCtorEq, if_false]
        split
        · exact .inr (failing_fault _)
        · rename_i htake
          obtain ⟨_, _, htake', hgoes⟩ := (hcut .resumptive).answerFor (.some hi) hmaps.handler answer
            hf hs hrequest.exchange (.resumptive hrun) htake
          simpa only [htake'] using hgoes
      | noManage hrun =>
        simp only [hsplit', hanswer, ClauseCode.modifier, if_true]
        split
        · exact .inr (failing_fault _)
        · rename_i htake
          obtain ⟨_, _, htake', hgoes⟩ := ((hcut .noManage).release
            (.cons (.of_installation hi) .nil)).answerFor .none hmaps.handler answer hf hs
              hrequest.exchange (.noManage hrun) htake
          simpa only [htake'] using hgoes
      | noResume hrun =>
        simp only [hsplit', hanswer, ClauseCode.modifier, reduceCtorEq, if_false]
        split
        · exact .inr (failing_fault _)
        · rename_i htake
          obtain ⟨_, _, htake', hgoes⟩ := (hcut .noResume).answerFor (.some hi) hmaps.handler answer
            hf hs hrequest.exchange (.noResume hrun) htake
          simpa only [htake'] using hgoes

/-- The running fiber is parked, and its request goes to the driver that waits for it. -/
theorem forward (h : σ.Poised rest base spot m m') (hΓ : σ.MapsLibrary rest Γ Γ')
    {is is' : List InstallationId} (hr : m.chain.Reads is) (hr' : m'.chain.Reads is')
    (hspot : spot = .drive ∨ spot = .wake) {r r' : Request} (hrequest : σ.MapsRequest r r') :
    σ.Goes rest (m.forward Γ r) (m'.forward Γ' r') := by
  unfold Machine.forward
  cases hsuspend : m.fibers.suspend? m.stack with
  | none => exact .inr (failing_fault _)
  | some suspended =>
    obtain ⟨S, fs⟩ := suspended
    obtain ⟨S', fs', hsuspend', base', hpoised⟩ := h.suspend hspot hsuspend
    simp only [hsuspend']
    have hstack : σ.MapsStack rest base' .drive S S' := hpoised.stack
    cases hstack with
    | @driving i i' f f' S S' hi hf hS =>
      have htarget := hi.eq_iff hrequest.target
      have hbelow : σ.Poised rest base' .step { m with fibers := fs, stack := S }
          { m' with fibers := fs', stack := S' } :=
        { hpoised with tables := { hpoised.tables with }, stack := hS }
      by_cases heq : i = r.target
      · simp only [if_pos heq, if_pos (htarget.mp heq)]
        exact hbelow.capture hΓ hr hr' hi hf hrequest
      · simp only [if_neg heq, if_neg (mt htarget.mpr heq)]
        exact .inl (hpoised.goOn (.request (.inl rfl) hrequest))

/-- A command is sent to the same clause. -/
theorem send (h : σ.Poised rest base (.code .inner) m m') {i i' : InstallationId}
    (hi : σ.MapsInstallation i i') (entry : Nat) {command command' : Command}
    (hcommand : σ.MapsCommand command command') :
    σ.Abreast rest (m.send Γ i entry command) (m'.send Γ' i' entry command') := by
  have hentries : (m'.chain.get i').clauses = (m.chain.get i).clauses ∧
      ∀ e ∈ (m.chain.get i).clauses, e.modifier ≠ .plain := by
    rcases h.tables.chain.get hi with hmaps | ⟨hbottom, hbottom'⟩
    · exact ⟨hmaps.clauses, hmaps.resuming⟩
    · rw [hbottom, hbottom']
      exact ⟨rfl, nofun⟩
  have hplain : ((m.chain.get i).clauses[entry]?).map ClauseEntry.modifier ≠ some .plain := by
    intro hplain
    obtain ⟨e, he, hmodifier⟩ := Option.map_eq_some_iff.mp hplain
    exact hentries.2 e (List.mem_of_getElem? he) hmodifier
  unfold Machine.send
  simp only [hentries.1, hcommand.name]
  generalize ((m.chain.get i).clauses[entry]?).map ClauseEntry.modifier = modifier at hplain
  have he := (h.hold hi).tables.exchanges.later
  have hplaced : σ.Poised rest base (.code .inner)
      { m.hold i with exchanges := (m.exchanges.insert { command := some command }).2 }
      { m'.hold i' with exchanges := (m'.exchanges.insert { command := some command' }).2 } :=
    { h.hold hi with
      tables := { (h.hold hi).tables with
        exchanges := (h.hold hi).tables.exchanges.insert ⟨.some hcommand, .none⟩ } }
  have hrequest : σ.MapsRequest ⟨i, entry, m.exchanges.next, command.name⟩
      ⟨i', entry, m'.exchanges.next, command.name⟩ := ⟨hi, rfl, he, rfl⟩
  have hsent := fun modifier e e' => ((hplaced.trace e e').push fun _ _ =>
    .sending modifier command.name hi he).goOn (.request (.inr rfl) hrequest)
  cases modifier with
  | none => exact hsent _ _ _
  | some modifier =>
    cases modifier with
    | plain => exact absurd rfl hplain
    | _ => exact hsent _ _ _

/-! ### Resuming -/

/-- The same continuation gets its argument. -/
theorem arm (h : σ.Poised rest base spot m m') (hm : m.resumptions.WellFormed)
    (hm' : m'.resumptions.WellFormed)
    {r r' : ResumptionId} {v v' : Value} (hr : σ.MapsResumption r r') (hv : σ.MapsValue v v')
    {k : Cont Content} (harm : m.arm r v = some (k, m₁)) :
    ∃ k' m₁', m'.arm r' v' = some (k', m₁') ∧ σ.MapsCont rest k k' ∧
      σ.Poised rest base spot m₁ m₁' := by
  obtain ⟨x, hx, harm⟩ := Option.map_eq_some_iff.mp harm
  obtain ⟨x', hx', hmaps⟩ := h.tables.resumptions.exists_find? hr hx
  have htaken : σ.Poised rest base spot { m with resumptions := m.resumptions.erase r }
      { m' with resumptions := m'.resumptions.erase r' } :=
    { h with tables := { h.tables with
      resumptions := h.tables.resumptions.erase hm hm' hr } }
  unfold Machine.arm
  rw [hx']
  cases hmaps with
  | captured answer hf hs he =>
    obtain ⟨rfl, rfl⟩ := Prod.mk.inj harm
    refine ⟨_, _, rfl, .captured answer hf hs he, ?_⟩
    exact { htaken with tables := { htaken.tables with
      exchanges := h.tables.exchanges.modify he fun hy => { hy with result := .some hv } } }
  | function answer hf harg =>
    obtain ⟨rfl, rfl⟩ := Prod.mk.inj harm
    exact ⟨_, _, rfl, .function answer hf (.some hv), htaken⟩

/-- The same continuation takes a step. -/
theorem stepCont (h : σ.Poised rest base .step m m') (hm : m.fibers.parked.WellFormed)
    (hm' : m'.fibers.parked.WellFormed) {k k' : Cont Content} (hk : σ.MapsCont rest k k') :
    σ.Goes rest (m.stepCont k) (m'.stepCont k') := by
  cases hk with
  | @captured f f' s s' e e' answer hf hs he =>
    have hspliced := (h.trace
      (.resumed (m.chain.get s.lowest).label (m.chain.get s.lowest).name (m.chain.segmentLength s))
      (.resumed (m'.chain.get s'.lowest).label (m'.chain.get s'.lowest).name
        (m'.chain.segmentLength s'))).chain (h.tables.chain.splice hs)
    exact hspliced.enter hm hm' hs.lowest hf
  | function answer hf harg =>
    cases harg with
    | none => exact .inr (failing_fault _)
    | some hv =>
      exact .inl ((h.push fun _ _ => .calling answer).eval (hf.body _ _ hv).answers)

theorem resume (h : σ.Poised rest base (.code .inner) m m') (hm : m.resumptions.WellFormed)
    (hm' : m'.resumptions.WellFormed)
    {r r' : ResumptionId} {v v' : Value} (hr : σ.MapsResumption r r') (hv : σ.MapsValue v v') :
    σ.Goes rest (m.resume r v) (m'.resume r' v') := by
  unfold Machine.resume
  cases harm : m.arm r v with
  | none => exact .inr (failing_fault _)
  | some armed =>
    obtain ⟨k, m₁⟩ := armed
    obtain ⟨k', m₁', harm', hk, hpoised⟩ := h.arm hm hm' hr hv harm
    rw [harm']
    exact .inl (((hpoised.bump .resumes).push fun _ _ => .stepping).goOn (.deliver (.tail hk)))

/-- The same continuation is left to the loop above the clause. -/
theorem tailResume (h : σ.Poised rest base (.code .answer) m m') (hm : m.resumptions.WellFormed)
    (hm' : m'.resumptions.WellFormed)
    {r r' : ResumptionId} {v v' w w' : Value} (hr : σ.MapsResumption r r') (hv : σ.MapsValue v v')
    (hw : σ.MapsValue w w') :
    σ.Goes rest (m.tailResume r v (.done w)) (m'.tailResume r' v' (.done w')) := by
  unfold Machine.tailResume
  cases harm : m.arm r v with
  | none => exact .inr (failing_fault _)
  | some armed =>
    obtain ⟨k, m₁⟩ := armed
    obtain ⟨k', m₁', harm', hk, hpoised⟩ := h.arm hm hm' hr hv harm
    have hbumped := hpoised.bump .tailResumes
    simp only [harm', hbumped.pending, hbumped.pending']
    exact .inl ⟨{ hbumped.tables with }, base, .code .answer, hbumped.stack, hbumped.waiting,
      .leave (.some hk) hw⟩

/-- The same closure is called. -/
theorem applyClosure (h : σ.Poised rest base (.code .inner) m m') (hm : m.closures.WellFormed)
    (hm' : m'.closures.WellFormed)
    {f f' : ClosureId} {v v' : Value} (hf : σ.MapsClosure f f') (hv : σ.MapsValue v v') :
    σ.Abreast rest (m.applyClosure f v) (m'.applyClosure f' v') := by
  cases hx : m.closures.find? f with
  | none =>
    simp only [Machine.applyClosure, hx, h.tables.closures.find?_eq_none hf hx]
    exact h.ret .unit
  | some x =>
    obtain ⟨x', hx', hmaps⟩ := h.tables.closures.exists_find? hf hx
    simp only [Machine.applyClosure, hx, hx']
    have hused : σ.Poised rest base (.code .inner) { m with closures := m.closures.erase f }
        { m' with closures := m'.closures.erase f' } :=
      { h with tables := { h.tables with
        closures := h.tables.closures.erase hm hm' hf } }
    exact hused.eval (hmaps.body _ _ hv)

end Poised

end EffectHandlers.Rerun
