import EffectHandlers.Proofs.Asides
import EffectHandlers.Proofs.Invoking
/-!
# Outcomes of the longer operations

What installing, sending to a plain clause and capturing lead to in a state of any kind, with the
ways in which they fail.
-/

namespace EffectHandlers.Machine

variable {ω : Type} {Γ : Library ω} {i : InstallationId} {f : FiberId} {r : Request}

/-- The fibers once a new one runs a body, and the running code drives it. -/
def fibersInstalled (m : Machine ω) : Fibers (List (Activation ω)) where
  parked := { m.fibers.parked with next := m.fibers.parked.next + 1 }
  current := some m.fibers.parked.next
  resumers := ⟨m.fibers.parked.next, m.fibers.current,
    .driving m.chain.installations.next m.fibers.parked.next :: .stepping :: m.stack⟩ ::
      m.fibers.resumers

/-- The label of a finished installation is chosen for no other, before fresh labels reach it. -/
theorem nextLabel_lt_of_chooseLabel {m m' : Machine ω} {label : Option Int}
    (h : m.chooseLabel label = (.ok retiredLabel, m')) : m'.chain.nextLabel < retiredLabel := by
  cases label with
  | none =>
    simp only [chooseLabel, Chain.freshLabel, Prod.mk.injEq, Except.ok.injEq] at h
    obtain ⟨hlabel, rfl⟩ := h
    show m.chain.nextLabel - 1 < retiredLabel
    omega
  | some explicit =>
    simp only [chooseLabel, Prod.mk.injEq] at h
    obtain ⟨hcheck, -⟩ := h
    unfold Chain.checkLabel at hcheck
    split at hcheck
    · cases hcheck
    · rename_i hreserved
      split at hcheck
      · obtain rfl := Except.ok.inj hcheck
        simp at hreserved
      · cases hcheck

/-- An installation fails before anything is done, or its body is about to start. -/
theorem exists_install_eq (m : Machine ω) (x : Installing) (body : ReferenceId → Comp ω) :
    ∃ nextLabel declared pool counters journal,
      (∃ f, m.install Γ x body = { m with
        chain := { m.chain with nextLabel }, declared, pool, counters, journal
        control := .fault f }) ∨
      m.install Γ x body = { m with
        chain := { m.chain with nextLabel }, declared, pool, counters, journal
        releasing := (x.owned ++ [Owned.cell x.handler]).map .asset ++ m.releasing
        control := .unwind StackPool.sizeOverflow } ∨
      ∃ label, (label = retiredLabel → nextLabel < retiredLabel) ∧ m.install Γ x body = { m with
        chain := (({ m.chain with nextLabel } : Chain).create (x.installation Γ label)).2.push
          m.chain.installations.next
        declared, pool, counters, journal
        references := (m.references.insert m.chain.installations.next).2
        fibers := m.fibersInstalled
        stack := [.start (body m.references.next),
          .owning (x.owned ++ [.reference m.references.next])]
        control := .wake } := by
  obtain ⟨nextLabel, hlabel⟩ := exists_chooseLabel_eq m x.label
  cases hchosen : m.chooseLabel x.label with
  | mk outcome m₁ =>
  obtain rfl : m₁ = _ := (congrArg Prod.snd hchosen).symm.trans hlabel
  cases outcome with
  | error f => exact ⟨_, _, _, _, _, .inl ⟨f, by simp only [install, hchosen]; rfl⟩⟩
  | ok label =>
  obtain ⟨declared, journal, hdeclared⟩ := exists_declare_eq
    ({ m with chain := { m.chain with nextLabel } } : Machine ω) x.handlerType
    (Γ.handlerType x.handlerType)
  cases hdeclaring : ({ m with chain := { m.chain with nextLabel } } : Machine ω).declare
      x.handlerType (Γ.handlerType x.handlerType) with
  | mk outcome m₂ =>
  obtain rfl : m₂ = _ := (congrArg Prod.snd hdeclaring).symm.trans hdeclared
  cases outcome with
  | error f => exact ⟨_, _, _, _, _, .inl ⟨f, by simp only [install, hchosen, hdeclaring]; rfl⟩⟩
  | ok =>
  obtain ⟨pool, counters, journal', hacquired⟩ := exists_acquireStack_eq
    ({ m with chain := { m.chain with nextLabel }, declared, journal } : Machine ω)
  cases hacquiring : ({ m with
    chain := { m.chain with nextLabel }, declared, journal } : Machine ω).acquireStack with
  | mk outcome m₃ =>
  obtain rfl : m₃ = _ := (congrArg Prod.snd hacquiring).symm.trans hacquired
  cases outcome with
  | error why =>
    cases why with
    | outOfMemory =>
      exact ⟨_, _, _, _, _, .inl ⟨_, by
        simp only [install, hchosen, hdeclaring, hacquiring]
        rfl⟩⟩
    | overflow =>
      exact ⟨_, _, _, _, _, .inr (.inl (by
        simp only [install, hchosen, hdeclaring, hacquiring]
        rfl))⟩
  | ok =>
    refine ⟨nextLabel, declared, pool, counters.bump .handles,
      .trace (.installed label x.handlerType) :: journal', .inr (.inr ⟨label, ?_, ?_⟩)⟩
    · rintro rfl
      exact nextLabel_lt_of_chooseLabel hchosen
    have hfs : ∀ S : List (Activation ω),
        (m.fibers.create S).2.resume? m.fibers.parked.next
          (.driving m.chain.installations.next m.fibers.parked.next :: .stepping :: m.stack) =
            some (S, m.fibersInstalled) := by
      simp [Fibers.resume?, Fibers.create, Store.insert, Store.find?, Store.erase, fibersInstalled]
    exact install_eq hchosen hdeclaring hacquiring (hfs _)

/-- A plain clause starts, or there is none, or the chain cannot be cut. -/
theorem sendInPlace_cases (m : Machine ω) (i : InstallationId) (position : Nat)
    (command : Command) :
    (∃ text, m.sendInPlace Γ i position command = m.goOn (.fault (.internal text))) ∨
    (∃ run, m.codeAt Γ i position = some (.plain run) ∧
      m.sendInPlace Γ i position command = { m.retain (.cell (m.chain.get i).handler) with
        chain := m.chain.modify i fun a => { a with shares := a.shares + 1 }
        exchanges := (m.exchanges.insert { command := some command }).2
        releasing := [.exchange m.exchanges.next, .asset (.cell (m.chain.get i).handler),
          .installation i] ++ m.releasing
        control := .unwind splitFailed }) ∨
    ∃ run hidden c', m.codeAt Γ i position = some (.plain run) ∧
      (m.chain.modify i fun a => { a with shares := a.shares + 1 }).split i = .ok (hidden, c') ∧
      m.sendInPlace Γ i position command = { m.retain (.cell (m.chain.get i).handler) with
        chain := c'.modify i fun a => { a with shares := a.shares + 1 }
        exchanges := (m.exchanges.insert { command := none }).2
        counters := m.counters.bump .plainDispatches
        stack := .owning command.owned ::
          .inPlace i (m.chain.get i).handler hidden m.exchanges.next :: m.stack
        control := .eval (run (m.chain.get i).handler command.payload) } := by
  by_cases hplain : ∃ run, m.codeAt Γ i position = some (.plain run)
  · obtain ⟨run, hcode⟩ := hplain
    cases hsplit : (m.chain.modify i fun a => { a with shares := a.shares + 1 }).split i with
    | error why =>
      refine .inr (.inl ⟨run, hcode, ?_⟩)
      simp only [sendInPlace, hcode, hold, retain, hsplit]
      rfl
    | ok cut => exact .inr (.inr ⟨run, cut.1, cut.2, hcode, rfl, sendInPlace_eq hcode hsplit⟩)
  · refine .inl ⟨"plain clause for " ++ command.name ++ " has no plain entry point", ?_⟩
    unfold sendInPlace
    split
    · exact absurd ⟨_, ‹_›⟩ hplain
    · rfl

/-- A clause starts for a captured continuation, or there is none, or the chain cannot be cut, or
the command is gone. -/
theorem capture_cases (m : Machine ω) (i : InstallationId) (f : FiberId) (r : Request) :
    (∃ text, m.capture Γ i f r = m.goOn (.fault (.internal text))) ∨
    m.capture Γ i f r = (m.release [.fiber f, .installation i]).goOn (.unwind splitFailed) ∨
    ∃ code segment c', m.codeAt Γ i r.entry = some code ∧ m.chain.split i = .ok (segment, c') ∧
      ((∃ counters journal, m.capture Γ i f r = { m with
          chain := c'.modify i fun a => { a with shares := a.shares + 1 }
          releasing := (if (code.keeps i).isSome then [] else [.installation i]) ++ m.releasing
          control := .fault (deliveredTwice r.command)
          counters, journal }) ∨
        ∃ y command counters journal, m.exchanges.find? r.exchange = some y ∧
          y.command = some command ∧ m.capture Γ i f r = { m with
          chain := c'.modify i fun a => { a with shares := a.shares + 1 }
          exchanges := m.exchanges.modify r.exchange fun x => { x with command := none }
          resumptions := if code.takes then (m.resumptions.insert (.captured
            (Γ.handlerType (m.chain.get i).handlerType).answer f segment r.exchange)).2
            else m.resumptions
          releasing := (if code.takes then [] else .fiber f :: segment.owned) ++
            ((if (code.keeps i).isSome then [] else [.installation i]) ++ m.releasing)
          stack := .owning ((if code.takes then [.resumption m.resumptions.next] else []) ++
            command.owned) :: .clause (code.keeps i)
              (Γ.handlerType (m.chain.get i).handlerType).answer :: m.stack
          control := .eval (code.body (m.chain.get i).handler command.payload m.resumptions.next)
          counters, journal }) := by
  by_cases hplain : ∀ code, m.codeAt Γ i r.entry = some code → code.modifier = .plain
  · refine .inl ⟨"clause " ++ toString r.entry ++ " of " ++ (m.chain.get i).name ++
      " has no resumptive entry point", ?_⟩
    unfold capture
    cases hcode : m.codeAt Γ i r.entry with
    | none => rfl
    | some code =>
      cases code with
      | plain run => rfl
      | _ => cases hplain _ hcode
  push Not at hplain
  obtain ⟨code, hcode, hplain⟩ := hplain
  cases hsplit : m.chain.split i with
  | error why =>
    refine .inr (.inl ?_)
    unfold capture
    simp only [hcode]
    cases code with
    | plain run => exact absurd rfl hplain
    | _ => simp only [hsplit]
  | ok cut =>
    obtain ⟨segment, c'⟩ := cut
    refine .inr (.inr ⟨code, segment, c', hcode, rfl, ?_⟩)
    cases htaken : (m.exchanges.find? r.exchange).bind (·.command) with
    | none =>
      have htaken' : ∀ m' : Machine ω, m'.exchanges = m.exchanges →
          m'.takeCommand r.exchange = none := by
        intro m' hm'
        unfold takeCommand
        rw [hm']
        cases hy : m.exchanges.find? r.exchange with
        | none => rfl
        | some y =>
          have hcommand : y.command = none := by simpa [hy] using htaken
          simp [hcommand]
      refine .inl ?_
      unfold capture
      simp only [hcode]
      cases code with
      | plain run => exact absurd rfl hplain
      | resumptive run | noResume run =>
        simp only [hsplit, ClauseCode.modifier, reduceCtorEq, if_false]
        rw [htaken']
        · exact ⟨_, _, rfl⟩
        · rfl
      | noManage run =>
        simp only [hsplit, ClauseCode.modifier, if_true]
        rw [htaken']
        · exact ⟨_, _, rfl⟩
        · rfl
    | some command =>
      obtain ⟨y, hy, hcommand⟩ := Option.bind_eq_some_iff.mp htaken
      obtain ⟨counters, events, -, -, heq⟩ := capture_eq (f := f) hcode hplain hsplit hy hcommand
      exact .inr ⟨y, command, counters, _, hy, hcommand, heq⟩

end EffectHandlers.Machine
