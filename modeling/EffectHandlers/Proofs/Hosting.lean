import EffectHandlers.Proofs.Outcomes
import EffectHandlers.Proofs.Outlines
/-!
# Bodies under the innermost handler

A body that runs under the innermost installation, a clause that got its continuation, and what is
left when the continuation is gone: three outlines of a thread, and how they lead to each other.
Everything that was there before the installation stays as it is.
-/

namespace EffectHandlers

variable {ω : Type} {Γ : Library ω}

/-- An installation with the fiber of its body, and the reference that the body has to it. -/
structure Guest where
  id : InstallationId
  fiber : FiberId
  this : ReferenceId
  label : Int
  handlerType : String
  handler : CellId

/-- The installation, above this one and with so many shares. -/
def Guest.installation (Γ : Library ω) (g : Guest) (below : Option InstallationId) (shares : Nat) :
    Installation where
  label := g.label
  below := below
  handler := g.handler
  handlerType := g.handlerType
  name := g.handlerType
  clauses := (Γ.handlerType g.handlerType).entries
  shares := shares

/-- The installation when its body has returned. -/
def Guest.retired (g : Guest) : Guest := { g with label := retiredLabel }

/-- The handler type has this clause for a command. -/
def HandlerType.Serves (h : HandlerType ω) (command : String) (code : ClauseCode ω) : Prop :=
  ∃ entry c, h.clauses.findIdx? (·.command == command) = some entry ∧
    h.clauses[entry]? = some ⟨c, code⟩

/-- The handler type has this code for a command, in a clause that captures continuations. -/
def HandlerType.Resumes (h : HandlerType ω) (command : String)
    (code : CellId → Value → ResumptionId → Comp ω) : Prop :=
  ∃ entry c, h.clauses.findIdx? (·.command == command) = some entry ∧
    h.clauses[entry]? = some ⟨c, .resumptive code⟩

namespace Chain

variable {c : Chain} {a : Installation} {rest : List (InstallationId × Installation)}
  {command : String} {entry : Nat}

theorem get_head (h : c.installations.entries = (c.top, a) :: rest) : c.get c.top = a := by
  simp [get, Store.find?, h]

/-- A search begins at the top. -/
theorem search?_top {p : InstallationId → Installation → Bool}
    (h : c.installations.entries = (c.top, a) :: rest) (hpos : 0 < c.installations.next)
    (hbelow : a.below.isSome) (hp : p c.top a) : c.search? p = some c.top := by
  obtain ⟨n, hn⟩ := Nat.exists_eq_succ_of_ne_zero (Nat.ne_of_gt hpos)
  have hbottom : a.isBottom = false := by
    simp [Installation.isBottom, hbelow]
  simp [search?, hn, searchFrom, get_head h, hbottom, hp]

theorem findCommand?_top (h : c.installations.entries = (c.top, a) :: rest)
    (hpos : 0 < c.installations.next) (hbelow : a.below.isSome)
    (hentry : a.clauseFor? command = some entry) :
    c.findCommand? command = some (c.top, entry) := by
  have hsearch := search?_top (p := fun _ i => (i.clauseFor? command).isSome) h hpos hbelow
    (by simp [hentry])
  simp [findCommand?, hsearch, get_head h, hentry]

theorem isLive_top (h : c.installations.entries = (c.top, a) :: rest)
    (hpos : 0 < c.installations.next) (hbelow : a.below.isSome) : c.isLive c.top := by
  rw [isLive, search?_top h hpos hbelow (by simp)]
  rfl

end Chain

namespace Outline

variable (Γ) in
/-- The body of an installation runs; the driver has this code to go on with. -/
def hosting (o : Outline ω) (g : Guest) (cells : Store (Shared ω)) (shares : Nat)
    (T : List (Activation ω)) : Outline ω :=
  { o with
    cells
    installations := (g.id, g.installation Γ (some o.top) shares) :: o.installations
    top := g.id
    current := some g.fiber
    resumers := ⟨g.fiber, o.current, .driving g.id g.fiber :: T⟩ :: o.resumers
    references := (g.this, g.id) :: o.references }

variable (Γ) in
/-- The body of an installation has sent a command, and its continuation is captured. -/
def captured (o : Outline ω) (g : Guest) (cells : Store (Shared ω)) (shares : Nat)
    (r : ResumptionId) (e : ExchangeId) (command : String) (U : List (Activation ω)) : Outline ω :=
  { o with
    cells
    installations := (g.id, g.installation Γ none shares) :: o.installations
    references := (g.this, g.id) :: o.references
    parked := (g.fiber, .sending g.id e .resumptive command :: U) :: o.parked
    exchanges := (e, { command := none }) :: o.exchanges
    resumptions := (r, .captured (Γ.handlerType g.handlerType).answer g.fiber ⟨g.id, g.id⟩ e) ::
      o.resumptions }

variable (Γ) in
/-- The body of an installation is gone, and the installation is kept alive by clauses. -/
def remaining (o : Outline ω) (g : Guest) (cells : Store (Shared ω)) (shares : Nat) : Outline ω :=
  { o with cells, installations := (g.id, g.installation Γ none shares) :: o.installations }

variable (Γ) in
/-- A panic has left the body of an installation, which stays on the chain. -/
def stranded (o : Outline ω) (g : Guest) (cells : Store (Shared ω)) (shares : Nat) : Outline ω :=
  { o with
    cells
    installations := (g.id, g.installation Γ (some o.top) shares) :: o.installations
    top := g.id }

variable (Γ) in
/-- The continuation of the body of an installation is about to go on with a value. -/
def armed (o : Outline ω) (g : Guest) (cells : Store (Shared ω)) (shares : Nat) (e : ExchangeId)
    (v : Value) (command : String) (U : List (Activation ω)) : Outline ω :=
  { o with
    cells
    installations := (g.id, g.installation Γ none shares) :: o.installations
    references := (g.this, g.id) :: o.references
    parked := (g.fiber, .sending g.id e .resumptive command :: U) :: o.parked
    exchanges := (e, { command := none, result := some v }) :: o.exchanges }

variable [Contents ω] {o : Outline ω} {g : Guest} {cells : Store (Shared ω)} {shares : Nat}
  {T U : List (Activation ω)}
  {command : Command} {next : Value → Comp ω} {code : CellId → Value → ResumptionId → Comp ω}

/-- The continuation of the body is captured, and the clause for its command starts. A clause that
does not get the continuation starts once the body is gone. -/
theorem gets_caught {code : ClauseCode ω}
    (hcode : (Γ.handlerType g.handlerType).Serves command.name code)
    (hplain : code.modifier ≠ .plain) :
    ((o.hosting Γ g cells shares T).on U (.eval (.invoke .innermost command next))).Gets Γ fun s' =>
      ∃ r e, r ∉ o.resumptions.map (·.1) ∧ s' = { o with
        cells
        installations := (g.id, g.installation Γ none (shares + 2)) :: o.installations
        references := (g.this, g.id) :: o.references
        parked := (g.fiber, .sending g.id e code.modifier command.name :: .bind next :: U) ::
          o.parked
        exchanges := (e, { command := none }) :: o.exchanges
        resumptions := if code.takes then (r, .captured (Γ.handlerType g.handlerType).answer g.fiber
          ⟨g.id, g.id⟩ e) :: o.resumptions else o.resumptions
        releasing := (if code.takes then [] else
            [.fiber g.fiber, .installation g.id, .installation g.id]) ++
          if (code.keeps g.id).isSome then [] else [.installation g.id]
        stack := .owning ((if code.takes then [.resumption r] else []) ++ command.owned) ::
          .clause (code.keeps g.id) (Γ.handlerType g.handlerType).answer :: T
        control := .eval (code.body g.handler command.payload r) } := by
  obtain ⟨entry, c, hfind, hclause⟩ := hcode
  let a := g.installation Γ (some o.top) shares
  have hentry : a.clauseFor? command.name = some entry := by
    show (Γ.handlerType g.handlerType).entries.findIdx? _ = _
    rw [HandlerType.entries, List.findIdx?_map]
    exact hfind
  obtain ⟨point, hpoint, hentries⟩ : ∃ point, point ≠ .missing ∧
      a.clauses[entry]? = some ⟨c, c, code.modifier, point⟩ := by
    cases code with
    | plain run => exact absurd rfl hplain
    | _ =>
      refine ⟨.resuming, by decide, ?_⟩
      show (Γ.handlerType g.handlerType).entries[entry]? = _
      simp [HandlerType.entries, hclause, ClauseCode.modifier]
  refine Gets.trans (P := fun s' => ∃ e, s' = { (o.hosting Γ g cells (shares + 1) T).on
      (.sending g.id e code.modifier command.name :: .bind next :: U)
      (.request ⟨g.id, entry, e, command.name⟩) with
    exchanges := (e, { command := some command }) :: o.exchanges })
    (.of_step fun y hy => ⟨y.nextExchange, ?_⟩) ?_
  · let m := ((o.hosting Γ g cells shares T).on U
      (.eval (.invoke .innermost command next))).machine y
    have hdispatch : m.chain.findCommand? command.name = some (g.id, entry) :=
      Chain.findCommand?_top (a := a) rfl hy.positive rfl hentry
    have hget : m.chain.get g.id = a := Chain.get_head (c := m.chain) rfl
    have hstep : m.step Γ = (m.push (.bind next)).send Γ g.id entry command := by
      show m.eval Γ (.invoke .innermost command next) = _
      simp only [Machine.eval, Chain.dispatch, hdispatch]
    have hmodifier : ((m.chain.get g.id).clauses[entry]?).map ClauseEntry.modifier =
        some code.modifier := by
      rw [hget, hentries]
      rfl
    have hsend : (m.push (.bind next)).send Γ g.id entry command = _ :=
      Machine.send_eq hmodifier hplain
    rw [hstep, hsend]
    simp [Machine.outline, m, machine, on, hosting, Chain.modify, Store.modify,
      Store.modifyEntries, Machine.push, Store.insert, Guest.installation]
  · rintro s' ⟨e, rfl⟩ -
    refine .of_step fun y hy => ⟨y.nextResumption, e, ?_, ?_⟩
    · intro hmem
      obtain ⟨k, hk, heq⟩ := List.mem_map.mp hmem
      exact absurd (heq ▸ hy.tidy.accounts.resumptions.2 k hk) (Nat.lt_irrefl _)
    let m := ({ (o.hosting Γ g cells (shares + 1) T).on T
        (.request ⟨g.id, entry, e, command.name⟩) with
      top := g.id
      parked := (g.fiber, .sending g.id e code.modifier command.name :: .bind next :: U) ::
        o.parked
      current := o.current
      resumers := o.resumers
      exchanges := (e, { command := some command }) :: o.exchanges } : Outline ω).machine y
    have hget : m.chain.get g.id = g.installation Γ (some o.top) (shares + 1) :=
      Chain.get_head (c := m.chain) rfl
    have hlive : m.chain.isLive g.id := Chain.isLive_top (c := m.chain) rfl hy.positive rfl
    have hcode : m.codeAt Γ g.id entry = some code := by
      have hentries' : (g.installation Γ (some o.top) (shares + 1)).clauses[entry]? =
        some ⟨c, c, code.modifier, point⟩ := hentries
      rw [Machine.codeAt, hget, hentries']
      simp [Guest.installation, hclause, hpoint]
    have hsplit : m.chain.split g.id = .ok (⟨g.id, g.id⟩,
        { m.chain.modify g.id fun i => { i with below := none } with top := o.top }) := by
      unfold Chain.split
      rw [if_pos hlive, hget]
      rfl
    have hfound : m.exchanges.find? e = some { command := some command } := by
      simp [m, machine, Store.find?]
    obtain ⟨counters, events, -, -, heq⟩ := Machine.capture_eq (f := g.fiber)
      (r := ⟨g.id, entry, e, command.name⟩) hcode hplain hsplit hfound rfl
    let m' := ({ (o.hosting Γ g cells (shares + 1) T).on
        (.sending g.id e code.modifier command.name :: .bind next :: U)
        (.request ⟨g.id, entry, e, command.name⟩) with
        exchanges := (e, { command := some command }) :: o.exchanges } : Outline ω).machine y
    have hstep : m'.step Γ = m.capture Γ g.id g.fiber ⟨g.id, entry, e, command.name⟩ := by
      show m'.forward Γ ⟨g.id, entry, e, command.name⟩ = _
      simp [Machine.forward, Fibers.suspend?, Fibers.handBack?, machine, on, hosting, m, m']
    rw [hstep, heq, hget]
    cases code.takes <;>
      simp [Machine.outline, m, machine, on, hosting, Chain.modify, Store.modify,
        Store.modifyEntries, Store.insert, Guest.installation, Segment.owned]

theorem gets_captured (hcode : (Γ.handlerType g.handlerType).Resumes command.name code) :
    ((o.hosting Γ g cells shares T).on U (.eval (.invoke .innermost command next))).Gets Γ fun s' =>
      ∃ r e, r ∉ o.resumptions.map (·.1) ∧
        s' = (o.captured Γ g cells (shares + 2) r e command.name (.bind next :: U)).on
          (.owning (.resumption r :: command.owned) ::
            .clause (some g.id) (Γ.handlerType g.handlerType).answer :: T)
          (.eval (code g.handler command.payload r)) :=
  (gets_caught hcode (by simp [ClauseCode.modifier])).mono fun _ ⟨r, e, hr, heq⟩ _ =>
    ⟨r, e, hr, heq⟩

theorem gets_woken {answer name : String} {e : ExchangeId} {v : Value} :
    ((o.armed Γ g cells (shares + 2) e v name (.bind next :: U)).on (.stepping :: T)
      (.deliver (.tail (.captured answer g.fiber ⟨g.id, g.id⟩ e)))).Gets Γ fun s' =>
        s' = (o.hosting Γ g cells (shares + 1) (.stepping :: T)).on U (.eval (next v)) := by
  let o' : Outline ω := { o.hosting Γ g cells (shares + 2) (.stepping :: T) with
    exchanges := (e, { command := none, result := some v }) :: o.exchanges }
  refine .next (t := o'.on (.sending g.id e .resumptive name :: .bind next :: U) .wake)
    (fun y _ => ?_) ?_
  · simp [Machine.step, Machine.deliver, Machine.stepCont, Machine.enter, machine, on, armed, o',
      hosting, Fibers.resume?, Store.find?, Store.erase, Machine.trace, Machine.record,
      Chain.splice, Chain.modify, Store.modify, Store.modifyEntries, Machine.outline,
      Guest.installation]
  let o'' : Outline ω := { o' with exchanges := (e, { command := none }) :: o.exchanges }
  refine .next (t := o''.on (.bind next :: U) (.ret v) [.exchange e, .installation g.id])
    (fun y _ => ?_) ?_
  · simp [Machine.step, Machine.wake, machine, on, o', o'', hosting, Store.find?, Store.modify,
      Store.modifyEntries, Machine.outline, Machine.release]
  refine .next (t := (o.hosting Γ g cells (shares + 2) (.stepping :: T)).on (.bind next :: U)
    (.ret v) [.installation g.id]) (fun y _ => ?_) ?_
  · simp [Machine.step, Machine.releaseOne, machine, on, o', o'', hosting, Store.find?, Store.erase,
      Machine.outline, Machine.release, Machine.discard]
  refine .next (t := (o.hosting Γ g cells (shares + 1) (.stepping :: T)).on (.bind next :: U)
    (.ret v)) (fun y _ => ?_) (.last (fun _ _ => rfl) fun _ => rfl)
  · simp [Machine.step, Machine.releaseOne, Machine.releaseInstallation, machine, on, hosting,
      Store.find?, Guest.installation, Chain.modify, Store.modify, Store.modifyEntries,
      Machine.outline]

theorem gets_resumed {name : String} {e : ExchangeId} {r : ResumptionId} {v : Value}
    {S : List (Activation ω)} {after : Value → Comp ω} :
    ((o.captured Γ g cells (shares + 2) r e name (.bind next :: U)).on S
      (.eval (.resume r v after))).Gets Γ
      fun s' => s' = (o.hosting Γ g cells (shares + 1) (.stepping :: .bind after :: S)).on U
        (.eval (next v)) := by
  refine .next (t := (o.armed Γ g cells (shares + 2) e v name (.bind next :: U)).on
    (.stepping :: .bind after :: S) (.deliver (.tail (.captured
      (Γ.handlerType g.handlerType).answer g.fiber ⟨g.id, g.id⟩ e)))) (fun y _ => ?_) gets_woken
  simp [Machine.step, Machine.eval, Machine.resume, Machine.arm, machine, on, captured, armed,
    Store.find?, Store.erase, Store.modify, Store.modifyEntries, Machine.push, Machine.outline,
    Machine.bump, Machine.goOn]

theorem gets_tailResumed (hpending : o.pending = none) {name : String} {e : ExchangeId}
    {r : ResumptionId} {v p : Value} (hr : r ∉ o.resumptions.map (·.1)) (hp : p.owned = []) :
    ((o.captured Γ g cells (shares + 3) r e name (.bind next :: U)).on
      (.owning [.resumption r] :: .clause (some g.id) (Γ.handlerType g.handlerType).answer ::
        .stepping :: T) (.eval (.tailResume r v (.done p)))).Gets Γ
      fun s' => s' = (o.hosting Γ g cells (shares + 1) (.stepping :: T)).on U (.eval (next v)) := by
  let k : Cont ω := .captured (Γ.handlerType g.handlerType).answer g.fiber ⟨g.id, g.id⟩ e
  let s₁ : Outline ω :=
    { o.armed Γ g cells (shares + 3) e v name (.bind next :: U) with pending := some k }
  refine .next (t := s₁.on (.owning [.resumption r] ::
    .clause (some g.id) (Γ.handlerType g.handlerType).answer :: .stepping :: T)
    (.eval (.done p))) (fun y _ => ?_) ?_
  · simp [Machine.step, Machine.eval, Machine.tailResume, Machine.arm, machine, on, captured, armed,
      s₁, Store.find?, Store.erase, Store.modify, Store.modifyEntries, Machine.outline,
      Machine.bump, Machine.goOn, hpending, k]
  refine .done (.owning (.spent hr (.clause (.share rfl (Nat.le_add_left 2 (shares + 1)) ?_))))
  refine .next (t := (o.armed Γ g cells (shares + 2) e v name (.bind next :: U)).on (.stepping :: T)
    (.deliver (.tail k))) (fun y _ => ?_) gets_woken
  simp [Machine.step, Machine.settle, machine, on, armed, s₁, Machine.outline, Machine.release,
    Machine.goOn, hpending, k, Cont.answer, hp, Guest.installation]

/-- The fiber of the body is dropped with the segment, and the body is gone. -/
theorem gets_gone {c : Control ω} {modifier : Modifier} {name : String} {e : ExchangeId}
    (hU : U.flatMap Activation.owned = []) :
    (({ o with
      cells
      installations := (g.id, g.installation Γ none (shares + 5)) :: o.installations
      references := (g.this, g.id) :: o.references
      parked := (g.fiber, .sending g.id e modifier name :: .bind next ::
        (U ++ [.owning [.reference g.this]])) :: o.parked
      exchanges := (e, { command := none }) :: o.exchanges } : Outline ω).on T c
        [.fiber g.fiber, .installation g.id, .installation g.id]).Gets Γ
      fun s' => s' = (o.remaining Γ g cells (shares + 1)).on T c := by
  refine .fiber rfl ?_
  have howned : ((Activation.sending g.id e modifier name :: .bind next ::
      (U ++ [.owning [.reference g.this]])).flatMap Activation.owned) =
      [.exchange e, .installation g.id, .asset (.reference g.this)] := by
    simp [Activation.owned, List.flatMap_cons, hU]
  rw [howned]
  refine .exchange rfl (.share rfl (Nat.le_add_left 2 _) (.reference rfl
    (.share rfl (Nat.le_add_left 2 _) (.share rfl (Nat.le_add_left 2 _) ?_))))
  refine .last (fun y _ => ?_) fun _ => rfl
  simp [Machine.step, Machine.releaseOne, Machine.releaseInstallation, machine, on, remaining,
    Store.find?, Guest.installation, Chain.modify, Store.modify, Store.modifyEntries,
    Machine.outline]

/-- The continuation is dropped, and the body is gone. -/
theorem gets_abandoned {name : String} {e : ExchangeId} {r : ResumptionId} {v : Value}
    (hU : U.flatMap Activation.owned = []) :
    ((o.captured Γ g cells (shares + 5) r e name
      (.bind next :: (U ++ [.owning [.reference g.this]]))).on
      (.owning [.resumption r] :: T) (.ret v)).Gets Γ
      fun s' => s' = (o.remaining Γ g cells (shares + 1)).on T (.ret v) :=
  .owning (.resumption rfl (gets_gone hU))

/-- A command whose clause does not get the continuation: the body is gone when the clause starts. -/
theorem gets_forsaken {code : CellId → Value → Comp ω}
    (hcode : (Γ.handlerType g.handlerType).Serves command.name (.noResume code))
    (hU : U.flatMap Activation.owned = []) :
    ((o.hosting Γ g cells (shares + 3) T).on (U ++ [.owning [.reference g.this]])
      (.eval (.invoke .innermost command next))).Gets Γ
      fun s' => s' = (o.remaining Γ g cells (shares + 1)).on
        (.owning command.owned :: .clause (some g.id) (Γ.handlerType g.handlerType).answer :: T)
        (.eval (code g.handler command.payload)) := by
  refine (gets_caught hcode (by simp [ClauseCode.modifier])).trans ?_
  rintro s' ⟨r, e, -, rfl⟩ -
  exact gets_gone hU

/-- A panic leaves the body, and then the code that waits for its answer. -/
theorem gets_stranded {message : String} (hfiber : g.fiber ∉ o.parked.map (·.1)) :
    ((o.hosting Γ g cells (shares + 3) (.stepping :: .bind next :: T)).on
      [.owning [.reference g.this]] (.unwind message)).Gets Γ
      fun s' => s' = (o.stranded Γ g cells (shares + 1)).on T (.unwind message) := by
  refine .unwinds nofun (.reference rfl (.share rfl (Nat.le_add_left 2 _) ?_))
  refine .next (t := (o.stranded Γ g cells (shares + 2)).on
    (.driving g.id g.fiber :: .stepping :: .bind next :: T) (.unwind message)) (fun _ _ => rfl) ?_
  refine .unwinds nofun (.noFiber hfiber (.share rfl (Nat.le_add_left 2 _) ?_))
  exact .unwinds nofun (.last (fun _ _ => rfl) fun _ => rfl)

/-- A clause ends, and others keep the installation. -/
theorem Gets.clauseEnds (hpending : o.pending = none) {Q : Outline ω → Prop} {answer : String}
    {v : Value} (h : ((o.remaining Γ g cells (shares + 1)).on T (.ret v)).Gets Γ Q) :
    ((o.remaining Γ g cells (shares + 2)).on (.clause (some g.id) answer :: .stepping :: T)
      (.ret v)).Gets Γ Q :=
  .clause (.share rfl (Nat.le_add_left 2 _) (.settle hpending (.delivered h)))

/-- The last clause ends, and the installation goes with its handler. -/
theorem Gets.lastClauseEnds (hpending : o.pending = none) {Q : Outline ω → Prop} {answer : String}
    {v : Value} {y : Shared ω} (hy : cells.find? g.handler = some y) (hshares : y.shares ≤ 1)
    (howned : Contents.owned y.content = [])
    (h : ((o.storing (cells.erase g.handler)).on T (.ret v)).Gets Γ Q) :
    ((o.remaining Γ g cells 1).on (.clause (some g.id) answer :: .stepping :: T)
      (.ret v)).Gets Γ Q :=
  .clause (.lastShare rfl (Nat.le_refl 1) rfl (.cell hy hshares howned
    (.settle hpending (.delivered h))))

/-- The body of an installation returns, and the return clause runs. -/
theorem gets_returning {v : Value} :
    ((o.hosting Γ g cells (shares + 2) T).on [.owning [.reference g.this]] (.ret v)).Gets Γ
      fun s' => s' = (o.remaining Γ g.retired cells (shares + 1)).on
        (.returning g.id (Γ.handlerType g.handlerType).answer :: T)
        (.eval ((Γ.handlerType g.handlerType).onReturn g.handler v)) := by
  refine .owning (.reference rfl (.share rfl (Nat.le_add_left 2 _) ?_))
  let o' : Outline ω := { o with
    cells
    installations := (g.id, g.installation Γ (some o.top) (shares + 1)) :: o.installations
    top := g.id }
  refine .next (t := o'.on (.driving g.id g.fiber :: T) (.ret v)) (fun y _ => ?_) ?_
  · obtain ⟨journal, hwarn⟩ := Machine.exists_warn_eq
      { (o'.on (.driving g.id g.fiber :: T) (.ret v)).machine y with pool := y.pool.giveBack.1 }
      y.pool.giveBack.2
    show Machine.outline (Machine.warn _ _) = _
    exact (congrArg Machine.outline hwarn).trans rfl
  refine .last (fun y _ => ?_) fun _ => rfl
  simp [Machine.step, Machine.give, Machine.finish, machine, on, o', remaining, Chain.pop?,
    Chain.get, Store.find?, Guest.installation, Guest.retired, Chain.modify, Chain.retire,
    Store.modify, Store.modifyEntries, Machine.outline, Machine.trace, Machine.record, Machine.push,
    Machine.goOn]

/-- The return clause of the last installation ends. -/
theorem Gets.returns (hpending : o.pending = none) {Q : Outline ω → Prop} {answer : String}
    {v : Value} (h : ((o.remaining Γ g.retired cells (shares + 1)).on T (.ret v)).Gets Γ Q) :
    ((o.remaining Γ g.retired cells (shares + 3)).on (.returning g.id answer :: .stepping :: T)
      (.ret v)).Gets Γ Q :=
  .returning hpending (.share rfl (Nat.le_add_left 2 _) (.share rfl (Nat.le_add_left 2 _)
    (.delivered h)))

/-- The return clause of the last installation ends. -/
theorem Gets.returnsLast (hpending : o.pending = none) {Q : Outline ω → Prop} {answer : String}
    {v : Value} {y : Shared ω} (hy : cells.find? g.handler = some y) (hshares : y.shares ≤ 1)
    (howned : Contents.owned y.content = [])
    (h : ((o.storing (cells.erase g.handler)).on T (.ret v)).Gets Γ Q) :
    ((o.remaining Γ g.retired cells 2).on (.returning g.id answer :: .stepping :: T)
      (.ret v)).Gets Γ Q :=
  .returning hpending (.share rfl (Nat.le_refl 2) (.lastShare rfl (Nat.le_refl 1) rfl
    (.cell hy hshares howned (.delivered h))))

/-- The answer of the last installation goes to the code that asked for it. -/
theorem gets_answered (hpending : o.pending = none) {answer : String} {v : Value} {y : Shared ω}
    (hy : cells.find? g.handler = some y) (hshares : y.shares ≤ 1)
    (howned : Contents.owned y.content = []) :
    ((o.remaining Γ g.retired cells 2).on (.returning g.id answer :: .stepping :: .bind next :: T)
      (.ret v)).Gets Γ fun s' =>
        s' = (o.storing (cells.erase g.handler)).on T (.eval (next v)) :=
  .returnsLast hpending hy hshares howned (.last (fun _ _ => rfl) fun _ => rfl)

end Outline

/-! ### Installing -/

namespace Machine

variable {m : Machine ω}

theorem exists_declare_ok {name : String} {h : HandlerType ω}
    (hclauses : HandlerType.duplicate? [] (h.clauses.map (·.command)) = none) :
    ∃ declared journal, m.declare name h = (.ok (), { m with declared, journal }) := by
  unfold declare
  rw [hclauses]
  split
  · exact ⟨_, _, rfl⟩
  · exact ⟨_, _, rfl⟩

theorem exists_acquireStack_ok (hsize : m.stackSize < StackPool.addressSpace) :
    ∃ pool counters journal, m.acquireStack = (.ok (), { m with pool, counters, journal }) := by
  obtain ⟨pool, counters, journal, heq⟩ := m.exists_acquireStack_eq
  refine ⟨pool, counters, journal, Prod.ext ?_ heq⟩
  have hroom : ∀ why, m.pool.acquire.1 ≠ .failed why := by
    intro why
    unfold stackSize at hsize
    unfold StackPool.acquire StackPool.allocate
    have hmargin : ¬ Word.count ≤ m.pool.settings.use.1.stackSize + StackPool.margin := by
      simp only [StackPool.addressSpace, StackPool.margin, Word.count] at hsize ⊢
      omega
    split
    · simp
    · simp [hmargin, Nat.not_le.mpr hsize]
  unfold acquireStack
  generalize m.pool.acquire = acquired at hroom
  obtain ⟨outcome, pool, warnings⟩ := acquired
  cases outcome with
  | failed why => exact absurd rfl (hroom why)
  | _ => rfl

variable [Contents ω] {o : Outline ω} {S : List (Activation ω)} {x : Installing}
  {body : ReferenceId → Comp ω} {next : Value → Comp ω}

/-- A body starts under a new installation. -/
theorem exists_hosting (hm : m.outline = o.on S (.eval (.handle x body next)))
    (hlabel : x.label = none)
    (hclauses : HandlerType.duplicate? [] ((Γ.handlerType x.handlerType).clauses.map (·.command)) =
      none)
    (hsize : m.stackSize < StackPool.addressSpace) :
    ∃ g : Guest, g.handlerType = x.handlerType ∧ g.handler = x.handler ∧
      (run Γ 2 m).outline = (o.hosting Γ g o.cells 3 (.stepping :: .bind next :: S)).on
        [.owning (x.owned ++ [.reference g.this])] (.eval (body g.this)) := by
  obtain ⟨y, rfl⟩ := Outline.exists_machine hm
  let m₀ := (o.on (.bind next :: S) (.eval (.handle x body next))).machine y
  obtain ⟨declared, journal, hdeclared⟩ := exists_declare_ok
    (m := { m₀ with chain := { m₀.chain with nextLabel := y.nextLabel - 1 } }) hclauses
  obtain ⟨pool, counters, journal', hacquired⟩ := exists_acquireStack_ok (m := { m₀ with
    chain := { m₀.chain with nextLabel := y.nextLabel - 1 }, declared, journal }) hsize
  have hstarted : ∀ U : List (Activation ω), (m₀.fibers.create U).2.resume? m₀.fibers.parked.next
      (.driving m₀.chain.installations.next m₀.fibers.parked.next :: .stepping :: m₀.stack) =
        some (U, m₀.fibersInstalled) := by
    simp [Fibers.resume?, Fibers.create, Store.insert, Store.find?, Store.erase, fibersInstalled]
  have hchosen : m₀.chooseLabel x.label =
      (.ok y.nextLabel, { m₀ with chain := { m₀.chain with nextLabel := y.nextLabel - 1 } }) := by
    rw [hlabel]
    rfl
  have hinstall : m₀.install Γ x body = _ := install_eq hchosen hdeclared hacquired (hstarted _)
  refine ⟨⟨y.nextInstallation, y.nextParked, y.nextReference, y.nextLabel, x.handlerType,
    x.handler⟩, rfl, rfl, ?_⟩
  have hstep : step Γ ((o.on S (.eval (.handle x body next))).machine y) = _ := hinstall
  rw [run_succ, run_succ, run, hstep]
  simp [step, wake, m₀, Outline.machine, Outline.on, Outline.hosting, outline, Chain.create,
    Chain.push, Chain.modify, Store.insert, Store.modify, Store.modifyEntries, fibersInstalled,
    Guest.installation, Installing.installation]

end Machine

end EffectHandlers
