import EffectHandlers.Proofs.Labels
import EffectHandlers.Proofs.Marching
import EffectHandlers.Proofs.TailSlot
/-!
# Threads abreast stay abreast

What one operation does, and what the end of one activation does, keeps two threads the same. So does
each step, until the code of the thread itself comes to where the rest begins.
-/

namespace EffectHandlers

/-- What comes before an installation leaves the fibers alone. -/
theorem Machine.fibers_readied {ω : Type} {m m₁ m₂ m₃ : Machine ω} {l : Option Int} {name : String}
    {x : HandlerType ω} {r : Except Fault Int} {r' : Except Fault Unit}
    {r'' : Except StackPool.Failure Unit} (hchosen : m.chooseLabel l = (r, m₁))
    (hdeclared : m₁.declare name x = (r', m₂)) (hacquired : m₂.acquireStack = (r'', m₃)) :
    m₃.fibers = m.fibers := by
  obtain ⟨_, h₁⟩ := m.exists_chooseLabel_eq l
  obtain ⟨_, _, h₂⟩ := m₁.exists_declare_eq name x
  obtain ⟨_, _, _, h₃⟩ := m₂.exists_acquireStack_eq
  rw [hchosen] at h₁
  rw [hdeclared] at h₂
  rw [hacquired] at h₃
  obtain rfl : m₃ = _ := h₃
  obtain rfl : m₂ = _ := h₂
  obtain rfl : m₁ = _ := h₁
  rfl

namespace Rerun

variable {σ : Rerun} {rest : Comp Content → Comp Content → Prop} {m m' m₁ m₁' : Machine Content}
  {base : Role} {spot : Spot} {ℓ : Role} {Γ Γ' : Library Content}

namespace Poised

/-! ### Installing -/

/-- Pools change, and there may be warnings. -/
theorem aside (h : σ.Poised rest base spot m m') {p p' : StackPool}
    (hpool : StackPool.Suffices σ.settings p p') (ws ws' : List SettingsWarning) :
    σ.Poised rest base spot ({ m with pool := p }.warn ws) ({ m' with pool := p' }.warn ws') := by
  have htables := (h.tables.changePool hpool).warn ws ws'
  obtain ⟨journal, hwarn⟩ := { m with pool := p }.exists_warn_eq ws
  obtain ⟨journal', hwarn'⟩ := { m' with pool := p' }.exists_warn_eq ws'
  rw [hwarn, hwarn'] at htables ⊢
  exact { h with tables := htables }

/-- The second thread gets a stack where the first one does. -/
theorem acquireStack (h : σ.Poised rest base spot m m') (hm : m.acquireStack = (.ok (), m₁)) :
    ∃ m₁', m'.acquireStack = (.ok (), m₁') ∧ σ.Poised rest base spot m₁ m₁' := by
  obtain ⟨hroom, hpool⟩ := h.tables.pool.acquire (m.acquireStack_ok_iff.mp (congrArg Prod.fst hm))
  obtain ⟨m₁', hm'⟩ : ∃ m₁', m'.acquireStack = (.ok (), m₁') :=
    ⟨_, Prod.ext (m'.acquireStack_ok_iff.mpr hroom) rfl⟩
  refine ⟨m₁', hm', ?_⟩
  have haside := h.aside hpool m.pool.acquire.2.2 m'.pool.acquire.2.2
  unfold Machine.acquireStack at hm hm'
  dsimp only at hm hm'
  have hcounted : ∀ {m₁ m₁' m₂ m₂' : Machine Content}, σ.Poised rest base spot m₁ m₁' →
      (∃ counters, m₂ = { m₁ with counters }) → (∃ counters, m₂' = { m₁' with counters }) →
      σ.Poised rest base spot m₂ m₂' := by
    rintro m₁ m₁' _ _ h ⟨counters, rfl⟩ ⟨counters', rfl⟩
    exact { h with tables := { h.tables with } }
  refine hcounted haside ?_ ?_
  · split at hm <;> cases hm <;> exact ⟨_, rfl⟩
  · split at hm' <;> cases hm' <;> exact ⟨_, rfl⟩

/-- The same handler type can be declared. -/
theorem declare (h : σ.Poised rest base spot m m') {name : String} {x x' : HandlerType Content}
    (hx : σ.MapsHandler rest x x') (hm : m.declare name x = (.ok (), m₁)) :
    ∃ m₁', m'.declare name x' = (.ok (), m₁') ∧ σ.Poised rest base spot m₁ m₁' := by
  have hcommands : x'.clauses.map (·.command) = x.clauses.map (·.command) := by
    have hclauses := hx.clauses
    generalize x.clauses = cs at hclauses
    generalize x'.clauses = cs' at hclauses
    induction hclauses with
    | nil => rfl
    | cons hc _ ih => rw [List.map_cons, List.map_cons, hc.1, ih]
  obtain ⟨m₁', hm'⟩ : ∃ m₁', m'.declare name x' = (.ok (), m₁') :=
    ⟨_, Prod.ext ((m'.declare_ok_iff name x').mpr (.inr (by rw [hcommands, hx.distinct]))) rfl⟩
  refine ⟨m₁', hm', ?_⟩
  have hdeclared : ∀ {m₁ : Machine Content} {name : String} {x : HandlerType Content}
      {m : Machine Content}, m.declare name x = (.ok (), m₁) →
      m₁ = m ∨ ∃ declared e, m₁ = { m with declared }.trace e := by
    intro m₁ name x m hm
    unfold Machine.declare at hm
    split at hm
    · exact .inl (Prod.mk.inj hm).2.symm
    · split at hm
      · cases hm
      · exact .inr ⟨_, _, (Prod.mk.inj hm).2.symm⟩
  rcases hdeclared hm with rfl | ⟨declared, e, rfl⟩ <;>
    rcases hdeclared hm' with rfl | ⟨declared', e', rfl⟩ <;>
      exact { h with tables := { h.tables with } }

/-- The same label is chosen. -/
theorem chooseLabel (h : σ.Poised rest base spot m m') {l l' : Option Int}
    (hword : σ.labels ≠ 0 → l' = none → retiredLabel ≤ m'.chain.freshLabel.2.nextLabel)
    (hl : Option.Rel σ.MapsLabel l l') {label : Int}
    (hm : m.chooseLabel l = (.ok label, m₁)) :
    ∃ label' m₁', m'.chooseLabel l' = (.ok label', m₁') ∧ σ.MapsLabel label label' ∧
      σ.Poised rest base spot m₁ m₁' := by
  cases hl with
  | none =>
    obtain ⟨hlabel, rfl⟩ := Prod.mk.inj hm
    obtain rfl := Except.ok.inj hlabel
    obtain ⟨hmaps, hchain⟩ := h.tables.chain.freshLabel fun hlabels => hword hlabels rfl
    exact ⟨_, _, rfl, hmaps, h.chain hchain⟩
  | @some l l' hl =>
    obtain ⟨hlabel, rfl⟩ := Prod.mk.inj hm
    cases hcheck : m.chain.checkLabel l with
    | error f =>
      rw [hcheck] at hlabel
      cases hlabel
    | ok u =>
      rw [hcheck] at hlabel
      obtain rfl : l = label := Except.ok.inj hlabel
      refine ⟨l', m', ?_, hl, h⟩
      simp only [Machine.chooseLabel, h.tables.chain.checkLabel hl hcheck]
      rfl

/-- A body starts under the same installation. -/
theorem install (h : σ.Poised rest base (.code .inner) m m') (hm : m.fibers.parked.WellFormed)
    (hm' : m'.fibers.parked.WellFormed) (hΓ : σ.MapsLibrary rest Γ Γ')
    {x x' : Installing} (hx : σ.MapsInstalling x x') {body body' : ReferenceId → Comp Content}
    (hword : σ.labels ≠ 0 → retiredLabel ≤ (m'.install Γ' x' body').chain.nextLabel)
    (hbody : ∀ r r', σ.MapsReference r r' → σ.MapsCode rest .inner (body r) (body' r')) :
    σ.Goes rest (m.install Γ x body) (m'.install Γ' x' body') := by
  have hhandler := hΓ.handlers _ hx.used
  have hlabels : σ.labels ≠ 0 → x'.label = none →
      retiredLabel ≤ m'.chain.freshLabel.2.nextLabel := by
    intro hlabels hnone
    have hchosen : m'.chooseLabel x'.label =
        (.ok m'.chain.nextLabel, { m' with chain := m'.chain.freshLabel.2 }) := by
      rw [hnone]
      rfl
    exact (Machine.nextLabel_install body' hchosen).symm ▸ hword hlabels
  unfold Machine.install
  rw [hx.handlerType]
  rcases hchosen : m.chooseLabel x.label with ⟨f | label, m₁⟩
  · exact .inr (failing_fault _)
  obtain ⟨label', m₁', hchosen', hlabel, h₁⟩ := h.chooseLabel hlabels hx.label hchosen
  simp only [hchosen']
  rcases hdeclared : m₁.declare x.handlerType (Γ.handlerType x.handlerType) with ⟨f | _, m₂⟩
  · exact .inr (failing_fault _)
  obtain ⟨m₂', hdeclared', h₂⟩ := h₁.declare hhandler hdeclared
  simp only [hdeclared']
  rcases hacquired : m₂.acquireStack with ⟨why | _, m₃⟩
  · refine .inr ?_
    obtain ⟨journal, -, rfl⟩ := m₂.exists_of_acquireStack_error hacquired
    cases why with
    | outOfMemory => exact failing_fault _
    | overflow => exact .unwind rfl h₂.uncaught
  obtain ⟨m₃', hacquired', h₃⟩ := h₂.acquireStack hacquired
  simp only [hacquired']
  have hfibers := Machine.fibers_readied hchosen hdeclared hacquired
  have hfibers' := Machine.fibers_readied hchosen' hdeclared' hacquired'
  have hi : σ.MapsInstallation m₃.chain.installations.next m₃'.chain.installations.next :=
    h₃.tables.chain.installations.later
  have hr : σ.MapsReference m₃.references.next m₃'.references.next := h₃.tables.references.later
  have hf : σ.MapsFiber m₃.fibers.parked.next m₃'.fibers.parked.next := h₃.tables.parked.later
  have hcreated := h₃.tables.chain.create
    (a := { label, below := none, handler := x.handler, handlerType := x.handlerType, name := x.handlerType,
            clauses := (Γ.handlerType x.handlerType).entries, shares := 3 })
    (b := { label := label', below := none, handler := x'.handler, handlerType := x.handlerType,
            name := x.handlerType, clauses := (Γ'.handlerType x.handlerType).entries, shares := 3 })
    { label := hlabel, below := .none, handler := hx.handler, handlerType := rfl, used := hx.used,
      name := rfl, clauses := hhandler.entries, resuming := hhandler.resuming, shares := rfl }
  have hbody' : σ.MapsParked rest
      [.start (body m₃.references.next), .owning (x.owned ++ [.reference m₃.references.next])]
      [.start (body' m₃'.references.next), .owning (x'.owned ++ [.reference m₃'.references.next])] :=
    ⟨.wake, .inr rfl, .start (hbody _ _ hr)
      (.owning nofun (List.rel_append hx.owned (.cons (.reference hr) .nil)) .nil)⟩
  have hplaced : σ.Poised rest base (.code .inner)
      { m₃ with
        chain := (m₃.chain.create
          { label, below := none, handler := x.handler, handlerType := x.handlerType,
            name := x.handlerType, clauses := (Γ.handlerType x.handlerType).entries,
            shares := 3 }).2.push m₃.chain.installations.next
        references := (m₃.references.insert m₃.chain.installations.next).2
        fibers := (m₃.fibers.create [.start (body m₃.references.next),
          .owning (x.owned ++ [.reference m₃.references.next])]).2 }
      { m₃' with
        chain := (m₃'.chain.create
          { label := label', below := none, handler := x'.handler, handlerType := x.handlerType,
            name := x.handlerType, clauses := (Γ'.handlerType x.handlerType).entries,
            shares := 3 }).2.push m₃'.chain.installations.next
        references := (m₃'.references.insert m₃'.chain.installations.next).2
        fibers := (m₃'.fibers.create [.start (body' m₃'.references.next),
          .owning (x'.owned ++ [.reference m₃'.references.next])]).2 } :=
    { h₃ with
      tables := { h₃.tables with
        chain := hcreated.push hi
        references := h₃.tables.references.insert hi
        parked := h₃.tables.parked.insert hbody' } }
  refine (((hplaced.bump .handles).trace (.installed label x.handlerType)
    (.installed label' x.handlerType)).push fun _ _ => .stepping).enter ?_ ?_ hi hf
  · exact Store.wellFormed_insert (hfibers ▸ hm) _
  · exact Store.wellFormed_insert (hfibers' ▸ hm') _

/-! ### Ends -/

/-- The body of the same installation has come to its end. -/
theorem finish (h : σ.Poised rest base .step m m') (hΓ : σ.MapsLibrary rest Γ Γ')
    {i i' : InstallationId} {v v' : Value} (hi : σ.MapsInstallation i i') (hv : σ.MapsValue v v') :
    σ.Goes rest (m.finish Γ i v) (m'.finish Γ' i' v') := by
  unfold Machine.finish
  cases hpop : m.chain.pop? with
  | none => exact .inr (failing_fault _)
  | some popped =>
    obtain ⟨top, c⟩ := popped
    obtain ⟨top', c', hpop', htop, hc⟩ := h.tables.chain.pop hpop
    simp only [hpop']
    by_cases heq : top = i
    · subst heq
      obtain rfl := (htop.eq_iff hi).mp rfl
      simp only [ne_eq, not_true_eq_false, if_false]
      have hmaps := hc.popped hpop htop
      have hhandler := hΓ.handlers _ hmaps.used
      rw [hmaps.handlerType, hhandler.answer]
      have hretired := ((h.chain hc).trace (.returned (c.get top).label (c.get top).name)
        (.returned (c'.get top').label (c'.get top').name)).chain (hc.retire htop)
      exact .inl ((hretired.push fun _ _ => .returning _ hi).eval
        (hhandler.onReturn _ _ _ _ hmaps.handler hv))
    · simp only [ne_eq, heq, not_false_eq_true, if_true]
      exact .inr (failing_fault _)

/-- A step goes to the same loop. -/
theorem deliver (h : σ.Poised rest base .step m m') (hm : m.fibers.parked.WellFormed)
    (hm' : m'.fibers.parked.WellFormed) {s s' : Step (Cont Content) Value}
    (hs : σ.MapsStep rest s s') : σ.Goes rest (m.deliver s) (m'.deliver s') := by
  have hstack := h.stack
  unfold Machine.deliver
  generalize hS : m.stack = S at hstack
  generalize hS' : m'.stack = S' at hstack
  cases hstack with
  | @stepping S S' hstack =>
    cases hs with
    | done hv =>
      have hbelow : σ.Poised rest base (.code .inner) { m with stack := S } { m' with stack := S' } :=
        { h with tables := { h.tables with }, stack := hstack }
      exact .inl (hbelow.ret hv)
    | tail hk => exact h.stepCont hm hm' hk

/-- The running fiber goes on with the same. -/
theorem wake (h : σ.Poised rest base spot m m') (hspot : spot = .drive ∨ spot = .wake)
    (hm : m.fibers.parked.WellFormed) (hm' : m'.fibers.parked.WellFormed) :
    σ.Goes rest m.wake m'.wake := by
  have hstack := h.stack
  have hbelow : ∀ {S S' spot}, σ.MapsStack rest base spot S S' →
      σ.Poised rest base spot { m with stack := S } { m' with stack := S' } :=
    fun hS => { h with tables := { h.tables with }, stack := hS }
  unfold Machine.wake
  generalize hS : m.stack = S at hstack
  generalize hS' : m'.stack = S' at hstack
  cases hstack with
  | start hb hstack => exact .inl ((hbelow hstack).eval hb)
  | driving hi hf hstack => exact (hbelow hstack).enter hm hm' hi hf
  | @sending i i' e e' S S' modifier command hi he hstack =>
    by_cases hmodifier : modifier = .noResume
    · simp only [if_pos hmodifier]
      exact .inr (failing_fault _)
    simp only [if_neg hmodifier]
    cases hv : (m.exchanges.find? e).bind (·.result) with
    | none => exact .inr (failing_fault _)
    | some v =>
      obtain ⟨x, hx, hresult⟩ := Option.bind_eq_some_iff.mp hv
      obtain ⟨x', hx', hmaps⟩ := h.tables.exchanges.exists_find? he hx
      have hrel := hmaps.result
      rw [hresult] at hrel
      generalize hv' : x'.result = r' at hrel
      cases hrel with
      | @some v v' hmapsv =>
        simp only [hx', Option.bind_some, hv']
        have hgot : σ.Poised rest base (.code .inner)
            { m with
              exchanges := m.exchanges.modify e fun x => { x with result := none }, stack := S }
            { m' with
              exchanges := m'.exchanges.modify e' fun x => { x with result := none }
              stack := S' } :=
          { hbelow hstack with
            tables := { h.tables with
              exchanges := h.tables.exchanges.modify he fun hy => { hy with result := .none } } }
        have hreleased := hgot.release (.cons (.exchange he) (.cons (.of_installation hi) .nil))
        exact .inl (hreleased.ret hmapsv)
  | nil | bind | looping | owning | stepping | clause | returning | calling =>
    rcases hspot with hspot | hspot <;> cases hspot

end Poised

/-- Two threads are the same apart from how they go on, where a tail resume may wait. -/
structure Answering (σ : Rerun) (rest : Comp Content → Comp Content → Prop) (base : Role) (spot : Spot)
    (m m' : Machine Content) : Prop where
  tables : σ.MapsTables rest m m'
  stack : σ.MapsStack rest base spot m.stack m'.stack
  waiting : σ.MapsWaiting rest base m.fibers.resumers m'.fibers.resumers
  pending : Option.Rel (σ.MapsCont rest) m.pending m'.pending

namespace Answering

theorem poised (h : σ.Answering rest base spot m m') (hpending : m.pending = none) :
    σ.Poised rest base spot m m' where
  tables := h.tables
  stack := h.stack
  waiting := h.waiting
  pending := hpending
  pending' := by
    have hrel := h.pending
    rw [hpending] at hrel
    generalize m'.pending = k' at hrel
    cases hrel
    rfl

theorem release (h : σ.Answering rest base spot m m') {hs hs' : List Holding}
    (hhs : σ.MapsHoldings hs hs') : σ.Answering rest base spot (m.release hs) (m'.release hs') :=
  { h with tables := h.tables.release hhs }

/-- The same step comes of an answer. -/
theorem settle (h : σ.Answering rest base .step m m') (answer : String) {v v' : Value}
    (hv : σ.MapsValue v v') {kept kept' : List Holding} (hkept : σ.MapsHoldings kept kept') :
    σ.Goes rest (m.settle answer v kept) (m'.settle answer v' kept') := by
  have hpending := h.pending
  unfold Machine.settle
  generalize hk : m.pending = k at hpending
  generalize hk' : m'.pending = k' at hpending
  cases hpending with
  | none => exact .inl (((h.poised hk).release hkept).goOn (.deliver (.done hv)))
  | @some k k' hmaps =>
    have hemptied : σ.Poised rest base .step { m with pending := none } { m' with pending := none } :=
      { h with tables := { h.tables with }, pending := rfl, pending' := rfl }
    simp only [hmaps.answer]
    split
    · exact .inl ((hemptied.release (List.rel_append hv.owned.holdings hkept)).goOn
        (.deliver (.tail hmaps)))
    · exact .inr (Poised.failing_fault _)

/-- The code that has answered was that of a clause or of a closure, or it owned something. -/
theorem give (h : σ.Answering rest base (.code .answer) m m') {v v' : Value} (hv : σ.MapsValue v v')
    (hm : m.control = .ret v) (hm' : m'.control = .ret v') :
    σ.Goes rest (m.give Γ v) (m'.give Γ' v') := by
  have hbelow : ∀ {S S' spot}, σ.MapsStack rest base spot S S' →
      σ.Answering rest base spot { m with stack := S } { m' with stack := S' } :=
    fun hS => { h with tables := { h.tables with }, stack := hS }
  have hstack := h.stack
  unfold Machine.give
  generalize hspot : Spot.code .answer = spot at hstack
  generalize hS : m.stack = S at hstack
  generalize hS' : m'.stack = S' at hstack
  cases hstack with
  | nil =>
    cases hspot
    cases h.waiting
  | @owning ℓ os os' S S' hℓ ho hstack =>
    cases hspot
    have howned := (hbelow hstack).release ho.holdings
    refine .inl ⟨howned.tables, base, .code .answer, howned.stack, howned.waiting, ?_⟩
    show σ.MapsControl rest (.code .answer) m.pending m'.pending m.control m'.control
    rw [hm, hm']
    exact .answered h.pending hv
  | @clause keep keep' S S' answer hkeep hstack =>
    have hkept := (hbelow hstack).release (mapsHoldings_keep hkeep)
    exact .inl ⟨{ hkept.tables with }, base, .step, hkept.stack, hkept.waiting,
      .settle answer h.pending hv⟩
  | returning answer hi hstack =>
    exact (hbelow hstack).settle answer hv
      (.cons (.of_installation hi) (.cons (.of_installation hi) .nil))
  | calling answer hstack => exact (hbelow hstack).settle answer hv .nil
  | bind | looping | stepping | driving | start | sending => cases hspot

end Answering

namespace Poised

/-- The same code goes on with a value. -/
theorem give (h : σ.Poised rest base (.code .inner) m m') {v v' : Value} (hv : σ.MapsValue v v')
    (hm : m.control = .ret v) (hm' : m'.control = .ret v') :
    σ.Goes rest (m.give Γ v) (m'.give Γ' v') := by
  have hbelow : ∀ {S S' spot}, σ.MapsStack rest base spot S S' →
      σ.Poised rest base spot { m with stack := S } { m' with stack := S' } :=
    fun hS => { h with tables := { h.tables with }, stack := hS }
  have hstack := h.stack
  unfold Machine.give
  generalize hspot : Spot.code .inner = spot at hstack
  generalize hS : m.stack = S at hstack
  generalize hS' : m'.stack = S' at hstack
  cases hstack with
  | nil =>
    -- the fiber has come to its end
    cases hspot
    obtain ⟨S, S', fs, fs', hback, hback', base, hpoised⟩ := h.handBack
    simp only [Machine.handBack, hback, hback', Option.map_some]
    have hreturned : σ.Poised rest base .drive
        { m with fibers := fs, stack := S, control := .ret v }
        { m' with fibers := fs', stack := S', control := .ret v' } :=
      { hpoised with tables := { hpoised.tables with } }
    have haside := hreturned.aside h.tables.pool.giveBack m.pool.giveBack.2 m'.pool.giveBack.2
    refine .inl ⟨haside.tables, base, .drive, haside.stack, haside.waiting, ?_⟩
    rw [haside.pending, haside.pending']
    obtain ⟨journal, hwarn⟩ := Machine.exists_warn_eq
      { m with fibers := fs, stack := S, control := .ret v, pool := m.pool.giveBack.1 }
      m.pool.giveBack.2
    obtain ⟨journal', hwarn'⟩ := Machine.exists_warn_eq
      { m' with fibers := fs', stack := S', control := .ret v', pool := m'.pool.giveBack.1 }
      m'.pool.giveBack.2
    rw [hwarn, hwarn']
    exact .returned hv
  | @owning ℓ os os' S S' hℓ ho hstack =>
    cases hspot
    have howned := (hbelow hstack).discard ho
    refine .inl ⟨howned.tables, base, .code .inner, howned.stack, howned.waiting, ?_⟩
    show σ.MapsControl rest (.code .inner) m.pending m'.pending m.control m'.control
    rw [hm, hm', h.pending, h.pending']
    exact .ret hv
  | bind hn hstack => exact .inl ((hbelow hstack).eval (hn _ _ hv))
  | looping hb hn hstack =>
    have hgo := hbelow hstack
    cases hv with
    | pair ha hseed =>
      cases ha with
      | bool b =>
        cases b with
        | true => exact .inl ((hgo.push fun _ _ => .looping hb hn).eval (hb _ _ hseed))
        | false => exact .inl (hgo.eval (hn _ _ hseed))
      | _ => exact .inl (hgo.eval (hn _ _ hseed))
    | unit => exact .inl (hgo.eval (hn _ _ .unit))
    | int n => exact .inl (hgo.eval (hn _ _ (.int n)))
    | bool b => exact .inl (hgo.eval (hn _ _ (.bool b)))
    | text s => exact .inl (hgo.eval (hn _ _ (.text s)))
    | absent => exact .inl (hgo.eval (hn _ _ .absent))
    | present h => exact .inl (hgo.eval (hn _ _ (.present h)))
    | cell h => exact .inl (hgo.eval (hn _ _ (.cell h)))
    | reference h => exact .inl (hgo.eval (hn _ _ (.reference h)))
    | closure h => exact .inl (hgo.eval (hn _ _ (.closure h)))
    | resumption h => exact .inl (hgo.eval (hn _ _ (.resumption h)))
  | stepping | driving | clause | returning | calling | start | sending => cases hspot

/-- The body of an installation has returned to its driver. -/
theorem returned (h : σ.Poised rest base .drive m m') (hΓ : σ.MapsLibrary rest Γ Γ') {v v' : Value}
    (hv : σ.MapsValue v v') : σ.Goes rest (m.give Γ v) (m'.give Γ' v') := by
  have hstack := h.stack
  unfold Machine.give
  generalize hS : m.stack = S at hstack
  generalize hS' : m'.stack = S' at hstack
  cases hstack with
  | @driving i i' f f' S S' hi hf hstack =>
    have hbelow : σ.Poised rest base .step { m with stack := S } { m' with stack := S' } :=
      { h with tables := { h.tables with }, stack := hstack }
    exact hbelow.finish hΓ hi hv

/-! ### Operations -/

/-- A resumption that will never hold anything is made in both threads. -/
theorem unusable (h : σ.Poised rest base spot m m') :
    σ.Poised rest base spot m.unusable.2 m'.unusable.2 :=
  { h with tables := { h.tables with resumptions := h.tables.resumptions.skip } }

/-- The same operation does the same. -/
theorem operate (h : σ.Poised rest base (.code ℓ) m m') (hm : m.Ordinary) (hm' : m'.Ordinary)
    (hfatal : m.control.isFatal = false) (hfatal' : m'.control.isFatal = false)
    (hΓ : σ.MapsLibrary rest Γ Γ') {c c' : Comp Content} (hc : σ.MapsCode rest ℓ c c')
    (hrest : ℓ = .outer → ¬ rest c c')
    (hword : σ.labels ≠ 0 → retiredLabel ≤ (m'.eval Γ' c').chain.nextLabel) :
    σ.Goes rest (m.eval Γ c) (m'.eval Γ' c') := by
  obtain ⟨live, cuts, hlays⟩ := hm.orders.laid hfatal
  obtain ⟨live', cuts', hlays'⟩ := hm'.orders.laid hfatal'
  cases hc with
  | last hlast => exact absurd hlast (hrest rfl)
  | @done ℓ v v' hℓ hv =>
    cases ℓ with
    | outer => exact absurd rfl hℓ
    | inner => exact .inl (h.ret hv)
    | answer =>
      refine .inl (h.goOn ?_)
      exact .answered .none hv
  | panic message c' => exact .inr (h.failing_unwind message)
  | record e hn =>
    have hrecorded : σ.Poised rest base (.code ℓ) (m.record e) (m'.record e) :=
      { h with tables := h.tables.recordSame e }
    exact .inl (hrecorded.eval hn)
  | @alloc ℓ x x' n n' hx hn =>
    have hmade : σ.Poised rest base (.code ℓ) { m with cells := (m.cells.insert ⟨x, 1⟩).2 }
        { m' with cells := (m'.cells.insert ⟨x', 1⟩).2 } := { h with tables := h.tables.alloc hx }
    exact .inl (hmade.eval (hn _ _ (.inr h.tables.cells.later)))
  | read hc hn => exact .inl (h.eval (hn _ _ (h.tables.content hc)))
  | @write ℓ c c' x x' n n' hc hx hn =>
    have hwritten : σ.Poised rest base (.code ℓ)
        { m with cells := m.cells.modify c fun y => { y with content := x } }
        { m' with cells := m'.cells.modify c' fun y => { y with content := x' } } :=
      { h with tables := h.tables.writeContent hc hx }
    exact .inl (hwritten.eval hn)
  | @retain ℓ o o' n n' ho hn =>
    have hretained : σ.Poised rest base (.code ℓ) (m.retain o) (m'.retain o') := by
      have htables := h.tables.retain ho
      cases ho <;> exact { h with tables := htables }
    exact .inl (hretained.eval hn)
  | release ho hn => exact .inl ((h.discard ho).eval hn)
  | scope ho hb hn => exact .inl (((h.bind hn).push fun _ _ => .owning nofun ho).eval hb)
  | loop hs hb hn => exact .inl ((h.push fun _ _ => .looping hb hn).eval (hb _ _ hs))
  | call hp hv hn => exact .inl ((h.bind hn).eval (hΓ.procedures _ hp _ _ hv))
  | @closure ℓ os os' b b' n n' ho hb hn =>
    have hmade : σ.Poised rest base (.code ℓ) { m with closures := (m.closures.insert ⟨os, b⟩).2 }
        { m' with closures := (m'.closures.insert ⟨os', b'⟩).2 } :=
      { h with tables := { h.tables with closures := h.tables.closures.insert ⟨ho, hb⟩ } }
    exact .inl (hmade.eval (hn _ _ h.tables.closures.later))
  | apply hf hv hn =>
    exact .inl ((h.bind hn).applyClosure hm.filed.closures hm'.filed.closures hf hv)
  | handle hx hb hn =>
    exact (h.bind hn).install hm.filed.parked hm'.filed.parked hΓ hx hword hb
  | @invoke ℓ t t' c c' n n' ht hc hn =>
    cases hfound : m.chain.dispatch m.referent c.name t with
    | error f =>
      simp only [Machine.eval, hfound]
      exact .inr (failing_fault f)
    | ok found =>
      obtain ⟨i, entry⟩ := found
      obtain ⟨i', hfound', hi⟩ := h.tables.chain.dispatch hlays.arranged.reads hlays'.arranged.reads
        m'.referent ht hfound
      simp only [Machine.eval, hfound, hc.name, hfound']
      exact .inl ((h.bind hn).send hi entry hc)
  | @function ℓ f f' n n' answer hf hn =>
    cases hx : m.closures.find? f with
    | none =>
      simp only [Machine.eval, hx, h.tables.closures.find?_eq_none hf hx]
      exact .inl (h.unusable.eval (hn _ _ h.tables.resumptions.later))
    | some x =>
      obtain ⟨x', hx', hmaps⟩ := h.tables.closures.exists_find? hf hx
      simp only [Machine.eval, hx, hx']
      have hmade : σ.Poised rest base (.code ℓ)
          { m with
            closures := m.closures.erase f
            resumptions := (m.resumptions.insert (.function answer x none)).2 }
          { m' with
            closures := m'.closures.erase f'
            resumptions := (m'.resumptions.insert (.function answer x' none)).2 } :=
        { h with tables := { h.tables with
          closures := h.tables.closures.erase hm.filed.closures hm'.filed.closures hf
          resumptions := h.tables.resumptions.insert (.function answer hmaps .none) } }
      exact .inl (hmade.eval (hn _ _ h.tables.resumptions.later))
  | @take ℓ r r' n n' hr hn =>
    cases hk : m.resumptions.find? r with
    | none =>
      simp only [Machine.eval, hk, h.tables.resumptions.find?_eq_none hr hk]
      exact .inl (h.unusable.eval (hn _ _ h.tables.resumptions.later))
    | some k =>
      obtain ⟨k', hk', hmaps⟩ := h.tables.resumptions.exists_find? hr hk
      simp only [Machine.eval, hk, hk']
      have hmoved : σ.Poised rest base (.code ℓ)
          { m with resumptions := ((m.resumptions.erase r).insert k).2 }
          { m' with resumptions := ((m'.resumptions.erase r').insert k').2 } :=
        { h with tables := { h.tables with
          resumptions := (h.tables.resumptions.erase hm.filed.resumptions hm'.filed.resumptions
            hr).insert hmaps } }
      exact .inl (hmoved.eval (hn _ _ h.tables.resumptions.later))
  | resume hr hv hn => exact (h.bind hn).resume hm.filed.resumptions hm'.filed.resumptions hr hv
  | tail hr hv hw => exact h.tailResume hm.filed.resumptions hm'.filed.resumptions hr hv hw
  | label hn =>
    obtain ⟨hl, hchain⟩ := h.tables.chain.freshLabel hword
    exact .inl ((h.chain hchain).eval (hn _ _ hl))

end Poised

end Rerun

end EffectHandlers

/-!
## Runs abreast

Two threads that are the same under other numbers step together until the code of the thread itself
comes to where the rest begins. A thread that comes to a value gets there.
-/

namespace EffectHandlers.Rerun

variable {σ : Rerun} {rest : Comp Content → Comp Content → Prop} {m m' : Machine Content}
  {Γ Γ' : Library Content}

/-- The code of two threads has come to where the rest begins, with nothing else under way. -/
structure AtRest (σ : Rerun) (rest : Comp Content → Comp Content → Prop) (m m' : Machine Content) :
    Prop where
  tables : σ.MapsTables rest m m'
  released : m.releasing = [] ∧ m'.releasing = []
  stack : m.stack = [] ∧ m'.stack = []
  resumers : m.fibers.resumers = [] ∧ m'.fibers.resumers = []
  pending : m.pending = none ∧ m'.pending = none
  code : ∃ c c', m.control = .eval c ∧ m'.control = .eval c' ∧ rest c c'

/-- What is released in one thread is released in the other one. -/
theorem Abreast.release (h : σ.Abreast rest m m') (hm : m.Ordinary) (hm' : m'.Ordinary) {x : Holding}
    {hs : List Holding} (hreleasing : m.releasing = x :: hs) :
    σ.Abreast rest (m.step Γ) (m'.step Γ') := by
  obtain ⟨hfatal, -⟩ := h.not_fatal
  have hrel := h.tables.releasing
  rw [hreleasing] at hrel
  generalize hreleasing' : m'.releasing = xs at hrel
  cases hrel with
  | @cons _ x' _ hs' hx hhs =>
    have hbottom : x ≠ .installation 0 := fun heq =>
      hm.orders.keeps_bottom hfatal h.tables.chain.bottom hs (heq ▸ hreleasing)
    rw [Machine.step_releasing hreleasing, Machine.step_releasing hreleasing']
    have htables : σ.MapsTables rest { m with releasing := hs } { m' with releasing := hs' } :=
      { h.tables with releasing := hhs }
    refine ⟨htables.releaseOne { hm.filed with } { hm'.filed with } hx hbottom, ?_⟩
    obtain ⟨base, spot, hstack, hwaiting, hcontrol⟩ := h.running
    obtain ⟨hS, hrs, -⟩ := Machine.releaseOne_same { m with releasing := hs } x
    obtain ⟨hS', hrs', -⟩ := Machine.releaseOne_same { m' with releasing := hs' } x'
    refine ⟨base, spot, ?_, ?_, ?_⟩
    · rw [hS, hS']
      exact hstack
    · rw [hrs, hrs']
      exact hwaiting
    · rw [Machine.pending_releaseOne, Machine.pending_releaseOne, Machine.releaseOne_control,
        Machine.releaseOne_control]
      exact hcontrol

/-- Two threads that are the same take the same step, unless they are where the rest begins. -/
theorem Abreast.step (h : σ.Abreast rest m m') (hm : m.Ordinary) (hm' : m'.Ordinary)
    (hΓ : σ.MapsLibrary rest Γ Γ')
    (hword : σ.labels ≠ 0 → retiredLabel ≤ (m'.step Γ').chain.nextLabel) :
    σ.AtRest rest m m' ∨ σ.Goes rest (m.step Γ) (m'.step Γ') := by
  cases hreleasing : m.releasing with
  | cons x hs => exact .inr (.inl (h.release hm hm' hreleasing))
  | nil =>
    have hreleasing' : m'.releasing = [] := by
      have hrel := h.tables.releasing
      rw [hreleasing] at hrel
      generalize m'.releasing = xs at hrel
      cases hrel
      rfl
    obtain ⟨hfatal, hfatal'⟩ := h.not_fatal
    obtain ⟨base, spot, hstack, hwaiting, hcontrol⟩ := h.running
    have hparked := hm.filed.parked
    have hparked' := hm'.filed.parked
    generalize hk : m.pending = k at hcontrol
    generalize hk' : m'.pending = k' at hcontrol
    generalize hc : m.control = c at hcontrol
    generalize hc' : m'.control = c' at hcontrol
    have hpoised : k = none → k' = none → σ.Poised rest base spot m m' := by
      rintro rfl rfl
      exact ⟨h.tables, hstack, hwaiting, hk, hk'⟩
    simp only [Machine.step, hreleasing, hreleasing', hc, hc'] at hword ⊢
    cases hcontrol with
    | @eval ℓ c c' hcode =>
      by_cases hrest : ℓ = .outer ∧ rest c c'
      · obtain ⟨rfl, hrest⟩ := hrest
        obtain ⟨hS, hS', rfl⟩ := hstack.nil_of_outer
        obtain ⟨hrs, hrs'⟩ := hwaiting.nil_of_outer
        exact .inl
          { tables := h.tables
            released := ⟨hreleasing, hreleasing'⟩
            stack := ⟨hS, hS'⟩
            resumers := ⟨hrs, hrs'⟩
            pending := ⟨hk, hk'⟩
            code := ⟨c, c', hc, hc', hrest⟩ }
      · exact .inr ((hpoised rfl rfl).operate hm hm' hfatal hfatal' hΓ hcode
          (fun hℓ hlast => hrest ⟨hℓ, hlast⟩) hword)
    | leave hk₁ hv =>
      refine .inr (.inl ⟨{ h.tables with }, base, .code .answer, hstack, hwaiting, ?_⟩)
      show σ.MapsControl rest _ m.pending m'.pending _ _
      rw [hk, hk']
      exact .answered hk₁ hv
    | ret hv => exact .inr ((hpoised rfl rfl).give hv hc hc')
    | answered hk₁ hv =>
      have hanswering : σ.Answering rest base (.code .answer) m m' :=
        ⟨h.tables, hstack, hwaiting, by rw [hk, hk']; exact hk₁⟩
      exact .inr (hanswering.give hv hc hc')
    | returned hv => exact .inr ((hpoised rfl rfl).returned hΓ hv)
    | deliver hs => exact .inr ((hpoised rfl rfl).deliver hparked hparked' hs)
    | settle answer hk₁ hv =>
      have hanswering : σ.Answering rest base .step m m' :=
        ⟨h.tables, hstack, hwaiting, by rw [hk, hk']; exact hk₁⟩
      exact .inr (hanswering.settle answer hv .nil)
    | request hspot hr =>
      obtain ⟨live, cuts, hlays⟩ := hm.orders.laid hfatal
      obtain ⟨live', cuts', hlays'⟩ := hm'.orders.laid hfatal'
      exact .inr ((hpoised rfl rfl).forward hΓ hlays.arranged.reads hlays'.arranged.reads hspot hr)
    | wake hspot => exact .inr ((hpoised rfl rfl).wake hspot hparked hparked')

/-- Two threads that are the same stay the same until the rest begins, or the first one fails. -/
theorem Abreast.goes (h : σ.Abreast rest m m') (hm : ∀ n, (m.run Γ n).Ordinary)
    (hm' : ∀ n, (m'.run Γ' n).Ordinary) (hΓ : σ.MapsLibrary rest Γ Γ')
    (hword : σ.labels ≠ 0 → ∀ n, retiredLabel ≤ (m'.run Γ' n).chain.nextLabel) (n : Nat) :
    (∃ k, σ.AtRest rest (m.run Γ k) (m'.run Γ' k)) ∨ σ.Goes rest (m.run Γ n) (m'.run Γ' n) := by
  induction n with
  | zero => exact .inr (.inl h)
  | succ n ih =>
    rcases ih with hrest | hgoes | hfails
    · exact .inl hrest
    · have hstep := hgoes.step (hm n) (hm' n) hΓ fun hlabels =>
        Machine.run_succ n m' ▸ hword hlabels (n + 1)
      rw [Machine.run_succ, Machine.run_succ]
      exact hstep.imp_left fun hrest => ⟨n, hrest⟩
    · rw [Machine.run_succ, Machine.run_succ]
      exact .inr (.inr hfails.step)

/-- If the first thread comes to a value, both come to where the rest begins. -/
theorem Abreast.exists_atRest (h : σ.Abreast rest m m') (hm : ∀ n, (m.run Γ n).Ordinary)
    (hm' : ∀ n, (m'.run Γ' n).Ordinary) (hΓ : σ.MapsLibrary rest Γ Γ')
    (hword : σ.labels ≠ 0 → ∀ n, retiredLabel ≤ (m'.run Γ' n).chain.nextLabel)
    (hends : ∃ n v, (m.run Γ n).control = .halted (.finished v)) :
    ∃ k, σ.AtRest rest (m.run Γ k) (m'.run Γ' k) := by
  obtain ⟨n, v, hcontrol⟩ := hends
  rcases h.goes hm hm' hΓ hword n with hrest | hgoes | hfails
  · exact hrest
  · -- threads that are abreast have not halted
    obtain ⟨base, spot, -, -, hrel⟩ := hgoes.running
    rw [hcontrol] at hrel
    generalize (m.run Γ n).pending = k at hrel
    generalize (m'.run Γ' n).pending = k' at hrel
    generalize (m'.run Γ' n).control = c' at hrel
    cases hrel
  · exact absurd hcontrol (hfails.not_finished v)

end EffectHandlers.Rerun
