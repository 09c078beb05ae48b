import EffectHandlers.Proofs.Mirror
/-!
# No internal fault

The faults and the panic that report a broken invariant of the runtime are never reached, and what
they watch over holds: lookups lead to clauses that have the entry point of their modifier,
requests reach the driver of their target while the installation is live, bodies return where
their installation is on top, and invokers that are woken find a result.
-/

namespace EffectHandlers

variable {ω : Type} {Γ : Library ω} {m : Machine ω} {l : Layout ω} {r : Request}
  {i : InstallationId}

namespace Machine

/-- A position in the declarations of an installation holds an entry with code, and with the entry
point of its modifier. -/
def HasClause (Γ : Library ω) (m : Machine ω) (i : InstallationId) (position : Nat)
    (modifier : Modifier) : Prop :=
  ∃ e code, (m.chain.get i).clauses[position]? = some e ∧ e.modifier = modifier ∧
    (e.entryPoint = if modifier = .plain then .inPlace else .resuming) ∧
    m.codeAt Γ i position = some code ∧ code.modifier = modifier

/-- A request that can be delivered. -/
structure Deliverable (Γ : Library ω) (m : Machine ω) (r : Request) : Prop where
  control : m.control = .request r
  /-- The driver of the target is among those that wait. -/
  blocked : r.target ∈ m.blocked
  live : r.target ∈ m.chain.live
  /-- The command is still in the exchange. -/
  command : ∃ y command, m.exchanges.find? r.exchange = some y ∧ y.command = some command
  clause : ∃ modifier, modifier ≠ .plain ∧ m.HasClause Γ r.target r.entry modifier

variable [Contents ω]

/-- A request that drivers pass on, one by one, until the driver of its target runs the clause. -/
inductive Reaches (Γ : Library ω) (r : Request) : Machine ω → Prop
  | arrives {m : Machine ω} {w ws code body} (h : m.Deliverable Γ r)
      (hresumers : m.fibers.resumers = w :: ws) (hdriver : w.driver? = some r.target)
      (hcode : m.codeAt Γ r.target r.entry = some code)
      (hbody : ∃ y command, m.exchanges.find? r.exchange = some y ∧ y.command = some command ∧
        body = code.body (m.chain.get r.target).handler command.payload m.resumptions.next)
      (hruns : (m.step Γ).control = .eval body) : Reaches Γ r m
  | passes {m : Machine ω} {w ws i} (h : m.Deliverable Γ r)
      (hresumers : m.fibers.resumers = w :: ws) (hdriver : w.driver? = some i)
      (hi : i ≠ r.target) (hstep : (m.step Γ).fibers.resumers = ws)
      (hnext : Reaches Γ r (m.step Γ)) : Reaches Γ r m

/-- No invariant of the runtime is broken, and none is about to be. -/
structure Untroubled (Γ : Library ω) (m : Machine ω) : Prop where
  /-- No fault is internal. -/
  fault : ∀ f, m.control = .fault f → f.isInternal = false
  outcome : ∀ o, m.control = .halted o → o.Regular
  /-- Nothing panics. -/
  unwind : ∀ message, m.control ≠ .unwind message
  /-- A lookup that succeeds finds a live installation and a clause of it. -/
  lookup : ∀ target command next i position, m.control = .eval (.invoke target command next) →
    m.chain.dispatch m.referent command.name target = .ok (i, position) →
      i ∈ m.chain.live ∧ ∃ modifier, m.HasClause Γ i position modifier
  request : ∀ r, m.control = .request r → m.Reaches Γ r
  /-- The body of an installation returns where the installation is on top. -/
  body : ∀ v i f S, m.control = .ret v → m.stack = .driving i f :: S → m.chain.top = i
  /-- An invoker that is woken finds a result. -/
  invoker : ∀ i e modifier command S, m.control = .wake →
    m.stack = .sending i e modifier command :: S →
      modifier ≠ .noResume ∧ ∃ y v, m.exchanges.find? e = some y ∧ y.result = some v

end Machine

namespace Sound

/-- The positions that lookups find have clauses. -/
theorem hasClause (h : Sound Γ m l) (hi : i ≠ 0) (hfound : (m.chain.installations.find? i).isSome)
    {e : ClauseEntry} {position : Nat}
    (hentry : (m.chain.get i).clauses[position]? = some e) :
    m.HasClause Γ i position e.modifier := by
  obtain ⟨a, ha⟩ := Option.isSome_iff_exists.mp hfound
  obtain ⟨code, hcode, hmodifier, hpoint⟩ := h.regular.declares.codeAt hi ha hentry
  exact ⟨e, code, hentry, rfl, hpoint, hcode, hmodifier⟩

/-- A request in a sound state can be delivered. -/
theorem deliverable (h : Sound Γ m l) (hcontrol : m.control = .request r) :
    m.Deliverable Γ r := by
  obtain ⟨t, htower, hlifted, hr⟩ := h.of_request hcontrol
  obtain ⟨code, hcode, hplain, -⟩ := hr.code
  obtain ⟨y, hy, hcommand⟩ := hr.command
  obtain ⟨command, hcommand⟩ := Option.isSome_iff_exists.mp hcommand
  have hlive := hr.live
  rw [← htower] at hlive
  have hfound := h.placed.found r.target (Placed.exposed_subset _ _ hlive)
  have hzero : r.target ≠ 0 := h.placed.reads.ne_zero hlive
  obtain ⟨e, -, hentry, -⟩ := Machine.exists_clause_of_codeAt hcode
  have hclause := h.hasClause hzero hfound hentry
  obtain ⟨-, code', -, -, -, hcode', hmodifier⟩ := id hclause
  obtain rfl : code' = code := by simpa using hcode'.symm.trans hcode
  exact
    { control := hcontrol
      blocked := by
        rw [Machine.blocked, ← h.parks.waiters.drivers_eq.1]
        exact hr.driver
      live := by
        rw [h.placed.reads.live_eq]
        exact hlive
      command := ⟨y, command, hr.exchange ▸ hy, hcommand⟩
      clause := ⟨e.modifier, hmodifier ▸ hplain, hclause⟩ }

variable [Contents ω]

/-- A request in a sound state reaches the driver of its target. -/
theorem reaches (h : Sound Γ m l) (hcontrol : m.control = .request r) :
    m.Reaches Γ r := by
  -- by induction on the fibers that wait: each driver that passes the request on is one less
  induction hws : m.fibers.resumers generalizing m l with
  | nil =>
    obtain ⟨t, -, -, hr⟩ := h.of_request hcontrol
    have hwaiting : m.waiting = [] := by simp [Machine.waiting, hws]
    have hdriver := hr.driver
    rw [hwaiting] at hdriver
    cases hdriver
  | cons w ws ih =>
    have hdeliverable := h.deliverable hcontrol
    obtain ⟨t, htower, hlifted, hr⟩ := h.of_request hcontrol
    have hparks := h.parks
    rw [hlifted] at hparks
    obtain ⟨code, cur, rs, fs, hresumers, ⟨i, S, rfl, hS⟩, hsuspend, -, hrest, hparks'⟩ :=
      hparks.suspend hr.current
    have hws' : rs = ws := (List.cons.inj (hresumers.symm.trans hws)).2
    have hdriver : Resumer.driver? ⟨t.root, cur, .driving i t.root :: .stepping :: S⟩ = some i := by
      simp [Resumer.driver?]
    have hstep : m.step Γ = m.forward Γ r := by
      simp only [Machine.step, hr.releasing, hcontrol]
    by_cases hi : i = r.target
    · subst hi
      obtain ⟨code, y, command, c', hcode, hplain, -, hy, hcommand, hsplit, -⟩ :=
        h.capturable hr htower hresumers ""
      obtain ⟨counters, events, -, -, heq⟩ := Machine.capture_eq
        (m := { m with fibers := fs, stack := .stepping :: S }) (f := t.root) hcode hplain hsplit hy
        hcommand
      refine .arrives hdeliverable hresumers hdriver hcode ⟨y, command, hy, hcommand, rfl⟩ ?_
      rw [hstep]
      unfold Machine.forward
      rw [hr.stack, hsuspend]
      simp only [if_true, heq]
    · obtain ⟨l', hsound⟩ := h.passed hr htower hlifted hresumers hS hrest hparks' hi
      have hforward : m.forward Γ r =
          { m with fibers := fs, stack := .driving i t.root :: .stepping :: S } := by
        unfold Machine.forward
        rw [hr.stack, hsuspend]
        simp only [if_neg hi, ← hcontrol]
      rw [← hforward, ← hstep] at hsound
      have hstep' : (m.step Γ).fibers.resumers = rs := by rw [hstep, hforward, hrest]
      have hcontrol' : (m.step Γ).control = .request r := by rw [hstep, hforward, hcontrol]
      exact .passes hdeliverable hresumers hdriver hi hstep'
        (ih hsound hcontrol' (hstep'.trans hws'))

/-- A sound state is untroubled. -/
theorem untroubled (h : Sound Γ m l) : m.Untroubled Γ where
  fault f hf := absurd h.tip.allows (by simp [hf])
  outcome o ho := absurd h.tip.allows (by simp [ho])
  unwind message hunwind := absurd h.tip.allows (by simp [hunwind])
  lookup target command next i position hcontrol hdispatch := by
    obtain ⟨hfront, -, -, hready⟩ := h.of_eval hcontrol
    obtain ⟨hlive, hclause⟩ := h.placed.reads.of_dispatch hdispatch
    rw [← h.placed.reads.live_eq] at hlive
    obtain ⟨-, -, -, hzero, hfound⟩ := h.driver_waits hfront hready hlive
    obtain ⟨e, hentry⟩ := Installation.getElem?_of_clauseFor? hclause
    exact ⟨hlive, e.modifier, h.hasClause hzero hfound hentry⟩
  request r hcontrol := h.reaches hcontrol
  body v i f S hcontrol hstack := by
    obtain ⟨hfront, -, -⟩ := h.of_ret hcontrol
    have hlive := h.placed.live
    rw [hfront, hstack] at hlive
    simpa using hlive.1
  invoker i e modifier command S hcontrol hstack := by
    rcases h.of_wake hcontrol with ⟨body, S', -, -, hstack', -⟩ | ⟨t, -, -, hw⟩
    · simp [hstack] at hstack'
    · have hsame := hw.stack
      cases t with
      | driver => simp [hstack, Tower.stack] at hsame
      | invoker f i' e' modifier' command' rest =>
        simp only [hstack, Tower.stack, List.cons.injEq, Activation.sending.injEq] at hsame
        obtain ⟨⟨-, rfl, rfl, -⟩, -⟩ := hsame
        obtain ⟨y, hy, hresult⟩ := hw.result
        obtain ⟨v, hv⟩ := Option.isSome_iff_exists.mp hresult
        exact ⟨hw.modifier, y, v, hy, hv⟩

end Sound

variable [Contents ω]

/-- No run of an orderly program breaks an invariant of the runtime: whatever happens, no internal
fault is raised, nothing panics, requests reach the driver of their target, bodies find their
installation on top, and invokers find their results. -/
theorem no_internal_fault {settings : SettingsSlot} {cells : List ω} {statics : List Owned}
    {main : Comp ω} (hΓ : Γ.Orderly) (hmain : main.Orderly)
    (hsize : settings.use.1.stackSize + StackPool.margin < Word.count) (n : Nat) :
    (Machine.run Γ n (Machine.start settings cells statics main)).Untroubled Γ := by
  have hgood := (Good.sound _ (Sound.start cells statics hmain hsize)).run n hΓ
  generalize Machine.run Γ n (Machine.start settings cells statics main) = m at hgood
  cases hgood with
  | sound l h => exact h.untroubled
  | fault hcontrol hf =>
    refine ⟨fun f h => ?_, ?_, ?_, ?_, ?_, ?_, ?_⟩
    · obtain rfl : _ = f := by simpa using hcontrol.symm.trans h
      exact hf
    all_goals simp [hcontrol]
  | halted hcontrol ho =>
    refine ⟨?_, fun o h => ?_, ?_, ?_, ?_, ?_, ?_⟩
    · simp [hcontrol]
    · obtain rfl : _ = o := by simpa using hcontrol.symm.trans h
      exact ho
    all_goals simp [hcontrol]

/-- While the request of `asking` is under way. -/
theorem no_internal_fault_asking :
    (Machine.run reader 3 (Machine.start {} [()] [] asking)).control =
        .request ⟨1, 0, 0, "Ask"⟩ ∧
      (Machine.run reader 3 (Machine.start {} [()] [] asking)).Untroubled reader :=
  ⟨rfl, no_internal_fault reader_orderly asking_orderly (by decide) 3⟩

end EffectHandlers
