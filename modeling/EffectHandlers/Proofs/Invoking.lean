import EffectHandlers.Proofs.Operating
/-!
# Invoking corresponds

A plain clause starts at once in the context of the invocation. Any other clause starts when the
request has come down to its driver; what was passed on the way is the part of the context that
the evaluation has captured.
-/

namespace EffectHandlers

variable {ω : Type} {Γ : Library ω} {m m' : Machine ω} {s s' : Evaluation ω} {l : Layout ω}
  {gone : Owned → Prop} {n : Nat} {i : InstallationId} {entry : Nat} {code : ClauseCode ω}
  {command : Command}

/-- The code at a position is that of the clause that is declared there. -/
theorem Machine.clause_of_codeAt (h : m.codeAt Γ i entry = some code) :
    ((Γ.handlerType (m.chain.get i).handlerType).clauses[entry]?).map (·.code) = some code := by
  obtain ⟨-, clause, -, -, hclause, rfl⟩ := exists_clause_of_codeAt h
  simp [hclause]

/-- Cutting a segment off changes links only. -/
theorem Chain.installations_split {c c' : Chain} {segment : Segment}
    (h : c.split i = .ok (segment, c')) :
    c'.installations = c.installations.modify i (fun a => { a with below := none }) ∧
      c'.nextLabel = c.nextLabel := by
  unfold split at h
  split at h
  · split at h
    · cases h
    · obtain ⟨-, rfl⟩ := Prod.mk.inj (Except.ok.inj h)
      exact ⟨rfl, rfl⟩
  · cases h

namespace Tracks

/-- Links do not show. -/
theorem split (h : Tracks gone m s) {segment : Segment} {c' : Chain}
    (hsplit : m.chain.split i = .ok (segment, c')) : Tracks gone { m with chain := c' } s := by
  obtain ⟨hinstallations, hlabel⟩ := Chain.installations_split hsplit
  exact
    { h with
      installed := h.installed.modify (fun a => { a with below := none }) (fun _ => rfl)
        hinstallations
      nextLabel := h.nextLabel.trans hlabel.symm }

/-- A new exchange is nobody's that was given a value. -/
theorem exchange (h : Tracks gone m s) (hwf : m.exchanges.WellFormed) (y : Exchange) :
    Tracks gone { m with exchanges := (m.exchanges.insert y).2 } s :=
  { h with
    pending := Option.Rel.weaken h.pending fun k p _ hholds => by
      refine ⟨hholds.stands, ?_⟩
      have hvalue := hholds.value
      cases k with
      | function => exact hvalue
      | captured answer f segment e =>
        simp only [Cont.value?, Option.bind_eq_some_iff] at hvalue ⊢
        obtain ⟨z, hz, hresult⟩ := hvalue
        have hne : e ≠ m.exchanges.next := Nat.ne_of_lt (Store.lt_next hwf hz)
        exact ⟨z, by simp [Store.find?_insert, hne, hz], hresult⟩ }

/-- Taking a command out of an exchange leaves the value there. -/
theorem takeCommand (h : Tracks gone m s) (e : ExchangeId) :
    Tracks gone { m with exchanges := m.exchanges.modify e fun x => { x with command := none } }
      s :=
  { h with
    pending := Option.Rel.weaken h.pending fun k p _ hholds => by
      refine ⟨hholds.stands, ?_⟩
      have hvalue := hholds.value
      cases k with
      | function => exact hvalue
      | captured answer f segment e' =>
        simp only [Cont.value?, Store.find?_modify] at hvalue ⊢
        split
        · cases hz : m.exchanges.find? e' <;> simp_all
        · exact hvalue }

end Tracks

variable [Contents ω]

omit [Contents ω] in
/-- What sending to a plain clause leads to. -/
theorem Machine.sendInPlace_eq {run : CellId → Value → Comp ω} {hidden : Segment} {c' : Chain}
    (hcode : m.codeAt Γ i entry = some (.plain run))
    (hsplit : (m.chain.modify i fun a => { a with shares := a.shares + 1 }).split i =
      .ok (hidden, c')) :
    m.sendInPlace Γ i entry command = { m.retain (.cell (m.chain.get i).handler) with
      chain := c'.modify i fun a => { a with shares := a.shares + 1 }
      exchanges := (m.exchanges.insert { command := none }).2
      counters := m.counters.bump .plainDispatches
      stack := .owning command.owned ::
        .inPlace i (m.chain.get i).handler hidden m.exchanges.next :: m.stack
      control := .eval (run (m.chain.get i).handler command.payload) } := by
  unfold Machine.sendInPlace
  simp only [hcode, Machine.hold, Machine.retain, hsplit, Machine.takeCommand, Machine.bump,
    Store.insert_fst, Store.find?_insert_self, Option.bind_eq_bind, Option.bind_some,
    Store.modify_insert]
  rfl

omit [Contents ω] in
/-- What sending to any other clause leads to. -/
theorem Machine.send_eq (hmodifier : ((m.chain.get i).clauses[entry]?).map ClauseEntry.modifier =
      some code.modifier) (hplain : code.modifier ≠ .plain) :
    m.send Γ i entry command = { m with
      chain := m.chain.modify i fun a => { a with shares := a.shares + 1 }
      exchanges := (m.exchanges.insert { command := some command }).2
      journal := .trace (.invoked command.name (m.chain.get i).label (m.chain.get i).name) ::
        m.journal
      stack := .sending i m.exchanges.next code.modifier command.name :: m.stack
      control := .request ⟨i, entry, m.exchanges.next, command.name⟩ } := by
  unfold send
  simp only [hmodifier]
  split
  · rename_i heq
    exact absurd (Option.some.inj heq) hplain
  · rfl

omit [Contents ω] in
/-- A command that is sent goes to a clause of a live installation, in the thread as in the
evaluation, or there is the same fault. -/
theorem Sound.dispatched (h : Sound Γ m l) (htracks : Tracks gone m s) {target : Target}
    {next : Value → Comp ω} (hshares : Shares m s (.invoke target command next))
    (hgone : ∀ o ∈ target.uses, ¬ gone o) :
    (∃ i entry code, m.chain.dispatch m.referent command.name target = .ok (i, entry) ∧
      s.dispatch Γ command.name target = .ok (i, code) ∧ i ∈ m.chain.live ∧
      s.handler i = (m.chain.get i).shown ∧ m.codeAt Γ i entry = some code ∧
      ((m.chain.get i).clauses[entry]?).map ClauseEntry.modifier = some code.modifier) ∨
    ∃ f, m.chain.dispatch m.referent command.name target = .error f ∧
      s.dispatch Γ command.name target = .error f := by
  obtain ⟨hfront, -, -, hready⟩ := h.of_eval hshares.control
  have hseen := htracks.seen h hfront hshares.frames
  rcases hseen.dispatch_eq command.name fun r hr => htracks.referent_eq h (hgone _ hr) with
    ⟨i, entry, code, hm, hs, hvisible, hcode⟩ | hfault
  · refine .inl ⟨i, entry, code, hm, hs, ?_⟩
    obtain ⟨hexposed, hclause⟩ := h.placed.reads.of_dispatch hm
    have hlive : i ∈ m.chain.live := h.placed.reads.live_eq ▸ hexposed
    obtain ⟨-, -, -, hzero, hfound⟩ := h.driver_waits hfront hready hlive
    obtain ⟨a, ha⟩ := Option.isSome_iff_exists.mp hfound
    obtain ⟨e, hentry⟩ := Installation.getElem?_of_clauseFor? hclause
    obtain ⟨code', hcode', hmodifier, -⟩ := h.regular.declares.codeAt hzero ha hentry
    obtain rfl : code' = code := Option.some.inj ((Machine.clause_of_codeAt hcode').symm.trans hcode)
    exact ⟨hlive, hseen.handler_of_visible hvisible, hcode', by rw [hentry, Option.map_some, hmodifier]⟩
  · exact .inr hfault

/-- Invoking a command does the same to the thread and to the evaluation, or the thread is about to
pass a request on. -/
theorem Sound.invokes (h : Sound Γ m l) (hΓ : Γ.Orderly) (htracks : Tracks gone m s)
    {target : Target} {next : Value → Comp ω} (hshares : Shares m s (.invoke target command next))
    (hreleasing : m.releasing = []) (hgone : ∀ o ∈ target.uses, ¬ gone o) :
    Advances Γ gone m s (m.fibers.resumers.length + 1) := by
  have hgood : Good Γ (m.step Γ) := h.step hΓ
  obtain ⟨hfront, hlifted, hc, hready⟩ := h.of_eval hshares.control
  have htracks₀ := htracks.push (.bind next) (.bind next)
  rcases h.dispatched htracks hshares hgone with
    ⟨i, entry, code, hdispatch, hdispatch', hlive, hhandler, hcode, hmodifier⟩ |
    ⟨f, hdispatch, hdispatch'⟩
  · have hm : m.step Γ = (m.push (.bind next)).send Γ i entry command := by
      simp only [Machine.step, hreleasing, hshares.control, Machine.eval, hdispatch]
    by_cases hplain : code.modifier = .plain
    · obtain ⟨run, rfl⟩ : ∃ run, code = .plain run := by
        cases code <;> simp_all [ClauseCode.modifier]
      obtain ⟨hexposed, -⟩ := h.driver_waits hfront hready hlive
      have hheld := h.placed.modify (i := i) (fun a => { a with shares := a.shares + 1 })
        (fun _ => rfl) (.inr fun _ => rfl)
      rw [hfront] at hheld
      obtain ⟨c', hsplit, -⟩ := hheld.hide 0 0 hexposed
      have hs : s.step Γ = ((s.push (.bind next)).push (.plain i)).goOn
          (.eval (run (m.chain.get i).handler command.payload)) := by
        have hcell : ((s.push (.bind next)).handler i).cell = (m.chain.get i).handler :=
          congrArg Handler.cell hhandler
        simp only [Evaluation.step, hshares.phase, Evaluation.eval, hdispatch',
          Evaluation.runClause, hcell]
      have hsend : (m.push (.bind next)).send Γ i entry command =
          (m.push (.bind next)).sendInPlace Γ i entry command := by
        simp only [Machine.send, Machine.push, hmodifier]
        rfl
      rw [hsend, Machine.sendInPlace_eq (m := m.push (.bind next)) hcode hsplit] at hm
      have htracks₁ : Tracks gone { m.push (.bind next) with chain := c' } (s.push (.bind next)) :=
        (htracks₀.hold i).split hsplit
      have htracks₂ := ((htracks₁.hold i).exchange h.regular.exchanges { command := none }).retain
        (.cell (m.chain.get i).handler)
      refine hgood.advances (k := m.fibers.resumers.length + 1) ?_ ?_
      · rw [hm, hs]
        exact { htracks₂ with }
      · rw [hm, hs]
        refine .eval rfl rfl ?_
        show Frame.plain i :: Frame.bind next :: s.frames = _
        rw [hshares.frames]
        rfl
    · rw [Machine.send_eq (m := m.push (.bind next)) hmodifier hplain] at hm
      have htracks₁ := (htracks.hold i).exchange h.regular.exchanges { command := some command }
      refine hgood.stutters (k := m.fibers.resumers.length) ?_ ?_ (Nat.lt_succ_self _)
      · rw [hm]
        exact { htracks₁ with }
      · rw [hm]
        refine .request rfl .invoker ?_ (Store.find?_insert_self _ _) rfl hshares.phase hdispatch' ?_
        · rw [← hcode]
          exact Machine.codeAt_hold i i entry
        · rw [hshares.frames]
          rfl
  · exact Advances.fault (Nat.succ_pos _) (by simp only [Evaluation.ending, hshares.phase])
      htracks.actions (by simp only [Machine.step, hreleasing, hshares.control, Machine.eval, hdispatch]; rfl)
      (by simp only [Machine.step, hreleasing, hshares.control, Machine.eval, hdispatch]; rfl)
      (by simp only [Evaluation.step, hshares.phase, Evaluation.eval, hdispatch']; rfl)
      (by simp only [Evaluation.step, hshares.phase, Evaluation.eval, hdispatch']; rfl)

/-! ### Requests -/

omit [Contents ω] in
/-- Where the running fiber is parked under its tower, the other parked fibers stay. -/
theorem Parks.suspended {fs fs' : Fibers (List (Activation ω))} {t : Tower ω} {ts : List (Tower ω)}
    (h : Parks fs (t.rest ++ ts)) (h' : Parks fs' (t :: ts)) (f : FiberId)
    (S : List (Activation ω)) (hf : fs.parked.find? f = some S) : fs'.parked.find? f = some S := by
  rw [Store.find?_eq_some_iff h'.wellFormed]
  refine h'.entries.mem_iff.mpr ?_
  have hmem := h.entries.mem_iff.mp (Store.mem_of_find? hf)
  rw [List.flatMap_append] at hmem
  rw [List.flatMap_cons, Tower.entries_eq, List.cons_append]
  exact List.mem_cons_of_mem _ hmem

omit [Contents ω] in
/-- Evaluating a clause that captures the context above its handler. -/
theorem Evaluation.runClause_eq (s : Evaluation ω) (hplain : code.modifier ≠ .plain) :
    s.runClause Γ i command code = { s with
      frames := .answering (Γ.handlerType (s.handler i).handlerType).answer :: beneath i s.frames
      resumptions :=
        if code.takes then
          (s.resumptions.insert (.context (Γ.handlerType (s.handler i).handlerType).answer
            (within i s.frames))).2
        else s.resumptions
      phase := .eval (code.body (s.handler i).cell command.payload s.resumptions.next) } := by
  cases code with
  | plain => exact absurd rfl hplain
  | _ => rfl

/-- The driver of the target captures the continuation and runs the clause, which is the next step
of the evaluation. -/
theorem Sound.captures (h : Sound Γ m l) (hgood : Good Γ (m.step Γ)) (htracks : Tracks gone m s)
    {r : Request} {t : Tower ω} (hr : Requested Γ m r t) (htower : l.front = t.code)
    {cur : Option FiberId} {S : List (Activation ω)} {rs : List (Resumer (List (Activation ω)))}
    {fs : Fibers (List (Activation ω))} (hresumers : m.fibers.resumers =
      ⟨t.root, cur, .driving r.target t.root :: .stepping :: S⟩ :: rs) (hrest : fs.resumers = rs)
    (hsub : ∀ f S, m.fibers.parked.find? f = some S → fs.parked.find? f = some S)
    (hsuspends : fs.Suspends t.root t.code)
    (hm : m.step Γ = ({ m with fibers := fs, stack := .stepping :: S } : Machine ω).capture Γ
      r.target t.root r) {target : Target} {y : Exchange} {next : Value → Comp ω}
    (hcode : m.codeAt Γ r.target r.entry = some code)
    (hy : m.exchanges.find? r.exchange = some y) (hcommand : y.command = some command)
    (hphase : s.phase = .eval (.invoke target command next))
    (hdispatch : s.dispatch Γ command.name target = .ok (r.target, code))
    (hframes : .bind next :: s.frames = context (t.code ++ m.waiting)) :
    Advances Γ gone m s n := by
  have hwaiting : m.waiting =
      .driving r.target t.root :: .stepping :: S ++ rs.flatMap (·.code) := by
    simp [Machine.waiting, hresumers]
  have hplaced := h.placed
  rw [htower, hwaiting] at hplaced
  rw [hwaiting] at hframes
  have hnotin : r.target ∉ drivers t.code := by
    intro hmem
    have hnodup := (List.nodup_append.mp hplaced.nodup).1
    rw [drivers_append] at hnodup
    exact (List.nodup_append.mp hnodup).2.2 _ hmem _ List.mem_cons_self rfl
  have hhandler : (s.push (.bind next)).handler r.target = (m.chain.get r.target).shown := by
    refine htracks.installed.handler_eq (.inr (h.placed.found r.target ?_))
    refine List.mem_append_left _ ?_
    rw [drivers_append]
    exact List.mem_append_right _ hr.driver
  -- the thread captures
  obtain ⟨code', y', command', c', hcode', hplain, -, hy', hcommand', hsplit, -⟩ :=
    h.capturable hr htower hresumers ""
  obtain rfl : code = code' := Option.some.inj (hcode.symm.trans hcode')
  obtain rfl : y = y' := Option.some.inj (hy.symm.trans hy')
  obtain rfl : command = command' := Option.some.inj (hcommand.symm.trans hcommand')
  obtain ⟨counters, events, hevents, -, heq⟩ := Machine.capture_eq
    (m := { m with fibers := fs, stack := .stepping :: S }) (f := t.root) hcode hplain hsplit
    hy hcommand
  rw [heq] at hm
  -- the evaluation captures
  have hs : s.step Γ = (s.push (.bind next)).runClause Γ r.target command code := by
    simp only [Evaluation.step, hphase, Evaluation.eval, hdispatch]
  have hcontext : (s.push (.bind next)).frames =
      context (t.code ++ .driving r.target t.root :: .stepping :: (S ++ rs.flatMap (·.code))) :=
    hframes
  rw [Evaluation.runClause_eq _ hplain, hhandler, hcontext, within_context hnotin,
    beneath_context hnotin] at hs
  have htracks₁ : Tracks gone { m with
      fibers := fs, exchanges := m.exchanges.modify r.exchange fun x => { x with command := none }
      chain := c' } s :=
    ((htracks.park hsub).takeCommand r.exchange).split hsplit
  have htracks₂ := htracks₁.hold r.target
  refine hgood.advances (k := fs.resumers.length + 1) ?_ ?_
  · rw [hm, hs]
    refine
      { htracks₂ with
        resumptions := ?_
        actions := ?_ }
    · cases code.takes with
      | true => exact htracks₂.resumptions.insert (.captured hsuspends)
      | false => exact htracks₂.resumptions
    · simp only [Machine.actions, List.filter_append, hevents]
      exact htracks.actions
  · rw [hm, hs]
    refine .eval rfl ?_ ?_
    · rw [← htracks.resumptions.next]
      rfl
    · simp only [Machine.waiting, hrest]
      rfl

/-- A driver passes a request on, or captures the continuation and runs the clause. -/
theorem Sound.requests (h : Sound Γ m l) (hΓ : Γ.Orderly) (htracks : Tracks gone m s)
    {r : Request} (hcontrol : m.control = .request r) (hstage : Stage Γ m s n) :
    Advances Γ gone m s n := by
  have hgood : Good Γ (m.step Γ) := h.step hΓ
  obtain ⟨t, htower, hlifted, hr⟩ := h.of_request hcontrol
  have hm : m.step Γ = m.forward Γ r := by simp only [Machine.step, hr.releasing, hcontrol]
  have hparks := h.parks
  rw [hlifted] at hparks
  obtain ⟨-, cur, rs, fs, hresumers, ⟨i, S, rfl, hS⟩, hsuspend, -, hrest, hparks'⟩ :=
    hparks.suspend hr.current
  have hsub := hparks.suspended hparks'
  have hsuspends : fs.Suspends t.root t.code :=
    Tower.suspends (hparks'.parked List.mem_cons_self)
  cases hstage with
  | @request r' target command next clause y code hm' hcarries hclause hy hcommand hphase hdispatch
      hframes =>
    obtain rfl : r = r' := Control.request.inj (hcontrol.symm.trans hm')
    obtain rfl : code = t.code := by
      rw [hr.stack] at hcarries
      refine hcarries.eq (Tower.carries fun e he => ?_)
      obtain ⟨t', ht', he'⟩ := List.mem_flatMap.mp he
      exact hparks.parked (List.mem_append_left _ ht') e he'
    unfold Machine.forward at hm
    rw [hr.stack, hsuspend] at hm
    by_cases hi : i = r.target
    · subst hi
      simp only [if_true] at hm
      exact h.captures hgood htracks hr htower hresumers hrest hsub hsuspends hm hclause hy hcommand
        hphase hdispatch hframes
    · simp only [if_neg hi] at hm
      refine hgood.stutters (k := rs.length) ?_ ?_ ?_
      · rw [hm]
        exact { htracks.park hsub with }
      · rw [hm, ← hrest]
        refine .request rfl (.driver hsuspends) hclause hy hcommand hphase hdispatch ?_
        simp [hframes, Machine.waiting, hrest, hresumers]
      · simp [hresumers]
  | _ => simp_all

end EffectHandlers
