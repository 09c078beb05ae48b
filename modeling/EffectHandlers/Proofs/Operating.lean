import EffectHandlers.Proofs.Draining
import EffectHandlers.Proofs.History
/-!
# Operations and installing correspond

## Operations do the same

Each operation that a careful program evaluates does to the thread what it does to the evaluation.
-/

namespace EffectHandlers

variable {ω : Type} {Γ : Library ω} {m m' : Machine ω} {s s' : Evaluation ω} {l : Layout ω}
  {gone : Owned → Prop} {c : Comp ω} {v : Value} {n k : Nat}

theorem Alike.refl (m : Machine ω) : Alike m m := rfl

/-- The thread and the evaluation share a context and are about to evaluate the same. -/
structure Shares (m : Machine ω) (s : Evaluation ω) (c : Comp ω) : Prop where
  control : m.control = .eval c
  phase : s.phase = .eval c
  frames : s.frames = context (m.stack ++ m.waiting)

/-! ### Steps that correspond -/

/-- How control goes on is nothing that is stored. -/
theorem Tracks.goOn (h : Tracks gone m s) (control : Control ω) (phase : Phase ω) :
    Tracks gone (m.goOn control) (s.goOn phase) := { h with }

/-- Code that starts waits in the same context. -/
theorem Tracks.push (h : Tracks gone m s) (a : Activation ω) (f : Frame ω) :
    Tracks gone (m.push a) (s.push f) := { h with }

section Steps

variable [Contents ω]

/-- The step of the thread leads to what the step of the evaluation leads to. -/
theorem Good.advances (hgood : Good Γ (m.step Γ)) (htracks : Tracks gone (m.step Γ) (s.step Γ))
    (hstage : Stage Γ (m.step Γ) (s.step Γ) k) : Advances Γ gone m s n :=
  .inr ⟨k, hgood.simulates htracks hstage rfl⟩

/-- The thread takes a step that the evaluation does not take. -/
theorem Good.stutters (hgood : Good Γ (m.step Γ)) (htracks : Tracks gone (m.step Γ) s)
    (hstage : Stage Γ (m.step Γ) s k) (hk : k < n) : Advances Γ gone m s n :=
  .inl ⟨k, hk, hgood.simulates htracks hstage rfl⟩

/-- After an operation, code goes on in a shared context. -/
theorem Good.evaluates (hgood : Good Γ (m.step Γ)) (htracks : Tracks gone m' s')
    (hframes : s'.frames = context (m'.stack ++ m'.waiting))
    (ha : Alike (m'.goOn (.eval c)) (m.step Γ)) (hs : s.step Γ = s'.goOn (.eval c)) :
    Advances Γ gone m s n := by
  refine .inr ⟨_, hs ▸ hgood.simulates (htracks.goOn _ _) (.eval rfl rfl hframes) ha⟩

/-- After an operation, a value goes on in a shared context. -/
theorem Good.returns (hgood : Good Γ (m.step Γ)) (htracks : Tracks gone m' s')
    (hframes : s'.frames = context (m'.stack ++ m'.waiting))
    (ha : Alike (m'.goOn (.ret v)) (m.step Γ)) (hs : s.step Γ = s'.goOn (.ret v)) :
    Advances Γ gone m s n := by
  refine .inr ⟨_, hs ▸ hgood.simulates (htracks.goOn _ _) (.ret rfl rfl hframes) ha⟩

/-- Both find the same fault. -/
theorem Advances.fault {f : Fault} (hn : 0 < n) (hending : s.ending = none)
    (hactions : s.actions = m.actions) (hcontrol : (m.step Γ).control = .fault f)
    (hm : (m.step Γ).actions = m.actions) (hphase : (s.step Γ).phase = .failed f)
    (hs : (s.step Γ).actions = s.actions) : Advances Γ gone m s n :=
  .inl ⟨0, hn, .faulting hcontrol hphase hs hending (hactions.trans hm.symm)⟩

end Steps

namespace Tracks

/-- The same content is read of a cell that was not dropped. -/
theorem content_eq [Contents ω] (h : Tracks gone m s) {c : CellId} (hc : ¬ gone (.cell c)) :
    (s.cells.find? c).getD default = m.content c := by
  unfold Machine.content
  rcases h.cells.find? hc with ⟨hm, hs⟩ | ⟨a, b, hm, hs, hab⟩
  · simp [hm, hs]
  · simp [hm, hs, hab]

/-- References that were not dropped lead to the same. -/
theorem find?_reference (h : Tracks gone m s) {r : ReferenceId} (hr : ¬ gone (.reference r)) :
    s.references.find? r = m.references.find? r := by
  rcases h.references.find? hr with ⟨hm, hs⟩ | ⟨a, b, hm, hs, hab⟩
  · rw [hm, hs]
  · rw [hm, hs, hab]

/-- A reference that was not dropped leads to an installation that shows the handler. -/
theorem referent_eq (h : Tracks gone m s) (hsound : Sound Γ m l) {r : ReferenceId}
    (hr : ¬ gone (.reference r)) : s.referent r = m.referent r ∧
      s.handler (m.referent r) = (m.chain.get (m.referent r)).shown := by
  have hfind := h.find?_reference hr
  refine ⟨by rw [Evaluation.referent, Machine.referent, hfind], ?_⟩
  refine h.installed.handler_eq ?_
  unfold Machine.referent
  cases hi : m.references.find? r with
  | none => exact .inl rfl
  | some i =>
    refine .inr (hsound.covers.found (L := l.ledger m) ?_)
    exact List.mem_append_right _ (List.mem_map.mpr ⟨_, Store.mem_of_find? hi, rfl⟩)

/-- A tail resume waits in both, or in none. -/
theorem isSome_pending (h : Tracks gone m s) : s.pending.isSome = m.pending.isSome := by
  have hpending := h.pending
  cases hm : m.pending <;> cases hs : s.pending <;> rw [hm, hs] at hpending <;>
    first | rfl | cases hpending

/-- Labels that can be chosen are the same. -/
theorem isIssued_eq (h : Tracks gone m s) (label : Int) :
    s.isIssued label = m.chain.isIssued label := by
  rw [Evaluation.isIssued, Chain.isIssued, h.nextLabel]

/-- The chain of a thread is seen in the context of the evaluation. -/
theorem seen (h : Tracks gone m s) (hsound : Sound Γ m l) (hfront : l.front = m.stack)
    (hframes : s.frames = context (m.stack ++ m.waiting)) : m.chain.Seen Γ s := by
  have hplaced := hsound.placed
  rw [hfront] at hplaced
  have hvisible : visible s.frames = exposed [] (m.stack ++ m.waiting) := by
    rw [hframes, visible_context]
  exact
    { reads := hvisible ▸ hplaced.reads
      found := fun i hi => hplaced.found i (Placed.exposed_subset _ _ (hvisible ▸ hi))
      handler := fun i hi => h.installed.handler_eq hi
      declares := hsound.regular.declares }

end Tracks

/-- A question that does not ask for the pool gets the same answer. -/
theorem Tracks.answer (h : Tracks gone m s) (hsound : Sound Γ m l) (hfront : l.front = m.stack)
    (hready : Ready m.stack) (hframes : s.frames = context (m.stack ++ m.waiting)) {q : Query}
    (hgone : ∀ o ∈ q.uses, ¬ gone o) (hpool : q ≠ .pooledStacks) :
    ∃ s', s.answer? q = some ((m.answer q).1, s') ∧ Tracks gone (m.answer q).2 s' ∧
      s'.frames = s.frames ∧ (m.answer q).2.stack = m.stack ∧
      (m.answer q).2.waiting = m.waiting := by
  have hseen := h.seen hsound hfront hframes
  cases q with
  | pooledStacks => exact absurd rfl hpool
  | depth =>
    refine ⟨s, ?_, h, rfl, rfl, rfl⟩
    simp only [Machine.answer, Evaluation.answer?, Chain.depth, hseen.reads.live_eq]
  | inFiber =>
    refine ⟨s, ?_, h, rfl, rfl, rfl⟩
    have hany := any_handling_context (m.stack ++ m.waiting)
    rw [← hframes, drivers_append, hready.drivers_eq, List.nil_append] at hany
    simp only [Machine.answer, Evaluation.answer?, hany]
    have hwaiters := hsound.parks.waiters
    unfold Machine.waiting
    generalize m.fibers.current = current at hwaiters ⊢
    generalize m.fibers.resumers = resumers at hwaiters ⊢
    cases hwaiters with
    | native => rfl
    | @fiber i f cur rs code hcode _ =>
      obtain ⟨S, rfl, -⟩ := hcode
      simp [drivers_append, drivers_cons, Activation.driver?]
  | isPending =>
    refine ⟨s, ?_, h, rfl, rfl, rfl⟩
    simp only [Machine.answer, Evaluation.answer?, h.isSome_pending]
  | freshLabel =>
    refine ⟨{ s with nextLabel := s.nextLabel - 1 }, ?_, ?_, rfl, rfl, rfl⟩
    · simp only [Machine.answer, Evaluation.answer?, Chain.freshLabel, h.nextLabel]
    · exact
        { h with
          installed := h.installed.mono rfl fun i a ha => ⟨a, ha, rfl⟩
          nextLabel := by simp only [Machine.answer, Chain.freshLabel, h.nextLabel] }
  | isIssued label =>
    refine ⟨s, ?_, h, rfl, rfl, rfl⟩
    simp only [Machine.answer, Evaluation.answer?, h.isIssued_eq]
  | isInstalled r =>
    refine ⟨s, ?_, h, rfl, rfl, rfl⟩
    obtain ⟨hr, hi⟩ := h.referent_eq hsound (hgone (.reference r) (by simp [Query.uses]))
    simp only [Machine.answer, Evaluation.answer?, hr, hseen.isInstalled_eq hi]
  | labelOf r =>
    refine ⟨s, ?_, h, rfl, rfl, rfl⟩
    obtain ⟨hr, hi⟩ := h.referent_eq hsound (hgone (.reference r) (by simp [Query.uses]))
    simp only [Machine.answer, Evaluation.answer?, hr, hi, Installation.shown]
  | isValid r =>
    refine ⟨s, ?_, h, rfl, rfl, rfl⟩
    simp only [Machine.answer, Evaluation.answer?,
      h.resumptions.contains_eq (hgone (.resumption r) (by simp [Query.uses]))]

/-! ### Changes of what is stored -/

namespace Tracks

theorem record (h : Tracks gone m s) (e : Event) : Tracks gone (m.record e)
    { s with actions := if e.isAction then e :: s.actions else s.actions } :=
  { h with actions := by rw [m.actions_record, h.actions] }

theorem alloc (h : Tracks gone m s) (content : ω) :
    Tracks gone { m with cells := (m.cells.insert ⟨content, 1⟩).2 }
      { s with cells := (s.cells.insert content).2 } :=
  { h with cells := h.cells.insert rfl }

theorem write (h : Tracks gone m s) (c : CellId) (content : ω) :
    Tracks gone { m with cells := m.cells.modify c fun x => { x with content } }
      { s with cells := s.cells.modify c fun _ => content } :=
  { h with cells := h.cells.modify _ _ fun _ _ _ => rfl }

/-- Shares do not show. -/
theorem retain (h : Tracks gone m s) (o : Owned) : Tracks gone (m.retain o) s := by
  cases o with
  | cell c => exact { h with cells := h.cells.modify_left _ fun _ _ hab => hab }
  | _ => exact h

/-- Shares of an installation do not show. -/
theorem hold (h : Tracks gone m s) (i : InstallationId) : Tracks gone (m.hold i) s :=
  { h with installed := h.installed.modify (fun a => { a with shares := a.shares + 1 }) (fun _ => rfl) rfl }

theorem closure (h : Tracks gone m s) (x : Closure ω) :
    Tracks gone { m with closures := (m.closures.insert x).2 }
      { s with closures := (s.closures.insert x.body).2 } :=
  { h with closures := h.closures.insert rfl }

theorem useClosure (h : Tracks gone m s) (f : ClosureId) :
    Tracks gone { m with closures := m.closures.erase f }
      { s with closures := s.closures.erase f } :=
  { h with closures := h.closures.erase }

theorem refer (h : Tracks gone m s) (i : InstallationId) :
    Tracks gone { m with references := (m.references.insert i).2 }
      { s with references := (s.references.insert i).2 } :=
  { h with references := h.references.insert rfl }

theorem skipReference (h : Tracks gone m s) :
    Tracks gone { m with references := { m.references with next := m.references.next + 1 } }
      { s with references := { s.references with next := s.references.next + 1 } } :=
  { h with references := h.references.skip }

theorem skipResumption (h : Tracks gone m s) : Tracks gone m.unusable.2 s.skipResumption :=
  { h with resumptions := h.resumptions.skip }

theorem keep (h : Tracks gone m s) {k : Cont ω} {κ : Continuation ω} (hk : k.Stands m.fibers κ) :
    Tracks gone { m with resumptions := (m.resumptions.insert k).2 }
      { s with resumptions := (s.resumptions.insert κ).2 } :=
  { h with resumptions := h.resumptions.insert hk }

theorem useResumption (h : Tracks gone m s) (r : ResumptionId) :
    Tracks gone { m with resumptions := m.resumptions.erase r } (s.taken r) :=
  { h with resumptions := h.resumptions.erase }

end Tracks

/-! ### Continuations that get their value -/

/-- A continuation holds the value that it was armed with. -/
theorem Sound.holds_arm (h : Sound Γ m l) {k : Cont ω} {κ : Continuation ω} (hk : k ∈ m.conts)
    (hstands : k.Stands m.fibers κ) (v : Value) :
    (k.arm v).Holds m.fibers (k.armExchanges m.exchanges v) κ v := by
  cases hstands with
  | function => exact ⟨.function, rfl⟩
  | captured hsuspends =>
    refine ⟨.captured hsuspends, ?_⟩
    obtain ⟨y, hy⟩ := Option.isSome_iff_exists.mp (h.exchange_found hk rfl)
    simp [Cont.arm, Cont.armExchanges, Cont.value?, Store.find?_modify, hy]

/-- At most one continuation belongs to an exchange. -/
theorem Machine.Tidy.exchange_ne (h : m.Tidy) {r : ResumptionId} {k k' : Cont ω}
    (hk : m.resumptions.find? r = some k) (hk' : k' ∈ m.armed) {e : ExchangeId}
    (he : k.exchange? = some e) : k'.exchange? ≠ some e := by
  intro he'
  have hstored : e ∈ m.accounts.stored := by
    refine List.mem_filterMap.mpr ⟨k, List.mem_map.mpr ⟨(r, k), Store.mem_of_find? hk, rfl⟩, he⟩
  have harmed : e ∈ m.armed.filterMap Cont.exchange? := List.mem_filterMap.mpr ⟨k', hk', he'⟩
  exact (List.nodup_append.mp h.accounts.held).2.2 e hstored e harmed rfl

/-- Arming one continuation does not touch the value of another. -/
theorem Cont.Holds.arm {fs : Fibers (List (Activation ω))} {x : Store Exchange} {k k' : Cont ω}
    {κ : Continuation ω} {w : Value} (h : k'.Holds fs x κ w) (v : Value)
    (hother : ∀ e, k.exchange? = some e → k'.exchange? ≠ some e) :
    k'.Holds fs (k.armExchanges x v) κ w where
  stands := h.stands
  value := by
    have hvalue := h.value
    cases k with
    | function => exact hvalue
    | captured answer f segment e =>
      have hne := hother e rfl
      cases k' with
      | function => exact hvalue
      | captured answer' f' segment' e' =>
        have hne' : e' ≠ e := fun heq => hne (by rw [heq]; rfl)
        simpa [Cont.value?, Cont.armExchanges, Store.find?_modify, hne'] using hvalue

/-- A continuation is taken out of its resumption and armed. -/
theorem Tracks.arm (h : Tracks gone m s) (htidy : m.Tidy) {r : ResumptionId} {k : Cont ω}
    (hk : m.resumptions.find? r = some k) (v : Value) :
    Tracks gone { m with
      resumptions := m.resumptions.erase r, exchanges := k.armExchanges m.exchanges v }
      (s.taken r) where
  cells := h.cells
  closures := h.closures
  references := h.references
  resumptions := h.resumptions.erase
  pending := Option.Rel.weaken h.pending fun k' p (hk' : m.pending = some k') hholds =>
    hholds.arm v fun e he => htidy.exchange_ne hk (List.mem_append_left _ (by simp [hk'])) he
  installed := h.installed
  nextLabel := h.nextLabel
  declared := h.declared
  actions := h.actions
  room := h.room

end EffectHandlers

/-!
## Installing corresponds

A handler that is installed on the chain, with a fiber for its body, shows a handler that is
installed in the context. Both get the same label, or find the same fault.
-/

namespace EffectHandlers

variable {ω : Type} {Γ : Library ω} {m m' : Machine ω} {s s' : Evaluation ω} {l : Layout ω}
  {gone : Owned → Prop} {n : Nat}

namespace Alike

theorem trace (m : Machine ω) {e : TraceEvent} (he : (Event.trace e).isAction = false) :
    Alike m (m.trace e) := by
  simp only [Alike, Machine.bare, Machine.trace, Machine.record, Machine.actions,
    List.filter_cons, he, Bool.false_eq_true, if_false]

theorem warn (m : Machine ω) (ws : List SettingsWarning) : Alike m (m.warn ws) := by
  unfold Machine.warn
  induction ws generalizing m with
  | nil => rfl
  | cons w ws ih => exact (Alike.trace m rfl).trans (ih _)

end Alike

/-! ### Labels, declarations and stacks -/

namespace Tracks

/-- The same label is chosen. -/
theorem chooseLabel (h : Tracks gone m s) (label : Option Int) :
    (∃ n nextLabel, m.chooseLabel label = (.ok n, { m with chain := { m.chain with nextLabel } }) ∧
      s.chooseLabel label = .ok (n, nextLabel)) ∨
    ∃ f, m.chooseLabel label = (.error f, m) ∧ s.chooseLabel label = .error f := by
  cases label with
  | none =>
    refine .inl ⟨m.chain.nextLabel, m.chain.nextLabel - 1, rfl, ?_⟩
    rw [Evaluation.chooseLabel, h.nextLabel]
  | some label =>
    simp only [Machine.chooseLabel, Chain.checkLabel, Evaluation.chooseLabel, h.isIssued_eq]
    split
    · exact .inr ⟨_, rfl, rfl⟩
    · split
      · exact .inl ⟨label, m.chain.nextLabel, rfl, by rw [h.nextLabel]⟩
      · exact .inr ⟨_, rfl, rfl⟩

/-- A handler type is declared in the same way. -/
theorem declare (h : Tracks gone m s) (name : String) (x : HandlerType ω) :
    (∃ m' declared, m.declare name x = (.ok (), m') ∧ Tracks gone m' { s with declared } ∧
      Alike { m with declared } m' ∧ s.declare name x = .ok declared) ∨
    ∃ f, m.declare name x = (.error f, m) ∧ s.declare name x = .error f := by
  unfold Machine.declare Evaluation.declare
  rw [h.declared]
  split
  · exact .inl ⟨m, m.declared, rfl, { h with declared := rfl }, rfl, rfl⟩
  · cases HandlerType.duplicate? [] (x.clauses.map (·.command)) with
    | some command => exact .inr ⟨_, rfl, rfl⟩
    | none =>
      have halike := Alike.trace { m with declared := name :: m.declared }
        (e := .declared name x.clauses.length) rfl
      refine .inl ⟨_, name :: m.declared, rfl, Tracks.alike ?_ halike, halike, rfl⟩
      exact { h with declared := rfl }

/-- There is always a stack. -/
theorem acquireStack (h : Tracks gone m s) (hsize : m.stackSize + StackPool.margin < Word.count) :
    ∃ m', m.acquireStack = (.ok (), m') ∧ Alike m m' := by
  have hpool : Alike m { m with pool := m.pool.acquire.2.1 } := by
    simp only [Alike, Machine.bare, StackPool.use_acquire]
    rfl
  have halike := hpool.trans (Alike.warn { m with pool := m.pool.acquire.2.1 } m.pool.acquire.2.2)
  have hroom : ∀ why, m.pool.acquire.1 ≠ .failed why := by
    have hstack := h.room
    unfold Machine.stackSize at hsize hstack
    intro why
    unfold StackPool.acquire StackPool.allocate
    split
    · simp
    · simp only [if_neg (Nat.not_le.mpr hsize), if_neg (Nat.not_le.mpr hstack)]
      simp
  unfold Machine.acquireStack
  generalize m.pool.acquire = acquired at halike hroom
  obtain ⟨outcome, pool, warnings⟩ := acquired
  cases outcome with
  | reused => exact ⟨_, rfl, halike⟩
  | fresh => exact ⟨_, rfl, halike⟩
  | failed why => exact absurd rfl (hroom why)

/-- More parked fibers do not matter. -/
theorem park (h : Tracks gone m s) {fs : Fibers (List (Activation ω))}
    (hsub : ∀ f S, m.fibers.parked.find? f = some S → fs.parked.find? f = some S) :
    Tracks gone { m with fibers := fs } s :=
  { h with
    resumptions := h.resumptions.mono (fun _ hg => hg) fun _ _ _ _ hk => hk.mono hsub
    pending := Option.Rel.weaken h.pending fun _ _ _ hk => ⟨hk.stands.mono hsub, hk.value⟩ }

/-- A new handler. -/
theorem create (h : Tracks gone m s) (hpos : 0 < m.chain.installations.next) (a : Installation) :
    Tracks gone { m with chain := (m.chain.create a).2.push m.chain.installations.next }
      { s with installed := (s.installed.insert a.shown).2 } := by
  have hcreated : Installs (m.chain.create a).2 (s.installed.insert a.shown).2 :=
    h.installed.create hpos a rfl
  exact
    { h with
      installed := hcreated.modify (fun x => { x with below := some m.chain.top }) (fun _ => rfl)
        rfl }

end Tracks

/-! ### Fibers of bodies -/

/-- A new fiber is resumed at once; the others stay parked. -/
theorem Fibers.started {fs fs' : Fibers (List (Activation ω))} (hwf : fs.parked.WellFormed)
    {body code code' : List (Activation ω)}
    (hfs : (fs.create body).2.resume? (fs.create body).1 code = some (code', fs')) :
    code' = body ∧ fs'.resumers = ⟨fs.parked.next, fs.current, code⟩ :: fs.resumers ∧
      ∀ f S, fs.parked.find? f = some S → fs'.parked.find? f = some S := by
  have hwf' := Store.wellFormed_insert hwf body
  simp only [create, resume?, Store.insert_fst, Store.find?_insert_self, Option.map_some,
    Option.some.injEq, Prod.mk.injEq] at hfs
  obtain ⟨rfl, rfl⟩ := hfs
  refine ⟨rfl, rfl, fun f S hf => ?_⟩
  have hne : f ≠ fs.parked.next := Nat.ne_of_lt (Store.lt_next hwf hf)
  rw [Store.find?_erase hwf', if_neg hne, Store.find?_insert, if_neg hne]
  exact hf

variable [Contents ω]

omit [Contents ω] in
/-- What resuming a parked fiber leads to. -/
theorem Machine.enter_eq {i : InstallationId} {f : FiberId} {fs fs' : Fibers (List (Activation ω))}
    {S code : List (Activation ω)} (hfibers : m.fibers = fs) (hstack : m.stack = S)
    (hresume : fs.resume? f (.driving i f :: S) = some (code, fs')) :
    m.enter i f = { m with fibers := fs', stack := code, control := .wake } := by
  unfold enter
  rw [hfibers, hstack, hresume]

/-- The new installation, held by the chain, by its driver and by the reference of its body. -/
def Installing.installation (Γ : Library ω) (i : Installing) (label : Int) : Installation where
  label := label
  below := none
  handler := i.handler
  handlerType := i.handlerType
  name := i.handlerType
  clauses := (Γ.handlerType i.handlerType).entries
  shares := 3

omit [Contents ω] in
/-- What an installation leads to, where a label is chosen, the handler type is declared and a
stack is acquired. -/
theorem Machine.install_eq {i : Installing} {body : ReferenceId → Comp ω} {label : Int}
    {m₁ m₂ m₃ : Machine ω} {fs : Fibers (List (Activation ω))}
    (hlabel : m.chooseLabel i.label = (.ok label, m₁))
    (hdeclare : m₁.declare i.handlerType (Γ.handlerType i.handlerType) = (.ok (), m₂))
    (hacquire : m₂.acquireStack = (.ok (), m₃))
    (hfs : (m₃.fibers.create [.start (body m₃.references.next),
        .owning (i.owned ++ [.reference m₃.references.next])]).2.resume? m₃.fibers.parked.next
        (.driving m₃.chain.installations.next m₃.fibers.parked.next :: .stepping :: m₃.stack) =
      some ([.start (body m₃.references.next),
        .owning (i.owned ++ [.reference m₃.references.next])], fs)) :
    m.install Γ i body = { m₃ with
      chain := (m₃.chain.create (i.installation Γ label)).2.push m₃.chain.installations.next
      references := (m₃.references.insert m₃.chain.installations.next).2
      fibers := fs
      counters := m₃.counters.bump .handles
      journal := .trace (.installed label i.handlerType) :: m₃.journal
      stack := [.start (body m₃.references.next),
        .owning (i.owned ++ [.reference m₃.references.next])]
      control := .wake } := by
  unfold install
  simp only [hlabel, hdeclare, hacquire]
  exact enter_eq rfl rfl hfs

omit [Contents ω] in
/-- What an installation leads to in an evaluation. -/
theorem Evaluation.install_eq {i : Installing} {body : ReferenceId → Comp ω} {label nextLabel : Int}
    {declared : List String} (hlabel : s.chooseLabel i.label = .ok (label, nextLabel))
    (hdeclare : s.declare i.handlerType (Γ.handlerType i.handlerType) = .ok declared) :
    s.install Γ i body = { s with
      frames := .handling s.installed.next :: s.frames
      installed := (s.installed.insert ⟨label, i.handlerType, i.handlerType, i.handler⟩).2
      references := (s.references.insert s.installed.next).2
      nextLabel, declared
      phase := .eval (body s.references.next) } := by
  unfold install
  simp only [hlabel, hdeclare]
  rfl

/-- Installing a handler does the same to the thread and to the evaluation. -/
theorem Sound.handles (h : Sound Γ m l) (hΓ : Γ.Orderly) (htracks : Tracks gone m s)
    {i : Installing} {body : ReferenceId → Comp ω} {next : Value → Comp ω}
    (hshares : Shares m s (.handle i body next)) (hreleasing : m.releasing = []) (hn : 0 < n) :
    Advances Γ gone m s n := by
  have hgood : Good Γ (m.step Γ) := h.step hΓ
  have hm : m.step Γ = (m.push (.bind next)).install Γ i body := by
    simp only [Machine.step, hreleasing, hshares.control, Machine.eval]
  have hs : s.step Γ = (s.push (.bind next)).install Γ i body := by
    simp only [Evaluation.step, hshares.phase, Evaluation.eval]
  have hfault : ∀ {f : Fault}, (m.step Γ).control = .fault f → (m.step Γ).actions = m.actions →
      (s.step Γ).phase = .failed f → (s.step Γ).actions = s.actions → Advances Γ gone m s n :=
    Advances.fault hn (by simp only [Evaluation.ending, hshares.phase]) htracks.actions
  have htracks₀ := htracks.push (.bind next) (.bind next)
  rcases htracks₀.chooseLabel i.label with ⟨label, nextLabel, hlabel, hlabel'⟩ | ⟨f, hlabel, hlabel'⟩
  · have htracks₁ : Tracks gone
        { m.push (.bind next) with chain := { (m.push (.bind next)).chain with nextLabel } }
        { s.push (.bind next) with nextLabel } :=
      { htracks₀ with
        installed := htracks₀.installed.mono rfl fun i a ha => ⟨a, ha, rfl⟩
        nextLabel := rfl }
    rcases htracks₁.declare i.handlerType (Γ.handlerType i.handlerType) with
      ⟨m₂, declared, hdeclare, htracks₂, halike₂, hdeclare'⟩ | ⟨f, hdeclare, hdeclare'⟩
    · have hsize : m₂.stackSize + StackPool.margin < Word.count := by
        obtain ⟨-, -, -, -, -, -, -, -, -, hstackSize, -⟩ := halike₂.fields
        rw [hstackSize]
        exact h.regular.stackSize
      obtain ⟨m₃, hacquire, halike₃⟩ := htracks₂.acquireStack hsize
      have htracks₃ := htracks₂.alike halike₃
      obtain ⟨hchain, hfibers, -, -, -, -, -, -, -, -, -, hstack, -⟩ := (halike₂.trans halike₃).fields
      obtain ⟨-, -, hc, hready⟩ := h.of_eval hshares.control
      have hparks : Parks m₃.fibers (l.lifted ++ l.towers) := hfibers ▸ h.parks
      obtain ⟨fs, hfs, -⟩ := hparks.start (i := m₃.chain.installations.next)
        [.start (body m₃.references.next), .owning (i.owned ++ [.reference m₃.references.next])]
        ⟨m₃.stack, rfl, hstack ▸ .inner hc.2 hready⟩
      obtain ⟨-, hresumers, hsub⟩ := Fibers.started hparks.wellFormed hfs
      rw [Machine.install_eq hlabel hdeclare hacquire hfs] at hm
      rw [Evaluation.install_eq hlabel' hdeclare', htracks₃.installed.next, htracks₃.references.next] at hs
      have hpos : 0 < m₃.chain.installations.next := hchain ▸ h.placed.positive
      have htracks₄ := ((htracks₃.create hpos (i.installation Γ label)).refer
        m₃.chain.installations.next).park hsub
      have hframes : Frame.handling m₃.chain.installations.next :: (s.push (.bind next)).frames =
          context ([.start (body m₃.references.next),
            .owning (i.owned ++ [.reference m₃.references.next])] ++
              fs.resumers.flatMap (·.code)) := by
        simp only [hresumers, hfibers, hstack, Evaluation.push, hshares.frames, List.flatMap_cons]
        rfl
      refine hgood.advances (k := fs.resumers.length + 2) ?_ ?_
      · rw [hm, hs]
        exact { htracks₄ with }
      · rw [hm, hs]
        exact .start rfl rfl rfl hframes
    · unfold Machine.install at hm
      unfold Evaluation.install at hs
      replace hdeclare' : (s.push (.bind next)).declare i.handlerType
          (Γ.handlerType i.handlerType) = .error f := hdeclare'
      simp only [hlabel, hdeclare] at hm
      simp only [hlabel', hdeclare'] at hs
      exact hfault (by rw [hm]; rfl) (by rw [hm]; rfl) (by rw [hs]; rfl) (by rw [hs]; rfl)
  · unfold Machine.install at hm
    unfold Evaluation.install at hs
    simp only [hlabel] at hm
    simp only [hlabel'] at hs
    exact hfault (by rw [hm]; rfl) (by rw [hm]; rfl) (by rw [hs]; rfl) (by rw [hs]; rfl)

end EffectHandlers
