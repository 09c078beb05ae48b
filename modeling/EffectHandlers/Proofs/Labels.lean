import EffectHandlers.Proofs.Moving
import EffectHandlers.Proofs.Profiles
/-!
# Fresh labels

Labels are handed out by counting down from -1. No step brings the counter back, so the labels that
were handed out in a run are the ones between the counter and zero: no fresh label was seen before,
and an explicit label is accepted if it is positive or lies above the counter.
-/

namespace EffectHandlers

variable {ω : Type} {Γ : Library ω} {m m₀ : Machine ω} {x : Installing}
  {body : ReferenceId → Comp ω} {label : Int} {n : Nat}

namespace Chain

variable {c c' : Chain} {i : InstallationId} {s : Segment}

theorem nextLabel_split (h : c.split i = .ok (s, c')) : c'.nextLabel = c.nextLabel := by
  unfold split at h
  split at h
  · split at h
    · cases h
    · obtain ⟨-, rfl⟩ := Prod.mk.inj (Except.ok.inj h)
      rfl
  · cases h

theorem nextLabel_pop? (h : c.pop? = some (i, c')) : c'.nextLabel = c.nextLabel := by
  obtain ⟨b, -, heq⟩ := Option.map_eq_some_iff.mp h
  obtain ⟨-, rfl⟩ := Prod.mk.inj heq
  rfl

end Chain

/-- Something other than its label stood in the way of an installation. -/
inductive Control.IsHindrance (x : Installing) : Control ω → Prop
  | duplicate (command : String) : IsHindrance x (.fault (.duplicateClause x.handlerType command))
  | outOfMemory : IsHindrance x (.fault StackPool.outOfMemory)
  | overflow : IsHindrance x (.unwind StackPool.sizeOverflow)

namespace Machine

/-! ### Installations -/

/-- Nothing but its label can stand in the way of the installation: its handler type declares no
command twice, and there is a stack for its body. -/
def Allows (Γ : Library ω) (m : Machine ω) (x : Installing) : Prop :=
  (x.handlerType ∈ m.declared ∨
    HandlerType.duplicate? [] ((Γ.handlerType x.handlerType).clauses.map (·.command)) = none) ∧
  ∀ why, m.pool.acquire.1 ≠ .failed why

/-- An installation whose label is refused does nothing. -/
theorem install_of_refused {f : Fault} (h : m.chooseLabel x.label = (.error f, m)) :
    m.install Γ x body = m.goOn (.fault f) := by
  simp only [install, h]

/-- The counter is not touched once the label is chosen. -/
theorem nextLabel_install (body : ReferenceId → Comp ω) {m₁ : Machine ω}
    (h : m.chooseLabel x.label = (.ok label, m₁)) :
    (m.install Γ x body).chain.nextLabel = m₁.chain.nextLabel := by
  obtain ⟨declared, journal, hdeclared⟩ :=
    exists_declare_eq m₁ x.handlerType (Γ.handlerType x.handlerType)
  simp only [install, h]
  generalize m₁.declare x.handlerType (Γ.handlerType x.handlerType) = result at hdeclared
  obtain ⟨outcome, m₂⟩ := result
  obtain rfl : m₂ = _ := hdeclared
  cases outcome with
  | error f => rfl
  | ok =>
    simp only
    obtain ⟨pool, counters, journal', hacquired⟩ :=
      exists_acquireStack_eq ({ m₁ with declared, journal } : Machine ω)
    generalize ({ m₁ with declared, journal } : Machine ω).acquireStack = result at hacquired
    obtain ⟨outcome, m₃⟩ := result
    obtain rfl : m₃ = _ := hacquired
    cases outcome with
    | error why => cases why <;> rfl
    | ok =>
      simp only [(Moves.enter_leaves _ _ _).1]
      rfl

/-! ### The counter -/

/-- The next step hands out this label: to the code that asks for one, or to an installation that
comes without one. -/
def HandsOut (m : Machine ω) (label : Int) : Prop :=
  label = m.chain.nextLabel ∧ ((∃ next, m.Evaluates (.ask .freshLabel next)) ∨
    ∃ x body next, m.Evaluates (.handle x body next) ∧ x.label = none)

theorem nextLabel_enter (m : Machine ω) (i : InstallationId) (f : FiberId) :
    (m.enter i f).chain.nextLabel = m.chain.nextLabel := by
  unfold enter
  split <;> rfl

theorem nextLabel_settle (m : Machine ω) (answer : String) (v : Value) (kept : List Holding) :
    (m.settle answer v kept).chain.nextLabel = m.chain.nextLabel := by
  rw [Moves.chain_settle]

theorem nextLabel_sendInPlace (m : Machine ω) (i : InstallationId) (position : Nat)
    (command : Command) :
    (m.sendInPlace Γ i position command).chain.nextLabel = m.chain.nextLabel := by
  rcases sendInPlace_cases (Γ := Γ) m i position command with
    ⟨text, heq⟩ | ⟨run, -, heq⟩ | ⟨run, hidden, c', -, hsplit, heq⟩
  · rw [heq]
    rfl
  · rw [heq]
    rfl
  · have hsame := Chain.nextLabel_split hsplit
    rw [heq]
    exact hsame

theorem nextLabel_capture (m : Machine ω) (i : InstallationId) (f : FiberId) (r : Request) :
    (m.capture Γ i f r).chain.nextLabel = m.chain.nextLabel := by
  rcases capture_cases (Γ := Γ) m i f r with ⟨text, heq⟩ | heq | ⟨code, s, c', -, hsplit, heq⟩
  · rw [heq]
    rfl
  · rw [heq]
    rfl
  · have hsame := Chain.nextLabel_split hsplit
    rcases heq with ⟨counters, journal, heq⟩ | ⟨y, command, counters, journal, -, -, heq⟩ <;>
      · rw [heq]
        exact hsame

theorem nextLabel_finish (m : Machine ω) (i : InstallationId) (v : Value) :
    (m.finish Γ i v).chain.nextLabel = m.chain.nextLabel := by
  unfold finish
  split
  · rfl
  · rename_i top c' hpop
    have hsame := Chain.nextLabel_pop? hpop
    simp only
    split <;> exact hsame

theorem nextLabel_forward (m : Machine ω) (r : Request) :
    (m.forward Γ r).chain.nextLabel = m.chain.nextLabel := by
  unfold forward
  split
  · rfl
  · simp only
    split
    · split
      · exact nextLabel_capture ..
      · rfl
    · rfl

theorem nextLabel_give (m : Machine ω) (v : Value) :
    (m.give Γ v).chain.nextLabel = m.chain.nextLabel := by
  unfold give
  split
  · split
    · rfl
    · rename_i m' hback
      obtain ⟨⟨S, fs⟩, -, rfl⟩ := Option.map_eq_some_iff.mp hback
      obtain ⟨journal, hwarn⟩ := exists_warn_eq { m with
        fibers := fs, stack := S, control := .ret v, pool := m.pool.giveBack.1 } m.pool.giveBack.2
      exact congrArg (fun m => m.chain.nextLabel) hwarn
  · rename_i a S hstack
    cases a with
    | driving i f => exact nextLabel_finish ..
    | returning i answer | calling answer => exact nextLabel_settle ..
    | looping body next =>
      simp only
      split <;> rfl
    | _ => rfl

theorem nextLabel_deliver (m : Machine ω) (s : Step (Cont ω) Value) :
    (m.deliver s).chain.nextLabel = m.chain.nextLabel := by
  unfold deliver
  split
  · cases s with
    | done v => rfl
    | tail k =>
      cases k with
      | captured answer f s e => exact nextLabel_enter ..
      | function answer f arg => cases arg <;> rfl
  · rfl

theorem nextLabel_wake (m : Machine ω) : m.wake.chain.nextLabel = m.chain.nextLabel := by
  unfold wake
  split
  · rfl
  · exact nextLabel_enter ..
  · split
    · rfl
    · split <;> rfl
  · rfl

theorem nextLabel_unwind (m : Machine ω) (message : String) :
    (m.unwind message).chain.nextLabel = m.chain.nextLabel := by
  unfold unwind
  split
  · cases hback : m.handBack (.unwind message) with
    | none => rfl
    | some m' =>
      obtain ⟨⟨S, fs⟩, -, rfl⟩ := Option.map_eq_some_iff.mp hback
      rfl
  · rfl
  · rfl

variable [Contents ω]

theorem nextLabel_releaseOne (m : Machine ω) (y : Holding) :
    (m.releaseOne y).chain.nextLabel = m.chain.nextLabel := by
  cases y with
  | asset o =>
    cases o with
    | cell c =>
      simp only [releaseOne, releaseAsset, releaseCell]
      split
      · rfl
      · split <;> rfl
    | notice n => rfl
    | _ =>
      simp only [releaseOne, releaseAsset]
      split <;> rfl
  | installation i =>
    simp only [releaseOne, releaseInstallation]
    split
    · rfl
    · split <;> rfl
  | _ =>
    simp only [releaseOne]
    split <;> rfl

/-- No operation but two touches the counter. -/
theorem nextLabel_eval {c : Comp ω} (hhandle : ∀ x body next, c ≠ .handle x body next)
    (hask : ∀ next, c ≠ .ask .freshLabel next) :
    (m.eval Γ c).chain.nextLabel = m.chain.nextLabel := by
  cases c with
  | handle x body next => exact absurd rfl (hhandle x body next)
  | ask q next =>
    cases q with
    | freshLabel => exact absurd rfl (hask next)
    | _ => rfl
  | retain o next => cases o <;> rfl
  | apply f arg next =>
    simp only [eval, applyClosure]
    split <;> rfl
  | invoke target command next =>
    simp only [eval]
    split
    · rfl
    · unfold send
      simp only
      split
      · exact nextLabel_sendInPlace ..
      · rfl
  | find search next | copy r next | function answer f next | take r next =>
    simp only [eval]
    split <;> rfl
  | resume r v next =>
    simp only [eval, resume]
    cases hr : m.resumptions.find? r with
    | none =>
      simp only [arm, push, hr, Option.map_none]
      rfl
    | some k =>
      rw [arm_eq (m := m.push (.bind next)) hr]
      rfl
  | tailResume r v next =>
    simp only [eval, tailResume]
    cases hr : m.resumptions.find? r with
    | none =>
      simp only [arm, hr, Option.map_none]
      rfl
    | some k =>
      rw [arm_eq hr]
      simp only [bump]
      split <;> rfl
  | view v next =>
    obtain ⟨pool, journal, hview⟩ := exists_view_eq m v
    simp only [eval, hview]
    rfl
  | print p next =>
    obtain ⟨pool, journal, errors, hprint⟩ := exists_print_eq m p
    simp only [eval, hprint]
    rfl
  | popBare next =>
    simp only [eval]
    split
    · rfl
    · exact Chain.nextLabel_pop? ‹_›
  | _ => rfl

/-- The counter stays where it is in a step that hands out no label. -/
theorem step_nextLabel (hnone : ¬ m.HandsOut m.chain.nextLabel) :
    (m.step Γ).chain.nextLabel = m.chain.nextLabel := by
  cases hreleasing : m.releasing with
  | cons y hs =>
    rw [step_releasing hreleasing]
    exact nextLabel_releaseOne { m with releasing := hs } y
  | nil =>
    simp only [step, hreleasing]
    cases hcontrol : m.control with
    | eval c =>
      by_cases hhandle : ∃ x body next, c = .handle x body next
      · obtain ⟨x, body, next, rfl⟩ := hhandle
        have hexplicit : x.label ≠ none := fun hlabel =>
          hnone ⟨rfl, .inr ⟨x, body, next, ⟨hreleasing, hcontrol⟩, hlabel⟩⟩
        obtain ⟨label, hlabel⟩ := Option.ne_none_iff_exists'.mp hexplicit
        cases hcheck : m.chain.checkLabel label with
        | error f =>
          have hchosen : (m.push (.bind next)).chooseLabel x.label =
              (.error f, m.push (.bind next)) := by
            rw [hlabel]
            exact congrArg (fun r => (Except.map (fun _ => label) r, m.push (.bind next))) hcheck
          show ((m.push (.bind next)).install Γ x body).chain.nextLabel = _
          rw [install_of_refused hchosen]
          rfl
        | ok =>
          have hchosen : (m.push (.bind next)).chooseLabel x.label =
              (.ok label, m.push (.bind next)) := by
            rw [hlabel]
            exact congrArg (fun r => (Except.map (fun _ => label) r, m.push (.bind next))) hcheck
          have hinstalled := nextLabel_install (Γ := Γ) body hchosen
          exact hinstalled
      · refine nextLabel_eval (fun x body next h => hhandle ⟨x, body, next, h⟩) fun next h => ?_
        exact hnone ⟨rfl, .inl ⟨next, hreleasing, h ▸ hcontrol⟩⟩
    | ret v => exact nextLabel_give m v
    | deliver s => exact nextLabel_deliver m s
    | settle answer v => exact nextLabel_settle m answer v []
    | request r => exact nextLabel_forward m r
    | wake => exact nextLabel_wake m
    | unwind message => exact nextLabel_unwind m message
    | fault f => rfl
    | halted o => rfl

/-- The counter goes down where a label is handed out. -/
theorem HandsOut.step_nextLabel (h : m.HandsOut label) :
    label = m.chain.nextLabel ∧ (m.step Γ).chain.nextLabel = m.chain.nextLabel - 1 := by
  obtain ⟨rfl, ⟨next, hreleasing, hcontrol⟩ | ⟨x, body, next, ⟨hreleasing, hcontrol⟩, hnone⟩⟩ := h
  · refine ⟨rfl, ?_⟩
    simp only [step, hreleasing, hcontrol]
    rfl
  · refine ⟨rfl, ?_⟩
    have hchosen : (m.push (.bind next)).chooseLabel x.label = (.ok m.chain.nextLabel,
        { m.push (.bind next) with chain := m.chain.freshLabel.2 }) := by
      rw [hnone]
      rfl
    simp only [step, hreleasing, hcontrol]
    exact nextLabel_install body hchosen

/-- The counter never goes up, and goes down by one at most. -/
theorem nextLabel_step (m : Machine ω) :
    m.chain.nextLabel - 1 ≤ (m.step Γ).chain.nextLabel ∧
      (m.step Γ).chain.nextLabel ≤ m.chain.nextLabel := by
  by_cases hout : m.HandsOut m.chain.nextLabel
  · have hnext := (hout.step_nextLabel (Γ := Γ)).2
    omega
  · have hsame := step_nextLabel (Γ := Γ) hout
    omega

theorem nextLabel_run (m : Machine ω) (n : Nat) :
    m.chain.nextLabel - n ≤ (run Γ n m).chain.nextLabel ∧
      (run Γ n m).chain.nextLabel ≤ m.chain.nextLabel := by
  induction n with
  | zero => simp [run]
  | succ n ih =>
    have hstep := nextLabel_step (Γ := Γ) (run Γ n m)
    rw [run_succ]
    omega

theorem nextLabel_run_antitone (m : Machine ω) {j k : Nat} (hjk : j ≤ k) :
    (run Γ k m).chain.nextLabel ≤ (run Γ j m).chain.nextLabel := by
  obtain ⟨d, rfl⟩ := Nat.exists_eq_add_of_le hjk
  rw [run_add]
  exact (nextLabel_run (run Γ j m) d).2

/-- The counter of a thread is a word for its first 2⁶³ - 1 steps. -/
theorem retiredLabel_le_nextLabel (settings : SettingsSlot) (cells : List ω) (statics : List Owned)
    (main : Comp ω) (hn : n < 9223372036854775808) :
    retiredLabel ≤ (run Γ n (start settings cells statics main)).chain.nextLabel := by
  have hlow := (nextLabel_run (Γ := Γ) (start settings cells statics main) n).1
  have hstart : (start settings cells statics main).chain.nextLabel = -1 := rfl
  simp only [retiredLabel]
  omega

/-- The labels handed out so far are the ones that the counter has passed. -/
theorem exists_handsOut_iff (m : Machine ω) (n : Nat) (label : Int) :
    (∃ k < n, (run Γ k m).HandsOut label) ↔
      (run Γ n m).chain.nextLabel < label ∧ label ≤ m.chain.nextLabel := by
  induction n with
  | zero =>
    simp only [Nat.not_lt_zero, false_and, exists_false, run, false_iff]
    omega
  | succ n ih =>
    have hsplit : (∃ k < n + 1, (run Γ k m).HandsOut label) ↔
        (∃ k < n, (run Γ k m).HandsOut label) ∨ (run Γ n m).HandsOut label := by
      constructor
      · rintro ⟨k, hk, hout⟩
        rcases Nat.lt_succ_iff_lt_or_eq.mp hk with hlt | rfl
        · exact .inl ⟨k, hlt, hout⟩
        · exact .inr hout
      · rintro (⟨k, hk, hout⟩ | hout)
        · exact ⟨k, Nat.lt_succ_of_lt hk, hout⟩
        · exact ⟨n, Nat.lt_succ_self n, hout⟩
    have hlow : (run Γ n m).chain.nextLabel ≤ m.chain.nextLabel := (nextLabel_run m n).2
    rw [hsplit, ih, run_succ]
    by_cases hout : (run Γ n m).HandsOut (run Γ n m).chain.nextLabel
    · have hnext := (hout.step_nextLabel (Γ := Γ)).2
      have hiff : (run Γ n m).HandsOut label ↔ label = (run Γ n m).chain.nextLabel :=
        ⟨fun h => h.1, fun h => h ▸ hout⟩
      rw [hiff, hnext]
      omega
    · have hnever : ¬ (run Γ n m).HandsOut label := fun h => hout (h.1 ▸ h)
      rw [step_nextLabel hout]
      simp only [hnever, or_false]

/-! ### Labels of installations -/

/-- The next step makes an installation that has this label from then on. -/
def InstallsUnder (Γ : Library ω) (m : Machine ω) (x : Installing) (label : Int) : Prop :=
  (∃ body f, m.Installs Γ x body m.chain.installations.next f) ∧
    ((m.step Γ).chain.get m.chain.installations.next).label = label

omit [Contents ω] in
theorem declare_ok_iff (m : Machine ω) (name : String) (h : HandlerType ω) :
    (m.declare name h).1 = .ok () ↔
      name ∈ m.declared ∨ HandlerType.duplicate? [] (h.clauses.map (·.command)) = none := by
  unfold declare
  split
  · simp [*]
  · split <;> simp [*]

omit [Contents ω] in
theorem exists_duplicate_of_declare {m' : Machine ω} {name : String} {h : HandlerType ω} {f : Fault}
    (hdeclare : m.declare name h = (.error f, m')) :
    ∃ command, f = .duplicateClause name command := by
  unfold declare at hdeclare
  split at hdeclare
  · cases hdeclare
  · split at hdeclare <;> cases hdeclare
    exact ⟨_, rfl⟩

omit [Contents ω] in
theorem acquireStack_ok_iff (m : Machine ω) :
    m.acquireStack.1 = .ok () ↔ ∀ why, m.pool.acquire.1 ≠ .failed why := by
  unfold acquireStack
  simp only
  split <;> simp_all

omit [Contents ω] in
/-- Once a label is chosen, an installation is made exactly if nothing else stands in its way. -/
theorem install_of_chosen (body : ReferenceId → Comp ω) {m₁ : Machine ω}
    (hchosen : m.chooseLabel x.label = (.ok label, m₁)) :
    (m.Allows Γ x ∧ ∃ declared pool counters journal, m.install Γ x body = { m with
      chain := (m₁.chain.create (x.installation Γ label)).2.push m.chain.installations.next
      declared, pool, counters, journal
      references := (m.references.insert m.chain.installations.next).2
      fibers := m.fibersInstalled
      stack := [.start (body m.references.next),
        .owning (x.owned ++ [.reference m.references.next])]
      control := .wake }) ∨
    ¬ m.Allows Γ x ∧ (m.install Γ x body).chain = m₁.chain ∧
      (m.install Γ x body).control.IsHindrance x := by
  obtain ⟨nextLabel, hlabel⟩ := exists_chooseLabel_eq m x.label
  obtain rfl : m₁ = _ := (congrArg Prod.snd hchosen).symm.trans hlabel
  have hdeclare := declare_ok_iff ({ m with chain := { m.chain with nextLabel } } : Machine ω)
    x.handlerType (Γ.handlerType x.handlerType)
  obtain ⟨declared, journal, hdeclared⟩ := exists_declare_eq
    ({ m with chain := { m.chain with nextLabel } } : Machine ω) x.handlerType
    (Γ.handlerType x.handlerType)
  cases hdeclaring : ({ m with chain := { m.chain with nextLabel } } : Machine ω).declare
      x.handlerType (Γ.handlerType x.handlerType) with
  | mk outcome m₂ =>
  obtain rfl : m₂ = _ := (congrArg Prod.snd hdeclaring).symm.trans hdeclared
  rw [hdeclaring] at hdeclare
  cases outcome with
  | error f =>
    obtain ⟨command, rfl⟩ := exists_duplicate_of_declare hdeclaring
    refine .inr ⟨fun h => (by cases hdeclare.mpr h.1), ?_⟩
    simp only [install, hchosen, hdeclaring]
    exact ⟨rfl, .duplicate command⟩
  | ok =>
  have hacquire := acquireStack_ok_iff
    ({ m with chain := { m.chain with nextLabel }, declared, journal } : Machine ω)
  obtain ⟨pool, counters, journal', hacquired⟩ := exists_acquireStack_eq
    ({ m with chain := { m.chain with nextLabel }, declared, journal } : Machine ω)
  cases hacquiring : ({ m with
    chain := { m.chain with nextLabel }, declared, journal } : Machine ω).acquireStack with
  | mk outcome m₃ =>
  obtain rfl : m₃ = _ := (congrArg Prod.snd hacquiring).symm.trans hacquired
  rw [hacquiring] at hacquire
  cases outcome with
  | error why =>
    refine .inr ⟨fun h => (by cases hacquire.mpr h.2), ?_⟩
    simp only [install, hchosen, hdeclaring, hacquiring]
    cases why with
    | outOfMemory => exact ⟨rfl, .outOfMemory⟩
    | overflow => exact ⟨rfl, .overflow⟩
  | ok =>
    refine .inl ⟨⟨hdeclare.mp rfl, hacquire.mp rfl⟩, declared, pool, counters.bump .handles,
      .trace (.installed label x.handlerType) :: journal', ?_⟩
    have hfs : ∀ S : List (Activation ω),
        (m.fibers.create S).2.resume? m.fibers.parked.next
          (.driving m.chain.installations.next m.fibers.parked.next :: .stepping :: m.stack) =
            some (S, m.fibersInstalled) := by
      simp [Fibers.resume?, Fibers.create, Store.insert, Store.find?, Store.erase, fibersInstalled]
    exact install_eq hchosen hdeclaring hacquiring (hfs _)

/-- An installation is made exactly under the label that is chosen for it, if nothing else stands in
its way. -/
theorem installsUnder_iff {next : Value → Comp ω} (hm : m.Evaluates (.handle x body next)) :
    m.InstallsUnder Γ x label ↔
      m.Allows Γ x ∧ (m.chooseLabel x.label).1 = .ok label := by
  have hstep : m.step Γ = (m.push (.bind next)).install Γ x body := by
    simp only [step, hm.1, hm.2]
    rfl
  cases hchosen : (m.push (.bind next)).chooseLabel x.label with
  | mk outcome m₁ =>
  have hlabel : (m.chooseLabel x.label).1 = outcome := by
    refine Eq.trans ?_ (congrArg Prod.fst hchosen)
    cases x.label <;> rfl
  rw [hlabel]
  cases outcome with
  | error f =>
    have hchosen' : (m.push (.bind next)).chooseLabel x.label =
        (.error f, m.push (.bind next)) := by
      cases hx : x.label with
      | none =>
        rw [hx] at hchosen
        cases hchosen
      | some l =>
        rw [hx] at hchosen
        rw [← (Prod.mk.inj hchosen).2] at hchosen ⊢
        exact hchosen
    rw [install_of_refused hchosen'] at hstep
    refine ⟨fun h => ?_, fun h => by cases h.2⟩
    obtain ⟨⟨_, _, _, _, _, _, hwake, _⟩, _⟩ := h
    rw [hstep] at hwake
    cases hwake
  | ok chosen =>
    have hcounter : m₁.chain.installations = m.chain.installations := by
      obtain ⟨nextLabel, heq⟩ := exists_chooseLabel_eq (m.push (.bind next)) x.label
      rw [hchosen] at heq
      exact congrArg (fun m => m.chain.installations) heq
    rcases install_of_chosen (Γ := Γ) body hchosen with
      ⟨hallows, declared, pool, counters, journal, heq⟩ | ⟨hallows, -, hcontrol⟩
    · have hget := m₁.chain.get_pushed Installation.label (fun _ _ => rfl)
        (x.installation Γ chosen) m.chain.installations.next
      rw [hcounter, if_pos rfl] at hget
      rw [← hstep] at heq
      have hinstalls : m.Installs Γ x body m.chain.installations.next m.fibers.parked.next := by
        refine ⟨⟨next, hm⟩, rfl, rfl, ?_⟩
        rw [heq]
        exact ⟨rfl, rfl, rfl, rfl⟩
      have hmade : ((m.step Γ).chain.get m.chain.installations.next).label = chosen := by
        rw [heq]
        exact hget
      constructor
      · rintro ⟨-, rfl⟩
        exact ⟨hallows, congrArg Except.ok hmade.symm⟩
      · rintro ⟨-, hsame⟩
        exact ⟨⟨body, _, hinstalls⟩, hmade.trans (Except.ok.inj hsame)⟩
    · rw [← hstep] at hcontrol
      refine ⟨fun h => ?_, fun h => absurd h.1 hallows⟩
      obtain ⟨⟨_, _, _, _, _, _, hwake, _⟩, _⟩ := h
      rw [hwake] at hcontrol
      cases hcontrol

/-- If something else stands in its way, an installation ends in a fault or a panic of its own, and
nothing was put on the chain. -/
theorem step_of_hindered {next : Value → Comp ω} (hm : m.Evaluates (.handle x body next))
    (hx : x.label = some label) (hchosen : m.chooseLabel (some label) = (.ok label, m))
    (hhindered : ¬ m.Allows Γ x) :
    (m.step Γ).chain = m.chain ∧ (m.step Γ).control.IsHindrance x := by
  have hchosen' : (m.push (.bind next)).chooseLabel x.label = (.ok label, m.push (.bind next)) := by
    rw [hx]
    exact congrArg (·, m.push (.bind next)) (congrArg Prod.fst hchosen)
  have hstep : m.step Γ = (m.push (.bind next)).install Γ x body := by
    simp only [step, hm.1, hm.2]
    rfl
  rw [hstep]
  rcases install_of_chosen (Γ := Γ) body hchosen' with
    ⟨hallows, -⟩ | ⟨-, hchain, hcontrol⟩
  · exact absurd hallows hhindered
  · exact ⟨hchain, hcontrol⟩

/-- The fault of an explicit label that is not accepted. -/
def refusal (label : Int) : Fault :=
  if label = bottomLabel ∨ label = retiredLabel then .reservedLabel label else .unissuedLabel label

/-- The label was handed out before this step of the run. -/
def HandedOut (Γ : Library ω) (m₀ : Machine ω) (n : Nat) (label : Int) : Prop :=
  ∃ k < n, (run Γ k m₀).HandsOut label

/-- What the next step of a run has to do with labels. -/
structure Labelling (Γ : Library ω) (m₀ : Machine ω) (n : Nat) : Prop where
  /-- An installation that comes without a label receives one that no other has had. -/
  fresh : ∀ x label, x.label = none → (run Γ n m₀).InstallsUnder Γ x label →
    label ≠ bottomLabel ∧ label ≠ retiredLabel ∧ ¬ HandedOut Γ m₀ n label ∧
      ∀ k < n, ∀ x' label', (run Γ k m₀).InstallsUnder Γ x' label' → label ≠ label'
  /-- It is made, unless something other than its label stands in the way. -/
  supplied : ∀ x body next, (run Γ n m₀).Evaluates (.handle x body next) → x.label = none →
    ((∃ label, (run Γ n m₀).InstallsUnder Γ x label) ↔ (run Γ n m₀).Allows Γ x)
  /-- An explicit label is the label of the installation that is made with it. -/
  own : ∀ x label label', x.label = some label → (run Γ n m₀).InstallsUnder Γ x label' →
    label' = label
  /-- An installation with an explicit label is made if and only if the label is positive or was
  handed out, and nothing other than its label stands in the way. -/
  accepted : ∀ x body next label, (run Γ n m₀).Evaluates (.handle x body next) →
    x.label = some label → ((run Γ n m₀).InstallsUnder Γ x label ↔
      (run Γ n m₀).Allows Γ x ∧ (0 < label ∨ HandedOut Γ m₀ n label))
  /-- What stands in the way of an accepted label has a fault or a panic of its own. -/
  hindered : ∀ x body next label, (run Γ n m₀).Evaluates (.handle x body next) →
    x.label = some label → (0 < label ∨ HandedOut Γ m₀ n label) → ¬ (run Γ n m₀).Allows Γ x →
      (run Γ (n + 1) m₀).chain = (run Γ n m₀).chain ∧
        (run Γ (n + 1) m₀).control.IsHindrance x
  /-- Any other label ends the thread with a fault, and its chain is the one that it had. -/
  refused : ∀ x body next label, (run Γ n m₀).Evaluates (.handle x body next) →
    x.label = some label → ¬ (0 < label ∨ HandedOut Γ m₀ n label) →
      (run Γ n m₀).step Γ = ((run Γ n m₀).push (.bind next)).goOn (.fault (refusal label)) ∧
        (run Γ (n + 2) m₀).control =
          .halted (.fatal (refusal label) (run Γ n m₀).chain.listing)

omit [Contents ω] in
/-- An explicit label is accepted if it is positive or the counter has passed it. -/
theorem chooseLabel_of_issued (hword : retiredLabel ≤ m.chain.nextLabel)
    (h : 0 < label ∨ m.chain.nextLabel < label ∧ label ≤ -1) :
    m.chooseLabel (some label) = (.ok label, m) := by
  have hreserved : ¬ (label = bottomLabel ∨ label = retiredLabel) := by
    simp only [bottomLabel, retiredLabel] at hword ⊢
    omega
  have hissued : m.chain.isIssued label = true := by
    simp only [Chain.isIssued, Bool.or_eq_true, Bool.and_eq_true, decide_eq_true_eq, bne_iff_ne]
    omega
  simp only [chooseLabel, Chain.checkLabel, Bool.or_eq_true, beq_iff_eq, if_neg hreserved, hissued,
    if_true]
  rfl

omit [Contents ω] in
/-- Any other explicit label is refused. -/
theorem chooseLabel_of_not_issued (h : ¬ (0 < label ∨ m.chain.nextLabel < label ∧ label ≤ -1)) :
    m.chooseLabel (some label) = (.error (refusal label), m) := by
  simp only [chooseLabel, Prod.mk.injEq, and_true, Chain.checkLabel, refusal, Bool.or_eq_true,
    beq_iff_eq]
  split
  · rfl
  · rename_i hreserved
    have hissued : ¬ m.chain.isIssued label = true := by
      simp only [Chain.isIssued, Bool.or_eq_true, Bool.and_eq_true, decide_eq_true_eq, bne_iff_ne]
      simp only [bottomLabel] at hreserved
      omega
    rw [if_neg hissued]
    rfl

/-- In every run of every program, the label of an anonymous installation is new, and an explicit
label is accepted exactly if it is positive or was handed out, as long as the counter is a word. -/
theorem labels_are_new (settings : SettingsSlot) (cells : List ω) (statics : List Owned)
    (main : Comp ω) (n : Nat)
    (hword : retiredLabel ≤
      (run Γ (n + 1) (start settings cells statics main)).chain.nextLabel) :
    Labelling Γ (start settings cells statics main) n := by
  have hstart : (start settings cells statics main).chain.nextLabel = -1 := rfl
  generalize start settings cells statics main = m₀ at *
  have hcounter : ∀ k ≤ n, retiredLabel ≤ (run Γ k m₀).chain.nextLabel := fun k hk =>
    hword.trans (nextLabel_run_antitone m₀ (Nat.le_succ_of_le hk))
  have hhanded : ∀ k label, HandedOut Γ m₀ k label ↔
      (run Γ k m₀).chain.nextLabel < label ∧ label ≤ -1 := by
    intro k label
    rw [HandedOut, exists_handsOut_iff, hstart]
  have hanonymous : ∀ k x label, x.label = none → (run Γ k m₀).InstallsUnder Γ x label →
      (run Γ k m₀).HandsOut label := by
    intro k x label hx hinstalls
    obtain ⟨⟨body, f, ⟨next, hm⟩, -⟩, -⟩ := id hinstalls
    have hchosen := ((installsUnder_iff hm).mp hinstalls).2
    rw [hx] at hchosen
    exact ⟨(Except.ok.inj hchosen).symm, .inr ⟨x, body, next, hm, hx⟩⟩
  have hown : ∀ k ≤ n, ∀ (x : Installing) (label label' : Int), x.label = some label →
      (run Γ k m₀).InstallsUnder Γ x label' →
        label' = label ∧ (0 < label ∨ HandedOut Γ m₀ k label) := by
    intro k hk x label label' hx hinstalls
    obtain ⟨⟨body, f, ⟨next, hm⟩, -⟩, -⟩ := id hinstalls
    have hchosen := ((installsUnder_iff hm).mp hinstalls).2
    rw [hx] at hchosen
    rw [hhanded]
    by_cases hissued : 0 < label ∨ (run Γ k m₀).chain.nextLabel < label ∧ label ≤ -1
    · rw [chooseLabel_of_issued (hcounter k hk) hissued] at hchosen
      exact ⟨(Except.ok.inj hchosen).symm, hissued⟩
    · rw [chooseLabel_of_not_issued hissued] at hchosen
      cases hchosen
  exact
    { fresh := fun x label hx hinstalls => by
        have hout := hanonymous n x label hx hinstalls
        obtain ⟨hnow, hnext⟩ := hout.step_nextLabel (Γ := Γ)
        have hnegative := (nextLabel_run (Γ := Γ) m₀ n).2
        rw [run_succ] at hword
        have hnew : ¬ HandedOut Γ m₀ n label := by
          rw [hhanded]
          omega
        refine ⟨by simp only [bottomLabel]; omega, by omega, hnew, ?_⟩
        rintro k hk x' label' hinstalls' rfl
        cases hx' : x'.label with
        | none => exact hnew ⟨k, hk, hanonymous k x' label hx' hinstalls'⟩
        | some explicit =>
          obtain ⟨rfl, hpositive | ⟨j, hj, hout'⟩⟩ := hown k hk.le x' explicit label hx' hinstalls'
          · omega
          · exact hnew ⟨j, hj.trans hk, hout'⟩
      supplied := fun x body next hm hx => by
        constructor
        · rintro ⟨label, hinstalls⟩
          exact ((installsUnder_iff hm).mp hinstalls).1
        · intro hallows
          refine ⟨(run Γ n m₀).chain.nextLabel, (installsUnder_iff hm).mpr ⟨hallows, ?_⟩⟩
          rw [hx]
          rfl
      own := fun x label label' hx hinstalls =>
        (hown n (Nat.le_refl n) x label label' hx hinstalls).1
      accepted := fun x body next label hm hx => by
        constructor
        · intro hinstalls
          exact ⟨((installsUnder_iff hm).mp hinstalls).1,
            (hown n (Nat.le_refl n) x label label hx hinstalls).2⟩
        · rintro ⟨hallows, h⟩
          rw [hhanded] at h
          refine (installsUnder_iff hm).mpr ⟨hallows, ?_⟩
          rw [hx, chooseLabel_of_issued (hcounter n (Nat.le_refl n)) h]
      hindered := fun x body next label hm hx h hhindered => by
        rw [hhanded] at h
        have hchosen := chooseLabel_of_issued (hcounter n (Nat.le_refl n)) h
        rw [run_succ]
        exact step_of_hindered hm hx hchosen hhindered
      refused := fun x body next label hm hx hnot => by
        rw [hhanded] at hnot
        have hchosen : ((run Γ n m₀).push (.bind next)).chooseLabel x.label =
            (.error (refusal label), (run Γ n m₀).push (.bind next)) := by
          rw [hx]
          exact chooseLabel_of_not_issued hnot
        have hstep : (run Γ n m₀).step Γ =
            ((run Γ n m₀).push (.bind next)).goOn (.fault (refusal label)) := by
          simp only [step, hm.1, hm.2]
          exact install_of_refused hchosen
        refine ⟨hstep, ?_⟩
        rw [run_succ, run_succ, hstep]
        simp only [step, goOn, push, hm.1]
        rfl }

/-- A program that asks for a label, and makes an installation with it. -/
def relabelling : Comp Unit :=
  .ask .freshLabel fun v =>
    .handle { handlerType := "Reader", label := some v.toInt, handler := 1 }
      (fun _ => .done .unit) .done

/-- The label that `relabelling` was given is accepted. -/
theorem labels_are_new_relabelling :
    retiredLabel ≤ (run reader 2 (start {} [()] [] relabelling)).chain.nextLabel ∧
      Labelling reader (start {} [()] [] relabelling) 1 ∧
      (run reader 1 (start {} [()] [] relabelling)).InstallsUnder reader
        { handlerType := "Reader", label := some (-1), handler := 1 } (-1) := by
  have hword := retiredLabel_le_nextLabel (Γ := reader) (n := 2) {} [()] [] relabelling (by decide)
  have hlabels := labels_are_new {} [()] [] relabelling 1 hword
  have hout : HandedOut reader (start {} [()] [] relabelling) 1 (-1) :=
    ⟨0, Nat.one_pos, rfl, .inl ⟨_, rfl, rfl⟩⟩
  have hallows : (run reader 1 (start {} [()] [] relabelling)).Allows reader
      { handlerType := "Reader", label := some (-1), handler := 1 } :=
    ⟨.inr (by decide), fun why => by cases why <;> decide⟩
  exact ⟨hword, hlabels,
    (hlabels.accepted _ _ _ (-1) ⟨rfl, rfl⟩ rfl).mpr ⟨hallows, .inr hout⟩⟩

end Machine

end EffectHandlers
