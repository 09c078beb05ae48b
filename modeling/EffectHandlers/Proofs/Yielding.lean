import EffectHandlers.Proofs.Invoking
/-!
# Values correspond

A value that is given to the running code goes down to the next frame of the context, through
activations and fibers that do not show. A continuation that is resumed puts its code back on the
stacks, from which the value goes on.
-/

namespace EffectHandlers

variable {ω : Type} {Γ : Library ω} {m m' : Machine ω} {s s' : Evaluation ω} {l l' : Layout ω}
  {gone : Owned → Prop} {n : Nat} {v : Value} {S code : List (Activation ω)}
  {fs : Fibers (List (Activation ω))}

/-! ### Fibers that are resumed -/

/-- What a fiber that is resumed goes on with is what it was suspended with. -/
theorem Sound.woken (h : Sound Γ m l) (hcontrol : m.control = .wake)
    (hsub : ∀ f S, m.fibers.parked.find? f = some S → fs.parked.find? f = some S)
    (hcarries : fs.Carries m.stack code) :
    m.fibers.Carries m.stack code ∧
      ∃ t : Tower ω, l.front = t.code ∧ l.lifted = t.rest ∧ Woken m t ∧ code = t.code := by
  rcases h.of_wake hcontrol with ⟨body, S, -, -, hstack, -⟩ | ⟨t, hfront, hlifted, hw⟩
  · rw [hstack] at hcarries
    cases hcarries
  · have hparked : ∀ e ∈ t.rest.flatMap Tower.entries, m.fibers.parked.find? e.1 = some e.2 := by
      intro e he
      obtain ⟨t', ht', he'⟩ := List.mem_flatMap.mp he
      exact h.parks.parked (List.mem_append_left _ (hlifted ▸ ht')) e he'
    have hcode := Tower.carries hparked
    rw [← hw.stack] at hcode
    obtain rfl := hcarries.eq (hcode.mono hsub)
    exact ⟨hcode, t, hfront, hlifted, hw, rfl⟩

/-- Resuming a fiber takes it out of the parked ones. -/
theorem Fibers.resumed {f : FiberId} {running : List (Activation ω)}
    {fs' : Fibers (List (Activation ω))} (hwf : fs.parked.WellFormed)
    (h : fs.resume? f running = some (code, fs')) :
    fs.parked.find? f = some code ∧ fs'.resumers = ⟨f, fs.current, running⟩ :: fs.resumers ∧
      ∀ g S, fs'.parked.find? g = some S → fs.parked.find? g = some S := by
  obtain ⟨S, hS, heq⟩ := Option.map_eq_some_iff.mp h
  obtain ⟨rfl, rfl⟩ := Prod.mk.inj heq
  refine ⟨hS, rfl, fun g S' hg => ?_⟩
  rw [Store.find?_erase hwf] at hg
  split at hg
  · cases hg
  · exact hg

namespace Tracks

/-- A segment that is put back does not show. -/
theorem splice (h : Tracks gone m s) (segment : Segment) :
    Tracks gone { m with chain := m.chain.splice segment } s :=
  { h with
    installed := h.installed.modify (fun a => { a with below := some m.chain.top }) (fun _ => rfl)
      rfl }

/-- A fiber is resumed: no continuation goes on with it. -/
theorem unpark (h : Tracks gone m s) (hsound : Sound Γ m' l') (hfibers : m'.fibers = fs)
    (hresumptions : m'.resumptions = m.resumptions) (hpending : m'.pending = m.pending)
    (hexchanges : m'.exchanges = m.exchanges)
    (hsub : ∀ f S, fs.parked.find? f = some S → m.fibers.parked.find? f = some S) :
    Tracks gone { m with fibers := fs } s := by
  obtain ⟨hresumptions', hpending'⟩ := h.lose hsound (by rw [hfibers]; exact hsub)
    (by rw [hexchanges]; exact fun _ _ hy => hy) hresumptions hpending
  rw [hresumptions, hfibers] at hresumptions'
  rw [hpending, hfibers, hexchanges] at hpending'
  exact { h with resumptions := hresumptions', pending := hpending' }

end Tracks

/-- A value that somebody else takes is not that of an armed continuation. -/
theorem Cont.Holds.takeResult {x : Store Exchange} {k : Cont ω} {κ : Continuation ω} {w : Value}
    {e : ExchangeId} (h : k.Holds fs x κ w)
    (harmed : k.Armed (x.modify e fun y => { y with result := none })) :
    k.Holds fs (x.modify e fun y => { y with result := none }) κ w where
  stands := h.stands
  value := by
    have hvalue := h.value
    cases k with
    | function => exact hvalue
    | captured answer f segment e' =>
      obtain ⟨y, hy, hresult⟩ := harmed
      simp only [Cont.value?, Store.find?_modify] at hvalue hy ⊢
      split at hy
      · obtain ⟨z, -, rfl⟩ := Option.map_eq_some_iff.mp hy
        cases hresult
      · rename_i hne
        simpa [hne] using hvalue

variable [Contents ω]

/-- A fiber that is woken goes on, or passes the resume on; the evaluation waits for it. -/
theorem Sound.wakes (h : Sound Γ m l) (hΓ : Γ.Orderly) (htracks : Tracks gone m s)
    (hcontrol : m.control = .wake) (hreleasing : m.releasing = []) (hstage : Stage Γ m s n) :
    Advances Γ gone m s n := by
  have hgood : Good Γ (m.step Γ) := h.step hΓ
  have hm : m.step Γ = m.wake := by simp only [Machine.step, hreleasing, hcontrol]
  unfold Machine.wake at hm
  cases hstage with
  | @start body S hm' hstack hphase hframes =>
    simp only [hstack] at hm
    refine hgood.stutters (k := m.fibers.resumers.length + 1) ?_ ?_ (Nat.lt_succ_self _)
    · rw [hm]
      exact { htracks with }
    · rw [hm]
      refine .eval rfl hphase ?_
      rw [hframes, hstack]
      rfl
  | @wake i e modifier command rest code v hm' hcarries hcode hvalue hphase hframes =>
    obtain ⟨-, t, htower, hlifted, hw, hcode'⟩ := h.woken hcontrol (fun _ _ hf => hf) hcarries
    cases t with
    | invoker f j e' modifier' command' S =>
      have hstack : m.stack = .sending j e' modifier' command' :: S := hw.stack
      have hmodifier : modifier' ≠ .noResume := hw.modifier
      obtain ⟨⟨rfl, rfl, rfl, rfl⟩, rfl⟩ : (i = j ∧ e = e' ∧ modifier = modifier' ∧
          command = command') ∧ rest = S := by
        simpa [hcode, Tower.code, Tower.stack] using hcode'
      simp only [hstack, if_neg hmodifier, hvalue] at hm
      have hsound := h.answered htower hlifted hw v
      refine hgood.stutters
        (k := rest.length + m.waiting.length + m.fibers.resumers.length + 1) ?_ ?_ ?_
      · rw [hm]
        refine
          { htracks with
            pending := Option.Rel.weaken htracks.pending fun k p (hk : m.pending = some k) hholds =>
              hholds.takeResult (hsound.armed k ?_) }
        exact List.mem_append_left _ (by simp [hk])
      · rw [hm]
        refine .ret rfl hphase ?_
        rw [hframes, hcode]
        rfl
      · simp only [hcode, List.length_cons]
        omega
    | driver f j above S =>
      have hstack : m.stack = .driving j above.root :: .stepping :: S := hw.stack
      obtain ⟨stack, fs, l', hresume, hsound⟩ := h.passedOn htower hlifted hw
      obtain ⟨hfound, hresumers, hsub⟩ := Fibers.resumed h.parks.wellFormed hresume
      simp only [hstack] at hm
      rw [Machine.enter_eq rfl rfl hresume] at hm
      -- the fiber above carries the rest of the code
      rw [hstack] at hcarries
      cases hcarries with
      | @driver _ _ code' _ habove =>
        obtain rfl : code' = above.code := by simpa [Tower.code, Tower.stack] using hcode'
        obtain ⟨S', hfound', hcarries⟩ := Fibers.suspends_iff.mp habove
        obtain rfl : S' = stack := Option.some.inj (hfound'.symm.trans hfound)
        obtain ⟨hcarries', -⟩ := hsound.woken hcontrol hsub hcarries
        obtain ⟨i', modifier', command', rest', habove'⟩ := above.code_eq_cons
        rw [habove'] at hcode
        have hwaiting : (m.step Γ).waiting =
            .driving j above.root :: .stepping :: S ++ m.waiting := by
          rw [hm]
          simp [Machine.waiting, hresumers]
        refine hgood.stutters (k := above.code.length +
          (.driving j above.root :: .stepping :: S ++ m.waiting).length + fs.resumers.length +
            2 * (drivers above.code).length + 2) ?_ ?_ ?_
        · rw [hm]
          exact { htracks.unpark hsound rfl rfl rfl rfl hsub with }
        · have hframes' : s.frames = context (above.code ++ (m.step Γ).waiting) := by
            rw [hframes, hwaiting, List.append_assoc]
          rw [hm] at hframes'
          rw [← hwaiting, hm]
          obtain ⟨⟨rfl, rfl, rfl, rfl⟩, -⟩ : (i' = i ∧ above.exchange = e ∧ modifier' = modifier ∧
              command' = command) ∧ rest' ++ .driving j above.root :: .stepping :: S = rest := by
            simpa using hcode
          exact .wake rfl hcarries' habove' hvalue hphase hframes'
        · simp only [hresumers, drivers_append, drivers_cons, Activation.driver?]
          simp
          omega
  | _ => simp_all

/-! ### Steps that loops get -/

/-- A continuation is put on top of the context and goes on with its value. -/
theorem Sound.steps (h : Sound Γ m l) (hΓ : Γ.Orderly) (htracks : Tracks gone m s) {k : Cont ω}
    {κ : Continuation ω} (hcontrol : m.control = .deliver (.tail k)) (hreleasing : m.releasing = [])
    (hphase : s.phase = .resume κ v) (hk : k.Holds m.fibers m.exchanges κ v)
    (hframes : s.frames = context (m.stack ++ m.waiting)) : Advances Γ gone m s n := by
  have hgood : Good Γ (m.step Γ) := h.step hΓ
  obtain ⟨hfront, hlifted, S, hstack, hS⟩ := h.of_deliver hcontrol
  have hm : m.step Γ = m.stepCont k := by
    simp only [Machine.step, hreleasing, hcontrol, Machine.deliver, hstack]
  have hs : s.step Γ = s.enter κ v := by simp only [Evaluation.step, hphase]
  have hvalue := hk.value
  cases hk.stands with
  | @function answer x arg =>
    obtain rfl : arg = some v := hvalue
    have htracks₁ := htracks.push (.calling answer) (.answering answer)
    refine hgood.evaluates htracks₁ ?_ (by rw [hm]; rfl) (by rw [hs]; rfl)
    show Frame.answering answer :: s.frames = _
    rw [hframes]
    rfl
  | @captured answer segment e f code hsuspends =>
    obtain ⟨stack, fs, l', hresume, hsound⟩ :=
      h.stepped hfront hlifted hcontrol hreleasing hstack hS
    obtain ⟨hfound, hresumers, hsub⟩ := Fibers.resumed h.parks.wellFormed hresume
    obtain ⟨S', hfound', hcarries⟩ := Fibers.suspends_iff.mp hsuspends
    obtain rfl : S' = stack := Option.some.inj (hfound'.symm.trans hfound)
    obtain ⟨hcarries', -⟩ := hsound.woken rfl hsub hcarries
    -- the value is for the invoker whose wait comes first
    have hmem : Cont.captured answer f segment e ∈ m.conts :=
      List.mem_append_right _ (by simp [Machine.armed, hcontrol, Control.conts])
    obtain ⟨K, hK, hcont⟩ := h.exists_kept hmem rfl
    obtain ⟨rfl, rfl, rfl, rfl⟩ := Cont.captured.inj hcont
    obtain rfl : code = K.tower.code := hsuspends.eq (h.suspends hK)
    obtain ⟨i, modifier, command, rest, hcode⟩ := K.tower.code_eq_cons
    have hwaiting : fs.resumers.flatMap (·.code) =
        .driving K.segment.lowest K.tower.root :: m.stack ++ m.waiting := by
      simp [Machine.waiting, hresumers]
    have hstep := hm.trans (Machine.enter_eq rfl rfl hresume)
    refine hgood.advances (k := K.tower.code.length + (fs.resumers.flatMap (·.code)).length +
      fs.resumers.length + 2 * (drivers K.tower.code).length + 2) ?_ ?_
    · rw [hstep, hs]
      exact { (htracks.splice K.segment).unpark hsound rfl rfl rfl rfl hsub with }
    · rw [hstep, hs]
      refine .wake rfl hcarries' hcode hvalue rfl ?_
      show (context K.tower.code ++ [.handling K.segment.lowest]) ++ s.frames =
        context (K.tower.code ++ fs.resumers.flatMap (·.code))
      rw [hframes, hwaiting]
      simp [context_append, context_cons, Activation.frame?]

/-- A step is delivered to the loop on top. -/
theorem Sound.delivers (h : Sound Γ m l) (hΓ : Γ.Orderly) (htracks : Tracks gone m s)
    {x : Step (Cont ω) Value} (hcontrol : m.control = .deliver x) (hreleasing : m.releasing = [])
    (hstage : Stage Γ m s n) : Advances Γ gone m s n := by
  have hgood : Good Γ (m.step Γ) := h.step hΓ
  cases hstage with
  | @done v hm hphase hframes =>
    obtain ⟨-, -, S, hstack, hS⟩ := h.of_deliver hm
    have hm' : m.step Γ = { m with stack := S, control := .ret v } := by
      simp only [Machine.step, hreleasing, hm, Machine.deliver, hstack]
    refine hgood.stutters (k := S.length + m.waiting.length + m.fibers.resumers.length + 1) ?_ ?_ ?_
    · rw [hm']
      exact { htracks with }
    · rw [hm']
      refine .ret rfl hphase ?_
      rw [hframes, hstack]
      rfl
    · simp [Machine.depth, hstack]
  | tail hm hphase hk hframes => exact h.steps hΓ htracks hm hreleasing hphase hk hframes
  | _ => simp_all

/-! ### Values that are given -/

/-- An answer is turned into a step for the loop below, or gives way to a waiting tail resume. -/
theorem Good.settles (hgood : Good Γ (m.step Γ)) (htracks : Tracks gone m s) {answer : String}
    {kept : List Holding}
    (hm : m.step Γ = ({ m with stack := S } : Machine ω).settle answer v kept)
    (hphase : s.phase = .ret v) (hframes : s.frames = .answering answer :: context (S ++ m.waiting))
    (hn : 0 < n) : Advances Γ gone m s n := by
  have hrel := htracks.pending
  have hs : s.step Γ = s.give Γ v := by simp only [Evaluation.step, hphase]
  unfold Machine.settle at hm
  unfold Evaluation.give at hs
  simp only [hframes] at hs
  generalize hpending : m.pending = pending at hrel hm
  generalize hpending' : s.pending = pending' at hrel hs
  cases hrel with
  | none =>
    simp only at hm hs
    refine hgood.advances (k := S.length + m.waiting.length + m.fibers.resumers.length + 1) ?_ ?_
    · rw [hm, hs]
      exact { htracks with pending := .none }
    · rw [hm, hs]
      exact .done rfl rfl rfl
  | @some k p hholds =>
    obtain ⟨κ, w⟩ := p
    simp only [hholds.stands.answer_eq] at hm hs
    by_cases hanswer : k.answer = answer
    · simp only [if_pos hanswer] at hm hs
      refine hgood.advances (k := 1) ?_ ?_
      · rw [hm, hs]
        exact { htracks with pending := .none }
      · rw [hm, hs]
        exact .tail rfl rfl hholds rfl
    · simp only [if_neg hanswer] at hm hs
      exact Advances.fault hn (by simp only [Evaluation.ending, hphase]) htracks.actions
        (by rw [hm]; rfl) (by rw [hm]; rfl) (by rw [hs]; rfl) (by rw [hs]; rfl)

omit [Contents ω] in
/-- The return clause of a handler goes on in the place of the body. -/
theorem Evaluation.give_handling {i : InstallationId} {x : Handler} {F : List (Frame ω)}
    (hframes : s.frames = .handling i :: F) (hhandler : s.handler i = x) (v : Value) :
    s.give Γ v = { s with
      frames := .answering (Γ.handlerType x.handlerType).answer :: F
      installed := s.installed.modify i fun x => { x with label := retiredLabel }
      phase := .eval ((Γ.handlerType x.handlerType).onReturn x.cell v) } := by
  subst hhandler
  unfold give
  simp only [hframes]
  rfl

/-- The body of an installation returns, and the return clause starts. -/
theorem Sound.finishes (h : Sound Γ m l) (hΓ : Γ.Orderly) (htracks : Tracks gone m s)
    {i : InstallationId} {f : FiberId} (hcontrol : m.control = .ret v) (hreleasing : m.releasing = [])
    (hstack : m.stack = .driving i f :: .stepping :: S) (hS : Ready S) (hphase : s.phase = .ret v)
    (hframes : s.frames = context (m.stack ++ m.waiting)) : Advances Γ gone m s n := by
  have hgood : Good Γ (m.step Γ) := h.step hΓ
  obtain ⟨hfront, hlifted, -⟩ := h.of_ret hcontrol
  have hi : i ∈ drivers (l.front ++ m.waiting) := by simp [hfront, hstack, drivers_cons, Activation.driver?]
  have hzero : i ≠ 0 := by
    rintro rfl
    exact h.placed.nonzero (List.mem_append_left _ hi)
  have hhandler : s.handler i = (m.chain.get i).shown :=
    htracks.installed.handler_eq (.inr (h.placed.found i (List.mem_append_left _ hi)))
  obtain ⟨c', -, hpop, -⟩ := h.finished hfront hlifted hcontrol hstack hS
    (show (Comp.done (ω := ω) .unit).Orderly from trivial) ""
  have hm : m.step Γ = ({ m with stack := .stepping :: S } : Machine ω).finish Γ i v := by
    simp only [Machine.step, hreleasing, hcontrol, Machine.give, hstack]
  have hs : s.step Γ = s.give Γ v := by simp only [Evaluation.step, hphase]
  unfold Machine.finish at hm
  simp only [hpop, ne_eq, not_true_eq_false, if_false] at hm
  obtain ⟨b, -, rfl, rfl⟩ : ∃ b, (m.chain.get m.chain.top).below = some b ∧ m.chain.top = i ∧
      { m.chain.modify m.chain.top fun a => { a with below := none } with top := b } = c' := by
    simpa only [Chain.pop?, Option.map_eq_some_iff, Prod.mk.injEq] using hpop
  have hframes' : s.frames =
      .handling m.chain.top :: context (.stepping :: S ++ m.waiting) := by
    rw [hframes, hstack]
    rfl
  rw [Evaluation.give_handling hframes' hhandler] at hs
  have hinstalled : Installs ({ m.chain.modify m.chain.top fun a => { a with below := none } with
      top := b } : Chain) s.installed :=
    htracks.installed.modify (fun a => { a with below := none }) (fun _ => rfl) rfl
  have hfields : ∀ {α : Type} (g : Installation → α), (∀ a, g { a with below := none } = g a) →
      g (({ m.chain.modify m.chain.top fun a => { a with below := none } with
        top := b } : Chain).get m.chain.top) = g (m.chain.get m.chain.top) := fun g hg =>
    Chain.get_modify_congr g (fun a => { a with below := none }) hg
  refine hgood.advances (k := m.fibers.resumers.length + 1) ?_ ?_
  · rw [hm, hs]
    exact { htracks with installed := hinstalled.retire hzero }
  · rw [hm, hs]
    simp only [hfields Installation.handlerType fun _ => rfl, hfields Installation.handler fun _ => rfl]
    exact .eval rfl rfl rfl

/-- A fiber that has finished hands its value to the code that waits; at the end, the thread has
finished. -/
theorem Sound.handsBack (h : Sound Γ m l) (hΓ : Γ.Orderly) (htracks : Tracks gone m s)
    (hcontrol : m.control = .ret v) (hreleasing : m.releasing = []) (hstack : m.stack = [])
    (hphase : s.phase = .ret v) (hframes : s.frames = context (m.stack ++ m.waiting)) :
    Advances Γ gone m s (m.depth + 1) := by
  have hgood : Good Γ (m.step Γ) := h.step hΓ
  have hm : m.step Γ = m.give Γ v := by simp only [Machine.step, hreleasing, hcontrol]
  have hs : s.step Γ = s.give Γ v := by simp only [Evaluation.step, hphase]
  obtain ⟨hfront, hlifted, -⟩ := h.of_ret hcontrol
  unfold Machine.give at hm
  simp only [hstack, Machine.handBack] at hm
  cases hrs : m.fibers.resumers with
  | nil =>
    have hnone : m.fibers.handBack? = none := by simp only [Fibers.handBack?, hrs]
    have hempty : s.frames = [] := by
      rw [hframes, hstack]
      simp [Machine.waiting, hrs]
    simp only [hnone, Option.map_none] at hm
    simp only [Evaluation.give, hempty] at hs
    refine .inr ⟨0, .ended (o := .finished v) (x := .ok v) ?_ rfl ?_ ?_⟩
    · rw [hm]
      rfl
    · rw [hs]
      rfl
    · rw [hm, hs]
      exact htracks.actions
  | cons r rs =>
    obtain ⟨fs, hback, hsound⟩ := h.handedBack hfront hlifted hcontrol hstack hrs
    simp only [hback, Option.map_some] at hm
    obtain ⟨hresumers, hparked⟩ : fs.resumers = rs ∧ fs.parked = m.fibers.parked := by
      simp only [Fibers.handBack?, hrs, Option.some.injEq, Prod.mk.injEq, true_and] at hback
      exact ⟨by rw [← hback], by rw [← hback]⟩
    have hpool : Alike ({ m with fibers := fs, stack := r.code, control := .ret v } : Machine ω)
        { m with
          fibers := fs, stack := r.code, control := .ret v, pool := m.pool.giveBack.1 } := by
      simp only [Alike, Machine.bare, StackPool.use_giveBack]
      rfl
    have hwaiting : m.waiting = r.code ++ rs.flatMap (·.code) := by simp [Machine.waiting, hrs]
    have hsub : ∀ f S, m.fibers.parked.find? f = some S → fs.parked.find? f = some S := by
      rw [hparked]
      exact fun _ _ hf => hf
    have htracks' := htracks.park hsub
    refine .inl ⟨r.code.length + (fs.resumers.flatMap (·.code)).length + fs.resumers.length + 1, ?_,
      hgood.simulates (m := { m with fibers := fs, stack := r.code, control := .ret v })
        { htracks' with } (.ret rfl hphase ?_) (by rw [hm]; exact hpool.trans (Alike.warn _ _))⟩
    · simp only [Machine.depth, hwaiting, hresumers, hrs, List.length_append, List.length_cons]
      omega
    · rw [hframes, hstack, hwaiting, ← hresumers]
      rfl

/-- A value goes on to the next frame of the context. -/
theorem Sound.gives (h : Sound Γ m l) (hΓ : Γ.Orderly) (htracks : Tracks gone m s)
    (hcontrol : m.control = .ret v) (hreleasing : m.releasing = []) (hstage : Stage Γ m s n) :
    Advances Γ gone m s n := by
  have hgood : Good Γ (m.step Γ) := h.step hΓ
  have hm : m.step Γ = m.give Γ v := by simp only [Machine.step, hreleasing, hcontrol]
  obtain ⟨hphase, hframes, rfl⟩ : s.phase = .ret v ∧
      s.frames = context (m.stack ++ m.waiting) ∧ n = m.depth + 1 := by
    cases hstage <;> simp_all
  have hs : s.step Γ = s.give Γ v := by simp only [Evaluation.step, hphase]
  obtain ⟨hfront, hlifted, hready | ⟨i, f, S, hstack, hS⟩⟩ := h.of_ret hcontrol
  · cases hstack : m.stack with
    | nil => exact h.handsBack hΓ htracks hcontrol hreleasing hstack hphase hframes
    | cons a S =>
      rw [hstack] at hready hframes
      unfold Machine.give at hm
      simp only [hstack] at hm
      -- the value passes an activation that does not show
      have hpass : a.frame? = none → (m.step Γ).control = .ret v → (m.step Γ).stack = S →
          (m.step Γ).fibers = m.fibers → Tracks gone (m.step Γ) s →
          Advances Γ gone m s (m.depth + 1) := by
        intro ha hcontrol' hstack' hfibers' htracks'
        have hwaiting : (m.step Γ).waiting = m.waiting := by simp only [Machine.waiting, hfibers']
        refine hgood.stutters htracks' (.ret hcontrol' hphase ?_) ?_
        · rw [hframes, List.cons_append, context_cons, ha, hstack', hwaiting]
          rfl
        · simp [Machine.depth, hstack, hstack', hwaiting, hfibers']
      have htracks' : Tracks gone { m with stack := S }
          { s with frames := context (S ++ m.waiting) } := { htracks with }
      have hfaces : ∀ {x : Frame ω}, a.frame? = some x →
          s.frames = x :: context (S ++ m.waiting) := by
        intro x hx
        rw [hframes, List.cons_append, context_cons, hx]
        rfl
      cases hready with
      | inner ha hS =>
        cases a with
        | bind next =>
          simp only [Evaluation.give, hfaces rfl] at hs
          exact hgood.evaluates htracks' rfl (by rw [hm]; rfl) hs
        | owning os => exact hpass rfl (by rw [hm]; exact hcontrol) (by rw [hm]; rfl) (by rw [hm]; rfl) (by rw [hm]; exact { htracks with })
        | catching next =>
          simp only [Evaluation.give, hfaces rfl] at hs
          exact hgood.evaluates htracks' rfl (by rw [hm]; rfl) hs
        | looping body next =>
          simp only [Evaluation.give, hfaces rfl] at hs
          simp only at hm
          split at hm
          · exact hgood.evaluates (htracks'.push (.looping body next) (.looping body next)) rfl
              (by rw [hm]; rfl) hs
          · split at hs
            · simp_all
            · rename_i heq
              obtain ⟨rfl, rfl⟩ := Value.pair.inj heq
              exact hgood.evaluates htracks' rfl (by rw [hm]; rfl) hs
            · simp_all
          · split at hs
            · simp_all
            · simp_all
            · exact hgood.evaluates htracks' rfl (by rw [hm]; rfl) hs
        | inPlace i handler hidden e =>
          simp only [Evaluation.give, hfaces rfl] at hs
          refine hgood.advances (k := S.length + m.waiting.length + m.fibers.resumers.length + 1)
            ?_ ?_
          · rw [hm, hs]
            exact { htracks'.splice hidden with }
          · rw [hm, hs]
            exact .ret hcontrol rfl rfl
        | _ => cases ha
      | @answers _ S ha hS =>
        cases a with
        | clause keep answer =>
          refine hgood.stutters
            (k := S.length + 1 + m.waiting.length + m.fibers.resumers.length + 1) ?_ ?_ ?_
          · rw [hm]
            exact { htracks with }
          · rw [hm]
            exact .settle rfl hphase (hfaces rfl)
          · simp [Machine.depth, hstack]
        | returning i answer =>
          exact hgood.settles htracks hm hphase hframes (Nat.succ_pos _)
        | calling answer =>
          exact hgood.settles htracks hm hphase hframes (Nat.succ_pos _)
        | _ => cases ha
  · exact h.finishes hΓ htracks hcontrol hreleasing hstack hS hphase hframes

end EffectHandlers
